import Cynix.Mm.KernelSpace

/-! # The kernel half can be shared

`vmm_init` fills the entries 256 to 511 of the kernel's top-level table before
anything is mapped. From then on calls on the kernel pagemap work below them, in
tables that every copy of these entries refers to as well. -/
namespace Cynix.Mm.SharedHalf
open Cynix.Base.Bytes Cynix.Base.Pages Cynix.Base.Radix Cynix.Lib.Misc Cynix.Lib.Alloc
open Cynix.Mm.Pmm Cynix.Mm.Vmm Cynix.Mm.VmmTables Cynix.Mm.VmmRuns Cynix.Mm.VmmInit Cynix.Mm.KernelSpace

variable {σ : Type} {A : PageAllocator σ} {hhdm top v : Nat} {la57 : Bool} {h h' h'' : Heap σ}
  {T T' T'' : List (Fin 512) → Option Nat} {p : List (Fin 512)} {t : Nat} {i : Fin 512} {r : Range}
  {calls : List Call}

/-! ## What calls leave alone -/

/-- The range is live, and no table of the pagemap lies in it. -/
structure Away (A : PageAllocator σ) (r : Range) (h : Heap σ) (T : List (Fin 512) → Option Nat) : Prop where
  live : r ∈ A.live h.pmm
  apart : ∀ q t, T q = some t → Apart (t, 1) r

/-- The tables of the pagemap stay where they are, and so does what is away from them. -/
structure Keeps (A : PageAllocator σ) (hhdm : Nat) (h : Heap σ) (T : List (Fin 512) → Option Nat)
    (h' : Heap σ) (T' : List (Fin 512) → Option Nat) : Prop where
  tables : ∀ q t, T q = some t → T' q = some t
  away : ∀ r, Away A r h T → Away A r h' T'
  frame : ∀ r, Away A r h T → ∀ x, OwnsAt hhdm r x → h'.mem x = h.mem x

theorem Keeps.refl (h : Heap σ) (T : List (Fin 512) → Option Nat) : Keeps A hhdm h T h T :=
  ⟨fun _ _ hq => hq, fun _ hr => hr, fun _ _ _ _ => rfl⟩

theorem Keeps.trans (h1 : Keeps A hhdm h T h' T') (h2 : Keeps A hhdm h' T' h'' T'') :
    Keeps A hhdm h T h'' T'' :=
  ⟨fun q t hq => h2.tables q t (h1.tables q t hq), fun r hr => h2.away r (h1.away r hr),
    fun r hr x hx => (h2.frame r (h1.away r hr) x hx).trans (h1.frame r hr x hx)⟩

/-- A write to an entry of a table is no write to what is away. -/
theorem Away.write (ha : Away A r h T) (hp : T p = some t) {m : Mem} {w x : Nat} (hx : OwnsAt hhdm r x) :
    write64 m (t + hhdm + i * 8) w x = m x := by
  have hout := (ha.apart p t hp).symm.not_ownsAt hx
  have hi := i.isLt
  unfold OwnsAt at hout
  simp only at hout
  exact write64_out (by omega)

theorem getNextLevel_keeps (hT : Tables A hhdm la57 top h T) (hA : A.Below (2 ^ 52))
    (hp : T p = some t) (hl : p.length < depth la57) {u : Nat}
    (hg : getNextLevel A hhdm t i true h = some (u, h')) :
    ∃ T', Tables A hhdm la57 top h' T' ∧ T' (p ++ [i]) = some u ∧ Keeps A hhdm h T h' T' := by
  rcases getNextLevel_cases hT hp hl hg with ⟨hc, rfl⟩ | ⟨hc, pmm, hpmm, rfl⟩
  · exact ⟨T, hT, (hT.tree.child p t i hp hl).symm.trans hc, Keeps.refl _ T⟩
  · obtain ⟨hT', hE⟩ := hT.grow hA hp hl hc hpmm rfl
    refine ⟨_, hT', Function.update_self .., hE.tables, fun r hr => ⟨?_, ?_⟩, fun r hr x hx => ?_⟩
    · rw [A.alloc_live hpmm]
      exact List.mem_cons_of_mem _ hr.live
    · intro q s hq
      by_cases hqp : q = p ++ [i]
      · rw [hqp, Function.update_self, Option.some.injEq] at hq
        subst hq
        exact A.alloc_apart (by decide) hpmm r hr.live
      · rw [Function.update_of_ne hqp] at hq
        exact hr.apart q s hq
    · have hap : Apart (u, 1) r := A.alloc_apart (by decide) hpmm r hr.live
      exact (hr.write hp hx).trans
        (fillPages_out (A.alloc_fits (by decide) hpmm) (hap.symm.not_ownsAt hx))

theorem vmmMapPage_keeps (hT : Tables A hhdm la57 top h T) (hA : A.Below (2 ^ 52))
    {virt phys flags : Nat} (he : phys ||| flags < 2 ^ 64)
    (hm : vmmMapPage A hhdm la57 top virt phys flags h = some h') :
    ∃ T', Tables A hhdm la57 top h' T' ∧ Keeps A hhdm h T h' T' := by
  have hstep : ∀ {h₁ T₁ p t i u h₂}, Tables A hhdm la57 top h₁ T₁ → Keeps A hhdm h T h₁ T₁ →
      T₁ p = some t → p.length < depth la57 → getNextLevel A hhdm t (i : Fin 512) true h₁ = some (u, h₂) →
      ∃ T₂, Tables A hhdm la57 top h₂ T₂ ∧ T₂ (p ++ [i]) = some u ∧ Keeps A hhdm h T h₂ T₂ := by
    intro h₁ T₁ p t i u h₂ hT₁ hK hp hl hg
    obtain ⟨T₂, hT₂, hu, hK₂⟩ := getNextLevel_keeps hT₁ hA hp hl hg
    exact ⟨T₂, hT₂, hu, hK.trans hK₂⟩
  obtain ⟨t, h₁, T₁, hT₁, ht, hK, rfl⟩ := descend_rule hstep hT (Keeps.refl h T) hm
  obtain ⟨hT', -⟩ := hT₁.write_leaf he ht rfl
  refine ⟨T₁, hT', hK.trans ⟨fun _ _ hq => hq, fun r hr => ⟨hr.live, hr.apart⟩, ?_⟩⟩
  exact fun r hr x hx => hr.write ht hx

/-- The arguments of a call have 64 bits. -/
def Call.Words (c : Call) : Prop := c.phys < 2 ^ 64 ∧ c.flags < 2 ^ 64

theorem mapPages_keeps (hA : A.Below (2 ^ 52)) (hT : Tables A hhdm la57 top h T)
    (hcs : ∀ c ∈ calls, Call.Words c) (hm : mapPages A hhdm la57 top calls h = some h') :
    ∃ T', Tables A hhdm la57 top h' T' ∧ Keeps A hhdm h T h' T' := by
  refine mapPages_rule (P := fun h₁ => ∃ T₁, Tables A hhdm la57 top h₁ T₁ ∧ Keeps A hhdm h T h₁ T₁)
    ⟨T, hT, Keeps.refl h T⟩ ?_ hm
  intro c hc h₁ h₂ hboth hmap
  obtain ⟨T₁, hT₁, hK₁⟩ := hboth
  obtain ⟨T₂, hT₂, hK₂⟩ := vmmMapPage_keeps hT₁ hA (Nat.or_lt_two_pow (hcs c hc).1 (hcs c hc).2) hmap
  exact ⟨T₂, hT₂, hK₁.trans hK₂⟩

/-! ## The upper half of the top-level table -/

/-- The entry of a table that is there is the same whenever it is looked at. -/
theorem entry_fixed (hT : Tables A hhdm la57 top h T) (hT' : Tables A hhdm la57 top h' T')
    (ht : T [i] = some t) (ht' : T' [i] = some t) :
    entryOf hhdm h'.mem top i = entryOf hhdm h.mem top i := by
  have hl : ([] : List (Fin 512)).length < depth la57 := by cases la57 <;> decide
  have hc : child hhdm h.mem top i = some t := (hT.tree.child [] top i hT.tree.root hl).trans ht
  have hc' : child hhdm h'.mem top i = some t := (hT'.tree.child [] top i hT'.tree.root hl).trans ht'
  rw [flagBits_of_linked hT hT.tree.root hl hc, flagBits_of_linked hT' hT'.tree.root hl hc']

/-- A canonical address of the higher half. -/
def HigherHalf (la57 : Bool) (v : Nat) : Prop :=
  2 ^ 64 - 2 ^ (12 + 9 * (depth la57 + 1) - 1) ≤ v ∧ v < 2 ^ 64

/-- It selects one of the entries 256 to 511. -/
theorem HigherHalf.index_le (hv : HigherHalf la57 v) : 256 ≤ (index v (depth la57)).val := by
  cases la57 with
  | false =>
    simp only [HigherHalf, depth, index, Bool.false_eq_true, if_false] at *
    omega
  | true =>
    simp only [HigherHalf, depth, index, if_true] at *
    omega

/-- The top-level table matters only through the entry that the address selects. -/
theorem translate_congr {mem : Mem} {u : Nat}
    (he : entryOf hhdm mem u (index v (depth la57)) = entryOf hhdm mem top (index v (depth la57))) :
    translate hhdm la57 mem u v = translate hhdm la57 mem top v := by
  unfold VmmInit.translate
  cases la57 with
  | false =>
    simp only [depth, Bool.false_eq_true, if_false] at he ⊢
    simp only [translateFrom, he]
  | true =>
    simp only [depth, if_true] at he ⊢
    simp only [translateFrom, he]

/-! ## Another pagemap -/

/-- A table that a walk through the pagemap comes to. -/
def IsTable (hhdm : Nat) (la57 : Bool) (mem : Mem) (top t : Nat) : Prop :=
  ∃ path : List (Fin 512), path.length ≤ depth la57 ∧ descend (child hhdm mem) top path = some t

/-- A pagemap with the top-level table `u` is set up when the heap is `h`, and the heap is `h'`
then: the table is a live page of its own, its upper half is a copy, and the tables of the kernel
pagemap are as they were. What else has been done to the heap is left open. -/
structure NewPagemap (A : PageAllocator σ) (hhdm : Nat) (la57 : Bool) (top u : Nat) (h h' : Heap σ) :
    Prop where
  live : (u, 1) ∈ A.live h'.pmm
  own : ∀ t, IsTable hhdm la57 h.mem top t → Apart (t, 1) (u, 1)
  kept : ∀ t, IsTable hhdm la57 h.mem top t → (t, 1) ∈ A.live h'.pmm ∧
    ∀ i, entryOf hhdm h'.mem t i = entryOf hhdm h.mem t i
  copy : ∀ i : Fin 512, 256 ≤ i.val → entryOf hhdm h'.mem u i = entryOf hhdm h.mem top i

theorem Tables.isTable (hT : Tables A hhdm la57 top h T) (hp : T p = some t) :
    IsTable hhdm la57 h.mem top t := by
  refine ⟨p, hT.tree.length_le hp, ?_⟩
  rw [hT.tree.descend_eq hT.tree.root (by simpa using hT.tree.length_le hp), List.nil_append, hp]

/-- The kernel's tables are not disturbed by it. -/
theorem NewPagemap.tables {u : Nat} (hN : NewPagemap A hhdm la57 top u h h')
    (hT : Tables A hhdm la57 top h T) : Tables A hhdm la57 top h' T ∧ Away A (u, 1) h' T := by
  have hentry : ∀ p t i, T p = some t → entryOf hhdm h'.mem t i = entryOf hhdm h.mem t i :=
    fun p t i hp => (hN.kept t (Tables.isTable hT hp)).2 i
  refine ⟨⟨hT.tree.congr ?_, ?_, ?_, hT.source⟩, hN.live, fun q t hq => hN.own t (Tables.isTable hT hq)⟩
  · intro p t i hp _
    rw [child, hentry p t i hp]
    rfl
  · intro p t hp
    obtain ⟨h1, h2, -⟩ := hT.page p t hp
    exact ⟨h1, h2, (hN.kept t (Tables.isTable hT hp)).1⟩
  · intro p t i hp hl
    rw [hentry p t i hp]
    exact hT.linked p t i hp hl

/-- The upper half of the kernel's top-level table has its tables after `vmm_init`. -/
theorem vmmInit_half {b : BootInfo} {physicalBase virtualBase : Nat} (hA : A.Below (2 ^ 52))
    (hb : BootOk A b h.mem physicalBase virtualBase) (hi : vmmInit A b h = some (top, h')) :
    ∃ T, Tables A b.hhdm b.la57 top h' T ∧ ∀ i : Fin 512, 256 ≤ i.val → ∃ t, T [i] = some t := by
  obtain ⟨h₁, T₁, hT₁, hhalf, -, hm⟩ := vmmInit_some hA hb.executable hb.file
    (fun p hp c hc => segment_call_ok hb hp hc) hi
  have hwords : ∀ c ∈ initCalls b h.mem physicalBase virtualBase, Call.Words c := by
    intro c hc
    have hok := initCalls_ok hb hc
    have hf : c.flags ≤ vmmPteFlagsMask := hok.flags ▸ Nat.and_le_right
    exact ⟨hok.small.trans (by decide), hf.trans_lt (by decide)⟩
  obtain ⟨T, hT, hK⟩ := mapPages_keeps hA hT₁ hwords hm
  refine ⟨T, hT, fun i hi => ?_⟩
  obtain ⟨t, ht⟩ := hhalf i hi
  exact ⟨t, hK.tables _ _ ht⟩

/-- **The kernel half is shared**: calls on the kernel pagemap never change the entries 256 to 511
of its top-level table, and a pagemap that got a copy of them at some moment translates every
higher-half address as the kernel pagemap does, whatever is mapped later. -/
theorem kernel_half_shared (A : PageAllocator σ) (hA : A.Below (2 ^ 52)) (b : BootInfo)
    (h h₀ h₁ : Heap σ) (physicalBase virtualBase top : Nat)
    (hb : BootOk A b h.mem physicalBase virtualBase) (hi : vmmInit A b h = some (top, h₀))
    (calls : List Call) (hcs : ∀ c ∈ calls, Call.Words c)
    (hm : mapPages A b.hhdm b.la57 top calls h₀ = some h₁) :
    (∀ i : Fin 512, 256 ≤ i.val → entryOf b.hhdm h₁.mem top i = entryOf b.hhdm h₀.mem top i) ∧
    ∀ u h₁', NewPagemap A b.hhdm b.la57 top u h₁ h₁' →
      ∀ calls' h₂, (∀ c ∈ calls', Call.Words c) → mapPages A b.hhdm b.la57 top calls' h₁' = some h₂ →
        (∀ i : Fin 512, 256 ≤ i.val → entryOf b.hhdm h₂.mem top i = entryOf b.hhdm h₀.mem top i) ∧
        ∀ v, HigherHalf b.la57 v →
          translate b.hhdm b.la57 h₂.mem u v = translate b.hhdm b.la57 h₂.mem top v := by
  obtain ⟨T₀, hT₀, hhalf⟩ := vmmInit_half hA hb hi
  obtain ⟨T₁, hT₁, hK₁⟩ := mapPages_keeps hA hT₀ hcs hm
  have hfixed₁ : ∀ i : Fin 512, 256 ≤ i.val →
      entryOf b.hhdm h₁.mem top i = entryOf b.hhdm h₀.mem top i := by
    intro i hi
    obtain ⟨t, ht⟩ := hhalf i hi
    exact entry_fixed hT₀ hT₁ ht (hK₁.tables _ _ ht)
  refine ⟨hfixed₁, fun u h₁' hN calls' h₂ hcs' hm' => ?_⟩
  obtain ⟨hT₁', haway⟩ := hN.tables hT₁
  obtain ⟨T₂, hT₂, hK₂⟩ := mapPages_keeps hA hT₁' hcs' hm'
  have hfixed₂ : ∀ i : Fin 512, 256 ≤ i.val →
      entryOf b.hhdm h₂.mem top i = entryOf b.hhdm h₀.mem top i := by
    intro i hi
    obtain ⟨t, ht⟩ := hhalf i hi
    exact entry_fixed hT₀ hT₂ ht (hK₂.tables _ _ (hK₁.tables _ _ ht))
  refine ⟨hfixed₂, fun v hv => translate_congr ?_⟩
  -- the copy has not been written since, and the original has not changed
  have hi := hv.index_le
  generalize index v (depth b.la57) = i at hi
  have hcopy : entryOf b.hhdm h₂.mem u i = entryOf b.hhdm h₁'.mem u i := by
    have hlt := i.isLt
    refine read64_congr fun x h1 h2 => hK₂.frame (u, 1) haway x ?_
    unfold OwnsAt
    simp only
    omega
  rw [hcopy, hN.copy i hi, hfixed₁ i hi, hfixed₂ i hi]

/-! ## A second pagemap on the machine -/

/-- The upper half of the table `u` becomes a copy of that of `top`. -/
def copyHalf (hhdm : Nat) (mem : Mem) (u top : Nat) : Mem := fun x =>
  if u + hhdm + 2048 ≤ x ∧ x < u + hhdm + 4096 then mem (top + (x - u)) else mem x

theorem copyHalf_entry {mem : Mem} {u : Nat} (hi : 256 ≤ i.val) :
    entryOf hhdm (copyHalf hhdm mem u top) u i = entryOf hhdm mem top i := by
  have hlt := i.isLt
  have hbyte : ∀ k, k < 8 → copyHalf hhdm mem u top (u + hhdm + i * 8 + k) =
      mem (top + hhdm + i * 8 + k) := by
    intro k hk
    unfold copyHalf
    rw [if_pos (by omega)]
    congr 1
    omega
  unfold entryOf read64
  rw [hbyte 1 (by decide), hbyte 2 (by decide), hbyte 3 (by decide), hbyte 4 (by decide),
    hbyte 5 (by decide), hbyte 6 (by decide), hbyte 7 (by decide)]
  rw [show copyHalf hhdm mem u top (u + hhdm + i * 8) = mem (top + hhdm + i * 8) from
    hbyte 0 (by decide)]

theorem copyHalf_other {mem : Mem} {u : Nat} (hap : Apart (t, 1) (u, 1)) :
    entryOf hhdm (copyHalf hhdm mem u top) t i = entryOf hhdm mem t i := by
  have hlt := i.isLt
  refine read64_congr fun x h1 h2 => if_neg ?_
  unfold Apart at hap
  simp only at hap
  omega

/-- A new top-level table from the allocator, with a copy of the upper half. -/
theorem newPagemap_copy (hT : Tables A hhdm la57 top h T) {u : Nat} {pmm : σ}
    (ha : A.alloc 1 h.pmm = some (u, pmm)) :
    NewPagemap A hhdm la57 top u h ⟨pmm, copyHalf hhdm h.mem u top⟩ := by
  have hlive : ∀ t, IsTable hhdm la57 h.mem top t → (t, 1) ∈ A.live h.pmm := by
    intro t htable
    obtain ⟨path, hl, hd⟩ := htable
    rw [hT.tree.descend_eq hT.tree.root (by simpa using hl), List.nil_append] at hd
    exact (hT.page path t hd).2.2
  have hap : ∀ t, IsTable hhdm la57 h.mem top t → Apart (t, 1) (u, 1) := fun t ht =>
    (A.alloc_apart (by decide) ha _ (hlive t ht)).symm
  refine ⟨?_, hap, fun t ht => ⟨?_, fun i => copyHalf_other (hap t ht)⟩, fun i hi => copyHalf_entry hi⟩
  · rw [A.alloc_live ha]
    exact List.mem_cons_self
  · rw [A.alloc_live ha]
    exact List.mem_cons_of_mem _ (hlive t ht)

theorem kernel_half_shared_small : ∃ top h₀ h₁ u h₁' h₂,
    vmmInit bump smallBoot ⟨[], smallFile⟩ = some (top, h₀) ∧
    mapPages bump smallBoot.hhdm smallBoot.la57 top [⟨0xffff900000000000, 0x5000, 3⟩] h₀ = some h₁ ∧
    NewPagemap bump smallBoot.hhdm smallBoot.la57 top u h₁ h₁' ∧
    mapPages bump smallBoot.hhdm smallBoot.la57 top [⟨0xffff910000000000, 0x6000, 3⟩] h₁' = some h₂ ∧
    ∀ v, HigherHalf smallBoot.la57 v →
      translate smallBoot.hhdm smallBoot.la57 h₂.mem u v =
        translate smallBoot.hhdm smallBoot.la57 h₂.mem top v := by
  obtain ⟨top, h₀, hi, hr₀⟩ := smallBoot_init
  obtain ⟨T₀, hT₀, -⟩ := vmmInit_half bump_below smallBoot_ok hi
  have hok : ∀ c ∈ [(⟨0xffff900000000000, 0x5000, 3⟩ : Call)], c.Ok smallBoot.la57 := by
    intro c hc
    obtain rfl := List.mem_singleton.mp hc
    exact ⟨by decide, by decide, by decide, by decide, by decide⟩
  have hok' : ∀ c ∈ [(⟨0xffff910000000000, 0x6000, 3⟩ : Call)], c.Ok smallBoot.la57 := by
    intro c hc
    obtain rfl := List.mem_singleton.mp hc
    exact ⟨by decide, by decide, by decide, by decide, by decide⟩
  have hwords : ∀ c ∈ [(⟨0xffff900000000000, 0x5000, 3⟩ : Call)], Call.Words c := by
    intro c hc
    obtain rfl := List.mem_singleton.mp hc
    exact ⟨by decide, by decide⟩
  have hwords' : ∀ c ∈ [(⟨0xffff910000000000, 0x6000, 3⟩ : Call)], Call.Words c := by
    intro c hc
    obtain rfl := List.mem_singleton.mp hc
    exact ⟨by decide, by decide⟩
  obtain ⟨h₁, hm, hr₁⟩ := mapPages_total (k := 12) bump_below bump_supply hT₀ (fun c hc => (hok c hc).entered) hr₀
  obtain ⟨T₁, hT₁, -⟩ := mapPages_keeps bump_below hT₀ hwords hm
  obtain ⟨u, pmm, ha, hr₂⟩ := bump_supply.take 11 _ hr₁
  have hN := newPagemap_copy hT₁ ha
  obtain ⟨h₂, hm', -⟩ := mapPages_total (k := 7) bump_below bump_supply (hN.tables hT₁).1
    (fun c hc => (hok' c hc).entered) hr₂
  exact ⟨top, h₀, h₁, u, _, h₂, hi, hm, hN, hm', ((kernel_half_shared bump bump_below smallBoot _ h₀ h₁ _ _
    top smallBoot_ok hi _ hwords hm).2 u _ hN _ h₂ hwords' hm').2⟩

end Cynix.Mm.SharedHalf
