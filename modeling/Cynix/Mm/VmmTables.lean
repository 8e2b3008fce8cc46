import Cynix.Mm.Vmm

/-! # The page tables form a tree

`Tables` is the invariant of a pagemap: its tables are a tree of live pages,
and above the last level an entry is empty or refers to a table with the flag
bits 0b111. `get_next_level` keeps it and changes no last-level entry, so that
`vmm_map_page` changes one. -/
namespace Cynix.Mm.VmmTables
open Cynix.Base.Bytes Cynix.Base.Pages Cynix.Base.Radix Cynix.Lib.Misc Cynix.Lib.Alloc
open Cynix.Mm.Pmm Cynix.Mm.Vmm

variable {σ : Type} {A : PageAllocator σ} {hhdm top : Nat} {la57 : Bool} {h h' h'' : Heap σ}
  {T T' T'' : List (Fin 512) → Option Nat} {p : List (Fin 512)} {t : Nat} {i : Fin 512}

/-- An entry above the last level. -/
def Linked (e : Nat) : Prop := e = 0 ∨ ∃ u, u % 4096 = 0 ∧ u + 4096 ≤ 2 ^ 52 ∧ e = u ||| 0b111

structure Tables (A : PageAllocator σ) (hhdm : Nat) (la57 : Bool) (top : Nat) (h : Heap σ)
    (T : List (Fin 512) → Option Nat) : Prop where
  tree : Tree (depth la57) top (child hhdm h.mem) T
  page : ∀ p t, T p = some t → t % 4096 = 0 ∧ t + 4096 ≤ 2 ^ 52 ∧ (t, 1) ∈ A.live h.pmm
  linked : ∀ p t i, T p = some t → p.length < depth la57 → Linked (entryOf hhdm h.mem t i)
  source : ∀ p t, T p = some t → ∃ s s', A.alloc 1 s = some (t, s')

/-- A byte that lies in no page the allocator hands out. -/
def Spared (A : PageAllocator σ) (hhdm x : Nat) : Prop :=
  ∀ s a s', A.alloc 1 s = some (a, s') → ¬ OwnsAt hhdm (a, 1) x

/-- What `get_next_level` may do to the tables and the last-level entries. -/
structure Extends (A : PageAllocator σ) (hhdm : Nat) (la57 : Bool) (h : Heap σ) (T : List (Fin 512) → Option Nat)
    (h' : Heap σ) (T' : List (Fin 512) → Option Nat) : Prop where
  tables : ∀ q t, T q = some t → T' q = some t
  leaves : ∀ q t i, T q = some t → q.length = depth la57 →
    entryOf hhdm h'.mem t i = entryOf hhdm h.mem t i
  fresh : ∀ q t i, T' q = some t → T q = none → q.length = depth la57 → entryOf hhdm h'.mem t i = 0
  spared : ∀ x, Spared A hhdm x → h'.mem x = h.mem x

theorem Extends.refl (h : Heap σ) (T : List (Fin 512) → Option Nat) : Extends A hhdm la57 h T h T :=
  ⟨fun _ _ hq => hq, fun _ _ _ _ _ => rfl, fun _ _ _ h1 h2 _ => absurd (h1.symm.trans h2) (by simp),
    fun _ _ => rfl⟩

theorem Extends.trans (h1 : Extends A hhdm la57 h T h' T') (h2 : Extends A hhdm la57 h' T' h'' T'') :
    Extends A hhdm la57 h T h'' T'' := by
  refine ⟨fun q t hq => h2.tables q t (h1.tables q t hq), ?_, ?_,
    fun x hx => (h2.spared x hx).trans (h1.spared x hx)⟩
  · intro q t i hq hl
    rw [h2.leaves q t i (h1.tables q t hq) hl, h1.leaves q t i hq hl]
  · intro q t i hq hn hl
    cases hT' : T' q with
    | none => exact h2.fresh q t i hq hT' hl
    | some u =>
      have hut : u = t := Option.some.inj ((h2.tables q u hT').symm.trans hq)
      subst hut
      rw [h2.leaves q u i hT' hl, h1.fresh q u i hT' hn hl]

/-! ## Fresh pages -/

theorem entryOf_fill_same {mem : Mem} {ret : Nat} (hf : ret + 1 * 4096 < 2 ^ 64) (j : Fin 512) :
    entryOf hhdm (fillPages hhdm mem ret 1 0) ret j = 0 := by
  have hj := j.isLt
  refine read64_zero fun x h1 h2 => fillPages_zero hf ?_
  unfold OwnsAt
  simp only
  omega

theorem entryOf_fill_other {mem : Mem} {ret u : Nat} (hf : ret + 1 * 4096 < 2 ^ 64)
    (hap : Apart (ret, 1) (u, 1)) (j : Fin 512) :
    entryOf hhdm (fillPages hhdm mem ret 1 0) u j = entryOf hhdm mem u j := by
  have hj := j.isLt
  refine read64_congr fun x h1 h2 => fillPages_out hf (hap.symm.not_ownsAt ?_)
  unfold OwnsAt
  simp only
  omega

theorem pmmAllocVia_some {ret : Nat} (ha : pmmAllocVia A hhdm 1 h = some (ret, h')) :
    ∃ pmm, A.alloc 1 h.pmm = some (ret, pmm) ∧ h' = ⟨pmm, fillPages hhdm h.mem ret 1 0⟩ := by
  unfold pmmAllocVia at ha
  cases hA : A.alloc 1 h.pmm with
  | none => simp [hA] at ha
  | some r =>
    obtain ⟨a, pmm⟩ := r
    simp only [hA, Option.some.injEq, Prod.mk.injEq] at ha
    obtain ⟨rfl, rfl⟩ := ha
    exact ⟨pmm, rfl, rfl⟩

/-- A pagemap of one zeroed page. -/
theorem Tables.start (hA : A.Below (2 ^ 52)) (ha : pmmAllocVia A hhdm 1 h = some (top, h')) :
    Tables A hhdm la57 top h' fun p => if p = [] then some top else none := by
  obtain ⟨pmm, hp, rfl⟩ := pmmAllocVia_some ha
  have hzero : ∀ j, entryOf hhdm (fillPages hhdm h.mem top 1 0) top j = 0 :=
    entryOf_fill_same (A.alloc_fits (by decide) hp)
  have hpage := A.alloc_page (by decide) hp
  have hbelow := hA 1 _ _ _ (by decide) hp
  have hroot : ∀ (p : List (Fin 512)) t, (if p = [] then some top else none) = some t →
      p = [] ∧ top = t := by
    intro p t hp
    by_cases hn : p = []
    · exact ⟨hn, by simpa [hn] using hp⟩
    · simp [hn] at hp
  refine ⟨⟨by simp, ?_, ?_, ?_⟩, ?_, ?_, ?_⟩
  · intro p q t h1 h2
    rw [(hroot p t h1).1, (hroot q t h2).1]
  · intro p i t h1
    have := (hroot _ t h1).1
    simp at this
  · intro p t i h1 _
    obtain ⟨-, rfl⟩ := hroot p t h1
    simp [child, hzero, nextTable]
  · intro p t h1
    obtain ⟨-, rfl⟩ := hroot p t h1
    refine ⟨hpage, by omega, ?_⟩
    rw [A.alloc_live hp]
    simp
  · intro p t i h1 _
    obtain ⟨-, rfl⟩ := hroot p t h1
    exact Or.inl (hzero i)
  · intro p t h1
    obtain ⟨-, rfl⟩ := hroot p t h1
    exact ⟨_, _, hp⟩

/-! ## One level down -/

/-- The entries after `get_next_level` has put a fresh table in an empty place. -/
theorem entries_after_alloc (hT : Tables A hhdm la57 top h T) (hA : A.Below (2 ^ 52))
    (hp : T p = some t) {ret : Nat} {pmm : σ} (ha : A.alloc 1 h.pmm = some (ret, pmm)) {m' : Mem}
    (hm : m' = write64 (fillPages hhdm h.mem ret 1 0) (t + hhdm + i * 8) (ret ||| 0b111)) :
    (∀ q, T q ≠ some ret) ∧ entryOf hhdm m' t i = ret ||| 0b111 ∧
    (∀ j, entryOf hhdm m' ret j = 0) ∧
    ∀ q u j, T q = some u → (q, j) ≠ (p, i) → entryOf hhdm m' u j = entryOf hhdm h.mem u j := by
  have hpage := A.alloc_page (by decide) ha
  have hfit := A.alloc_fits (by decide) ha
  have hbelow := hA 1 _ _ _ (by decide) ha
  obtain ⟨ht, htb, -⟩ := hT.page p t hp
  have hap : ∀ q u, T q = some u → Apart (ret, 1) (u, 1) := fun q u hq =>
    A.alloc_apart (by decide) ha _ (hT.page q u hq).2.2
  have hfresh : ∀ q, T q ≠ some ret := by
    intro q hq
    have := hap q ret hq
    unfold Apart at this
    simp only at this
    omega
  have hret : ret ||| 0b111 < 2 ^ 64 := by
    rw [or_seven hpage]
    omega
  subst hm
  refine ⟨hfresh, entryOf_write hhdm hret, ?_, ?_⟩
  · intro j
    have hne : (ret, j) ≠ (t, i) := by
      intro he
      exact hfresh p ((Prod.mk.inj he).1 ▸ hp)
    rw [entryOf_write_ne hhdm ht hpage hne]
    exact entryOf_fill_same hfit j
  · intro q u j hq hne
    obtain ⟨hu, -, -⟩ := hT.page q u hq
    have hne' : (u, j) ≠ (t, i) := by
      intro he
      obtain ⟨rfl, rfl⟩ := Prod.mk.inj he
      exact hne (by rw [hT.tree.inj q p u hq hp])
    rw [entryOf_write_ne hhdm ht hu hne']
    exact entryOf_fill_other hfit (hap q u hq) j

/-- An entry of a table lies in a page of the allocator. -/
theorem Tables.spared_write (hT : Tables A hhdm la57 top h T) (hp : T p = some t) {m : Mem} {x w : Nat}
    (hx : Spared A hhdm x) : write64 m (t + hhdm + i * 8) w x = m x := by
  obtain ⟨s, s', hs⟩ := hT.source p t hp
  have hout := hx _ _ _ hs
  have hi := i.isLt
  unfold OwnsAt at hout
  simp only at hout
  exact write64_out (by omega)

/-- A fresh table in an empty place. -/
theorem Tables.grow (hT : Tables A hhdm la57 top h T) (hA : A.Below (2 ^ 52)) (hp : T p = some t)
    (hl : p.length < depth la57) (hc : child hhdm h.mem t i = none) {ret : Nat} {pmm : σ}
    (ha : A.alloc 1 h.pmm = some (ret, pmm)) {m' : Mem}
    (hm : m' = write64 (fillPages hhdm h.mem ret 1 0) (t + hhdm + i * 8) (ret ||| 0b111)) :
    Tables A hhdm la57 top ⟨pmm, m'⟩ (Function.update T (p ++ [i]) (some ret)) ∧
    Extends A hhdm la57 h T ⟨pmm, m'⟩ (Function.update T (p ++ [i]) (some ret)) := by
  obtain ⟨hfresh, hset, hnew, hold⟩ := entries_after_alloc hT hA hp ha hm
  have hpage := A.alloc_page (by decide) ha
  have hbelow := hA 1 _ _ _ (by decide) ha
  have hnone : T (p ++ [i]) = none := (hT.tree.child p t i hp hl).symm.trans hc
  have hcases : ∀ q u, Function.update T (p ++ [i]) (some ret) q = some u →
      u = ret ∨ T q = some u := by
    intro q u hq
    by_cases hqp : q = p ++ [i]
    · rw [hqp, Function.update_self, Option.some.injEq] at hq
      exact Or.inl hq.symm
    · rw [Function.update_of_ne hqp] at hq
      exact Or.inr hq
  refine ⟨⟨?_, ?_, ?_, ?_⟩, ?_, ?_, ?_, ?_⟩
  · refine hT.tree.grow hp hl hc hfresh ?_ ?_ ?_
    · rw [child, hset]
      exact nextTable_or hpage (by omega)
    · intro j
      rw [child, hnew]
      rfl
    · intro q u j hq hne
      rw [child, hold q u j hq hne]
      rfl
  · intro q u hq
    rw [A.alloc_live ha]
    rcases hcases q u hq with rfl | hq
    · exact ⟨hpage, by omega, by simp⟩
    · obtain ⟨h1, h2, h3⟩ := hT.page q u hq
      exact ⟨h1, h2, List.mem_cons_of_mem _ h3⟩
  · intro q u j hq hql
    rcases hcases q u hq with rfl | hqu
    · exact Or.inl (hnew j)
    · by_cases hqi : (q, j) = (p, i)
      · obtain ⟨rfl, rfl⟩ := Prod.mk.inj hqi
        have htu : t = u := Option.some.inj (hp.symm.trans hqu)
        subst htu
        exact Or.inr ⟨ret, hpage, by omega, hset⟩
      · rw [hold q u j hqu hqi]
        exact hT.linked q u j hqu hql
  · intro q u hq
    rcases hcases q u hq with rfl | hq
    · exact ⟨_, _, ha⟩
    · exact hT.source q u hq
  · intro q u hq
    rw [Function.update_of_ne]
    · exact hq
    · rintro rfl
      rw [hnone] at hq
      cases hq
  · intro q u j hq hql
    refine hold q u j hq ?_
    intro hqi
    rw [(Prod.mk.inj hqi).1] at hql
    omega
  · intro q u j hq hqn hql
    rcases hcases q u hq with rfl | hq
    · exact hnew j
    · rw [hqn] at hq
      cases hq
  · intro x hx
    subst hm
    exact (hT.spared_write hp hx).trans (fillPages_out (A.alloc_fits (by decide) ha) (hx _ _ _ ha))

/-- What `get_next_level` does: it finds a table, or it allocates one and refers to it. -/
theorem getNextLevel_cases (hT : Tables A hhdm la57 top h T) (hp : T p = some t)
    (hl : p.length < depth la57) {u : Nat} (hg : getNextLevel A hhdm t i true h = some (u, h')) :
    (child hhdm h.mem t i = some u ∧ h' = h) ∨
    (child hhdm h.mem t i = none ∧ ∃ pmm, A.alloc 1 h.pmm = some (u, pmm) ∧
      h' = ⟨pmm, write64 (fillPages hhdm h.mem u 1 0) (t + hhdm + i * 8) (u ||| 0b111)⟩) := by
  unfold getNextLevel at hg
  rcases hT.linked p t i hp hl with he | ⟨v, hv, hvb, he⟩
  · have hc : child hhdm h.mem t i = none := by simp [child, he, nextTable]
    have he' : read64 h.mem (t + hhdm + i * 8) = 0 := he
    simp only [he', Nat.zero_and, ne_eq, not_true_eq_false, if_false, Bool.true_eq_false] at hg
    cases ha : pmmAllocVia A hhdm 1 h with
    | none => simp [ha] at hg
    | some r =>
      obtain ⟨ret, h₁⟩ := r
      obtain ⟨pmm, hpmm, rfl⟩ := pmmAllocVia_some ha
      simp only [ha, Option.some.injEq, Prod.mk.injEq] at hg
      obtain ⟨rfl, rfl⟩ := hg
      exact .inr ⟨hc, pmm, hpmm, rfl⟩
  · have hc : child hhdm h.mem t i = some v := by rw [child, he, nextTable_or hv hvb]
    have he' : read64 h.mem (t + hhdm + i * 8) = v ||| 0b111 := he
    have hodd : (v ||| 0b111) &&& 0x01 ≠ 0 := by
      rw [or_seven hv, and_one_eq]
      omega
    simp only [he', hodd, ne_eq, not_false_eq_true, if_true, notFlags_or hv hvb, Option.some.injEq,
      Prod.mk.injEq] at hg
    obtain ⟨rfl, rfl⟩ := hg
    exact .inl ⟨hc, rfl⟩

theorem getNextLevel_spec (hT : Tables A hhdm la57 top h T) (hA : A.Below (2 ^ 52))
    (hp : T p = some t) (hl : p.length < depth la57) {u : Nat}
    (hg : getNextLevel A hhdm t i true h = some (u, h')) :
    ∃ T', Tables A hhdm la57 top h' T' ∧ T' (p ++ [i]) = some u ∧ Extends A hhdm la57 h T h' T' := by
  rcases getNextLevel_cases hT hp hl hg with ⟨hc, rfl⟩ | ⟨hc, pmm, hpmm, rfl⟩
  · exact ⟨T, hT, (hT.tree.child p t i hp hl).symm.trans hc, Extends.refl _ T⟩
  · obtain ⟨h1, h2⟩ := hT.grow hA hp hl hc hpmm rfl
    exact ⟨_, h1, Function.update_self .., h2⟩

/-! ## The last level -/

/-- The last-level entry of `v` when its table is there and the entry is present. -/
def leaf (hhdm : Nat) (la57 : Bool) (h : Heap σ) (T : List (Fin 512) → Option Nat) (v : Nat) :
    Option Nat := do
  let t ← T (upper v (depth la57))
  let e := entryOf hhdm h.mem t (index v 0)
  if e &&& 1 = 0 then none else some e

theorem length_upper (v : Nat) : ∀ k, (upper v k).length = k
  | 0 => rfl
  | k + 1 => by rw [upper, List.length_cons, length_upper v k]

theorem Tables.walk_eq (hT : Tables A hhdm la57 top h T) (v : Nat) :
    walk hhdm la57 h.mem top v = leaf hhdm la57 h T v := by
  unfold walk leaf
  rw [hT.tree.descend_eq hT.tree.root (by simp [length_upper]), List.nil_append]

/-- Growing the tree changes no translation: new tables are empty. -/
theorem Extends.leaf_eq (hE : Extends A hhdm la57 h T h' T') (v : Nat) :
    leaf hhdm la57 h' T' v = leaf hhdm la57 h T v := by
  unfold leaf
  cases hT : T (upper v (depth la57)) with
  | some t =>
    rw [hE.tables _ t hT]
    simp [hE.leaves _ t _ hT (length_upper v _)]
  | none =>
    cases hT' : T' (upper v (depth la57)) with
    | none => rfl
    | some t => simp [hE.fresh _ t _ hT' hT (length_upper v _)]

/-- The place of a page in the tables. -/
def place (la57 : Bool) (v : Nat) : List (Fin 512) × Fin 512 := (upper v (depth la57), index v 0)

/-- What `vmm_map_page` does to the tables and their entries. -/
structure Mapped (A : PageAllocator σ) (hhdm : Nat) (la57 : Bool) (virt e : Nat) (h : Heap σ)
    (T : List (Fin 512) → Option Nat) (h' : Heap σ) (T' : List (Fin 512) → Option Nat) : Prop where
  tables : ∀ q t, T q = some t → T' q = some t
  /-- The last-level entries of the old tables, but for that of the page itself. -/
  leaves : ∀ q t i, T q = some t → q.length = depth la57 → (q, i) ≠ place la57 virt →
    entryOf hhdm h'.mem t i = entryOf hhdm h.mem t i
  /-- Those of the new tables. -/
  fresh : ∀ q t i, T' q = some t → T q = none → q.length = depth la57 → (q, i) ≠ place la57 virt →
    entryOf hhdm h'.mem t i = 0
  own : ∃ t, T' (upper virt (depth la57)) = some t ∧ entryOf hhdm h'.mem t (index virt 0) = e
  spared : ∀ x, Spared A hhdm x → h'.mem x = h.mem x

theorem Mapped.leaf_eq {virt e : Nat} (hM : Mapped A hhdm la57 virt e h T h' T') (v : Nat) :
    leaf hhdm la57 h' T' v =
      if place la57 v = place la57 virt then (if e &&& 1 = 0 then none else some e)
      else leaf hhdm la57 h T v := by
  by_cases hpl : place la57 v = place la57 virt
  · obtain ⟨t, ht, he⟩ := hM.own
    obtain ⟨h1, h2⟩ := Prod.mk.inj hpl
    rw [if_pos hpl]
    simp [leaf, h1, h2, ht, he]
  · rw [if_neg hpl]
    unfold leaf
    cases hT : T (upper v (depth la57)) with
    | some t =>
      rw [hM.tables _ t hT]
      simp [hM.leaves _ t _ hT (length_upper v _) hpl]
    | none =>
      cases hT' : T' (upper v (depth la57)) with
      | none => rfl
      | some t => simp [hM.fresh _ t _ hT' hT (length_upper v _) hpl]

/-- Writing one last-level entry. -/
theorem Tables.write_leaf (hT : Tables A hhdm la57 top h T) {virt e : Nat} (he : e < 2 ^ 64)
    (ht : T (upper virt (depth la57)) = some t) {m' : Mem}
    (hm : m' = write64 h.mem (t + hhdm + index virt 0 * 8) e) :
    Tables A hhdm la57 top { h with mem := m' } T ∧
      Mapped A hhdm la57 virt e h T { h with mem := m' } T := by
  have hother : ∀ q u j, T q = some u → (q, j) ≠ place la57 virt →
      entryOf hhdm m' u j = entryOf hhdm h.mem u j := by
    intro q u j hq hne
    rw [hm]
    refine entryOf_write_ne hhdm (hT.page _ t ht).1 (hT.page q u hq).1 ?_
    intro heq
    obtain ⟨rfl, rfl⟩ := Prod.mk.inj heq
    exact hne (by rw [hT.tree.inj q _ u hq ht]; rfl)
  -- no table above the last level is the one written
  have habove : ∀ q u j, T q = some u → q.length < depth la57 →
      entryOf hhdm m' u j = entryOf hhdm h.mem u j := by
    intro q u j hq hl
    refine hother q u j hq ?_
    intro heq
    rw [(Prod.mk.inj heq).1, length_upper] at hl
    omega
  refine ⟨⟨hT.tree.congr ?_, hT.page, ?_, hT.source⟩, fun _ _ hq => hq, ?_, ?_, ⟨t, ht, ?_⟩, ?_⟩
  · intro q u j hq hl
    rw [child, habove q u j hq hl]
    rfl
  · intro q u j hq hl
    rw [habove q u j hq hl]
    exact hT.linked q u j hq hl
  · intro q u j hq _ hne
    exact hother q u j hq hne
  · intro q u j hq hn
    rw [hn] at hq
    cases hq
  · rw [hm]
    exact entryOf_write hhdm he
  · intro x hx
    rw [hm]
    exact hT.spared_write ht hx

theorem Extends.mapped {virt e : Nat} (hE : Extends A hhdm la57 h T h' T')
    (hM : Mapped A hhdm la57 virt e h' T' h'' T'') : Mapped A hhdm la57 virt e h T h'' T'' := by
  refine ⟨fun q t hq => hM.tables q t (hE.tables q t hq), ?_, ?_, hM.own,
    fun x hx => (hM.spared x hx).trans (hE.spared x hx)⟩
  · intro q t i hq hl hne
    rw [hM.leaves q t i (hE.tables q t hq) hl hne, hE.leaves q t i hq hl]
  · intro q t i hq hn hl hne
    cases hT' : T' q with
    | none => exact hM.fresh q t i hq hT' hl hne
    | some u =>
      have hut : u = t := Option.some.inj ((hM.tables q u hT').symm.trans hq)
      subst hut
      rw [hM.leaves q u i hT' hl hne, hE.fresh q u i hT' hn hl]

/-- **A rule for `vmm_map_page`**: what every `get_next_level` keeps holds when the
last-level entry is written. -/
theorem descend_rule {I : Heap σ → (List (Fin 512) → Option Nat) → Prop}
    (hstep : ∀ {h T p t i u h'}, Tables A hhdm la57 top h T → I h T → T p = some t →
      p.length < depth la57 → getNextLevel A hhdm t (i : Fin 512) true h = some (u, h') →
      ∃ T', Tables A hhdm la57 top h' T' ∧ T' (p ++ [i]) = some u ∧ I h' T')
    (hT : Tables A hhdm la57 top h T) (hI : I h T) {virt phys flags : Nat}
    (hm : vmmMapPage A hhdm la57 top virt phys flags h = some h') :
    ∃ t h₁ T₁, Tables A hhdm la57 top h₁ T₁ ∧ T₁ (upper virt (depth la57)) = some t ∧ I h₁ T₁ ∧
      h' = { h₁ with mem := write64 h₁.mem (t + hhdm + index virt 0 * 8) (phys ||| flags) } := by
  unfold vmmMapPage at hm
  rw [pml5Index_eq, pml4Index_eq, pml3Index_eq, pml2Index_eq, pml1Index_eq] at hm
  simp only [Option.bind_eq_bind, Option.bind_eq_some_iff, Prod.exists, Option.some.injEq] at hm
  obtain ⟨pml4, h4, hg4, pml3, h3, hg3, pml2, h2, hg2, pml1, h1, hg1, rfl⟩ := hm
  -- the top of the last four levels, under five or four
  have htop : ∃ p T₄, Tables A hhdm la57 top h4 T₄ ∧ T₄ p = some pml4 ∧ I h4 T₄ ∧
      p.length + 3 = depth la57 ∧
      upper virt (depth la57) = p ++ [index virt 3, index virt 2, index virt 1] := by
    cases la57 with
    | false =>
      simp only [Bool.false_eq_true, if_false, Option.some.injEq, Prod.mk.injEq] at hg4
      obtain ⟨rfl, rfl⟩ := hg4
      exact ⟨[], T, hT, hT.tree.root, hI, rfl, rfl⟩
    | true =>
      simp only [if_true] at hg4
      obtain ⟨T₄, hT₄, hp₄, hI₄⟩ := hstep hT hI hT.tree.root (by decide) hg4
      exact ⟨[index virt 4], T₄, hT₄, hp₄, hI₄, rfl, rfl⟩
  obtain ⟨p, T₄, hT₄, hp₄, hI₄, hlen, hup⟩ := htop
  obtain ⟨T₃, hT₃, hp₃, hI₃⟩ := hstep hT₄ hI₄ hp₄ (by omega) hg3
  obtain ⟨T₂, hT₂, hp₂, hI₂⟩ := hstep hT₃ hI₃ hp₃ (by simp; omega) hg2
  obtain ⟨T₁, hT₁, hp₁, hI₁⟩ := hstep hT₂ hI₂ hp₂ (by simp; omega) hg1
  refine ⟨pml1, h1, T₁, hT₁, ?_, hI₁, rfl⟩
  rw [hup]
  simpa using hp₁

theorem vmmMapPage_spec (hT : Tables A hhdm la57 top h T) (hA : A.Below (2 ^ 52))
    {virt phys flags : Nat} (he : phys ||| flags < 2 ^ 64)
    (hm : vmmMapPage A hhdm la57 top virt phys flags h = some h') :
    ∃ T', Tables A hhdm la57 top h' T' ∧ Mapped A hhdm la57 virt (phys ||| flags) h T h' T' := by
  have hstep : ∀ {h₁ T₁ p t i u h₂}, Tables A hhdm la57 top h₁ T₁ → Extends A hhdm la57 h T h₁ T₁ →
      T₁ p = some t → p.length < depth la57 → getNextLevel A hhdm t (i : Fin 512) true h₁ = some (u, h₂) →
      ∃ T₂, Tables A hhdm la57 top h₂ T₂ ∧ T₂ (p ++ [i]) = some u ∧ Extends A hhdm la57 h T h₂ T₂ := by
    intro h₁ T₁ p t i u h₂ hT₁ hE hp hl hg
    obtain ⟨T₂, hT₂, hu, hE₂⟩ := getNextLevel_spec hT₁ hA hp hl hg
    exact ⟨T₂, hT₂, hu, hE.trans hE₂⟩
  obtain ⟨t, h₁, T₁, hT₁, ht, hE, rfl⟩ := descend_rule hstep hT (Extends.refl h T) hm
  obtain ⟨hT', hM⟩ := hT₁.write_leaf he ht rfl
  exact ⟨T₁, hT', hE.mapped hM⟩

end Cynix.Mm.VmmTables
