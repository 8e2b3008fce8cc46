import Cynix.Mm.VmmTables

/-! # A pagemap is a finite map

A sequence of `vmm_map_page` calls on a fresh pagemap, against the map from
pages to entries that it stands for. -/
namespace Cynix.Mm.VmmRuns
open Cynix.Base.Bytes Cynix.Base.Pages Cynix.Base.Radix Cynix.Lib.Misc Cynix.Lib.Alloc
open Cynix.Mm.Vmm Cynix.Mm.VmmTables

structure Call where
  virt : Nat
  phys : Nat
  flags : Nat
  deriving DecidableEq

/-- The upper bits of an address repeat its highest translated bit. -/
def Canonical (la57 : Bool) (v : Nat) : Prop :=
  v < 2 ^ (12 + 9 * (depth la57 + 1) - 1) ∨
    2 ^ 64 - 2 ^ (12 + 9 * (depth la57 + 1) - 1) ≤ v ∧ v < 2 ^ 64

instance (la57 : Bool) (v : Nat) : Decidable (Canonical la57 v) :=
  inferInstanceAs (Decidable (_ ∨ _))

/-- What a caller of `vmm_map_page` passes. -/
structure Call.Ok (la57 : Bool) (c : Call) : Prop where
  canonical : Canonical la57 c.virt
  virt : c.virt % 4096 = 0
  phys : c.phys % 4096 = 0
  small : c.phys < 2 ^ 52
  flags : c.flags &&& vmmPteFlagsMask = c.flags

/-- What the tables need of a call: the page and the entry are not cut off. -/
structure Call.Entered (la57 : Bool) (c : Call) : Prop where
  canonical : Canonical la57 c.virt
  virt : c.virt % 4096 = 0
  phys : c.phys % 4096 = 0
  entry : c.phys ||| c.flags < 2 ^ 64

/-- The entry a call leaves for its page, as a walk finds it. -/
def Call.found (c : Call) : Option Nat :=
  if c.flags &&& vmmPtePresent = 0 then none else some (c.phys ||| c.flags)

/-- The last call made for a page. -/
def lastCall (calls : List Call) (v : Nat) : Option Call := calls.reverse.find? (·.virt == v)

variable {σ : Type} {A : PageAllocator σ} {hhdm top v w : Nat} {la57 : Bool} {h h' : Heap σ}
  {T : List (Fin 512) → Option Nat} {c : Call} {calls : List Call}

def mapPages (A : PageAllocator σ) (hhdm : Nat) (la57 : Bool) (top : Nat) (calls : List Call)
    (h : Heap σ) : Option (Heap σ) :=
  calls.foldlM (fun h c => vmmMapPage A hhdm la57 top c.virt c.phys c.flags h) h

theorem lastCall_concat (calls : List Call) (c : Call) (v : Nat) :
    lastCall (calls ++ [c]) v = if c.virt = v then some c else lastCall calls v := by
  unfold lastCall
  rw [List.reverse_append, List.reverse_singleton, List.singleton_append, List.find?_cons]
  by_cases hv : c.virt = v
  · simp [hv]
  · simp [hv, beq_false_of_ne hv]

/-- The indices of a canonical page address determine it. -/
theorem place_inj (hv : Canonical la57 v) (hw : Canonical la57 w) (hv0 : v % 4096 = 0)
    (hw0 : w % 4096 = 0) (h : place la57 v = place la57 w) : v = w := by
  cases la57 with
  | false =>
    simp only [place, depth, upper, index, Bool.false_eq_true, if_false, Prod.mk.injEq,
      List.cons.injEq, Fin.mk.injEq, and_true] at h
    simp only [Canonical, depth, Bool.false_eq_true, if_false] at hv hw
    omega
  | true =>
    simp only [place, depth, upper, index, if_true, Prod.mk.injEq, List.cons.injEq, Fin.mk.injEq,
      and_true] at h
    simp only [Canonical, depth, if_true] at hv hw
    omega

theorem Call.Ok.entry_lt (hc : c.Ok la57) : c.phys ||| c.flags < 2 ^ 64 := by
  have hf : c.flags ≤ vmmPteFlagsMask := hc.flags ▸ Nat.and_le_right
  have hm : vmmPteFlagsMask < 2 ^ 64 := by decide
  exact Nat.or_lt_two_pow (hc.small.trans (by decide)) (by omega)

theorem Call.Ok.entered (hc : c.Ok la57) : c.Entered la57 :=
  ⟨hc.canonical, hc.virt, hc.phys, hc.entry_lt⟩

/-- The page address does not disturb the present bit. -/
theorem Call.Entered.found_eq (hc : c.Entered la57) :
    (if (c.phys ||| c.flags) &&& 1 = 0 then none else some (c.phys ||| c.flags)) = c.found := by
  have hp : c.phys &&& 1 = 0 := by
    have := hc.phys
    rw [and_one_eq]
    omega
  rw [Nat.and_or_distrib_right, hp, Nat.zero_or]
  rfl

/-- One call updates the walk at its own page. -/
theorem Tables.walk_mapPage (hT : Tables A hhdm la57 top h T) (hA : A.Below (2 ^ 52))
    (hc : c.Entered la57) (hm : vmmMapPage A hhdm la57 top c.virt c.phys c.flags h = some h')
    (hv : Canonical la57 v) (hv0 : v % 4096 = 0) :
    walk hhdm la57 h'.mem top v =
      if c.virt = v then c.found else walk hhdm la57 h.mem top v := by
  obtain ⟨T', hT', hM⟩ := vmmMapPage_spec hT hA hc.entry hm
  have hpl : place la57 v = place la57 c.virt ↔ c.virt = v :=
    ⟨fun he => (place_inj hv hc.canonical hv0 hc.virt he).symm, fun he => by rw [he]⟩
  rw [hT'.walk_eq, hT.walk_eq, hM.leaf_eq v, hc.found_eq]
  simp only [hpl]

/-- The pagemap after the calls, next to the map they stand for. -/
structure PagemapOk (A : PageAllocator σ) (hhdm : Nat) (la57 : Bool) (top : Nat) (calls : List Call)
    (h : Heap σ) (T : List (Fin 512) → Option Nat) : Prop where
  walk : ∀ v, Canonical la57 v → v % 4096 = 0 →
    Vmm.walk hhdm la57 h.mem top v = (lastCall calls v).bind Call.found
  /-- `T` are the tables that can be reached, and no two paths lead to one. -/
  tree : Tree (depth la57) top (child hhdm h.mem) T
  /-- Every table but the top one is referred to by exactly one entry. -/
  once : ∀ p t, T p = some t → p ≠ [] → ∃! r : Nat × Fin 512,
    (∃ q, T q = some r.1 ∧ q.length < depth la57) ∧ child hhdm h.mem r.1 r.2 = some t
  flagBits : ∀ p t i u, T p = some t → p.length < depth la57 → child hhdm h.mem t i = some u →
    entryOf hhdm h.mem t i = u ||| 0b111
  /-- The next call changes no last-level entry but that of its own page. -/
  others : ∀ c : Call, c.Ok la57 → ∀ h',
    vmmMapPage A hhdm la57 top c.virt c.phys c.flags h = some h' →
    ∀ q t i, T q = some t → q.length = depth la57 → (q, i) ≠ place la57 c.virt →
      entryOf hhdm h'.mem t i = entryOf hhdm h.mem t i

theorem referred_once (hT : Tables A hhdm la57 top h T) {p : List (Fin 512)} {t : Nat}
    (hp : T p = some t) (hne : p ≠ []) : ∃! r : Nat × Fin 512,
      (∃ q, T q = some r.1 ∧ q.length < depth la57) ∧ child hhdm h.mem r.1 r.2 = some t := by
  cases List.eq_nil_or_concat p with
  | inl hn => exact absurd hn hne
  | inr hc =>
    obtain ⟨q, i, rfl⟩ := hc
    rw [List.concat_eq_append] at hp
    obtain ⟨hl, u, hu⟩ := hT.tree.closed q i t hp
    have hci : child hhdm h.mem u i = some t := (hT.tree.child q u i hu hl).trans hp
    refine ⟨(u, i), ⟨⟨q, hu, hl⟩, hci⟩, ?_⟩
    rintro ⟨u', i'⟩ ⟨⟨q', hu', hl'⟩, hci'⟩
    obtain ⟨rfl, rfl⟩ := hT.tree.unique_ref hu' hu hl' hl hci' hci
    rfl

theorem flagBits_of_linked (hT : Tables A hhdm la57 top h T) {p : List (Fin 512)} {t u : Nat}
    {i : Fin 512} (hp : T p = some t) (hl : p.length < depth la57)
    (hc : child hhdm h.mem t i = some u) : entryOf hhdm h.mem t i = u ||| 0b111 := by
  rcases hT.linked p t i hp hl with he | ⟨v, hv, hvb, he⟩
  · simp [child, he, nextTable] at hc
  · rw [child, he, nextTable_or hv hvb, Option.some.injEq] at hc
    rw [he, hc]

/-- What every call keeps holds after all of them. -/
theorem mapPages_rule {P : Heap σ → Prop} {h₀ : Heap σ} (hP : P h₀)
    (hstep : ∀ c ∈ calls, ∀ h₁ h₂, P h₁ → vmmMapPage A hhdm la57 top c.virt c.phys c.flags h₁ = some h₂ → P h₂)
    (hm : mapPages A hhdm la57 top calls h₀ = some h) : P h := by
  induction calls generalizing h₀ with
  | nil =>
    obtain rfl := Option.some.inj hm
    exact hP
  | cons c calls ih =>
    rw [mapPages, List.foldlM_cons, Option.bind_eq_bind, Option.bind_eq_some_iff] at hm
    obtain ⟨h₁, hc, hm⟩ := hm
    have hP₁ := hstep c List.mem_cons_self h₀ h₁ hP hc
    exact ih hP₁ (fun d hd => hstep d (List.mem_cons_of_mem c hd)) hm

/-- The calls one after another: the invariant, and the walk as the last calls say. -/
theorem mapPages_tables (hA : A.Below (2 ^ 52)) {h₀ : Heap σ} {T₀ : List (Fin 512) → Option Nat}
    (hT₀ : Tables A hhdm la57 top h₀ T₀) (hcs : ∀ c ∈ calls, c.Entered la57)
    (hm : mapPages A hhdm la57 top calls h₀ = some h) :
    (∃ T, Tables A hhdm la57 top h T) ∧ ∀ v, Canonical la57 v → v % 4096 = 0 →
      walk hhdm la57 h.mem top v = match lastCall calls v with
        | some c => c.found
        | none => walk hhdm la57 h₀.mem top v := by
  induction calls using List.reverseRecOn generalizing h with
  | nil =>
    simp only [mapPages, List.foldlM_nil, Option.pure_def, Option.some.injEq] at hm
    subst hm
    exact ⟨⟨T₀, hT₀⟩, fun v _ _ => rfl⟩
  | append_singleton calls c ih =>
    rw [mapPages, List.foldlM_append, Option.bind_eq_bind, Option.bind_eq_some_iff] at hm
    obtain ⟨h₁, hm₁, hm⟩ := hm
    simp only [List.foldlM_cons, List.foldlM_nil, Option.bind_eq_bind, Option.pure_def,
      Option.bind_fun_some] at hm
    obtain ⟨⟨T₁, hT₁⟩, hw⟩ := ih (fun c hc => hcs c (by simp [hc])) hm₁
    have hc := hcs c (by simp)
    obtain ⟨T, hT, -⟩ := vmmMapPage_spec hT₁ hA hc.entry hm
    refine ⟨⟨T, hT⟩, fun v hv hv0 => ?_⟩
    rw [Tables.walk_mapPage hT₁ hA hc hm hv hv0, lastCall_concat]
    by_cases hcv : c.virt = v
    · simp [hcv]
    · rw [if_neg hcv, if_neg hcv]
      exact hw v hv hv0

/-- Nothing is mapped in a fresh pagemap. -/
theorem walk_start (hA : A.Below (2 ^ 52)) {h₀ : Heap σ}
    (h₀' : pmmAllocVia A hhdm 1 h₀ = some (top, h)) (v : Nat) :
    walk hhdm la57 h.mem top v = none := by
  rw [(Tables.start hA h₀').walk_eq, leaf]
  cases la57 <;> simp [depth, upper]

/-- **A pagemap refines a finite map**: after any calls the processor's walk
finds what the last call for a page has put there, if that was present. -/
theorem pagemap_refines_map (A : PageAllocator σ) (hA : A.Below (2 ^ 52)) (hhdm : Nat) (la57 : Bool)
    (h₀ h₁ h : Heap σ) (top : Nat) (htop : pmmAllocVia A hhdm 1 h₀ = some (top, h₁))
    (calls : List Call) (hcs : ∀ c ∈ calls, c.Ok la57)
    (hm : mapPages A hhdm la57 top calls h₁ = some h) : ∃ T, PagemapOk A hhdm la57 top calls h T := by
  obtain ⟨⟨T, hT⟩, hw⟩ := mapPages_tables hA (Tables.start hA htop) (fun c hc => (hcs c hc).entered) hm
  refine ⟨T, ?_, hT.tree, fun p t hp hne => referred_once hT hp hne,
    fun p t i u hp hl hc => flagBits_of_linked hT hp hl hc, ?_⟩
  · intro v hv hv0
    rw [hw v hv hv0, walk_start hA htop]
    cases lastCall calls v <;> rfl
  · intro c hc h' hm' q t i hq hl hne
    obtain ⟨T', -, hM⟩ := vmmMapPage_spec hT hA hc.entry_lt hm'
    exact hM.leaves q t i hq hl hne

/-- A fresh pagemap and one page mapped in it, five levels deep. -/
def onePage (flags : Nat) : Option (Nat × Heap (List Range)) := do
  let (top, h) ← pmmAllocVia bump 0 1 ⟨[], fun _ => 0⟩
  let h ← mapPages bump 0 true top [⟨0xffff800000001000, 0x5000, flags⟩] h
  some (top, h)

theorem onePage_some (flags : Nat) (h : (onePage flags).isSome = true) :
    ∃ top h₁ h₂, pmmAllocVia bump 0 1 ⟨[], fun _ => 0⟩ = some (top, h₁) ∧
      mapPages bump 0 true top [⟨0xffff800000001000, 0x5000, flags⟩] h₁ = some h₂ := by
  obtain ⟨r, hr⟩ := Option.isSome_iff_exists.mp h
  unfold onePage at hr
  simp only [Option.bind_eq_bind, Option.bind_eq_some_iff, Prod.exists] at hr
  obtain ⟨top, h₁, h1, h₂, h2, -⟩ := hr
  exact ⟨top, h₁, h₂, h1, h2⟩

theorem pagemap_refines_map_one_page : ∃ top h₁ h,
    pmmAllocVia bump 0 1 ⟨[], fun _ => 0⟩ = some (top, h₁) ∧
    mapPages bump 0 true top [⟨0xffff800000001000, 0x5000, 3⟩] h₁ = some h ∧
    ∃ T, PagemapOk bump 0 true top [⟨0xffff800000001000, 0x5000, 3⟩] h T := by
  obtain ⟨top, h₁, h, h1, h2⟩ := onePage_some 3 (by decide +kernel)
  refine ⟨top, h₁, h, h1, h2, pagemap_refines_map bump bump_below 0 true _ _ _ top h1 _ ?_ h2⟩
  intro c hc
  obtain rfl := List.mem_singleton.mp hc
  exact ⟨by decide, by decide, by decide, by decide, by decide⟩

/-- A call without `VMM_PTE_PRESENT` leaves its page unmapped: the walk does
not find its `phys | flags`. -/
theorem call_without_present_not_found : ∃ top h₁ h,
    pmmAllocVia bump 0 1 ⟨[], fun _ => 0⟩ = some (top, h₁) ∧
    mapPages bump 0 true top [⟨0xffff800000001000, 0x5000, 2⟩] h₁ = some h ∧
    Call.Ok true ⟨0xffff800000001000, 0x5000, 2⟩ ∧
    walk 0 true h.mem top 0xffff800000001000 ≠ some (0x5000 ||| 2) := by
  obtain ⟨top, h₁, h, h1, h2⟩ := onePage_some 2 (by decide +kernel)
  have hok : Call.Ok true ⟨0xffff800000001000, 0x5000, 2⟩ :=
    ⟨by decide, by decide, by decide, by decide, by decide⟩
  refine ⟨top, h₁, h, h1, h2, hok, ?_⟩
  have hw := (mapPages_tables bump_below (Tables.start bump_below h1) (by simpa using hok.entered) h2).2
    0xffff800000001000 (by decide) (by decide)
  rw [hw, show lastCall [⟨0xffff800000001000, 0x5000, 2⟩] 0xffff800000001000 =
    some ⟨0xffff800000001000, 0x5000, 2⟩ from rfl]
  simp [Call.found, vmmPtePresent]

end Cynix.Mm.VmmRuns
