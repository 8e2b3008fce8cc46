import Cynix.Mm.SlabSizes

/-! # Growing an object

`slab_realloc` takes a larger object first, copies the whole old entry into it
and only then puts the old object on its free list. The link stored there lies
in the old object alone, so nobody else's bytes change. -/
namespace Cynix.Mm.SlabRealloc
open Cynix.Base.Bytes Cynix.Base.Pages Cynix.Base.Linked Cynix.Lib.Misc
open Cynix.Mm.SlabLayout Cynix.Mm.Slab Cynix.Mm.SlabRep Cynix.Mm.SlabRuns Cynix.Mm.SlabSizes

variable {σ : Type} {P : Platform σ} {s s' t : SlabState σ} {fl : Cache → List Nat}
  {live l₁ l₂ : List Obj} {o : Obj} {c d : Cache} {newSize q x : Nat}

/-! ## What is promised -/

/-- The address lies in no region that `s'` has and `s` has not. -/
def OutsideNew (s s' : SlabState σ) (x : Nat) : Prop :=
  ∀ r ∈ s'.regions, r ∉ s.regions → x < r.1 ∨ r.1 + regionSize ≤ x

/-- The object `o`, among `l₁` and `l₂`, has been moved to the object `q` of cache `c`. -/
structure Moved (P : Platform σ) (s s' : SlabState σ) (fl : Cache → List Nat) (l₁ l₂ : List Obj)
    (o : Obj) (newSize : Nat) (c : Cache) (q : Nat) : Prop where
  /-- The new object is live in the place of the old one. -/
  inv : ∃ fl', Inv P s' (⟨q, newSize, c⟩ :: (l₁ ++ l₂)) fl'
  slot : Slot s'.regions c q
  /-- It shares no byte with an object that was live. -/
  fresh : ∀ p ∈ l₁ ++ o :: l₂, q + entSize c ≤ p.addr ∨ p.addr + entSize p.cache ≤ q
  large : newSize ≤ entSize c
  larger : entSize o.cache < entSize c
  copied : ∀ i, i < entSize o.cache → s'.mem (q + i) = s.mem (o.addr + i)
  /-- The old object is the new head of its cache's list ... -/
  head : (s'.slabs o.cache).firstFree = o.addr
  /-- ... and the list before the call comes after it. -/
  chain : Chain (read64 s'.mem) o.addr (o.addr :: fl o.cache)
  others : ∀ p ∈ l₁ ++ l₂, ∀ i, i < entSize p.cache → s'.mem (p.addr + i) = s.mem (p.addr + i)
  /-- The stores are the copy of one old entry, the link in the old object and a new region. -/
  frame : ∀ x, OutsideNew s s' x → x < q ∨ q + entSize o.cache ≤ x → x < o.addr ∨ o.addr + 8 ≤ x →
    s'.mem x = s.mem x

/-- `slab_realloc` of `o` to `newSize` keeps the data, and does nothing when it fails. -/
structure ReallocOk (P : Platform σ) (s : SlabState σ) (fl : Cache → List Nat) (l₁ l₂ : List Obj)
    (o : Obj) (newSize : Nat) : Prop where
  stays : newSize ≤ entSize o.cache → slabRealloc P o.addr newSize s = some (o.addr, s)
  null : entSize o.cache < newSize → slabFor newSize = none →
    slabRealloc P o.addr newSize s = some (0, s)
  /-- The call fails to return only by the panic of the page allocator. -/
  panics : slabRealloc P o.addr newSize s = none ↔ entSize o.cache < newSize ∧
    ∃ c, slabFor newSize = some c ∧ (s.slabs c).firstFree = 0 ∧ P.pages.alloc 64 s.pmm = none
  moves : entSize o.cache < newSize → ∀ c, slabFor newSize = some c →
    ∀ q s', slabRealloc P o.addr newSize s = some (q, s') → Moved P s s' fl l₁ l₂ o newSize c q

/-! ## The steps of a move -/

/-- Two regions of the log are apart. -/
theorem regions_apart {regions : List Region} (hr : RegionsOk regions) {r u : Region} (h : r ∈ regions)
    (h' : u ∈ regions) (hne : r ≠ u) : r.1 + regionSize ≤ u.1 ∨ u.1 + regionSize ≤ r.1 := by
  have hbase : r.1 ≠ u.1 := fun he => hne (List.inj_on_of_nodup_map hr.distinct h h' he)
  have := hr.aligned r h
  have := hr.aligned u h'
  simp only [regionSize] at *
  omega

/-- `create_slab` stores into the new region alone. -/
theorem createSlab_frame (hP : PlatformOk P) (hi : SlabCore P s fl live)
    (h : createSlab P c (entSize c) s = some t) :
    s.regions ⊆ t.regions ∧ (∀ d, d ≠ c → t.slabs d = s.slabs d) ∧
      ∀ x, OutsideNew s t x → t.mem x = s.mem x := by
  obtain ⟨block, pmm, hA, -, hreg, hslabs, hmem⟩ := createSlab_some h
  obtain ⟨-, hfit, hne⟩ := fresh_region hP hi hA
  obtain ⟨-, -, hout⟩ := regionMem_spec hfit (Platform.slabPtr_lt hP c) c hmem
  refine ⟨?_, ?_, ?_⟩
  · rw [hreg]
    exact List.subset_cons_self _ _
  · intro d hd
    rw [hslabs, Function.update_of_ne hd]
  · intro x hx
    have hnew : ((block + P.hhdm) % 2 ^ 64, c) ∈ t.regions := by
      rw [hreg]
      exact List.mem_cons_self
    exact hout x (hx _ hnew fun hold => hne _ hold rfl)

theorem allocFromSlab_frame (hP : PlatformOk P) (hi : Inv P s live fl)
    (h : allocFromSlab P c s = some (q, t)) :
    s.regions ⊆ t.regions ∧ (∀ d, d ≠ c → t.slabs d = s.slabs d) ∧
      ∀ x, OutsideNew s t x → t.mem x = s.mem x := by
  obtain ⟨-, u, hu, rfl, rfl⟩ := allocFromSlab_some h
  have hframe : s.regions ⊆ u.regions ∧ (∀ d, d ≠ c → u.slabs d = s.slabs d) ∧
      ∀ x, OutsideNew s u x → u.mem x = s.mem x := by
    rcases hu with ⟨-, rfl⟩ | ⟨-, hc⟩
    · exact ⟨List.Subset.refl _, fun _ _ => rfl, fun _ _ => rfl⟩
    · rw [hi.sized c] at hc
      exact createSlab_frame hP hi.core hc
  obtain ⟨hsub, hslabs, hmem⟩ := hframe
  refine ⟨hsub, ?_, hmem⟩
  intro d hd
  rw [SlabState.set_slabs, Function.update_of_ne hd, hslabs d hd]

theorem slot_mono {regions regions' : List Region} (hsub : regions ⊆ regions') {p : Nat}
    (hp : Slot regions d p) : Slot regions' d p :=
  ⟨hsub hp.region, hp.aligned, hp.offset⟩

/-- Bytes of an earlier slot lie in no new region. -/
theorem outsideNew_of_slot (hr : RegionsOk t.regions) (hsub : s.regions ⊆ t.regions) {p i : Nat}
    (hp : Slot s.regions d p) (hi : i < entSize d) : OutsideNew s t (p + i) := by
  intro r hr' hnew
  have hne : r ≠ (p - p % regionSize, d) := fun he => hnew (he ▸ hp.region)
  have hap := regions_apart hr hr' (hsub hp.region) hne
  have hge := hp.ge
  have hle := hp.le
  simp only at hap
  omega

/-- A growing `slab_realloc` takes the new object, copies and frees the old one. -/
theorem slabRealloc_grows (hi : Inv P s live fl) (ho : o ∈ live) (hgrow : entSize o.cache < newSize)
    (hc : slabFor newSize = some c) : slabRealloc P o.addr newSize s =
      (allocFromSlab P c s).bind fun r =>
        if r.1 = 0 then some (0, r.2)
        else (freeInSlab o.cache o.addr
          { r.2 with mem := copyUp r.2.mem r.1 o.addr (r.2.slabs o.cache).entSize }).bind fun u =>
            some (r.1, u) := by
  rw [slabRealloc_eq hi ho, if_pos hgrow]
  unfold slabAlloc
  rw [hc]

theorem freeInSlab_unlocked (addr : Nat) (hl : (s.slabs c).lock = false) :
    ∃ u, freeInSlab c addr s = some u := by
  unfold freeInSlab acquire
  rw [hl]
  by_cases h0 : addr = 0 <;> simp [h0]

/-- The state after a move, from the state in which the new object has been taken. -/
theorem slabRealloc_moved (hP : PlatformOk P) (hi : Inv P s live fl) (ho : o ∈ live)
    (hgrow : entSize o.cache < newSize) (hc : slabFor newSize = some c)
    (h : slabRealloc P o.addr newSize s = some (q, s')) :
    ∃ t, allocFromSlab P c s = some (q, t) ∧ q ≠ 0 ∧ s'.regions = t.regions ∧
      s'.slabs = Function.update t.slabs o.cache ⟨false, o.addr, entSize o.cache⟩ ∧
      s'.mem = write64 (copyUp t.mem q o.addr (entSize o.cache)) o.addr (t.slabs o.cache).firstFree := by
  rw [slabRealloc_grows hi ho hgrow hc] at h
  obtain ⟨⟨newAddr, t⟩, ha, h⟩ := Option.bind_eq_some_iff.mp h
  obtain ⟨h0, fl₁, hi₁⟩ := hi.allocFrom hP (slabFor_le hc) ha
  simp only [h0, if_false, hi₁.sized o.cache] at h
  obtain ⟨u, hu, h⟩ := Option.bind_eq_some_iff.mp h
  obtain ⟨rfl, rfl⟩ := Prod.mk.inj (Option.some.inj h)
  rw [freeInSlab_some (hi.core.live_slot ho).ne_zero hu]
  exact ⟨t, ha, h0, rfl, by simp only [SlabState.set_slabs, hi₁.sized o.cache], rfl⟩

theorem slabRealloc_eq_none_iff (hP : PlatformOk P) (hi : Inv P s live fl) (ho : o ∈ live) :
    slabRealloc P o.addr newSize s = none ↔ entSize o.cache < newSize ∧
      ∃ c, slabFor newSize = some c ∧ (s.slabs c).firstFree = 0 ∧ P.pages.alloc 64 s.pmm = none := by
  rw [← slabAlloc_eq_none_iff hi, slabRealloc_eq hi ho]
  by_cases hgrow : entSize o.cache < newSize
  · rw [if_pos hgrow]
    cases ha : slabAlloc P newSize s with
    | none => simp [hgrow]
    | some r =>
      obtain ⟨newAddr, t⟩ := r
      obtain ⟨-, fl₁, hi₁⟩ := slabAlloc_inv hP hi ha
      by_cases h0 : newAddr = 0
      · simp [h0]
      · -- every cache is unlocked between the calls, so the old object can be freed
        obtain ⟨u, hu⟩ := freeInSlab_unlocked o.addr (c := o.cache)
          (s := { t with mem := copyUp t.mem newAddr o.addr (t.slabs o.cache).entSize })
          (hi₁.core.unlocked o.cache)
        simp [h0, hu]
  · simp [hgrow]

/-! ## The whole call -/

/-- The first word of the free list fits in the link that is stored. -/
theorem firstFree_lt (hi : SlabCore P s fl live) (c : Cache) : (s.slabs c).firstFree < 2 ^ 64 := by
  by_cases h0 : (s.slabs c).firstFree = 0
  · rw [h0]
    decide
  · obtain ⟨l, hl, -⟩ := (hi.chain c).pop h0
    have hmem : (s.slabs c).firstFree ∈ fl c := by
      rw [hl]
      exact List.mem_cons_self
    have := (hi.free_slot hmem).lt hi.regions
    have := (entSize_facts c).1
    omega

theorem moved_of_slabRealloc (hP : PlatformOk P) (hi : Inv P s (l₁ ++ o :: l₂) fl)
    (hgrow : entSize o.cache < newSize) (hc : slabFor newSize = some c)
    (h : slabRealloc P o.addr newSize s = some (q, s')) : Moved P s s' fl l₁ l₂ o newSize c q := by
  have ho : o ∈ l₁ ++ o :: l₂ := by simp
  obtain ⟨t, ha, h0, hregions, hslabs', hmem'⟩ := slabRealloc_moved hP hi ho hgrow hc h
  obtain ⟨-, fl₁, hi₁⟩ := hi.allocFrom hP (slabFor_le hc) ha
  obtain ⟨hsub, hslabs, hmem⟩ := allocFromSlab_frame hP hi ha
  have hr := hi₁.core.regions
  have hlarge := slabFor_le hc
  have hlarger : entSize o.cache < entSize c := hgrow.trans_le hlarge
  have hcache : o.cache ≠ c := by
    rintro rfl
    exact lt_irrefl _ hlarger
  have hslot : Slot t.regions c q := hi₁.core.live_slot (o := ⟨q, newSize, c⟩) (by simp)
  have hsloto := hi.core.live_slot ho
  have hne : ∀ p ∈ l₁ ++ o :: l₂, q ≠ p.addr := (List.pairwise_cons.mp (addr_ne_of_core hi₁.core)).1
  have hfresh : ∀ p ∈ l₁ ++ o :: l₂, q + entSize c ≤ p.addr ∨ p.addr + entSize p.cache ≤ q :=
    fun p hp => hslot.apart hr (slot_mono hsub (hi.core.live_slot hp)) (hne p hp)
  have h8 := (entSize_facts o.cache).1
  have hapart := hfresh o ho
  have hframe : ∀ x, OutsideNew s t x → x < q ∨ q + entSize o.cache ≤ x →
      x < o.addr ∨ o.addr + 8 ≤ x → s'.mem x = s.mem x := by
    intro x hnew hx hx'
    rw [hmem', write64_out hx', copyUp_out hx, hmem x hnew]
  -- a slot from before the call is touched only if it is the old object or the new one
  have hkept : ∀ d p, Slot s.regions d p → p ≠ o.addr → p ≠ q →
      ∀ i, i < entSize d → s'.mem (p + i) = s.mem (p + i) := by
    intro d p hp hpo hpq i hlt
    have h1 := hp.apart hi.core.regions hsloto hpo
    have h2 := (slot_mono hsub hp).apart hr hslot hpq
    exact hframe _ (outsideNew_of_slot hr hsub hp hlt) (by omega) (by omega)
  have hlink : read64 s'.mem o.addr = (s.slabs o.cache).firstFree := by
    rw [hmem', hslabs o.cache hcache]
    exact read64_write64_of_lt (firstFree_lt hi.core o.cache)
  refine ⟨?_, hregions ▸ hslot, hfresh, hlarge, hlarger, ?_, ?_, ?_, ?_, ?_⟩
  · have hself := hne o ho
    simpa [reallocated, h0, hself, handed, hc] using slabRealloc_inv hP hi h
  · intro i hlt
    rw [hmem', write64_out (by omega), copyUp_in (by omega) i hlt]
    exact hmem _ (outsideNew_of_slot hr hsub hsloto hlt)
  · rw [hslabs', Function.update_self]
  · refine (hi.core.chain o.cache).push hsloto.ne_zero hlink ?_
    intro p hp
    have hfree := hi.core.free_slot hp
    have hpo : p ≠ o.addr := fun he => hi.core.live_not_free ho o.cache (he ▸ hp)
    have hpq : p ≠ q := by
      rintro rfl
      exact hcache (slot_cache_unique hr (slot_mono hsub hfree) hslot)
    have hbytes := hkept _ _ hfree hpo hpq
    refine read64_congr fun x hx hx' => ?_
    obtain ⟨i, rfl⟩ := Nat.exists_eq_add_of_le hx
    exact hbytes i (by omega)
  · intro p hp i hlt
    have hmem : p ∈ l₁ ++ o :: l₂ := List.mem_append.mpr ((List.mem_append.mp hp).imp_right (List.mem_cons_of_mem _))
    have hpo : o.addr ≠ p.addr :=
      (List.pairwise_cons.mp (addr_ne_of_core (hi.core.perm List.perm_middle))).1 p hp
    exact hkept _ _ (hi.core.live_slot hmem) hpo.symm (hne p hmem).symm i hlt
  · intro x hnew
    exact hframe x (by rwa [OutsideNew, hregions] at hnew)

/-- **`slab_realloc` keeps the data of a live object and does nothing when it fails**, in every
state that satisfies the invariant. -/
theorem realloc_keeps_data (P : Platform σ) (hP : PlatformOk P) (s : SlabState σ)
    (fl : Cache → List Nat) (l₁ l₂ : List Obj) (o : Obj) (hi : Inv P s (l₁ ++ o :: l₂) fl)
    (newSize : Nat) : ReallocOk P s fl l₁ l₂ o newSize := by
  have ho : o ∈ l₁ ++ o :: l₂ := by simp
  refine ⟨?_, ?_, slabRealloc_eq_none_iff hP hi ho, ?_⟩
  · intro hle
    rw [slabRealloc_eq hi ho, if_neg (by omega)]
  · intro hgrow hnone
    rw [slabRealloc_eq hi ho, if_pos hgrow]
    unfold slabAlloc
    rw [hnone]
    rfl
  · intro hgrow c hc q s' h
    exact moved_of_slabRealloc hP hi hgrow hc h

/-- An object of 24 bytes, asked to hold 100. -/
theorem realloc_keeps_data_24_100 : ∃ (s : SlabState (List Range)) (addr : Nat) (fl : Cache → List Nat),
    Inv smallPlatform s [⟨addr, 24, 2⟩] fl ∧ slabFor 100 = some 4 ∧
      ReallocOk smallPlatform s fl [] [] ⟨addr, 24, 2⟩ 100 := by
  obtain ⟨s, hs⟩ := smallPlatform_init
  obtain ⟨fl, hi⟩ := slabInit_inv smallPlatform_ok hs
  have hserved : slabAlloc smallPlatform 24 s ≠ none := by
    intro hn
    obtain ⟨c, -, hempty, -⟩ := (slabAlloc_eq_none_iff hi).mp hn
    exact foldlM_firstFree hs c (Or.inl (List.mem_finRange c)) hempty
  obtain ⟨⟨addr, s'⟩, ha⟩ := Option.ne_none_iff_exists'.mp hserved
  obtain ⟨-, fl', hi'⟩ := slabAlloc_inv smallPlatform_ok hi ha
  have hlive : handed 24 addr [] = [⟨addr, 24, 2⟩] := rfl
  rw [hlive] at hi'
  exact ⟨s', addr, fl', hi', rfl, realloc_keeps_data smallPlatform smallPlatform_ok s' fl' [] [] _ hi' 100⟩

end Cynix.Mm.SlabRealloc
