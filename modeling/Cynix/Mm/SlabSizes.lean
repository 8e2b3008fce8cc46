import Cynix.Mm.SlabRuns

/-! # Which cache serves which size

`slab_for` goes by the highest set bit of a size, so it picks the first cache
whose entries are larger than the size; `slab_realloc` compares with the entry
size itself. The two disagree on the entry sizes, and nowhere else. -/
namespace Cynix.Mm.SlabSizes
open Cynix.Base.Bytes Cynix.Base.Pages Cynix.Base.Linked Cynix.Lib.Misc
open Cynix.Mm.SlabLayout Cynix.Mm.Slab Cynix.Mm.SlabRep Cynix.Mm.SlabRuns

variable {σ : Type} {P : Platform σ} {s s' : SlabState σ} {fl : Cache → List Nat}
  {live : List Obj} {o : Obj} {c d : Cache} {size newSize addr : Nat}

/-! ## `slab_for` -/

/-- The highest bit of a size. -/
theorem bsr_spec (h1 : 1 ≤ size) : 2 ^ bsr size ≤ size ∧ size < 2 ^ (bsr size + 1) :=
  ⟨Nat.log2_self_le (by omega), Nat.lt_log2_self⟩

/-- The cache is the first whose entries are larger than the size. -/
theorem slabFor_some (h1 : 1 ≤ size) (h : slabFor size = some c) :
    size < entSize c ∧ ∀ d, size < entSize d → entSize c ≤ entSize d := by
  obtain ⟨hle, hlt⟩ := bsr_spec h1
  have hbits : 2 ^ (bsr size + 1) ≤ entSize c ∧ ∀ d, entSize d < entSize c → entSize d ≤ 2 ^ bsr size := by
    unfold slabFor at h
    generalize bsr size = k at *
    split at h <;> simp only [Option.some.injEq, reduceCtorEq] at h <;> subst h <;> decide
  refine ⟨hlt.trans_le hbits.1, ?_⟩
  intro d hd
  by_contra hlt'
  have := hbits.2 d (by omega)
  omega

theorem slabFor_none_iff (h1 : 1 ≤ size) : slabFor size = none ↔ 16384 ≤ size := by
  obtain ⟨hle, hlt⟩ := bsr_spec h1
  constructor
  · intro h
    by_contra hsmall
    have hk : bsr size < 14 := by
      by_contra hk
      have : 2 ^ 14 ≤ 2 ^ bsr size := Nat.pow_le_pow_right (by decide) (by omega)
      omega
    unfold slabFor at h
    generalize bsr size = k at *
    interval_cases k <;> simp at h
  · intro hbig
    have hk : 14 ≤ bsr size := by
      by_contra hk
      have : 2 ^ (bsr size + 1) ≤ 2 ^ 14 := Nat.pow_le_pow_right (by decide) (by omega)
      omega
    obtain ⟨j, hj⟩ := Nat.exists_eq_add_of_le hk
    unfold slabFor
    rw [hj, Nat.add_comm]
    rfl

theorem entSize_le (c : Cache) : entSize c ≤ 16384 := (entSize_facts c).2.1

/-! ## What is promised -/

/-- By the choice of `slab_alloc`, an object of this size fits in the cache. -/
def CouldServe (c : Cache) (size : Nat) : Prop := ∃ d, slabFor size = some d ∧ entSize d ≤ entSize c

/-- `slab_alloc` serves the size from the smallest cache that is large enough, and `slab_realloc`
leaves an object in place exactly if its cache could serve the new size. -/
structure SizeOk (P : Platform σ) (t : Sys σ) (size : Nat) : Prop where
  /-- Only the panic of the page allocator keeps the call from returning. -/
  panics : slabAlloc P size t.st = none → P.pages.alloc 64 t.st.pmm = none
  null : ∀ addr s', slabAlloc P size t.st = some (addr, s') → (addr = 0 ↔ 16384 < size)
  served : ∀ addr s', slabAlloc P size t.st = some (addr, s') → addr ≠ 0 →
    ∃ c, Slot s'.regions c addr ∧ size ≤ entSize c ∧ ∀ d, size ≤ entSize d → entSize c ≤ entSize d
  agrees : ∀ o ∈ t.live,
    ((slabRealloc P o.addr size t.st).map Prod.fst = some o.addr ↔ CouldServe o.cache size)

/-! ## When a call returns -/

/-- An unlocked cache fails to serve a request only if it is empty and there are no pages for a
new region. -/
theorem allocFromSlab_eq_none_iff (hl : (s.slabs c).lock = false) :
    allocFromSlab P c s = none ↔ (s.slabs c).firstFree = 0 ∧ P.pages.alloc 64 s.pmm = none := by
  have hcreate : createSlab P c (s.slabs c).entSize s = none ↔ P.pages.alloc 64 s.pmm = none := by
    unfold createSlab
    split <;> simp_all
  by_cases h0 : (s.slabs c).firstFree = 0
  · rw [← hcreate]
    cases hc : createSlab P c (s.slabs c).entSize s <;>
      simp [allocFromSlab, acquire, hl, h0, createSlab_set, hc]
  · simp [allocFromSlab, acquire, hl, h0]

theorem slabAlloc_eq_none_iff (hi : Inv P s live fl) : slabAlloc P size s = none ↔
    ∃ c, slabFor size = some c ∧ (s.slabs c).firstFree = 0 ∧ P.pages.alloc 64 s.pmm = none := by
  unfold slabAlloc
  cases hf : slabFor size with
  | none => simp
  | some c => simp [allocFromSlab_eq_none_iff (hi.core.unlocked c)]

/-! ## `slab_realloc` in place -/

/-- What `slab_realloc` of a live object comes to. -/
theorem slabRealloc_eq (hi : Inv P s live fl) (ho : o ∈ live) :
    slabRealloc P o.addr newSize s =
      if entSize o.cache < newSize then
        (slabAlloc P newSize s).bind fun r =>
          if r.1 = 0 then some (0, r.2)
          else (freeInSlab o.cache o.addr
            { r.2 with mem := copyUp r.2.mem r.1 o.addr (r.2.slabs o.cache).entSize }).bind fun u =>
              some (r.1, u)
      else some (o.addr, s) := by
  have h0 := (hi.core.live_slot ho).ne_zero
  have hfind := hi.core.lookup ho
  unfold slabRealloc
  rw [if_neg h0]
  simp only [hfind, Option.bind_eq_bind, Option.bind_some, hi.sized o.cache]

/-- A new object is not at the address of a live one. -/
theorem slabAlloc_fresh (hP : PlatformOk P) (hi : Inv P s live fl)
    (h : slabAlloc P size s = some (addr, s')) (ho : o ∈ live) : addr ≠ o.addr := by
  obtain ⟨hz, fl', hi'⟩ := slabAlloc_inv hP hi h
  by_cases h0 : addr = 0
  · rw [h0]
    exact (hi.core.live_slot ho).ne_zero.symm
  · obtain ⟨c, hc⟩ := Option.ne_none_iff_exists'.mp fun he => h0 (hz.mpr he)
    have hne := addr_ne_of_core hi'.core
    unfold handed at hne
    rw [hc] at hne
    exact (List.pairwise_cons.mp hne).1 o ho

theorem slabRealloc_stays_iff (hP : PlatformOk P) (hi : Inv P s live fl) (ho : o ∈ live) :
    (slabRealloc P o.addr newSize s).map Prod.fst = some o.addr ↔ newSize ≤ entSize o.cache := by
  rw [slabRealloc_eq hi ho]
  by_cases hgrow : entSize o.cache < newSize
  · rw [if_pos hgrow]
    refine iff_of_false ?_ (by omega)
    intro hmap
    obtain ⟨⟨q, u⟩, hq, he⟩ := Option.map_eq_some_iff.mp hmap
    obtain ⟨⟨newAddr, t⟩, ha, hr⟩ := Option.bind_eq_some_iff.mp hq
    have hfresh := slabAlloc_fresh hP hi ha ho
    simp only at hr he
    split at hr
    · obtain ⟨rfl, -⟩ := Prod.mk.inj (Option.some.inj hr)
      exact (hi.core.live_slot ho).ne_zero he.symm
    · obtain ⟨u', -, hr⟩ := Option.bind_eq_some_iff.mp hr
      obtain ⟨rfl, -⟩ := Prod.mk.inj (Option.some.inj hr)
      exact hfresh he
  · rw [if_neg hgrow]
    exact iff_of_true rfl (by omega)

/-! ## The sizes on which both agree -/

theorem couldServe_iff (h1 : 1 ≤ size) : CouldServe c size ↔ size < entSize c := by
  constructor
  · rintro ⟨d, hd, hle⟩
    exact (slabFor_some h1 hd).1.trans_le hle
  · intro hlt
    cases hf : slabFor size with
    | none =>
      have := (slabFor_none_iff h1).mp hf
      have := entSize_le c
      omega
    | some d => exact ⟨d, hf, (slabFor_some h1 hf).2 c hlt⟩

theorem sizeOk_of_not_entSize (hP : PlatformOk P) (h1 : 1 ≤ size) (hne : ∀ c, size ≠ entSize c) {t : Sys σ}
    (hi : Inv P t.st t.live fl) : SizeOk P t size := by
  have hstrict : ∀ d, size ≤ entSize d ↔ size < entSize d := fun d => (Nat.lt_iff_le_and_ne.trans
    (and_iff_left (hne d))).symm
  have hlast : size ≠ 16384 := hne 11
  refine ⟨?_, ?_, ?_, ?_⟩
  · intro h
    obtain ⟨c, -, -, hpages⟩ := (slabAlloc_eq_none_iff hi).mp h
    exact hpages
  · intro addr s' h
    rw [(slabAlloc_inv hP hi h).1, slabFor_none_iff h1]
    omega
  · intro addr s' h h0
    obtain ⟨hz, fl', hi'⟩ := slabAlloc_inv hP hi h
    obtain ⟨c, hc⟩ := Option.ne_none_iff_exists'.mp fun he => h0 (hz.mpr he)
    obtain ⟨hlt, hleast⟩ := slabFor_some h1 hc
    unfold handed at hi'
    rw [hc] at hi'
    refine ⟨c, hi'.core.live_slot (o := ⟨addr, size, c⟩) (by simp), hlt.le, ?_⟩
    intro d hd
    exact hleast d ((hstrict d).mp hd)
  · intro o ho
    rw [slabRealloc_stays_iff hP hi ho, couldServe_iff h1, hstrict]

/-- After `slab_init` every cache has a free slot. -/
theorem foldlM_firstFree {cs : List Cache} (h : cs.foldlM (fun s c => createSlab P c (entSize c) s) s = some s') :
    ∀ c, c ∈ cs ∨ (s.slabs c).firstFree ≠ 0 → (s'.slabs c).firstFree ≠ 0 := by
  induction cs generalizing s with
  | nil =>
    obtain rfl := Option.some.inj h
    intro c hc
    exact hc.resolve_left (by simp)
  | cons d cs ih =>
    rw [List.foldlM_cons, Option.bind_eq_bind, Option.bind_eq_some_iff] at h
    obtain ⟨t, ht, h⟩ := h
    obtain ⟨block, pmm, -, -, -, hslabs, -⟩ := createSlab_some ht
    intro c hc
    refine ih h c ?_
    by_cases hcd : c = d
    · right
      subst hcd
      rw [hslabs, Function.update_self]
      have := (entSize_facts c).1
      simp only
      omega
    · rw [hslabs, Function.update_of_ne hcd]
      exact hc.imp_left fun hm => (List.mem_cons.mp hm).resolve_left hcd

/-- The entry sizes themselves go to the next cache, and the last of them to none. -/
theorem not_sizeOk_entSize (hP : PlatformOk P) (hi : Inv P s live fl)
    (hfree : ∀ c, (s.slabs c).firstFree ≠ 0) (c : Cache) : ¬ SizeOk P ⟨s, live⟩ (entSize c) := by
  intro hok
  have h1 : 1 ≤ entSize c := by
    have := (entSize_facts c).1
    omega
  have hle := entSize_le c
  cases hf : slabFor (entSize c) with
  | none =>
    have hnull : slabAlloc P (entSize c) s = some (0, s) := by
      unfold slabAlloc
      rw [hf]
    have := (hok.null 0 s hnull).mp rfl
    omega
  | some d =>
    have hserved : allocFromSlab P d s ≠ none := fun hn =>
      hfree d ((allocFromSlab_eq_none_iff (hi.core.unlocked d)).mp hn).1
    obtain ⟨⟨addr, s'⟩, ha⟩ := Option.ne_none_iff_exists'.mp hserved
    have halloc : slabAlloc P (entSize c) s = some (addr, s') := by
      unfold slabAlloc
      rw [hf]
      exact ha
    obtain ⟨hz, fl', hi'⟩ := slabAlloc_inv hP hi halloc
    have h0 : addr ≠ 0 := fun h => by simp [hz.mp h] at hf
    obtain ⟨e, he, -, hleast⟩ := hok.served addr s' halloc h0
    -- the object is one of the cache chosen by `slab_for`, whose entries are larger
    unfold handed at hi'
    rw [hf] at hi'
    have hed : e = d := slot_cache_unique hi'.core.regions he
      (hi'.core.live_slot (o := ⟨addr, entSize c, d⟩) (by simp))
    subst hed
    have := (slabFor_some h1 hf).1
    have := hleast c le_rfl
    omega

/-- **The size classes fit a request exactly if it is not itself an entry size**, in every state
that a run from `slab_init` reaches. -/
theorem size_classes_fit_iff (P : Platform σ) (hP : PlatformOk P) (pmm : σ) (mem : Mem) (s : SlabState σ)
    (h : slabInit P (SlabState.boot pmm mem) = some s) (size : Nat) (h1 : 1 ≤ size) :
    (∀ t, Relation.ReflTransGen (Step P) ⟨s, []⟩ t → SizeOk P t size) ↔ ∀ c, size ≠ entSize c := by
  obtain ⟨fl, hi⟩ := slabInit_inv hP h
  constructor
  · intro hok c heq
    have hfree : ∀ c, (s.slabs c).firstFree ≠ 0 := fun c =>
      foldlM_firstFree h c (Or.inl (List.mem_finRange c))
    exact not_sizeOk_entSize hP hi hfree c (heq ▸ hok _ .refl)
  · intro hne t hr
    obtain ⟨fl', hi'⟩ := run_inv hP hi hr
    exact sizeOk_of_not_entSize hP h1 hne hi'

theorem smallPlatform_init : ∃ s, slabInit smallPlatform (SlabState.boot [] fun _ => 0) = some s := by
  have hinit : (slabInit smallPlatform (SlabState.boot [] fun _ => 0)).isSome = true := by
    decide +kernel
  exact Option.isSome_iff_exists.mp hinit

theorem size_classes_fit_iff_24 : ∃ s, slabInit smallPlatform (SlabState.boot [] fun _ => 0) = some s ∧
    SizeOk smallPlatform ⟨s, []⟩ 24 := by
  obtain ⟨s, hs⟩ := smallPlatform_init
  have hiff := size_classes_fit_iff smallPlatform smallPlatform_ok [] _ s hs 24 (by decide)
  exact ⟨s, hs, hiff.mpr (by decide) _ .refl⟩

/-- 16 bytes are taken from the cache of 32, and 16384 bytes from none. -/
theorem entry_sizes_misplaced : ∃ s, slabInit smallPlatform (SlabState.boot [] fun _ => 0) = some s ∧
    ¬ SizeOk smallPlatform ⟨s, []⟩ 16 ∧ ¬ SizeOk smallPlatform ⟨s, []⟩ 16384 := by
  obtain ⟨s, hs⟩ := smallPlatform_init
  obtain ⟨fl, hi⟩ := slabInit_inv smallPlatform_ok hs
  have hfree : ∀ c, (s.slabs c).firstFree ≠ 0 := fun c =>
    foldlM_firstFree hs c (Or.inl (List.mem_finRange c))
  exact ⟨s, hs, not_sizeOk_entSize smallPlatform_ok hi hfree 1, not_sizeOk_entSize smallPlatform_ok hi hfree 11⟩

end Cynix.Mm.SlabSizes
