import Cynix.Base.Linked
import Cynix.Lib.Misc

/-! # Where the objects of a slab cache lie

The twelve caches have entry sizes 8, 16, ..., 16384. A region is 64 pages,
starts on a multiple of its size and belongs to one cache: its first entry is
taken by the `slab_header`, the others are slots. Any two slots, of one cache
or of two, are apart, and so are a slot and a header. -/
namespace Cynix.Mm.SlabLayout
open Cynix.Base.Linked Cynix.Lib.Misc

abbrev Cache := Fin 12

/-- The entry sizes `slab_init` passes to `create_slab`. -/
def entSizes : List Nat := [8, 16, 32, 64, 128, 256, 512, 1024, 2048, 4096, 8192, 16384]

def entSize (c : Cache) : Nat := entSizes.get c

/-- `PAGE_SIZE * 64`. -/
abbrev regionSize : Nat := 0x40000

/-- A region: where it starts, and the cache that created it. -/
abbrev Region := Nat × Cache

/-- `addr & ~(uintptr_t)0x3ffff`. -/
def regionOf (addr : Nat) : Nat := addr &&& 0xfffffffffffc0000

/-- The slots of one region: every entry but the first. -/
def regionSlots (base : Nat) (c : Cache) : List Nat :=
  strided (base + entSize c) (entSize c) (regionSize / entSize c - 1)

/-- The slots of a cache, region by region. -/
def slots (regions : List Region) (c : Cache) : List Nat :=
  (regions.filter (·.2 = c)).flatMap fun r => regionSlots r.1 c

structure RegionsOk (regions : List Region) : Prop where
  aligned : ∀ r ∈ regions, r.1 % regionSize = 0
  fits : ∀ r ∈ regions, r.1 + regionSize ≤ 2 ^ 64
  distinct : (regions.map Prod.fst).Nodup

theorem RegionsOk.cons {regions : List Region} (hr : RegionsOk regions) {r : Region}
    (hal : r.1 % regionSize = 0) (hfit : r.1 + regionSize ≤ 2 ^ 64) (hnew : r.1 ∉ regions.map Prod.fst) :
    RegionsOk (r :: regions) :=
  ⟨List.forall_mem_cons.mpr ⟨hal, hr.aligned⟩, List.forall_mem_cons.mpr ⟨hfit, hr.fits⟩,
    List.nodup_cons.mpr ⟨hnew, hr.distinct⟩⟩

/-- A region adds its slots to those of its cache. -/
theorem slots_cons (r : Region) (regions : List Region) (d : Cache) :
    slots (r :: regions) d = if r.2 = d then regionSlots r.1 d ++ slots regions d else slots regions d := by
  by_cases hd : r.2 = d
  · simp [slots, hd]
  · simp [slots, hd]

theorem entSize_facts : ∀ c : Cache, 8 ≤ entSize c ∧ entSize c ≤ 16384 ∧ entSize c ∣ regionSize ∧
    8 ∣ entSize c ∧ 2 ≤ regionSize / entSize c := by
  decide

theorem regionOf_eq {addr : Nat} (h : addr < 2 ^ 64) : regionOf addr = addr - addr % regionSize := by
  have hmask : (0xfffffffffffc0000 : Nat) = 2 ^ 64 - 2 ^ 18 := by decide
  rw [regionOf, hmask, and_bits addr (by decide), Nat.mod_eq_of_lt h]
  rfl

/-! ## Slots -/

/-- A slot of cache `c` in a region of it. -/
structure Slot (regions : List Region) (c : Cache) (p : Nat) : Prop where
  region : (p - p % regionSize, c) ∈ regions
  aligned : entSize c ∣ p
  offset : p % regionSize ≠ 0

variable {regions : List Region} {c d : Cache} {p q : Nat}

theorem mem_regionSlots {base : Nat} (hb : base % regionSize = 0) :
    p ∈ regionSlots base c ↔ p - p % regionSize = base ∧ entSize c ∣ p ∧ p % regionSize ≠ 0 := by
  obtain ⟨h8, -, ⟨n, hn⟩, -, h2⟩ := entSize_facts c
  have hdiv : regionSize / entSize c = n := by
    rw [hn, Nat.mul_div_cancel_left _ (by omega)]
  have hbase : entSize c ∣ base := (Dvd.intro n hn.symm).trans (Nat.dvd_of_mod_eq_zero hb)
  unfold regionSlots
  rw [mem_strided, hdiv]
  constructor
  · rintro ⟨k, hk, rfl⟩
    have hlt : entSize c + entSize c * k < regionSize := by
      rw [hn, Nat.add_comm, ← Nat.mul_succ]
      exact Nat.mul_lt_mul_of_pos_left (by omega) (by omega)
    have hmod : (base + entSize c + entSize c * k) % regionSize = entSize c + entSize c * k := by
      rw [Nat.add_assoc, Nat.add_mod, hb, Nat.zero_add, Nat.mod_mod, Nat.mod_eq_of_lt hlt]
    refine ⟨by omega, ?_, by omega⟩
    rw [Nat.add_assoc]
    exact hbase.add (Dvd.intro (1 + k) (by ring))
  · rintro ⟨he, ha, h0⟩
    have hd : entSize c ∣ p - base := Nat.dvd_sub ha hbase
    obtain ⟨k, hk⟩ := hd
    have hp : p = base + entSize c * k := by
      have := Nat.mod_le p regionSize
      omega
    have hklt : k < n := by
      have h1 : entSize c * k < entSize c * n := by
        rw [← hn]
        have := Nat.mod_lt p (show 0 < regionSize by decide)
        omega
      exact Nat.lt_of_mul_lt_mul_left h1
    have hk0 : k ≠ 0 := by
      rintro rfl
      apply h0
      rw [hp]
      simpa using hb
    refine ⟨k - 1, by omega, ?_⟩
    obtain ⟨j, rfl⟩ := Nat.exists_eq_succ_of_ne_zero hk0
    rw [hp, Nat.mul_succ, Nat.succ_sub_one]
    omega

theorem mem_slots (hr : RegionsOk regions) : p ∈ slots regions c ↔ Slot regions c p := by
  unfold slots
  rw [List.mem_flatMap]
  constructor
  · rintro ⟨r, hm, hp⟩
    obtain ⟨hm, hc⟩ := List.mem_filter.mp hm
    obtain ⟨he, ha, h0⟩ := (mem_regionSlots (hr.aligned r hm)).mp hp
    have hc : r.2 = c := by simpa using hc
    exact ⟨by rw [he, ← hc]; exact hm, ha, h0⟩
  · rintro ⟨hm, ha, h0⟩
    exact ⟨_, List.mem_filter.mpr ⟨hm, by simp⟩,
      (mem_regionSlots (hr.aligned _ hm)).mpr ⟨rfl, ha, h0⟩⟩

/-- A region has one cache. -/
theorem RegionsOk.cache_unique (hr : RegionsOk regions) {base : Nat} (h : (base, c) ∈ regions)
    (h' : (base, d) ∈ regions) : c = d := by
  have := List.inj_on_of_nodup_map hr.distinct h h' rfl
  exact (Prod.mk.inj this).2

theorem Slot.ge (h : Slot regions c p) : p - p % regionSize + entSize c ≤ p := by
  obtain ⟨-, -, hd, -, -⟩ := entSize_facts c
  have h1 : entSize c ∣ p % regionSize := (Nat.dvd_mod_iff hd).mpr h.aligned
  have := Nat.le_of_dvd (Nat.pos_of_ne_zero h.offset) h1
  have := Nat.mod_le p regionSize
  omega

theorem Slot.le (h : Slot regions c p) : p + entSize c ≤ p - p % regionSize + regionSize := by
  obtain ⟨-, -, hd, -, -⟩ := entSize_facts c
  have h1 : entSize c ∣ p % regionSize := (Nat.dvd_mod_iff hd).mpr h.aligned
  have h2 : entSize c ∣ regionSize - p % regionSize := Nat.dvd_sub hd h1
  have hlt := Nat.mod_lt p (show 0 < regionSize by decide)
  have := Nat.le_of_dvd (by omega) h2
  have := Nat.mod_le p regionSize
  omega

theorem Slot.ne_zero (h : Slot regions c p) : p ≠ 0 := by
  rintro rfl
  exact h.offset rfl

theorem Slot.lt (hr : RegionsOk regions) (h : Slot regions c p) : p + entSize c ≤ 2 ^ 64 := by
  have := hr.fits _ h.region
  have := h.le
  simp only at *
  omega

/-- Two slots are apart: in one region they are multiples of one entry size. -/
theorem Slot.apart (hr : RegionsOk regions) (hp : Slot regions c p) (hq : Slot regions d q)
    (hne : p ≠ q) : p + entSize c ≤ q ∨ q + entSize d ≤ p := by
  have hp1 := hp.ge
  have hp2 := hp.le
  have hq1 := hq.ge
  have hq2 := hq.le
  by_cases hb : p - p % regionSize = q - q % regionSize
  · have hcd : c = d := hr.cache_unique (hb ▸ hp.region) hq.region
    subst hcd
    rcases Nat.lt_or_gt_of_ne hne with hlt | hlt
    · have := Nat.le_of_dvd (by omega) (Nat.dvd_sub hq.aligned hp.aligned)
      omega
    · have := Nat.le_of_dvd (by omega) (Nat.dvd_sub hp.aligned hq.aligned)
      omega
  · have := hr.aligned _ hp.region
    have := hr.aligned _ hq.region
    simp only [regionSize] at *
    omega

/-- A slot is apart from every region's header. -/
theorem Slot.apart_header (hr : RegionsOk regions) (hp : Slot regions c p) {r : Region}
    (hm : r ∈ regions) : r.1 + 8 ≤ p ∨ p + entSize c ≤ r.1 := by
  have hp1 := hp.ge
  have hp2 := hp.le
  have := (entSize_facts c).1
  have := hr.aligned _ hm
  simp only [regionSize] at *
  omega

theorem nodup_slots (hr : RegionsOk regions) (c : Cache) : (slots regions c).Nodup := by
  unfold slots
  rw [List.nodup_flatMap]
  refine ⟨fun r _ => nodup_strided (by have := (entSize_facts c).1; omega) _, ?_⟩
  have hd : (regions.filter (·.2 = c)).Pairwise fun r q => r.1 ≠ q.1 :=
    (List.pairwise_map.mp hr.distinct).sublist List.filter_sublist
  refine hd.imp_of_mem fun {r q} hrm hqm hne => ?_
  rw [Function.onFun, List.disjoint_left]
  intro x hx hx'
  have h1 := (mem_regionSlots (hr.aligned r (List.mem_of_mem_filter hrm))).mp hx
  have h2 := (mem_regionSlots (hr.aligned q (List.mem_of_mem_filter hqm))).mp hx'
  exact hne (h1.1.symm.trans h2.1)

theorem length_slots (regions : List Region) (c : Cache) :
    (slots regions c).length = (regionSize / entSize c - 1) * (regions.filter (·.2 = c)).length := by
  unfold slots
  induction regions.filter (·.2 = c) with
  | nil => simp
  | cons r rs ih =>
    rw [List.flatMap_cons, List.length_append, ih, regionSlots, length_strided, List.length_cons,
      Nat.mul_succ, Nat.add_comm]

end Cynix.Mm.SlabLayout
