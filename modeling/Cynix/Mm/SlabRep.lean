import Cynix.Mm.Slab

/-! # The slab allocator's representation invariant

`SlabCore` ties the free lists in memory, the live objects and the log of
regions together: the free slots and the live objects of a cache are, as a
permutation, all the slots of its regions. Everything else about counts,
alignment and separation follows from where slots lie (`SlabLayout`). -/
namespace Cynix.Mm.SlabRep
open Cynix.Base.Bytes Cynix.Base.Pages Cynix.Base.Linked Cynix.Lib.Misc
open Cynix.Mm.SlabLayout Cynix.Mm.Slab

variable {σ : Type} {P : Platform σ}

/-- What the allocator relies on. -/
structure PlatformOk (P : Platform σ) : Prop where
  aligned : P.pages.Aligned 64
  hhdm : P.hhdm % regionSize = 0
  slabs : P.slabsAddr + 24 * 12 ≤ 2 ^ 64

/-- A live object: the address handed out, the size asked for and the cache it came from. -/
structure Obj where
  addr : Nat
  size : Nat
  cache : Cache
  deriving DecidableEq

def liveOf (live : List Obj) (c : Cache) : List Nat := (live.filter (·.cache = c)).map Obj.addr

structure SlabCore (P : Platform σ) (s : SlabState σ) (fl : Cache → List Nat) (live : List Obj) :
    Prop where
  regions : RegionsOk s.regions
  source : ∀ r ∈ s.regions, ∃ block, (block, 64) ∈ P.pages.live s.pmm ∧ block < 2 ^ 64 ∧
    r.1 = (block + P.hhdm) % 2 ^ 64
  header : ∀ r ∈ s.regions, read64 s.mem r.1 = P.slabPtr r.2
  unlocked : ∀ c, (s.slabs c).lock = false
  chain : ∀ c, Chain (read64 s.mem) (s.slabs c).firstFree (fl c)
  slots : ∀ c, (fl c ++ liveOf live c).Perm (slots s.regions c)
  fits : ∀ o ∈ live, o.size ≤ entSize o.cache

/-- Every cache has been set up with its entry size. -/
def Sized (s : SlabState σ) : Prop := ∀ c, (s.slabs c).entSize = entSize c

/-! ## Reading the invariant -/

variable {s : SlabState σ} {fl : Cache → List Nat} {live l₁ l₂ : List Obj} {o : Obj} {c d : Cache}

theorem mem_liveOf {p : Nat} : p ∈ liveOf live c ↔ ∃ o ∈ live, o.cache = c ∧ o.addr = p := by
  simp [liveOf, and_assoc]

theorem liveOf_cons (o : Obj) (live : List Obj) (c : Cache) :
    liveOf (o :: live) c = if o.cache = c then o.addr :: liveOf live c else liveOf live c := by
  unfold liveOf
  by_cases h : o.cache = c <;> simp [h]

theorem liveOf_perm {live' : List Obj} (h : live.Perm live') (c : Cache) :
    (liveOf live c).Perm (liveOf live' c) :=
  (h.filter _).map _

theorem SlabCore.free_slot (hi : SlabCore P s fl live) {p : Nat} (hp : p ∈ fl c) :
    Slot s.regions c p :=
  (mem_slots hi.regions).mp ((hi.slots c).mem_iff.mp (List.mem_append_left _ hp))

theorem SlabCore.live_slot (hi : SlabCore P s fl live) (ho : o ∈ live) :
    Slot s.regions o.cache o.addr :=
  (mem_slots hi.regions).mp ((hi.slots _).mem_iff.mp
    (List.mem_append_right _ (mem_liveOf.mpr ⟨o, ho, rfl, rfl⟩)))

theorem SlabCore.nodup (hi : SlabCore P s fl live) (c : Cache) : (fl c ++ liveOf live c).Nodup :=
  (hi.slots c).nodup_iff.mpr (nodup_slots hi.regions c)

/-- A slot's cache is determined by its region. -/
theorem slot_cache_unique {regions : List Region} (hr : RegionsOk regions) {p : Nat}
    (h : Slot regions c p) (h' : Slot regions d p) : c = d :=
  hr.cache_unique h.region h'.region

theorem SlabCore.live_not_free (hi : SlabCore P s fl live) (ho : o ∈ live) (c : Cache) :
    o.addr ∉ fl c := by
  intro hm
  have hc : o.cache = c := slot_cache_unique hi.regions (hi.live_slot ho) (hi.free_slot hm)
  exact List.disjoint_of_nodup_append (hi.nodup c) hm (mem_liveOf.mpr ⟨o, ho, hc, rfl⟩)

theorem Platform.slabPtr_lt (hP : PlatformOk P) (c : Cache) : P.slabPtr c < 2 ^ 64 := by
  have := hP.slabs
  have := c.isLt
  unfold Platform.slabPtr
  omega

theorem Platform.slabAt_slabPtr (P : Platform σ) (c : Cache) : P.slabAt (P.slabPtr c) = some c := by
  have hfind : ∀ c : Cache, (List.finRange 12).find? (fun d => d == c) = some c := by decide
  rw [← hfind c]
  unfold Platform.slabAt Platform.slabPtr
  congr 1
  funext d
  rw [Bool.eq_iff_iff, beq_iff_eq, beq_iff_eq, Fin.ext_iff]
  omega

/-- The header lookup of `slab_realloc` and `slab_free` finds the object's own cache. -/
theorem SlabCore.lookup (hi : SlabCore P s fl live) (ho : o ∈ live) :
    P.slabAt (read64 s.mem (regionOf o.addr)) = some o.cache := by
  have hs := hi.live_slot ho
  have hlt := hs.lt hi.regions
  have := (entSize_facts o.cache).1
  rw [regionOf_eq (by omega), hi.header _ hs.region, Platform.slabAt_slabPtr]

/-! ## Memory outside the allocator's own words -/

/-- The invariant reads the headers and the links of free slots, nothing else. -/
theorem SlabCore.congr_mem (hi : SlabCore P s fl live) {m' : Mem}
    (hh : ∀ r ∈ s.regions, read64 m' r.1 = read64 s.mem r.1)
    (hl : ∀ c, ∀ q ∈ fl c, read64 m' q = read64 s.mem q) :
    SlabCore P { s with mem := m' } fl live :=
  ⟨hi.regions, hi.source, fun r hr => (hh r hr).trans (hi.header r hr), hi.unlocked,
    fun c => (hi.chain c).congr (hl c), hi.slots, hi.fits⟩

/-- A change inside one slot touches no header. -/
theorem header_frame {regions : List Region} (hr : RegionsOk regions) {p : Nat}
    (hp : Slot regions c p) {m m' : Mem} (hm : ∀ x, x < p ∨ p + entSize c ≤ x → m' x = m x) :
    ∀ r ∈ regions, read64 m' r.1 = read64 m r.1 := by
  intro r hrm
  have := hp.apart_header hr hrm
  exact read64_congr fun x h1 h2 => hm x (by omega)

/-- A change inside one slot touches no other slot's link. -/
theorem link_frame {regions : List Region} (hr : RegionsOk regions) {p q : Nat}
    (hp : Slot regions c p) (hq : Slot regions d q) (hne : p ≠ q) {m m' : Mem}
    (hm : ∀ x, x < p ∨ p + entSize c ≤ x → m' x = m x) : read64 m' q = read64 m q := by
  have hap := hp.apart hr hq hne
  have := (entSize_facts d).1
  exact read64_congr fun x h1 h2 => hm x (by omega)

/-- Stores inside a live object are invisible to the allocator. -/
theorem SlabCore.store (hi : SlabCore P s fl live) (ho : o ∈ live) {m' : Mem}
    (hm : ∀ x, x < o.addr ∨ o.addr + entSize o.cache ≤ x → m' x = s.mem x) :
    SlabCore P { s with mem := m' } fl live := by
  have hs := hi.live_slot ho
  refine hi.congr_mem (header_frame hi.regions hs hm) fun c q hq => ?_
  refine link_frame hi.regions hs (hi.free_slot hq) ?_ hm
  rintro he
  exact hi.live_not_free ho c (he ▸ hq)

/-! ## Making a region -/

/-- The numbers `create_slab` computes from an entry size. -/
theorem createSlab_numbers : ∀ c : Cache, alignUp 8 (entSize c) = entSize c ∧
    ((pageSize * 64 - entSize c) >>> bsr (entSize c)) - 1 = regionSize / entSize c - 2 ∧
    8 * (entSize c >>> 3) = entSize c := by
  decide +kernel

theorem threadSlots_out {m : Mem} {arr fact x : Nat} (hf : 1 ≤ fact) :
    ∀ {n : Nat}, (x < arr ∨ arr + 8 * (n * fact) ≤ x) → threadSlots m arr fact n x = m x
  | 0, _ => rfl
  | n + 1, h => by
    have hs : (n + 1) * fact = n * fact + fact := Nat.succ_mul n fact
    simp only [threadSlots]
    rw [write64_out (by omega), threadSlots_out hf (by omega)]

theorem threadSlots_link {m : Mem} {arr fact : Nat} (hf : 1 ≤ fact) :
    ∀ {n : Nat}, arr + 8 * (n * fact) < 2 ^ 64 → ∀ k, k < n →
      read64 (threadSlots m arr fact n) (arr + 8 * (k * fact)) = arr + 8 * ((k + 1) * fact)
  | 0, _, k, hk => by omega
  | n + 1, hb, k, hk => by
    have hs : (n + 1) * fact = n * fact + fact := Nat.succ_mul n fact
    simp only [threadSlots]
    by_cases hkn : k = n
    · subst hkn
      exact read64_write64_of_lt (by omega)
    · have hle : (k + 1) * fact ≤ n * fact := Nat.mul_le_mul_right fact (by omega)
      have hs' : (k + 1) * fact = k * fact + fact := Nat.succ_mul k fact
      rw [read64_write64_ne (by omega)]
      exact threadSlots_link hf (by omega) k (by omega)

/-- The memory of a new region: its header, and its slots linked in order. -/
theorem regionMem_spec {m : Mem} {region ptr : Nat} (hr : region + regionSize ≤ 2 ^ 64)
    (hp : ptr < 2 ^ 64) (c : Cache) {m' : Mem}
    (hm : m' = write64 (threadSlots (write64 m region ptr) (region + entSize c) (entSize c >>> 3)
      (regionSize / entSize c - 2))
        (region + entSize c + 8 * ((regionSize / entSize c - 2) * (entSize c >>> 3))) 0) :
    read64 m' region = ptr ∧
    Chain (read64 m') (region + entSize c) (regionSlots region c) ∧
    ∀ x, x < region ∨ region + regionSize ≤ x → m' x = m x := by
  obtain ⟨h8, -, ⟨n, hn⟩, -, h2⟩ := entSize_facts c
  obtain ⟨-, -, hfact⟩ := createSlab_numbers c
  have hdiv : regionSize / entSize c = n := by rw [hn, Nat.mul_div_cancel_left _ (by omega)]
  rw [hdiv] at hm h2
  generalize hfe : entSize c >>> 3 = fact at *
  -- cell `k` lies `entSize * k` above the first slot
  have hcell : ∀ k, 8 * (k * fact) = entSize c * k := by
    intro k
    rw [← hfact]
    ring
  have hlast : entSize c * (n - 2) + 2 * entSize c = regionSize := by
    obtain ⟨j, rfl⟩ := Nat.exists_eq_add_of_le h2
    rw [hn, Nat.add_sub_cancel_left]
    ring
  have hf1 : 1 ≤ fact := by omega
  have hb := hcell (n - 2)
  refine ⟨?_, ?_, ?_⟩
  · have hlow : read64 (threadSlots (write64 m region ptr) (region + entSize c) fact (n - 2)) region =
        read64 (write64 m region ptr) region :=
      read64_congr fun x h1 h3 => threadSlots_out hf1 (by omega)
    rw [hm, read64_write64_ne (by omega), hlow, read64_write64_of_lt hp]
  · unfold regionSlots
    rw [hdiv, show n - 1 = n - 2 + 1 by omega]
    refine Chain.strided (by omega) ?_ ?_
    · intro k hk
      have hlt : entSize c * k + entSize c ≤ entSize c * (n - 2) := by
        rw [← Nat.mul_succ]
        exact Nat.mul_le_mul_left _ hk
      rw [hm, read64_write64_ne (by omega), ← hcell k, ← hcell (k + 1)]
      exact threadSlots_link hf1 (by omega) k hk
    · rw [hm, ← hcell (n - 2)]
      exact read64_write64_of_lt (by decide)
  · intro x hx
    rw [hm, write64_out (by omega), threadSlots_out hf1 (by omega), write64_out (by omega)]

/-- What `create_slab` does when it returns. -/
theorem createSlab_some {s' : SlabState σ} (h : createSlab P c (entSize c) s = some s') :
    ∃ block pmm, P.pages.alloc 64 s.pmm = some (block, pmm) ∧ s'.pmm = pmm ∧
      s'.regions = ((block + P.hhdm) % 2 ^ 64, c) :: s.regions ∧
      s'.slabs = Function.update s.slabs c
        ⟨false, (block + P.hhdm) % 2 ^ 64 + entSize c, entSize c⟩ ∧
      s'.mem = write64 (threadSlots (write64 s.mem ((block + P.hhdm) % 2 ^ 64) (P.slabPtr c))
        ((block + P.hhdm) % 2 ^ 64 + entSize c) (entSize c >>> 3) (regionSize / entSize c - 2))
        ((block + P.hhdm) % 2 ^ 64 + entSize c +
          8 * ((regionSize / entSize c - 2) * (entSize c >>> 3))) 0 := by
  obtain ⟨h1, h2, -⟩ := createSlab_numbers c
  unfold createSlab at h
  cases hA : P.pages.alloc 64 s.pmm with
  | none => rw [hA] at h; cases h
  | some r =>
    obtain ⟨block, pmm⟩ := r
    rw [hA] at h
    simp only [h1, h2, Option.some.injEq] at h
    subst h
    exact ⟨block, pmm, rfl, rfl, rfl, rfl, rfl⟩

/-- The block that `pmm_alloc_nozero` returns makes a region, and no live block makes the same one. -/
theorem PlatformOk.new_region (hP : PlatformOk P) {block : Nat} {pmm pmm' : σ}
    (hA : P.pages.alloc 64 pmm = some (block, pmm')) :
    ((block + P.hhdm) % 2 ^ 64) % regionSize = 0 ∧ (block + P.hhdm) % 2 ^ 64 + regionSize ≤ 2 ^ 64 ∧
      ∀ b, (b, 64) ∈ P.pages.live pmm → b < 2 ^ 64 → (b + P.hhdm) % 2 ^ 64 ≠ (block + P.hhdm) % 2 ^ 64 := by
  have hal := Nat.mod_eq_zero_of_dvd (hP.aligned _ _ _ hA)
  have hfit := P.pages.alloc_fits (by decide) hA
  have hh := hP.hhdm
  simp only [regionSize] at *
  refine ⟨by omega, by omega, ?_⟩
  intro b hb hlt
  have hap := P.pages.alloc_apart (by decide) hA _ hb
  unfold Apart at hap
  simp only at hap
  omega

/-- The new region starts on a multiple of its size and is no earlier region. -/
theorem fresh_region (hP : PlatformOk P) (hi : SlabCore P s fl live) {block : Nat} {pmm : σ}
    (hA : P.pages.alloc 64 s.pmm = some (block, pmm)) :
    ((block + P.hhdm) % 2 ^ 64) % regionSize = 0 ∧
      (block + P.hhdm) % 2 ^ 64 + regionSize ≤ 2 ^ 64 ∧
      ∀ r ∈ s.regions, r.1 ≠ (block + P.hhdm) % 2 ^ 64 := by
  obtain ⟨hal, hfit, hnew⟩ := hP.new_region hA
  refine ⟨hal, hfit, ?_⟩
  intro r hr
  obtain ⟨b, hb, hlt, he⟩ := hi.source r hr
  rw [he]
  exact hnew b hb hlt

theorem SlabCore.create (hP : PlatformOk P) (hi : SlabCore P s fl live) (hc : fl c = [])
    {s' : SlabState σ} (h : createSlab P c (entSize c) s = some s') :
    ∃ region, (region, c) ∈ s'.regions ∧
      SlabCore P s' (Function.update fl c (regionSlots region c)) live ∧
      (∀ x, (∃ r ∈ s.regions, r.1 ≤ x ∧ x < r.1 + regionSize) → s'.mem x = s.mem x) := by
  obtain ⟨block, pmm, hA, hpmm, hreg, hslabs, hmem⟩ := createSlab_some h
  obtain ⟨hal, hfit, hne⟩ := fresh_region hP hi hA
  have hlive := P.pages.alloc_live hA
  have hafit := P.pages.alloc_fits (by decide) hA
  generalize hrg : (block + P.hhdm) % 2 ^ 64 = region at *
  obtain ⟨hhead, hchain, hout⟩ := regionMem_spec hfit (Platform.slabPtr_lt hP c) c hmem
  -- the older regions are apart from the new one
  have hold : ∀ r ∈ s.regions, ∀ x, r.1 ≤ x → x < r.1 + regionSize → s'.mem x = s.mem x := by
    intro r hr x h1 h2
    have h3 := hi.regions.aligned r hr
    have h4 := hne r hr
    apply hout
    simp only [regionSize] at *
    omega
  have hnew : region ∉ s.regions.map Prod.fst := by
    intro hm
    obtain ⟨r, hr, he⟩ := List.mem_map.mp hm
    exact hne r hr he
  have hreg' : RegionsOk s'.regions := by
    rw [hreg]
    exact hi.regions.cons hal hfit hnew
  have h8 := fun d => (entSize_facts d).1
  refine ⟨region, by rw [hreg]; simp, ⟨hreg', ?_, ?_, ?_, ?_, ?_, hi.fits⟩,
    fun x ⟨r, hr, h1, h2⟩ => hold r hr x h1 h2⟩
  · rw [hreg, hpmm, hlive]
    intro r hr
    rcases List.mem_cons.mp hr with rfl | hr
    · exact ⟨block, by simp, by omega, hrg.symm⟩
    · obtain ⟨b, hb, h1, h2⟩ := hi.source r hr
      exact ⟨b, List.mem_cons_of_mem _ hb, h1, h2⟩
  · rw [hreg]
    intro r hr
    rcases List.mem_cons.mp hr with rfl | hr
    · exact hhead
    · rw [← hi.header r hr]
      refine read64_congr fun x h1 h2 => hold r hr x h1 ?_
      simp only [regionSize]
      omega
  · intro d
    rw [hslabs]
    by_cases hd : d = c
    · subst hd; simp
    · simpa [Function.update_of_ne hd] using hi.unlocked d
  · intro d
    rw [hslabs]
    by_cases hd : d = c
    · subst hd; simpa using hchain
    · rw [Function.update_of_ne hd, Function.update_of_ne hd]
      refine (hi.chain d).congr fun q hq => ?_
      have hs := hi.free_slot hq
      have hle := hs.le
      have hge := hs.ge
      have := h8 d
      refine read64_congr fun x h1 h2 => hold _ hs.region x ?_ ?_
      · simp only; omega
      · simp only; omega
  · intro d
    rw [hreg, slots_cons]
    by_cases hd : c = d
    · subst hd
      have hp := hi.slots c
      rw [hc, List.nil_append] at hp
      rw [if_pos rfl, Function.update_self]
      exact hp.append_left _
    · rw [if_neg hd, Function.update_of_ne (Ne.symm hd)]
      exact hi.slots d

/-! ## The calls -/

theorem SlabCore.perm (hi : SlabCore P s fl live) {live' : List Obj} (hp : live.Perm live') :
    SlabCore P s fl live' :=
  ⟨hi.regions, hi.source, hi.header, hi.unlocked, hi.chain,
    fun c => ((liveOf_perm hp.symm c).append_left _).trans (hi.slots c),
    fun o ho => hi.fits o (hp.mem_iff.mpr ho)⟩

/-- Updating one cache's descriptor and free list. -/
theorem SlabCore.update (hi : SlabCore P s fl live) {live' : List Obj} {ff e : Nat} {l : List Nat}
    (hch : Chain (read64 s.mem) ff l)
    (hsl : (l ++ liveOf live' c).Perm (SlabLayout.slots s.regions c))
    (hother : ∀ d, d ≠ c → liveOf live' d = liveOf live d)
    (hfit : ∀ o ∈ live', o.size ≤ entSize o.cache) :
    SlabCore P (s.set c ⟨false, ff, e⟩) (Function.update fl c l) live' := by
  refine ⟨hi.regions, hi.source, hi.header, ?_, ?_, ?_, hfit⟩
  · intro d
    by_cases hd : d = c
    · subst hd; simp
    · simpa [Function.update_of_ne hd] using hi.unlocked d
  · intro d
    by_cases hd : d = c
    · subst hd; simpa using hch
    · simpa [Function.update_of_ne hd] using hi.chain d
  · intro d
    by_cases hd : d = c
    · subst hd; simpa using hsl
    · rw [Function.update_of_ne hd, hother d hd]
      exact hi.slots d

/-- Taking the first free slot. -/
theorem SlabCore.pop (hi : SlabCore P s fl live) {size : Nat} (hsz : size ≤ entSize c)
    (h0 : (s.slabs c).firstFree ≠ 0) (e : Nat) :
    ∃ l, fl c = (s.slabs c).firstFree :: l ∧
      SlabCore P (s.set c ⟨false, read64 s.mem (s.slabs c).firstFree, e⟩) (Function.update fl c l)
        (⟨(s.slabs c).firstFree, size, c⟩ :: live) := by
  obtain ⟨l, hl, hch⟩ := (hi.chain c).pop h0
  refine ⟨l, hl, hi.update hch ?_ ?_ ?_⟩
  · have hp := hi.slots c
    rw [hl] at hp
    rw [liveOf_cons, if_pos rfl]
    exact List.perm_middle.trans hp
  · intro d hd
    rw [liveOf_cons, if_neg (Ne.symm hd)]
  · intro o ho
    rcases List.mem_cons.mp ho with rfl | ho
    · exact hsz
    · exact hi.fits o ho

/-- Putting a live object at the head of its cache's free list. -/
theorem SlabCore.push (hi : SlabCore P s fl (o :: live)) (e : Nat) :
    SlabCore P (SlabState.set
        { s with mem := write64 s.mem o.addr (s.slabs o.cache).firstFree } o.cache
        ⟨false, o.addr, e⟩)
      (Function.update fl o.cache (o.addr :: fl o.cache)) live := by
  have hs := hi.live_slot (o := o) (by simp)
  have h8 := (entSize_facts o.cache).1
  have hm : ∀ x, x < o.addr ∨ o.addr + entSize o.cache ≤ x →
      write64 s.mem o.addr (s.slabs o.cache).firstFree x = s.mem x :=
    fun x hx => write64_out (by omega)
  -- the old head is a slot or null, so the stored pointer is not truncated
  have hff : (s.slabs o.cache).firstFree < 2 ^ 64 := by
    by_cases h0 : (s.slabs o.cache).firstFree = 0
    · rw [h0]; decide
    · obtain ⟨l, hl, -⟩ := (hi.chain o.cache).pop h0
      have := (hi.free_slot (c := o.cache) (p := (s.slabs o.cache).firstFree)
        (by rw [hl]; simp)).lt hi.regions
      omega
  have hi' := hi.store (o := o) (by simp) hm
  refine hi'.update ((hi'.chain o.cache).push hs.ne_zero (read64_write64_of_lt hff)
    fun x _ => rfl) ?_ ?_ fun q hq => hi.fits q (by simp [hq])
  · have hp := hi.slots o.cache
    rw [liveOf_cons, if_pos rfl] at hp
    exact List.perm_middle.symm.trans hp
  · intro d hd
    rw [liveOf_cons, if_neg (Ne.symm hd)]

theorem Sized.set (hs : Sized s) {d : SlabDesc} (hd : d.entSize = entSize c) : Sized (s.set c d) := by
  intro e
  by_cases he : e = c
  · subst he; simpa using hd
  · simpa [Function.update_of_ne he] using hs e

theorem Sized.create (hs : Sized s) {s' : SlabState σ} (h : createSlab P c (entSize c) s = some s') :
    Sized s' := by
  obtain ⟨block, pmm, -, -, -, hslabs, -⟩ := createSlab_some h
  intro e
  rw [hslabs]
  by_cases he : e = c
  · subst he; simp
  · simpa [Function.update_of_ne he] using hs e

/-- The state between calls. -/
structure Inv (P : Platform σ) (s : SlabState σ) (live : List Obj) (fl : Cache → List Nat) :
    Prop where
  core : SlabCore P s fl live
  sized : Sized s

theorem Inv.allocFrom (hP : PlatformOk P) (hi : Inv P s live fl) {size addr : Nat}
    {s' : SlabState σ} (hsz : size ≤ entSize c) (h : allocFromSlab P c s = some (addr, s')) :
    addr ≠ 0 ∧ ∃ fl', Inv P s' (⟨addr, size, c⟩ :: live) fl' := by
  obtain ⟨-, t, ht, rfl, rfl⟩ := allocFromSlab_some h
  -- with or without a refill, the list is not empty when its head is taken
  have hcases : (t.slabs c).firstFree ≠ 0 ∧ ∃ fl₁, Inv P t live fl₁ := by
    rcases ht with ⟨h0, rfl⟩ | ⟨h0, hc⟩
    · exact ⟨h0, fl, hi⟩
    · rw [hi.sized c] at hc
      have hnil : fl c = [] := (h0 ▸ hi.core.chain c).null
      obtain ⟨region, -, hcore, -⟩ := hi.core.create hP hnil hc
      have hchain := hcore.chain c
      rw [Function.update_self] at hchain
      refine ⟨?_, _, hcore, hi.sized.create hc⟩
      intro hz
      rw [hz] at hchain
      have hlen := congrArg List.length hchain.null
      have := (entSize_facts c).2.2.2.2
      rw [regionSlots, length_strided, List.length_nil] at hlen
      omega
  obtain ⟨h0, fl₁, hi₁⟩ := hcases
  obtain ⟨l, -, hcore⟩ := hi₁.core.pop hsz h0 (t.slabs c).entSize
  exact ⟨h0, _, hcore, hi₁.sized.set (hi₁.sized c)⟩

theorem Inv.freeObj (hi : Inv P s (l₁ ++ o :: l₂) fl) {s' : SlabState σ}
    (h : freeInSlab o.cache o.addr s = some s') : ∃ fl', Inv P s' (l₁ ++ l₂) fl' := by
  have hmid : (l₁ ++ o :: l₂).Perm (o :: (l₁ ++ l₂)) := List.perm_middle
  have hcore := hi.core.perm hmid
  have h0 := (hcore.live_slot (o := o) (by simp)).ne_zero
  rw [freeInSlab_some h0 h]
  exact ⟨_, hcore.push _, Sized.set (c := o.cache) hi.sized (hi.sized o.cache)⟩

end Cynix.Mm.SlabRep
