import Cynix.Mm.SlabLockInv

/-! # Every careful step keeps the invariant

`Recalls` says what a CPU may rely on between two steps of `alloc_from_slab`,
`create_slab` or `free_in_slab`. The other CPUs cannot break it: they are not
inside the cache, and they store in their own bytes only. -/
namespace Cynix.Mm.SlabLock
open Cynix.Base.Bytes Cynix.Base.Pages Cynix.Base.Linked Cynix.Base.Holdings Cynix.Lib.Misc
open Cynix.Mm.SlabLayout Cynix.Mm.Slab
open Cynix.Mm.SlabRep (PlatformOk)

variable {σ : Type} {P : Platform σ} {s s' : State σ} {fl fl' : Cache → List Nat}
  {i j : Nat} {pc pc' : Pc} {c d : Cache} {x : Nat} {m' : Mem} {o : Obj}

/-- The free list is empty, or not a list yet: from the test of `first_free` to the end of `create_slab`. -/
def Pc.creating : Pc → Bool
  | .refillLock _ | .refillPages _ | .refillFirst _ _ | .refillHead _ _ | .refillHeader _ _ _
  | .refillSkip _ _ | .refillSkipSet _ _ _ | .refillArr _ _ | .refillLink _ _ _ _
  | .panicked _ => true
  | _ => false

/-- The words that `create_slab` has stored when it has made `k` links. -/
structure Linked (P : Platform σ) (m : Mem) (c : Cache) (r k : Nat) : Prop where
  bound : k ≤ slabMax c
  header : read64 m r = P.slabPtr c
  links : ∀ j, j < k → read64 m (r + entSize c + 8 * (j * slabFact c)) =
    r + entSize c + 8 * ((j + 1) * slabFact c)

def Recalls (P : Platform σ) (s : State σ) (fl : Cache → List Nat) : Pc → Prop
  | .refillHead a r => s.firstFree a.cache = r
  | .refillHeader a r slabPtr => s.firstFree a.cache = r ∧ slabPtr = r
  | .refillSkip a r => s.firstFree a.cache = r ∧ Linked P s.mem a.cache r 0
  | .refillSkipSet a r v => v = r ∧ Linked P s.mem a.cache r 0
  | .refillArr a r => s.firstFree a.cache = r + entSize a.cache ∧ Linked P s.mem a.cache r 0
  | .refillLink a r arr k => s.firstFree a.cache = arr ∧ arr = r + entSize a.cache ∧
      Linked P s.mem a.cache r k
  | .allocRead a _ => s.firstFree a.cache ∈ fl a.cache
  | .allocNext a _ p => s.firstFree a.cache = p ∧ p ∈ fl a.cache
  | .allocSet a _ p next => s.firstFree a.cache = p ∧ p ∈ fl a.cache ∧ next = read64 s.mem p
  | .freeLink o _ head => head = s.firstFree o.cache
  | .freeSet o _ => read64 s.mem o.addr = s.firstFree o.cache
  | _ => True

structure Lists (P : Platform σ) (s : State σ) (fl : Cache → List Nat) : Prop where
  chain : ∀ c, (∀ i, (s.pc i).inside = some c → (s.pc i).creating = false) →
    Chain (read64 s.mem) (s.firstFree c) (fl c)
  empty : ∀ i c, (s.pc i).inside = some c → (s.pc i).creating = true → fl c = []
  recalls : ∀ i, Recalls P s fl (s.pc i)

structure Inv (P : Platform σ) (s : State σ) (fl : Cache → List Nat) : Prop where
  locks : Locks s
  regions : Regions P s
  slots : Slots s fl
  lists : Lists P s fl

/-! ## The numbers of `create_slab` -/

theorem slabMax_eq (c : Cache) : slabMax c = regionSize / entSize c - 2 := by
  obtain ⟨h1, h2, -⟩ := SlabRep.createSlab_numbers c
  rw [slabMax, h1, h2]

/-- Cell `k` of the array lies `entSize * k` above the first slot. -/
theorem cell_offset (c : Cache) (k : Nat) : 8 * (k * slabFact c) = entSize c * k := by
  obtain ⟨-, -, h3⟩ := SlabRep.createSlab_numbers c
  calc 8 * (k * slabFact c) = 8 * slabFact c * k := by ring
    _ = entSize c * k := by rw [slabFact, h3]

/-- The cells up to the last lie in the region, behind its header. -/
theorem cell_in_region {k : Nat} (hk : k ≤ slabMax c) :
    entSize c + 8 * (k * slabFact c) + 8 ≤ regionSize := by
  obtain ⟨h8, -, ⟨n, hn⟩, -, h2⟩ := entSize_facts c
  have hdiv : regionSize / entSize c = n := by rw [hn, Nat.mul_div_cancel_left _ (by omega)]
  rw [slabMax_eq, hdiv] at hk
  rw [hdiv] at h2
  have hle : entSize c * (k + 2) ≤ entSize c * n := Nat.mul_le_mul_left _ (by omega)
  rw [← hn, Nat.mul_add] at hle
  rw [cell_offset]
  omega

/-- Links at different cells do not overlap. -/
theorem cell_apart {k n : Nat} (hkn : k < n) :
    8 * (k * slabFact c) + 8 ≤ 8 * (n * slabFact c) := by
  have h8 := (entSize_facts c).1
  have hle : entSize c * (k + 1) ≤ entSize c * n := Nat.mul_le_mul_left _ hkn
  rw [Nat.mul_succ] at hle
  rw [cell_offset, cell_offset]
  omega

theorem Linked.congr {m : Mem} {r k : Nat} (h : Linked P m c r k)
    (hm : ∀ a, r ≤ a → a + 8 ≤ r + regionSize → read64 m' a = read64 m a) :
    Linked P m' c r k := by
  refine ⟨h.bound, ?_, ?_⟩
  · rw [hm r le_rfl (by simp only [regionSize]; omega), h.header]
  · intro n hn
    have := cell_in_region (c := c) (k := n) (by have := h.bound; omega)
    rw [hm _ (by omega) (by omega), h.links n hn]

/-- One round of the loop of `create_slab`. -/
theorem Linked.link {m : Mem} {r k : Nat} (h : Linked P m c r k) (hk : k < slabMax c)
    (hfit : r + regionSize ≤ 2 ^ 64) :
    Linked P (write64 m (r + entSize c + 8 * (k * slabFact c))
      (r + entSize c + 8 * ((k + 1) * slabFact c))) c r (k + 1) := by
  have h8 := (entSize_facts c).1
  have hnext := cell_in_region (c := c) (k := k + 1) hk
  refine ⟨hk, ?_, ?_⟩
  · rw [read64_write64_ne (by omega), h.header]
  · intro n hn
    rcases Nat.lt_succ_iff_lt_or_eq.mp hn with hlt | rfl
    · have := cell_apart (c := c) hlt
      rw [read64_write64_ne (by omega), h.links n hlt]
    · exact read64_write64_of_lt (by omega)

/-- The `NULL` after the loop makes the slots of the region a list. -/
theorem Linked.finish {m : Mem} {r : Nat} (h : Linked P m c r (slabMax c)) :
    read64 (write64 m (r + entSize c + 8 * (slabMax c * slabFact c)) 0) r = P.slabPtr c ∧
    Chain (read64 (write64 m (r + entSize c + 8 * (slabMax c * slabFact c)) 0)) (r + entSize c)
      (regionSlots r c) := by
  obtain ⟨h8, -, -, -, h2⟩ := entSize_facts c
  refine ⟨by rw [read64_write64_ne (by omega), h.header], ?_⟩
  unfold regionSlots
  rw [show regionSize / entSize c - 1 = slabMax c + 1 by rw [slabMax_eq]; omega]
  refine Chain.strided (by omega) ?_ ?_
  · intro k hk
    have := cell_apart (c := c) hk
    rw [← cell_offset, ← cell_offset, read64_write64_ne (by omega), h.links k hk]
  · rw [← cell_offset]
    exact read64_write64_of_lt (by decide)

/-! ## The other CPUs -/

/-- What CPU `j` recalls stays true while its cache's list head and free list stay, and its own
bytes and those of the free slots. -/
theorem Recalls.frame {w : Who} (h : Recalls P s fl (s.pc j)) (hin : ∀ c, (s.pc j).inside = some c →
    s'.firstFree c = s.firstFree c ∧ fl' c = fl c) (hk : Keeps s fl w s'.mem) (hw : w ≠ .cpu j)
    (hf : ∀ c, w ≠ .free c) : Recalls P s' fl' (s.pc j) := by
  cases hpc : s.pc j with
  | idle | allocAcquire | allocTest | refillLock | refillPages | refillFirst | allocRelease
  | panicked | copy | freeAcquire | freeRead | freeRelease => trivial
  | refillHead a r =>
    rw [hpc] at h hin
    exact (hin _ rfl).1.trans h
  | refillHeader a r slabPtr =>
    rw [hpc] at h hin
    exact ⟨(hin _ rfl).1.trans h.1, h.2⟩
  | refillSkip a r =>
    rw [hpc] at h hin
    exact ⟨(hin _ rfl).1.trans h.1,
      h.2.congr fun x h1 h2 => hk.building hw (i := j) (by rw [hpc]; rfl) h1 h2⟩
  | refillSkipSet a r v =>
    rw [hpc] at h
    exact ⟨h.1, h.2.congr fun x h1 h2 => hk.building hw (i := j) (by rw [hpc]; rfl) h1 h2⟩
  | refillArr a r =>
    rw [hpc] at h hin
    exact ⟨(hin _ rfl).1.trans h.1,
      h.2.congr fun x h1 h2 => hk.building hw (i := j) (by rw [hpc]; rfl) h1 h2⟩
  | refillLink a r arr k =>
    rw [hpc] at h hin
    exact ⟨(hin _ rfl).1.trans h.1, h.2.1,
      h.2.2.congr fun x h1 h2 => hk.building hw (i := j) (by rw [hpc]; rfl) h1 h2⟩
  | allocRead a w =>
    rw [hpc] at h hin
    obtain ⟨he, hl⟩ := hin _ rfl
    simpa only [Recalls, he, hl] using h
  | allocNext a w p =>
    rw [hpc] at h hin
    obtain ⟨he, hl⟩ := hin _ rfl
    simpa only [Recalls, he, hl] using h
  | allocSet a w p next =>
    rw [hpc] at h hin
    obtain ⟨he, hl⟩ := hin _ rfl
    obtain ⟨h1, h2, h3⟩ := h
    refine ⟨he.trans h1, hl ▸ h2, ?_⟩
    rw [h3, hk.link (hf _) h2]
  | freeLink o new head =>
    rw [hpc] at h hin
    exact h.trans (hin _ rfl).1.symm
  | freeSet o new =>
    rw [hpc] at h hin
    have ho : o ∈ held s fl (.cpu j) := by simp [held, hpc, Pc.hands]
    exact (hk.word hw.symm ho).trans (h.trans (hin _ rfl).1.symm)

/-- The free list of a cache that its one CPU is not refilling. -/
theorem Inv.chain_inside (hi : Inv P s fl) (hin : (s.pc i).inside = some c)
    (hcr : (s.pc i).creating = false) : Chain (read64 s.mem) (s.firstFree c) (fl c) := by
  refine hi.lists.chain c fun j hj => ?_
  obtain rfl := hi.locks.exclusive j i c hj hin
  exact hcr

theorem Inv.chain_outside (hi : Inv P s fl) (hc : ∀ j, (s.pc j).inside ≠ some c) :
    Chain (read64 s.mem) (s.firstFree c) (fl c) :=
  hi.lists.chain c fun j hj => absurd hj (hc j)

/-- A step of CPU `i`: only the cache it is inside of can change. -/
theorem Lists.step (hi : Inv P s fl) (hpc : s'.pc = Function.update s.pc i pc')
    (hk : Keeps s fl (.cpu i) s'.mem)
    (hother : ∀ d, (s.pc i).inside ≠ some d → s'.firstFree d = s.firstFree d ∧ fl' d = fl d)
    (hchain : ∀ d, (s.pc i).inside = some d ∨ pc'.inside = some d →
      (pc'.inside = some d → pc'.creating = false) →
      Chain (read64 s'.mem) (s'.firstFree d) (fl' d))
    (hempty : ∀ d, pc'.inside = some d → pc'.creating = true → fl' d = [])
    (hrec : Recalls P s' fl' pc') : Lists P s' fl' := by
  refine ⟨?_, ?_, ?_⟩
  · intro d hd
    by_cases hin : (s.pc i).inside = some d ∨ pc'.inside = some d
    · refine hchain d hin fun he => ?_
      have := hd i
      rw [hpc, Function.update_self] at this
      exact this he
    · rw [not_or] at hin
      obtain ⟨hff, hfl⟩ := hother d hin.1
      rw [hff, hfl]
      refine hk.chain nofun (hi.lists.chain d fun j hj => ?_)
      have hji : j ≠ i := by
        rintro rfl
        exact hin.1 hj
      have := hd j
      rw [hpc, Function.update_of_ne hji] at this
      exact this hj
  · intro j d hj hcr
    rw [hpc] at hj hcr
    by_cases hji : j = i
    · subst hji
      rw [Function.update_self] at hj hcr
      exact hempty d hj hcr
    · rw [Function.update_of_ne hji] at hj hcr
      rw [(hother d fun he => hji (hi.locks.exclusive j i d hj he)).2]
      exact hi.lists.empty j d hj hcr
  · intro j
    rw [hpc]
    by_cases hji : j = i
    · subst hji
      rw [Function.update_self]
      exact hrec
    · rw [Function.update_of_ne hji]
      refine (hi.lists.recalls j).frame (fun d hd => hother d ?_) hk ?_ nofun
      · intro he
        exact hji (hi.locks.exclusive j i d hd he)
      · intro he
        exact hji (Who.cpu.inj he).symm

/-! ## Steps that keep what the CPU holds -/

/-- CPU `i` goes on from `pc` to `pc'` with the same slots and the same region in hand; lock
words, list heads and memory may change. -/
structure Works (s s' : State σ) (i : Nat) (pc pc' : Pc) : Prop where
  start : s.pc i = pc
  next : s'.pc = Function.update s.pc i pc'
  live : s'.live = s.live
  regions : s'.regions = s.regions
  pmm : s'.pmm = s.pmm
  hands : pc'.hands.Perm pc.hands
  building : pc'.building = pc.building

theorem Works.inv (hw : Works s s' i pc pc') (hi : Inv P s fl) (hl : Locks s')
    (hk : Keeps s fl (.cpu i) s'.mem) (hlists : Lists P s' fl) : Inv P s' fl := by
  obtain rfl := hw.start
  exact ⟨hl, hi.regions.stay hw.next hw.building hw.regions hw.pmm hk,
    hi.slots.stay hw.next hw.hands hw.live hw.regions, hlists⟩

/-- A step outside every cache. -/
theorem Lists.outside (hi : Inv P s fl) (hpc : s'.pc = Function.update s.pc i pc')
    (hin : (s.pc i).inside = none) (hin' : pc'.inside = none) (hff : s'.firstFree = s.firstFree)
    (hk : Keeps s fl (.cpu i) s'.mem) (hrec : Recalls P s' fl pc') : Lists P s' fl := by
  refine Lists.step hi hpc hk (fun d _ => ⟨by rw [hff], rfl⟩) ?_ ?_ hrec
  · rintro d (hd | hd)
    · rw [hin] at hd; cases hd
    · rw [hin'] at hd; cases hd
  · intro d hd
    rw [hin'] at hd; cases hd

theorem Works.outside (hw : Works s s' i pc pc') (hi : Inv P s fl) (hl : s'.lock = s.lock)
    (hin : pc.inside = none ∧ pc.refilling = false)
    (hin' : pc'.inside = none ∧ pc'.refilling = false)
    (hff : s'.firstFree = s.firstFree) (hk : Keeps s fl (.cpu i) s'.mem)
    (hrec : Recalls P s' fl pc') : Inv P s' fl := by
  obtain rfl := hw.start
  have hlocks := hi.locks.stay hw.next (hin'.1.trans hin.1.symm) (hin'.2.trans hin.2.symm) hl
  exact hw.inv hi hlocks hk (Lists.outside hi hw.next hin.1 hin'.1 hff hk hrec)

/-- The compare-and-swap succeeds. -/
theorem Works.enter (hw : Works s s' i pc pc') (hi : Inv P s fl) (hc : Careful s i)
    (hwant : pc.wants = some c) (hfree : s.lock c = false)
    (hl : s'.lock = Function.update s.lock c true) (hin : pc.inside = none)
    (hin' : pc'.inside = some c ∧ pc'.refilling = false ∧ pc'.creating = false)
    (hff : s'.firstFree = s.firstFree) (hm : s'.mem = s.mem)
    (hrec : Recalls P s' fl pc') : Inv P s' fl := by
  obtain rfl := hw.start
  have hno := hi.locks.nobody_inside hfree (hc c hwant)
  have hk : Keeps s fl (.cpu i) s'.mem := hm ▸ Keeps.refl s fl _
  refine hw.inv hi (hi.locks.enter hno hw.next hin hin'.1 hin'.2.1 hl) hk ?_
  refine Lists.step hi hw.next hk (fun d _ => ⟨by rw [hff], rfl⟩) ?_ ?_ hrec
  · rintro d (hd | hd) -
    · rw [hin] at hd; cases hd
    · rw [hin'.1] at hd
      obtain rfl := Option.some.inj hd
      rw [hff, hm]
      exact hi.chain_outside hno
  · intro d _ hcr
    rw [hin'.2.2] at hcr; cases hcr

/-- A release: the list is in order, and the cache's other CPUs may use it. -/
theorem Lists.leave (hi : Inv P s fl) (hpc : s'.pc = Function.update s.pc i pc')
    (hin : (s.pc i).inside = some c) (hcr : (s.pc i).creating = false) (hin' : pc'.inside = none)
    (hff : s'.firstFree = s.firstFree) (hm : s'.mem = s.mem) (hrec : Recalls P s' fl pc') :
    Lists P s' fl := by
  refine Lists.step hi hpc (hm ▸ Keeps.refl s fl _) (fun d _ => ⟨by rw [hff], rfl⟩) ?_ ?_ hrec
  · rintro d (hd | hd) -
    · rw [hin] at hd
      obtain rfl := Option.some.inj hd
      rw [hff, hm]
      exact hi.chain_inside hin hcr
    · rw [hin'] at hd; cases hd
  · intro d hd
    rw [hin'] at hd; cases hd

/-- A step inside a cache whose list is in order; the head stays. -/
theorem Works.inside (hw : Works s s' i pc pc') (hi : Inv P s fl) (hl : s'.lock = s.lock)
    (hin : pc.inside = some c ∧ pc.creating = false)
    (hin' : pc'.inside = some c ∧ pc'.refilling = pc.refilling)
    (hcr : pc'.creating = true → fl c = [])
    (hff : s'.firstFree = s.firstFree) (hk : Keeps s fl (.cpu i) s'.mem)
    (hrec : Recalls P s' fl pc') : Inv P s' fl := by
  obtain rfl := hw.start
  have hlocks := hi.locks.stay hw.next (hin'.1.trans hin.1.symm) hin'.2 hl
  refine hw.inv hi hlocks hk ?_
  refine Lists.step hi hw.next hk (fun d _ => ⟨by rw [hff], rfl⟩) ?_ ?_ hrec
  · intro d hd _
    have hdc : c = d := by
      rcases hd with hd | hd
      · exact Option.some.inj (hin.1.symm.trans hd)
      · exact Option.some.inj (hin'.1.symm.trans hd)
    subst hdc
    rw [hff]
    exact hk.chain nofun (hi.chain_inside hin.1 hin.2)
  · intro d hd hcr'
    obtain rfl := Option.some.inj (hin'.1.symm.trans hd)
    exact hcr hcr'

/-- A step of `create_slab`: there is no list to keep in order. -/
theorem Works.refill (hw : Works s s' i pc pc') (hi : Inv P s fl) (hl : Locks s')
    (hin : pc.inside = some c ∧ pc.creating = true)
    (hin' : pc'.inside = some c ∧ pc'.creating = true)
    (hff : ∀ d, d ≠ c → s'.firstFree d = s.firstFree d) (hk : Keeps s fl (.cpu i) s'.mem)
    (hrec : Recalls P s' fl pc') : Inv P s' fl := by
  obtain rfl := hw.start
  refine hw.inv hi hl hk (Lists.step hi hw.next hk ?_ ?_ ?_ hrec)
  · intro d hd
    refine ⟨hff d ?_, rfl⟩
    rintro rfl
    exact hd hin.1
  · intro d hd hcr
    have hdc : pc'.inside = some d := by
      rcases hd with hd | hd
      · rw [hin'.1, ← hin.1, hd]
      · exact hd
    rw [hin'.2] at hcr
    cases hcr hdc
  · intro d hd _
    obtain rfl := Option.some.inj (hin'.1.symm.trans hd)
    exact hi.lists.empty i c hin.1 hin.2

/-- A step of `create_slab` that leaves the lock word alone. -/
theorem Works.create (hw : Works s s' i pc pc') (hi : Inv P s fl) (hl : s'.lock = s.lock)
    (hin : pc.inside = some c ∧ pc.creating = true ∧ pc.refilling = true)
    (hin' : pc'.inside = some c ∧ pc'.creating = true ∧ pc'.refilling = true)
    (hff : ∀ d, d ≠ c → s'.firstFree d = s.firstFree d) (hk : Keeps s fl (.cpu i) s'.mem)
    (hrec : Recalls P s' fl pc') : Inv P s' fl := by
  obtain rfl := hw.start
  have hlocks := hi.locks.stay hw.next (hin'.1.trans hin.1.symm) (hin'.2.2.trans hin.2.2.symm) hl
  exact hw.refill hi hlocks ⟨hin.1, hin.2.1⟩ ⟨hin'.1, hin'.2.1⟩ hff hk hrec

/-! ## Steps that move a slot -/

theorem Inv.free_slot (hi : Inv P s fl) {p : Nat} (hp : p ∈ fl c) : Slot s.regions c p :=
  hi.slots.slot (.free c) ⟨p, c⟩ (mem_held_free.mpr ⟨rfl, hp⟩)

/-- The head of a list that is in order is `NULL` or a free slot. -/
theorem Inv.head_lt (hi : Inv P s fl) (h : Chain (read64 s.mem) (s.firstFree c) (fl c)) :
    s.firstFree c < 2 ^ 64 := by
  by_cases h0 : s.firstFree c = 0
  · omega
  · obtain ⟨l, hl, -⟩ := h.pop h0
    have hlt := (hi.free_slot (p := s.firstFree c) (c := c) (by rw [hl]; simp)).lt hi.regions.ok
    have := (entSize_facts c).1
    omega

/-- Taking the first free slot. -/
theorem Inv.allocSet (hi : Inv P s fl) {a : Req} {wr : Bool} {p q : Nat}
    (hpc : s.pc i = .allocSet a wr p q) :
    ∃ fl', Inv P { s.goto i (.allocRelease a wr p) with
      firstFree := Function.update s.firstFree a.cache q } fl' := by
  have hin : (s.pc i).inside = some a.cache := by rw [hpc]; rfl
  have hrec := hi.lists.recalls i
  rw [hpc] at hrec
  obtain ⟨hff, hmem, rfl⟩ := hrec
  have hchain := hi.chain_inside hin (by rw [hpc]; rfl)
  have h0 : s.firstFree a.cache ≠ 0 := by
    rw [hff]
    exact (hi.free_slot hmem).ne_zero
  obtain ⟨l, hl, htail⟩ := hchain.pop h0
  rw [hff] at hl htail
  refine ⟨Function.update fl a.cache l,
    hi.locks.stay (i := i) rfl (by rw [hpc]; rfl) (by rw [hpc]; rfl) rfl,
    hi.regions.stay (i := i) rfl (by rw [hpc]; rfl) rfl rfl (Keeps.refl s fl (.cpu i)),
    hi.slots.pop (i := i) rfl (by rw [hpc]; rfl) hl rfl rfl, ?_⟩
  refine Lists.step hi (i := i) rfl (Keeps.refl s fl _) ?_ ?_ (by simp [Pc.creating]) trivial
  · intro d hd
    have hda : d ≠ a.cache := by
      rintro rfl
      exact hd hin
    exact ⟨Function.update_of_ne hda .., Function.update_of_ne hda ..⟩
  · intro d hd _
    have hda : a.cache = d := by
      rcases hd with hd | hd
      · exact Option.some.inj (hin.symm.trans hd)
      · exact Option.some.inj hd
    subst hda
    simpa using htail

/-- The object becomes the first free slot. -/
theorem Inv.freeSet (hi : Inv P s fl) {new : Option Obj} (hpc : s.pc i = .freeSet o new) :
    ∃ fl', Inv P { s.goto i (.freeRelease o new) with
      firstFree := Function.update s.firstFree o.cache o.addr } fl' := by
  have hin : (s.pc i).inside = some o.cache := by rw [hpc]; rfl
  have hrec := hi.lists.recalls i
  rw [hpc] at hrec
  have hslot := hi.slots.slot (.cpu i) o (by simp [held, hpc, Pc.hands])
  refine ⟨Function.update fl o.cache (o.addr :: fl o.cache),
    hi.locks.stay (i := i) rfl (by rw [hpc]; rfl) (by rw [hpc]; rfl) rfl,
    hi.regions.stay (i := i) rfl (by rw [hpc]; rfl) rfl rfl (Keeps.refl s fl (.cpu i)),
    hi.slots.push (i := i) rfl (by rw [hpc]; rfl) rfl rfl, ?_⟩
  refine Lists.step hi (i := i) rfl (Keeps.refl s fl _) ?_ ?_ (by simp [Pc.creating]) trivial
  · intro d hd
    have hdo : d ≠ o.cache := by
      rintro rfl
      exact hd hin
    exact ⟨Function.update_of_ne hdo .., Function.update_of_ne hdo ..⟩
  · intro d hd _
    have hdo : o.cache = d := by
      rcases hd with hd | hd
      · exact Option.some.inj (hin.symm.trans hd)
      · exact Option.some.inj hd
    subst hdo
    have hchain := hi.chain_inside hin (by rw [hpc]; rfl)
    simpa using hchain.push hslot.ne_zero hrec fun _ _ => rfl

/-- The store of the old head in the object: it is in the CPU's own hands. -/
theorem Inv.freeLink (hi : Inv P s fl) {new : Option Obj} {head : Nat}
    (hpc : s.pc i = .freeLink o new head) :
    Inv P { s.goto i (.freeSet o new) with mem := write64 s.mem o.addr head } fl := by
  have hin : (s.pc i).inside = some o.cache := by rw [hpc]; rfl
  have hcr : (s.pc i).creating = false := by rw [hpc]; rfl
  have hrec := hi.lists.recalls i
  rw [hpc] at hrec
  have ho : o ∈ held s fl (.cpu i) := by simp [held, hpc, Pc.hands]
  have h8 := (entSize_facts o.cache).1
  have hk : Keeps s fl (.cpu i) (write64 s.mem o.addr head) :=
    keeps_of_slot hi.regions hi.slots ho fun x hx => write64_out (by omega)
  refine Works.inside ⟨hpc, rfl, rfl, rfl, rfl, .refl _, rfl⟩ hi rfl ⟨rfl, rfl⟩ ⟨rfl, rfl⟩
    (by simp [Pc.creating]) rfl hk ?_
  have hlt := hi.head_lt (hi.chain_inside hin hcr)
  rw [← hrec] at hlt
  exact (read64_write64_of_lt hlt).trans hrec

/-- A client hands an object over to a CPU that is in no cache. -/
theorem Inv.give (hi : Inv P s fl) (hpc : s.pc i = .idle) {l₁ l₂ : List Obj}
    (hl : s.live = l₁ ++ o :: l₂) (hh : pc'.hands = [o])
    (hin' : pc'.inside = none ∧ pc'.refilling = false ∧ pc'.building = none)
    (hrec : Recalls P s fl pc') : Inv P { s.goto i pc' with live := l₁ ++ l₂ } fl :=
  ⟨hi.locks.stay (i := i) rfl (by rw [hpc]; exact hin'.1) (by rw [hpc]; exact hin'.2.1) rfl,
    hi.regions.stay (i := i) rfl (by rw [hpc]; exact hin'.2.2) rfl rfl (Keeps.refl s fl (.cpu i)),
    hi.slots.give (i := i) rfl (by rw [hpc, hh]; rfl) hl rfl rfl,
    Lists.outside hi (i := i) rfl (by rw [hpc]; rfl) hin'.1 rfl (Keeps.refl s fl _) hrec⟩

/-- The header lookup of `slab_free` and `slab_realloc` finds the object's own cache. -/
theorem Inv.lookup (hi : Inv P s fl) (ho : o ∈ s.live) :
    P.slabAt (read64 s.mem (regionOf o.addr)) = some o.cache := by
  have hs := hi.slots.slot .client o ho
  have hlt := hs.lt hi.regions.ok
  have := (entSize_facts o.cache).1
  rw [regionOf_eq (by omega), hi.regions.header _ hs.region, SlabRep.Platform.slabAt_slabPtr]

/-- A CPU leaves a cache and hands what it holds to a client. -/
theorem Inv.return (hi : Inv P s fl) (hin : (s.pc i).inside = some c)
    (hcr : (s.pc i).creating = false) (hb : (s.pc i).building = none)
    (hh : (s.pc i).hands = [o]) :
    Inv P { s.goto i .idle with
      lock := Function.update s.lock c false
      live := o :: s.live } fl :=
  ⟨hi.locks.open (i := i) rfl hin (.inl rfl) rfl,
    hi.regions.stay (i := i) rfl hb.symm rfl rfl (Keeps.refl s fl (.cpu i)),
    hi.slots.return (i := i) rfl hh rfl rfl,
    Lists.leave hi (i := i) rfl hin hcr rfl rfl rfl trivial⟩

end Cynix.Mm.SlabLock
