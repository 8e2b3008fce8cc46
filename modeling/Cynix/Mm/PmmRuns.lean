import Cynix.Mm.Pmm
import Cynix.Base.Pages

/-! # Whole runs of the physical page allocator

Calls from any number of CPUs are serialised by `pmm_lock`, so a run is a
sequence of calls. `live` is the list of the ranges returned and not freed
since; a `free` step names one of them. A call that runs out of memory panics
with the lock held: the run stops there, and the state it stops in is a state
of the run like any other. -/
namespace Cynix.Mm.PmmRuns
open Cynix.Base.Bytes Cynix.Base.Pages Cynix.Lib.Misc Cynix.Mm.Pmm

structure Sys where
  pmm : PmmState
  mem : Mem
  live : List Range
  halted : Bool

def Sys.boot (hhdm : Nat) (memmap : List MemmapEntry) (mem : Mem) : Sys :=
  ⟨pmmInit hhdm memmap mem, mem, [], false⟩

inductive Step (hhdm : Nat) : Sys → Sys → Prop where
  | alloc {s count ret pmm mem} : s.halted = false → 1 ≤ count →
      pmmAlloc hhdm count s.pmm s.mem = (some ret, pmm, mem) →
      Step hhdm s ⟨pmm, mem, (ret, count) :: s.live, false⟩
  | allocNozero {s count ret pmm} : s.halted = false → 1 ≤ count →
      pmmAllocNozero count s.pmm = (some ret, pmm) →
      Step hhdm s { s with pmm := pmm, live := (ret, count) :: s.live }
  | outOfMemory {s count pmm} : s.halted = false → 1 ≤ count →
      pmmAllocNozero count s.pmm = (none, pmm) →
      Step hhdm s { s with pmm := pmm, halted := true }
  | free {s page count pmm mem} : s.halted = false → (page, count) ∈ s.live →
      pmmFree hhdm page count s.pmm s.mem = (pmm, mem) →
      Step hhdm s ⟨pmm, mem, s.live.erase (page, count), false⟩
  /-- Owners of pages write to them between the calls. -/
  | write {s mem} : Step hhdm s { s with mem := mem }

/-- The page index `k` belongs to the range. -/
def InRange (r : Range) (k : Nat) : Prop := r.1 / pageSize ≤ k ∧ k < r.1 / pageSize + r.2

/-- No page index belongs to both ranges. -/
def Disjoint (r q : Range) : Prop := ∀ k, InRange r k → ¬ InRange q k

/-- The allocator's state against the state `p0` that `pmm_init` left. -/
structure Inv (p0 pmm : PmmState) (live : List Range) : Prop where
  small : p0.avlPageCount < 2 ^ 52
  count : pmm.avlPageCount = p0.avlPageCount
  cursor : pmm.lastUsedIndex ≤ p0.avlPageCount
  shape : ∀ r ∈ live, r.1 % pageSize = 0 ∧ 1 ≤ r.2 ∧ r.1 / pageSize + r.2 ≤ p0.avlPageCount
  apart : live.Pairwise Disjoint
  origin : ∀ r ∈ live, ∀ k, InRange r k → bitTest p0.bitmap k = false
  exact : ∀ k, k < p0.avlPageCount → (bitTest pmm.bitmap k = false ↔
    bitTest p0.bitmap k = false ∧ ∀ r ∈ live, ¬ InRange r k)

theorem Inv.boot {p0 : PmmState} (hs : p0.avlPageCount < 2 ^ 52)
    (hc : p0.lastUsedIndex ≤ p0.avlPageCount) : Inv p0 p0 [] :=
  ⟨hs, rfl, hc, by simp, List.Pairwise.nil, by simp, by simp⟩

theorem inRange_mul {first count k : Nat} :
    InRange (first * pageSize, count) k ↔ first ≤ k ∧ k < first + count := by
  unfold InRange pageSize
  simp

theorem Inv.alloc {p0 pmm pmm' : PmmState} {live : List Range} {count ret : Nat}
    (hi : Inv p0 pmm live) (hc : 1 ≤ count)
    (h : pmmAllocNozero count pmm = (some ret, pmm')) : Inv p0 pmm' ((ret, count) :: live) := by
  obtain ⟨first, rfl, -, hw, hf, rfl⟩ := pmmAllocNozero_some hc (by rw [hi.count]; exact hi.small)
    (by rw [hi.count]; exact hi.cursor) h
  rw [hi.count] at hw
  -- the pages handed out were free, so they are no live range's and were free at the start
  have hnew : ∀ k, InRange (first * pageSize, count) k →
      bitTest p0.bitmap k = false ∧ ∀ r ∈ live, ¬ InRange r k := by
    intro k hk
    obtain ⟨h1, h2⟩ := inRange_mul.mp hk
    exact (hi.exact k (by omega)).mp (hf k h1 h2)
  refine ⟨hi.small, hi.count, by simpa using hw, ?_, ?_, ?_, ?_⟩
  · intro r hr
    rcases List.mem_cons.mp hr with rfl | hr
    · refine ⟨by unfold pageSize; omega, hc, ?_⟩
      unfold pageSize
      simpa using hw
    · exact hi.shape r hr
  · refine List.pairwise_cons.mpr ⟨?_, hi.apart⟩
    intro r hr k hk
    exact (hnew k hk).2 r hr
  · intro r hr k hk
    rcases List.mem_cons.mp hr with rfl | hr
    · exact (hnew k hk).1
    · exact hi.origin r hr k hk
  · intro k hk
    simp only [bitTest_bitSetRange, Bool.or_eq_false_iff, decide_eq_false_iff_not, hi.exact k hk,
      List.forall_mem_cons, inRange_mul]
    tauto

theorem Inv.free {p0 pmm : PmmState} {live : List Range} {page count : Nat} (hi : Inv p0 pmm live)
    (hm : (page, count) ∈ live) :
    Inv p0 { pmm with bitmap := bitResetRange pmm.bitmap (page / pageSize) count }
      (live.erase (page, count)) := by
  have hsub : ∀ r ∈ live.erase (page, count), r ∈ live := fun r => List.mem_of_mem_erase
  have hperm := List.perm_cons_erase hm
  -- the freed range is apart from every range that stays
  have hrest : ∀ r ∈ live.erase (page, count), Disjoint (page, count) r := by
    have hp := hi.apart.perm hperm fun h k hk hk' => h k hk' hk
    exact (List.pairwise_cons.mp hp).1
  refine ⟨hi.small, hi.count, hi.cursor, fun r hr => hi.shape r (hsub r hr),
    hi.apart.sublist List.erase_sublist, fun r hr => hi.origin r (hsub r hr), ?_⟩
  intro k hk
  have hlive : (∀ r ∈ live, ¬ InRange r k) ↔
      ¬ InRange (page, count) k ∧ ∀ r ∈ live.erase (page, count), ¬ InRange r k := by
    constructor
    · exact fun h => ⟨h _ hm, fun r hr => h r (hsub r hr)⟩
    · rintro ⟨h0, h⟩ r hr
      rcases List.mem_cons.mp (hperm.mem_iff.mp hr) with rfl | hr
      · exact h0
      · exact h r hr
  simp only [bitTest_bitResetRange, Bool.and_eq_false_iff, Bool.not_eq_false', decide_eq_true_eq,
    hi.exact k hk, hlive]
  constructor
  · rintro (hin | ⟨h0, -, hr⟩)
    · exact ⟨hi.origin _ hm k hin, fun r hr => hrest r hr k hin⟩
    · exact ⟨h0, hr⟩
  · rintro ⟨h0, hr⟩
    by_cases hin : InRange (page, count) k
    · exact Or.inl hin
    · exact Or.inr ⟨h0, hin, hr⟩

theorem Inv.step {hhdm : Nat} {p0 : PmmState} {s t : Sys} (hi : Inv p0 s.pmm s.live)
    (h : Step hhdm s t) : Inv p0 t.pmm t.live := by
  cases h with
  | @alloc count ret pmm mem _ hc h =>
    unfold pmmAlloc at h
    split at h
    · rename_i ret' s' hs
      simp only [Prod.mk.injEq, Option.some.injEq] at h
      obtain ⟨rfl, rfl, -⟩ := h
      exact hi.alloc hc hs
    · simp at h
  | allocNozero _ hc h => exact hi.alloc hc h
  | outOfMemory _ _ h =>
    rw [pmmAllocNozero_none h]
    exact hi
  | free _ hm h =>
    simp only [pmmFree, Prod.mk.injEq] at h
    obtain ⟨rfl, -⟩ := h
    exact hi.free hm
  | write => exact hi

theorem Inv.run {hhdm : Nat} {p0 : PmmState} {s t : Sys} (hi : Inv p0 s.pmm s.live)
    (h : Relation.ReflTransGen (Step hhdm) s t) : Inv p0 t.pmm t.live := by
  induction h with
  | refl => exact hi
  | tail _ hs ih => exact ih.step hs

/-- **Conservation of pages.** For every memory map and every run of calls
after `pmm_init`: the live ranges are disjoint and inside the managed memory,
they consist of pages that were free after `pmm_init`, a bit is clear exactly
when its page was free then and is in no live range, and the cursor never
passes the limit, so a call tests no bit at or beyond the limit of its pass. -/
theorem pmm_run_conserves_pages (hhdm : Nat) (memmap : List MemmapEntry) (mem : Mem) (s : Sys)
    (h : Relation.ReflTransGen (Step hhdm) (Sys.boot hhdm memmap mem) s) :
    (s.live.Pairwise Disjoint ∧
      ∀ r ∈ s.live, r.1 / pageSize + r.2 ≤ (pmmInit hhdm memmap mem).avlPageCount) ∧
    (∀ r ∈ s.live, ∀ k, InRange r k → bitTest (pmmInit hhdm memmap mem).bitmap k = false) ∧
    (∀ k, k < (pmmInit hhdm memmap mem).avlPageCount → (bitTest s.pmm.bitmap k = false ↔
      bitTest (pmmInit hhdm memmap mem).bitmap k = false ∧ ∀ r ∈ s.live, ¬ InRange r k)) ∧
    s.pmm.lastUsedIndex ≤ s.pmm.avlPageCount ∧
    s.pmm.avlPageCount = (pmmInit hhdm memmap mem).avlPageCount ∧
    ∀ count, ∀ q ∈ allocTests count s.pmm, q.1 < q.2 ∧ q.2 ≤ s.pmm.avlPageCount := by
  have hi : Inv (pmmInit hhdm memmap mem) s.pmm s.live :=
    (Inv.boot (avlPageCount_lt memmap) (Nat.zero_le _)).run h
  have hcur : s.pmm.lastUsedIndex ≤ s.pmm.avlPageCount := by rw [hi.count]; exact hi.cursor
  exact ⟨⟨hi.apart, fun r hr => (hi.shape r hr).2.2⟩, hi.origin, hi.exact, hcur, hi.count,
    fun count => allocTests_lt hcur⟩

/-- One usable entry of eight pages; the bitmap takes the first of them. -/
def eightPages : List MemmapEntry := [⟨0, 0x8000, .usable⟩]

/-- The state after `pmm_alloc_nozero(2)` on the eight pages. -/
def afterTwo : Sys :=
  { Sys.boot 0 eightPages (fun _ => 0) with
    pmm := (pmmAllocNozero 2 (pmmInit 0 eightPages fun _ => 0)).2, live := [(0x2000, 2)] }

theorem eightPages_alloc :
    (pmmAllocNozero 2 (pmmInit 0 eightPages fun _ => 0)).1 = some 0x2000 := by
  decide +kernel

theorem pmm_run_conserves_pages_two :
    Relation.ReflTransGen (Step 0) (Sys.boot 0 eightPages fun _ => 0) afterTwo ∧
    (bitTest afterTwo.pmm.bitmap 2 = false ↔
      bitTest (pmmInit 0 eightPages fun _ => 0).bitmap 2 = false ∧
        ∀ r ∈ afterTwo.live, ¬ InRange r 2) := by
  have hrun : Relation.ReflTransGen (Step 0) (Sys.boot 0 eightPages fun _ => 0) afterTwo :=
    .single (.allocNozero rfl (by decide) (Prod.ext eightPages_alloc rfl))
  exact ⟨hrun, (pmm_run_conserves_pages 0 eightPages (fun _ => 0) afterTwo hrun).2.2.1 2
    (by decide +kernel)⟩

/-! ## The allocator its clients see -/

/-- A state of the allocator that keeps the invariant, with its live ranges. -/
structure PmmOk (p0 : PmmState) where
  pmm : PmmState
  live : List Range
  inv : Inv p0 pmm live

/-- `pmm_alloc_nozero` on such a state; a request for no pages divides by zero. -/
def PmmOk.alloc {p0 : PmmState} (n : Nat) (s : PmmOk p0) : Option (Nat × PmmOk p0) :=
  if hn : 1 ≤ n then
    match h : pmmAllocNozero n s.pmm with
    | (some ret, p') => some (ret, ⟨p', (ret, n) :: s.live, s.inv.alloc hn h⟩)
    | (none, _) => none
  else none

def PmmOk.free {p0 : PmmState} (a n : Nat) (s : PmmOk p0) : PmmOk p0 :=
  if hm : (a, n) ∈ s.live then
    ⟨{ s.pmm with bitmap := bitResetRange s.pmm.bitmap (a / pageSize) n }, s.live.erase (a, n),
      s.inv.free hm⟩
  else s

theorem PmmOk.alloc_some {p0 : PmmState} {n a : Nat} {s s' : PmmOk p0}
    (h : s.alloc n = some (a, s')) :
    ∃ first, Handed n s.pmm.avlPageCount first a s.pmm s'.pmm ∧ s'.live = (a, n) :: s.live := by
  unfold PmmOk.alloc at h
  split at h
  · rename_i hn
    split at h
    · rename_i ret p' hp
      simp only [Option.some.injEq, Prod.mk.injEq] at h
      obtain ⟨rfl, rfl⟩ := h
      obtain ⟨first, hh⟩ := pmmAllocNozero_some hn (by rw [s.inv.count]; exact s.inv.small)
        (by rw [s.inv.count]; exact s.inv.cursor) hp
      exact ⟨first, hh, rfl⟩
    · cases h
  · cases h

/-- A page-aligned range apart in pages from another is apart in bytes. -/
theorem apart_of_disjoint {r q : Range} (hr : r.1 % pageSize = 0) (hq : q.1 % pageSize = 0)
    (hr1 : 1 ≤ r.2) (hq1 : 1 ≤ q.2) (h : Disjoint r q) : Apart r q := by
  have h1 := h (q.1 / pageSize)
  have h2 := h (r.1 / pageSize)
  unfold InRange pageSize at *
  unfold Apart
  omega

/-- **The page allocator keeps the contract its clients rely on.** -/
def pmmAllocator (p0 : PmmState) : PageAllocator (PmmOk p0) where
  alloc n s := s.alloc n
  free a n s := s.free a n
  live s := s.live
  alloc_live h := (PmmOk.alloc_some h).choose_spec.2
  alloc_apart {n s a s'} hn h r hr := by
    obtain ⟨first, -, hl⟩ := PmmOk.alloc_some h
    have hi := s'.inv
    rw [hl] at hi
    obtain ⟨h1, h2, -⟩ := hi.shape (a, n) (by simp)
    obtain ⟨h3, h4, -⟩ := hi.shape r (by simp [hr])
    exact apart_of_disjoint h1 h3 h2 h4 ((List.pairwise_cons.mp hi.apart).1 r hr)
  alloc_page {n s a s'} hn h := by
    obtain ⟨first, hh, -⟩ := PmmOk.alloc_some h
    rw [hh.ret_eq]
    unfold pageSize
    omega
  alloc_fits {n s a s'} hn h := by
    obtain ⟨first, hh, -⟩ := PmmOk.alloc_some h
    have hw := hh.within
    have := s.inv.small
    rw [s.inv.count] at hw
    rw [hh.ret_eq]
    unfold pageSize
    omega
  free_live {n s a} hm := by
    have hm : (a, n) ∈ s.live := hm
    simp only [PmmOk.free, dif_pos hm]

theorem pmmAllocator_aligned (p0 : PmmState) (n : Nat) : (pmmAllocator p0).Aligned n := by
  intro s a s' h
  obtain ⟨first, hh, -⟩ := PmmOk.alloc_some h
  rw [hh.ret_eq]
  exact Nat.mul_dvd_mul_right hh.aligned pageSize

end Cynix.Mm.PmmRuns
