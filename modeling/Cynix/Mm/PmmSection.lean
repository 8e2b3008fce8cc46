import Cynix.Base.Sections
import Cynix.Mm.Pmm

/-! # The page allocator one access at a time

What `pmm_alloc_nozero` and `pmm_free` do between `spinlock_acquire(&pmm_lock)`
and `spinlock_release(&pmm_lock)`, statement by statement, with the loads and
the stores of the bitmap apart. Undisturbed it is what `pmmAllocNozero` and
`bitResetRange` do in one go. -/
namespace Cynix.Mm.PmmSection
open Cynix.Base.Bytes Cynix.Base.Sections Cynix.Lib.Misc Cynix.Mm.Pmm

inductive Op where
  | alloc (count : Nat)
  /-- The second half of `pmm_free`, after `page /= PAGE_SIZE`. -/
  | free (page count : Nat)

/-- The arguments and locals of `pmm_inner_alloc`, and those of its caller: `last` and the pass. -/
structure Scan where
  count : Nat
  limit : Nat
  p : Nat
  last : Nat
  second : Bool

inductive Local where
  | begin (count : Nat)
  /-- The test of the `while` loop. -/
  | check (k : Scan)
  | advance (k : Scan)
  | test (k : Scan)
  | place (k : Scan)
  /-- The loop over `bit_set`, from its test on. -/
  | setLoad (first i : Nat)
  | setStore (first i : Nat) (byte : UInt8)
  | rewind (k : Scan)
  /-- The loop over `bit_reset`, from its test on. -/
  | resetLoad (i top : Nat)
  | resetStore (i top : Nat) (byte : UInt8)
  /-- `none` is the panic. -/
  | done (ret : Option Nat)

/-- The body of the `if` in the loop, for the page behind the cursor. -/
def afterTest (k : Scan) (s : PmmState) : Local :=
  if bitTest s.bitmap (s.lastUsedIndex - 1) then .check { k with p := 0 }
  else if nextRun k.count (s.lastUsedIndex - 1) k.p = k.count then .place k
  else .check { k with p := nextRun k.count (s.lastUsedIndex - 1) k.p }

def step : Local → PmmState → Option (Local × PmmState)
  | .begin count, s => some (.check ⟨count, s.avlPageCount, 0, s.lastUsedIndex, false⟩, s)
  | .check k, s =>
    if s.lastUsedIndex < k.limit then some (.advance k, s)
    else if k.second then some (.done none, s)
    else some (.rewind k, s)
  | .advance k, s => some (.test k, { s with lastUsedIndex := s.lastUsedIndex + 1 })
  | .test k, s => some (afterTest k s, s)
  | .place k, s => some (.setLoad (s.lastUsedIndex - k.count) (s.lastUsedIndex - k.count), s)
  | .setLoad first i, s =>
    if i < s.lastUsedIndex then some (.setStore first i (s.bitmap (i / 8)), s)
    else some (.done (some (first * pageSize % 2 ^ 64)), s)
  | .setStore first i byte, s =>
    some (.setLoad first (i + 1),
      { s with bitmap := writeByte s.bitmap (i / 8) (byte ||| (1 <<< UInt8.ofNat (i % 8))) })
  | .rewind k, s => some (.check ⟨k.count, k.last, 0, k.last, true⟩, { s with lastUsedIndex := 0 })
  | .resetLoad i top, s =>
    if i < top then some (.resetStore i top (s.bitmap (i / 8)), s) else some (.done (some 0), s)
  | .resetStore i top byte, s =>
    some (.resetLoad (i + 1) top,
      { s with bitmap := writeByte s.bitmap (i / 8) (byte &&& ~~~(1 <<< UInt8.ofNat (i % 8))) })
  | .done _, _ => none

def machine : Machine PmmState Op Local Nat where
  start op := match op with
    | .alloc count => .begin count
    | .free page count => .resetLoad page (page + count)
  step := step
  result l := match l with
    | .done ret => ret
    | _ => none

/-- The sections in one step. -/
def spec : Op → PmmState → Option Nat × PmmState
  | .alloc count, s => pmmAllocNozero count s
  | .free page count, s => (some 0, { s with bitmap := bitResetRange s.bitmap page count })

/-! ## The loops -/

variable {s : PmmState} {k : Scan} {a : Local × PmmState}

theorem runs_step {l l' : Local} {s' : PmmState} (h : step l s = some (l', s'))
    (hr : machine.Runs (l', s') a) : machine.Runs (l, s) a :=
  .head h hr

theorem runs_set (bitmap : Mem) {first n : Nat} (hn : s.lastUsedIndex = first + n) {j : Nat} (hj : j ≤ n) :
    machine.Runs (.setLoad first (first + j), { s with bitmap := bitSetRange bitmap first j })
      (.done (some (first * pageSize % 2 ^ 64)), { s with bitmap := bitSetRange bitmap first n }) := by
  obtain ⟨m, rfl⟩ := Nat.exists_eq_add_of_le hj
  induction m generalizing j with
  | zero =>
    have hstop : ¬ first + j < s.lastUsedIndex := by omega
    exact .single (if_neg hstop)
  | succ m ih =>
    have hgo : first + j < s.lastUsedIndex := by omega
    refine runs_step (if_pos hgo) (runs_step rfl ?_)
    have hrest := ih (j := j + 1) (by omega) (by omega)
    rwa [show j + 1 + m = j + (m + 1) by omega] at hrest

theorem runs_reset (bitmap : Mem) (page : Nat) {count j : Nat} (hj : j ≤ count) :
    machine.Runs (.resetLoad (page + j) (page + count), { s with bitmap := bitResetRange bitmap page j })
      (.done (some 0), { s with bitmap := bitResetRange bitmap page count }) := by
  obtain ⟨m, rfl⟩ := Nat.exists_eq_add_of_le hj
  induction m generalizing j with
  | zero => exact .single (if_neg (by omega))
  | succ m ih =>
    refine runs_step (if_pos (by omega)) (runs_step rfl ?_)
    have hrest := ih (j := j + 1) (by omega)
    rwa [show j + 1 + m = j + (m + 1) by omega] at hrest

/-- The `while` loop up to the place it finds, or to its end. -/
theorem runs_scan {left : Nat} (hl : k.limit - s.lastUsedIndex = left) :
    (∀ found cursor, scan s.bitmap k.count left s.lastUsedIndex k.p = (some found, cursor) →
      ∃ p, machine.Runs (.check k, s) (.place { k with p := p }, { s with lastUsedIndex := found })) ∧
    ∀ cursor, scan s.bitmap k.count left s.lastUsedIndex k.p = (none, cursor) →
      ∃ p, machine.Runs (.check k, s) (.check { k with p := p }, { s with lastUsedIndex := cursor }) ∧
        ¬ cursor < k.limit := by
  induction left generalizing s k with
  | zero =>
    refine ⟨?_, ?_⟩
    · intro found cursor h
      cases h
    · intro cursor h
      cases h
      exact ⟨k.p, .refl, by omega⟩
  | succ left ih =>
    have hlt : s.lastUsedIndex < k.limit := by omega
    have htest : machine.Runs (.check k, s)
        (afterTest k { s with lastUsedIndex := s.lastUsedIndex + 1 },
          { s with lastUsedIndex := s.lastUsedIndex + 1 }) :=
      runs_step (if_pos hlt) (runs_step rfl (.single rfl))
    have hleft : k.limit - (s.lastUsedIndex + 1) = left := by omega
    unfold scan
    unfold afterTest at htest
    simp only [Nat.add_sub_cancel] at htest
    split_ifs at htest ⊢ with hbit hrun
    · -- a page in use ends the run
      obtain ⟨hfound, hnone⟩ := ih (s := { s with lastUsedIndex := s.lastUsedIndex + 1 })
        (k := { k with p := 0 }) hleft
      refine ⟨?_, ?_⟩
      · intro found cursor h
        obtain ⟨p, hr⟩ := hfound found cursor h
        exact ⟨p, htest.trans hr⟩
      · intro cursor h
        obtain ⟨p, hr, hend⟩ := hnone cursor h
        exact ⟨p, htest.trans hr, hend⟩
    · refine ⟨?_, ?_⟩
      · intro found cursor h
        cases h
        exact ⟨k.p, htest⟩
      · intro cursor h
        cases h
    · obtain ⟨hfound, hnone⟩ := ih (s := { s with lastUsedIndex := s.lastUsedIndex + 1 })
        (k := { k with p := nextRun k.count s.lastUsedIndex k.p }) hleft
      refine ⟨?_, ?_⟩
      · intro found cursor h
        obtain ⟨p, hr⟩ := hfound found cursor h
        exact ⟨p, htest.trans hr⟩
      · intro cursor h
        obtain ⟨p, hr, hend⟩ := hnone cursor h
        exact ⟨p, htest.trans hr, hend⟩

/-- A run of `count` pages lies behind the cursor when it is found. -/
theorem scan_room {bitmap : Mem} {count left index p found cursor : Nat} (hp : p ≤ index)
    (h : scan bitmap count left index p = (some found, cursor)) : count ≤ found := by
  induction left generalizing index p with
  | zero => cases h
  | succ left ih =>
    have hnext : nextRun count index p ≤ index + 1 := by
      unfold nextRun
      split_ifs <;> omega
    unfold scan at h
    split_ifs at h with hbit hrun
    · exact ih (Nat.zero_le _) h
    · cases h
      omega
    · exact ih hnext h

/-! ## The two sections -/

/-- One pass: to the end of the section with the pages taken, or to the end of the loop. -/
theorem runs_pass (hp : k.p = 0) :
    (∀ ret s', pmmInnerAlloc k.count k.limit s = (some ret, s') →
      machine.Runs (.check k, s) (.done (some ret), s')) ∧
    ∀ s', pmmInnerAlloc k.count k.limit s = (none, s') →
      ∃ p, machine.Runs (.check k, s) (.check { k with p := p }, s') ∧ ¬ s'.lastUsedIndex < k.limit := by
  obtain ⟨hfound, hnone⟩ := runs_scan (s := s) (k := k) rfl
  rw [hp] at hfound hnone
  unfold pmmInnerAlloc
  rcases hscan : scan s.bitmap k.count (k.limit - s.lastUsedIndex) s.lastUsedIndex 0 with ⟨found | found, cursor⟩
  · refine ⟨?_, ?_⟩
    · intro ret s' h
      cases h
    · intro s' h
      cases h
      exact hnone cursor hscan
  · refine ⟨?_, ?_⟩
    · intro ret s' h
      cases h
      obtain ⟨p, hr⟩ := hfound found cursor hscan
      have hroom : found = found - k.count + k.count := by
        have := scan_room (Nat.zero_le _) hscan
        omega
      refine hr.trans (runs_step rfl ?_)
      exact runs_set s.bitmap (s := { s with lastUsedIndex := found }) hroom (Nat.zero_le _)
    · intro s' h
      cases h

theorem implements_alloc (count : Nat) (s : PmmState) :
    machine.Runs (.begin count, s) (.done (pmmAllocNozero count s).1, (pmmAllocNozero count s).2) := by
  refine runs_step rfl ?_
  obtain ⟨hfirst, hfirst'⟩ := runs_pass (s := s) (k := ⟨count, s.avlPageCount, 0, s.lastUsedIndex, false⟩) rfl
  unfold pmmAllocNozero
  rcases h₁ : pmmInnerAlloc count s.avlPageCount s with ⟨ret | ret, s₁⟩
  · obtain ⟨p, hr, hend⟩ := hfirst' s₁ h₁
    refine hr.trans (runs_step (if_neg hend) (runs_step rfl ?_))
    -- the second pass, over the pages before the old cursor
    obtain ⟨hsecond, hsecond'⟩ := runs_pass (s := { s₁ with lastUsedIndex := 0 })
      (k := ⟨count, s.lastUsedIndex, 0, s.lastUsedIndex, true⟩) rfl
    dsimp only
    rcases h₂ : pmmInnerAlloc count s.lastUsedIndex { s₁ with lastUsedIndex := 0 } with ⟨ret | ret, s₂⟩
    · obtain ⟨p', hr', hend'⟩ := hsecond' s₂ h₂
      exact hr'.trans (.single (if_neg hend'))
    · exact hsecond ret s₂ h₂
  · exact hfirst ret s₁ h₁

/-- **The locked parts of the allocator do what the calls do.** -/
theorem implements : machine.Implements spec := by
  intro op s
  cases op with
  | alloc count => exact ⟨_, implements_alloc count s, rfl, rfl⟩
  | free page count =>
    refine ⟨_, runs_reset s.bitmap page (s := s) (Nat.zero_le count), rfl, rfl⟩

end Cynix.Mm.PmmSection
