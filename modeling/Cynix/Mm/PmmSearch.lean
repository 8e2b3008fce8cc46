import Cynix.Mm.PmmRuns

/-! # The search of the physical page allocator

`pmm_inner_alloc` is aligned first fit from the cursor: the run counter drops a
free page only when no aligned block can start there. `pmm_alloc_nozero` makes
two such passes and so overlooks one block at most, the one that has the cursor
inside it. -/
namespace Cynix.Mm.PmmSearch
open Cynix.Base.Bytes Cynix.Base.Pages Cynix.Lib.Misc Cynix.Mm.Pmm Cynix.Mm.PmmRuns

/-- The block at `s` is one that a pass from `cursor` to `limit` looks for. -/
structure Fits (bitmap : Mem) (count cursor limit s : Nat) : Prop where
  aligned : count ∣ s
  ahead : cursor ≤ s
  within : s + count ≤ limit
  free : ∀ i, s ≤ i → i < s + count → bitTest bitmap i = false

/-- The pairs of index and run counter that the loop subtracts under the modulus. -/
def scanMods (bitmap : Mem) (count : Nat) : (left index p : Nat) → List (Nat × Nat)
  | 0, _, _ => []
  | left + 1, index, p =>
    if bitTest bitmap index then scanMods bitmap count left (index + 1) 0
    else (index, p) ::
      if nextRun count index p = count then []
      else scanMods bitmap count left (index + 1) (nextRun count index p)

variable {bitmap : Mem} {count start : Nat}

/-- The subtraction never underflows. -/
theorem scanMods_le {left index p : Nat} (hc : 1 ≤ count) (hr : RunOk bitmap count start index p)
    (hb : index + left < 2 ^ 64) : ∀ q ∈ scanMods bitmap count left index p, q.2 ≤ q.1 := by
  induction left generalizing index p with
  | zero => exact fun q hq => nomatch hq
  | succ left ih =>
    have hw := hr.within
    unfold scanMods
    cases hf : bitTest bitmap index with
    | true => exact ih (RunOk.empty hc (by omega)) (by omega)
    | false =>
      simp only [Bool.false_eq_true, if_false]
      refine List.forall_mem_cons.mpr ⟨by simp only; omega, ?_⟩
      obtain ⟨hw', hfree, ha, hle⟩ := hr.next hc (by omega) hf
      by_cases hp : nextRun count index p = count
      · rw [if_pos hp]
        exact fun q hq => nomatch hq
      · rw [if_neg hp]
        exact ih ⟨hw', hfree, ha, Nat.lt_of_le_of_ne hle hp⟩ (by omega)

/-- A block that no one holds is not passed by: the scan ends behind it or before. -/
theorem scan_finds {left index p s : Nat} (hr : RunOk bitmap count start index p)
    (hb : index + left < 2 ^ 64) (ha : count ∣ s) (hs : index - p ≤ s) (hw : s + count ≤ index + left)
    (hf : ∀ i, s ≤ i → i < s + count → bitTest bitmap i = false) :
    ∃ found, scan bitmap count left index p = (some found, found) ∧ found ≤ s + count := by
  have hshort := hr.short
  have hin := hr.within
  induction left generalizing index p with
  | zero => omega
  | succ left ih =>
    have hc : 1 ≤ count := by omega
    unfold scan
    cases hi : bitTest bitmap index with
    | true =>
      -- a held page: the block lies behind it
      have hne : ¬ (s ≤ index ∧ index < s + count) := by
        intro hin
        obtain ⟨h1, h2⟩ := hin
        rw [hf index h1 h2] at hi
        cases hi
      have hr' : RunOk bitmap count start (index + 1) 0 := RunOk.empty hc (by omega)
      exact ih hr' (by omega) (by omega) (by omega) hr'.short hr'.within
    | false =>
      obtain ⟨hw', hfree', ha', hle⟩ := hr.next hc (by omega) hi
      simp only [Bool.false_eq_true, if_false]
      by_cases hp : nextRun count index p = count
      · rw [if_pos hp]
        refine ⟨index + 1, rfl, ?_⟩
        unfold nextRun at hp
        split at hp <;> omega
      · rw [if_neg hp]
        have hr' : RunOk bitmap count start (index + 1) (nextRun count index p) :=
          ⟨hw', hfree', ha', Nat.lt_of_le_of_ne hle hp⟩
        refine ih hr' (by omega) ?_ (by omega) hr'.short hr'.within
        unfold nextRun
        rw [sub64_eq (by omega) (by omega)]
        by_cases hm : (index - p) % count = 0
        · rw [if_pos hm]
          omega
        · rw [if_neg hm]
          -- no run is open, and the block does not start here
          have hp0 : p = 0 := by
            by_contra hpos
            exact hm (Nat.mod_eq_zero_of_dvd (hr.aligned (by omega)))
          have hne : s ≠ index := by
            rintro rfl
            rw [hp0] at hm
            exact hm (Nat.mod_eq_zero_of_dvd ha)
          omega

/-- **Aligned first fit.** -/
theorem scan_isLeast {cursor limit first : Nat} (hc : 1 ≤ count) (hcur : cursor < 2 ^ 64)
    (hl : limit < 2 ^ 64) (h : IsLeast {s | Fits bitmap count cursor limit s} first) :
    scan bitmap count (limit - cursor) cursor 0 = (some (first + count), first + count) := by
  obtain ⟨⟨ha, hahead, hw, hf⟩, hleast⟩ := h
  have hr : RunOk bitmap count cursor cursor 0 := RunOk.empty hc le_rfl
  obtain ⟨found, hscan, hle⟩ := scan_finds hr (show cursor + (limit - cursor) < 2 ^ 64 by omega) ha
    (by omega) (by omega) hf
  obtain ⟨-, hlow, hhigh, ha', hf'⟩ := scan_found hc hr (by omega) hscan
  have hfit : Fits bitmap count cursor limit (found - count) :=
    ⟨ha', by omega, by omega, fun i h1 h2 => hf' i h1 (by omega)⟩
  have hmin : first ≤ found - count := hleast hfit
  obtain rfl : found = first + count := by omega
  exact hscan

theorem scan_no_fit {cursor limit : Nat} (hc : 1 ≤ count) (hcur : cursor < 2 ^ 64) (hl : limit < 2 ^ 64)
    (h : ∀ s, ¬ Fits bitmap count cursor limit s) :
    scan bitmap count (limit - cursor) cursor 0 = (none, max cursor limit) := by
  cases hs : scan bitmap count (limit - cursor) cursor 0 with
  | mk found last =>
    cases found with
    | none =>
      have hlast := scan_none hs
      rw [show last = max cursor limit by omega]
    | some found =>
      obtain ⟨-, hlow, hhigh, ha, hf⟩ := scan_found hc (RunOk.empty hc le_rfl) (by omega) hs
      exact absurd ⟨ha, by omega, by omega, fun i h1 h2 => hf i h1 (by omega)⟩ (h (found - count))

/-! ## `pmm_inner_alloc` -/

/-- What the call has to return and leave for the block at `first`. -/
structure TakesBlock (count limit first : Nat) (s : PmmState) (r : Option Nat × PmmState) : Prop where
  ret : r.1 = some (first * pageSize % 2 ^ 64)
  /-- Page numbers have 52 bits: below a limit of that size the product does not wrap. -/
  address : limit ≤ 2 ^ 52 → r.1 = some (first * pageSize) ∧ count * pageSize ∣ first * pageSize
  bits : ∀ i, bitTest r.2.bitmap i = (decide (first ≤ i ∧ i < first + count) || bitTest s.bitmap i)
  cursor : r.2.lastUsedIndex = first + count
  limit : r.2.avlPageCount = s.avlPageCount

theorem takesBlock {limit first : Nat} {s : PmmState} (hc : 1 ≤ count) (hcur : s.lastUsedIndex < 2 ^ 64)
    (hl : limit < 2 ^ 64) (h : IsLeast {m | Fits s.bitmap count s.lastUsedIndex limit m} first) :
    TakesBlock count limit first s (pmmInnerAlloc count limit s) := by
  have hscan := scan_isLeast hc hcur hl h
  have hin := h.1.within
  unfold pmmInnerAlloc
  simp only [hscan, Nat.add_sub_cancel]
  refine ⟨rfl, fun hlim => ⟨?_, Nat.mul_dvd_mul_right h.1.aligned _⟩, fun i => bitTest_bitSetRange .., rfl, rfl⟩
  have hlt : first * pageSize < 2 ^ 64 := by
    unfold pageSize
    omega
  rw [Nat.mod_eq_of_lt hlt]

theorem pmmInnerAlloc_no_fit {limit : Nat} {s : PmmState} (hc : 1 ≤ count)
    (hcur : s.lastUsedIndex < 2 ^ 64) (hl : limit < 2 ^ 64)
    (h : ∀ m, ¬ Fits s.bitmap count s.lastUsedIndex limit m) :
    pmmInnerAlloc count limit s = (none, { s with lastUsedIndex := max s.lastUsedIndex limit }) := by
  have hscan := scan_no_fit hc hcur hl h
  unfold pmmInnerAlloc
  simp only [hscan]

theorem exists_isLeast_fits {cursor limit : Nat} (h : ∃ m, Fits bitmap count cursor limit m) :
    ∃ first, IsLeast {m | Fits bitmap count cursor limit m} first := by
  classical
  exact ⟨Nat.find h, Nat.find_spec h, fun m hm => Nat.find_min' h hm⟩

/-- **`pmm_inner_alloc` is aligned first fit from the cursor**, for every bitmap, cursor, limit and
count: it takes the least block that fits, and where none fits it leaves the bitmap alone. -/
theorem pmmInnerAlloc_first_fit (count limit : Nat) (s : PmmState) (hc : 1 ≤ count)
    (hcur : s.lastUsedIndex < 2 ^ 64) (hl : limit < 2 ^ 64) :
    ((∃ m, Fits s.bitmap count s.lastUsedIndex limit m) →
      ∃ first, IsLeast {m | Fits s.bitmap count s.lastUsedIndex limit m} first ∧
        TakesBlock count limit first s (pmmInnerAlloc count limit s)) ∧
    ((∀ m, ¬ Fits s.bitmap count s.lastUsedIndex limit m) →
      pmmInnerAlloc count limit s = (none, { s with lastUsedIndex := max s.lastUsedIndex limit })) ∧
    ∀ q ∈ scanMods s.bitmap count (limit - s.lastUsedIndex) s.lastUsedIndex 0, q.2 ≤ q.1 := by
  refine ⟨fun h => ?_, pmmInnerAlloc_no_fit hc hcur hl, ?_⟩
  · obtain ⟨first, hfirst⟩ := exists_isLeast_fits h
    exact ⟨first, hfirst, takesBlock hc hcur hl hfirst⟩
  · exact scanMods_le hc (RunOk.empty hc le_rfl) (by omega)

/-- Eight pages of which the first and the third are held. -/
def holes : PmmState := ⟨fun _ => 0b101, 8, 1⟩

theorem pmmInnerAlloc_first_fit_holes :
    (∃ m, Fits holes.bitmap 2 holes.lastUsedIndex 8 m) ∧
    ∃ first, IsLeast {m | Fits holes.bitmap 2 holes.lastUsedIndex 8 m} first ∧
      TakesBlock 2 8 first holes (pmmInnerAlloc 2 8 holes) := by
  have hfit : Fits holes.bitmap 2 holes.lastUsedIndex 8 4 := by
    refine ⟨by decide, by decide, by decide, fun i h1 h2 => ?_⟩
    interval_cases i <;> decide
  exact ⟨⟨4, hfit⟩, (pmmInnerAlloc_first_fit 2 8 holes (by decide) (by decide) (by decide)).1 ⟨4, hfit⟩⟩

/-! ## `pmm_alloc_nozero` -/

/-- The aligned block `k` lies inside the managed memory and is free. -/
def FreeBlock (count : Nat) (s : PmmState) (k : Nat) : Prop :=
  Fits s.bitmap count 0 s.avlPageCount (k * count)

/-- The call panics only if there is no free block, and otherwise returns one. -/
structure Completes (count : Nat) (s : PmmState) : Prop where
  panics : (pmmAllocNozero count s).1 = none → ∀ k, ¬ FreeBlock count s k
  returns : ∀ ret, (pmmAllocNozero count s).1 = some ret →
    ∃ k, FreeBlock count s k ∧ ret = k * count * pageSize

/-- There is one free block, and the cursor stands inside it. -/
def CursorInside (count : Nat) (s : PmmState) : Prop :=
  ∃ k, FreeBlock count s k ∧ k * count < s.lastUsedIndex ∧ s.lastUsedIndex < k * count + count ∧
    ∀ k', FreeBlock count s k' → k' = k

theorem pmmInnerAlloc_none_iff {limit : Nat} {s : PmmState} (hc : 1 ≤ count)
    (hcur : s.lastUsedIndex < 2 ^ 64) (hl : limit < 2 ^ 64) :
    (pmmInnerAlloc count limit s).1 = none ↔ ∀ m, ¬ Fits s.bitmap count s.lastUsedIndex limit m := by
  constructor
  · intro hnone m hm
    obtain ⟨first, hfirst⟩ := exists_isLeast_fits ⟨m, hm⟩
    rw [(takesBlock hc hcur hl hfirst).ret] at hnone
    cases hnone
  · intro h
    rw [pmmInnerAlloc_no_fit hc hcur hl h]

/-- A call panics if neither pass has a block that fits. -/
theorem pmmAllocNozero_none_iff {s : PmmState} (hc : 1 ≤ count) (ha : s.avlPageCount < 2 ^ 52)
    (hcur : s.lastUsedIndex ≤ s.avlPageCount) :
    (pmmAllocNozero count s).1 = none ↔
      (∀ m, ¬ Fits s.bitmap count s.lastUsedIndex s.avlPageCount m) ∧
      ∀ m, ¬ Fits s.bitmap count 0 s.lastUsedIndex m := by
  have hfirst : (pmmInnerAlloc count s.avlPageCount s).1 = none ↔ _ :=
    pmmInnerAlloc_none_iff hc (by omega) (by omega)
  have hsecond : (pmmInnerAlloc count s.lastUsedIndex { s with lastUsedIndex := 0 }).1 = none ↔ _ :=
    pmmInnerAlloc_none_iff hc (by simp) (by omega)
  unfold pmmAllocNozero
  cases hr : pmmInnerAlloc count s.avlPageCount s with
  | mk ret s' =>
    rw [hr] at hfirst
    cases ret with
    | some ret => exact iff_of_false nofun fun h => nomatch hfirst.mpr h.1
    | none =>
      rw [pmmInnerAlloc_none hr]
      rw [and_iff_right (hfirst.mp rfl)]
      exact hsecond

/-- A free block lies in the reach of one of the passes, or around the cursor. -/
theorem FreeBlock.cases {s : PmmState} {k : Nat} (h : FreeBlock count s k) :
    Fits s.bitmap count s.lastUsedIndex s.avlPageCount (k * count) ∨
    Fits s.bitmap count 0 s.lastUsedIndex (k * count) ∨
    (k * count < s.lastUsedIndex ∧ s.lastUsedIndex < k * count + count) := by
  obtain ⟨ha, -, hw, hf⟩ := h
  by_cases h1 : s.lastUsedIndex ≤ k * count
  · exact .inl ⟨ha, h1, hw, hf⟩
  · by_cases h2 : k * count + count ≤ s.lastUsedIndex
    · exact .inr (.inl ⟨ha, Nat.zero_le _, h2, hf⟩)
    · exact .inr (.inr ⟨by omega, by omega⟩)

theorem freeBlock_of_fits {s : PmmState} {cursor limit m : Nat} (hl : limit ≤ s.avlPageCount)
    (h : Fits s.bitmap count cursor limit m) : ∃ k, m = k * count ∧ FreeBlock count s k := by
  obtain ⟨k, rfl⟩ := h.aligned
  refine ⟨k, Nat.mul_comm .., ?_⟩
  unfold FreeBlock
  rw [Nat.mul_comm]
  exact ⟨h.aligned, Nat.zero_le _, h.within.trans hl, h.free⟩

/-- Two blocks around one cursor are the same. -/
theorem block_unique {k k' c : Nat} (h1 : k * count < c) (h2 : c < k * count + count)
    (h3 : k' * count < c) (h4 : c < k' * count + count) : k' = k := by
  have hlt : ∀ {a b}, a * count < c → c < b * count + count → a ≤ b := by
    intro a b ha hb
    have hab : a * count < (b + 1) * count := by
      rw [Nat.add_one_mul]
      omega
    exact Nat.lt_succ_iff.mp (Nat.lt_of_mul_lt_mul_right hab)
  exact Nat.le_antisymm (hlt h3 h2) (hlt h1 h4)

theorem completes_iff {s : PmmState} (hc : 1 ≤ count) (ha : s.avlPageCount < 2 ^ 52)
    (hcur : s.lastUsedIndex ≤ s.avlPageCount) : Completes count s ↔ ¬ CursorInside count s := by
  have hnone := pmmAllocNozero_none_iff hc ha hcur
  constructor
  · intro hcomp hlast
    obtain ⟨k, hk, hlow, hhigh, honly⟩ := hlast
    refine hcomp.panics (hnone.mpr ⟨fun m hm => ?_, fun m hm => ?_⟩) k hk
    · obtain ⟨k', rfl, hk'⟩ := freeBlock_of_fits le_rfl hm
      obtain rfl := honly k' hk'
      have := hm.ahead
      omega
    · obtain ⟨k', rfl, hk'⟩ := freeBlock_of_fits hcur hm
      obtain rfl := honly k' hk'
      have := hm.within
      omega
  · intro hnot
    refine ⟨fun hn k hk => ?_, fun ret hret => ?_⟩
    · obtain ⟨hno1, hno2⟩ := hnone.mp hn
      have hinside : ∀ k, FreeBlock count s k →
          k * count < s.lastUsedIndex ∧ s.lastUsedIndex < k * count + count := by
        intro k hk
        rcases hk.cases with h | h | h
        · exact absurd h (hno1 _)
        · exact absurd h (hno2 _)
        · exact h
      obtain ⟨h1, h2⟩ := hinside k hk
      refine hnot ⟨k, hk, h1, h2, fun k' hk' => ?_⟩
      exact block_unique h1 h2 (hinside k' hk').1 (hinside k' hk').2
    · obtain ⟨first, hh⟩ := pmmAllocNozero_some hc ha hcur (Prod.ext hret rfl)
      have hfit : Fits s.bitmap count 0 s.avlPageCount first :=
        ⟨hh.aligned, Nat.zero_le _, hh.within, hh.free⟩
      obtain ⟨k, rfl, hk⟩ := freeBlock_of_fits le_rfl hfit
      exact ⟨k, hk, hh.ret_eq⟩

/-- **A call is complete unless the cursor stands inside the only free block**, in every state
that a run of calls reaches. -/
theorem alloc_completes_iff (hhdm : Nat) (memmap : List MemmapEntry) (mem : Mem) (s : Sys)
    (h : Relation.ReflTransGen (Step hhdm) (Sys.boot hhdm memmap mem) s) (count : Nat) (hc : 1 ≤ count) :
    Completes count s.pmm ↔ ¬ CursorInside count s.pmm := by
  have hi : Inv (pmmInit hhdm memmap mem) s.pmm s.live :=
    (Inv.boot (avlPageCount_lt memmap) (Nat.zero_le _)).run h
  have hsmall : s.pmm.avlPageCount < 2 ^ 52 := by
    rw [hi.count]
    exact hi.small
  have hcur : s.pmm.lastUsedIndex ≤ s.pmm.avlPageCount := by
    rw [hi.count]
    exact hi.cursor
  exact completes_iff hc hsmall hcur

theorem alloc_completes_at_boot :
    ¬ CursorInside 4 (Sys.boot 0 eightPages fun _ => 0).pmm ∧
    Completes 4 (Sys.boot 0 eightPages fun _ => 0).pmm := by
  have hnot : ¬ CursorInside 4 (Sys.boot 0 eightPages fun _ => 0).pmm :=
    fun ⟨_, _, hlow, _⟩ => nomatch hlow
  exact ⟨hnot, (alloc_completes_iff 0 eightPages (fun _ => 0) _ .refl 4 (by decide)).mpr hnot⟩

/-- The state after `pmm_alloc_nozero(3)` on the eight pages, and after the block is freed again. -/
def afterThree : Sys :=
  { Sys.boot 0 eightPages (fun _ => 0) with
    pmm := (pmmAllocNozero 3 (pmmInit 0 eightPages fun _ => 0)).2, live := [(0x3000, 3)] }

def afterFree : Sys :=
  ⟨(pmmFree 0 0x3000 3 afterThree.pmm afterThree.mem).1, (pmmFree 0 0x3000 3 afterThree.pmm afterThree.mem).2,
    [], false⟩

/-- Pages 4 to 7 are free and the cursor is at 6: a request for four pages panics. -/
theorem alloc_misses_block :
    Relation.ReflTransGen (Step 0) (Sys.boot 0 eightPages fun _ => 0) afterFree ∧
    ¬ Completes 4 afterFree.pmm := by
  have hret : (pmmAllocNozero 3 (pmmInit 0 eightPages fun _ => 0)).1 = some 0x3000 := by decide +kernel
  have hthree : Step 0 (Sys.boot 0 eightPages fun _ => 0) afterThree :=
    .allocNozero rfl (by decide) (Prod.ext hret rfl)
  have hfree : Step 0 afterThree afterFree := .free rfl List.mem_cons_self rfl
  refine ⟨(Relation.ReflTransGen.single hthree).tail hfree, fun hcomp => ?_⟩
  have hnone : (pmmAllocNozero 4 afterFree.pmm).1 = none := by decide +kernel
  refine hcomp.panics hnone 1 ⟨by decide, by decide, by decide +kernel, fun i h1 h2 => ?_⟩
  have hbits : ∀ i, i < 4 → bitTest afterFree.pmm.bitmap (4 + i) = false := by decide +kernel
  have := hbits (i - 4) (by omega)
  rwa [show 4 + (i - 4) = i by omega] at this

end Cynix.Mm.PmmSearch
