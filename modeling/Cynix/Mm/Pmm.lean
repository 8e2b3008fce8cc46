import Cynix.Lib.Misc

/-! # The physical page allocator (`mm/pmm.c`)

`pmmInit` builds the bitmap from the bootloader's memory map, `pmmInnerAlloc`
is the scanning loop with its persistent cursor, and `pmmAllocNozero`,
`pmmAlloc` and `pmmFree` are the entry points as one call sees them, that is,
with `pmm_lock` held from the first access to the last. The bitmap is kept as
the bytes behind `pmm_bitmap`, so every read and write of it goes through
`bitTest`, `bitSet` and `bitReset`. -/
namespace Cynix.Mm.Pmm
open Cynix.Base.Bytes Cynix.Lib.Misc

/-- The `LIMINE_MEMMAP_*` types. -/
inductive MemmapType where
  | usable
  | reserved
  | acpiReclaimable
  | acpiNvs
  | badMemory
  | bootloaderReclaimable
  | executableAndModules
  | framebuffer
  | unknown
  deriving DecidableEq, Repr

structure MemmapEntry where
  base : Nat
  length : Nat
  type : MemmapType
  deriving DecidableEq, Repr

/-- The allocator's static variables. `bitmap` holds the bytes from the
address in `pmm_bitmap` upwards. -/
structure PmmState where
  bitmap : Mem
  avlPageCount : Nat
  lastUsedIndex : Nat

/-! ## Initialisation -/

/-- The types that raise `top_address`. -/
def countsForTop (t : MemmapType) : Bool :=
  t == .usable || t == .bootloaderReclaimable || t == .executableAndModules

/-- `entry_top` of the first loop of `pmm_init`. -/
def entryTop (e : MemmapEntry) : Nat := alignUp ((e.base + e.length) % 2 ^ 64) pageSize

def topAddress (memmap : List MemmapEntry) : Nat :=
  memmap.foldl (fun top e => if countsForTop e.type && top < entryTop e then entryTop e else top) 0

def avlPageCount (memmap : List MemmapEntry) : Nat := divRoundup (topAddress memmap) pageSize

def bitmapSize (memmap : List MemmapEntry) : Nat := alignUp (avlPageCount memmap / 8) pageSize

/-- The entry the second loop places the bitmap in. -/
def bitmapEntry (memmap : List MemmapEntry) : Option MemmapEntry :=
  memmap.find? fun e => e.type == .usable && bitmapSize memmap < e.length

/-- `pmm_bitmap` after the second loop: `NULL` when no entry was long enough. -/
def bitmapAddr (hhdm : Nat) (memmap : List MemmapEntry) : Nat :=
  match bitmapEntry memmap with
  | some e => (e.base + hhdm) % 2 ^ 64
  | none => 0

/-- The bytes behind `pmm_bitmap` after the second loop; `memset` runs only
when a place was found. -/
def bitmapAfterMemset (hhdm : Nat) (memmap : List MemmapEntry) (mem : Mem) : Mem :=
  match bitmapEntry memmap with
  | some _ => fun i => if i < bitmapSize memmap then 0xff else mem (bitmapAddr hhdm memmap + i)
  | none => fun i => mem (bitmapAddr hhdm memmap + i)

/-- The overlap test of the third loop. -/
def overlapsBitmap (bitmapPhys size base : Nat) : Bool :=
  let top := (base + pageSize) % 2 ^ 64
  let bitmapTop := (bitmapPhys + size) % 2 ^ 64
  (bitmapPhys ≤ base && base < bitmapTop) || (bitmapPhys < top && top ≤ bitmapTop)

/-- The inner loop of the third pass, from offset `j` on, `n` iterations. -/
def clearPages (bitmapPhys size base : Nat) : Nat → Nat → Mem → Mem
  | 0, _, bitmap => bitmap
  | n + 1, j, bitmap =>
    let page := (base + j) % 2 ^ 64
    clearPages bitmapPhys size base n (j + pageSize)
      (if overlapsBitmap bitmapPhys size page then bitmap else bitReset bitmap (page / pageSize))

/-- One entry of the third loop: `j` runs over `0, PAGE_SIZE, ...` below the length. -/
def clearEntry (bitmapPhys size : Nat) (bitmap : Mem) (e : MemmapEntry) : Mem :=
  if e.type == .usable then
    clearPages bitmapPhys size e.base ((e.length + (pageSize - 1)) / pageSize) 0 bitmap
  else bitmap

def pmmInit (hhdm : Nat) (memmap : List MemmapEntry) (mem : Mem) : PmmState where
  bitmap := memmap.foldl
    (clearEntry (sub64 (bitmapAddr hhdm memmap) hhdm) (bitmapSize memmap))
    (bitmapAfterMemset hhdm memmap mem)
  avlPageCount := avlPageCount memmap
  lastUsedIndex := 0

/-! ## Allocation and release -/

/-- `bit_set` for `i = first, ..., first + n - 1`. -/
def bitSetRange (bitmap : Mem) (first : Nat) : Nat → Mem
  | 0 => bitmap
  | n + 1 => bitSet (bitSetRange bitmap first n) (first + n)

/-- `bit_reset` for `i = first, ..., first + n - 1`. -/
def bitResetRange (bitmap : Mem) (first : Nat) : Nat → Mem
  | 0 => bitmap
  | n + 1 => bitReset (bitResetRange bitmap first n) (first + n)

/-- The run counter after the free page `index`. -/
def nextRun (count index p : Nat) : Nat := if sub64 index p % count = 0 then p + 1 else 0

/-- The `while` loop of `pmm_inner_alloc` with `left` iterations to go, the
cursor at `index` and the run counter at `p`. The result is the cursor behind
the run that was found, if one was, and the cursor the loop leaves. -/
def scan (bitmap : Mem) (count : Nat) : (left index p : Nat) → Option Nat × Nat
  | 0, index, _ => (none, index)
  | left + 1, index, p =>
    if bitTest bitmap index then scan bitmap count left (index + 1) 0
    else if nextRun count index p = count then (some (index + 1), index + 1)
    else scan bitmap count left (index + 1) (nextRun count index p)

/-- The indices the loop hands to `bit_test`. -/
def scanTests (bitmap : Mem) (count : Nat) : (left index p : Nat) → List Nat
  | 0, _, _ => []
  | left + 1, index, p =>
    index :: if bitTest bitmap index then scanTests bitmap count left (index + 1) 0
    else if nextRun count index p = count then []
    else scanTests bitmap count left (index + 1) (nextRun count index p)

/-- `pmm_inner_alloc`. The sentinel `-1` is `none`: a returned address is a
multiple of the page size, so no address is confused with it. -/
def pmmInnerAlloc (count limit : Nat) (s : PmmState) : Option Nat × PmmState :=
  match scan s.bitmap count (limit - s.lastUsedIndex) s.lastUsedIndex 0 with
  | (some index, _) =>
    let pageIndex := index - count
    (some (pageIndex * pageSize % 2 ^ 64),
      { s with bitmap := bitSetRange s.bitmap pageIndex count, lastUsedIndex := index })
  | (none, index) => (none, { s with lastUsedIndex := index })

/-- `pmm_alloc_nozero`. `none` is the panic "Out of memory": the call does not
return and the lock stays held, in the state given. -/
def pmmAllocNozero (count : Nat) (s : PmmState) : Option Nat × PmmState :=
  let last := s.lastUsedIndex
  match pmmInnerAlloc count s.avlPageCount s with
  | (some ret, s') => (some ret, s')
  | (none, s') => pmmInnerAlloc count last { s' with lastUsedIndex := 0 }

/-- The fill loops of `pmm_alloc` and `pmm_free`. -/
def fillPages (hhdm : Nat) (mem : Mem) (page count value : Nat) : Mem :=
  fill64 mem (page + hhdm) value (count * pageSize % 2 ^ 64 / 8)

def pmmAlloc (hhdm count : Nat) (s : PmmState) (mem : Mem) : Option Nat × PmmState × Mem :=
  match pmmAllocNozero count s with
  | (some ret, s') => (some ret, s', fillPages hhdm mem ret count 0)
  | (none, s') => (none, s', mem)

def pmmFree (hhdm page count : Nat) (s : PmmState) (mem : Mem) : PmmState × Mem :=
  ({ s with bitmap := bitResetRange s.bitmap (page / pageSize) count },
    fillPages hhdm mem page count 0xaaaaaaaaaaaaaaaa)

/-! ## What the range updates do -/

theorem bitTest_bitSetRange (bitmap : Mem) (first i : Nat) :
    ∀ n, bitTest (bitSetRange bitmap first n) i = (decide (first ≤ i ∧ i < first + n) || bitTest bitmap i)
  | 0 => by
    rw [decide_eq_false (by omega)]
    rfl
  | n + 1 => by
    simp only [bitSetRange, bitTest_bitSet, bitTest_bitSetRange bitmap first i n, ← Bool.or_assoc,
      ← Bool.decide_or]
    congr 2
    rw [eq_iff_iff]
    omega

theorem bitTest_bitResetRange (bitmap : Mem) (first i : Nat) :
    ∀ n, bitTest (bitResetRange bitmap first n) i = (!decide (first ≤ i ∧ i < first + n) && bitTest bitmap i)
  | 0 => by
    rw [decide_eq_false (by omega)]
    rfl
  | n + 1 => by
    simp only [bitResetRange, bitTest_bitReset, bitTest_bitResetRange bitmap first i n,
      ← Bool.and_assoc, ← Bool.not_or, ← Bool.decide_or]
    congr 3
    rw [eq_iff_iff]
    omega

theorem avlPageCount_lt (memmap : List MemmapEntry) : avlPageCount memmap < 2 ^ 52 :=
  divRoundup_page_lt _

/-! ## The scan -/

/-- The loop invariant: the `p` pages before the cursor are free, the run
started on a multiple of `count` and inside this scan, and it is not complete. -/
structure RunOk (bitmap : Mem) (count start index p : Nat) : Prop where
  within : start + p ≤ index
  free : ∀ i, index - p ≤ i → i < index → bitTest bitmap i = false
  aligned : 0 < p → count ∣ index - p
  short : p < count

theorem RunOk.empty {bitmap : Mem} {count start index : Nat} (hc : 1 ≤ count)
    (h : start ≤ index) : RunOk bitmap count start index 0 :=
  ⟨by omega, fun i h1 h2 => by omega, fun h => by omega, by omega⟩

/-- A free page either extends the run or, off a multiple of `count`, drops it. -/
theorem RunOk.next {bitmap : Mem} {count start index p : Nat} (hc : 1 ≤ count)
    (h : RunOk bitmap count start index p) (hi : index < 2 ^ 64)
    (hf : bitTest bitmap index = false) :
    start + nextRun count index p ≤ index + 1 ∧
    (∀ i, index + 1 - nextRun count index p ≤ i → i < index + 1 → bitTest bitmap i = false) ∧
    (0 < nextRun count index p → count ∣ index + 1 - nextRun count index p) ∧
    nextRun count index p ≤ count := by
  obtain ⟨hw, hfree, ha, hs⟩ := h
  unfold nextRun
  rw [sub64_eq (by omega) hi]
  split
  · rename_i hm
    refine ⟨by omega, ?_, ?_, by omega⟩
    · intro i h1 h2
      by_cases hii : i = index
      · rw [hii]; exact hf
      · exact hfree i (by omega) (by omega)
    · intro _
      rw [show index + 1 - (p + 1) = index - p by omega]
      exact Nat.dvd_of_mod_eq_zero hm
  · exact ⟨by omega, fun i h1 h2 => by omega, fun h => by omega, by omega⟩

/-- A successful scan ends behind an aligned block of `count` free pages inside
the stretch it searched. -/
theorem scan_found {bitmap : Mem} {count start : Nat} (hc : 1 ≤ count) :
    ∀ {left index p found cursor : Nat}, RunOk bitmap count start index p →
      index + left < 2 ^ 64 → scan bitmap count left index p = (some found, cursor) →
      cursor = found ∧ start + count ≤ found ∧ found ≤ index + left ∧ count ∣ found - count ∧
        ∀ i, found - count ≤ i → i < found → bitTest bitmap i = false
  | 0, index, p, found, cursor, _, _, h => by simp [scan] at h
  | left + 1, index, p, found, cursor, hr, hb, h => by
    unfold scan at h
    split at h
    · have hr' : RunOk bitmap count start (index + 1) 0 :=
        RunOk.empty hc (by have := hr.within; omega)
      obtain ⟨h1, h2, h3, h4⟩ := scan_found hc hr' (by omega) h
      exact ⟨h1, h2, by omega, h4⟩
    · rename_i hf
      have hf : bitTest bitmap index = false := by simpa using hf
      obtain ⟨hw, hfree, ha, hle⟩ := hr.next hc (by omega) hf
      split at h
      · rename_i hp
        simp only [Prod.mk.injEq, Option.some.injEq] at h
        obtain ⟨rfl, rfl⟩ := h
        rw [hp] at hw hfree ha
        exact ⟨rfl, hw, by omega, ha (by omega), hfree⟩
      · rename_i hp
        obtain ⟨h1, h2, h3, h4⟩ := scan_found hc
          ⟨hw, hfree, ha, Nat.lt_of_le_of_ne hle hp⟩ (by omega) h
        exact ⟨h1, h2, by omega, h4⟩

/-- A scan that finds nothing leaves the cursor at the end of the stretch. -/
theorem scan_none {bitmap : Mem} {count : Nat} :
    ∀ {left index p cursor : Nat}, scan bitmap count left index p = (none, cursor) →
      cursor = index + left
  | 0, index, p, cursor, h => by simp [scan] at h; omega
  | left + 1, index, p, cursor, h => by
    unfold scan at h
    split at h
    · have := scan_none h; omega
    · split at h
      · simp at h
      · have := scan_none h; omega

theorem scanTests_lt (bitmap : Mem) (count : Nat) :
    ∀ left index p, ∀ i ∈ scanTests bitmap count left index p, i < index + left
  | 0, _, _, i, h => by simp [scanTests] at h
  | left + 1, index, p, i, h => by
    unfold scanTests at h
    rcases List.mem_cons.mp h with rfl | h
    · omega
    · split at h
      · have := scanTests_lt bitmap count left _ _ i h; omega
      · split at h
        · simp at h
        · have := scanTests_lt bitmap count left _ _ i h; omega

/-! ## The entry points -/

/-- What a successful call leaves: `first` is the block it hands out. -/
structure Handed (count limit first ret : Nat) (s s' : PmmState) : Prop where
  ret_eq : ret = first * pageSize
  aligned : count ∣ first
  within : first + count ≤ limit
  free : ∀ i, first ≤ i → i < first + count → bitTest s.bitmap i = false
  state : s' = { s with bitmap := bitSetRange s.bitmap first count, lastUsedIndex := first + count }

theorem pmmInnerAlloc_some {count limit ret : Nat} {s s' : PmmState} (hc : 1 ≤ count)
    (hl : limit < 2 ^ 52) (hcur : s.lastUsedIndex < 2 ^ 52)
    (h : pmmInnerAlloc count limit s = (some ret, s')) :
    ∃ first, Handed count limit first ret s s' ∧ s.lastUsedIndex ≤ first := by
  unfold pmmInnerAlloc at h
  split at h
  · rename_i index cursor hs
    obtain ⟨-, hw, hle, ha, hf⟩ := scan_found hc (RunOk.empty hc (le_refl _)) (by omega) hs
    have hle : index ≤ limit := by
      by_cases hx : s.lastUsedIndex ≤ limit <;> omega
    simp only [Prod.mk.injEq, Option.some.injEq] at h
    obtain ⟨hret, rfl⟩ := h
    refine ⟨index - count, ⟨?_, ha, by omega, fun i h1 h2 => hf i h1 (by omega), ?_⟩, by omega⟩
    · rw [← hret]
      unfold pageSize
      omega
    · rw [show index - count + count = index by omega]
  · simp at h

theorem pmmInnerAlloc_none {count limit : Nat} {s s' : PmmState}
    (h : pmmInnerAlloc count limit s = (none, s')) :
    s' = { s with lastUsedIndex := max s.lastUsedIndex limit } := by
  unfold pmmInnerAlloc at h
  split at h
  · simp at h
  · rename_i index hs
    simp only [Prod.mk.injEq, true_and] at h
    rw [← h, scan_none hs]
    congr 1
    omega

/-- A call that returns hands out an aligned block of free pages below the limit. -/
theorem pmmAllocNozero_some {count ret : Nat} {s s' : PmmState} (hc : 1 ≤ count)
    (ha : s.avlPageCount < 2 ^ 52) (hcur : s.lastUsedIndex ≤ s.avlPageCount)
    (h : pmmAllocNozero count s = (some ret, s')) :
    ∃ first, Handed count s.avlPageCount first ret s s' := by
  unfold pmmAllocNozero at h
  simp only at h
  split at h
  · rename_i ret' s1 hs
    obtain ⟨rfl, rfl⟩ : ret' = ret ∧ s1 = s' := by simpa using h
    obtain ⟨first, hh, -⟩ := pmmInnerAlloc_some hc ha (by omega) hs
    exact ⟨first, hh⟩
  · rename_i s1 hs
    rw [pmmInnerAlloc_none hs] at h
    obtain ⟨first, ⟨h1, h2, h3, h4, h5⟩, -⟩ := pmmInnerAlloc_some hc (by omega) (by simp) h
    exact ⟨first, h1, h2, by omega, h4, h5⟩

/-- A call that panics leaves the bitmap alone and the cursor below the limit. -/
theorem pmmAllocNozero_none {count : Nat} {s s' : PmmState}
    (h : pmmAllocNozero count s = (none, s')) : s' = s := by
  unfold pmmAllocNozero at h
  simp only at h
  split at h
  · simp at h
  · rename_i s1 hs
    rw [pmmInnerAlloc_none hs] at h
    rw [pmmInnerAlloc_none h]
    simp

/-- The pairs of an index handed to `bit_test` and the limit of the pass that
asks, over both passes of a call. -/
def allocTests (count : Nat) (s : PmmState) : List (Nat × Nat) :=
  let pass (limit : Nat) (t : PmmState) :=
    (scanTests t.bitmap count (limit - t.lastUsedIndex) t.lastUsedIndex 0).map fun i => (i, limit)
  match pmmInnerAlloc count s.avlPageCount s with
  | (some _, _) => pass s.avlPageCount s
  | (none, s') => pass s.avlPageCount s ++ pass s.lastUsedIndex { s' with lastUsedIndex := 0 }

theorem allocTests_lt {count : Nat} {s : PmmState} (hcur : s.lastUsedIndex ≤ s.avlPageCount) :
    ∀ q ∈ allocTests count s, q.1 < q.2 ∧ q.2 ≤ s.avlPageCount := by
  intro q hq
  unfold allocTests at hq
  have hfirst : ∀ i ∈ scanTests s.bitmap count (s.avlPageCount - s.lastUsedIndex) s.lastUsedIndex 0,
      i < s.avlPageCount := by
    intro i hi
    have := scanTests_lt _ _ _ _ _ i hi
    omega
  simp only at hq
  split at hq
  · obtain ⟨i, hi, rfl⟩ := List.mem_map.mp hq
    exact ⟨hfirst i hi, le_refl _⟩
  · rcases List.mem_append.mp hq with hq | hq
    · obtain ⟨i, hi, rfl⟩ := List.mem_map.mp hq
      exact ⟨hfirst i hi, le_refl _⟩
    · obtain ⟨i, hi, rfl⟩ := List.mem_map.mp hq
      have := scanTests_lt _ _ _ _ _ i hi
      simp only at this ⊢
      omega

end Cynix.Mm.Pmm
