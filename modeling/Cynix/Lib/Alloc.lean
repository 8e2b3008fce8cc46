import Cynix.Mm.PmmRuns

/-! # The kernel heap (`lib/alloc.c`)

`alloc`, `realloc` and `free` over a page allocator and the memory behind the
higher-half map. The functions are those of the source; the page allocator is
a parameter, so that the heap relies on its contract and on nothing else
(`pmmAllocator` is one). Addresses are virtual; a physical page is found at
`page + hhdm`. -/
namespace Cynix.Lib.Alloc
open Cynix.Base.Bytes Cynix.Base.Pages Cynix.Lib.Misc Cynix.Mm.Pmm

structure Heap (σ : Type) where
  pmm : σ
  mem : Mem

variable {σ : Type} (A : PageAllocator σ) (hhdm : Nat)

/-- `pmm_alloc`: the pages are zeroed before they are handed out. -/
def pmmAllocVia (count : Nat) (h : Heap σ) : Option (Nat × Heap σ) :=
  match A.alloc count h.pmm with
  | some (ret, pmm) => some (ret, ⟨pmm, fillPages hhdm h.mem ret count 0⟩)
  | none => none

/-- `pmm_free`: the pages are poisoned before they are given back. -/
def pmmFreeVia (page count : Nat) (h : Heap σ) : Heap σ :=
  ⟨A.free page count h.pmm, fillPages hhdm h.mem page count 0xaaaaaaaaaaaaaaaa⟩

/-- `free`. The metadata are `{ size_t pages; size_t size; }` one page below the block. -/
def free (ptr : Nat) (h : Heap σ) : Heap σ :=
  if ptr = 0 then h
  else
    let metadata := ptr - pageSize
    pmmFreeVia A hhdm (metadata - hhdm) ((read64 h.mem metadata + 1) % 2 ^ 64) h

/-- `alloc`; `none` is the panic inside `pmm_alloc`. -/
def alloc (size : Nat) (h : Heap σ) : Option (Nat × Heap σ) :=
  let pageCount := divRoundup size pageSize
  match pmmAllocVia A hhdm ((pageCount + 1) % 2 ^ 64) h with
  | some (physPage, h) =>
    let metadata := physPage + hhdm
    some (physPage + hhdm + pageSize,
      { h with mem := write64 (write64 h.mem metadata pageCount) (metadata + 8) size })
  | none => none

def realloc (ptr newSize : Nat) (h : Heap σ) : Option (Nat × Heap σ) :=
  if ptr = 0 then alloc A hhdm newSize h
  else
    let metadata := ptr - pageSize
    if read64 h.mem metadata = divRoundup newSize pageSize then
      some (ptr, { h with mem := write64 h.mem (metadata + 8) newSize })
    else
      match alloc A hhdm newSize h with
      | some (newPtr, h) =>
        let h := { h with
          mem := copyUp h.mem newPtr ptr (min newSize (read64 h.mem (metadata + 8))) }
        some (newPtr, free A hhdm ptr h)
      | none => none

/-! ## Blocks -/

/-- A live block as its owner knows it: `data` is what the owner may read. -/
structure Block where
  ptr : Nat
  size : Nat
  data : Nat → UInt8

/-- The pages a block owns, the metadata page first. -/
def Block.range (b : Block) : Range :=
  (b.ptr - pageSize - hhdm, divRoundup b.size pageSize + 1)

/-- The block in memory: where it lies, its metadata and its bytes. -/
structure BlockOk (mem : Mem) (b : Block) : Prop where
  low : hhdm + pageSize ≤ b.ptr
  size : b.size + 4095 < 2 ^ 64
  metaPages : read64 mem (b.ptr - pageSize) = divRoundup b.size pageSize
  metaSize : read64 mem (b.ptr - pageSize + 8) = b.size
  data : ∀ i, i < b.size → mem (b.ptr + i) = b.data i

variable {A hhdm}

theorem size_le_pages {size : Nat} (h : size + 4095 < 2 ^ 64) :
    size ≤ divRoundup size pageSize * 4096 := by
  rw [divRoundup_page h]
  omega

/-- A block is not affected by what happens outside its own pages. -/
theorem BlockOk.congr {m m' : Mem} {b : Block} (h : BlockOk hhdm m b)
    (hm : ∀ x, OwnsAt hhdm (b.range hhdm) x → m' x = m x) : BlockOk hhdm m' b := by
  have hlow := h.low
  have hsz := size_le_pages h.size
  have hin : ∀ x, b.ptr - pageSize ≤ x → x < b.ptr + divRoundup b.size pageSize * 4096 →
      m' x = m x := by
    intro x h1 h2
    apply hm
    unfold OwnsAt Block.range pageSize at *
    simp only
    omega
  unfold pageSize at hin hlow hsz
  refine ⟨h.low, h.size, ?_, ?_, ?_⟩
  · rw [← h.metaPages]
    exact read64_congr fun x h1 h2 => hin x h1 (by unfold pageSize at *; omega)
  · rw [← h.metaSize]
    exact read64_congr fun x h1 h2 => hin x (by unfold pageSize at *; omega)
      (by unfold pageSize at *; omega)
  · intro i hi
    rw [hin (b.ptr + i) (by omega) (by omega)]
    exact h.data i hi

/-- The fill loops touch the virtual addresses of their range only. -/
theorem fillPages_out {mem : Mem} {page count value x : Nat} (hf : page + count * 4096 < 2 ^ 64)
    (hx : ¬ OwnsAt hhdm (page, count) x) : fillPages hhdm mem page count value x = mem x := by
  unfold fillPages pageSize
  rw [Nat.mod_eq_of_lt (by omega)]
  apply fill64_out
  unfold OwnsAt at hx
  simp only at hx
  omega

theorem fillPages_zero {mem : Mem} {page count x : Nat} (hf : page + count * 4096 < 2 ^ 64)
    (hx : OwnsAt hhdm (page, count) x) : fillPages hhdm mem page count 0 x = 0 := by
  unfold fillPages pageSize
  unfold OwnsAt at hx
  simp only at hx
  rw [Nat.mod_eq_of_lt (by omega)]
  exact fill64_zero (by omega) (by omega)

end Cynix.Lib.Alloc
