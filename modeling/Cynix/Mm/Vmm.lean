import Cynix.Base.Radix
import Cynix.Lib.Alloc

/-! # Page tables (`mm/vmm.c`)

`get_next_level` and `vmm_map_page` on the tables in memory, and the walk the
processor makes through the same memory. A table is a physical page; the
kernel reaches it at `page + hhdm`. -/
namespace Cynix.Mm.Vmm
open Cynix.Base.Bytes Cynix.Base.Pages Cynix.Base.Radix Cynix.Lib.Misc Cynix.Lib.Alloc

def vmmPtePresent : Nat := 1 <<< 0
def vmmPteWritable : Nat := 1 <<< 1
def vmmPteUser : Nat := 1 <<< 2
def vmmPteNoexec : Nat := 1 <<< 63
def vmmPteWc : Nat := (1 <<< 3) ||| (1 <<< 7)
def vmmPteFlagsMask : Nat :=
  0xfff ||| vmmPtePresent ||| vmmPteWritable ||| vmmPteUser ||| vmmPteNoexec ||| vmmPteWc

variable {σ : Type} (A : PageAllocator σ) (hhdm : Nat)

/-- `get_next_level`; `none` is the panic inside `pmm_alloc`. -/
def getNextLevel (currentLevel index : Nat) (allocate : Bool) (h : Heap σ) :
    Option (Nat × Heap σ) :=
  let entry := currentLevel + hhdm + index * 8
  if read64 h.mem entry &&& 0x01 ≠ 0 then
    some (read64 h.mem entry &&& (2 ^ 64 - 1 - vmmPteFlagsMask), h)
  else if allocate = false then some (0, h)
  else
    match pmmAllocVia A hhdm 1 h with
    | some (ret, h) => some (ret, { h with mem := write64 h.mem entry (ret ||| 0b111) })
    | none => none

def pml5Index (virt : Nat) : Nat := (virt &&& (0x1ff <<< 48)) >>> 48
def pml4Index (virt : Nat) : Nat := (virt &&& (0x1ff <<< 39)) >>> 39
def pml3Index (virt : Nat) : Nat := (virt &&& (0x1ff <<< 30)) >>> 30
def pml2Index (virt : Nat) : Nat := (virt &&& (0x1ff <<< 21)) >>> 21
def pml1Index (virt : Nat) : Nat := (virt &&& (0x1ff <<< 12)) >>> 12

/-- `vmm_map_page` on the pagemap whose `top_level` is `top`; `la57` is `vmm_la57`. -/
def vmmMapPage (la57 : Bool) (top virt phys flags : Nat) (h : Heap σ) : Option (Heap σ) := do
  let pml5 := top
  let (pml4, h) ←
    (if la57 then getNextLevel A hhdm pml5 (pml5Index virt) true h else some (top, h))
  let (pml3, h) ← getNextLevel A hhdm pml4 (pml4Index virt) true h
  let (pml2, h) ← getNextLevel A hhdm pml3 (pml3Index virt) true h
  let (pml1, h) ← getNextLevel A hhdm pml2 (pml2Index virt) true h
  some { h with mem := write64 h.mem (pml1 + hhdm + pml1Index virt * 8) (phys ||| flags) }

/-! ## The processor's walk -/

def entryOf (mem : Mem) (table : Nat) (i : Fin 512) : Nat := read64 mem (table + hhdm + i * 8)

/-- The table an entry refers to: bits 12 to 51, if the entry is present. -/
def nextTable (e : Nat) : Option Nat :=
  if e &&& 1 = 0 then none else some (e &&& (2 ^ 52 - 2 ^ 12))

def child (mem : Mem) (table : Nat) (i : Fin 512) : Option Nat := nextTable (entryOf hhdm mem table i)

/-- The number of tables above the last. -/
def depth (la57 : Bool) : Nat := if la57 then 4 else 3

/-- The nine bits of an address that select the entry at level `k`, the last level being 0. -/
def index (v k : Nat) : Fin 512 := ⟨v / 2 ^ (12 + 9 * k) % 512, Nat.mod_lt _ (by decide)⟩

/-- The indices from level `k` down to level 1. -/
def upper (v : Nat) : Nat → List (Fin 512)
  | 0 => []
  | k + 1 => index v (k + 1) :: upper v k

/-- The last-level entry for `v`, if every entry on the way and it are present. -/
def walk (la57 : Bool) (mem : Mem) (top v : Nat) : Option Nat := do
  let t ← descend (child hhdm mem) top (upper v (depth la57))
  let e := entryOf hhdm mem t (index v 0)
  if e &&& 1 = 0 then none else some e

/-! ## Indices and entries -/

theorem index_eq (v k : Nat) : (v &&& (0x1ff <<< k)) >>> k = v / 2 ^ k % 512 := by
  have h : (0x1ff : Nat) = 2 ^ 9 - 1 := by decide
  rw [Nat.shiftRight_and_distrib, h, Nat.shiftLeft_shiftRight, Nat.and_two_pow_sub_one_eq_mod,
    Nat.shiftRight_eq_div_pow]

theorem pml5Index_eq (v : Nat) : pml5Index v = index v 4 := index_eq v 48
theorem pml4Index_eq (v : Nat) : pml4Index v = index v 3 := index_eq v 39
theorem pml3Index_eq (v : Nat) : pml3Index v = index v 2 := index_eq v 30
theorem pml2Index_eq (v : Nat) : pml2Index v = index v 1 := index_eq v 21
theorem pml1Index_eq (v : Nat) : pml1Index v = index v 0 := index_eq v 12

theorem and_one_eq (e : Nat) : e &&& 1 = e % 2 := Nat.and_one_is_mod e

/-- The entry of a table page: its flag bits do not disturb its address. -/
theorem or_seven {t : Nat} (h : t % 4096 = 0) : t ||| 0b111 = t + 7 := by
  obtain ⟨k, rfl⟩ := Nat.dvd_of_mod_eq_zero h
  exact (Nat.two_pow_add_eq_or_of_lt (i := 12) (by decide) k).symm

theorem nextTable_or {t : Nat} (h : t % 4096 = 0) (hb : t + 4096 ≤ 2 ^ 52) :
    nextTable (t ||| 0b111) = some t := by
  rw [nextTable, or_seven h, and_one_eq, and_bits _ (by decide), if_neg (by omega)]
  congr 1
  omega

/-- `get_next_level` finds the same table as the processor. -/
theorem notFlags_or {t : Nat} (h : t % 4096 = 0) (hb : t + 4096 ≤ 2 ^ 52) :
    (t ||| 0b111) &&& (2 ^ 64 - 1 - vmmPteFlagsMask) = t := by
  have hmask : 2 ^ 64 - 1 - vmmPteFlagsMask = 2 ^ 63 - 2 ^ 12 := by decide
  rw [hmask, or_seven h, and_bits _ (by decide)]
  omega

/-- Entries of two page-aligned tables, or two entries of one, are apart. -/
theorem entryOf_write_ne {mem : Mem} {t u w : Nat} {i j : Fin 512} (ht : t % 4096 = 0)
    (hu : u % 4096 = 0) (h : (u, j) ≠ (t, i)) :
    entryOf hhdm (write64 mem (t + hhdm + i * 8) w) u j = entryOf hhdm mem u j := by
  apply read64_write64_ne
  have hi := i.isLt
  have hj := j.isLt
  by_cases hut : u = t
  · have hij : (j : Nat) ≠ i := fun he => h (by rw [hut, Fin.ext he])
    omega
  · omega

theorem entryOf_write {mem : Mem} {t w : Nat} {i : Fin 512} (hw : w < 2 ^ 64) :
    entryOf hhdm (write64 mem (t + hhdm + i * 8) w) t i = w :=
  read64_write64_of_lt hw

end Cynix.Mm.Vmm
