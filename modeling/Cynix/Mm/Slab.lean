import Cynix.Mm.SlabLayout
import Cynix.Mm.PmmRuns

/-! # The slab allocator (`mm/slab.c`)

The free lists are threaded through the objects in memory; the header at the
start of a region holds the address of the cache's `struct slab`. The state
also logs the regions `create_slab` has made, which only the specification
reads. A call is taken from start to end here; `SlabLock` has the interleaved
version. -/
namespace Cynix.Mm.Slab
open Cynix.Base.Bytes Cynix.Base.Pages Cynix.Base.Linked Cynix.Lib.Misc Cynix.Mm.SlabLayout

structure SlabDesc where
  lock : Bool
  firstFree : Nat
  entSize : Nat
  deriving Repr, DecidableEq

/-- `regions` is the log of the regions created so far. -/
structure SlabState (σ : Type) where
  slabs : Cache → SlabDesc
  pmm : σ
  mem : Mem
  regions : List Region

/-- What the allocator runs on: the page allocator, the offset of the
higher-half map and the address of the array `slabs`. -/
structure Platform (σ : Type) where
  pages : PageAllocator σ
  hhdm : Nat
  slabsAddr : Nat

variable {σ : Type} (P : Platform σ)

/-- `&slabs[c]`; a `struct slab` takes 24 bytes. -/
def Platform.slabPtr (c : Cache) : Nat := P.slabsAddr + 24 * c

/-- The cache a `struct slab *` points at. -/
def Platform.slabAt (ptr : Nat) : Option Cache :=
  (List.finRange 12).find? fun c => P.slabPtr c == ptr

/-- The `bsr` instruction: the position of the highest set bit. For 0 the
hardware leaves the destination undefined; no caller here passes 0. -/
def bsr (x : Nat) : Nat := Nat.log2 x

def slabFor (size : Nat) : Option Cache :=
  match bsr size with
  | 0 | 1 | 2 => some 0
  | 3 => some 1
  | 4 => some 2
  | 5 => some 3
  | 6 => some 4
  | 7 => some 5
  | 8 => some 6
  | 9 => some 7
  | 10 => some 8
  | 11 => some 9
  | 12 => some 10
  | 13 => some 11
  | _ => none

def SlabState.set (s : SlabState σ) (c : Cache) (d : SlabDesc) : SlabState σ :=
  { s with slabs := Function.update s.slabs c d }

section
variable (s : SlabState σ) (c : Cache) (d e : SlabDesc)

@[simp] theorem SlabState.set_slabs : (s.set c d).slabs = Function.update s.slabs c d := rfl
@[simp] theorem SlabState.set_mem : (s.set c d).mem = s.mem := rfl
@[simp] theorem SlabState.set_pmm : (s.set c d).pmm = s.pmm := rfl
@[simp] theorem SlabState.set_regions : (s.set c d).regions = s.regions := rfl

@[simp] theorem SlabState.set_set : (s.set c d).set c e = s.set c e := by
  simp [SlabState.set]

end

/-- The loop of `create_slab`: `arr[i * fact] = &arr[(i + 1) * fact]` for `i < n`. -/
def threadSlots (mem : Mem) (arr fact : Nat) : Nat → Mem
  | 0 => mem
  | n + 1 => write64 (threadSlots mem arr fact n) (arr + 8 * (n * fact)) (arr + 8 * ((n + 1) * fact))

/-- `create_slab`; `none` is the panic inside `pmm_alloc_nozero`. -/
def createSlab (c : Cache) (entSize : Nat) (s : SlabState σ) : Option (SlabState σ) :=
  match P.pages.alloc 64 s.pmm with
  | none => none
  | some (block, pmm) =>
    let region := (block + P.hhdm) % 2 ^ 64
    let headerOffset := alignUp 8 entSize
    let availableSize := pageSize * 64 - headerOffset
    let mem := write64 s.mem region (P.slabPtr c)
    let arr := region + headerOffset
    let max := (availableSize >>> bsr entSize) - 1
    let fact := entSize >>> 3
    let mem := threadSlots mem arr fact max
    let mem := write64 mem (arr + 8 * (max * fact)) 0
    some { slabs := Function.update s.slabs c ⟨false, arr, entSize⟩
           pmm := pmm
           mem := mem
           regions := (region, c) :: s.regions }

/-- `spinlock_acquire(&slab->lock)` on one CPU: `none` when it spins for ever. -/
def acquire (c : Cache) (s : SlabState σ) : Option (SlabState σ) :=
  if (s.slabs c).lock then none else some (s.set c { s.slabs c with lock := true })

def release (c : Cache) (s : SlabState σ) : SlabState σ :=
  s.set c { s.slabs c with lock := false }

def allocFromSlab (c : Cache) (s : SlabState σ) : Option (Nat × SlabState σ) := do
  let s ← acquire c s
  let s ← if (s.slabs c).firstFree = 0 then createSlab P c (s.slabs c).entSize s else some s
  let oldFree := (s.slabs c).firstFree
  let s := s.set c { s.slabs c with firstFree := read64 s.mem oldFree }
  some (oldFree, release c s)

def freeInSlab (c : Cache) (addr : Nat) (s : SlabState σ) : Option (SlabState σ) := do
  let s ← acquire c s
  if addr = 0 then some (release c s)
  else
    let s := { s with mem := write64 s.mem addr (s.slabs c).firstFree }
    let s := s.set c { s.slabs c with firstFree := addr }
    some (release c s)

/-- `slab_init`: one region for each cache, in order. -/
def slabInit (s : SlabState σ) : Option (SlabState σ) :=
  (List.finRange 12).foldlM (fun s c => createSlab P c (entSize c) s) s

/-- `slab_alloc`; the address 0 is `NULL`. -/
def slabAlloc (size : Nat) (s : SlabState σ) : Option (Nat × SlabState σ) :=
  match slabFor size with
  | some c => allocFromSlab P c s
  | none => some (0, s)

/-- `slab_realloc`. A header that names no cache is a wild pointer: `none`. -/
def slabRealloc (addr newSize : Nat) (s : SlabState σ) : Option (Nat × SlabState σ) :=
  if addr = 0 then slabAlloc P newSize s
  else do
    let c ← P.slabAt (read64 s.mem (regionOf addr))
    if (s.slabs c).entSize < newSize then
      let (newAddr, s) ← slabAlloc P newSize s
      if newAddr = 0 then some (0, s)
      else
        let s := { s with mem := copyUp s.mem newAddr addr (s.slabs c).entSize }
        let s ← freeInSlab c addr s
        some (newAddr, s)
    else some (addr, s)

def slabFree (addr : Nat) (s : SlabState σ) : Option (SlabState σ) :=
  if addr = 0 then some s
  else do
    let c ← P.slabAt (read64 s.mem (regionOf addr))
    freeInSlab c addr s

/-! ## What a call that returns has done -/

variable {P} {s s' : SlabState σ} {c : Cache} {addr : Nat}

/-- The lock word of the cache is overwritten, so its value does not matter. -/
theorem createSlab_set (d : SlabDesc) (e : Nat) : createSlab P c e (s.set c d) = createSlab P c e s := by
  simp [createSlab, SlabState.set]

theorem allocFromSlab_some (h : allocFromSlab P c s = some (addr, s')) :
    (s.slabs c).lock = false ∧ ∃ t,
      ((s.slabs c).firstFree ≠ 0 ∧ t = s ∨
        (s.slabs c).firstFree = 0 ∧ createSlab P c (s.slabs c).entSize s = some t) ∧
      addr = (t.slabs c).firstFree ∧
      s' = t.set c ⟨false, read64 t.mem addr, (t.slabs c).entSize⟩ := by
  unfold allocFromSlab acquire at h
  cases hl : (s.slabs c).lock with
  | true => simp [hl] at h
  | false =>
    refine ⟨rfl, ?_⟩
    simp only [hl, Bool.false_eq_true, if_false, Option.bind_eq_bind, Option.bind_some,
      SlabState.set_slabs, Function.update_self] at h
    by_cases h0 : (s.slabs c).firstFree = 0
    · simp only [h0, if_true, createSlab_set] at h
      cases hc : createSlab P c (s.slabs c).entSize s with
      | none => simp [hc] at h
      | some t =>
        simp only [hc, Option.bind_some, Option.some.injEq, Prod.mk.injEq, release,
          SlabState.set_slabs, SlabState.set_set, Function.update_self] at h
        obtain ⟨rfl, rfl⟩ := h
        exact ⟨t, Or.inr ⟨h0, rfl⟩, rfl, rfl⟩
    · simp only [h0, if_false, Option.some.injEq, Prod.mk.injEq, release,
        SlabState.set_slabs, SlabState.set_mem, SlabState.set_set, Function.update_self] at h
      obtain ⟨rfl, rfl⟩ := h
      exact ⟨s, Or.inl ⟨h0, rfl⟩, rfl, rfl⟩

theorem freeInSlab_some (ha : addr ≠ 0) (h : freeInSlab c addr s = some s') :
    s' = SlabState.set { s with mem := write64 s.mem addr (s.slabs c).firstFree } c
      ⟨false, addr, (s.slabs c).entSize⟩ := by
  unfold freeInSlab acquire at h
  cases hl : (s.slabs c).lock with
  | true => simp [hl] at h
  | false =>
    simp only [hl, Bool.false_eq_true, if_false, Option.bind_eq_bind, Option.bind_some, ha,
      Option.some.injEq, release] at h
    subst h
    simp [SlabState.set]

end Cynix.Mm.Slab
