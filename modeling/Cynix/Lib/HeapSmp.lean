import Cynix.Base.Shares
import Cynix.Lib.Alloc
import Cynix.Mm.PmmSmp

/-! # The kernel heap on many CPUs

`alloc`, `realloc` and `free` called from any number of CPUs, one access at a
time, over the page allocator of `Cynix.Mm.PmmSmp`, from which other code gets
pages of its own meanwhile. The heap has no lock: all it shares is behind that
of the page allocator, and the metadata of a block are in the block's own
first page. To the page allocator the heap is one more user of pages, which is
how the results here come from those there. -/
namespace Cynix.Lib.HeapSmp
open Cynix.Base.Bytes Cynix.Base.Pages Cynix.Base.Sections Cynix.Base.Shares Cynix.Lib.Misc Cynix.Lib.Alloc
open Cynix.Mm Cynix.Mm.Pmm
open Cynix.Mm.PmmRuns (InRange)
open Cynix.Mm.PmmSection (Op Local machine spec)
open Cynix.Mm.PmmSmp (Doing words Owned)

/-- Where a CPU is in `lib/alloc.c`. A block that was passed to `realloc` or `free` is in the CPU's
hands; `old` is the one that `realloc` called `alloc` for. -/
inductive Spot where
  | out
  /-- In `pmm_alloc`. -/
  | alloc (size : Nat) (old : Option Block)
  /-- Before `metadata->pages = page_count`. -/
  | setPages (size : Nat) (old : Option Block) (physPage : Nat)
  | setSize (size : Nat) (old : Option Block) (physPage : Nat)
  /-- `realloc`, before it reads `metadata->pages`. -/
  | check (newSize : Nat) (b : Block)
  | resize (newSize : Nat) (b : Block)
  /-- Before `realloc` calls `alloc`. -/
  | grow (newSize : Nat) (b : Block)
  /-- Before `realloc` reads `metadata->size`, with the physical address of the new block. -/
  | limit (newSize : Nat) (b : Block) (physPage : Nat)
  /-- `memcpy` of `n` bytes, `i` of them done. -/
  | copy (newSize : Nat) (b : Block) (physPage n i : Nat)
  /-- `free`, before it reads `metadata->pages`; the block that `realloc` will return after it. -/
  | free (b : Block) (ret : Option Block)
  /-- In `pmm_free`. -/
  | freeing (ret : Option Block)

structure World where
  pmm : PmmSmp.World
  spot : Nat → Spot
  /-- The blocks that calls returned and that were not passed to `realloc` or `free`, by their address. -/
  blocks : Nat → Option Block

/-- The rest of a block that `realloc` has moved is zero. -/
def moved (b : Block) (ptr newSize : Nat) : Block :=
  ⟨ptr, newSize, fun i => if i < min newSize b.size then b.data i else 0⟩

/-- The block that `realloc` leaves in its place. -/
def resized (b : Block) (newSize : Nat) (mem : Mem) : Block :=
  ⟨b.ptr, newSize, fun i => if i < b.size then b.data i else mem (b.ptr + i)⟩

def World.to (w : World) (c : Nat) (d : Spot) : World := { w with spot := Function.update w.spot c d }
def World.doing (w : World) (c : Nat) (d : Doing) : World :=
  { w with pmm := { w.pmm with doing := Function.update w.pmm.doing c d } }
def World.store (w : World) (mem : Mem) : World := { w with pmm := { w.pmm with mem := mem } }
def World.give (w : World) (ptr : Nat) (b : Option Block) : World := { w with blocks := Function.update w.blocks ptr b }

/-- `DIV_ROUNDUP` of the size does not wrap around. -/
def NoWrap (size : Nat) : Prop := size + 4095 < 2 ^ 64

/-- The number of pages `alloc` asks for. -/
def pagesFor (size : Nat) : Nat := (divRoundup size pageSize + 1) % 2 ^ 64

variable (hhdm : Nat)

/-- The steps outside of the locked part. A call with `NULL` is one of `alloc`, or nothing; one for which
`DIV_ROUNDUP` wraps around is left out. -/
inductive Quiet : World → World → Prop
  -- pages that are not the heap's
  | pageWrite {w : World} {base j : Nat} {b : PmmSmp.Block} {v : UInt8} : w.pmm.owned base = some b →
      j < b.pages * pageSize → Quiet w { w with pmm := { w.pmm with
        mem := writeByte w.pmm.mem (base + hhdm + j) v
        owned := Function.update w.pmm.owned base (some { b with data := Function.update b.data j v }) } }
  | pageZeroed {w : World} {c ret count i : Nat} : w.spot c = .out → w.pmm.doing c = .zeroing ret count i →
      ¬ i < words count → Quiet w { w with pmm := { w.pmm with
        owned := Function.update w.pmm.owned ret (some ⟨count, fun _ => 0⟩)
        doing := Function.update w.pmm.doing c .idle } }
  | pageFree {w : World} {c page : Nat} {b : PmmSmp.Block} : w.spot c = .out → w.pmm.doing c = .idle →
      w.pmm.owned page = some b → Quiet w { w with pmm := { w.pmm with
        owned := Function.update w.pmm.owned page none
        doing := Function.update w.pmm.doing c (.filling page b.pages 0) } }
  -- the loops of `pmm_alloc` and `pmm_free`, whoever called them
  | zero {w : World} {c ret count i : Nat} : w.pmm.doing c = .zeroing ret count i → i < words count →
      Quiet w ((w.store (write64 w.pmm.mem (ret + hhdm + 8 * i) 0)).doing c (.zeroing ret count (i + 1)))
  | fill {w : World} {c page count i : Nat} : w.pmm.doing c = .filling page count i → i < words count →
      Quiet w ((w.store (write64 w.pmm.mem (page + hhdm + 8 * i) 0xaaaaaaaaaaaaaaaa)).doing c
        (.filling page count (i + 1)))
  /-- The owner of a block stores a byte inside of it. -/
  | write {w : World} {ptr i : Nat} {b : Block} {v : UInt8} : w.blocks ptr = some b → i < b.size →
      Quiet w ((w.store (writeByte w.pmm.mem (b.ptr + i) v)).give ptr
        (some { b with data := Function.update b.data i v }))
  -- `alloc`
  | zeroed {w : World} {c size ret count i : Nat} {old : Option Block} : w.spot c = .alloc size old →
      w.pmm.doing c = .zeroing ret count i → ¬ i < words count →
      Quiet w ((w.doing c .idle).to c (.setPages size old ret))
  | setPages {w : World} {c size physPage : Nat} {old : Option Block} : w.spot c = .setPages size old physPage →
      Quiet w ((w.store (write64 w.pmm.mem (physPage + hhdm) (divRoundup size pageSize))).to c
        (.setSize size old physPage))
  | setSize {w : World} {c size physPage : Nat} : w.spot c = .setSize size none physPage →
      Quiet w (((w.store (write64 w.pmm.mem (physPage + hhdm + 8) size)).to c .out).give (physPage + hhdm + pageSize)
        (some ⟨physPage + hhdm + pageSize, size, fun _ => 0⟩))
  | setSizeGrown {w : World} {c size physPage : Nat} {b : Block} : w.spot c = .setSize size (some b) physPage →
      Quiet w ((w.store (write64 w.pmm.mem (physPage + hhdm + 8) size)).to c (.limit size b physPage))
  -- `realloc`
  | realloc {w : World} {c ptr newSize : Nat} {b : Block} : w.spot c = .out → w.pmm.doing c = .idle →
      w.blocks ptr = some b → NoWrap newSize → Quiet w ((w.to c (.check newSize b)).give ptr none)
  | same {w : World} {c newSize : Nat} {b : Block} : w.spot c = .check newSize b →
      read64 w.pmm.mem (b.ptr - pageSize) = divRoundup newSize pageSize → Quiet w (w.to c (.resize newSize b))
  | differs {w : World} {c newSize : Nat} {b : Block} : w.spot c = .check newSize b →
      read64 w.pmm.mem (b.ptr - pageSize) ≠ divRoundup newSize pageSize → Quiet w (w.to c (.grow newSize b))
  | resize {w : World} {c newSize : Nat} {b : Block} : w.spot c = .resize newSize b →
      Quiet w (((w.store (write64 w.pmm.mem (b.ptr - pageSize + 8) newSize)).to c .out).give b.ptr
        (some (resized b newSize w.pmm.mem)))
  | limit {w : World} {c newSize physPage : Nat} {b : Block} : w.spot c = .limit newSize b physPage →
      Quiet w (w.to c (.copy newSize b physPage (min newSize (read64 w.pmm.mem (b.ptr - pageSize + 8))) 0))
  | copy {w : World} {c newSize physPage n i : Nat} {b : Block} : w.spot c = .copy newSize b physPage n i → i < n →
      Quiet w ((w.store (writeByte w.pmm.mem (physPage + hhdm + pageSize + i) (w.pmm.mem (b.ptr + i)))).to c
        (.copy newSize b physPage n (i + 1)))
  | copied {w : World} {c newSize physPage n i : Nat} {b : Block} : w.spot c = .copy newSize b physPage n i →
      ¬ i < n → Quiet w (w.to c (.free b (some (moved b (physPage + hhdm + pageSize) newSize))))
  -- `free`
  | free {w : World} {c ptr : Nat} {b : Block} : w.spot c = .out → w.pmm.doing c = .idle → w.blocks ptr = some b →
      Quiet w ((w.to c (.free b none)).give ptr none)
  | release {w : World} {c : Nat} {b : Block} {ret : Option Block} : w.spot c = .free b ret →
      Quiet w ((w.doing c (.filling (b.ptr - pageSize - hhdm)
        ((read64 w.pmm.mem (b.ptr - pageSize) + 1) % 2 ^ 64) 0)).to c (.freeing ret))

inductive Invoke : Nat → Op → World → World → Prop
  | pages {c count : Nat} {zero : Bool} {w : World} : w.spot c = .out → w.pmm.doing c = .idle → 1 ≤ count →
      Invoke c (.alloc count) w (w.doing c (.allocating count zero))
  | free {c page count i : Nat} {w : World} : w.pmm.doing c = .filling page count i → ¬ i < words count →
      Invoke c (.free (page / pageSize) count) w (w.doing c (.freeing page count))
  | alloc {c size : Nat} {w : World} : w.spot c = .out → w.pmm.doing c = .idle → NoWrap size →
      Invoke c (.alloc (pagesFor size)) w ((w.doing c (.allocating (pagesFor size) true)).to c (.alloc size none))
  | grow {c newSize : Nat} {b : Block} {w : World} : w.spot c = .grow newSize b →
      Invoke c (.alloc (pagesFor newSize)) w
        ((w.doing c (.allocating (pagesFor newSize) true)).to c (.alloc newSize (some b)))

inductive Resume : Nat → Op → Nat → World → World → Prop
  | alloc {c : Nat} {op : Op} {ret : Nat} {w : World} {count : Nat} : w.pmm.doing c = .allocating count true →
      Resume c op ret w (w.doing c (.zeroing ret count 0))
  | allocNozero {c : Nat} {op : Op} {ret : Nat} {w : World} {count : Nat} : w.spot c = .out →
      w.pmm.doing c = .allocating count false → Resume c op ret w { w with pmm := { w.pmm with
        owned := Function.update w.pmm.owned ret (some ⟨count, fun j => w.pmm.mem (ret + hhdm + j)⟩)
        doing := Function.update w.pmm.doing c .idle } }
  | pageFreed {c : Nat} {op : Op} {ret : Nat} {w : World} {page count : Nat} : w.spot c = .out →
      w.pmm.doing c = .freeing page count → Resume c op ret w (w.doing c .idle)
  | freed {c : Nat} {op : Op} {ret : Nat} {w : World} {page count : Nat} : w.spot c = .freeing none →
      w.pmm.doing c = .freeing page count → Resume c op ret w ((w.doing c .idle).to c .out)
  | reallocated {c : Nat} {op : Op} {ret : Nat} {w : World} {page count : Nat} {b : Block} :
      w.spot c = .freeing (some b) → w.pmm.doing c = .freeing page count →
      Resume c op ret w (((w.doing c .idle).to c .out).give b.ptr (some b))

def client : Client PmmState World Op Nat := ⟨fun _ => Quiet hhdm, Invoke, Resume hhdm⟩

/-! ## Who has which pages -/

/-- Who has a block of the heap: its owner, or a CPU as the one it was given or as the one it makes. -/
inductive Slot where
  | live (ptr : Nat)
  | old (c : Nat)
  | new (c : Nat)
  deriving DecidableEq

/-- Pages of the heap, and what is known of their bytes. -/
structure Part where
  range : Range
  knows : Mem → Prop

/-- The metadata and the bytes of a block, from its first page on. -/
structure Known (b : Block) (data : Mem) : Prop where
  low : hhdm + pageSize ≤ b.ptr
  size : NoWrap b.size
  metaPages : read64 data 0 = divRoundup b.size pageSize
  metaSize : read64 data 8 = b.size
  data : ∀ i, i < b.size → data (pageSize + i) = b.data i

def ofBlock (b : Block) : Part := ⟨b.range hhdm, Known hhdm b⟩

/-- Zeroed pages that have their number stored in front. -/
def Counted (size : Nat) (data : Mem) : Prop :=
  read64 data 0 = divRoundup size pageSize ∧ ∀ j, 8 ≤ j → data j = 0

def Spot.old : Spot → Option Block
  | .alloc _ old | .setPages _ old _ | .setSize _ old _ => old
  | .check _ b | .resize _ b | .grow _ b | .limit _ b _ | .copy _ b .. | .free b _ => some b
  | .out | .freeing _ => none

def Spot.new : Spot → Option Part
  | .setPages size _ physPage => some ⟨(physPage, divRoundup size pageSize + 1), fun data => ∀ j, data j = 0⟩
  | .setSize size _ physPage => some ⟨(physPage, divRoundup size pageSize + 1), Counted size⟩
  | .limit newSize _ physPage => some (ofBlock hhdm ⟨physPage + hhdm + pageSize, newSize, fun _ => 0⟩)
  | .copy newSize b physPage _ i =>
    some (ofBlock hhdm ⟨physPage + hhdm + pageSize, newSize, fun j => if j < i then b.data j else 0⟩)
  | .free _ ret | .freeing ret => ret.map (ofBlock hhdm)
  | _ => none

def World.part (w : World) : Slot → Option Part
  | .live ptr => (w.blocks ptr).map (ofBlock hhdm)
  | .old c => (w.spot c).old.map (ofBlock hhdm)
  | .new c => (w.spot c).new hhdm

inductive Holder where
  | pages (u : PmmSmp.Holder)
  | heap (s : Slot)

def World.holds (w : World) : Holder → Option Range
  | .pages u => w.pmm.holds u
  | .heap s => (w.part hhdm s).map Part.range

section
variable {hhdm} {w : World} {c : Nat} {d : Spot}

theorem part_to : (w.to c d).part hhdm =
    Function.update (Function.update (w.part hhdm) (.old c) (d.old.map (ofBlock hhdm))) (.new c) (d.new hhdm) := by
  funext s
  cases s with
  | live ptr => simp [World.part, World.to]
  | old i | new i =>
    by_cases hi : i = c
    · subst hi
      simp [World.part, World.to]
    · simp [World.part, World.to, hi]

theorem part_live {ptr : Nat} {b : Block} (hb : w.blocks ptr = some b) :
    w.part hhdm (.live ptr) = some (ofBlock hhdm b) :=
  congrArg (Option.map (ofBlock hhdm)) hb

theorem part_old (hc : w.spot c = d) : w.part hhdm (.old c) = d.old.map (ofBlock hhdm) :=
  congrArg (fun d => d.old.map (ofBlock hhdm)) hc

theorem part_new (hc : w.spot c = d) : w.part hhdm (.new c) = d.new hhdm :=
  congrArg (Spot.new hhdm) hc

theorem part_to_new (ho : d.old = (w.spot c).old) :
    (w.to c d).part hhdm = Function.update (w.part hhdm) (.new c) (d.new hhdm) := by
  have hsame : Function.update (w.part hhdm) (.old c) (d.old.map (ofBlock hhdm)) = w.part hhdm := by
    rw [ho]
    exact Function.update_eq_self ..
  rw [part_to, hsame]

theorem part_to_old (hn : d.new hhdm = (w.spot c).new hhdm) :
    (w.to c d).part hhdm = Function.update (w.part hhdm) (.old c) (d.old.map (ofBlock hhdm)) := by
  have hsame : Function.update (w.part hhdm) (.new c) (d.new hhdm) = w.part hhdm := by
    rw [hn]
    exact Function.update_eq_self ..
  rw [part_to, Function.update_comm (by simp), hsame]

theorem part_to_same (ho : d.old = (w.spot c).old) (hn : d.new hhdm = (w.spot c).new hhdm) :
    (w.to c d).part hhdm = w.part hhdm := by
  rw [part_to_new ho, hn]
  exact Function.update_eq_self ..

theorem part_give (ptr : Nat) (o : Option Block) :
    (w.give ptr o).part hhdm = Function.update (w.part hhdm) (.live ptr) (o.map (ofBlock hhdm)) := by
  funext s
  cases s with
  | live i =>
    by_cases hi : i = ptr
    · subst hi
      simp [World.part, World.give]
    · simp [World.part, World.give, hi]
  | old i | new i => simp [World.part, World.give]

end

/-! ## The heap as a user of pages -/

def Part.share (p : Part) : Share Nat PmmSmp.Block := ⟨p.range.1, fun k => k.pages = p.range.2 ∧ p.knows k.data⟩

/-- `whole` has the blocks of the other users and, as blocks of pages, the parts of the heap. -/
def Parts (part : Slot → Option Part) : (Nat → Option PmmSmp.Block) → (Nat → Option PmmSmp.Block) → Prop :=
  Split (Option.map Part.share ∘ part)

section
variable {hhdm} {part : Slot → Option Part} {rest whole : Nat → Option PmmSmp.Block} {mem : Mem}
  {doing : Nat → Doing} {s t : Slot} {p q : Part} {k : PmmSmp.Block} {base : Nat}

theorem share_some (hp : part s = some p) : (Option.map Part.share ∘ part) s = some p.share := by
  simp [hp]

theorem Parts.has (h : Parts part rest whole) (hp : part s = some p) :
    rest p.range.1 = none ∧ ∃ k, whole p.range.1 = some k ∧ k.pages = p.range.2 ∧ p.knows k.data :=
  h.fits (share_some hp)

theorem Parts.unique (h : Parts part rest whole) (hp : part s = some p) (hq : part t = some q)
    (he : p.range.1 = q.range.1) : s = t :=
  Split.unique h (share_some hp) (share_some hq) he

theorem Parts.know (h : Parts part rest whole) (hp : part s = some p) (hr : q.range = p.range)
    (hq : ∀ data, p.knows data → q.knows data) : Parts (Function.update part s (some q)) rest whole := by
  unfold Parts
  rw [Function.comp_update, Option.map_some, Part.share, hr]
  exact Split.know h (share_some hp) fun k _ hk => ⟨hk.1, hq k.data hk.2⟩

theorem Parts.change (h : Parts part rest whole) (hp : part s = some p) (hr : q.range = p.range)
    (hk : k.pages = p.range.2) (hq : q.knows k.data) :
    Parts (Function.update part s (some q)) rest (Function.update whole p.range.1 (some k)) := by
  unfold Parts
  rw [Function.comp_update, Option.map_some, Part.share, hr]
  exact Split.change h (share_some hp) ⟨hk, hq⟩

theorem Parts.gain (h : Parts part rest whole) (hs : part s = none) (hw : whole p.range.1 = none)
    (hk : k.pages = p.range.2) (hp : p.knows k.data) :
    Parts (Function.update part s (some p)) rest (Function.update whole p.range.1 (some k)) := by
  unfold Parts
  rw [Function.comp_update, Option.map_some]
  exact Split.gain h (by simp [hs]) hw ⟨hk, hp⟩

theorem Parts.lose (h : Parts part rest whole) (hp : part s = some p) :
    Parts (Function.update part s none) rest (Function.update whole p.range.1 none) := by
  unfold Parts
  rw [Function.comp_update, Option.map_none]
  exact Split.lose h (share_some hp)

theorem Parts.pass (h : Parts part rest whole) (hp : part s = some p) (ht : part t = none) :
    Parts (Function.update (Function.update part s none) t (some p)) rest whole := by
  unfold Parts
  rw [Function.comp_update, Function.comp_update, Option.map_none, Option.map_some]
  exact Split.pass h (share_some hp) (by simp [ht])

theorem blit_one (m : Mem) (a : Nat) (v : UInt8) : blit m a (fun _ => v) 1 = writeByte m a v := by
  funext x
  simp only [blit, writeByte]
  refine if_congr ?_ rfl rfl
  omega

/-- A store to a block, byte by byte. -/
theorem stores {j n : Nat} {f : Nat → UInt8} (hb : whole base = some k) (hn : j + n ≤ k.pages * pageSize) :
    Relation.ReflTransGen (PmmSmp.Quiet hhdm) ⟨mem, whole, doing⟩ ⟨blit mem (base + hhdm + j) f n,
      Function.update whole base (some { k with data := blit k.data j f n }), doing⟩ := by
  have hzero : ∀ (m : Mem) (a : Nat), blit m a f 0 = m := fun m a => funext fun x => blit_out (by omega)
  have hsucc : ∀ (m : Mem) (a n : Nat), writeByte (blit m a f n) (a + n) (f n) = blit m a f (n + 1) := by
    intro m a n
    funext x
    by_cases hx : x = a + n
    · subst hx
      rw [blit_in (by omega)]
      simp [writeByte]
    · simp only [writeByte, hx, if_false, blit]
      refine if_congr ?_ rfl rfl
      omega
  induction n with
  | zero =>
    rw [hzero, hzero, ← hb, Function.update_eq_self]
  | succ n ih =>
    have hstep : PmmSmp.Quiet hhdm ⟨blit mem (base + hhdm + j) f n,
        Function.update whole base (some { k with data := blit k.data j f n }), doing⟩ _ :=
      .write (j := j + n) (v := f n) (Function.update_self ..) (by simp only; omega)
    have hdata : Function.update (blit k.data j f n) (j + n) (f n) = blit k.data j f (n + 1) := by
      rw [← hsucc]
      funext x
      simp [Function.update_apply, writeByte]
    simp only [Function.update_idem, ← Nat.add_assoc, hsucc] at hstep
    rw [hdata] at hstep
    exact (ih (by omega)).tail hstep

end

/-! ## What is known of a block -/

section
variable {hhdm} {b : Block} {data mem : Mem}

theorem read64_shift {m m' : Mem} {a a' : Nat} (h : ∀ i, i < 8 → m (a + i) = m' (a' + i)) :
    read64 m a = read64 m' a' := by
  have h0 := h 0 (by omega)
  rw [Nat.add_zero, Nat.add_zero] at h0
  unfold read64
  rw [h0, h 1 (by omega), h 2 (by omega), h 3 (by omega), h 4 (by omega), h 5 (by omega), h 6 (by omega),
    h 7 (by omega)]

/-- The block in memory. -/
theorem Known.blockOk (hk : Known hhdm b data)
    (hm : ∀ j, j < (b.range hhdm).2 * pageSize → mem ((b.range hhdm).1 + hhdm + j) = data j) :
    BlockOk hhdm mem b := by
  have hlow := hk.low
  have hroom := size_le_pages hk.size
  have hat : ∀ x j, j < (b.range hhdm).2 * pageSize → x = b.ptr - pageSize + j → mem x = data j := by
    intro x j hj hx
    have hbase : (b.range hhdm).1 + hhdm + j = x := by
      unfold Block.range
      omega
    rw [← hm j hj, hbase]
  unfold Block.range pageSize at hat
  unfold pageSize at hlow hroom
  refine ⟨hk.low, hk.size, ?_, ?_, ?_⟩
  · rw [← hk.metaPages]
    exact read64_shift fun i hi => hat _ (0 + i) (by omega) (by unfold pageSize; omega)
  · rw [← hk.metaSize]
    exact read64_shift fun i hi => hat _ (8 + i) (by omega) (by unfold pageSize; omega)
  · intro i hi
    rw [← hk.data i hi]
    exact hat _ _ (by unfold pageSize; omega) (by unfold pageSize; omega)

/-- The first page of a block is its metadata. -/
theorem Known.store {b' : Block} {f : Nat → UInt8} {j n : Nat} (hk : Known hhdm b data) (hj : pageSize ≤ j)
    (hptr : b'.ptr = b.ptr) (hsize : b'.size = b.size)
    (hdata : ∀ i, i < b.size → blit data j f n (pageSize + i) = b'.data i) : Known hhdm b' (blit data j f n) := by
  unfold pageSize at hj
  refine ⟨hptr ▸ hk.low, hsize ▸ hk.size, ?_, ?_, hsize ▸ hdata⟩
  · rw [hsize, ← hk.metaPages]
    exact read64_congr fun x _ hx => blit_out (by omega)
  · rw [hsize, ← hk.metaSize]
    exact read64_congr fun x _ hx => blit_out (by omega)

theorem Known.write {v : UInt8} {i : Nat} (hk : Known hhdm b data) :
    Known hhdm { b with data := Function.update b.data i v } (blit data (pageSize + i) (fun _ => v) 1) := by
  refine hk.store (Nat.le_add_right ..) rfl rfl fun i' hi' => ?_
  by_cases hii : i' = i
  · subst hii
    simp [blit]
  · rw [blit_out (by omega), hk.data i' hi']
    exact (Function.update_of_ne hii ..).symm

theorem Known.resized {newSize : Nat} (hk : Known hhdm b data) (hn : NoWrap newSize)
    (hp : divRoundup b.size pageSize = divRoundup newSize pageSize)
    (hm : ∀ i, i < newSize → mem (b.ptr + i) = data (pageSize + i)) :
    Known hhdm (resized b newSize mem) (write64 data 8 newSize) := by
  refine ⟨hk.low, hn, ?_, ?_, ?_⟩
  · rw [read64_write64_ne (by omega), hk.metaPages]
    exact hp
  · refine read64_write64_of_lt ?_
    unfold NoWrap at hn
    omega
  · intro i hi
    rw [write64_out (by unfold pageSize; omega)]
    simp only [HeapSmp.resized]
    split
    · exact hk.data i ‹_›
    · exact (hm i hi).symm

/-- `metadata->size = size`, in zeroed pages. -/
theorem Known.made {ptr size : Nat} (hptr : hhdm + pageSize ≤ ptr) (hn : NoWrap size) (hc : Counted size data) :
    Known hhdm ⟨ptr, size, fun _ => 0⟩ (write64 data 8 size) := by
  refine ⟨hptr, hn, ?_, ?_, ?_⟩
  · rw [read64_write64_ne (by omega)]
    exact hc.1
  · refine read64_write64_of_lt ?_
    unfold NoWrap at hn
    omega
  · intro i _
    rw [write64_out (by unfold pageSize; omega)]
    exact hc.2 _ (by unfold pageSize; omega)

end

/-! ## The simulation -/

/-- What a CPU in the heap does in the page allocator, and what it has checked so far. -/
def Tied : Spot → Doing → Prop
  | .out, _ | .freeing _, _ => True
  | .alloc size _, d =>
    NoWrap size ∧ (d = .allocating (pagesFor size) true ∨ ∃ ret i, d = .zeroing ret (pagesFor size) i)
  | .setPages size _ _, d | .setSize size _ _, d | .check size _, d | .grow size _, d => NoWrap size ∧ d = .idle
  | .resize newSize b, d => NoWrap newSize ∧ divRoundup b.size pageSize = divRoundup newSize pageSize ∧ d = .idle
  | .limit .., d | .free .., d => d = .idle
  | .copy newSize b _ n i, d => n = min newSize b.size ∧ i ≤ n ∧ d = .idle

/-- The heap as one of the users of `whole`. -/
structure Sim (w : World) (whole : Nat → Option PmmSmp.Block) : Prop where
  parts : Parts (w.part hhdm) w.pmm.owned whole
  keys : ∀ ptr b, w.blocks ptr = some b → b.ptr = ptr
  tied : ∀ c, Tied (w.spot c) (w.pmm.doing c)

def World.whole (w : World) (whole : Nat → Option PmmSmp.Block) : PmmSmp.World := { w.pmm with owned := whole }

section
variable {hhdm} {w w' : World} {whole : Nat → Option PmmSmp.Block} {c : Nat} {d : Spot} {e : Doing} {s : Slot}
  {b : Block} {data : Mem}

theorem pagesFor_eq (size : Nat) : pagesFor size = divRoundup size pageSize + 1 := by
  have h := divRoundup_page_lt size
  unfold pagesFor
  exact Nat.mod_eq_of_lt (by omega)

theorem tied_spot (h : ∀ c, Tied (w.spot c) (w.pmm.doing c)) (hd : Tied d (w.pmm.doing c)) (i : Nat) :
    Tied (Function.update w.spot c d i) (w.pmm.doing i) := by
  by_cases hi : i = c
  · subst hi
    rwa [Function.update_self]
  · rw [Function.update_of_ne hi]
    exact h i

theorem tied_both (h : ∀ c, Tied (w.spot c) (w.pmm.doing c)) (hd : Tied d e) (i : Nat) :
    Tied (Function.update w.spot c d i) (Function.update w.pmm.doing c e i) := by
  by_cases hi : i = c
  · subst hi
    rwa [Function.update_self, Function.update_self]
  · rw [Function.update_of_ne hi, Function.update_of_ne hi]
    exact h i

theorem tied_doing (h : ∀ c, Tied (w.spot c) (w.pmm.doing c)) (hd : Tied (w.spot c) e) (i : Nat) :
    Tied (w.spot i) (Function.update w.pmm.doing c e i) := by
  have hboth := tied_both (c := c) h hd i
  rwa [Function.update_eq_self] at hboth

/-- Only a CPU that is not in the heap, or is about to leave it, is in `pmm_free`. -/
theorem tied_freeing {a n i : Nat} (h : Tied d (.filling a n i) ∨ Tied d (.freeing a n)) (e : Doing) : Tied d e := by
  cases d <;> simp_all [Tied]

theorem tied_zeroing {a n i : Nat} (h : Tied d (.zeroing a n i)) (k : Nat) : Tied d (.zeroing a n k) := by
  cases d <;> simp_all [Tied]

theorem Sim.tiedAt (h : Sim hhdm w whole) (hc : w.spot c = d) : Tied d (w.pmm.doing c) :=
  hc ▸ h.tied c

theorem Sim.keys_give (h : Sim hhdm w whole) {ptr : Nat} {o : Option Block} (ho : ∀ b, o = some b → b.ptr = ptr)
    (i : Nat) (b : Block) (hb : Function.update w.blocks ptr o i = some b) : b.ptr = i := by
  by_cases hi : i = ptr
  · subst hi
    rw [Function.update_self] at hb
    exact ho b hb
  · rw [Function.update_of_ne hi] at hb
    exact h.keys i b hb

/-- No owner has a block where a CPU has one in hand. -/
theorem Sim.vacant (h : Sim hhdm w whole) {p : Part} (hp : w.part hhdm s = some p) {ptr : Nat} (hs : s ≠ .live ptr)
    (hr : p.range.1 = ptr - pageSize - hhdm) : w.part hhdm (.live ptr) = none := by
  cases hb : w.blocks ptr with
  | none => simp [World.part, hb]
  | some b =>
    have hq : w.part hhdm (.live ptr) = some (ofBlock hhdm b) := part_live hb
    refine absurd (h.parts.unique hp hq ?_) hs
    rw [hr, ← h.keys ptr b hb]
    rfl

/-- Each block of pages holds what its user knows. -/
def Intact (hhdm : Nat) (w : World) (whole : Nat → Option PmmSmp.Block) : Prop :=
  ∀ base k, whole base = some k → ∀ j, j < k.pages * pageSize → w.pmm.mem (base + hhdm + j) = k.data j

/-- The bytes of a part in memory. -/
theorem Sim.bytes (h : Sim hhdm w whole) (hint : Intact hhdm w whole) {p : Part}
    (hp : w.part hhdm s = some p) : ∃ k, whole p.range.1 = some k ∧ p.knows k.data ∧
      ∀ j, j < p.range.2 * pageSize → w.pmm.mem (p.range.1 + hhdm + j) = k.data j := by
  obtain ⟨-, k, hk, hpages, hknows⟩ := h.parts.has hp
  refine ⟨k, hk, hknows, ?_⟩
  rw [← hpages]
  exact hint _ k hk

theorem Sim.blockOk (h : Sim hhdm w whole) (hint : Intact hhdm w whole)
    (hp : w.part hhdm s = some (ofBlock hhdm b)) : BlockOk hhdm w.pmm.mem b := by
  obtain ⟨k, -, hknows, hbytes⟩ := h.bytes hint hp
  exact Known.blockOk hknows hbytes

/-- A step of the heap is some steps of a user of pages. -/
def Follows (hhdm : Nat) (w : World) (whole : Nat → Option PmmSmp.Block) (w' : World) : Prop :=
  ∃ whole', Relation.ReflTransGen (PmmSmp.Quiet hhdm) (w.whole whole) (w'.whole whole') ∧ Sim hhdm w' whole'

/-- A store to a part of the heap, of which `q` is known then. -/
theorem Sim.store (h : Sim hhdm w whole) {p : Part} (q : Part) (hp : w.part hhdm s = some p) (hr : q.range = p.range)
    {a j n : Nat} {f : Nat → UInt8} (ha : p.range.1 + hhdm + j = a) (hn : j + n ≤ p.range.2 * pageSize)
    (hq : ∀ k, whole p.range.1 = some k → p.knows k.data → q.knows (blit k.data j f n)) :
    ∃ whole', Relation.ReflTransGen (PmmSmp.Quiet hhdm) (w.whole whole)
        ((w.store (blit w.pmm.mem a f n)).whole whole') ∧
      Parts (Function.update (w.part hhdm) s (some q)) w.pmm.owned whole' := by
  subst ha
  obtain ⟨-, k, hk, hpages, hknows⟩ := h.parts.has hp
  refine ⟨_, stores hk (by rw [hpages]; exact hn), ?_⟩
  exact h.parts.change hp hr hpages (hq k hk hknows)

/-! ### Blocks and their owners -/

theorem room {size : Nat} (hn : NoWrap size) {i n : Nat} (hi : i + n ≤ size) :
    pageSize + i + n ≤ (divRoundup size pageSize + 1) * pageSize := by
  have h := size_le_pages hn
  unfold pageSize at h ⊢
  omega

theorem room_meta (size : Nat) {j : Nat} (hj : j ≤ 8) :
    j + 8 ≤ (divRoundup size pageSize + 1) * pageSize := by
  have h := Nat.le_mul_of_pos_left pageSize (Nat.succ_pos (divRoundup size pageSize))
  unfold pageSize at h ⊢
  omega

theorem Known.inside (hk : Known hhdm b data) (j : Nat) :
    (b.range hhdm).1 + hhdm + j = b.ptr - pageSize + j := by
  have hlow := hk.low
  unfold Block.range
  omega

theorem Known.address (hk : Known hhdm b data) (i : Nat) :
    (b.range hhdm).1 + hhdm + (pageSize + i) = b.ptr + i := by
  have hlow := hk.low
  rw [hk.inside]
  omega

theorem Sim.known (h : Sim hhdm w whole) (hp : w.part hhdm s = some (ofBlock hhdm b)) :
    ∃ data, Known hhdm b data := by
  obtain ⟨-, k, -, -, hknows⟩ := h.parts.has hp
  exact ⟨k.data, hknows⟩

theorem Sim.write (h : Sim hhdm w whole) {ptr i : Nat} {v : UInt8} (hb : w.blocks ptr = some b) (hi : i < b.size) :
    Follows hhdm w whole ((w.store (writeByte w.pmm.mem (b.ptr + i) v)).give ptr
      (some { b with data := Function.update b.data i v })) := by
  have hp : w.part hhdm (.live ptr) = some (ofBlock hhdm b) := part_live hb
  obtain ⟨data, hknown⟩ := h.known hp
  obtain ⟨whole', hrun, hparts⟩ := h.store (ofBlock hhdm { b with data := Function.update b.data i v }) hp rfl
    (hknown.address i) (room hknown.size hi) (fun k _ hk => Known.write (v := v) hk)
  rw [blit_one] at hrun
  refine ⟨whole', hrun, ?_, h.keys_give ?_, h.tied⟩
  · rw [part_give]
    exact hparts
  · intro b' hb'
    rw [← Option.some.inj hb']
    exact h.keys ptr b hb

/-- A step that only moves a block between an owner and a CPU, or a CPU on. -/
theorem follows_moves (hpmm : w'.pmm = w.pmm)
    (hparts : Parts (w'.part hhdm) w.pmm.owned whole)
    (hkeys : ∀ ptr b, w'.blocks ptr = some b → b.ptr = ptr) (htied : ∀ c, Tied (w'.spot c) (w.pmm.doing c)) :
    Follows hhdm w whole w' := by
  refine ⟨whole, ?_, ?_, hkeys, ?_⟩
  · unfold World.whole
    rw [hpmm]
  · rw [hpmm]
    exact hparts
  · rw [hpmm]
    exact htied

/-- A block is passed to `realloc` or `free`. -/
theorem Sim.take (h : Sim hhdm w whole) {ptr : Nat} (hc : w.spot c = .out) (hb : w.blocks ptr = some b)
    (ho : d.old = some b) (hn : d.new hhdm = none) (ht : Tied d (w.pmm.doing c)) :
    Follows hhdm w whole ((w.to c d).give ptr none) := by
  have hp : w.part hhdm (.live ptr) = some (ofBlock hhdm b) := part_live hb
  refine follows_moves rfl ?_ (h.keys_give (by simp)) (tied_spot h.tied ht)
  rw [part_give, part_to_old (by rw [hn, hc]; rfl), ho, Function.update_comm (by simp)]
  exact h.parts.pass hp (by simp [World.part, hc, Spot.old])

/-! ### `alloc` -/

theorem Sim.zeroed (h : Sim hhdm w whole) {size ret count i : Nat} {old : Option Block}
    (hc : w.spot c = .alloc size old) (hd : w.pmm.doing c = .zeroing ret count i) (hi : ¬ i < words count)
    (hfresh : whole ret = none) : Follows hhdm w whole ((w.doing c .idle).to c (.setPages size old ret)) := by
  have htied := h.tiedAt hc
  rw [hd] at htied
  obtain ⟨hn, hcount⟩ := htied
  obtain rfl : count = pagesFor size := by simpa using hcount
  refine ⟨_, .single (.zeroed hd hi), ?_, h.keys, tied_both h.tied ⟨hn, rfl⟩⟩
  rw [part_to_new (by simp [World.doing, hc, Spot.old])]
  exact h.parts.gain (by simp [World.part, hc, Spot.new]) hfresh (pagesFor_eq size) fun _ => rfl

/-- `metadata->pages = page_count`, in zeroed pages. -/
theorem counted {size : Nat} (hz : ∀ j, data j = 0) : Counted size (write64 data 0 (divRoundup size pageSize)) := by
  refine ⟨read64_write64_of_lt ?_, fun j hj => ?_⟩
  · have hlt := divRoundup_page_lt size
    omega
  · rw [write64_out (by omega)]
    exact hz j

theorem Sim.setPages (h : Sim hhdm w whole) {size physPage : Nat} {old : Option Block}
    (hc : w.spot c = .setPages size old physPage) :
    Follows hhdm w whole ((w.store (write64 w.pmm.mem (physPage + hhdm) (divRoundup size pageSize))).to c
      (.setSize size old physPage)) := by
  have htied := h.tiedAt hc
  have hp : w.part hhdm (.new c) = (Spot.setPages size old physPage).new hhdm := part_new hc
  obtain ⟨whole', hrun, hparts⟩ := h.store (f := byteOf (divRoundup size pageSize)) (n := 8)
    ⟨(physPage, divRoundup size pageSize + 1), Counted size⟩ hp rfl rfl (room_meta size (Nat.zero_le _))
    fun k _ hzero => counted hzero
  refine ⟨whole', hrun, ?_, h.keys, tied_spot h.tied htied⟩
  rw [part_to_new (by simp [World.store, hc, Spot.old])]
  exact hparts

theorem Sim.sized (h : Sim hhdm w whole) {size physPage : Nat} {old : Option Block}
    (hc : w.spot c = .setSize size old physPage) :
    ∃ whole', Relation.ReflTransGen (PmmSmp.Quiet hhdm) (w.whole whole)
        ((w.store (write64 w.pmm.mem (physPage + hhdm + 8) size)).whole whole') ∧
      Parts (Function.update (w.part hhdm) (.new c)
        (some (ofBlock hhdm ⟨physPage + hhdm + pageSize, size, fun _ => 0⟩))) w.pmm.owned whole' := by
  have htied := h.tiedAt hc
  have hp : w.part hhdm (.new c) = (Spot.setSize size old physPage).new hhdm := part_new hc
  refine h.store (n := 8) _ hp ?_ rfl (room_meta size le_rfl) (f := byteOf size) ?_
  · simp [ofBlock, Block.range]
  · intro k _ hknows
    exact .made (by omega) htied.1 hknows

/-- A block that a CPU made or changed becomes its owner's. -/
theorem Sim.givesBack (h : Sim hhdm w whole) {part : Slot → Option Part} {rest whole' : Nat → Option PmmSmp.Block}
    (hs : ∀ ptr, s ≠ .live ptr) {p : Part} (hp : w.part hhdm s = some p) (hr : p.range = b.range hhdm)
    (hparts : Parts (Function.update (w.part hhdm) s (some (ofBlock hhdm b))) rest whole')
    (hpart : part = Function.update (w.part hhdm) s none) :
    Parts (Function.update part (.live b.ptr) (some (ofBlock hhdm b))) rest whole' := by
  have hvacant := h.vacant hp (hs b.ptr) (by rw [hr]; rfl)
  have hpass := hparts.pass (Function.update_self ..) (t := .live b.ptr)
    (by rw [Function.update_of_ne (hs b.ptr).symm, hvacant])
  rwa [Function.update_idem, ← hpart] at hpass

theorem Sim.setSize (h : Sim hhdm w whole) {size physPage : Nat} (hc : w.spot c = .setSize size none physPage) :
    Follows hhdm w whole (((w.store (write64 w.pmm.mem (physPage + hhdm + 8) size)).to c .out).give
      (physPage + hhdm + pageSize) (some ⟨physPage + hhdm + pageSize, size, fun _ => 0⟩)) := by
  obtain ⟨whole', hrun, hparts⟩ := h.sized hc
  refine ⟨whole', hrun, ?_, h.keys_give (by simp), tied_spot h.tied trivial⟩
  have hp : w.part hhdm (.new c) = (Spot.setSize size none physPage).new hhdm := part_new hc
  rw [part_give]
  refine h.givesBack (by simp) hp ?_ hparts ?_
  · simp [Block.range]
  · rw [part_to_new (by simp [World.store, hc, Spot.old])]
    rfl

theorem Sim.setSizeGrown (h : Sim hhdm w whole) {size physPage : Nat}
    (hc : w.spot c = .setSize size (some b) physPage) : Follows hhdm w whole
      ((w.store (write64 w.pmm.mem (physPage + hhdm + 8) size)).to c (.limit size b physPage)) := by
  have htied := h.tiedAt hc
  obtain ⟨whole', hrun, hparts⟩ := h.sized hc
  refine ⟨whole', hrun, ?_, h.keys, tied_spot h.tied htied.2⟩
  rw [part_to_new (by simp [World.store, hc, Spot.old])]
  exact hparts

/-! ### `realloc` -/

/-- The bytes of a block, and of the pages behind them. -/
theorem Sim.memory (h : Sim hhdm w whole) (hint : Intact hhdm w whole) (hp : w.part hhdm s = some (ofBlock hhdm b))
    {k : PmmSmp.Block} (hk : whole (b.range hhdm).1 = some k) {size i : Nat} (hn : NoWrap size)
    (hpages : divRoundup b.size pageSize = divRoundup size pageSize) (hi : i < size) :
    w.pmm.mem (b.ptr + i) = k.data (pageSize + i) := by
  obtain ⟨data, hknown⟩ := h.known hp
  obtain ⟨k', hk', -, hbytes⟩ := h.bytes hint hp
  obtain rfl : k' = k := Option.some.inj (hk'.symm.trans hk)
  rw [← hknown.address]
  refine hbytes (pageSize + i) ?_
  have hroom := room hn (i := i) (n := 1) hi
  rw [← hpages] at hroom
  exact hroom

-- the address is a variable here: the kernel must not compute with the difference
theorem Sim.resize (h : Sim hhdm w whole) (hint : Intact hhdm w whole) {newSize a : Nat}
    (hc : w.spot c = .resize newSize b) (ha : b.ptr - pageSize + 8 = a) :
    Follows hhdm w whole (((w.store (write64 w.pmm.mem a newSize)).to c .out).give b.ptr
      (some (resized b newSize w.pmm.mem))) := by
  have htied := h.tiedAt hc
  obtain ⟨hn, hpages, -⟩ := htied
  have hp : w.part hhdm (.old c) = some (ofBlock hhdm b) := part_old hc
  obtain ⟨data, hknown⟩ := h.known hp
  have hrange : (resized b newSize w.pmm.mem).range hhdm = b.range hhdm := by
    simp only [Block.range, resized, hpages]
  have hq : ∀ k, whole (b.range hhdm).1 = some k → Known hhdm b k.data →
      Known hhdm (resized b newSize w.pmm.mem) (write64 k.data 8 newSize) :=
    fun k hk hknows => hknows.resized hn hpages fun i hi => h.memory hint hp hk hn hpages hi
  obtain ⟨whole', hrun, hparts⟩ := h.store (ofBlock hhdm (resized b newSize w.pmm.mem)) hp hrange
    ((hknown.inside 8).trans ha) (room_meta _ le_rfl) hq
  refine ⟨whole', hrun, ?_, h.keys_give (by simp [resized]), tied_spot h.tied trivial⟩
  rw [part_give]
  refine h.givesBack (b := resized b newSize w.pmm.mem) (by simp) hp ?_ hparts ?_
  · exact hrange.symm
  · rw [part_to_old (by simp [World.store, hc, Spot.new])]
    rfl

/-- A CPU goes on with the blocks it has. -/
theorem Sim.goesOn (h : Sim hhdm w whole) (ho : d.old = (w.spot c).old) (hn : d.new hhdm = (w.spot c).new hhdm)
    (ht : Tied d (w.pmm.doing c)) : Follows hhdm w whole (w.to c d) := by
  refine follows_moves rfl ?_ h.keys (tied_spot h.tied ht)
  rw [part_to_same ho hn]
  exact h.parts

theorem Sim.check (h : Sim hhdm w whole) (hint : Intact hhdm w whole) {newSize : Nat}
    (hc : w.spot c = .check newSize b) :
    (read64 w.pmm.mem (b.ptr - pageSize) = divRoundup newSize pageSize →
      Follows hhdm w whole (w.to c (.resize newSize b))) ∧
    Follows hhdm w whole (w.to c (.grow newSize b)) := by
  have htied := h.tiedAt hc
  have hp : w.part hhdm (.old c) = some (ofBlock hhdm b) := part_old hc
  refine ⟨fun hread => ?_, h.goesOn (by rw [hc]; rfl) (by rw [hc]; rfl) htied⟩
  rw [(h.blockOk hint hp).metaPages] at hread
  exact h.goesOn (by rw [hc]; rfl) (by rw [hc]; rfl) ⟨htied.1, hread, htied.2⟩

theorem Sim.limit (h : Sim hhdm w whole) (hint : Intact hhdm w whole) {newSize physPage : Nat}
    (hc : w.spot c = .limit newSize b physPage) : Follows hhdm w whole
      (w.to c (.copy newSize b physPage (min newSize (read64 w.pmm.mem (b.ptr - pageSize + 8))) 0)) := by
  have htied := h.tiedAt hc
  have hp : w.part hhdm (.old c) = some (ofBlock hhdm b) := part_old hc
  rw [(h.blockOk hint hp).metaSize]
  refine h.goesOn (by rw [hc]; rfl) ?_ ⟨rfl, Nat.zero_le _, htied⟩
  simp [hc, Spot.new]

theorem Sim.copy (h : Sim hhdm w whole) (hint : Intact hhdm w whole) {newSize physPage n i : Nat}
    (hc : w.spot c = .copy newSize b physPage n i) (hi : i < n) : Follows hhdm w whole
      ((w.store (writeByte w.pmm.mem (physPage + hhdm + pageSize + i) (w.pmm.mem (b.ptr + i)))).to c
        (.copy newSize b physPage n (i + 1))) := by
  have htied := h.tiedAt hc
  obtain ⟨rfl, -, hidle⟩ := htied
  have hold : w.part hhdm (.old c) = some (ofBlock hhdm b) := part_old hc
  have hnew : w.part hhdm (.new c) = (Spot.copy newSize b physPage (min newSize b.size) i).new hhdm :=
    part_new hc
  obtain ⟨data, hknown⟩ := h.known hnew
  have hcopied : Function.update (fun j => if j < i then b.data j else 0) i (b.data i) =
      fun j => if j < i + 1 then b.data j else 0 := by
    funext j
    by_cases hj : j = i
    · subst hj
      simp
    · rw [Function.update_of_ne hj]
      exact if_congr (by omega) rfl rfl
  rw [(h.blockOk hint hold).data i (by omega)]
  obtain ⟨whole', hrun, hparts⟩ := h.store (ofBlock hhdm ⟨physPage + hhdm + pageSize, newSize,
      Function.update (fun j => if j < i then b.data j else 0) i (b.data i)⟩) hnew rfl (hknown.address i)
    (room hknown.size (n := 1) (by simp only; omega)) (fun k _ hk => Known.write (v := b.data i) (i := i) hk)
  rw [blit_one] at hrun
  refine ⟨whole', hrun, ?_, h.keys, tied_spot h.tied ⟨rfl, hi, hidle⟩⟩
  rw [part_to_new (by simp [World.store, hc, Spot.old])]
  rw [hcopied] at hparts
  exact hparts

theorem Sim.copied (h : Sim hhdm w whole) {newSize physPage n i : Nat} (hc : w.spot c = .copy newSize b physPage n i)
    (hi : ¬ i < n) :
    Follows hhdm w whole (w.to c (.free b (some (moved b (physPage + hhdm + pageSize) newSize)))) := by
  have htied := h.tiedAt hc
  obtain ⟨rfl, hle, hidle⟩ := htied
  obtain rfl : i = min newSize b.size := by omega
  refine h.goesOn (by rw [hc]; rfl) ?_ hidle
  rw [hc]
  rfl

/-! ### `free` -/

theorem Sim.release (h : Sim hhdm w whole) (hint : Intact hhdm w whole) {ret : Option Block}
    (hc : w.spot c = .free b ret) : Follows hhdm w whole ((w.doing c (.filling (b.ptr - pageSize - hhdm)
      ((read64 w.pmm.mem (b.ptr - pageSize) + 1) % 2 ^ 64) 0)).to c (.freeing ret)) := by
  have htied := h.tiedAt hc
  have hp : w.part hhdm (.old c) = some (ofBlock hhdm b) := part_old hc
  obtain ⟨-, k, hk, hpages, -⟩ := h.parts.has hp
  have hcount : (read64 w.pmm.mem (b.ptr - pageSize) + 1) % 2 ^ 64 = k.pages := by
    rw [(h.blockOk hint hp).metaPages, hpages]
    exact pagesFor_eq b.size
  rw [hcount]
  refine ⟨_, .single (.free htied hk), ?_, h.keys, tied_both h.tied trivial⟩
  rw [part_to_old (by simp [World.doing, hc, Spot.new])]
  exact h.parts.lose hp

/-! ### Pages that are not the heap's -/

/-- Pages of other users come, go and change: the heap has none of them. -/
theorem Parts.put {part : Slot → Option Part} {rest : Nat → Option PmmSmp.Block} (h : Parts part rest whole)
    {base : Nat} (hfree : whole base = none ∨ ∃ k, rest base = some k) (o : Option PmmSmp.Block) :
    Parts part (Function.update rest base o) (Function.update whole base o) := by
  refine Split.put h ?_ o
  rcases hfree with hnone | ⟨k, hk⟩
  · exact Split.fresh h hnone
  · exact (Split.unshared h hk).1

theorem Sim.pageWrite (h : Sim hhdm w whole) {base j : Nat} {k : PmmSmp.Block} {v : UInt8}
    (hk : w.pmm.owned base = some k) (hj : j < k.pages * pageSize) : Follows hhdm w whole { w with pmm := { w.pmm with
      mem := writeByte w.pmm.mem (base + hhdm + j) v
      owned := Function.update w.pmm.owned base (some { k with data := Function.update k.data j v }) } } :=
  ⟨_, .single (.write (Split.unshared h.parts hk).2 hj), h.parts.put (.inr ⟨k, hk⟩) _, h.keys, h.tied⟩

theorem Sim.quiet (h : Sim hhdm w whole) (hint : Intact hhdm w whole)
    (hfresh : ∀ c ret count i, w.pmm.doing c = .zeroing ret count i → whole ret = none) (hq : Quiet hhdm w w') :
    Follows hhdm w whole w' := by
  cases hq with
  | pageWrite hk hj => exact h.pageWrite hk hj
  | pageZeroed hc hd hi =>
    exact ⟨_, .single (.zeroed hd hi), h.parts.put (.inl (hfresh _ _ _ _ hd)) _, h.keys,
      tied_doing h.tied (by rw [hc]; trivial)⟩
  | pageFree hc hd hk =>
    exact ⟨_, .single (.free hd (Split.unshared h.parts hk).2), h.parts.put (.inr ⟨_, hk⟩) _, h.keys,
      tied_doing h.tied (by rw [hc]; trivial)⟩
  | @zero c _ _ _ hd hi =>
    exact ⟨_, .single (.zero hd hi), h.parts, h.keys, tied_doing h.tied (tied_zeroing (hd ▸ h.tied c) _)⟩
  | @fill c _ _ _ hd hi =>
    exact ⟨_, .single (.fill hd hi), h.parts, h.keys, tied_doing h.tied (tied_freeing (.inl (hd ▸ h.tied c)) _)⟩
  | write hb hi => exact h.write hb hi
  | zeroed hc hd hi => exact h.zeroed hc hd hi (hfresh _ _ _ _ hd)
  | setPages hc => exact h.setPages hc
  | setSize hc => exact h.setSize hc
  | setSizeGrown hc => exact h.setSizeGrown hc
  | realloc hc hd hb hn => exact h.take hc hb rfl rfl ⟨hn, hd⟩
  | same hc hr => exact (h.check hint hc).1 hr
  | differs hc _ => exact (h.check hint hc).2
  | resize hc => exact h.resize hint hc rfl
  | limit hc => exact h.limit hint hc
  | copy hc hi => exact h.copy hint hc hi
  | copied hc hi => exact h.copied hc hi
  | free hc hd hb => exact h.take hc hb rfl rfl hd
  | release hc => exact h.release hint hc

/-! ### At the lock -/

theorem Sim.invoke (h : Sim hhdm w whole) {op : Op} (hi : Invoke c op w w') :
    PmmSmp.Invoke c op (w.whole whole) (w'.whole whole) ∧ Sim hhdm w' whole := by
  have hpages : ∀ size, 1 ≤ pagesFor size := fun size => by rw [pagesFor_eq]; omega
  cases hi with
  | pages hc hd hcount =>
    exact ⟨.alloc hd hcount, h.parts, h.keys, tied_doing h.tied (by rw [hc]; trivial)⟩
  | free hd hi =>
    exact ⟨.free hd hi, h.parts, h.keys, tied_doing h.tied (tied_freeing (.inl (hd ▸ h.tied c)) _)⟩
  | alloc hc hd hn =>
    refine ⟨.alloc hd (hpages _), ?_, h.keys, tied_both h.tied ⟨hn, .inl rfl⟩⟩
    rw [part_to_same (by simp [World.doing, hc, Spot.old]) (by simp [World.doing, hc, Spot.new])]
    exact h.parts
  | grow hc =>
    have htied := h.tiedAt hc
    refine ⟨.alloc htied.2 (hpages _), ?_, h.keys, tied_both h.tied ⟨htied.1, .inl rfl⟩⟩
    rw [part_to_same (by simp [World.doing, hc, Spot.old]) (by simp [World.doing, hc, Spot.new])]
    exact h.parts

theorem Sim.resume (h : Sim hhdm w whole) {op : Op} {ret : Nat}
    (hfresh : ∀ count, w.pmm.doing c = .allocating count false → whole ret = none)
    (hr : Resume hhdm c op ret w w') :
    ∃ whole', PmmSmp.Resume hhdm c op ret (w.whole whole) (w'.whole whole') ∧ Sim hhdm w' whole' := by
  cases hr with
  | alloc hd =>
    refine ⟨whole, .alloc hd, h.parts, h.keys, tied_doing h.tied ?_⟩
    have htied := h.tied c
    rw [hd] at htied
    cases hs : w.spot c <;> simp_all [Tied]
  | allocNozero hc hd =>
    exact ⟨_, .allocNozero hd, h.parts.put (.inl (hfresh _ hd)) _, h.keys, tied_doing h.tied (by rw [hc]; trivial)⟩
  | pageFreed hc hd => exact ⟨whole, .free hd, h.parts, h.keys, tied_doing h.tied (by rw [hc]; trivial)⟩
  | freed hc hd =>
    refine ⟨whole, .free hd, ?_, h.keys, tied_both h.tied trivial⟩
    rw [part_to_same (by simp [World.doing, hc, Spot.old]) (by simp [World.doing, hc, Spot.new])]
    exact h.parts
  | @reallocated _ _ b hc hd =>
    refine ⟨whole, .free hd, ?_, h.keys_give (by simp), tied_both h.tied trivial⟩
    have hp : w.part hhdm (.new c) = some (ofBlock hhdm b) := part_new hc
    rw [part_give, part_to_new (by simp [World.doing, hc, Spot.old])]
    exact h.parts.pass hp (h.vacant hp (by simp) rfl)

/-! ### Holders -/

/-- A part of the heap is a block of pages. -/
def place (r : Range) : Holder → PmmSmp.Holder
  | .pages u => u
  | .heap _ => .block r.1

variable {u v : Holder} {r q : Range}

theorem holds_heap (hu : w.holds hhdm (.heap s) = some r) : ∃ p, w.part hhdm s = some p ∧ p.range = r := by
  simpa [World.holds] using hu

theorem Sim.pages (h : Sim hhdm w whole) {o : PmmSmp.Holder} (ho : w.pmm.holds o = some r) :
    (w.whole whole).holds o = some r := by
  cases o with
  | cpu c => exact ho
  | block base =>
    obtain ⟨k, hk, rfl⟩ : ∃ k, w.pmm.owned base = some k ∧ (base, k.pages) = r := by
      simpa [PmmSmp.World.holds] using ho
    simp [PmmSmp.World.holds, World.whole, (Split.unshared h.parts hk).2]

theorem Sim.place (h : Sim hhdm w whole) (hu : w.holds hhdm u = some r) :
    (w.whole whole).holds (place r u) = some r := by
  cases u with
  | pages o => exact h.pages hu
  | heap s =>
    obtain ⟨p, hp, rfl⟩ := holds_heap hu
    obtain ⟨-, k, hk, hpages, -⟩ := h.parts.has hp
    simp [PmmSmp.World.holds, World.whole, HeapSmp.place, hk, hpages]

/-- Whatever the page allocator has given out is another user's, or a part of the heap. -/
theorem Sim.placed (h : Sim hhdm w whole) {o : PmmSmp.Holder} (ho : (w.whole whole).holds o = some r) :
    ∃ u, w.holds hhdm u = some r := by
  cases o with
  | cpu c => exact ⟨.pages (.cpu c), ho⟩
  | block base =>
    obtain ⟨k, hk, rfl⟩ : ∃ k, whole base = some k ∧ (base, k.pages) = r := by
      simpa [PmmSmp.World.holds, World.whole] using ho
    by_cases hex : ∃ s p, w.part hhdm s = some p ∧ p.range.1 = base
    · obtain ⟨s, p, hp, rfl⟩ := hex
      obtain ⟨-, k', hk', hpages, -⟩ := h.parts.has hp
      obtain rfl : k' = k := Option.some.inj (hk'.symm.trans hk)
      exact ⟨.heap s, by simp [World.holds, hp, hpages]⟩
    · have hplain : whole base = w.pmm.owned base := by
        refine Split.plain h.parts fun s q hq => ?_
        obtain ⟨p, hp, rfl⟩ : ∃ p, w.part hhdm s = some p ∧ p.share = q := by simpa using hq
        exact fun he => hex ⟨s, p, hp, he⟩
      exact ⟨.pages (.block base), by simp [World.holds, PmmSmp.World.holds, ← hplain, hk]⟩

end

/-! ## Runs -/

def World.boot (mem : Mem) : World := ⟨.boot mem, fun _ => .out, fun _ => none⟩

/-- The machine after `pmm_init`, with every CPU outside of the heap. -/
def boot (hhdm : Nat) (memmap : List MemmapEntry) (mem : Mem) : State PmmState Op Local World :=
  .start (.boot mem) (pmmInit hhdm memmap mem)

def Sees (hhdm : Nat) (w : World) (g : PmmSmp.World) : Prop := ∃ whole, g = w.whole whole ∧ Sim hhdm w whole

variable {hhdm}

/-- The heap refines a user of pages. -/
theorem refines (p0 : PmmState) : Refines machine (client hhdm) (PmmSmp.client hhdm) (Owned hhdm p0) (Sees hhdm) := by
  refine ⟨?_, ?_, ?_⟩
  · rintro t g g₁ hok ⟨whole, he, hsim⟩ hq
    have hint : Intact hhdm g whole := by
      have hintact := hok.intact
      rwa [he] at hintact
    have hfresh : ∀ c ret count i, g.pmm.doing c = .zeroing ret count i → whole ret = none := by
      intro c ret count i hd
      have hheld : t.client.holds (.cpu c) = some (ret, count) := by
        rw [he]
        exact congrArg Doing.range hd
      have hnone := hok.unowned hheld (by simp)
      rwa [he] at hnone
    obtain ⟨whole', hrun, hsim'⟩ := hsim.quiet hint hfresh hq
    exact ⟨_, he ▸ hrun, whole', rfl, hsim'⟩
  · rintro t g g₁ i op hok ⟨whole, he, hsim⟩ hc
    obtain ⟨hcall, hsim'⟩ := hsim.invoke hc
    exact ⟨_, he ▸ hcall, whole, rfl, hsim'⟩
  · rintro t g g₁ i op l r hok ⟨whole, he, hsim⟩ hi hs hr hc
    have hfresh : ∀ count, g.pmm.doing i = .allocating count false → whole r = none := by
      intro count hd
      have hnone := hok.fresh i op l r count false hi hs hr (by rw [he]; exact hd)
      rwa [he] at hnone
    obtain ⟨whole', hback, hsim'⟩ := hsim.resume hfresh hc
    exact ⟨_, he ▸ hback, whole', rfl, hsim'⟩

section
variable {s : State PmmState Op Local World} {c ret ptr count size i k : Nat} {old : Option Block} {w : World}

/-- Some steps lead to the block. -/
def Gets (hhdm ptr size : Nat) (s : State PmmState Op Local World) : Prop :=
  ∃ s', Relation.ReflTransGen (Step machine (client hhdm)) s s' ∧
    s'.client.blocks ptr = some ⟨ptr, size, fun _ => 0⟩

theorem Gets.head {s' : State PmmState Op Local World} (hstep : Relation.ReflTransGen (Step machine (client hhdm)) s s')
    (h : Gets hhdm ptr size s') : Gets hhdm ptr size s := by
  obtain ⟨t, hrun, hb⟩ := h
  exact ⟨t, hstep.trans hrun, hb⟩

end

end Cynix.Lib.HeapSmp
