import Cynix.Mm.SlabRuns

/-! # The slab allocator on many CPUs

Every CPU runs `slab_alloc`, `slab_realloc` and `slab_free`, one atomic access
to the shared state at a time: the compare-and-swap of `spinlock_test_acq`, the
assignment to `slab->lock` in `create_slab`, each read and write of
`slab->first_free` and of a link, and the release. `ent_size` is not part of
the state: `create_slab` stores the value it was given at start-up. -/
namespace Cynix.Mm.SlabLock
open Cynix.Base.Bytes Cynix.Base.Pages Cynix.Lib.Misc Cynix.Mm.SlabLayout Cynix.Mm.Slab

/-- An object: its address and its cache. -/
structure Obj where
  addr : Nat
  cache : Cache
  deriving DecidableEq

/-- A call of `alloc_from_slab`; `old` is the object that `slab_realloc` is moving to a cache of
larger entries. -/
structure Req where
  cache : Cache
  old : Option Obj
  grows : ∀ o ∈ old, entSize o.cache ≤ entSize cache

/-- `slab_alloc` itself. -/
def Req.alloc (c : Cache) : Req := ⟨c, none, nofun⟩

/-- `slab_alloc` as `slab_realloc` calls it. -/
def Req.move (o : Obj) {newSize : Nat} {c : Cache} (hn : entSize o.cache < newSize)
    (hc : slabFor newSize = some c) : Req :=
  ⟨c, some o, fun _ hq => Option.mem_some.mp hq ▸ hn.le.trans (SlabRuns.slabFor_le hc)⟩

/-- Where a CPU is: each constructor is named after what it does next. In the
refill `r` is the start of the new region; `refilled` tells whether
`create_slab` ran in this call. -/
inductive Pc where
  | idle
  | allocAcquire (a : Req)
  | allocTest (a : Req)
  | refillLock (a : Req)
  | refillPages (a : Req)
  | refillFirst (a : Req) (r : Nat)
  | refillHead (a : Req) (r : Nat)
  | refillHeader (a : Req) (r slabPtr : Nat)
  | refillSkip (a : Req) (r : Nat)
  | refillSkipSet (a : Req) (r v : Nat)
  | refillArr (a : Req) (r : Nat)
  | refillLink (a : Req) (r arr k : Nat)
  | allocRead (a : Req) (refilled : Bool)
  | allocNext (a : Req) (refilled : Bool) (oldFree : Nat)
  | allocSet (a : Req) (refilled : Bool) (oldFree next : Nat)
  | allocRelease (a : Req) (refilled : Bool) (oldFree : Nat)
  /-- The panic inside `pmm_alloc_nozero`. -/
  | panicked (a : Req)
  /-- `memcpy` of `slab_realloc`. -/
  | copy (new old : Obj) (fits : entSize old.cache ≤ entSize new.cache)
  | freeAcquire (o : Obj) (new : Option Obj)
  | freeRead (o : Obj) (new : Option Obj)
  | freeLink (o : Obj) (new : Option Obj) (head : Nat)
  | freeSet (o : Obj) (new : Option Obj)
  | freeRelease (o : Obj) (new : Option Obj)

/-- The cache whose lock the CPU is trying to take. -/
def Pc.wants : Pc → Option Cache
  | .allocAcquire a => some a.cache
  | .freeAcquire o _ => some o.cache
  | _ => none

/-- The cache whose lock the CPU has acquired and not released. -/
def Pc.inside : Pc → Option Cache
  | .allocTest a | .refillLock a | .refillPages a | .refillFirst a _ | .refillHead a _
  | .refillHeader a _ _ | .refillSkip a _ | .refillSkipSet a _ _ | .refillArr a _
  | .refillLink a _ _ _ | .allocRead a _ | .allocNext a _ _ | .allocSet a _ _ _
  | .allocRelease a _ _ | .panicked a => some a.cache
  | .freeRead o _ | .freeLink o _ _ | .freeSet o _ | .freeRelease o _ => some o.cache
  | _ => none

/-- The CPU has passed the assignment to `slab->lock` in `create_slab`. -/
def Pc.refilling : Pc → Bool
  | .refillPages _ | .refillFirst _ _ | .refillHead _ _ | .refillHeader _ _ _ | .refillSkip _ _
  | .refillSkipSet _ _ _ | .refillArr _ _ | .refillLink _ _ _ _ | .panicked _ => true
  | .allocRead _ w | .allocNext _ w _ | .allocSet _ w _ _ | .allocRelease _ w _ => w
  | _ => false

/-- The region the CPU is setting up. -/
def Pc.building : Pc → Option Nat
  | .refillFirst _ r | .refillHead _ r | .refillHeader _ r _ | .refillSkip _ r
  | .refillSkipSet _ r _ | .refillArr _ r | .refillLink _ r _ _ => some r
  | _ => none

/-- The objects in the CPU's hands: allocated and not yet returned to a
client, or given back by one and not yet in the free list. -/
def Pc.hands : Pc → List Obj
  | .allocAcquire a | .allocTest a | .refillLock a | .refillPages a | .refillFirst a _
  | .refillHead a _ | .refillHeader a _ _ | .refillSkip a _ | .refillSkipSet a _ _
  | .refillArr a _ | .refillLink a _ _ _ | .allocRead a _ | .allocNext a _ _ | .allocSet a _ _ _
  | .panicked a => a.old.toList
  | .allocRelease a _ p => ⟨p, a.cache⟩ :: a.old.toList
  | .copy new old _ => [new, old]
  | .freeAcquire o new | .freeRead o new | .freeLink o new _ | .freeSet o new => o :: new.toList
  | .freeRelease _ new => new.toList
  | .idle => []

/-- `regions` logs the regions that are set up; `live` are the objects that
`slab_alloc` or `slab_realloc` has returned and no one has given back. -/
structure State (σ : Type) where
  pc : Nat → Pc
  lock : Cache → Bool
  firstFree : Cache → Nat
  mem : Mem
  pmm : σ
  regions : List Region
  live : List Obj

variable {σ : Type}

def State.goto (s : State σ) (i : Nat) (pc : Pc) : State σ := { s with pc := Function.update s.pc i pc }

/-- `max` and `fact` of `create_slab`. -/
def slabMax (c : Cache) : Nat := ((pageSize * 64 - alignUp 8 (entSize c)) >>> bsr (entSize c)) - 1
def slabFact (c : Cache) : Nat := entSize c >>> 3

/-- The page block behind a region that is set up or being set up. -/
def State.Uses (s : State σ) (r : Nat) : Prop :=
  r ∈ s.regions.map Prod.fst ∨ ∃ i, (s.pc i).building = some r

/-- One atomic step of CPU `i` (`some i`), or of a client or the rest of the kernel (`none`). -/
inductive Step (P : Platform σ) : Option Nat → State σ → State σ → Prop where
  /-- `slab_alloc` of a size that a cache serves; for the size 0 `bsr` is undefined and the
  cache may be any. The calls that return at once change nothing. -/
  | callAlloc {s : State σ} {i size : Nat} {c : Cache} : s.pc i = .idle →
      (size = 0 ∨ slabFor size = some c) →
      Step P (some i) s (s.goto i (.allocAcquire (.alloc c)))
  /-- `slab_free`: the header of the object's region tells its cache. -/
  | callFree {s : State σ} {i : Nat} {o : Obj} {l₁ l₂ : List Obj} {c : Cache} : s.pc i = .idle →
      s.live = l₁ ++ o :: l₂ → P.slabAt (read64 s.mem (regionOf o.addr)) = some c →
      Step P (some i) s { s.goto i (.freeAcquire ⟨o.addr, c⟩ none) with live := l₁ ++ l₂ }
  /-- `slab_realloc` to a size that needs another cache. -/
  | callRealloc {s : State σ} {i newSize : Nat} {o : Obj} {l₁ l₂ : List Obj} {c j : Cache} :
      s.pc i = .idle → s.live = l₁ ++ o :: l₂ →
      P.slabAt (read64 s.mem (regionOf o.addr)) = some c → (hn : entSize c < newSize) →
      (hj : slabFor newSize = some j) →
      Step P (some i) s
        { s.goto i (.allocAcquire (.move ⟨o.addr, c⟩ hn hj)) with live := l₁ ++ l₂ }
  /-- The compare-and-swap fails. -/
  | spin {s : State σ} {i : Nat} {c : Cache} : (s.pc i).wants = some c → s.lock c = true →
      Step P (some i) s s
  | allocAcquire {s : State σ} {i : Nat} {a : Req} : s.pc i = .allocAcquire a →
      s.lock a.cache = false →
      Step P (some i) s
        { s.goto i (.allocTest a) with lock := Function.update s.lock a.cache true }
  | allocEmpty {s : State σ} {i : Nat} {a : Req} : s.pc i = .allocTest a →
      s.firstFree a.cache = 0 → Step P (some i) s (s.goto i (.refillLock a))
  | allocFull {s : State σ} {i : Nat} {a : Req} : s.pc i = .allocTest a →
      s.firstFree a.cache ≠ 0 → Step P (some i) s (s.goto i (.allocRead a false))
  /-- `slab->lock = SPINLOCK_INITIALISER`. -/
  | refillLock {s : State σ} {i : Nat} {a : Req} : s.pc i = .refillLock a →
      Step P (some i) s
        { s.goto i (.refillPages a) with lock := Function.update s.lock a.cache false }
  | refillPages {s : State σ} {i block : Nat} {a : Req} {pmm : σ} : s.pc i = .refillPages a →
      P.pages.alloc 64 s.pmm = some (block, pmm) →
      Step P (some i) s
        { s.goto i (.refillFirst a ((block + P.hhdm) % 2 ^ 64)) with pmm := pmm }
  | refillPanic {s : State σ} {i : Nat} {a : Req} : s.pc i = .refillPages a →
      P.pages.alloc 64 s.pmm = none → Step P (some i) s (s.goto i (.panicked a))
  | refillFirst {s : State σ} {i r : Nat} {a : Req} : s.pc i = .refillFirst a r →
      Step P (some i) s
        { s.goto i (.refillHead a r) with firstFree := Function.update s.firstFree a.cache r }
  | refillHead {s : State σ} {i r : Nat} {a : Req} : s.pc i = .refillHead a r →
      Step P (some i) s (s.goto i (.refillHeader a r (s.firstFree a.cache)))
  | refillHeader {s : State σ} {i r slabPtr : Nat} {a : Req} : s.pc i = .refillHeader a r slabPtr →
      Step P (some i) s
        { s.goto i (.refillSkip a r) with mem := write64 s.mem slabPtr (P.slabPtr a.cache) }
  | refillSkip {s : State σ} {i r : Nat} {a : Req} : s.pc i = .refillSkip a r →
      Step P (some i) s (s.goto i (.refillSkipSet a r (s.firstFree a.cache)))
  | refillSkipSet {s : State σ} {i r v : Nat} {a : Req} : s.pc i = .refillSkipSet a r v →
      Step P (some i) s
        { s.goto i (.refillArr a r) with
          firstFree := Function.update s.firstFree a.cache (v + alignUp 8 (entSize a.cache)) }
  | refillArr {s : State σ} {i r : Nat} {a : Req} : s.pc i = .refillArr a r →
      Step P (some i) s (s.goto i (.refillLink a r (s.firstFree a.cache) 0))
  /-- `arr[i * fact] = &arr[(i + 1) * fact]`. -/
  | refillLink {s : State σ} {i r arr k : Nat} {a : Req} : s.pc i = .refillLink a r arr k →
      k < slabMax a.cache →
      Step P (some i) s
        { s.goto i (.refillLink a r arr (k + 1)) with
          mem := write64 s.mem (arr + 8 * (k * slabFact a.cache))
            (arr + 8 * ((k + 1) * slabFact a.cache)) }
  /-- `arr[max * fact] = NULL`, after which the region is set up. -/
  | refillLast {s : State σ} {i r arr k : Nat} {a : Req} : s.pc i = .refillLink a r arr k →
      ¬ k < slabMax a.cache →
      Step P (some i) s
        { s.goto i (.allocRead a true) with
          mem := write64 s.mem (arr + 8 * (slabMax a.cache * slabFact a.cache)) 0
          regions := (r, a.cache) :: s.regions }
  | allocRead {s : State σ} {i : Nat} {a : Req} {w : Bool} : s.pc i = .allocRead a w →
      Step P (some i) s (s.goto i (.allocNext a w (s.firstFree a.cache)))
  | allocNext {s : State σ} {i p : Nat} {a : Req} {w : Bool} : s.pc i = .allocNext a w p →
      Step P (some i) s (s.goto i (.allocSet a w p (read64 s.mem p)))
  | allocSet {s : State σ} {i p q : Nat} {a : Req} {w : Bool} : s.pc i = .allocSet a w p q →
      Step P (some i) s
        { s.goto i (.allocRelease a w p) with firstFree := Function.update s.firstFree a.cache q }
  | allocReturn {s : State σ} {i p : Nat} {a : Req} {w : Bool} :
      s.pc i = .allocRelease a w p → a.old = none →
      Step P (some i) s
        { s.goto i .idle with
          lock := Function.update s.lock a.cache false
          live := ⟨p, a.cache⟩ :: s.live }
  | allocMove {s : State σ} {i p : Nat} {a : Req} {o : Obj} {w : Bool} :
      s.pc i = .allocRelease a w p → (ho : a.old = some o) →
      Step P (some i) s
        { s.goto i (.copy ⟨p, a.cache⟩ o (a.grows o ho)) with
          lock := Function.update s.lock a.cache false }
  | copy {s : State σ} {i : Nat} {new old : Obj} {fits : entSize old.cache ≤ entSize new.cache} :
      s.pc i = .copy new old fits →
      Step P (some i) s
        { s.goto i (.freeAcquire old (some new)) with
          mem := copyUp s.mem new.addr old.addr (entSize old.cache) }
  | freeAcquire {s : State σ} {i : Nat} {o : Obj} {new : Option Obj} :
      s.pc i = .freeAcquire o new → s.lock o.cache = false →
      Step P (some i) s
        { s.goto i (.freeRead o new) with lock := Function.update s.lock o.cache true }
  | freeRead {s : State σ} {i : Nat} {o : Obj} {new : Option Obj} : s.pc i = .freeRead o new →
      Step P (some i) s (s.goto i (.freeLink o new (s.firstFree o.cache)))
  | freeLink {s : State σ} {i head : Nat} {o : Obj} {new : Option Obj} :
      s.pc i = .freeLink o new head →
      Step P (some i) s { s.goto i (.freeSet o new) with mem := write64 s.mem o.addr head }
  | freeSet {s : State σ} {i : Nat} {o : Obj} {new : Option Obj} : s.pc i = .freeSet o new →
      Step P (some i) s
        { s.goto i (.freeRelease o new) with
          firstFree := Function.update s.firstFree o.cache o.addr }
  | freeRelease {s : State σ} {i : Nat} {o : Obj} {new : Option Obj} :
      s.pc i = .freeRelease o new →
      Step P (some i) s
        { s.goto i .idle with
          lock := Function.update s.lock o.cache false
          live := new.toList ++ s.live }
  /-- The owner of a live object stores a byte in it. -/
  | write {s : State σ} {o : Obj} {k : Nat} {v : UInt8} : o ∈ s.live → k < entSize o.cache →
      Step P none s { s with mem := writeByte s.mem (o.addr + k) v }
  /-- The rest of the kernel uses other pages. -/
  | other {s : State σ} {pmm : σ} {m : Mem} :
      (∀ block, s.Uses ((block + P.hhdm) % 2 ^ 64) → (block, 64) ∈ P.pages.live s.pmm →
        (block, 64) ∈ P.pages.live pmm) →
      (∀ r, s.Uses r → ∀ x, r ≤ x → x < r + regionSize → m x = s.mem x) →
      Step P none s { s with pmm := pmm, mem := m }

/-- The state after `slab_init`, with every CPU idle. -/
def State.ofSlab (st : SlabState σ) : State σ :=
  { pc := fun _ => .idle
    lock := fun c => (st.slabs c).lock
    firstFree := fun c => (st.slabs c).firstFree
    mem := st.mem
    pmm := st.pmm
    regions := st.regions
    live := [] }

/-! ## What should hold -/

/-- At most one CPU is between the acquire and the release of a cache's lock. -/
def Exclusive (s : State σ) : Prop :=
  ∀ i j c, (s.pc i).inside = some c → (s.pc j).inside = some c → i = j

/-- The objects that have been handed out, to clients or within `slab_realloc`, are different. -/
structure Distinct (s : State σ) : Prop where
  live : (s.live.map Obj.addr).Nodup
  hands : ∀ i, ((s.pc i).hands.map Obj.addr).Nodup
  apart : ∀ i, ∀ o ∈ (s.pc i).hands, ∀ q ∈ s.live, o.addr ≠ q.addr
  others : ∀ i j, i ≠ j → ∀ o ∈ (s.pc i).hands, ∀ q ∈ (s.pc j).hands, o.addr ≠ q.addr

/-- The CPU does not try for a lock whose cache another CPU is refilling: from
the assignment in `create_slab` up to the release. -/
def Careful (s : State σ) (i : Nat) : Prop :=
  ∀ c, (s.pc i).wants = some c → ∀ j, (s.pc j).inside = some c → (s.pc j).refilling = false

end Cynix.Mm.SlabLock
