import Cynix.Base.Holdings
import Cynix.Mm.PmmRuns
import Cynix.Mm.PmmSection

/-! # The page allocator on many CPUs

`pmm_alloc`, `pmm_alloc_nozero` and `pmm_free` called from any number of CPUs,
one access at a time. Only the bitmap and the cursor are behind `pmm_lock`: the
loops that clear new pages and fill freed ones run outside of it, one 64-bit
store at a time, while other CPUs allocate, free and write to their pages.
A block carries the bytes its owner knows it to hold. -/
namespace Cynix.Mm.PmmSmp
open Cynix.Base.Bytes Cynix.Base.Pages Cynix.Base.Holdings Cynix.Base.Sections Cynix.Lib.Misc
open Cynix.Mm.Pmm
open Cynix.Mm.PmmRuns (InRange Disjoint)
open Cynix.Mm.PmmSection (Op Local machine spec)

/-- Where a CPU is in the allocator, outside of the locked part. -/
inductive Doing where
  | idle
  /-- In `pmm_alloc_nozero`, called by `pmm_alloc` where `zero` says so. -/
  | allocating (count : Nat) (zero : Bool)
  /-- The loop of `pmm_alloc`. -/
  | zeroing (ret count i : Nat)
  /-- The loop of `pmm_free`. -/
  | filling (page count i : Nat)
  | freeing (page count : Nat)

structure Block where
  pages : Nat
  data : Nat → UInt8

structure World where
  mem : Mem
  /-- The blocks that calls returned and that were not passed to `pmm_free`, by their address. -/
  owned : Nat → Option Block
  doing : Nat → Doing

/-- The bound of the two loops. -/
def words (count : Nat) : Nat := count * pageSize % 2 ^ 64 / 8

inductive Quiet (hhdm : Nat) : World → World → Prop
  | write {w : World} {base j : Nat} {b : Block} {v : UInt8} : w.owned base = some b → j < b.pages * pageSize →
      Quiet hhdm w { w with
        mem := writeByte w.mem (base + hhdm + j) v
        owned := Function.update w.owned base (some { b with data := Function.update b.data j v }) }
  | zero {w : World} {c ret count i : Nat} : w.doing c = .zeroing ret count i → i < words count →
      Quiet hhdm w { w with
        mem := write64 w.mem (ret + hhdm + 8 * i) 0
        doing := Function.update w.doing c (.zeroing ret count (i + 1)) }
  | zeroed {w : World} {c ret count i : Nat} : w.doing c = .zeroing ret count i → ¬ i < words count →
      Quiet hhdm w { w with
        owned := Function.update w.owned ret (some ⟨count, fun _ => 0⟩)
        doing := Function.update w.doing c .idle }
  /-- The call of `pmm_free`: the block is its caller's no longer. -/
  | free {w : World} {c page : Nat} {b : Block} : w.doing c = .idle → w.owned page = some b →
      Quiet hhdm w { w with
        owned := Function.update w.owned page none
        doing := Function.update w.doing c (.filling page b.pages 0) }
  | fill {w : World} {c page count i : Nat} : w.doing c = .filling page count i → i < words count →
      Quiet hhdm w { w with
        mem := write64 w.mem (page + hhdm + 8 * i) 0xaaaaaaaaaaaaaaaa
        doing := Function.update w.doing c (.filling page count (i + 1)) }

/-- A request for no pages is left out: it divides by zero. -/
inductive Invoke : Nat → Op → World → World → Prop
  | alloc {w : World} {c count : Nat} {zero : Bool} : w.doing c = .idle → 1 ≤ count →
      Invoke c (.alloc count) w { w with doing := Function.update w.doing c (.allocating count zero) }
  | free {w : World} {c page count i : Nat} : w.doing c = .filling page count i → ¬ i < words count →
      Invoke c (.free (page / pageSize) count) w
        { w with doing := Function.update w.doing c (.freeing page count) }

inductive Resume (hhdm : Nat) : Nat → Op → Nat → World → World → Prop
  | alloc {c : Nat} {op : Op} {ret : Nat} {w : World} {count : Nat} : w.doing c = .allocating count true →
      Resume hhdm c op ret w { w with doing := Function.update w.doing c (.zeroing ret count 0) }
  | allocNozero {c : Nat} {op : Op} {ret : Nat} {w : World} {count : Nat} : w.doing c = .allocating count false →
      Resume hhdm c op ret w { w with
        owned := Function.update w.owned ret (some ⟨count, fun j => w.mem (ret + hhdm + j)⟩)
        doing := Function.update w.doing c .idle }
  | free {c : Nat} {op : Op} {ret : Nat} {w : World} {page count : Nat} : w.doing c = .freeing page count →
      Resume hhdm c op ret w { w with doing := Function.update w.doing c .idle }

def client (hhdm : Nat) : Client PmmState World Op Nat := ⟨fun _ => Quiet hhdm, Invoke, Resume hhdm⟩

/-! ## Who holds which pages -/

inductive Holder where
  | block (base : Nat)
  | cpu (c : Nat)
  deriving DecidableEq

/-- The pages a CPU has in hand between the bitmap and their owner. -/
def Doing.range : Doing → Option Range
  | .zeroing ret count _ => some (ret, count)
  | .filling page count _ => some (page, count)
  | .freeing page count => some (page, count)
  | _ => none

theorem range_idle : Doing.idle.range = none := rfl

def World.holds (w : World) : Holder → Option Range
  | .block base => (w.owned base).map fun b => (base, b.pages)
  | .cpu c => (w.doing c).range

variable {w w' : World} {m : Mem} {c base : Nat} {d : Doing} {o : Option Block}

theorem holds_doing : ({ w with mem := m, doing := Function.update w.doing c d } : World).holds =
    Function.update w.holds (.cpu c) d.range := by
  funext u
  cases u with
  | block base => exact (Function.update_of_ne (by simp) ..).symm
  | cpu i =>
    by_cases hi : i = c
    · subst hi
      simp [World.holds]
    · rw [Function.update_of_ne (by simpa using hi)]
      simp [World.holds, Function.update_of_ne hi]

theorem holds_owned (base : Nat) : ({ w with mem := m, owned := Function.update w.owned base o } : World).holds =
    Function.update w.holds (.block base) (o.map fun b => (base, b.pages)) := by
  funext u
  cases u with
  | cpu c => exact (Function.update_of_ne (by simp) ..).symm
  | block i =>
    by_cases hi : i = base
    · subst hi
      simp [World.holds]
    · rw [Function.update_of_ne (by simpa using hi)]
      simp [World.holds, Function.update_of_ne hi]

theorem holds_both :
    ({ w with owned := Function.update w.owned base o, doing := Function.update w.doing c d } : World).holds =
      Function.update (Function.update w.holds (.cpu c) d.range) (.block base) (o.map fun b => (base, b.pages)) := by
  have h := holds_owned base (w := { w with doing := Function.update w.doing c d }) (m := w.mem) (o := o)
  rwa [holds_doing] at h

/-! ## The invariant -/

/-- What a CPU asks the lock for is what it is doing. -/
def Agrees (d : Doing) : Op → Prop
  | .alloc count => 1 ≤ count ∧ ∃ zero, d = .allocating count zero
  | .free first count => ∃ page, d = .freeing page count ∧ first = page / pageSize

structure Ok (hhdm : Nat) (p0 pmm : PmmState) (live : List Range) (phase : Nat → Phase Op Empty)
    (w : World) : Prop where
  pmm : PmmRuns.Inv p0 pmm live
  account : Account w.holds live
  intact : ∀ base b, w.owned base = some b →
    ∀ j, j < b.pages * pageSize → w.mem (base + hhdm + j) = b.data j
  zeroing : ∀ c ret count i, w.doing c = .zeroing ret count i →
    ∀ j, j < 8 * i → j < count * pageSize → w.mem (ret + hhdm + j) = 0
  agree : ∀ c op, phase c = .want op → Agrees (w.doing c) op

variable {hhdm : Nat} {p0 pmm pmm' : PmmState} {live : List Range} {phase : Nat → Phase Op Empty}
  {u v : Holder} {r q : Range}

/-- Two holders' pages share no byte. -/
theorem Ok.apart (hok : Ok hhdm p0 pmm live phase w) (hu : w.holds u = some r) (hv : w.holds v = some q)
    (hne : u ≠ v) : Apart r q := by
  have hr := hok.account.mem.mpr ⟨u, hu⟩
  have hq := hok.account.mem.mpr ⟨v, hv⟩
  have hrq : r ≠ q := by
    rintro rfl
    exact hne (hok.account.unique hu hv)
  have hsymm : Std.Symm Disjoint := ⟨fun _ _ h k hk hk' => h k hk' hk⟩
  obtain ⟨hr1, hr2, -⟩ := hok.pmm.shape r hr
  obtain ⟨hq1, hq2, -⟩ := hok.pmm.shape q hq
  exact PmmRuns.apart_of_disjoint hr1 hq1 hr2 hq2 (hok.pmm.apart.forall hr hq hrq)

/-- Stores to the pages of `u` change nothing that others rely on. -/
theorem Ok.store (hok : Ok hhdm p0 pmm live phase w) (hu : w.holds u = some r)
    (hm : ∀ a, ¬ OwnsAt hhdm r a → m a = w.mem a) :
    (∀ base b, w.owned base = some b → .block base ≠ u →
      ∀ j, j < b.pages * pageSize → m (base + hhdm + j) = b.data j) ∧
    ∀ c ret count i, w.doing c = .zeroing ret count i → .cpu c ≠ u →
      ∀ j, j < 8 * i → j < count * pageSize → m (ret + hhdm + j) = 0 := by
  have hkeep : ∀ {v q j}, w.holds v = some q → v ≠ u → j < q.2 * pageSize →
      m (q.1 + hhdm + j) = w.mem (q.1 + hhdm + j) := by
    intro v q j hv hne hj
    refine hm _ fun ha => (hok.apart hu hv (Ne.symm hne)).not_ownsAt ha ?_
    unfold OwnsAt
    unfold pageSize at hj
    omega
  refine ⟨?_, ?_⟩
  · intro base b hb hne j hj
    have hv : w.holds (.block base) = some (base, b.pages) := by simp [World.holds, hb]
    rw [hkeep hv hne hj]
    exact hok.intact base b hb j hj
  · intro c ret count i hc hne j hj hj'
    have hv : w.holds (.cpu c) = some (ret, count) := by simp [World.holds, hc, Doing.range]
    rw [hkeep hv hne hj']
    exact hok.zeroing c ret count i hc j hj hj'

theorem agree_doing (hagree : ∀ c op, phase c = .want op → Agrees (w.doing c) op)
    (hc : ∀ op, ¬ Agrees (w.doing c) op) (i : Nat) (op : Op) (hi : phase i = .want op) :
    Agrees (Function.update w.doing c d i) op := by
  by_cases hic : i = c
  · subst hic
    exact absurd (hagree i op hi) (hc op)
  · rw [Function.update_of_ne hic]
    exact hagree i op hi

theorem not_agrees (hd : d = .idle ∨ (∃ a n i, d = .zeroing a n i) ∨ ∃ a n i, d = .filling a n i) (op : Op) :
    ¬ Agrees d op := by
  obtain rfl | ⟨a, n, i, rfl⟩ | ⟨a, n, i, rfl⟩ := hd <;> cases op <;> simp [Agrees]

/-! ## The steps outside of the lock -/

theorem Ok.write (hok : Ok hhdm p0 pmm live phase w) {b : Block} {j : Nat} {x : UInt8}
    (hb : w.owned base = some b) (hj : j < b.pages * pageSize) :
    Ok hhdm p0 pmm live phase { w with
      mem := writeByte w.mem (base + hhdm + j) x
      owned := Function.update w.owned base (some { b with data := Function.update b.data j x }) } := by
  have hu : w.holds (.block base) = some (base, b.pages) := by simp [World.holds, hb]
  obtain ⟨hblocks, hzero⟩ := hok.store (m := writeByte w.mem (base + hhdm + j) x) hu fun a ha => by
    refine if_neg fun hax => ha ?_
    unfold OwnsAt
    unfold pageSize at hj
    omega
  refine ⟨hok.pmm, ?_, ?_, fun c ret count i hc => hzero c ret count i hc (by simp), hok.agree⟩
  · rw [holds_owned base, Option.map_some, ← hu, Function.update_eq_self]
    exact hok.account
  · intro base' b' hb' j' hj'
    change Function.update w.owned base _ base' = some b' at hb'
    by_cases hne : base' = base
    · subst hne
      obtain rfl : { b with data := Function.update b.data j x } = b' := by
        rw [Function.update_self] at hb'
        exact Option.some.inj hb'
      have := hok.intact base' b hb j' hj'
      by_cases hjj : j' = j
      · subst hjj
        simp [writeByte]
      · simp [writeByte, hjj, this]
    · rw [Function.update_of_ne hne] at hb'
      exact hblocks base' b' hb' (by simpa using hne) j' hj'

/-- A store of one of the two loops, to the pages the CPU has in hand. -/
theorem Ok.loopStore (hok : Ok hhdm p0 pmm live phase w) {i x : Nat} (hu : (w.doing c).range = some r)
    (hd : d.range = some r) (hi : i < words r.2) (hc : ∀ op, ¬ Agrees (w.doing c) op)
    (hz : ∀ ret count k, d = .zeroing ret count k → ∀ j, j < 8 * k → j < count * pageSize →
      write64 w.mem (r.1 + hhdm + 8 * i) x (ret + hhdm + j) = 0) :
    Ok hhdm p0 pmm live phase { w with
      mem := write64 w.mem (r.1 + hhdm + 8 * i) x
      doing := Function.update w.doing c d } := by
  have hroom : 8 * i + 8 ≤ r.2 * pageSize := by
    have hle := Nat.mod_le (r.2 * pageSize) (2 ^ 64)
    unfold words at hi
    omega
  obtain ⟨hblocks, hzero⟩ := hok.store (u := .cpu c) (m := write64 w.mem (r.1 + hhdm + 8 * i) x) hu fun a ha => by
    refine write64_out ?_
    unfold OwnsAt at ha
    unfold pageSize at hroom
    omega
  refine ⟨hok.pmm, ?_, fun base b hb => hblocks base b hb (by simp), ?_, agree_doing hok.agree hc⟩
  · rw [holds_doing, hd, ← hu]
    have hsame : Function.update w.holds (.cpu c) (w.doing c).range = w.holds := Function.update_eq_self ..
    rw [hsame]
    exact hok.account
  · intro c' ret count k hc' j hj hj'
    change Function.update w.doing c d c' = _ at hc'
    by_cases hne : c' = c
    · subst hne
      rw [Function.update_self] at hc'
      exact hz ret count k hc' j hj hj'
    · rw [Function.update_of_ne hne] at hc'
      exact hzero c' ret count k hc' (by simpa using hne) j hj hj'

/-- Pages change hands or come and go; no byte of memory changes. -/
theorem Ok.settle {live' : List Range} {phase' : Nat → Phase Op Empty} {owned : Nat → Option Block}
    (hok : Ok hhdm p0 pmm live phase w) (hpmm : PmmRuns.Inv p0 pmm' live')
    (hacc : Account ({ w with owned := owned, doing := Function.update w.doing c d } : World).holds live')
    (howned : ∀ base b, owned base = some b → w.owned base = some b ∨
      ∀ j, j < b.pages * pageSize → w.mem (base + hhdm + j) = b.data j)
    (hd : ∀ ret count i, d = .zeroing ret count i → i = 0)
    (hagree : ∀ i op, phase' i = .want op → Agrees (Function.update w.doing c d i) op) :
    Ok hhdm p0 pmm' live' phase' { w with owned := owned, doing := Function.update w.doing c d } := by
  refine ⟨hpmm, hacc, ?_, ?_, hagree⟩
  · intro base b hb
    rcases howned base b hb with h | h
    · exact hok.intact base b h
    · exact h
  · intro c' ret count i hc' j hj
    change Function.update w.doing c d c' = _ at hc'
    by_cases hne : c' = c
    · subst hne
      rw [Function.update_self] at hc'
      rw [hd ret count i hc'] at hj
      omega
    · rw [Function.update_of_ne hne] at hc'
      exact hok.zeroing c' ret count i hc' j hj

theorem owned_update {b b' : Block} {a : Nat} (h : Function.update w.owned base (some b) a = some b') :
    w.owned a = some b' ∨ a = base ∧ b' = b := by
  by_cases ha : a = base
  · subst ha
    rw [Function.update_self] at h
    exact .inr ⟨rfl, (Option.some.inj h).symm⟩
  · rw [Function.update_of_ne ha] at h
    exact .inl h

theorem not_apart {n m : Nat} (hn : 1 ≤ n) (hm : 1 ≤ m) : ¬ Apart (base, n) (base, m) := by
  intro h
  have ha : OwnsAt 0 (base, n) base := by
    unfold OwnsAt
    omega
  refine h.not_ownsAt ha ?_
  unfold OwnsAt
  omega

/-- No owner has a block at an address that is in another's hands. -/
theorem Ok.unowned (hok : Ok hhdm p0 pmm live phase w) {n : Nat} (hu : w.holds u = some (base, n))
    (hne : u ≠ .block base) : w.holds (.block base) = none := by
  cases hb : w.owned base with
  | none => simp [World.holds, hb]
  | some b =>
    have hv : w.holds (.block base) = some (base, b.pages) := by simp [World.holds, hb]
    have hn := (hok.pmm.shape _ (hok.account.mem.mpr ⟨_, hu⟩)).2.1
    have hp := (hok.pmm.shape _ (hok.account.mem.mpr ⟨_, hv⟩)).2.1
    exact absurd (hok.apart hu hv hne) (not_apart hn hp)

theorem Ok.zeroed (hok : Ok hhdm p0 pmm live phase w) {ret count i : Nat}
    (hc : w.doing c = .zeroing ret count i) (hi : ¬ i < words count) :
    Ok hhdm p0 pmm live phase { w with
      owned := Function.update w.owned ret (some ⟨count, fun _ => 0⟩)
      doing := Function.update w.doing c .idle } := by
  have hu : w.holds (.cpu c) = some (ret, count) := by simp [World.holds, hc, Doing.range]
  refine hok.settle hok.pmm ?_ ?_ (by simp) (agree_doing hok.agree (not_agrees (by simp [hc])))
  · rw [holds_both]
    exact hok.account.pass hu (hok.unowned hu (by simp))
  · intro base b hb
    refine (owned_update hb).imp_right ?_
    rintro ⟨rfl, rfl⟩ j hj
    refine hok.zeroing c base count i hc j ?_ hj
    -- the loop has covered the block: its size does not wrap
    have hsmall := (hok.pmm.shape _ (hok.account.mem.mpr ⟨_, hu⟩)).2.2
    have := hok.pmm.small
    change j < count * pageSize at hj
    unfold words at hi
    unfold pageSize at hi hj hsmall
    omega

theorem Ok.callFree (hok : Ok hhdm p0 pmm live phase w) {b : Block} (hc : w.doing c = .idle)
    (hb : w.owned base = some b) :
    Ok hhdm p0 pmm live phase { w with
      owned := Function.update w.owned base none
      doing := Function.update w.doing c (.filling base b.pages 0) } := by
  have hu : w.holds (.block base) = some (base, b.pages) := by simp [World.holds, hb]
  have hidle : w.holds (.cpu c) = none := by simp [World.holds, hc, Doing.range]
  refine hok.settle hok.pmm ?_ ?_ (by simp) (agree_doing hok.agree (not_agrees (by simp [hc])))
  · rw [holds_both, Option.map_none, Function.update_comm (by simp)]
    exact hok.account.pass hu hidle
  · intro a b' hb'
    by_cases ha : a = base
    · subst ha
      rw [Function.update_self] at hb'
      cases hb'
    · rw [Function.update_of_ne ha] at hb'
      exact .inl hb'

theorem Ok.quiet (hok : Ok hhdm p0 pmm live phase w) (h : Quiet hhdm w w') : Ok hhdm p0 pmm live phase w' := by
  cases h with
  | write hb hj => exact hok.write hb hj
  | @zero c ret count i hc hi =>
    refine hok.loopStore (r := (ret, count)) (by rw [hc]; rfl) rfl hi (not_agrees (by simp [hc])) ?_
    intro ret' count' k hk j hj hj'
    cases hk
    by_cases hlast : j < 8 * i
    · rw [write64_out (by omega)]
      exact hok.zeroing c ret count i hc j hlast hj'
    · rw [write64_in (by omega) (by omega)]
      simp [byteOf]
  | zeroed hc hi => exact hok.zeroed hc hi
  | free hc hb => exact hok.callFree hc hb
  | @fill c page count i hc hi =>
    exact hok.loopStore (r := (page, count)) (by rw [hc]; rfl) rfl hi (not_agrees (by simp [hc])) (by simp)

/-! ## The steps at the lock -/

/-- A CPU goes on with the same pages in hand, or with none. -/
theorem account_doing (hacc : Account w.holds live) (hd : d.range = (w.doing c).range) :
    Account ({ w with doing := Function.update w.doing c d } : World).holds live := by
  have hsame : Function.update w.holds (.cpu c) (w.doing c).range = w.holds := Function.update_eq_self ..
  have h := holds_doing (w := w) (m := w.mem) (c := c) (d := d)
  rw [h, hd, hsame]
  exact hacc

theorem Ok.invoke (hok : Ok hhdm p0 pmm live phase w) {op : Op} (h : Invoke c op w w') :
    Ok hhdm p0 pmm live (Function.update phase c (.want op)) w' := by
  have hphase : ∀ {d : Doing}, Agrees d op → ∀ i op', Function.update phase c (.want op) i = .want op' →
      Agrees (Function.update w.doing c d i) op' := by
    intro d hd i op' hi
    by_cases hic : i = c
    · subst hic
      rw [Function.update_self] at hi ⊢
      cases hi
      exact hd
    · rw [Function.update_of_ne hic] at hi ⊢
      exact hok.agree i op' hi
  cases h with
  | alloc hc hcount =>
    exact hok.settle hok.pmm (account_doing hok.account (by rw [hc]; rfl)) (fun _ _ hb => .inl hb) (by simp)
      (hphase ⟨hcount, _, rfl⟩)
  | free hc hi =>
    exact hok.settle hok.pmm (account_doing hok.account (by rw [hc]; rfl)) (fun _ _ hb => .inl hb) (by simp)
      (hphase ⟨_, rfl, rfl⟩)

/-- A range that was free is in nobody's hands, and nobody has a block at its address. -/
theorem fresh {n : Nat} (hi : PmmRuns.Inv p0 pmm' ((base, n) :: live)) (hacc : Account w.holds live) :
    (base, n) ∉ live ∧ w.holds (.block base) = none := by
  have hcons := List.pairwise_cons.mp hi.apart
  have hfirst : InRange (base, n) (base / pageSize) := by
    have hn := (hi.shape (base, n) (by simp)).2.1
    exact ⟨le_rfl, Nat.lt_add_of_pos_right hn⟩
  refine ⟨fun hm => hcons.1 _ hm _ hfirst hfirst, ?_⟩
  cases hb : w.owned base with
  | none => simp [World.holds, hb]
  | some b =>
    have hm : (base, b.pages) ∈ live := hacc.mem.mpr ⟨.block base, by simp [World.holds, hb]⟩
    have hp := (hi.shape (base, b.pages) (by simp [hm])).2.1
    exact absurd ⟨le_rfl, Nat.lt_add_of_pos_right hp⟩ (hcons.1 _ hm _ hfirst)

theorem Ok.resume (hok : Ok hhdm p0 pmm live phase w) {op : Op} {ret : Nat} (hw : phase c = .want op)
    (hspec : spec op pmm = (some ret, pmm')) (h : Resume hhdm c op ret w w') :
    ∃ live', Ok hhdm p0 pmm' live' (Function.update phase c .out) w' := by
  have hphase : ∀ {d : Doing}, ∀ i op', Function.update phase c .out i = .want op' →
      Agrees (Function.update w.doing c d i) op' := by
    intro d i op' hi
    by_cases hic : i = c
    · subst hic
      rw [Function.update_self] at hi
      cases hi
    · rw [Function.update_of_ne hic] at hi ⊢
      exact hok.agree i op' hi
  have hagree := hok.agree c op hw
  cases h with
  | @alloc count hc =>
    cases op with
    | free => simp [Agrees, hc] at hagree
    | alloc n =>
      obtain ⟨hn, zero, hd⟩ := hagree
      obtain ⟨rfl, -⟩ : count = n ∧ true = zero := by simpa [hc] using hd
      have hpmm := hok.pmm.alloc hn hspec
      have hidle : w.holds (.cpu c) = none := by simp [World.holds, hc, Doing.range]
      refine ⟨_, hok.settle hpmm ?_ (fun _ _ hb => .inl hb) (by simp) hphase⟩
      rw [holds_doing (m := w.mem)]
      exact hok.account.gain hidle (fresh hpmm hok.account).1
  | @allocNozero count hc =>
    cases op with
    | free => simp [Agrees, hc] at hagree
    | alloc n =>
      obtain ⟨hn, zero, hd⟩ := hagree
      obtain ⟨rfl, -⟩ : count = n ∧ false = zero := by simpa [hc] using hd
      have hpmm := hok.pmm.alloc hn hspec
      have hidle : w.holds (.cpu c) = none := by simp [World.holds, hc, Doing.range]
      obtain ⟨hnew, hblock⟩ := fresh hpmm hok.account
      refine ⟨_, hok.settle hpmm ?_ ?_ (by simp) hphase⟩
      · have hsame : Function.update w.holds (.cpu c) none = w.holds := by
          rw [← hidle, Function.update_eq_self]
        rw [holds_both, range_idle, hsame]
        exact hok.account.gain hblock hnew
      · intro base b hb
        refine (owned_update hb).imp_right ?_
        rintro ⟨rfl, rfl⟩ j -
        rfl
  | @free page count hc =>
    cases op with
    | alloc => simp [Agrees, hc] at hagree
    | free first n =>
      obtain ⟨page', hd, rfl⟩ := hagree
      obtain ⟨rfl, rfl⟩ : page = page' ∧ count = n := by simpa [hc] using hd
      cases hspec
      have hu : w.holds (.cpu c) = some (page, count) := by simp [World.holds, hc, Doing.range]
      have hpmm := hok.pmm.free (hok.account.mem.mpr ⟨_, hu⟩)
      refine ⟨_, hok.settle hpmm ?_ (fun _ _ hb => .inl hb) (by simp) hphase⟩
      rw [holds_doing (m := w.mem)]
      exact hok.account.lose hu

/-- Out of memory: the caller never leaves the section, and the allocator is as before. -/
theorem Ok.die (hok : Ok hhdm p0 pmm live phase w) {op : Op} (hspec : spec op pmm = (none, pmm')) :
    Ok hhdm p0 pmm' live (Function.update phase c (.stuck op)) w := by
  cases op with
  | free => cases hspec
  | alloc n =>
    obtain rfl := pmmAllocNozero_none hspec
    refine ⟨hok.pmm, hok.account, hok.intact, hok.zeroing, ?_⟩
    intro i op hi
    by_cases hic : i = c
    · subst hic
      rw [Function.update_self] at hi
      cases hi
    · rw [Function.update_of_ne hic] at hi
      exact hok.agree i op hi

/-! ## Runs -/

def World.boot (mem : Mem) : World := ⟨mem, fun _ => none, fun _ => .idle⟩

theorem Ok.boot (hs : p0.avlPageCount < 2 ^ 52) (hc : p0.lastUsedIndex ≤ p0.avlPageCount) (mem : Mem) :
    Ok hhdm p0 p0 [] (fun _ => .out) (World.boot mem) := by
  have hnone : (World.boot mem).holds = fun _ => none := by
    funext u
    cases u <;> rfl
  refine ⟨.boot hs hc, ?_, by simp [World.boot], by simp [World.boot], by simp⟩
  rw [hnone]
  exact Account.nil

def OkAt (hhdm : Nat) (p0 : PmmState) (t : Coarse PmmState Op World) : Prop :=
  ∃ live, Ok hhdm p0 t.data live t.phase t.client

theorem OkAt.step {t t' : Coarse PmmState Op World} (hok : OkAt hhdm p0 t)
    (h : CoarseStep spec (client hhdm) t t') : OkAt hhdm p0 t' := by
  obtain ⟨live, hok⟩ := hok
  cases h with
  | quiet hq => exact ⟨live, hok.quiet hq⟩
  | invoke _ hc => exact ⟨live, hok.invoke hc⟩
  | run hw hs hc => exact hok.resume hw hs hc
  | die _ hs => exact ⟨live, hok.die hs⟩

theorem OkAt.run {t t' : Coarse PmmState Op World} (hok : OkAt hhdm p0 t)
    (h : Relation.ReflTransGen (CoarseStep spec (client hhdm)) t t') : OkAt hhdm p0 t' := by
  induction h with
  | refl => exact hok
  | tail _ hs ih => exact ih.step hs

/-- The machine after `pmm_init`, with every CPU outside of the allocator. -/
def boot (hhdm : Nat) (memmap : List MemmapEntry) (mem : Mem) : State PmmState Op Local World :=
  .start (.boot mem) (pmmInit hhdm memmap mem)

/-- What holds of the pages in every state of a run. -/
structure Owned (hhdm : Nat) (p0 : PmmState) (s : State PmmState Op Local World) : Prop where
  apart : ∀ u v r q, s.client.holds u = some r → s.client.holds v = some q → u ≠ v → Apart r q
  shape : ∀ u r, s.client.holds u = some r → r.1 % pageSize = 0 ∧ 1 ≤ r.2 ∧
    r.1 / pageSize + r.2 ≤ p0.avlPageCount ∧ ∀ k, InRange r k → bitTest p0.bitmap k = false
  intact : ∀ base b, s.client.owned base = some b →
    ∀ j, j < b.pages * pageSize → s.client.mem (base + hhdm + j) = b.data j
  exact : (∀ c op l, s.phase c ≠ .inside op l) → ∀ k, k < p0.avlPageCount →
    (bitTest s.data.bitmap k = false ↔ bitTest p0.bitmap k = false ∧
      ∀ u r, s.client.holds u = some r → ¬ InRange r k)
  fresh : ∀ c op l ret count zero, s.phase c = .inside op l → machine.step l s.data = none →
    machine.result l = some ret → s.client.doing c = .allocating count zero → s.client.owned ret = none

/-- Pages that a CPU has in hand are no owner's. -/
theorem Owned.unowned {s : State PmmState Op Local World} (h : Owned hhdm p0 s) {n : Nat}
    (hu : s.client.holds u = some (base, n)) (hne : u ≠ .block base) : s.client.owned base = none := by
  cases hb : s.client.owned base with
  | none => rfl
  | some b =>
    have hv : s.client.holds (.block base) = some (base, b.pages) := by simp [World.holds, hb]
    exact absurd (h.apart _ _ _ _ hu hv hne) (not_apart (h.shape _ _ hu).2.1 (h.shape _ _ hv).2.1)

theorem Owned.run {memmap : List MemmapEntry} {mem : Mem} {s : State PmmState Op Local World}
    (h : Relation.ReflTransGen (Step machine (client hhdm)) (boot hhdm memmap mem) s) :
    Owned hhdm (pmmInit hhdm memmap mem) s := by
  obtain ⟨t, hrun, hm⟩ := simulates PmmSection.implements (fun _ _ _ hq => hq) (matches_start _ _) h
  obtain ⟨live, hok⟩ : OkAt hhdm (pmmInit hhdm memmap mem) t :=
    OkAt.run ⟨[], .boot (avlPageCount_lt memmap) (Nat.zero_le _) mem⟩ hrun
  have hlive : ∀ {u r}, s.client.holds u = some r → r ∈ live := by
    intro u r hu
    rw [hm.client] at hu
    exact hok.account.mem.mpr ⟨u, hu⟩
  refine ⟨?_, ?_, ?_, ?_, ?_⟩
  · intro u v r q hu hv hne
    rw [hm.client] at hu hv
    exact hok.apart hu hv hne
  · intro u r hu
    obtain ⟨h1, h2, h3⟩ := hok.pmm.shape r (hlive hu)
    exact ⟨h1, h2, h3, hok.pmm.origin r (hlive hu)⟩
  · intro base b hb
    rw [hm.client] at hb ⊢
    exact hok.intact base b hb
  · intro hnone k hk
    rw [hm.idle hnone, hok.pmm.exact k hk, hm.client]
    refine and_congr_right fun _ => ⟨?_, ?_⟩
    · intro hr u r hu
      exact hr r (hok.account.mem.mpr ⟨u, hu⟩)
    · intro hr r hmem
      obtain ⟨u, hu⟩ := hok.account.mem.mp hmem
      exact hr u r hu
  · intro c op l ret count zero hi he hr hc
    have hspec := PmmSection.implements.complete (hm.busy c op l hi) he
    have hwant : t.phase c = .want op := by rw [← hm.phase, hi, Phase.outer]
    have hagree := hok.agree c op hwant
    rw [hm.client] at hc ⊢
    rw [hc] at hagree
    rw [hr] at hspec
    cases op with
    | free => simp [Agrees] at hagree
    | alloc n =>
      have hnone := (PmmSmp.fresh (hok.pmm.alloc hagree.1 hspec) hok.account).2
      simpa [World.holds] using hnone

/-- CPU 0 is about to take the lock for two pages. -/
def asking (s : State PmmState Op Local World) : State PmmState Op Local World :=
  { s.at 0 (.want (.alloc 2)) with
    client := { s.client with doing := Function.update s.client.doing 0 (.allocating 2 false) } }

end Cynix.Mm.PmmSmp
