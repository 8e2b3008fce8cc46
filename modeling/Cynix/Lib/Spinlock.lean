import Cynix.Base.Locking
import Cynix.Mm.Slab

/-! # The spinlocks of the kernel

What each entry point does to the interrupt flag and to the kernel's locks
(`lib/spinlock.c`, `lib/printf.c`, `lib/panic.c`, `lib/alloc.c`, `mm/pmm.c`,
`mm/slab.c`, `mm/vmm.c`, `devices/term/term.c`, `sys/idt.c`). A choice stands
for a test on data: the allocator is out of memory, a table is missing, a cache
is empty, the number of characters printed. -/
namespace Cynix.Lib.Spinlock
open Cynix.Base.Locking Cynix.Mm.SlabLayout Cynix.Mm.Slab

inductive Lock where
  | pagemap (n : Nat)
  | slab (c : Cache)
  | idt
  | pmm
  | panic
  | printf
  | term (t : Nat)
  deriving DecidableEq

/-- The order in which locks are taken. -/
def rank : Lock → Nat
  | .pagemap _ | .slab _ | .idt => 0
  | .pmm => 1
  | .panic => 2
  | .printf => 3
  | .term _ => 4

/-- `interrupt_toggle`. -/
abbrev interruptToggle (state : Bool) : Prog Lock Bool := toggleInt state

def termWrite (t : Nat) : Prog Lock Unit := do
  -- `term_init_done == TERM_INIT_NOT_DONE`
  let n ← any
  if n = 0 then pure ()
  else do
    let old ← interruptToggle false
    lock (.term t)
    unlock (.term t)
    let _ ← interruptToggle old

/-- `term_init(true)`: it starts the debug terminal if there is none, and with
it a free lock; flanterm gets no allocator. -/
def termInit : Prog Lock Unit := do
  let n ← any
  if n = 0 then pure () else resetLock (.term 0)

def vprintf : Prog Lock Unit := do
  termInit
  let old ← interruptToggle false
  lock .printf
  let n ← any
  repeatN (termWrite 0) n
  unlock .printf
  let _ ← interruptToggle old

def panic : Prog Lock Unit := do
  let _ ← interruptToggle false
  lock .panic
  vprintf
  vprintf
  vprintf
  vprintf
  -- the register dump, if there is a context
  let n ← any
  if n = 0 then pure () else vprintf
  vprintf
  Prog.halt

def pmmAllocNozero : Prog Lock Unit := do
  let old ← interruptToggle false
  lock .pmm
  let n ← any
  if n = 0 then panic else pure ()
  unlock .pmm
  let _ ← interruptToggle old

def pmmAlloc : Prog Lock Unit := pmmAllocNozero

def pmmFree : Prog Lock Unit := do
  let old ← interruptToggle false
  lock .pmm
  unlock .pmm
  let _ ← interruptToggle old

def alloc : Prog Lock Unit := pmmAlloc

def free : Prog Lock Unit := do
  let n ← any
  if n = 0 then pure () else pmmFree

def realloc : Prog Lock Unit := do
  let n ← any
  if n = 0 then alloc
  else if n = 1 then pure ()
  else do
    alloc
    free

def createSlab (c : Cache) : Prog Lock Unit := do
  resetLock (.slab c)
  pmmAllocNozero

def allocFromSlab (c : Cache) : Prog Lock Unit := do
  lock (.slab c)
  let n ← any
  if n = 0 then createSlab c else pure ()
  unlock (.slab c)

def freeInSlab (c : Cache) : Prog Lock Unit := do
  lock (.slab c)
  unlock (.slab c)

def slabAlloc (size : Nat) : Prog Lock Unit :=
  match slabFor size with
  | some c => allocFromSlab c
  | none => pure ()

/-- `slab_realloc` of an object of the given cache, or of `NULL`. -/
def slabRealloc (obj : Option Cache) (newSize : Nat) : Prog Lock Unit :=
  match obj with
  | none => slabAlloc newSize
  | some c =>
    if entSize c < newSize then do
      slabAlloc newSize
      if slabFor newSize = none then pure () else freeInSlab c
    else pure ()

def slabFree (obj : Option Cache) : Prog Lock Unit :=
  match obj with
  | none => pure ()
  | some c => freeInSlab c

def getNextLevel : Prog Lock Unit := do
  let n ← any
  if n = 0 then pmmAlloc else pure ()

def vmmMapPage (p : Nat) : Prog Lock Unit := do
  let old ← interruptToggle false
  lock (.pagemap p)
  -- with five levels
  let n ← any
  if n = 0 then getNextLevel else pure ()
  getNextLevel
  getNextLevel
  getNextLevel
  unlock (.pagemap p)
  let _ ← interruptToggle old

def vmmMapSpan (p : Nat) : Prog Lock Unit := do
  let n ← any
  repeatN (vmmMapPage p) n

def idtAllocateVector : Prog Lock Unit := do
  lock .idt
  let n ← any
  if n = 0 then panic else pure ()
  unlock .idt

inductive Call where
  | pmmAlloc
  | pmmAllocNozero
  | pmmFree
  | alloc
  | realloc
  | free
  | slabAlloc (size : Nat)
  | slabRealloc (obj : Option Cache) (newSize : Nat)
  | slabFree (obj : Option Cache)
  | vmmMapPage (p : Nat)
  | vmmMapSpan (p : Nat)
  | printf
  | termWrite (t : Nat)
  | idtAllocateVector
  deriving DecidableEq

def Call.prog : Call → Prog Lock Unit
  | .pmmAlloc => Spinlock.pmmAlloc
  | .pmmAllocNozero => Spinlock.pmmAllocNozero
  | .pmmFree => Spinlock.pmmFree
  | .alloc => Spinlock.alloc
  | .realloc => Spinlock.realloc
  | .free => Spinlock.free
  | .slabAlloc size => Spinlock.slabAlloc size
  | .slabRealloc obj newSize => Spinlock.slabRealloc obj newSize
  | .slabFree obj => Spinlock.slabFree obj
  | .vmmMapPage p => Spinlock.vmmMapPage p
  | .vmmMapSpan p => Spinlock.vmmMapSpan p
  | .printf => vprintf
  | .termWrite t => Spinlock.termWrite t
  | .idtAllocateVector => Spinlock.idtAllocateVector

/-- The calls that take a lock without turning interrupts off before. -/
def Call.bare : Call → Bool
  | .slabAlloc size => (slabFor size).isSome
  | .slabRealloc none newSize => (slabFor newSize).isSome
  | .slabRealloc (some c) newSize => entSize c < newSize && (slabFor newSize).isSome
  | .slabFree obj => obj.isSome
  | .idtAllocateVector => true
  | _ => false

/-! ## What the functions leave -/

variable {i : Bool} {h : List Lock}

/-- The flag is clear while locks are held. -/
def Quiesced (i : Bool) (h : List Lock) : Prop := i = true → h = []

/-- Every lock held comes before `l`. -/
def Below (h : List Lock) (l : Lock) : Prop := ∀ l' ∈ h, rank l' < rank l

theorem Below.cons {l l' : Lock} (hb : Below h l) (hl : rank l < rank l') : Below (l :: h) l' := by
  intro m hm
  rcases List.mem_cons.mp hm with rfl | hm
  · exact hl
  · exact (hb m hm).trans hl

theorem below_nil (l : Lock) : Below [] l := by
  intro m hm
  cases hm

theorem termWrite_neutral (t : Nat) (hq : Quiesced i h) (hb : Below h (.term t)) :
    Neutral rank (termWrite t) i h := by
  intro Q hQ
  simp only [termWrite, wp_bind, wp_any]
  intro n
  split
  · exact hQ
  · simp only [wp_bind, wp_toggle, wp_lock, wp_unlock, wp_pure, List.erase_cons_head]
    exact ⟨by simp, trivial, hb, hq, hQ⟩

theorem termInit_neutral : Neutral rank termInit i h := by
  intro Q hQ
  simp only [termInit, wp_bind, wp_any]
  intro n
  split <;> exact hQ

theorem vprintf_neutral (hq : Quiesced i h) (hb : Below h .printf) : Neutral rank vprintf i h := by
  intro Q hQ
  simp only [vprintf, wp_bind, wp_toggle, wp_lock, wp_any]
  refine termInit_neutral _ ⟨by simp, trivial, hb, fun n => ?_⟩
  have hw : Neutral rank (termWrite 0) false (Lock.printf :: h) :=
    termWrite_neutral 0 (by simp [Quiesced]) (hb.cons (by decide))
  refine hw.repeatN n _ ?_
  simp only [wp_unlock, wp_pure, List.erase_cons_head]
  exact ⟨hq, hQ⟩

/-- `panic` does not return, so it promises anything. -/
theorem panic_wp (hb : Below h .panic) (Q : Unit → Bool → List Lock → Prop) :
    wp rank panic Q i h := by
  have hv : Neutral rank vprintf false (Lock.panic :: h) :=
    vprintf_neutral (by simp [Quiesced]) (hb.cons (by decide))
  simp only [panic, wp_bind, wp_toggle, wp_lock, wp_any]
  refine ⟨by simp, trivial, hb, hv _ (hv _ (hv _ (hv _ fun n => ?_)))⟩
  split
  · rw [wp_bind]
    exact hv _ trivial
  · rw [wp_bind]
    refine hv _ ?_
    rw [wp_bind]
    exact hv _ trivial

theorem pmmAllocNozero_neutral (hq : Quiesced i h) (hb : Below h .pmm) :
    Neutral rank pmmAllocNozero i h := by
  intro Q hQ
  simp only [pmmAllocNozero, wp_bind, wp_toggle, wp_lock, wp_any]
  refine ⟨by simp, trivial, hb, fun n => ?_⟩
  split
  · rw [wp_bind]
    exact panic_wp (hb.cons (by decide)) _
  · simp only [wp_bind, wp_pure, wp_unlock, wp_toggle, List.erase_cons_head]
    exact ⟨hq, hQ⟩

theorem pmmFree_neutral (hq : Quiesced i h) (hb : Below h .pmm) : Neutral rank pmmFree i h := by
  intro Q hQ
  simp only [pmmFree, wp_bind, wp_toggle, wp_lock, wp_unlock, wp_pure, List.erase_cons_head]
  exact ⟨by simp, trivial, hb, hq, hQ⟩

theorem free_neutral (hq : Quiesced i h) (hb : Below h .pmm) : Neutral rank free i h := by
  intro Q hQ
  simp only [free, wp_bind, wp_any]
  intro n
  split
  · exact hQ
  · exact pmmFree_neutral hq hb Q hQ

theorem realloc_neutral (hq : Quiesced i h) (hb : Below h .pmm) : Neutral rank realloc i h := by
  intro Q hQ
  simp only [realloc, wp_bind, wp_any]
  intro n
  split
  · exact pmmAllocNozero_neutral hq hb Q hQ
  · split
    · exact hQ
    · exact (pmmAllocNozero_neutral hq hb).seq (free_neutral hq hb) Q hQ

/-- The slab functions need interrupts off: they do not turn them off themselves. -/
theorem allocFromSlab_neutral (c : Cache) (hb : Below h (.slab c)) :
    Neutral rank (allocFromSlab c) false h := by
  intro Q hQ
  simp only [allocFromSlab, wp_bind, wp_lock, wp_any]
  refine ⟨trivial, hb, fun n => ?_⟩
  split
  · simp only [createSlab, wp_bind, wp_resetLock]
    refine pmmAllocNozero_neutral (by simp [Quiesced]) (hb.cons (by simp [rank])) _ ?_
    simpa only [wp_unlock, List.erase_cons_head] using hQ
  · simpa only [wp_unlock, List.erase_cons_head] using hQ

theorem freeInSlab_neutral (c : Cache) (hb : Below h (.slab c)) :
    Neutral rank (freeInSlab c) false h := by
  intro Q hQ
  simp only [freeInSlab, wp_bind, wp_lock, wp_unlock, List.erase_cons_head]
  exact ⟨trivial, hb, hQ⟩

theorem getNextLevel_neutral (hq : Quiesced i h) (hb : Below h .pmm) :
    Neutral rank getNextLevel i h := by
  intro Q hQ
  simp only [getNextLevel, wp_bind, wp_any]
  intro n
  split
  · exact pmmAllocNozero_neutral hq hb Q hQ
  · exact hQ

theorem vmmMapPage_neutral (p : Nat) (hq : Quiesced i h) (hb : Below h (.pagemap p)) :
    Neutral rank (vmmMapPage p) i h := by
  intro Q hQ
  have hg : Neutral rank getNextLevel false (Lock.pagemap p :: h) :=
    getNextLevel_neutral (by simp [Quiesced]) (hb.cons (by simp [rank]))
  simp only [vmmMapPage, wp_bind, wp_toggle, wp_lock, wp_any]
  refine ⟨by simp, trivial, hb, fun n => ?_⟩
  split
  · simp only [wp_bind, wp_toggle, wp_unlock, wp_pure]
    refine hg _ (hg _ (hg _ (hg _ ?_)))
    rw [List.erase_cons_head]
    exact ⟨hq, hQ⟩
  · simp only [wp_bind, wp_toggle, wp_unlock, wp_pure]
    refine hg _ (hg _ (hg _ ?_))
    rw [List.erase_cons_head]
    exact ⟨hq, hQ⟩

theorem idtAllocateVector_neutral (hb : Below h .idt) : Neutral rank idtAllocateVector false h := by
  intro Q hQ
  simp only [idtAllocateVector, wp_bind, wp_lock, wp_any]
  refine ⟨trivial, hb, fun n => ?_⟩
  split
  · rw [wp_bind]
    exact panic_wp (hb.cons (by decide)) _
  · simpa only [wp_unlock, List.erase_cons_head] using hQ

/-! ## The entry points -/

theorem slabAlloc_neutral {size : Nat} (hi : i = false ∨ slabFor size = none) :
    Neutral rank (slabAlloc size) i [] := by
  unfold slabAlloc
  cases hf : slabFor size with
  | none => exact Neutral.skip
  | some c =>
    have hoff : i = false := by simpa [hf] using hi
    subst hoff
    exact allocFromSlab_neutral c (below_nil _)

theorem slabRealloc_neutral {obj : Option Cache} {newSize : Nat}
    (hi : i = false ∨ (Call.slabRealloc obj newSize).bare = false) :
    Neutral rank (slabRealloc obj newSize) i [] := by
  cases obj with
  | none => exact slabAlloc_neutral (by simpa [Call.bare] using hi)
  | some c =>
    simp only [slabRealloc]
    by_cases hg : entSize c < newSize
    · rw [if_pos hg]
      have hi' : i = false ∨ slabFor newSize = none := by simpa [Call.bare, hg] using hi
      refine (slabAlloc_neutral hi').seq ?_
      by_cases hf : slabFor newSize = none
      · rw [if_pos hf]
        exact Neutral.skip
      · rw [if_neg hf]
        have hoff : i = false := by simpa [hf] using hi'
        subst hoff
        exact freeInSlab_neutral c (below_nil _)
    · rw [if_neg hg]
      exact Neutral.skip

theorem slabFree_neutral {obj : Option Cache} (hi : i = false ∨ obj = none) :
    Neutral rank (slabFree obj) i [] := by
  cases obj with
  | none => exact Neutral.skip
  | some c =>
    have hoff : i = false := by simpa using hi
    subst hoff
    exact freeInSlab_neutral c (below_nil _)

theorem call_neutral (c : Call) (hi : i = false ∨ c.bare = false) : Neutral rank c.prog i [] := by
  have hq : Quiesced i [] := fun _ => rfl
  have hpmm := pmmAllocNozero_neutral hq (below_nil _)
  cases c with
  | pmmAlloc => exact hpmm
  | pmmAllocNozero => exact hpmm
  | pmmFree => exact pmmFree_neutral hq (below_nil _)
  | alloc => exact hpmm
  | realloc => exact realloc_neutral hq (below_nil _)
  | free => exact free_neutral hq (below_nil _)
  | slabAlloc size => exact slabAlloc_neutral (by simpa [Call.bare] using hi)
  | slabRealloc obj newSize => exact slabRealloc_neutral hi
  | slabFree obj => exact slabFree_neutral (by simpa [Call.bare] using hi)
  | vmmMapPage p => exact vmmMapPage_neutral p hq (below_nil _)
  | vmmMapSpan p =>
    intro Q hQ
    simp only [Call.prog, vmmMapSpan, wp_bind, wp_any]
    exact fun n => (vmmMapPage_neutral p hq (below_nil _)).repeatN n Q hQ
  | printf => exact vprintf_neutral hq (below_nil _)
  | termWrite t => exact termWrite_neutral t hq (below_nil _)
  | idtAllocateVector =>
    have hoff : i = false := by simpa [Call.bare] using hi
    subst hoff
    exact idtAllocateVector_neutral (below_nil _)

/-- A bare call starts with its lock. -/
theorem bare_panics (c : Call) (hc : c.bare = true) : Panics ⟨true, [], c.prog⟩ := by
  have hslab : ∀ {size : Nat}, (slabFor size).isSome = true → ∀ f : Unit → Prog Lock Unit,
      ∃ l k, (slabAlloc size).bind f = .acquire l k := by
    intro size hs f
    obtain ⟨c, hf⟩ := Option.isSome_iff_exists.mp hs
    exact ⟨.slab c, _, by simp only [slabAlloc, hf]; rfl⟩
  refine ⟨rfl, ?_⟩
  cases c with
  | slabAlloc size =>
    obtain ⟨c, hf⟩ := Option.isSome_iff_exists.mp hc
    exact ⟨.slab c, _, by simp only [Call.prog, slabAlloc, hf]; rfl⟩
  | slabRealloc obj newSize =>
    cases obj with
    | none =>
      obtain ⟨c, hf⟩ := Option.isSome_iff_exists.mp hc
      exact ⟨.slab c, _, by simp only [Call.prog, slabRealloc, slabAlloc, hf]; rfl⟩
    | some c =>
      simp only [Call.bare, Bool.and_eq_true, decide_eq_true_eq] at hc
      simp only [Call.prog, slabRealloc, hc.1, if_true]
      exact hslab hc.2 _
  | slabFree obj =>
    obtain ⟨c, rfl⟩ := Option.isSome_iff_exists.mp hc
    exact ⟨.slab c, _, rfl⟩
  | idtAllocateVector => exact ⟨.idt, _, rfl⟩
  | _ => cases hc

/-- **The interrupt discipline**: a call keeps it unless interrupts are enabled
and it is one that does not turn them off before it takes a lock. -/
theorem call_disciplined_iff (c : Call) (i : Bool) :
    Disciplined c.prog i ↔ i = false ∨ c.bare = false := by
  constructor
  · intro hd
    cases hi : i with
    | false => exact Or.inl rfl
    | true =>
      cases hc : c.bare with
      | false => exact Or.inr rfl
      | true =>
        subst hi
        exact absurd (bare_panics c hc) (hd _ .refl).1
  · intro hi
    exact disciplined_of_neutral (call_neutral c hi)

/-- `slab_alloc(24)` with interrupts enabled spins, and panics, with interrupts enabled. -/
theorem slabAlloc_enabled_not_disciplined : ¬ Disciplined (Call.slabAlloc 24).prog true := by
  intro hd
  exact (hd _ .refl).1 (bare_panics (.slabAlloc 24) (by decide))

/-! ## Many CPUs -/

/-- The calls a CPU may make: those that take a slab or the IDT lock only with interrupts off. -/
def Allowed (i : Bool) (p : Prog Lock Unit) : Prop :=
  ∃ c : Call, p = c.prog ∧ (c.bare = true → i = false)

theorem Allowed.neutral {p : Prog Lock Unit} (ha : Allowed i p) : Neutral rank p i [] := by
  obtain ⟨c, rfl, hc⟩ := ha
  refine call_neutral c ?_
  cases hb : c.bare with
  | false => exact Or.inr rfl
  | true => exact Or.inl (hc hb)

/-- **No deadlock among the kernel's locks**, whatever the CPUs call and
wherever they are stopped. -/
theorem locks_never_deadlock (s₀ s : System Lock) (hs : s₀.Start)
    (hr : Relation.ReflTransGen (SysStep Allowed) s₀ s) :
    (∀ c l, Wants s c l → l ∉ (s.thread c).held) ∧
    (∀ c, ¬ Relation.TransGen (WaitsFor s) c c) ∧
    (∀ c, s.parked c = true → (s.thread c).held = []) ∧
    ∀ c, s.parked c = false → ¬ Panics (s.thread c) := by
  have hi : SysInv rank s := SysInv.run (fun _ _ ha => ha.neutral) hs hr
  refine ⟨fun c l hw => hi.not_wants_held hw, hi.acyclic, ?_, fun c hp => (hi.good hp).not_panics⟩
  intro c hp
  have := hi c
  rwa [hp] at this

/-- All CPUs idle with interrupts off. -/
def idleSystem : System Lock := ⟨fun _ => ⟨false, [], .pure ()⟩, fun _ => false, fun _ => false⟩

theorem locks_never_deadlock_two_cpus : ∃ s,
    Relation.ReflTransGen (SysStep Allowed) idleSystem s ∧
    (s.thread 0).held = [Lock.idt] ∧ s.parked 1 = true ∧
    ∀ c, ¬ Relation.TransGen (WaitsFor s) c c := by
  have hrun : ∃ s, Relation.ReflTransGen (SysStep Allowed) idleSystem s ∧
      (s.thread 0).held = [Lock.idt] ∧ s.parked 1 = true := by
    refine ⟨_, (((Relation.ReflTransGen.refl.tail (.idle (c := 1) (j := true) rfl rfl)).tail
      (.stop (c := 1) rfl rfl)).tail
      (.call (c := 0) rfl rfl ⟨.idtAllocateVector, rfl, fun _ => rfl⟩)).tail
      (.acquire (c := 0) rfl rfl rfl), rfl, rfl⟩
  obtain ⟨s, hr, h1, h2⟩ := hrun
  have hstart : idleSystem.Start := ⟨fun _ => ⟨rfl, rfl, rfl⟩, fun _ => rfl⟩
  exact ⟨s, hr, h1, h2, (locks_never_deadlock idleSystem s hstart hr).2.1⟩

end Cynix.Lib.Spinlock
