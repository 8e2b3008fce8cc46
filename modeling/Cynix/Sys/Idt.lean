import Cynix.Base.Sections
import Cynix.Sys.Isr

/-! # Vectors and their handlers (`sys/idt.c`, `sys/isr.c`)

The gates that `isr_init` sets, the allocation of vectors under `idt_lock` from
any number of CPUs, and the stores of handlers in `isr_handler_table` that
follow it. An interrupt goes through its gate to its thunk, and from there to
the handler in the table. -/
namespace Cynix.Sys.Idt
open Cynix.Base.Sections Cynix.Base.Stack

structure IdtDescriptor where
  baseLow16 : Nat
  selector : Nat
  ist : Nat
  flags : Nat
  baseMid16 : Nat
  baseHigh32 : Nat
  reserved : Nat

def idtMax : Nat := 256
def gdtKernelCodeSel : Nat := 0x08
def cpuAbortIst : Nat := 1

/-- The interrupt descriptor table and `isr_handler_table`. -/
structure Isrs where
  idt : Nat → IdtDescriptor
  table : Nat → Word

/-- The descriptor that `idt_set_handler` stores. -/
def descriptorFor (isr ist flags : Nat) : IdtDescriptor where
  baseLow16 := isr % 2 ^ 16
  selector := gdtKernelCodeSel
  ist := ist
  flags := flags
  baseMid16 := (isr >>> 16) % 2 ^ 16
  baseHigh32 := (isr >>> 32) % 2 ^ 32
  reserved := 0

def idtSetHandler (vector isr ist flags : Nat) (s : Isrs) : Isrs :=
  { s with idt := Function.update s.idt vector (descriptorFor isr ist flags) }

/-- The addresses of `isr_thunks`, `isr_generic_exception_handler` and `isr_abort_handler`. -/
structure Symbols where
  thunks : Nat → Nat
  generic : Word
  abort : Word

variable (y : Symbols)

/-- The body of both loops of `isr_init`. -/
def setGeneric (i : Nat) (s : Isrs) : Isrs :=
  let s := idtSetHandler i (y.thunks i) 0 0x8e s
  { s with table := Function.update s.table i y.generic }

/-- `for (uint8_t i = 0; i < 32; i++)`, from `i` on. -/
def lowLoop : (fuel i : Nat) → Isrs → Option Isrs
  | 0, _, _ => none
  | fuel + 1, i, s => if i < 32 then lowLoop fuel ((i + 1) % 2 ^ 8) (setGeneric y i s) else some s

/-- `for (uint8_t i = 32; ; i++)` with its way out at 255, from `i` on. -/
def highLoop : (fuel i : Nat) → Isrs → Option Isrs
  | 0, _, _ => none
  | fuel + 1, i, s =>
    if i = 255 then some (setGeneric y i s) else highLoop fuel ((i + 1) % 2 ^ 8) (setGeneric y i s)

/-- What `idt_free_vector` starts with. -/
def idtFreeVector : Nat := 32

/-- `idt_allocate_vector` on `idt_free_vector`; `none` is the panic "IDT exhausted". -/
def idtAllocateVector (free : Nat) : Option Nat × Nat :=
  if free = 0xf0 then (none, free) else (some free, (free + 1) % 2 ^ 8)

/-- `isr_init`, with `isr_abort_vector` and `idt_free_vector` as it leaves them. -/
def isrInit (free : Nat) (s : Isrs) : Option (Isrs × Nat × Nat) := do
  let s ← lowLoop y idtMax 0 s
  let s ← highLoop y idtMax 32 s
  match idtAllocateVector free with
  | (some v, free) =>
    let s := idtSetHandler v (y.thunks v) cpuAbortIst 0x8e s
    some ({ s with table := Function.update s.table v y.abort }, v, free)
  | (none, _) => none

/-- The vector that `isr_init` gets. -/
def isrAbortVector : Nat := 32

/-! ## What the processor finds -/

structure Gate where
  offset : Nat
  selector : Nat
  ist : Nat
  type : Nat
  dpl : Nat
  deriving DecidableEq

/-- The gate of a vector, if it is within the limit of the table register and present. -/
def gateOf (idt : Nat → IdtDescriptor) (vector : Nat) : Option Gate :=
  let d := idt vector
  if vector * 16 + 15 ≤ idtMax * 16 - 1 ∧ d.flags / 2 ^ 7 % 2 = 1 then
    some ⟨d.baseLow16 + d.baseMid16 * 2 ^ 16 + d.baseHigh32 * 2 ^ 32, d.selector, d.ist % 8, d.flags % 16,
      d.flags / 2 ^ 5 % 4⟩
  else none

variable {y} {s s' : Isrs} {v i : Nat}

/-- An interrupt gate to the thunk of its vector, for the kernel only. -/
def gateFor (y : Symbols) (v ist : Nat) : Gate := ⟨y.thunks v, gdtKernelCodeSel, ist, 0b1110, 0⟩

theorem gateOf_set (hv : v < 256) (hy : y.thunks v < 2 ^ 64) {ist : Nat} (hist : ist < 8) (s : Isrs) :
    gateOf (idtSetHandler v (y.thunks v) ist 0x8e s).idt v = some (gateFor y v ist) := by
  unfold gateOf idtSetHandler gateFor
  simp only [Function.update_self, descriptorFor, Nat.shiftRight_eq_div_pow, idtMax]
  rw [if_pos (by omega), Nat.mod_eq_of_lt hist]
  congr 2
  omega

theorem gateOf_set_ne {w isr ist flags : Nat} (h : v ≠ w) (s : Isrs) :
    gateOf (idtSetHandler w isr ist flags s).idt v = gateOf s.idt v := by
  unfold gateOf idtSetHandler
  simp only [Function.update_of_ne h]

/-- The vector is set up for the generic handler. -/
def Generic (y : Symbols) (s : Isrs) (v : Nat) : Prop :=
  gateOf s.idt v = some (gateFor y v 0) ∧ s.table v = y.generic

theorem generic_set (hy : ∀ v, y.thunks v < 2 ^ 64) (hv : v < 256) (s : Isrs) : Generic y (setGeneric y v s) v :=
  ⟨gateOf_set hv (hy v) (by decide) s, Function.update_self ..⟩

theorem Generic.keep (h : Generic y s v) (hy : ∀ v, y.thunks v < 2 ^ 64) (hi : i < 256) :
    Generic y (setGeneric y i s) v := by
  by_cases hvi : v = i
  · subst hvi
    exact generic_set hy hi s
  · exact ⟨(gateOf_set_ne hvi s).trans h.1, (Function.update_of_ne hvi ..).trans h.2⟩

/-- The first loop ends, and has set the vectors below 32. -/
theorem lowLoop_some (hy : ∀ v, y.thunks v < 2 ^ 64) {fuel : Nat} (hi : i ≤ 32) (hf : 32 - i < fuel)
    (hs : ∀ v, v < i → Generic y s v) :
    ∃ s', lowLoop y fuel i s = some s' ∧ ∀ v, v < 32 → Generic y s' v := by
  induction fuel generalizing i s with
  | zero => omega
  | succ fuel ih =>
    unfold lowLoop
    by_cases hlt : i < 32
    · rw [if_pos hlt, Nat.mod_eq_of_lt (by omega)]
      refine ih (by omega) (by omega) ?_
      intro v hv
      by_cases hvi : v = i
      · subst hvi
        exact generic_set hy (by omega) s
      · exact (hs v (by omega)).keep hy (by omega)
    · rw [if_neg hlt]
      exact ⟨s, rfl, fun v hv => hs v (by omega)⟩

/-- The second loop ends at 255, before its counter wraps. -/
theorem highLoop_some (hy : ∀ v, y.thunks v < 2 ^ 64) {fuel : Nat} (hi : i ≤ 255) (hf : 255 - i < fuel)
    (hs : ∀ v, v < i → Generic y s v) :
    ∃ s', highLoop y fuel i s = some s' ∧ ∀ v, v < 256 → Generic y s' v := by
  induction fuel generalizing i s with
  | zero => omega
  | succ fuel ih =>
    have hset : ∀ v, v < i + 1 → Generic y (setGeneric y i s) v := by
      intro v hv
      by_cases hvi : v = i
      · subst hvi
        exact generic_set hy (by omega) s
      · exact (hs v (by omega)).keep hy (by omega)
    unfold highLoop
    by_cases hend : i = 255
    · rw [if_pos hend]
      exact ⟨_, rfl, fun v hv => hset v (by omega)⟩
    · rw [if_neg hend, Nat.mod_eq_of_lt (by omega)]
      exact ih (by omega) (by omega) hset

/-- `isr_init` sets up every vector: the abort vector on its own stack, the others for the generic handler. -/
theorem isrInit_some (hy : ∀ v, y.thunks v < 2 ^ 64) (s : Isrs) :
    ∃ s', isrInit y idtFreeVector s = some (s', isrAbortVector, isrAbortVector + 1) ∧
    (∀ v, v < 256 → gateOf s'.idt v = some (gateFor y v (if v = isrAbortVector then cpuAbortIst else 0))) ∧
    ∀ v, v < 256 → s'.table v = if v = isrAbortVector then y.abort else y.generic := by
  obtain ⟨s₁, h₁, hlow⟩ := lowLoop_some hy (i := 0) (s := s) (by omega) (show 32 - 0 < idtMax by decide) (by simp)
  obtain ⟨s₂, h₂, hall⟩ := highLoop_some hy (i := 32) (s := s₁) (by omega) (show 255 - 32 < idtMax by decide) hlow
  have hinit : isrInit y idtFreeVector s = some
      ({ idtSetHandler isrAbortVector (y.thunks isrAbortVector) cpuAbortIst 0x8e s₂ with
        table := Function.update s₂.table isrAbortVector y.abort }, isrAbortVector, isrAbortVector + 1) := by
    rw [isrInit, h₁, Option.bind_eq_bind, Option.bind_some, h₂]
    rfl
  refine ⟨_, hinit, ?_, ?_⟩
  · intro v hv
    by_cases hva : v = isrAbortVector
    · subst hva
      exact gateOf_set hv (hy _) (show cpuAbortIst < 8 by decide) s₂
    · rw [if_neg hva]
      exact (gateOf_set_ne hva s₂).trans (hall v hv).1
  · intro v hv
    by_cases hva : v = isrAbortVector
    · rw [if_pos hva, hva]
      exact Function.update_self isrAbortVector y.abort s₂.table
    · rw [if_neg hva]
      exact (Function.update_of_ne hva ..).trans (hall v hv).2

/-! ## `idt_allocate_vector` -/

inductive Local where
  | test
  | load
  | store (ret : Nat)
  /-- `none` is the panic "IDT exhausted". -/
  | done (ret : Option Nat)

/-- The accesses to `idt_free_vector` between `spinlock_acquire` and `spinlock_release`. -/
def step : Local → Nat → Option (Local × Nat)
  | .test, free => some (if free = 0xf0 then .done none else .load, free)
  | .load, free => some (.store free, free)
  | .store ret, _ => some (.done (some ret), (ret + 1) % 2 ^ 8)
  | .done _, _ => none

def machine : Machine Nat Unit Local Nat where
  start _ := .test
  step := step
  result l := match l with
    | .done ret => ret
    | _ => none

theorem idtAllocateVector_some {free free' : Nat} (h : idtAllocateVector free = (some v, free')) :
    free ≠ 0xf0 ∧ v = free ∧ free' = (free + 1) % 2 ^ 8 := by
  unfold idtAllocateVector at h
  split_ifs at h with hf
  · cases h
  · cases h
    exact ⟨hf, rfl, rfl⟩

theorem idtAllocateVector_none {free free' : Nat} (h : idtAllocateVector free = (none, free')) : free' = free := by
  unfold idtAllocateVector at h
  split_ifs at h with hf
  · cases h
    rfl
  · cases h

theorem implements : machine.Implements fun _ => idtAllocateVector := by
  intro _ free
  dsimp only [idtAllocateVector]
  by_cases h : free = 0xf0
  · rw [if_pos h]
    refine ⟨.done none, .single ?_, rfl, rfl⟩
    simp [machine, step, h]
  · rw [if_neg h]
    refine ⟨.done (some free), .head (b := (.load, free)) ?_ (.head rfl (.single rfl)), rfl, rfl⟩
    simp [machine, step, h]

/-! ## Drivers -/

/-- Code that allocates a vector and stores its handler, as `sched_init` does. -/
inductive Doing where
  | idle
  | allocating (handler : Word)
  | registering (vector : Nat) (handler : Word)

structure World where
  table : Nat → Word
  doing : Nat → Doing
  /-- The vectors whose handlers have been stored. -/
  given : Nat → Option Word

inductive Quiet : World → World → Prop
  | register {w : World} {i v : Nat} {h : Word} : w.doing i = .registering v h →
      Quiet w { table := Function.update w.table v h, doing := Function.update w.doing i .idle,
                given := Function.update w.given v (some h) }

inductive Invoke : Nat → World → World → Prop
  | alloc {i : Nat} {w : World} {h : Word} : w.doing i = .idle →
      Invoke i w { w with doing := Function.update w.doing i (.allocating h) }

inductive Resume : Nat → Nat → World → World → Prop
  | alloc {i v : Nat} {w : World} {h : Word} : w.doing i = .allocating h →
      Resume i v w { w with doing := Function.update w.doing i (.registering v h) }

def client : Client Nat World Unit Nat := ⟨fun _ => Quiet, fun i _ => Invoke i, fun i _ => Resume i⟩

/-- The vectors below `free` that are not the abort vector are each one driver's. -/
structure Ok (y : Symbols) (free : Nat) (w : World) : Prop where
  low : isrAbortVector < free
  high : free ≤ 0xf0
  abort : w.table isrAbortVector = y.abort
  given : ∀ v h, w.given v = some h → isrAbortVector < v ∧ v < free ∧ w.table v = h
  generic : ∀ v, v < 256 → v ≠ isrAbortVector → w.given v = none → w.table v = y.generic
  own : ∀ i v h, w.doing i = .registering v h → isrAbortVector < v ∧ v < free ∧ w.given v = none
  apart : ∀ i j v h h', w.doing i = .registering v h → w.doing j = .registering v h' → i = j

variable {free : Nat} {w w' : World}

theorem doing_update {d : Doing} {i j v : Nat} {h : Word} (hd : Function.update w.doing i d j = .registering v h) :
    j = i ∧ d = .registering v h ∨ j ≠ i ∧ w.doing j = .registering v h := by
  by_cases hj : j = i
  · subst hj
    rw [Function.update_self] at hd
    exact .inl ⟨rfl, hd⟩
  · rw [Function.update_of_ne hj] at hd
    exact .inr ⟨hj, hd⟩

theorem Ok.register (hok : Ok y free w) {h : Word} (hd : w.doing i = .registering v h) :
    Ok y free { table := Function.update w.table v h, doing := Function.update w.doing i .idle,
                given := Function.update w.given v (some h) } := by
  obtain ⟨hv, hvf, hnone⟩ := hok.own i v h hd
  have hdoing : ∀ {j u g}, Function.update w.doing i .idle j = .registering u g →
      j ≠ i ∧ w.doing j = .registering u g := by
    intro j u g hj
    rcases doing_update hj with ⟨-, he⟩ | he
    · cases he
    · exact he
  refine ⟨hok.low, hok.high, ?_, ?_, ?_, ?_, ?_⟩
  · exact (Function.update_of_ne (by omega) ..).trans hok.abort
  · intro u g hu
    change Function.update w.given v (some h) u = some g at hu
    by_cases huv : u = v
    · subst huv
      rw [Function.update_self] at hu
      exact ⟨hv, hvf, (Function.update_self ..).trans (Option.some.inj hu)⟩
    · rw [Function.update_of_ne huv] at hu
      obtain ⟨h1, h2, h3⟩ := hok.given u g hu
      exact ⟨h1, h2, (Function.update_of_ne huv ..).trans h3⟩
  · intro u hu hne hn
    change Function.update w.given v (some h) u = none at hn
    have huv : u ≠ v := by
      rintro rfl
      rw [Function.update_self] at hn
      cases hn
    rw [Function.update_of_ne huv] at hn
    exact (Function.update_of_ne huv ..).trans (hok.generic u hu hne hn)
  · intro j u g hj
    obtain ⟨hne, hj'⟩ := hdoing hj
    obtain ⟨h1, h2, h3⟩ := hok.own j u g hj'
    refine ⟨h1, h2, ?_⟩
    have huv : u ≠ v := by
      rintro rfl
      exact hne (hok.apart j i u g h hj' hd)
    exact (Function.update_of_ne huv ..).trans h3
  · intro j k u g g' hj hk
    exact hok.apart j k u g g' (hdoing hj).2 (hdoing hk).2

/-- A CPU's next step outside of the table. -/
theorem Ok.go (hok : Ok y free w) {free' : Nat} {d : Doing} (hf : free ≤ free') (hf' : free' ≤ 0xf0)
    (hd : ∀ v h, d = .registering v h → free ≤ v ∧ v < free') :
    Ok y free' { w with doing := Function.update w.doing i d } := by
  have hlow := hok.low
  -- a vector that is new is nobody's yet
  have hnew : ∀ {u g}, free ≤ u → w.given u ≠ some g := by
    intro u g hu hg
    have := (hok.given u g hg).2.1
    omega
  refine ⟨by omega, hf', hok.abort, ?_, hok.generic, ?_, ?_⟩
  · intro u g hu
    obtain ⟨h1, h2, h3⟩ := hok.given u g hu
    exact ⟨h1, by omega, h3⟩
  · intro j u g hj
    rcases doing_update hj with ⟨-, he⟩ | ⟨-, he⟩
    · obtain ⟨h1, h2⟩ := hd u g he
      exact ⟨by omega, h2, Option.eq_none_iff_forall_not_mem.mpr fun x hx => hnew h1 hx⟩
    · obtain ⟨h1, h2, h3⟩ := hok.own j u g he
      exact ⟨h1, by omega, h3⟩
  · intro j k u g g' hj hk
    rcases doing_update hj with ⟨rfl, he⟩ | ⟨-, he⟩ <;> rcases doing_update hk with ⟨rfl, he'⟩ | ⟨-, he'⟩
    · rfl
    · have := (hd u g he).1
      have := (hok.own k u g' he').2.1
      omega
    · have := (hd u g' he').1
      have := (hok.own j u g he).2.1
      omega
    · exact hok.apart j k u g g' he he'

theorem Ok.step {t t' : Coarse Nat Unit World} (hok : Ok y t.data t.client)
    (h : CoarseStep (fun _ => idtAllocateVector) client t t') : Ok y t'.data t'.client := by
  cases h with
  | quiet hq =>
    cases hq with
    | register hd => exact hok.register hd
  | invoke _ hc =>
    cases hc with
    | alloc hd => exact hok.go le_rfl hok.high (by simp)
  | @run i op v free w hw hs hc =>
    have hhigh := hok.high
    obtain ⟨hf, rfl, rfl⟩ := idtAllocateVector_some hs
    have hwrap : (t.data + 1) % 2 ^ 8 = t.data + 1 := Nat.mod_eq_of_lt (by omega)
    cases hc with
    | alloc hd =>
      change Ok y ((t.data + 1) % 2 ^ 8) _
      rw [hwrap]
      refine hok.go (by omega) (by omega) ?_
      intro u g he
      cases he
      exact ⟨le_rfl, by omega⟩
  | die hw hs =>
    obtain rfl := idtAllocateVector_none hs
    exact hok

theorem Ok.run {t t' : Coarse Nat Unit World} (hok : Ok y t.data t.client)
    (h : Relation.ReflTransGen (CoarseStep (fun _ => idtAllocateVector) client) t t') : Ok y t'.data t'.client := by
  induction h with
  | refl => exact hok
  | tail _ hs ih => exact ih.step hs

/-! ## The thunk writes its stack only -/

def pushes : Isr.Instr → Bool
  | .pushImm _ => true
  | .push _ => true
  | _ => false

/-- Instructions that do not take words off the stack. -/
def grows : Isr.Instr → Bool
  | .pop _ => false
  | .addRsp _ => false
  | _ => true

/-- One instruction: it leaves the stack alone, or it pushes one word. -/
theorem exec_cons {i : Isr.Instr} (hg : grows i = true) (is : List Isr.Instr) (seeking : Bool) (c : Isr.Cpu) :
    ∃ seeking' c', Isr.exec seeking (i :: is) c = Isr.exec seeking' is c' ∧
      (c'.rsp = c.rsp ∧ c'.mem = c.mem ∨
        pushes i = true ∧ ∃ w, c'.rsp = c.rsp - 8 ∧ c'.mem = Function.update c.mem (c.rsp - 8) w) := by
  cases seeking with
  | true => exact ⟨_, c, rfl, .inl ⟨rfl, rfl⟩⟩
  | false =>
    cases i with
    | pop r => cases hg
    | addRsp w => cases hg
    | jne => exact ⟨_, c, rfl, .inl ⟨rfl, rfl⟩⟩
    | pushImm w => exact ⟨false, _, rfl, .inr ⟨rfl, w, rfl, rfl⟩⟩
    | push r => exact ⟨false, _, rfl, .inr ⟨rfl, _, rfl, rfl⟩⟩
    | _ => exact ⟨false, _, rfl, .inl ⟨rfl, rfl⟩⟩

theorem exec_frame {is : List Isr.Instr} (hg : ∀ i ∈ is, grows i = true) (seeking : Bool) (c : Isr.Cpu) :
    ∃ k, k ≤ is.countP pushes ∧
      ∀ a, (∀ j, j < k → a ≠ c.rsp - BitVec.ofNat 64 (8 * (j + 1))) → (Isr.exec seeking is c).mem a = c.mem a := by
  induction is generalizing seeking c with
  | nil => exact ⟨0, by simp, fun _ _ => rfl⟩
  | cons i is ih =>
    obtain ⟨hi, his⟩ := List.forall_mem_cons.mp hg
    obtain ⟨seeking', c', hexec, hstep⟩ := exec_cons hi is seeking c
    obtain ⟨k, hk, hframe⟩ := ih his seeking' c'
    rw [hexec, List.countP_cons]
    rcases hstep with ⟨hrsp, hmem⟩ | ⟨hpush, w, hrsp, hmem⟩
    · refine ⟨k, by omega, ?_⟩
      rw [← hrsp, ← hmem]
      exact hframe
    · refine ⟨k + 1, by simp only [hpush, if_true]; omega, ?_⟩
      intro a ha
      rw [hframe a, hmem]
      · refine Function.update_of_ne ?_ ..
        have := ha 0 (by omega)
        simpa using this
      · intro j hj
        have := ha (j + 1) (by omega)
        rw [hrsp]
        intro he
        refine this (he.trans ?_)
        bv_omega

theorem pushList_frame (mem : Words) (base : Word) (ws : List Word) {a : Word}
    (ha : ∀ j, j < ws.length → a ≠ base - BitVec.ofNat 64 (8 * (j + 1))) : pushList mem base ws a = mem a := by
  induction ws with
  | nil => rfl
  | cons w ws ih =>
    rw [List.length_cons] at ha
    rw [pushList, Function.update_of_ne (ha ws.length (by omega))]
    exact ih fun j hj => ha j (by omega)

theorem thunkEntry_grows (table : Word) (n : Fin 256) :
    (∀ i ∈ Isr.thunkEntry table n, grows i = true) ∧ (Isr.thunkEntry table n).countP pushes ≤ 18 := by
  unfold Isr.thunkEntry
  cases Isr.noPad n <;> simp [Isr.swapIfUser, Isr.saved, Isr.enterKernel, grows, pushes, List.countP_cons]

/-- From the interrupt to the call of the handler, 24 words at most are written, all below `base`. -/
theorem atCall_frame (table : Word) (n : Fin 256) (st : Isr.Interrupted) (err base : Word) (ss : Isr.Selector)
    (mem : Words) {a : Word} (ha : ∀ j, j < 24 → a ≠ base - BitVec.ofNat 64 (8 * (j + 1))) :
    (Isr.atCall table n st err base ss mem).mem a = mem a := by
  obtain ⟨hgrows, hcount⟩ := thunkEntry_grows table n
  obtain ⟨k, hk, hframe⟩ := exec_frame hgrows false (Isr.deliver n st err base ss mem)
  have hlen : ((if Isr.hasErrorCode n then [err] else []) ++ st.frame).length ≤ 6 := by
    cases Isr.hasErrorCode n <;> simp [Isr.Interrupted.frame]
  refine (hframe a ?_).trans (pushList_frame mem base _ fun j hj => ha j (by omega))
  intro j hj he
  refine ha (((if Isr.hasErrorCode n then [err] else []) ++ st.frame).length + j) (by omega) (he.trans ?_)
  change base - BitVec.ofNat 64 (8 * ((if Isr.hasErrorCode n then [err] else []) ++ st.frame).length) - _ = _
  generalize ((if Isr.hasErrorCode n then [err] else []) ++ st.frame).length = m
  bv_omega

/-! ## Dispatch -/

/-- Who a vector belongs to. -/
def handlerOf (y : Symbols) (w : World) (v : Nat) : Word :=
  if v = isrAbortVector then y.abort else (w.given v).getD y.generic

theorem Ok.table_eq (hok : Ok y free w) (hv : v < 256) : w.table v = handlerOf y w v := by
  unfold handlerOf
  by_cases hva : v = isrAbortVector
  · rw [if_pos hva, hva]
    exact hok.abort
  · rw [if_neg hva]
    cases hg : w.given v with
    | none => exact hok.generic v hv hva hg
    | some h => exact (hok.given v h hg).2.2

/-- The machine after `isr_init`. -/
def boot (isrs : Isrs) (free : Nat) : State Nat Unit Local World :=
  .start ⟨isrs.table, fun _ => .idle, fun _ => none⟩ free

/-- **Interrupts reach their handlers.** `isr_init` ends and sets up all 256 vectors; after it, drivers on any
CPUs allocate vectors and store their handlers, in any interleaving. In every state no two of them have
the same vector, those given out are above the abort vector and below 0xf0, and an interrupt of any vector goes
through an interrupt gate of the kernel, on the abort stack for the abort vector only, to the thunk of its
vector; where the table is not on that stack, the thunk calls the driver that owns the vector, the abort
handler for the abort vector, the generic handler for all others, with the vector's number. -/
theorem interrupts_reach_handlers (y : Symbols) (hy : ∀ v, y.thunks v < 2 ^ 64) (isrs : Isrs) :
    ∃ isrs' free, isrInit y idtFreeVector isrs = some (isrs', isrAbortVector, free) ∧
    ∀ s, Relation.ReflTransGen (Step machine client) (boot isrs' free) s →
      (∀ i j v h h', s.client.doing i = .registering v h → s.client.doing j = .registering v h' → i = j) ∧
      (∀ v h, s.client.given v = some h → isrAbortVector < v ∧ v < 0xf0) ∧
      (∀ i v h, s.client.doing i = .registering v h → isrAbortVector < v ∧ v < 0xf0 ∧ s.client.given v = none) ∧
      ∀ n : Fin 256,
        gateOf isrs'.idt n = some (gateFor y n (if (n : Nat) = isrAbortVector then cpuAbortIst else 0)) ∧
        ∀ table st err base ss mem,
          (∀ v, v < 256 → mem (table + BitVec.ofNat 64 (8 * v)) = s.client.table v) →
          (∀ j, j < 24 → table + BitVec.ofNat 64 (8 * n) ≠ base - BitVec.ofNat 64 (8 * (j + 1))) →
          (Isr.atCall table n st err base ss mem).regs .rdi = BitVec.ofNat 64 n ∧
          (Isr.atCall table n st err base ss mem).mem ((Isr.atCall table n st err base ss mem).regs .rbx) =
            handlerOf y s.client n := by
  obtain ⟨isrs', hinit, hgates, htable⟩ := isrInit_some hy isrs
  refine ⟨isrs', isrAbortVector + 1, hinit, ?_⟩
  intro s hrun
  obtain ⟨t, hcoarse, hm⟩ := simulates implements (fun _ _ _ hq => hq) (matches_start _ _) hrun
  have hstart : Ok y (isrAbortVector + 1) ⟨isrs'.table, fun _ => .idle, fun _ => none⟩ := by
    refine ⟨by decide, by decide, ?_, by simp, ?_, by simp, by simp⟩
    · exact (htable isrAbortVector (by decide)).trans (if_pos rfl)
    · intro v hv hne _
      exact (htable v hv).trans (if_neg hne)
  have hok := Ok.run (t := Coarse.start _ _) hstart hcoarse
  have hhigh := hok.high
  rw [hm.client]
  refine ⟨hok.apart, ?_, ?_, ?_⟩
  · intro v h hg
    obtain ⟨h1, h2, -⟩ := hok.given v h hg
    exact ⟨h1, by omega⟩
  · intro i v h hd
    obtain ⟨h1, h2, h3⟩ := hok.own i v h hd
    exact ⟨h1, by omega, h3⟩
  · intro n
    refine ⟨hgates n n.isLt, ?_⟩
    intro table st err base ss mem hmem hstack
    obtain ⟨-, -, -, hrdi, hrbx, -⟩ := Isr.atCall_spec table n st err base ss mem
    refine ⟨hrdi, ?_⟩
    rw [hrbx, atCall_frame table n st err base ss mem hstack, hmem n n.isLt]
    exact hok.table_eq n.isLt

def someSymbols : Symbols := ⟨fun v => 0x1000 + v % 256 * 64, 0x8000, 0x9000⟩

/-- CPU 0 is about to take the lock for a vector. -/
def asking (s : State Nat Unit Local World) (h : Word) : State Nat Unit Local World :=
  { s.at 0 (.want ()) with client := { s.client with doing := Function.update s.client.doing 0 (.allocating h) } }

/-- The first driver gets vector 33. -/
theorem first_driver (isrs : Isrs) (h : Word) : ∃ s, Relation.ReflTransGen (Step machine client) (boot isrs 33) s ∧
    s.client.given 33 = some h := by
  have hcall : Step machine client (boot isrs 33) (asking (boot isrs 33) h) := .invoke rfl (.alloc rfl)
  have hback : Resume 0 33 (asking (boot isrs 33) h).client _ := .alloc (h := h) rfl
  have hrun := undisturbed (C := client) (i := 0) implements (s := asking (boot isrs 33) h) rfl rfl
    (show idtAllocateVector 33 = (some 33, 34) from rfl) hback
  exact ⟨_, (Relation.ReflTransGen.head hcall hrun).tail (.quiet (.register (i := 0) (v := 33) (h := h) rfl)), rfl⟩

theorem interrupts_reach_handlers_first : ∃ isrs' s,
    isrInit someSymbols idtFreeVector ⟨fun _ => descriptorFor 0 0 0, fun _ => 0⟩ = some (isrs', isrAbortVector, 33) ∧
    Relation.ReflTransGen (Step machine client) (boot isrs' 33) s ∧ s.client.given 33 = some 0x7000 ∧
    gateOf isrs'.idt 33 = some (gateFor someSymbols 33 0) ∧ isrAbortVector < 33 := by
  have hy : ∀ v, someSymbols.thunks v < 2 ^ 64 := by
    intro v
    change 0x1000 + v % 256 * 64 < 2 ^ 64
    omega
  obtain ⟨isrs', free, hinit, hall⟩ :=
    interrupts_reach_handlers someSymbols hy ⟨fun _ => descriptorFor 0 0 0, fun _ => 0⟩
  obtain ⟨isrs₁, hinit₁, -⟩ := isrInit_some hy ⟨fun _ => descriptorFor 0 0 0, fun _ => 0⟩
  obtain ⟨rfl, rfl⟩ : isrs' = isrs₁ ∧ free = 33 := by
    rw [hinit] at hinit₁
    cases hinit₁
    exact ⟨rfl, rfl⟩
  obtain ⟨s, hrun, hg⟩ := first_driver isrs' 0x7000
  obtain ⟨-, hgiven, -, hgate⟩ := hall s hrun
  exact ⟨isrs', s, hinit, hrun, hg, (hgate 33).1, (hgiven 33 0x7000 hg).1⟩

end Cynix.Sys.Idt
