import Mathlib

/-! # Framebuffers and terminals (`devices/fb/fb.c`, `devices/term/term.c`)

The readiness flag, the number of terminals and their contexts, and every
assignment the code makes to them. The kernel calls `term_init`, `printf`,
`term_write` and `panic` in any order; what is still to be done is a stack of
tasks, so that each intermediate state is a state of the run. A panic throws the
stack away: it prints and never returns.

A context is numbered when `flanterm_fb_init` returns it, and never NULL. `live`
has the contexts that were created and not deinitialised since, each with the
terminal, and so the entry of `fbs`, it was created for. -/
namespace Cynix.Devices.Term

/-- `FBS_MAX`. -/
abbrev fbsMax : Nat := 16

/-- `TERMS_MAX`. -/
abbrev termsMax : Nat := 16

/-- `TERM_INIT_NOT_DONE`, `TERM_INIT_DEBUG_DONE` and `TERM_INIT_NORMAL_DONE`. -/
inductive InitDone where
  | notDone
  | debugDone
  | normalDone
  deriving Repr, DecidableEq

abbrev Ctx := Nat

/-- A call of `flanterm_write`: the context passed, and the state it was passed in. -/
structure Write where
  terminal : Nat
  ctx : Option Ctx
  termCount : Nat
  live : List (Ctx × Nat)
  deriving Repr, DecidableEq

/-- Where `term_init` is. -/
inductive Point where
  | start
  | deinit
  | reset
  | loop
  | create
  | incr
  deriving Repr, DecidableEq

inductive Task where
  | init (debug : Bool) (at_ : Point)
  /-- Formatted output of this many characters. -/
  | printf (chars : Nat)
  /-- This many calls of `term_write(0, ...)`. -/
  | write (chars : Nat)
  deriving Repr, DecidableEq

structure State (Fb : Type) where
  fbInitDone : Bool
  fbs : List Fb
  termInitDone : InitDone
  termCount : Nat
  ftCtx : Nat → Option Ctx
  next : Ctx
  live : List (Ctx × Nat)
  todo : List Task
  panicked : Bool
  log : List Write

variable {Fb : Type}

def State.boot : State Fb := ⟨false, [], .notDone, 0, fun _ => none, 0, [], [], false, []⟩

def State.push (s : State Fb) (t : Task) : State Fb := { s with todo := t :: s.todo }

/-! ## The code -/

/-- The copy loop of `fb_init`; `fb_count` is the length of `fbs`. -/
def fbCopy : List Fb → List Fb → List Fb
  | [], fbs => fbs
  | fb :: rest, fbs => if fbs.length = fbsMax then fbs else fbCopy rest (fbs ++ [fb])

/-- `fb_init`; `resp` is the bootloader's response. A missing one is asked for again. -/
def fbInit (resp : Option (List Fb)) (s : State Fb) : State Fb :=
  if s.fbInitDone then s
  else
    match resp with
    | none => { s with fbs := [] }
    | some framebuffers => { s with fbs := fbCopy framebuffers [], fbInitDone := true }

def termsLimit (debug : Bool) : Nat := if debug then 1 else termsMax

/-- `term_init`, from one point to the next. -/
def termInit (resp : Option (List Fb)) (debug : Bool) : Point → State Fb → State Fb
  | .start, s =>
    if debug then
      if s.termInitDone ≠ .notDone then s else (fbInit resp s).push (.init debug .deinit)
    else
      if s.termInitDone = .normalDone then s else (fbInit resp s).push (.init debug .deinit)
  | .deinit, s =>
    -- the previous debug terminal, if it was started
    if s.termCount ≠ 0 then
      { s with live := s.live.filter fun x => some x.1 ≠ s.ftCtx 0 }.push (.init debug .reset)
    else s.push (.init debug .loop)
  | .reset, s => { s with termCount := 0 }.push (.init debug .loop)
  | .loop, s =>
    if s.termCount < s.fbs.length then
      if s.termCount = termsLimit debug then
        { s with termInitDone := if debug then .debugDone else .normalDone }
      else s.push (.init debug .create)
    else { s with termInitDone := if debug then .debugDone else .normalDone }
  | .create, s =>
    { s with
      ftCtx := Function.update s.ftCtx s.termCount (some s.next)
      live := (s.next, s.termCount) :: s.live
      next := s.next + 1 }.push (.init debug .incr)
  | .incr, s => { s with termCount := s.termCount + 1 }.push (.init debug .loop)

/-- `term_write`. It does not look at `term_count`. -/
def termWrite (terminal : Nat) (s : State Fb) : State Fb :=
  if s.termInitDone = .notDone then s
  else { s with log := s.log ++ [⟨terminal, s.ftCtx terminal, s.termCount, s.live⟩] }

/-- `panic`: each line goes through `printf`, then the CPU halts. -/
def panic (lines : List Nat) (s : State Fb) : State Fb :=
  { s with todo := lines.map .printf, panicked := true }

/-- The task on top of the stack, once it has been taken off. -/
def exec (resp : Option (List Fb)) : Task → State Fb → State Fb
  | .init debug p, s => termInit resp debug p s
  | .printf chars, s => (s.push (.write chars)).push (.init true .start)
  | .write 0, s => s
  | .write (n + 1), s => (termWrite 0 s).push (.write n)

inductive Cause where
  /-- The kernel calls the module; nothing of it is running. -/
  | call
  | code
  /-- `alloc` panics inside `flanterm_fb_init`: the debug terminal uses no `alloc`. -/
  | outOfMemory
  deriving DecidableEq

inductive Step (resp : Option (List Fb)) : State Fb → Cause → State Fb → Prop where
  | init {s : State Fb} (debug : Bool) : s.todo = [] → s.panicked = false →
      Step resp s .call (s.push (.init debug .start))
  | printf {s : State Fb} (chars : Nat) : s.todo = [] → s.panicked = false →
      Step resp s .call (s.push (.printf chars))
  | write {s : State Fb} (chars : Nat) : s.todo = [] → s.panicked = false →
      Step resp s .call (s.push (.write chars))
  | panic {s : State Fb} (lines : List Nat) : s.todo = [] → s.panicked = false →
      Step resp s .call (panic lines s)
  | code {s : State Fb} {t : Task} {rest : List Task} : s.todo = t :: rest →
      Step resp s .code (exec resp t { s with todo := rest })
  | outOfMemory {s : State Fb} {rest : List Task} (lines : List Nat) :
      s.todo = .init false .create :: rest → Step resp s .outOfMemory (panic lines s)

/-! ## What should hold -/

/-- The number of framebuffers the bootloader reports. -/
def reported (resp : Option (List Fb)) : Nat := (resp.getD []).length

/-- The write goes to a terminal that exists, through the context that was
created for it and is still alive. -/
def Write.Ok (w : Write) : Prop :=
  w.terminal < w.termCount ∧ ∃ c, w.ctx = some c ∧ (c, w.terminal) ∈ w.live

structure Safe (resp : Option (List Fb)) (s : State Fb) : Prop where
  writes : ∀ w ∈ s.log, w.Ok
  /-- No framebuffer has two live contexts. -/
  single : ∀ x ∈ s.live, ∀ y ∈ s.live, x.2 = y.2 → x = y
  bound : s.termCount ≤ min (reported resp) termsMax

/-- The steps that keep the promise. Text goes out after an initialisation only
where there is a framebuffer, and memory does not run out while the debug
terminal is gone and terminal 0 not yet there again. -/
structure Meets (resp : Option (List Fb)) (s : State Fb) (cause : Cause) : Prop where
  write : ∀ n rest, s.todo = .write (n + 1) :: rest → s.termInitDone ≠ .notDone → 0 < reported resp
  memory : cause = .outOfMemory → s.termInitDone = .debugDone → s.termCount ≠ 0

end Cynix.Devices.Term
