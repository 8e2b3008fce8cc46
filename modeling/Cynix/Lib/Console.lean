import Mathlib
import Cynix.Base.Guarded
import Cynix.Base.Progress

/-! # The console and the panic (`lib/printf.c`, `lib/panic.c`, `devices/term/term.c`, `sys/isr.c`)

Any number of CPUs print and panic, one access at a time. `vprintf` turns the
interrupts off, takes `printf_lock` and hands the formatted text to `term_write`
character by character, which takes the lock of terminal 0 for each of them.
`panic` takes `panic_lock`, never gives it back, interrupts every CPU that is
not the bootstrap processor and prints its report; whoever gets the interrupt
stops in `isr_abort_handler`.

The terminal exists (`kmain` calls `term_init` before it starts other CPUs), so
that `term_init` returns at once. A message is the text that the formatting
makes of it. A fault inside of `vprintf` is left out. -/
namespace Cynix.Lib.Console
open Cynix.Base.Guarded Cynix.Base.Progress

abbrev Text := List Char

/-- What a CPU does that matters here. -/
inductive Action where
  | print (m : Text)
  /-- `interrupt_toggle` in the rest of the kernel. -/
  | interrupts (state : Bool)
  /-- `mp_init` sets `mp_init_done`. -/
  | mpInitDone
  /-- The reason, and the registers if there is a context. -/
  | panic (reason : Text) (context : Option Text)

/-- Where a CPU is; `old` is what `vprintf` will give back to the interrupt flag. -/
inductive Spot where
  | idle
  /-- In `vprintf`, before it turns the interrupts off. -/
  | called (m : Text)
  | spin (m : Text) (old : Bool)
  /-- With `printf_lock`, and this text still to be written. -/
  | put (old : Bool) (rest : Text)
  /-- In `term_write`, with the terminal's lock. -/
  | locked (old : Bool) (c : Char) (rest : Text)
  | written (old : Bool) (rest : Text)
  | restore (old : Bool)
  /-- In `panic`, before it gets `panic_lock`. -/
  | panics (reason : Text) (context : Option Text)
  /-- Sending the interrupts, with those CPUs still to come. -/
  | ipis (left : List Nat) (reason : Text) (context : Option Text)
  | halted
  /-- In `isr_abort_handler`. -/
  | stopped

structure Cpu where
  /-- The interrupt flag. -/
  intr : Bool
  /-- It has `panic_lock`. -/
  panicking : Bool
  todo : List Action
  spot : Spot

structure Shared where
  panicLock : Bool
  printfLock : Bool
  termLock : Bool
  mpInitDone : Bool
  screen : Text
  /-- The messages, in the order in which `printf_lock` was taken for them. -/
  said : List (Nat × Text)

structure State where
  shared : Shared
  cpus : Nat → Cpu
  /-- The abort interrupt waits at the CPU's local APIC. -/
  pending : Nat → Bool

/-- What `panic` prints. -/
def report (reason : Text) (context : Option Text) : List Text :=
  ["\n*** KERNEL PANIC ***\n\n".toList, "Reason for panic: ".toList, reason, "\n\n".toList] ++ context.toList ++
    ["System halted.".toList]

section
variable (n bsp : Nat)

/-- The CPUs that `panic` interrupts: the records without `is_bsp`, in their order. -/
def targets : List Nat := (List.range n).filter (· ≠ bsp)

/-- One access of CPU `i`. -/
inductive Own (i : Nat) : Shared → Cpu → Shared → Cpu → Prop
  | interrupts {sh : Shared} {c : Cpu} {b : Bool} {t : List Action} : c.spot = .idle → c.todo = .interrupts b :: t →
      Own i sh c sh { c with intr := b, todo := t }
  | mpInitDone {sh : Shared} {c : Cpu} {t : List Action} : c.spot = .idle → c.todo = .mpInitDone :: t →
      Own i sh c { sh with mpInitDone := true } { c with todo := t }
  | print {sh : Shared} {c : Cpu} {m : Text} {t : List Action} : c.spot = .idle → c.todo = .print m :: t →
      Own i sh c sh { c with todo := t, spot := .called m }
  | cli {sh : Shared} {c : Cpu} {m : Text} : c.spot = .called m →
      Own i sh c sh { c with intr := false, spot := .spin m c.intr }
  | acquire {sh : Shared} {c : Cpu} {m : Text} {old : Bool} : c.spot = .spin m old → sh.printfLock = false →
      Own i sh c { sh with printfLock := true, said := sh.said ++ [(i, m)] } { c with spot := .put old m }
  | lockTerm {sh : Shared} {c : Cpu} {old : Bool} {ch : Char} {rest : Text} : c.spot = .put old (ch :: rest) →
      sh.termLock = false → Own i sh c { sh with termLock := true } { c with spot := .locked old ch rest }
  | write {sh : Shared} {c : Cpu} {old : Bool} {ch : Char} {rest : Text} : c.spot = .locked old ch rest →
      Own i sh c { sh with screen := sh.screen ++ [ch] } { c with spot := .written old rest }
  | unlockTerm {sh : Shared} {c : Cpu} {old : Bool} {rest : Text} : c.spot = .written old rest →
      Own i sh c { sh with termLock := false } { c with spot := .put old rest }
  | release {sh : Shared} {c : Cpu} {old : Bool} : c.spot = .put old [] →
      Own i sh c { sh with printfLock := false } { c with spot := .restore old }
  | restore {sh : Shared} {c : Cpu} {old : Bool} : c.spot = .restore old →
      Own i sh c sh { c with intr := old, spot := .idle }
  | panic {sh : Shared} {c : Cpu} {r : Text} {x : Option Text} {t : List Action} : c.spot = .idle →
      c.todo = .panic r x :: t → Own i sh c sh { c with intr := false, todo := [], spot := .panics r x }
  | panicLock {sh : Shared} {c : Cpu} {r : Text} {x : Option Text} : c.spot = .panics r x → sh.panicLock = false →
      Own i sh c { sh with panicLock := true }
        { c with panicking := true, spot := .ipis (if sh.mpInitDone then targets n bsp else []) r x }
  | report {sh : Shared} {c : Cpu} {r : Text} {x : Option Text} : c.spot = .ipis [] r x →
      Own i sh c sh { c with todo := (report r x).map .print, spot := .idle }
  | halt {sh : Shared} {c : Cpu} : c.spot = .idle → c.panicking = true → c.todo = [] →
      Own i sh c sh { c with spot := .halted }

inductive Move : State → State → Prop
  | own {s : State} {i : Nat} {sh : Shared} {c : Cpu} : Own n bsp i s.shared (s.cpus i) sh c →
      Move s { s with shared := sh, cpus := Function.update s.cpus i c }
  | ipi {s : State} {i j : Nat} {l : List Nat} {r : Text} {x : Option Text} : (s.cpus i).spot = .ipis (j :: l) r x →
      Move s { s with
        cpus := Function.update s.cpus i { s.cpus i with spot := .ipis l r x }
        pending := Function.update s.pending j true }
  /-- The interrupt is taken through an interrupt gate. -/
  | abort {s : State} {i : Nat} : s.pending i = true → (s.cpus i).intr = true →
      Move s { s with
        cpus := Function.update s.cpus i { s.cpus i with intr := false, spot := .stopped }
        pending := Function.update s.pending i false }

end

/-- The CPUs with their programs, outside of `printf` and `panic`. -/
def start (mpInitDone : Bool) (intr : Nat → Bool) (prog : Nat → List Action) : State where
  shared := ⟨false, false, false, mpInitDone, [], []⟩
  cpus := fun i => ⟨intr i, false, prog i, .idle⟩
  pending := fun _ => false

/-! ## What the CPUs say -/

/-- The messages of a program. Nothing comes after a panic. -/
def plan : List Action → List Text
  | [] => []
  | .print m :: t => m :: plan t
  | .panic r x :: _ => report r x
  | .interrupts _ :: t => plan t
  | .mpInitDone :: t => plan t

/-- The messages that are still to come. -/
def Cpu.future (c : Cpu) : List Text :=
  match c.spot with
  | .called m => m :: plan c.todo
  | .spin m _ => m :: plan c.todo
  | .panics r x => report r x
  | .ipis _ r x => report r x
  | _ => plan c.todo

/-- The messages of a program before it panics. -/
def talk : List Action → List Text
  | [] => []
  | .print m :: t => m :: talk t
  | .panic .. :: _ => []
  | .interrupts _ :: t => talk t
  | .mpInitDone :: t => talk t

/-- Those that are still to come. -/
def Cpu.coming (c : Cpu) : List Text :=
  match c.spot with
  | .called m => m :: talk c.todo
  | .spin m _ => m :: talk c.todo
  | .panics .. => []
  | _ => talk c.todo

/-- The messages of one CPU so far. -/
def Shared.saidBy (sh : Shared) (i : Nat) : List Text := (sh.said.filter (·.1 = i)).map (·.2)

/-- All messages so far, one after the other. -/
def Shared.text (sh : Shared) : Text := (sh.said.map (·.2)).flatten

def Cpu.printing (c : Cpu) : Bool :=
  match c.spot with
  | .put .. | .locked .. | .written .. => true
  | _ => false

def Cpu.writing (c : Cpu) : Bool :=
  match c.spot with
  | .locked .. | .written .. => true
  | _ => false

/-- What is left of the message that is being printed. -/
def Cpu.rest (c : Cpu) : Text :=
  match c.spot with
  | .put _ rest => rest
  | .locked _ c rest => c :: rest
  | .written _ rest => rest
  | _ => []

/-- What `vprintf` will give back to the interrupt flag. -/
def Spot.old : Spot → Bool
  | .spin _ old | .put old _ | .locked old _ _ | .written old _ | .restore old => old
  | _ => false

/-- The interrupts may be on. -/
def Spot.interruptible : Spot → Bool
  | .idle | .called _ => true
  | _ => false

def Spot.reporting : Spot → Bool
  | .ipis .. | .halted => true
  | _ => false

def Spot.outside : Spot → Bool
  | .panics .. | .stopped => true
  | _ => false

theorem plan_print (ms : List Text) : plan (ms.map .print) = ms := by
  induction ms with
  | nil => rfl
  | cons m ms ih => rw [List.map_cons, plan, ih]

/-! ## One CPU -/

structure Cpu.Ok (c : Cpu) : Prop where
  closed : c.spot.interruptible = false → c.intr = false
  quiet : c.panicking = true → c.intr = false ∧ c.spot.old = false
  /-- Whoever has `panic_lock` only prints. -/
  prints : c.panicking = true → c.spot.outside = false ∧ ∃ ms : List Text, c.todo = ms.map .print
  owner : c.spot.reporting = true → c.panicking = true
  dropped : ∀ r x, c.spot = .panics r x → c.todo = []
  ended : c.spot = .halted → c.todo = []

variable {n bsp i j : Nat} {sh sh' : Shared} {c c' : Cpu} {s s' : State}

theorem Cpu.Ok.calm (h : c.Ok) {a : Action} {t : List Action} (ht : c.todo = a :: t) (ha : ∀ m, a ≠ .print m) :
    c.panicking = false := by
  cases hp : c.panicking with
  | false => rfl
  | true =>
    obtain ⟨-, ms, hms⟩ := h.prints hp
    rw [ht] at hms
    cases ms with
    | nil => cases hms
    | cons m ms => exact absurd (List.cons.inj hms).1 (ha m)

/-- A CPU that goes on in `vprintf` after it has turned the interrupts off. -/
theorem Cpu.Ok.inside (hc : c.Ok) (hin : c.spot.interruptible = false) {spot : Spot} (hold : spot.old = c.spot.old)
    (hout : spot.outside = false) (hrep : spot.reporting = false) : Cpu.Ok { c with spot := spot } := by
  refine ⟨fun _ => hc.closed hin, fun h => ⟨hc.closed hin, ?_⟩, fun h => ⟨hout, (hc.prints h).2⟩, ?_, ?_, ?_⟩
  · exact hold.trans (hc.quiet h).2
  · intro h
    exact absurd (hrep.symm.trans h) (by decide)
  · rintro r x rfl
    cases hout
  · rintro rfl
    cases hrep

theorem Own.ok (h : Own n bsp i sh c sh' c') (hc : c.Ok) : c'.Ok := by
  cases h with
  | interrupts hs ht =>
    have hno := hc.calm ht (by simp)
    exact ⟨by simp [hs, Spot.interruptible], by simp [hno], by simp [hno], by simp [hs, Spot.reporting], by simp [hs],
      by simp [hs]⟩
  | mpInitDone hs ht =>
    have hno := hc.calm ht (by simp)
    exact ⟨by simp [hs, Spot.interruptible], by simp [hno], by simp [hno], by simp [hs, Spot.reporting], by simp [hs],
      by simp [hs]⟩
  | panic hs ht =>
    have hno := hc.calm ht (by simp)
    exact ⟨fun _ => rfl, by simp [hno], by simp [hno], by simp [Spot.reporting], by simp, by simp⟩
  | print hs ht =>
    refine ⟨by simp [Spot.interruptible], fun h => ⟨(hc.quiet h).1, rfl⟩, fun h => ⟨rfl, ?_⟩, by simp [Spot.reporting],
      by simp, by simp⟩
    obtain ⟨-, ms, hms⟩ := hc.prints h
    rw [ht] at hms
    cases ms with
    | nil => cases hms
    | cons m' ms => exact ⟨ms, (List.cons.inj hms).2⟩
  | cli hs =>
    exact ⟨fun _ => rfl, fun h => ⟨rfl, (hc.quiet h).1⟩, fun h => ⟨rfl, (hc.prints h).2⟩, by simp [Spot.reporting], by simp,
      by simp⟩
  | acquire hs _ => exact hc.inside (by rw [hs]; rfl) (by rw [hs]; rfl) rfl rfl
  | lockTerm hs _ => exact hc.inside (by rw [hs]; rfl) (by rw [hs]; rfl) rfl rfl
  | write hs => exact hc.inside (by rw [hs]; rfl) (by rw [hs]; rfl) rfl rfl
  | unlockTerm hs => exact hc.inside (by rw [hs]; rfl) (by rw [hs]; rfl) rfl rfl
  | release hs => exact hc.inside (by rw [hs]; rfl) (by rw [hs]; rfl) rfl rfl
  | restore hs =>
    have hq := hc.quiet
    rw [hs] at hq
    exact ⟨by simp [Spot.interruptible], fun h => ⟨(hq h).2, rfl⟩, fun h => ⟨rfl, (hc.prints h).2⟩, by simp [Spot.reporting],
      by simp, by simp⟩
  | panicLock hs _ =>
    have hcl := hc.closed (by rw [hs]; rfl)
    exact ⟨fun _ => hcl, fun _ => ⟨hcl, rfl⟩, fun _ => ⟨rfl, [], hc.dropped _ _ hs⟩, fun _ => rfl, by simp, by simp⟩
  | report hs =>
    have hcl := hc.closed (by rw [hs]; rfl)
    have how := hc.owner (by rw [hs]; rfl)
    exact ⟨fun _ => hcl, fun _ => ⟨hcl, rfl⟩, fun _ => ⟨rfl, _, rfl⟩, fun _ => how, by simp, by simp⟩
  | halt hs hpan ht =>
    have hcl := (hc.quiet hpan).1
    exact ⟨fun _ => hcl, fun _ => ⟨hcl, rfl⟩, fun _ => ⟨rfl, (hc.prints hpan).2⟩, fun _ => hpan, by simp, fun _ => ht⟩

/-- A step of `vprintf` keeps the messages of the CPU, those said and those to come. -/
theorem Own.future (h : Own n bsp i sh c sh' c') :
    sh'.saidBy i ++ c'.future = sh.saidBy i ++ c.future := by
  cases h with
  | acquire hs _ => simp [Cpu.future, Shared.saidBy, hs]
  | report hs => simp [Cpu.future, Shared.saidBy, hs, plan_print]
  | interrupts hs ht => simp [Cpu.future, Shared.saidBy, hs, ht, plan]
  | mpInitDone hs ht => simp [Cpu.future, Shared.saidBy, hs, ht, plan]
  | print hs ht => simp [Cpu.future, Shared.saidBy, hs, ht, plan]
  | panic hs ht => simp [Cpu.future, Shared.saidBy, hs, ht, plan]
  | cli hs => simp [Cpu.future, hs]
  | lockTerm hs => simp [Cpu.future, Shared.saidBy, hs]
  | write hs => simp [Cpu.future, Shared.saidBy, hs]
  | unlockTerm hs => simp [Cpu.future, Shared.saidBy, hs]
  | release hs => simp [Cpu.future, Shared.saidBy, hs]
  | restore hs => simp [Cpu.future, hs]
  | panicLock hs => simp [Cpu.future, Shared.saidBy, hs]
  | halt hs => simp [Cpu.future, hs]

theorem Own.coming (h : Own n bsp i sh c sh' c') (hc : c.Ok) (hp : c'.panicking = false) :
    c.panicking = false ∧ sh'.saidBy i ++ c'.coming = sh.saidBy i ++ c.coming := by
  cases h with
  | acquire hs _ => exact ⟨hp, by simp [Cpu.coming, Shared.saidBy, hs]⟩
  | report hs => exact absurd ((hc.owner (by rw [hs]; rfl)).symm.trans hp) (by decide)
  | panicLock hs => cases hp
  | halt hs hpan => exact absurd (hpan.symm.trans hp) (by decide)
  | interrupts hs ht | print hs ht | panic hs ht => exact ⟨hp, by simp [Cpu.coming, hs, ht, talk]⟩
  | mpInitDone hs ht => exact ⟨hp, by simp [Cpu.coming, Shared.saidBy, hs, ht, talk]⟩
  | cli hs | restore hs => exact ⟨hp, by simp [Cpu.coming, hs]⟩
  | lockTerm hs | write hs | unlockTerm hs | release hs => exact ⟨hp, by simp [Cpu.coming, Shared.saidBy, hs]⟩

/-- Whoever gets `panic_lock` was waiting for it. -/
theorem Own.becomes (h : Own n bsp i sh c sh' c') (hc : c.panicking = false) (hc' : c'.panicking = true) :
    ∃ r x, c.spot = .panics r x := by
  cases h with
  | panicLock hs => exact ⟨_, _, hs⟩
  | _ => exact absurd (hc.symm.trans hc') (by decide)

theorem Own.saidBy (h : Own n bsp i sh c sh' c') (hj : j ≠ i) : sh'.saidBy j = sh.saidBy j := by
  cases h with
  | acquire => simp [Shared.saidBy, Ne.symm hj]
  | _ => rfl

theorem Own.not_stopped (h : Own n bsp i sh c sh' c') : c.spot ≠ .stopped ∧ c'.spot ≠ .stopped := by
  cases h with
  | interrupts hs | mpInitDone hs => simp [hs]
  | print hs | cli hs | acquire hs | lockTerm hs | write hs | unlockTerm hs | release hs | restore hs | panic hs
  | panicLock hs | report hs | halt hs => simp [hs]

/-! ## The locks -/

theorem Own.panic_lock {cpus : Nat → Cpu} (h : Own n bsp i sh (cpus i) sh' c')
    (hg : Guards Cpu.panicking sh.panicLock cpus) : Guards Cpu.panicking sh'.panicLock (Function.update cpus i c') := by
  cases h with
  | panicLock hs hl => exact hg.take hl rfl
  | _ => exact hg.keep rfl

theorem Own.printf_lock {cpus : Nat → Cpu} (h : Own n bsp i sh (cpus i) sh' c')
    (hg : Guards Cpu.printing sh.printfLock cpus) :
    Guards Cpu.printing sh'.printfLock (Function.update cpus i c') := by
  cases h with
  | acquire hs hl => exact hg.take hl rfl
  | release hs => exact hg.drop (by simp [Cpu.printing, hs]) rfl
  | interrupts hs | mpInitDone hs | print hs | cli hs | lockTerm hs | write hs | unlockTerm hs | restore hs | panic hs
  | panicLock hs | report hs | halt hs => exact hg.keep (by simp [Cpu.printing, hs])

theorem Own.term_lock {cpus : Nat → Cpu} (h : Own n bsp i sh (cpus i) sh' c') (hg : Guards Cpu.writing sh.termLock cpus) :
    Guards Cpu.writing sh'.termLock (Function.update cpus i c') := by
  cases h with
  | lockTerm hs hl => exact hg.take hl rfl
  | unlockTerm hs => exact hg.drop (by simp [Cpu.writing, hs]) rfl
  | interrupts hs | mpInitDone hs | print hs | cli hs | acquire hs | write hs | release hs | restore hs | panic hs
  | panicLock hs | report hs | halt hs => exact hg.keep (by simp [Cpu.writing, hs])

/-! ## The screen -/

/-- What is on the screen, with the rest of the message that is being printed. -/
structure Screen (sh : Shared) (cpus : Nat → Cpu) : Prop where
  busy : ∀ i, (cpus i).printing = true → ∃ pre m, sh.said = pre ++ [(i, m)] ∧ (cpus i).rest <:+ m ∧
    sh.screen ++ (cpus i).rest = sh.text
  idle : (∀ i, (cpus i).printing = false) → sh.screen = sh.text

theorem Screen.outside {cpus : Nat → Cpu} (h : Screen sh cpus) (hscreen : sh'.screen = sh.screen) (hsaid : sh'.said = sh.said)
    (hc : (cpus i).printing = false) (hc' : c'.printing = false) : Screen sh' (Function.update cpus i c') := by
  have htext : sh'.text = sh.text := by rw [Shared.text, hsaid, Shared.text]
  have hsame : ∀ j, (Function.update cpus i c' j).printing = (cpus j).printing := by
    intro j
    rw [Function.update_apply]
    split
    · next hj => rw [hj, hc, hc']
    · rfl
  refine ⟨?_, ?_⟩
  · intro j hj
    have hji : j ≠ i := by
      rintro rfl
      rw [Function.update_self, hc'] at hj
      cases hj
    rw [Function.update_of_ne hji] at hj ⊢
    rw [hscreen, htext, hsaid]
    exact h.busy j hj
  · intro hall
    rw [hscreen, htext]
    exact h.idle fun j => (hsame j).symm.trans (hall j)

/-- The CPU that prints writes on. -/
theorem Screen.inside {cpus : Nat → Cpu} (h : Screen sh cpus) (hg : Guards Cpu.printing sh.printfLock cpus)
    (hc : (cpus i).printing = true) (hc' : c'.printing = true) (hsaid : sh'.said = sh.said)
    (hrest : c'.rest <:+ (cpus i).rest) (hscreen : sh'.screen ++ c'.rest = sh.screen ++ (cpus i).rest) :
    Screen sh' (Function.update cpus i c') := by
  refine ⟨?_, ?_⟩
  · intro j hj
    by_cases hji : j = i
    · subst hji
      obtain ⟨pre, m, hpre, hm, htext⟩ := h.busy j hc
      rw [Function.update_self, hsaid]
      refine ⟨pre, m, hpre, hrest.trans hm, ?_⟩
      rw [hscreen, htext, Shared.text, Shared.text, hsaid]
    · rw [Function.update_of_ne hji] at hj
      exact absurd (hg.sole j i hj hc) hji
  · intro hall
    have := hall i
    rw [Function.update_self, hc'] at this
    cases this

theorem Own.screen {cpus : Nat → Cpu} (h : Own n bsp i sh (cpus i) sh' c') (hg : Guards Cpu.printing sh.printfLock cpus)
    (hscr : Screen sh cpus) : Screen sh' (Function.update cpus i c') := by
  cases h with
  | acquire hs hl =>
    have htext := hscr.idle (hg.free hl)
    refine ⟨?_, ?_⟩
    · intro j hj
      by_cases hji : j = i
      · subst hji
        rw [Function.update_self]
        refine ⟨sh.said, _, rfl, List.suffix_rfl, ?_⟩
        simp only [Cpu.rest, Shared.text, List.map_append, List.flatten_append] at htext ⊢
        rw [htext]
        simp
      · rw [Function.update_of_ne hji, hg.free hl j] at hj
        cases hj
    · intro hall
      have := hall i
      rw [Function.update_self] at this
      cases this
  | lockTerm hs hl =>
    exact hscr.inside hg (by simp [Cpu.printing, hs]) rfl rfl (by simp [Cpu.rest, hs]) (by simp [Cpu.rest, hs])
  | write hs => exact hscr.inside hg (by simp [Cpu.printing, hs]) rfl rfl (by simp [Cpu.rest, hs]) (by simp [Cpu.rest, hs])
  | unlockTerm hs =>
    exact hscr.inside hg (by simp [Cpu.printing, hs]) rfl rfl (by simp [Cpu.rest, hs]) (by simp [Cpu.rest, hs])
  | release hs =>
    have hi : (cpus i).printing = true := by simp [Cpu.printing, hs]
    obtain ⟨-, -, -, -, hb⟩ := hscr.busy i hi
    refine ⟨?_, ?_⟩
    · intro j hj
      by_cases hji : j = i
      · subst hji
        rw [Function.update_self] at hj
        cases hj
      · rw [Function.update_of_ne hji] at hj
        exact absurd (hg.sole j i hj hi) hji
    · intro _
      simpa [Cpu.rest, hs, Shared.text] using hb
  | interrupts hs | mpInitDone hs | print hs | cli hs | restore hs | panic hs | panicLock hs | report hs | halt hs =>
    exact hscr.outside rfl rfl (by simp [Cpu.printing, hs]) (by simp [Cpu.printing, hs])

/-! ## The machine -/

/-- A CPU that will say `coming` has said the messages before it, unless it was stopped on the way. -/
structure Tells (sh : Shared) (i : Nat) (c : Cpu) (coming goal : List Text) : Prop where
  said : sh.saidBy i <+: goal
  goes : c.spot ≠ .stopped → sh.saidBy i ++ coming = goal

theorem Tells.own {coming coming' goal : List Text} (ht : Tells sh i c coming goal) (h : Own n bsp i sh c sh' c')
    (hc : sh'.saidBy i ++ coming' = sh.saidBy i ++ coming) : Tells sh' i c' coming' goal := by
  have heq := hc.trans (ht.goes h.not_stopped.1)
  exact ⟨⟨_, heq⟩, fun _ => heq⟩

theorem Tells.other {coming goal : List Text} (ht : Tells sh j c coming goal) (h : sh'.saidBy j = sh.saidBy j) :
    Tells sh' j c coming goal :=
  ⟨h ▸ ht.said, h ▸ ht.goes⟩

structure Ok (prog : Nat → List Action) (s : State) : Prop where
  cpu : ∀ i, (s.cpus i).Ok
  panic : Guards Cpu.panicking s.shared.panicLock s.cpus
  printf : Guards Cpu.printing s.shared.printfLock s.cpus
  term : Guards Cpu.writing s.shared.termLock s.cpus
  screen : Screen s.shared s.cpus
  plan : ∀ i, Tells s.shared i (s.cpus i) (s.cpus i).future (plan (prog i))
  talk : ∀ i, (s.cpus i).panicking = false → Tells s.shared i (s.cpus i) (s.cpus i).coming (talk (prog i))
  reports : ∀ i, (s.cpus i).panicking = true → ∃ r x, Console.plan (prog i) = Console.talk (prog i) ++ report r x

variable {prog : Nat → List Action}

/-- What holds of all CPUs holds after a change of one of them. -/
theorem update_all {Q : Nat → Cpu → Prop} {cpus : Nat → Cpu} (hi : Q i c') (hj : ∀ j, j ≠ i → Q j (cpus j)) (j : Nat) :
    Q j (Function.update cpus i c' j) := by
  by_cases hji : j = i
  · subst hji
    rwa [Function.update_self]
  · rw [Function.update_of_ne hji]
    exact hj j hji

theorem Ok.own (hok : Ok prog s) (h : Own n bsp i s.shared (s.cpus i) sh' c') :
    Ok prog { s with shared := sh', cpus := Function.update s.cpus i c' } := by
  refine ⟨?_, h.panic_lock hok.panic, h.printf_lock hok.printf, h.term_lock hok.term, h.screen hok.printf hok.screen, ?_, ?_,
    ?_⟩
  · exact update_all (Q := fun _ c => c.Ok) (h.ok (hok.cpu i)) (fun j _ => hok.cpu j)
  · exact update_all (Q := fun j c => Tells sh' j c c.future (Console.plan (prog j))) ((hok.plan i).own h h.future)
      (fun j hj => (hok.plan j).other (h.saidBy hj))
  · refine update_all (Q := fun j c => c.panicking = false → Tells sh' j c c.coming (Console.talk (prog j))) ?_
      (fun j hj hp => (hok.talk j hp).other (h.saidBy hj))
    intro hp
    obtain ⟨hp', heq⟩ := h.coming (hok.cpu i) hp
    exact (hok.talk i hp').own h heq
  · refine update_all (Q := fun j c => c.panicking = true → ∃ r x, Console.plan (prog j) = Console.talk (prog j) ++ report r x)
      ?_ (fun j _ => hok.reports j)
    intro hp
    cases hp' : (s.cpus i).panicking with
    | true => exact hok.reports i hp'
    | false =>
      obtain ⟨r, x, hs⟩ := h.becomes hp' hp
      have hplan := (hok.plan i).goes h.not_stopped.1
      have htalk := (hok.talk i hp').goes h.not_stopped.1
      simp only [Cpu.future, Cpu.coming, hs, List.append_nil] at hplan htalk
      exact ⟨r, x, by rw [← hplan, ← htalk]⟩

/-- A CPU changes without a lock and without a word. -/
theorem Ok.aside {pending : Nat → Bool} (hok : Ok prog s) (hc : c'.Ok) (hpan : c'.panicking = (s.cpus i).panicking)
    (hprint : (s.cpus i).printing = false) (hprint' : c'.printing = false) (hwrite : (s.cpus i).writing = false)
    (hwrite' : c'.writing = false) (hfut : c'.spot ≠ .stopped → (s.cpus i).spot ≠ .stopped ∧
      c'.future = (s.cpus i).future ∧ c'.panicking = true) :
    Ok prog { s with cpus := Function.update s.cpus i c', pending := pending } := by
  refine ⟨?_, hok.panic.keep hpan, hok.printf.keep (by rw [hprint, hprint']), hok.term.keep (by rw [hwrite, hwrite']),
    hok.screen.outside rfl rfl hprint hprint', ?_, ?_, ?_⟩
  · exact update_all (Q := fun _ c => c.Ok) hc (fun j _ => hok.cpu j)
  · refine update_all (Q := fun j c => Tells s.shared j c c.future (Console.plan (prog j))) ?_ (fun j _ => hok.plan j)
    refine ⟨(hok.plan i).said, ?_⟩
    intro hne
    obtain ⟨hne', heq, -⟩ := hfut hne
    rw [heq]
    exact (hok.plan i).goes hne'
  · refine update_all (Q := fun j c => c.panicking = false → Tells s.shared j c c.coming (Console.talk (prog j))) ?_
      (fun j _ => hok.talk j)
    intro hp
    refine ⟨(hok.talk i (hpan ▸ hp)).said, ?_⟩
    intro hne
    rw [(hfut hne).2.2] at hp
    cases hp
  · exact update_all (Q := fun j c => c.panicking = true → ∃ r x, Console.plan (prog j) = Console.talk (prog j) ++ report r x)
      (fun hp => hok.reports i (hpan ▸ hp)) (fun j _ => hok.reports j)

/-- With the interrupts on, a CPU is at no lock. -/
theorem Cpu.Ok.free (h : c.Ok) (hi : c.intr = true) :
    c.panicking = false ∧ c.printing = false ∧ c.writing = false := by
  have hint : c.spot.interruptible = true := by
    by_contra hne
    have := h.closed (Bool.eq_false_iff.mpr hne)
    rw [hi] at this
    cases this
  refine ⟨?_, ?_, ?_⟩
  · by_contra hne
    have := (h.quiet (Bool.eq_true_of_not_eq_false hne)).1
    rw [hi] at this
    cases this
  · cases hs : c.spot <;> simp [hs, Spot.interruptible] at hint <;> simp [Cpu.printing, hs]
  · cases hs : c.spot <;> simp [hs, Spot.interruptible] at hint <;> simp [Cpu.writing, hs]

theorem Ok.move (hok : Ok prog s) (h : Move n bsp s s') : Ok prog s' := by
  cases h with
  | own h => exact hok.own h
  | @ipi i j l r x hs =>
    have hc := hok.cpu i
    have how := hc.owner (by rw [hs]; rfl)
    have hcl := hc.closed (by rw [hs]; rfl)
    refine hok.aside ⟨fun _ => hcl, fun _ => ⟨hcl, rfl⟩, fun _ => ⟨rfl, (hc.prints how).2⟩, fun _ => how, by simp, by simp⟩ rfl
      (by simp [Cpu.printing, hs]) rfl (by simp [Cpu.writing, hs]) rfl ?_
    simp [hs, Cpu.future, how]
  | @abort i hp hi =>
    obtain ⟨hpan, hprint, hwrite⟩ := (hok.cpu i).free hi
    refine hok.aside ⟨fun _ => rfl, by simp [hpan], by simp [hpan], by simp [Spot.reporting], by simp, by simp⟩ rfl hprint rfl
      hwrite rfl (by simp)

theorem ok_start (mpInitDone : Bool) (intr : Nat → Bool) (prog : Nat → List Action) :
    Ok prog (start mpInitDone intr prog) := by
  refine ⟨?_, .start fun _ => rfl, .start fun _ => rfl, .start fun _ => rfl, ⟨?_, fun _ => rfl⟩,
    fun i => ⟨List.nil_prefix, fun _ => rfl⟩, fun i _ => ⟨List.nil_prefix, fun _ => rfl⟩,
    fun i hi => by cases hi⟩
  · intro i
    refine ⟨?_, ?_, ?_, ?_, ?_, ?_⟩ <;> simp [start, Spot.interruptible, Spot.reporting]
  · intro i hi
    cases hi

theorem Ok.run {mpInitDone : Bool} {intr : Nat → Bool}
    (h : Relation.ReflTransGen (Move n bsp) (start mpInitDone intr prog) s) : Ok prog s := by
  induction h with
  | refl => exact ok_start ..
  | tail _ hstep ih => exact ih.move hstep

/-- However the CPUs interleave, the screen shows whole messages, one after the other, the last one perhaps as far
as the CPU with `printf_lock` has got with it. Each CPU's messages are there in the order of its
program, as far as it has come; and of all the CPUs that panic only one says more than what it said before. -/
theorem messages_are_whole (n bsp : Nat) (mpInitDone : Bool) (intr : Nat → Bool) (prog : Nat → List Action) (s : State)
    (h : Relation.ReflTransGen (Move n bsp) (start mpInitDone intr prog) s) :
    (s.shared.screen = s.shared.text ∨
      ∃ pre i m rest, s.shared.said = pre ++ [(i, m)] ∧ rest <:+ m ∧ s.shared.screen ++ rest = s.shared.text ∧
        (s.cpus i).printing = true ∧ (s.cpus i).intr = false) ∧
    (∀ i, s.shared.saidBy i <+: plan (prog i)) ∧
    ∃ reporter, ∀ i, i ≠ reporter → s.shared.saidBy i <+: talk (prog i) := by
  have hok := Ok.run h
  refine ⟨?_, fun i => (hok.plan i).said, ?_⟩
  · by_cases hp : ∃ i, (s.cpus i).printing = true
    · obtain ⟨i, hi⟩ := hp
      obtain ⟨pre, m, hpre, hm, htext⟩ := hok.screen.busy i hi
      refine .inr ⟨pre, i, m, _, hpre, hm, htext, hi, ?_⟩
      refine Bool.eq_false_iff.mpr fun hint => ?_
      exact absurd (hi.symm.trans ((hok.cpu i).free hint).2.1) (by decide)
    · refine .inl (hok.screen.idle ?_)
      intro i
      exact Bool.eq_false_iff.mpr fun hi => hp ⟨i, hi⟩
  · by_cases hp : ∃ i, (s.cpus i).panicking = true
    · obtain ⟨i, hi⟩ := hp
      refine ⟨i, ?_⟩
      intro j hj
      have hquiet : (s.cpus j).panicking = false := Bool.eq_false_iff.mpr fun hpj => hj (hok.panic.sole j i hpj hi)
      exact (hok.talk j hquiet).said
    · refine ⟨0, ?_⟩
      intro j _
      have hquiet : (s.cpus j).panicking = false := Bool.eq_false_iff.mpr fun hpj => hp ⟨j, hpj⟩
      exact (hok.talk j hquiet).said

/-- One CPU prints, the other panics. -/
def twoProgs (i : Nat) : List Action :=
  match i with
  | 0 => [.print ['a']]
  | 1 => [.panic ['b'] none]
  | _ => []

theorem messages_are_whole_one : ∃ s, Relation.ReflTransGen (Move 2 0) (start true (fun _ => true) twoProgs) s ∧
    s.shared.saidBy 0 = [['a']] ∧ ∃ reporter, ∀ i, i ≠ reporter → s.shared.saidBy i <+: talk (twoProgs i) := by
  have h1 : Relation.ReflTransGen (Move 2 0) (start true (fun _ => true) twoProgs) _ :=
    .single (.own (i := 0) (.print rfl rfl))
  have h2 := h1.tail (.own (i := 0) (.cli rfl))
  have h3 := h2.tail (.own (i := 0) (.acquire rfl rfl))
  exact ⟨_, h3, rfl, (messages_are_whole 2 0 _ _ _ _ h3).2.2⟩

/-! ## The report comes out -/

/-- The CPUs that are still to be interrupted. -/
def Spot.left : Spot → List Nat
  | .ipis l _ _ => l
  | _ => []

/-- The accesses that a message takes. -/
def cost (m : Text) : Nat := 3 * m.length + 5

def reportCost (r : Text) (x : Option Text) : Nat := ((report r x).map cost).sum

def Action.work (k : Nat) : Action → Nat
  | .print m => cost m
  | .interrupts _ => 1
  | .mpInitDone => 1
  | .panic r x => k + 3 + reportCost r x

def Spot.work (k : Nat) : Spot → Nat
  | .called m => 3 * m.length + 4
  | .spin m _ => 3 * m.length + 3
  | .put _ rest => 3 * rest.length + 2
  | .locked _ _ rest => 3 * rest.length + 4
  | .written _ rest => 3 * rest.length + 3
  | .restore _ => 1
  | .panics r x => k + 2 + reportCost r x
  | .ipis l r x => l.length + 1 + reportCost r x
  | _ => 0

/-- The accesses that a CPU has still to make, at most; `k` is the number of interrupts of a panic. -/
def Cpu.work (k : Nat) (c : Cpu) : Nat :=
  match c.spot with
  | .halted | .stopped => 0
  | s => 1 + s.work k + (c.todo.map (·.work k)).sum

theorem sum_print (k : Nat) (ms : List Text) : ((ms.map Action.print).map (·.work k)).sum = (ms.map cost).sum := by
  rw [List.map_map]
  rfl

theorem Own.work (h : Own n bsp i sh c sh' c') :
    c'.work (targets n bsp).length < c.work (targets n bsp).length := by
  cases h with
  | interrupts hs ht => simp only [Cpu.work, hs, ht, List.map_cons, List.sum_cons, Action.work]; omega
  | mpInitDone hs ht => simp only [Cpu.work, hs, ht, List.map_cons, List.sum_cons, Action.work]; omega
  | print hs ht => simp only [Cpu.work, hs, ht, List.map_cons, List.sum_cons, Action.work, Spot.work, cost]; omega
  | cli hs => simp only [Cpu.work, hs, Spot.work]; omega
  | acquire hs => simp only [Cpu.work, hs, Spot.work]; omega
  | lockTerm hs => simp only [Cpu.work, hs, Spot.work, List.length_cons]; omega
  | write hs => simp only [Cpu.work, hs, Spot.work]; omega
  | unlockTerm hs => simp only [Cpu.work, hs, Spot.work]; omega
  | release hs => simp only [Cpu.work, hs, Spot.work, List.length_nil]; omega
  | restore hs => simp only [Cpu.work, hs, Spot.work]; omega
  | panic hs ht =>
    simp only [Cpu.work, hs, ht, List.map_cons, List.sum_cons, Action.work, Spot.work, List.map_nil, List.sum_nil]
    omega
  | panicLock hs =>
    simp only [Cpu.work, hs, Spot.work]
    split
    · omega
    · simp only [List.length_nil]
      omega
  | report hs =>
    simp only [Cpu.work, hs, Spot.work, sum_print, reportCost, List.length_nil]
    omega
  | halt hs hp ht => simp [Cpu.work, hs]

/-- Only the CPUs that `mp_init` has brought up have anything to do. -/
structure Live (n bsp : Nat) (s : State) : Prop where
  far : ∀ i, n ≤ i → (s.cpus i).spot = .idle ∧ (s.cpus i).todo = [] ∧ (s.cpus i).panicking = false ∧ s.pending i = false
  left : ∀ i, ∀ j ∈ (s.cpus i).spot.left, j ∈ targets n bsp
  alarm : ∀ j, s.pending j = true ∨ (s.cpus j).spot = .stopped → s.shared.panicLock = true

theorem Own.near (h : Own n bsp i sh c sh' c') : ¬ (c.spot = .idle ∧ c.todo = [] ∧ c.panicking = false) := by
  rintro ⟨hs, ht, hp⟩
  cases h with
  | halt _ hp' => exact absurd (hp.symm.trans hp') (by decide)
  | interrupts _ ht' | mpInitDone _ ht' | print _ ht' | panic _ ht' => cases ht.symm.trans ht'
  | cli hs' | acquire hs' | lockTerm hs' | write hs' | unlockTerm hs' | release hs' | restore hs' | panicLock hs'
  | report hs' => cases hs.symm.trans hs'

/-- The CPUs to be interrupted are chosen when `panic_lock` is taken. -/
theorem Own.left (h : Own n bsp i sh c sh' c') : c'.spot.left = [] ∨ c'.spot.left = targets n bsp := by
  cases h with
  | interrupts hs | mpInitDone hs => simp [hs, Spot.left]
  | panicLock =>
    simp only [Spot.left]
    split
    · exact .inr rfl
    · exact .inl rfl
  | _ => exact .inl rfl

theorem mem_targets : j ∈ targets n bsp ↔ j < n ∧ j ≠ bsp := by
  simp [targets]

theorem Cpu.Ok.work_pos (h : c.Ok) (hi : c.intr = true) (k : Nat) : 0 < c.work k := by
  have hcl := h.closed
  rw [hi] at hcl
  unfold Cpu.work
  cases hs : c.spot <;> simp [hs, Spot.interruptible] at hcl ⊢

/-- A move is one CPU's, which has then less to do. -/
theorem Move.changes (hok : Ok prog s) (hl : Live n bsp s) (h : Move n bsp s s') :
    ∃ i c, i < n ∧ s'.cpus = Function.update s.cpus i c ∧ (∀ j ∈ c.spot.left, j ∈ targets n bsp) ∧
      (∀ j, n ≤ j → s'.pending j = s.pending j) ∧
      c.work (targets n bsp).length < (s.cpus i).work (targets n bsp).length := by
  cases h with
  | @own i sh c h =>
    refine ⟨i, c, ?_, rfl, ?_, fun _ _ => rfl, h.work⟩
    · by_contra hge
      obtain ⟨h1, h2, h3, -⟩ := hl.far i (by omega)
      exact h.near ⟨h1, h2, h3⟩
    · intro j hj
      rcases h.left with hnil | hall
      · rw [hnil] at hj
        cases hj
      · rwa [hall] at hj
  | @ipi i j l r x hs =>
    have hleft := hl.left i
    rw [hs] at hleft
    have hj : j < n := (mem_targets.mp (hleft j List.mem_cons_self)).1
    refine ⟨i, _, ?_, rfl, fun k hk => hleft k (List.mem_cons_of_mem j hk), ?_, ?_⟩
    · by_contra hge
      obtain ⟨h1, -⟩ := hl.far i (by omega)
      cases hs.symm.trans h1
    · intro k hk
      exact Function.update_of_ne (by omega) ..
    · simp only [Cpu.work, hs, Spot.work, List.length_cons]
      omega
  | @abort i hp hint =>
    have hi : i < n := by
      by_contra hge
      obtain ⟨-, -, -, h4⟩ := hl.far i (by omega)
      cases hp.symm.trans h4
    refine ⟨i, _, hi, rfl, fun k hk => (by cases hk), ?_, (hok.cpu i).work_pos hint _⟩
    intro k hk
    exact Function.update_of_ne (by omega) ..

theorem Own.keeps_panic_lock (h : Own n bsp i sh c sh' c') (hp : sh.panicLock = true) : sh'.panicLock = true := by
  cases h with
  | panicLock => rfl
  | _ => exact hp

/-- CPUs are interrupted and stopped only after someone has got `panic_lock`. -/
theorem Move.alarm (hok : Ok prog s) (hl : Live n bsp s) (h : Move n bsp s s') (j : Nat)
    (hj : s'.pending j = true ∨ (s'.cpus j).spot = .stopped) : s'.shared.panicLock = true := by
  cases h with
  | @own i sh c h =>
    refine h.keeps_panic_lock (hl.alarm j ?_)
    refine hj.imp_right ?_
    intro hstop
    change (Function.update s.cpus i c j).spot = _ at hstop
    by_cases hji : j = i
    · subst hji
      rw [Function.update_self] at hstop
      exact absurd hstop h.not_stopped.2
    · rwa [Function.update_of_ne hji] at hstop
  | @ipi i k l r x hs => exact hok.panic.held i ((hok.cpu i).owner (by rw [hs]; rfl))
  | @abort i hp _ => exact hl.alarm i (.inl hp)

theorem Live.move (hl : Live n bsp s) (hok : Ok prog s) (h : Move n bsp s s') : Live n bsp s' := by
  obtain ⟨i, c, hi, hcpus, hleft, hpend, -⟩ := h.changes hok hl
  refine ⟨?_, ?_, h.alarm hok hl⟩
  · intro j hj
    rw [hcpus, Function.update_of_ne (by omega), hpend j hj]
    exact hl.far j hj
  · rw [hcpus]
    exact update_all (Q := fun _ c => ∀ j ∈ c.spot.left, j ∈ targets n bsp) hleft (fun j _ => hl.left j)

theorem live_start {mpInitDone : Bool} {intr : Nat → Bool} (hprog : ∀ i, n ≤ i → prog i = []) :
    Live n bsp (start mpInitDone intr prog) :=
  ⟨fun i hi => ⟨rfl, hprog i hi, rfl, rfl⟩, fun _ _ hj => (by cases hj), fun _ hj => (by rcases hj with h | h <;> cases h)⟩

/-- What all CPUs together have still to do. -/
def work (n bsp : Nat) (s : State) : Nat := ∑ i ∈ Finset.range n, (s.cpus i).work (targets n bsp).length

theorem Move.work_lt (hok : Ok prog s) (hl : Live n bsp s) (h : Move n bsp s s') : work n bsp s' < work n bsp s := by
  obtain ⟨i, c, hi, hcpus, -, -, hlt⟩ := h.changes hok hl
  have hle : ∀ j, (s'.cpus j).work (targets n bsp).length ≤ (s.cpus j).work (targets n bsp).length := by
    rw [hcpus]
    exact update_all (Q := fun j c => c.work (targets n bsp).length ≤ (s.cpus j).work (targets n bsp).length) hlt.le
      (fun j _ => le_rfl)
  refine Finset.sum_lt_sum (fun j _ => hle j) ⟨i, Finset.mem_range.mpr hi, ?_⟩
  rw [hcpus, Function.update_self]
  exact hlt

/-! ## The end of a run -/

/-- If nobody can move, nobody is in the middle of a message. -/
theorem Ok.silent (hok : Ok prog s) (hq : ∀ s', ¬ Move n bsp s s') (i : Nat) : (s.cpus i).printing = false := by
  cases hp : (s.cpus i).printing with
  | false => rfl
  | true =>
    exfalso
    -- the one with the terminal's lock is this CPU, if there is one
    cases hs : (s.cpus i).spot with
    | put old rest =>
      cases rest with
      | nil => exact hq _ (.own (.release hs))
      | cons ch rest =>
        cases hlock : s.shared.termLock with
        | false => exact hq _ (.own (.lockTerm hs hlock))
        | true =>
          obtain ⟨j, hj⟩ := hok.term.owner hlock
          cases hsj : (s.cpus j).spot with
          | locked old ch rest => exact hq _ (.own (.write hsj))
          | written old rest => exact hq _ (.own (.unlockTerm hsj))
          | _ => simp [Cpu.writing, hsj] at hj
    | locked old ch rest => exact hq _ (.own (.write hs))
    | written old rest => exact hq _ (.own (.unlockTerm hs))
    | _ => simp [Cpu.printing, hs] at hp

/-- Where a CPU is at the end. -/
inductive Ended (s : State) (i : Nat) : Prop
  | finished : (s.cpus i).spot = .idle → (s.cpus i).todo = [] → (s.cpus i).panicking = false → Ended s i
  | halted : (s.cpus i).spot = .halted → Ended s i
  | stopped : (s.cpus i).spot = .stopped → Ended s i
  | waits (r : Text) (x : Option Text) : (s.cpus i).spot = .panics r x → s.shared.panicLock = true → Ended s i

theorem Ok.ended (hok : Ok prog s) (hq : ∀ s', ¬ Move n bsp s s') (i : Nat) : Ended s i := by
  have hsilent := hok.silent hq
  have hfree : s.shared.printfLock = false := by
    refine Bool.eq_false_iff.mpr fun hl => ?_
    obtain ⟨j, hj⟩ := hok.printf.owner hl
    exact absurd (hj.symm.trans (hsilent j)) (by decide)
  have hown : ∀ {sh c}, ¬ Own n bsp i s.shared (s.cpus i) sh c := fun h => hq _ (.own h)
  have hi := hsilent i
  cases hs : (s.cpus i).spot with
  | idle =>
    cases ht : (s.cpus i).todo with
    | nil =>
      cases hp : (s.cpus i).panicking with
      | false => exact .finished hs ht hp
      | true => exact absurd (.halt hs hp ht) hown
    | cons a t =>
      cases a with
      | print m => exact absurd (.print hs ht) hown
      | interrupts b => exact absurd (.interrupts hs ht) hown
      | mpInitDone => exact absurd (.mpInitDone hs ht) hown
      | panic r x => exact absurd (.panic hs ht) hown
  | called m => exact absurd (.cli hs) hown
  | spin m old => exact absurd (.acquire hs hfree) hown
  | restore old => exact absurd (.restore hs) hown
  | panics r x =>
    cases hl : s.shared.panicLock with
    | true => exact .waits r x hs hl
    | false => exact absurd (.panicLock hs hl) hown
  | ipis l r x =>
    cases l with
    | nil => exact absurd (.report hs) hown
    | cons j l => exact absurd (.ipi hs) (hq _)
  | halted => exact .halted hs
  | stopped => exact .stopped hs
  | put | locked | written => simp [Cpu.printing, hs] at hi

/-- A CPU at the end of its program has said everything. -/
theorem Ok.told (hok : Ok prog s) (hs : (s.cpus i).spot = .idle ∨ (s.cpus i).spot = .halted) (ht : (s.cpus i).todo = []) :
    s.shared.saidBy i = Console.plan (prog i) := by
  have hne : (s.cpus i).spot ≠ .stopped := by
    rcases hs with h | h <;> rw [h] <;> simp
  have hfuture : (s.cpus i).future = [] := by
    rcases hs with h | h <;> simp [Cpu.future, h, ht, Console.plan]
  have := (hok.plan i).goes hne
  rwa [hfuture, List.append_nil] at this

/-- The one with `panic_lock` has halted. -/
theorem Ended.halted_of_panicking (h : Ended s i) (hok : Ok prog s) (hp : (s.cpus i).panicking = true) :
    (s.cpus i).spot = .halted := by
  have hout := ((hok.cpu i).prints hp).1
  cases h with
  | finished _ _ hp' => exact absurd (hp.symm.trans hp') (by decide)
  | halted hs => exact hs
  | stopped hs =>
    rw [hs] at hout
    cases hout
  | waits r x hs =>
    rw [hs] at hout
    cases hout

/-- Once a CPU reports, every other one but the bootstrap processor has been or will be interrupted. -/
structure Sent (n bsp : Nat) (s : State) : Prop where
  done : s.shared.mpInitDone = true
  sent : ∀ i, (s.cpus i).panicking = true → ∀ j ∈ targets n bsp,
    j ∈ (s.cpus i).spot.left ∨ s.pending j = true ∨ (s.cpus j).spot = .stopped

theorem Own.sends (h : Own n bsp i sh c sh' c') (hm : sh.mpInitDone = true) (hp : c'.panicking = true) :
    c.panicking = true ∧ c'.spot.left = c.spot.left ∨ c'.spot.left = targets n bsp := by
  cases h with
  | panicLock => exact .inr (by simp [Spot.left, hm])
  | interrupts hs | mpInitDone hs => exact .inl ⟨hp, rfl⟩
  | print hs | cli hs | acquire hs | lockTerm hs | write hs | unlockTerm hs | release hs | restore hs | panic hs
  | report hs | halt hs => exact .inl ⟨hp, by simp [Spot.left, hs]⟩

theorem Own.mp_done (h : Own n bsp i sh c sh' c') (hm : sh.mpInitDone = true) : sh'.mpInitDone = true := by
  cases h with
  | mpInitDone => rfl
  | _ => exact hm

theorem Sent.move (hs : Sent n bsp s) (hok : Ok prog s) (h : Move n bsp s s') : Sent n bsp s' := by
  cases h with
  | @own i sh c h =>
    have hstopped : ∀ j, (s.cpus j).spot = .stopped → (Function.update s.cpus i c j).spot = .stopped := by
      intro j hj
      rwa [Function.update_of_ne]
      rintro rfl
      exact h.not_stopped.1 hj
    refine ⟨h.mp_done hs.done, ?_⟩
    refine update_all (Q := fun _ c' => c'.panicking = true → ∀ j ∈ targets n bsp,
      j ∈ c'.spot.left ∨ s.pending j = true ∨ (Function.update s.cpus i c j).spot = .stopped) ?_ ?_
    · intro hp j hj
      rcases h.sends hs.done hp with ⟨hp', hleft⟩ | hleft
      · rw [hleft]
        exact (hs.sent i hp' j hj).imp_right (.imp_right (hstopped j))
      · exact .inl (hleft ▸ hj)
    · intro k _ hp j hj
      exact (hs.sent k hp j hj).imp_right (.imp_right (hstopped j))
  | @ipi i k l r x hspot =>
    have hstopped : ∀ j, (s.cpus j).spot = .stopped →
        (Function.update s.cpus i { s.cpus i with spot := .ipis l r x } j).spot = .stopped := by
      intro j hj
      rwa [Function.update_of_ne]
      rintro rfl
      cases hspot.symm.trans hj
    have hpend : ∀ j, s.pending j = true → Function.update s.pending k true j = true := by
      intro j hj
      rw [Function.update_apply]
      split
      · rfl
      · exact hj
    refine ⟨hs.done, ?_⟩
    refine update_all (Q := fun _ c' => c'.panicking = true → ∀ j ∈ targets n bsp,
      j ∈ c'.spot.left ∨ Function.update s.pending k true j = true ∨
        (Function.update s.cpus i { s.cpus i with spot := .ipis l r x } j).spot = .stopped) ?_ ?_
    · intro hp j hj
      rcases hs.sent i hp j hj with hleft | hrest | hrest
      · rw [hspot] at hleft
        rcases List.mem_cons.mp hleft with rfl | hl
        · exact .inr (.inl (Function.update_self ..))
        · exact .inl hl
      · exact .inr (.inl (hpend j hrest))
      · exact .inr (.inr (hstopped j hrest))
    · intro i' _ hp j hj
      exact (hs.sent i' hp j hj).imp_right (.imp (hpend j) (hstopped j))
  | @abort i hpending hint =>
    obtain ⟨hpan, -⟩ := (hok.cpu i).free hint
    refine ⟨hs.done, ?_⟩
    refine update_all (Q := fun _ c' => c'.panicking = true → ∀ j ∈ targets n bsp,
      j ∈ c'.spot.left ∨ Function.update s.pending i false j = true ∨
        (Function.update s.cpus i { s.cpus i with intr := false, spot := .stopped } j).spot = .stopped) ?_ ?_
    · intro hp
      exact absurd (hpan.symm.trans hp) (by decide)
    · intro k _ hp j hj
      by_cases hji : j = i
      · subst hji
        exact .inr (.inr (by rw [Function.update_self]))
      · rw [Function.update_of_ne hji, Function.update_of_ne hji]
        exact hs.sent k hp j hj

theorem run_ok {mpInitDone : Bool} {intr : Nat → Bool} {r : Nat → State} (hprog : ∀ i, n ≤ i → prog i = [])
    (h : Fair (Move n bsp) Eq (start mpInitDone intr prog) r) (m : Nat) :
    Ok prog (r m) ∧ Live n bsp (r m) ∧ (mpInitDone = true → Sent n bsp (r m)) := by
  refine h.invariant (I := fun s => Ok prog s ∧ Live n bsp s ∧ (mpInitDone = true → Sent n bsp s))
    ⟨ok_start .., live_start hprog, fun hm => ⟨hm, fun i hi => by cases hi⟩⟩ ?_ ?_ m
  · intro s s' hs hmove
    exact ⟨hs.1.move hmove, hs.2.1.move hs.1 hmove, fun hm => (hs.2.2 hm).move hs.1 hmove⟩
  · intro s s' hs heq
    exact heq ▸ hs

/-- Every run comes to an end, as long as it does not stop while some CPU can move: then no message is left in the
middle. A CPU that did not panic and was not stopped has said all it had to say; if
anyone panicked, one CPU has printed its whole report and halted, the others that panicked wait with their interrupts
off, and if the panic came after `mp_init` no CPU but the bootstrap processor still has its interrupts on. -/
theorem panic_report_comes_out (n bsp : Nat) (mpInitDone : Bool) (intr : Nat → Bool) (prog : Nat → List Action)
    (hprog : ∀ i, n ≤ i → prog i = []) (r : Nat → State) (h : Fair (Move n bsp) Eq (start mpInitDone intr prog) r) :
    ∃ N, ∀ m, N ≤ m → (r m).shared.screen = (r m).shared.text ∧
      (∀ i, ((r m).cpus i).spot = .stopped ∨
        (∃ t x, ((r m).cpus i).spot = .panics t x ∧ ((r m).cpus i).intr = false) ∨
        (r m).shared.saidBy i = plan (prog i)) ∧
      ((r m).shared.panicLock = true → ∃ i t x, ((r m).cpus i).spot = .halted ∧
        (r m).shared.saidBy i = talk (prog i) ++ report t x ∧
        (mpInitDone = true → ∀ j, j < n → j ≠ bsp → ((r m).cpus j).intr = false)) ∧
      ((r m).shared.panicLock = false → ∀ i, (r m).shared.saidBy i = plan (prog i)) := by
  obtain ⟨N, hN⟩ := h.ends (I := fun s => Ok prog s ∧ Live n bsp s) Nat.lt_wfRel.wf
    (fun m => ⟨(run_ok hprog h m).1, (run_ok hprog h m).2.1⟩) (fun s s' hs hm => hm.work_lt hs.1 hs.2)
    (fun s s' _ heq => heq ▸ rfl)
  refine ⟨N, ?_⟩
  intro m hm
  obtain ⟨hok, hlive, hsent⟩ := run_ok hprog h m
  have hq := hN m hm
  have hended := hok.ended hq
  refine ⟨hok.screen.idle (hok.silent hq), ?_, ?_, ?_⟩
  · intro i
    cases hended i with
    | finished hs ht _ => exact .inr (.inr (hok.told (.inl hs) ht))
    | halted hs => exact .inr (.inr (hok.told (.inr hs) ((hok.cpu i).ended hs)))
    | stopped hs => exact .inl hs
    | waits t x hs _ => exact .inr (.inl ⟨t, x, hs, (hok.cpu i).closed (by rw [hs]; rfl)⟩)
  · intro hlock
    obtain ⟨i, hi⟩ := hok.panic.owner hlock
    have hs := (hended i).halted_of_panicking hok hi
    obtain ⟨t, x, hplan⟩ := hok.reports i hi
    refine ⟨i, t, x, hs, (hok.told (.inr hs) ((hok.cpu i).ended hs)).trans hplan, ?_⟩
    intro hmp j hj hne
    rcases (hsent hmp).sent i hi j (mem_targets.mpr ⟨hj, hne⟩) with hleft | hpend | hstop
    · rw [hs] at hleft
      cases hleft
    · cases hint : ((r m).cpus j).intr with
      | false => rfl
      | true => exact absurd (.abort hpend hint) (hq _)
    · exact (hok.cpu j).closed (by rw [hstop]; rfl)
  · intro hlock i
    cases hended i with
    | finished hs ht _ => exact hok.told (.inl hs) ht
    | halted hs => exact hok.told (.inr hs) ((hok.cpu i).ended hs)
    | stopped hs => exact absurd ((hlive.alarm i (.inr hs)).symm.trans hlock) (by decide)
    | waits t x hs hlock' => exact absurd (hlock'.symm.trans hlock) (by decide)

theorem panic_report_comes_out_two : ∃ r, Fair (Move 2 0) Eq (start true (fun _ => true) twoProgs) r ∧
    ∃ N, ∀ m, N ≤ m → (r m).shared.panicLock = true → ∃ i t x, ((r m).cpus i).spot = .halted ∧
      (r m).shared.saidBy i = talk (twoProgs i) ++ report t x := by
  have hprog : ∀ i, 2 ≤ i → twoProgs i = [] := by
    intro i hi
    obtain ⟨k, rfl⟩ := Nat.exists_eq_add_of_le' hi
    rfl
  have hr : Fair (Move 2 0) Eq (start true (fun _ => true) twoProgs) _ := eager_fair (Move 2 0) _ id (fun _ => rfl)
  obtain ⟨N, hN⟩ := panic_report_comes_out 2 0 true _ twoProgs hprog _ hr
  refine ⟨_, hr, N, ?_⟩
  intro m hm hlock
  obtain ⟨i, t, x, hs, hsaid, -⟩ := (hN m hm).2.2.1 hlock
  exact ⟨i, t, x, hs, hsaid⟩

end Cynix.Lib.Console
