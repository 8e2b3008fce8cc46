import Mathlib

/-! # Code that takes spinlocks with interrupts off

A piece of code is the tree of what it does to the interrupt flag and to
locks; a choice stands for everything else it depends on. `wp` is the
precondition under which code never spins with interrupts enabled, enables
them only without locks and takes locks in the order of their ranks. Threads
that keep it cannot deadlock: whoever waits, waits for a lock above all those
it holds. -/
namespace Cynix.Base.Locking

inductive Prog (L α : Type) where
  | pure (a : α)
  | readIf (k : Bool → Prog L α)
  | setIf (b : Bool) (k : Prog L α)
  | acquire (l : L) (k : Prog L α)
  | release (l : L) (k : Prog L α)
  /-- The lock word is set to "free" by whoever, holder or not. -/
  | reset (l : L) (k : Prog L α)
  | choose (k : Nat → Prog L α)
  | halt

variable {L α β : Type}

def Prog.bind : Prog L α → (α → Prog L β) → Prog L β
  | .pure a, f => f a
  | .readIf k, f => .readIf fun b => (k b).bind f
  | .setIf b k, f => .setIf b (k.bind f)
  | .acquire l k, f => .acquire l (k.bind f)
  | .release l k, f => .release l (k.bind f)
  | .reset l k, f => .reset l (k.bind f)
  | .choose k, f => .choose fun n => (k n).bind f
  | .halt, _ => .halt

instance : Monad (Prog L) where
  pure := .pure
  bind := .bind

/-- Sets the flag and returns what it was. -/
def toggleInt (b : Bool) : Prog L Bool := .readIf fun old => .setIf b (.pure old)
def lock (l : L) : Prog L Unit := .acquire l (.pure ())
def unlock (l : L) : Prog L Unit := .release l (.pure ())
def resetLock (l : L) : Prog L Unit := .reset l (.pure ())
def any : Prog L Nat := .choose .pure

def repeatN (p : Prog L Unit) : Nat → Prog L Unit
  | 0 => pure ()
  | n + 1 => do
    p
    repeatN p n

/-! ## Preconditions -/

section
variable [DecidableEq L] (rank : L → Nat)

/-- The precondition of `p` on the flag and the locks held, for the postcondition `Q`. -/
def wp : Prog L α → (α → Bool → List L → Prop) → Bool → List L → Prop
  | .pure a, Q, i, h => Q a i h
  | .readIf k, Q, i, h => wp (k i) Q i h
  | .setIf b k, Q, _, h => (b = true → h = []) ∧ wp k Q b h
  | .acquire l k, Q, i, h => i = false ∧ (∀ l' ∈ h, rank l' < rank l) ∧ wp k Q i (l :: h)
  | .release l k, Q, i, h => wp k Q i (h.erase l)
  | .reset _ k, Q, i, h => wp k Q i h
  | .choose k, Q, i, h => ∀ n, wp (k n) Q i h
  | .halt, _, _, _ => True

variable {rank} {i b : Bool} {h : List L} {l : L} {Q : α → Bool → List L → Prop}

@[simp] theorem wp_bind (p : Prog L α) (f : α → Prog L β) {R : β → Bool → List L → Prop} :
    wp rank (p >>= f) R i h ↔ wp rank p (fun a i h => wp rank (f a) R i h) i h := by
  change wp rank (p.bind f) R i h ↔ _
  induction p generalizing i h with
  | pure a => rfl
  | readIf k ih => exact ih i
  | setIf b k ih => simp only [Prog.bind, wp, ih]
  | acquire l k ih => simp only [Prog.bind, wp, ih]
  | release l k ih => exact ih
  | reset l k ih => exact ih
  | choose k ih => simp only [Prog.bind, wp, ih]
  | halt => rfl

@[simp] theorem wp_pure {a : α} : wp rank (pure a) Q i h ↔ Q a i h := Iff.rfl

@[simp] theorem wp_toggle {R : Bool → Bool → List L → Prop} :
    wp rank (toggleInt b) R i h ↔ (b = true → h = []) ∧ R i b h := Iff.rfl

section
variable {R : Unit → Bool → List L → Prop}

@[simp] theorem wp_lock : wp rank (lock l) R i h ↔
    i = false ∧ (∀ l' ∈ h, rank l' < rank l) ∧ R () i (l :: h) := Iff.rfl

@[simp] theorem wp_unlock : wp rank (unlock l) R i h ↔ R () i (h.erase l) := Iff.rfl

@[simp] theorem wp_resetLock : wp rank (resetLock l) R i h ↔ R () i h := Iff.rfl

end

@[simp] theorem wp_any {R : Nat → Bool → List L → Prop} :
    wp rank any R i h ↔ ∀ n, R n i h := Iff.rfl

@[simp] theorem wp_halt : wp rank (Prog.halt : Prog L α) Q i h ↔ True := Iff.rfl

/-- Code that returns with the flag and the locks as it found them. -/
def Neutral (rank : L → Nat) (p : Prog L Unit) (i : Bool) (h : List L) : Prop :=
  ∀ Q : Unit → Bool → List L → Prop, Q () i h → wp rank p Q i h

theorem Neutral.skip : Neutral rank (pure () : Prog L Unit) i h := fun _ hQ => hQ

theorem Neutral.seq {p q : Prog L Unit} (hp : Neutral rank p i h) (hq : Neutral rank q i h) :
    Neutral rank (do p; q) i h := by
  intro Q hQ
  rw [wp_bind]
  exact hp _ (hq Q hQ)

theorem Neutral.repeatN {p : Prog L Unit} (hp : Neutral rank p i h) :
    ∀ n, Neutral rank (repeatN p n) i h
  | 0 => Neutral.skip
  | n + 1 => hp.seq (Neutral.repeatN hp n)

end

/-! ## One thread -/

/-- The flag of the CPU, the locks it holds and the code it has still to run. -/
structure Thread (L : Type) where
  ifl : Bool
  held : List L
  prog : Prog L Unit

/-- The thread is about to spin with interrupts enabled. -/
def Panics (t : Thread L) : Prop := t.ifl = true ∧ ∃ l k, t.prog = .acquire l k

/-- The steps that touch no lock. -/
inductive Quiet : Thread L → Thread L → Prop where
  | readIf {i : Bool} {h : List L} {k : Bool → Prog L Unit} : Quiet ⟨i, h, .readIf k⟩ ⟨i, h, k i⟩
  | setIf {i b : Bool} {h : List L} {k : Prog L Unit} : Quiet ⟨i, h, .setIf b k⟩ ⟨b, h, k⟩
  | choose {i : Bool} {h : List L} {k : Nat → Prog L Unit} (n : Nat) :
      Quiet ⟨i, h, .choose k⟩ ⟨i, h, k n⟩

variable [DecidableEq L]

inductive Local : Thread L → Thread L → Prop where
  | quiet {t t' : Thread L} : Quiet t t' → Local t t'
  | acquire {h : List L} {l : L} {k : Prog L Unit} :
      Local ⟨false, h, .acquire l k⟩ ⟨false, l :: h, k⟩
  | release {i : Bool} {h : List L} {l : L} {k : Prog L Unit} :
      Local ⟨i, h, .release l k⟩ ⟨i, h.erase l, k⟩
  | reset {i : Bool} {h : List L} {l : L} {k : Prog L Unit} : Local ⟨i, h, .reset l k⟩ ⟨i, h, k⟩

/-- The thread keeps the discipline up to `Q`, and has interrupts enabled only without locks. -/
structure Good (rank : L → Nat) (Q : Unit → Bool → List L → Prop) (t : Thread L) : Prop where
  pre : wp rank t.prog Q t.ifl t.held
  free : t.ifl = true → t.held = []

variable {rank : L → Nat} {Q : Unit → Bool → List L → Prop} {t t' : Thread L}

theorem Good.step (hg : Good rank Q t) (hs : Local t t') : Good rank Q t' := by
  obtain ⟨hp, hf⟩ := hg
  cases hs with
  | quiet hq =>
    cases hq with
    | readIf => exact ⟨hp, hf⟩
    | setIf => exact ⟨hp.2, hp.1⟩
    | choose n => exact ⟨hp n, hf⟩
  | acquire => exact ⟨hp.2.2, fun h => by cases h⟩
  | @release i h l k =>
    refine ⟨hp, fun hi => ?_⟩
    have hnil : h = [] := hf hi
    simp [hnil]
  | reset => exact ⟨hp, hf⟩

theorem Good.not_panics (hg : Good rank Q t) : ¬ Panics t := by
  rintro ⟨hi, l, k, hk⟩
  have hp := hg.pre
  rw [hk, hi] at hp
  cases hp.1

/-- What a call promises on the flag: it never spins with interrupts enabled,
keeps them off while it holds a lock, and returns with the flag it found. -/
def Disciplined (p : Prog L Unit) (i : Bool) : Prop :=
  ∀ t, Relation.ReflTransGen Local ⟨i, [], p⟩ t →
    ¬ Panics t ∧ (t.held ≠ [] → t.ifl = false) ∧ (t.prog = .pure () → t.ifl = i)

theorem disciplined_of_neutral {p : Prog L Unit} {i : Bool} (hp : Neutral rank p i []) :
    Disciplined p i := by
  intro t ht
  have hg : Good rank (fun _ i' _ => i' = i) t := by
    induction ht with
    | refl => exact ⟨hp _ rfl, fun _ => rfl⟩
    | tail _ hs ih => exact ih.step hs
  refine ⟨hg.not_panics, ?_, ?_⟩
  · intro hh
    cases hi : t.ifl with
    | false => rfl
    | true => exact absurd (hg.free hi) hh
  · intro hd
    have := hg.pre
    rw [hd] at this
    exact this

/-! ## Many CPUs -/

structure System (L : Type) where
  thread : Nat → Thread L
  parked : Nat → Bool
  word : L → Bool

def System.set (s : System L) (c : Nat) (t : Thread L) : System L :=
  { s with thread := Function.update s.thread c t }

/-- CPUs that run calls, one after another. An interrupt may stop a CPU for
good wherever its flag is set; what stops it clears the flag. -/
inductive SysStep (calls : Bool → Prog L Unit → Prop) : System L → System L → Prop where
  | call {s : System L} {c : Nat} {i : Bool} {h : List L} {p : Prog L Unit} : s.parked c = false →
      s.thread c = ⟨i, h, .pure ()⟩ → calls i p → SysStep calls s (s.set c ⟨i, h, p⟩)
  /-- Between calls a CPU may enable or disable interrupts. -/
  | idle {s : System L} {c : Nat} {i j : Bool} {h : List L} : s.parked c = false →
      s.thread c = ⟨i, h, .pure ()⟩ → SysStep calls s (s.set c ⟨j, h, .pure ()⟩)
  | quiet {s : System L} {c : Nat} {t : Thread L} : s.parked c = false → Quiet (s.thread c) t →
      SysStep calls s (s.set c t)
  | acquire {s : System L} {c : Nat} {h : List L} {l : L} {k : Prog L Unit} : s.parked c = false →
      s.thread c = ⟨false, h, .acquire l k⟩ → s.word l = false →
      SysStep calls s { s.set c ⟨false, l :: h, k⟩ with word := Function.update s.word l true }
  | release {s : System L} {c : Nat} {i : Bool} {h : List L} {l : L} {k : Prog L Unit} :
      s.parked c = false → s.thread c = ⟨i, h, .release l k⟩ →
      SysStep calls s { s.set c ⟨i, h.erase l, k⟩ with word := Function.update s.word l false }
  | reset {s : System L} {c : Nat} {i : Bool} {h : List L} {l : L} {k : Prog L Unit} :
      s.parked c = false → s.thread c = ⟨i, h, .reset l k⟩ →
      SysStep calls s { s.set c ⟨i, h, k⟩ with word := Function.update s.word l false }
  | stop {s : System L} {c : Nat} : s.parked c = false → (s.thread c).ifl = true →
      SysStep calls s { s.set c { s.thread c with ifl := false } with
        parked := Function.update s.parked c true }

/-- Every CPU is idle and no lock is taken. -/
def System.Start (s : System L) : Prop :=
  (∀ c, (s.thread c).held = [] ∧ (s.thread c).prog = .pure () ∧ s.parked c = false) ∧
    ∀ l, s.word l = false

/-- A stopped CPU holds nothing, the others keep the discipline. -/
def SysInv (rank : L → Nat) (s : System L) : Prop :=
  ∀ c, if s.parked c then (s.thread c).held = []
    else Good rank (fun _ _ h => h = []) (s.thread c)

variable {calls : Bool → Prog L Unit → Prop} {s s' : System L}

theorem SysInv.set {c : Nat} (hi : SysInv rank s) (hp : s.parked c = false)
    (ht : Good rank (fun _ _ h => h = []) t) {w : L → Bool} :
    SysInv rank { s.set c t with word := w } := by
  intro d
  by_cases hd : d = c
  · subst hd
    simpa [System.set, hp] using ht
  · simpa [System.set, Function.update_of_ne hd] using hi d

theorem SysInv.good (hi : SysInv rank s) {c : Nat} (hp : s.parked c = false) :
    Good rank (fun _ _ h => h = []) (s.thread c) := by
  have := hi c
  rwa [hp] at this

theorem SysInv.step (hcalls : ∀ i p, calls i p → Neutral rank p i []) (hi : SysInv rank s)
    (hs : SysStep calls s s') : SysInv rank s' := by
  cases hs with
  | @call c i h p hp ht hc =>
    have hg := hi.good hp
    rw [ht] at hg
    have hnil : h = [] := hg.pre
    subst hnil
    exact hi.set hp ⟨hcalls i p hc _ rfl, fun _ => rfl⟩
  | @idle c i j h hp ht =>
    have hg := hi.good hp
    rw [ht] at hg
    have hnil : h = [] := hg.pre
    subst hnil
    exact hi.set (t := ⟨j, [], .pure ()⟩) hp ⟨rfl, fun _ => rfl⟩
  | quiet hp hq => exact hi.set hp ((hi.good hp).step (.quiet hq))
  | acquire hp ht _ => exact hi.set hp ((ht ▸ hi.good hp).step .acquire)
  | release hp ht => exact hi.set hp ((ht ▸ hi.good hp).step .release)
  | reset hp ht => exact hi.set hp ((ht ▸ hi.good hp).step .reset)
  | @stop c hp hfl =>
    intro d
    by_cases hd : d = c
    · subst hd
      simpa [System.set] using (hi.good hp).free hfl
    · simpa [System.set, Function.update_of_ne hd] using hi d

theorem SysInv.run (hcalls : ∀ i p, calls i p → Neutral rank p i []) (hs : s.Start)
    (hr : Relation.ReflTransGen (SysStep calls) s s') : SysInv rank s' := by
  induction hr with
  | refl =>
    intro c
    obtain ⟨hh, hp, hk⟩ := hs.1 c
    rw [hk]
    refine ⟨?_, fun _ => hh⟩
    rw [hp]
    exact hh
  | tail _ hst ih => exact ih.step hcalls hst

/-- `c` is about to take `l`. -/
def Wants (s : System L) (c : Nat) (l : L) : Prop :=
  s.parked c = false ∧ ∃ k, (s.thread c).prog = .acquire l k

/-- `c` wants a lock that `d` holds. -/
def WaitsFor (s : System L) (c d : Nat) : Prop := ∃ l, Wants s c l ∧ l ∈ (s.thread d).held

theorem SysInv.wants_above (hi : SysInv rank s) {c : Nat} {l l' : L} (hw : Wants s c l)
    (hl : l' ∈ (s.thread c).held) : rank l' < rank l := by
  obtain ⟨hp, k, hk⟩ := hw
  have hpre := (hi.good hp).pre
  rw [hk] at hpre
  exact hpre.2.1 l' hl

theorem SysInv.not_wants_held (hi : SysInv rank s) {c : Nat} {l : L} (hw : Wants s c l) :
    l ∉ (s.thread c).held :=
  fun hl => lt_irrefl _ (hi.wants_above hw hl)

/-- Along a chain of waiting CPUs the locks waited for go up. -/
theorem SysInv.chain_above (hi : SysInv rank s) {c d : Nat} (h : Relation.TransGen (WaitsFor s) c d) :
    ∃ l, Wants s c l ∧ ∀ l', Wants s d l' → rank l < rank l' := by
  induction h with
  | single hw =>
    obtain ⟨l, hw, hl⟩ := hw
    exact ⟨l, hw, fun l' hw' => hi.wants_above hw' hl⟩
  | tail _ hw ih =>
    obtain ⟨l, hwl, hup⟩ := ih
    obtain ⟨m, hwm, hm⟩ := hw
    exact ⟨l, hwl, fun l' hw' => (hup m hwm).trans (hi.wants_above hw' hm)⟩

theorem SysInv.acyclic (hi : SysInv rank s) (c : Nat) : ¬ Relation.TransGen (WaitsFor s) c c := by
  intro h
  obtain ⟨l, hw, hup⟩ := hi.chain_above h
  exact lt_irrefl _ (hup l hw)

end Cynix.Base.Locking
