import Mathlib

/-! # Computations that leave a trace

A computation emits events in order and then returns, stops for a reason, or is
still running when its fuel is used up. `Guarded` says that every event is
allowed by the events before it, and `Safe` adds what holds on return: the
rules below prove a computation safe from its parts. -/
namespace Cynix.Base.Trace

inductive Outcome (α : Type) where
  | returns (a : α)
  | stops (reason : String)
  | runs
  deriving DecidableEq

structure Traced (ε α : Type) where
  events : List ε
  outcome : Outcome α

variable {ε α β : Type}

def emit (e : ε) (a : α) : Traced ε α := ⟨[e], .returns a⟩

def stop (reason : String) : Traced ε α := ⟨[], .stops reason⟩

def running : Traced ε α := ⟨[], .runs⟩

def Traced.bind (x : Traced ε α) (f : α → Traced ε β) : Traced ε β :=
  match x.outcome with
  | .returns a => ⟨x.events ++ (f a).events, (f a).outcome⟩
  | .stops reason => ⟨x.events, .stops reason⟩
  | .runs => ⟨x.events, .runs⟩

instance : Monad (Traced ε) where
  pure a := ⟨[], .returns a⟩
  bind := Traced.bind

@[simp] theorem pure_events (a : α) : (pure a : Traced ε α).events = [] := rfl
@[simp] theorem pure_outcome (a : α) : (pure a : Traced ε α).outcome = .returns a := rfl
@[simp] theorem emit_events (e : ε) (a : α) : (emit e a).events = [e] := rfl
@[simp] theorem emit_outcome (e : ε) (a : α) : (emit e a).outcome = .returns a := rfl
@[simp] theorem stop_events (r : String) : (stop r : Traced ε α).events = [] := rfl
@[simp] theorem stop_outcome (r : String) : (stop r : Traced ε α).outcome = .stops r := rfl
@[simp] theorem running_events : (running : Traced ε α).events = [] := rfl
@[simp] theorem running_outcome : (running : Traced ε α).outcome = .runs := rfl

/-- What follows a computation that returns comes after its events. -/
theorem bind_events {x : Traced ε α} {f : α → Traced ε β} {a : α} (hx : x.outcome = .returns a) :
    (x >>= f).events = x.events ++ (f a).events := by
  change (Traced.bind x f).events = _
  simp only [Traced.bind, hx]

theorem bind_outcome {x : Traced ε α} {f : α → Traced ε β} {a : α} (hx : x.outcome = .returns a) :
    (x >>= f).outcome = (f a).outcome := by
  change (Traced.bind x f).outcome = _
  simp only [Traced.bind, hx]

theorem bind_ite_outcome {x : Traced ε α} {f g : α → Traced ε β} {a : α} {c : Prop} [Decidable c]
    (hx : x.outcome = .returns a) :
    (x >>= fun b => if c then f b else g b).outcome = if c then (f a).outcome else (g a).outcome := by
  rw [bind_outcome hx, apply_ite Traced.outcome]

/-- A sequence returns if both parts do. -/
theorem bind_returns {x : Traced ε α} {f : α → Traced ε β} {b : β} (h : (x >>= f).outcome = .returns b) :
    ∃ a, x.outcome = .returns a ∧ (f a).outcome = .returns b := by
  change (Traced.bind x f).outcome = _ at h
  unfold Traced.bind at h
  cases hx : x.outcome with
  | returns a =>
    rw [hx] at h
    exact ⟨a, rfl, h⟩
  | stops r =>
    rw [hx] at h
    cases h
  | runs =>
    rw [hx] at h
    cases h

/-- The events of a computation come first. -/
theorem bind_events_le (x : Traced ε α) (f : α → Traced ε β) : x.events <+: (x >>= f).events := by
  change x.events <+: (Traced.bind x f).events
  unfold Traced.bind
  cases x.outcome with
  | returns a => exact List.prefix_append ..
  | stops r => exact List.prefix_rfl
  | runs => exact List.prefix_rfl

/-- What follows a computation that does not return is not reached. -/
theorem bind_stuck {x : Traced ε α} (f : α → Traced ε β) (hx : ∀ a, x.outcome ≠ .returns a) :
    (x >>= f).events = x.events ∧ ∀ b, (x >>= f).outcome ≠ .returns b := by
  change (Traced.bind x f).events = _ ∧ ∀ b, (Traced.bind x f).outcome ≠ _
  unfold Traced.bind
  cases h : x.outcome with
  | returns a => exact absurd h (hx a)
  | stops r => exact ⟨rfl, nofun⟩
  | runs => exact ⟨rfl, nofun⟩

/-! ## Events allowed by the past -/

/-- Every event is allowed by `past` and the events before it. -/
def Guarded (allowed : List ε → ε → Prop) (past : List ε) (l : List ε) : Prop :=
  ∀ l₁ e l₂, l = l₁ ++ e :: l₂ → allowed (past ++ l₁) e

variable {allowed : List ε → ε → Prop} {past l l' : List ε}

theorem guarded_nil : Guarded allowed past [] := by
  intro l₁ e l₂ h
  cases List.append_eq_nil_iff.mp h.symm |>.2

theorem guarded_cons {e : ε} :
    Guarded allowed past (e :: l) ↔ allowed past e ∧ Guarded allowed (past ++ [e]) l := by
  constructor
  · intro h
    refine ⟨by simpa using h [] e l rfl, fun l₁ e' l₂ he => ?_⟩
    have := h (e :: l₁) e' l₂ (by rw [he]; rfl)
    simpa using this
  · rintro ⟨he, hl⟩ l₁ e' l₂ h
    cases l₁ with
    | nil =>
      obtain ⟨rfl, -⟩ := List.cons.inj h
      simpa using he
    | cons d l₁ =>
      obtain ⟨rfl, htail⟩ := List.cons.inj h
      simpa using hl l₁ e' l₂ htail

theorem guarded_append :
    Guarded allowed past (l ++ l') ↔ Guarded allowed past l ∧ Guarded allowed (past ++ l) l' := by
  induction l generalizing past with
  | nil => simp [guarded_nil]
  | cons e l ih => rw [List.cons_append, guarded_cons, guarded_cons, ih, and_assoc]; simp

theorem Guarded.of_initial (h : Guarded allowed past l) (hl : l' <+: l) : Guarded allowed past l' := by
  obtain ⟨r, rfl⟩ := hl
  exact (guarded_append.mp h).1

/-! ## Safe computations -/

/-- Started after `past`, the computation does only what is allowed, and `post` holds of its
result and of all events when it returns. -/
structure Safe (allowed : List ε → ε → Prop) (past : List ε) (x : Traced ε α)
    (post : α → List ε → Prop) : Prop where
  events : Guarded allowed past x.events
  returns : ∀ a, x.outcome = .returns a → post a (past ++ x.events)

variable {x : Traced ε α} {f : α → Traced ε β} {P : α → List ε → Prop} {Q : β → List ε → Prop}

theorem Safe.pure {a : α} (h : P a past) : Safe allowed past (pure a) P := by
  refine ⟨guarded_nil, fun b hb => ?_⟩
  obtain rfl := Outcome.returns.inj hb
  simpa using h

theorem Safe.emit {e : ε} {a : α} (he : allowed past e) (h : P a (past ++ [e])) :
    Safe allowed past (emit e a) P := by
  refine ⟨guarded_cons.mpr ⟨he, guarded_nil⟩, fun b hb => ?_⟩
  obtain rfl := Outcome.returns.inj hb
  exact h

theorem Safe.stop {r : String} : Safe allowed past (stop r : Traced ε α) P :=
  ⟨guarded_nil, nofun⟩

theorem Safe.running : Safe allowed past (running : Traced ε α) P :=
  ⟨guarded_nil, nofun⟩

theorem Safe.bind (hx : Safe allowed past x P)
    (hf : ∀ a, P a (past ++ x.events) → Safe allowed (past ++ x.events) (f a) Q) :
    Safe allowed past (x >>= f) Q := by
  change Safe allowed past (Traced.bind x f) Q
  unfold Traced.bind
  cases hx' : x.outcome with
  | returns a =>
    have hfa := hf a (hx.returns a hx')
    refine ⟨guarded_append.mpr ⟨hx.events, hfa.events⟩, fun b hb => ?_⟩
    rw [← List.append_assoc]
    exact hfa.returns b hb
  | stops r => exact ⟨hx.events, nofun⟩
  | runs => exact ⟨hx.events, nofun⟩

theorem Safe.mono {R : α → List ε → Prop} (h : Safe allowed past x P)
    (hp : ∀ a, P a (past ++ x.events) → R a (past ++ x.events)) :
    Safe allowed past x R :=
  ⟨h.events, fun a ha => hp a (h.returns a ha)⟩

end Cynix.Base.Trace
