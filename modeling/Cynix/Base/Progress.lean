import Mathlib

/-! # Runs that make progress

A system makes moves, and idles in between. A run is fair when it does not idle
for ever while a move is possible; if every move lowers a well-founded measure
that idling keeps, a fair run comes to a state from which no move is possible. -/
namespace Cynix.Base.Progress

variable {σ : Type} {Move Idle : σ → σ → Prop}

structure Fair (Move Idle : σ → σ → Prop) (start : σ) (r : ℕ → σ) : Prop where
  start : r 0 = start
  step : ∀ n, Move (r n) (r (n + 1)) ∨ Idle (r n) (r (n + 1))
  /-- The system does not idle for ever while a move is possible. -/
  fair : ∀ n, (∃ s, Move (r n) s) → ∃ m, n ≤ m ∧ Move (r m) (r (m + 1))

variable {start : σ} {r : ℕ → σ}

/-- An invariant holds all along a run. -/
theorem Fair.invariant {I : σ → Prop} (h : Fair Move Idle start r) (h0 : I start) (hmove : ∀ s s', I s → Move s s' → I s')
    (hidle : ∀ s s', I s → Idle s s' → I s') (n : ℕ) : I (r n) := by
  induction n with
  | zero => exact h.start ▸ h0
  | succ n ih =>
    rcases h.step n with hs | hs
    · exact hmove _ _ ih hs
    · exact hidle _ _ ih hs

/-- A measure that idling keeps and every move lowers only goes down. -/
theorem Fair.descends {I : σ → Prop} {α : Type*} {lt : α → α → Prop} {rank : σ → α} (h : Fair Move Idle start r)
    (hinv : ∀ n, I (r n)) (hmove : ∀ s s', I s → Move s s' → lt (rank s') (rank s))
    (hidle : ∀ s s', I s → Idle s s' → rank s' = rank s) {n m : ℕ} (hnm : n ≤ m) :
    Relation.ReflTransGen lt (rank (r m)) (rank (r n)) := by
  induction hnm with
  | refl => exact .refl
  | step _ ih =>
    rcases h.step _ with hs | hs
    · exact .head (hmove _ _ (hinv _) hs) ih
    · rw [hidle _ _ (hinv _) hs]
      exact ih

/-- Under an invariant, a fair run comes to an end of its moves. -/
theorem Fair.ends {I : σ → Prop} {α : Type*} {lt : α → α → Prop} {rank : σ → α} (hwf : WellFounded lt)
    (h : Fair Move Idle start r) (hinv : ∀ n, I (r n)) (hmove : ∀ s s', I s → Move s s' → lt (rank s') (rank s))
    (hidle : ∀ s s', I s → Idle s s' → rank s' = rank s) : ∃ n, ∀ m, n ≤ m → ∀ s, ¬ Move (r m) s := by
  -- by the measure of the state from which the run is looked at
  suffices key : ∀ a n, rank (r n) = a → ∃ N, n ≤ N ∧ ∀ m, N ≤ m → ∀ s, ¬ Move (r m) s by
    obtain ⟨N, -, hN⟩ := key _ 0 rfl
    exact ⟨N, hN⟩
  intro a
  induction a using hwf.transGen.induction with
  | _ a ih =>
    intro n hn
    by_cases hq : ∀ m, n ≤ m → ∀ s, ¬ Move (r m) s
    · exact ⟨n, le_rfl, hq⟩
    · push Not at hq
      obtain ⟨m, hnm, s, hs⟩ := hq
      obtain ⟨l, hml, hl⟩ := h.fair m ⟨s, hs⟩
      have hlow : Relation.TransGen lt (rank (r (l + 1))) a := by
        rw [← hn]
        exact .head' (hmove _ _ (hinv l) hl) (h.descends hinv hmove hidle (hnm.trans hml))
      obtain ⟨N, hN, hend⟩ := ih _ hlow (l + 1) rfl
      exact ⟨N, by omega, hend⟩

open Classical in
/-- The run that moves whenever it can. -/
noncomputable def eager (Move : σ → σ → Prop) (idle : σ → σ) (start : σ) : ℕ → σ
  | 0 => start
  | n + 1 => if h : ∃ s, Move (eager Move idle start n) s then h.choose else idle (eager Move idle start n)

theorem eager_fair (Move : σ → σ → Prop) (start : σ) (idle : σ → σ) (hidle : ∀ s, Idle s (idle s)) :
    Fair Move Idle start (eager Move idle start) := by
  have hstep : ∀ n, (∃ s, Move (eager Move idle start n) s) →
      Move (eager Move idle start n) (eager Move idle start (n + 1)) := by
    intro n h
    rw [eager, dif_pos h]
    exact h.choose_spec
  refine ⟨rfl, ?_, fun n h => ⟨n, le_rfl, hstep n h⟩⟩
  intro n
  by_cases h : ∃ s, Move (eager Move idle start n) s
  · exact .inl (hstep n h)
  · rw [eager, dif_neg h]
    exact .inr (hidle _)

end Cynix.Base.Progress
