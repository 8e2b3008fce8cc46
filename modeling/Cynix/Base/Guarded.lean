import Mathlib

/-! # Locks and those who hold them

A lock is a flag that some part sets when it gets the lock and clears when it
is done; `P` says of the state of a part that it has the lock. -/
namespace Cynix.Base.Guarded

variable {γ : Type} {P : γ → Bool} {lock : Bool} {f : Nat → γ} {i : Nat} {c : γ}

/-- The flag is set exactly while a part has the lock, and only one has it. -/
structure Guards (P : γ → Bool) (lock : Bool) (f : Nat → γ) : Prop where
  held : ∀ i, P (f i) = true → lock = true
  sole : ∀ i j, P (f i) = true → P (f j) = true → i = j
  owner : lock = true → ∃ i, P (f i) = true

theorem Guards.start (h : ∀ i, P (f i) = false) : Guards P false f := by
  refine ⟨?_, ?_, fun h => by cases h⟩
  · intro i hi
    rw [h i] at hi
    cases hi
  · intro i j hi
    rw [h i] at hi
    cases hi

/-- When the flag is clear, nobody has the lock. -/
theorem Guards.free (h : Guards P lock f) (hl : lock = false) (j : Nat) : P (f j) = false := by
  cases hj : P (f j) with
  | false => rfl
  | true => rw [h.held j hj] at hl; cases hl

/-- A part that changes without taking the lock or giving it up. -/
theorem Guards.keep (h : Guards P lock f) (hc : P c = P (f i)) : Guards P lock (Function.update f i c) := by
  have hsame : ∀ j, P (Function.update f i c j) = P (f j) := by
    intro j
    rw [Function.update_apply]
    split
    · next hj => rw [hj, hc]
    · rfl
  refine ⟨?_, ?_, ?_⟩
  · intro j hj
    exact h.held j (by rwa [← hsame])
  · intro j k hj hk
    exact h.sole j k (by rwa [← hsame]) (by rwa [← hsame])
  · intro hl
    obtain ⟨j, hj⟩ := h.owner hl
    exact ⟨j, by rwa [hsame]⟩

/-- The one who takes the lock is the only one. -/
theorem Guards.take (h : Guards P lock f) (hl : lock = false) (hc : P c = true) :
    Guards P true (Function.update f i c) := by
  have honly : ∀ j, P (Function.update f i c j) = true → j = i := by
    intro j hj
    rw [Function.update_apply] at hj
    by_contra hne
    rw [if_neg hne, h.free hl j] at hj
    cases hj
  refine ⟨fun _ _ => rfl, ?_, fun _ => ⟨i, by rw [Function.update_self, hc]⟩⟩
  intro j k hj hk
  rw [honly j hj, honly k hk]

theorem Guards.drop (h : Guards P lock f) (hi : P (f i) = true) (hc : P c = false) :
    Guards P false (Function.update f i c) := by
  refine Guards.start ?_
  intro j
  rw [Function.update_apply]
  split
  · exact hc
  · next hne =>
    cases hj : P (f j) with
    | false => rfl
    | true => exact absurd (h.sole j i hj hi) hne

end Cynix.Base.Guarded
