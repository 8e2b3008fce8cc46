import Mathlib

/-! # A stack of words that grows down

Memory is read and written one 64-bit word at a time. `Holds` says which words
lie from an address upwards; pushing puts one in front, popping takes it off. -/
namespace Cynix.Base.Stack

abbrev Word := BitVec 64

abbrev Words := Word → Word

/-- The words from `a` upwards. -/
def Holds (m : Words) : Word → List Word → Prop
  | _, [] => True
  | a, w :: ws => m a = w ∧ Holds m (a + 8) ws

variable {m m' : Words} {a b w : Word} {ws vs : List Word}

theorem Holds.congr (h : Holds m a ws)
    (hm : ∀ i < ws.length, m' (a + BitVec.ofNat 64 (8 * i)) = m (a + BitVec.ofNat 64 (8 * i))) :
    Holds m' a ws := by
  induction ws generalizing a with
  | nil => exact h
  | cons w ws ih =>
    refine ⟨?_, ih h.2 fun i hi => ?_⟩
    · rw [← h.1]
      simpa using hm 0 (by simp)
    · have he : a + 8 + BitVec.ofNat 64 (8 * i) = a + BitVec.ofNat 64 (8 * (i + 1)) := by bv_omega
      rw [he]
      exact hm (i + 1) (by simpa using hi)

theorem Holds.get (h : Holds m a ws) {i : Nat} (hi : i < ws.length) :
    m (a + BitVec.ofNat 64 (8 * i)) = ws[i] := by
  induction ws generalizing a i with
  | nil => simp at hi
  | cons w ws ih =>
    cases i with
    | zero => simpa using h.1
    | succ i =>
      have he : a + BitVec.ofNat 64 (8 * (i + 1)) = a + 8 + BitVec.ofNat 64 (8 * i) := by bv_omega
      rw [he]
      exact ih h.2 (by simpa using hi)

theorem Holds.append (h : Holds m a (vs ++ ws)) :
    Holds m a vs ∧ Holds m (a + BitVec.ofNat 64 (8 * vs.length)) ws := by
  induction vs generalizing a with
  | nil => exact ⟨trivial, by simpa using h⟩
  | cons v vs ih =>
    obtain ⟨h1, h2⟩ := ih h.2
    refine ⟨⟨h.1, h1⟩, ?_⟩
    have he : a + BitVec.ofNat 64 (8 * (v :: vs).length) =
        a + 8 + BitVec.ofNat 64 (8 * vs.length) := by
      rw [List.length_cons]
      bv_omega
    rw [he]
    exact h2

/-- A stack shorter than the address space does not meet its own new top. -/
theorem Holds.push (h : Holds m a ws) (hl : ws.length < 2 ^ 60) (w : Word) :
    Holds (Function.update m (a - 8) w) (a - 8) (w :: ws) := by
  refine ⟨Function.update_self .., ?_⟩
  rw [show a - 8 + 8 = a by bv_omega]
  refine h.congr fun i hi => Function.update_of_ne ?_ _ _
  bv_omega

/-- Memory after the words have been pushed, the last of the list first. -/
def pushList (m : Words) (a : Word) : List Word → Words
  | [] => m
  | w :: ws => Function.update (pushList m a ws) (a - BitVec.ofNat 64 (8 * (ws.length + 1))) w

theorem holds_pushList (m : Words) (a : Word) (ws : List Word) (hl : ws.length < 2 ^ 60) :
    Holds (pushList m a ws) (a - BitVec.ofNat 64 (8 * ws.length)) ws := by
  induction ws with
  | nil => trivial
  | cons w ws ih =>
    have hl' : ws.length < 2 ^ 60 := by rw [List.length_cons] at hl; omega
    have hp := (ih hl').push hl' w
    have he : a - BitVec.ofNat 64 (8 * ws.length) - 8 =
        a - BitVec.ofNat 64 (8 * (ws.length + 1)) := by bv_omega
    rw [he] at hp
    exact hp

end Cynix.Base.Stack
