import Mathlib

/-! # Comparing two sequences element by element

`Before a b n` says that the first difference among the first `n` elements is
in favour of `a`. A comparison result is right when its sign says which of the
three cases holds; such results are antisymmetric and transitive. -/
namespace Cynix.Base.Lexicographic

variable {α : Type}

def Agree (a b : Nat → α) (n : Nat) : Prop := ∀ i, i < n → a i = b i

def Before [LT α] (a b : Nat → α) (n : Nat) : Prop := ∃ k, k < n ∧ Agree a b k ∧ a k < b k

/-- The sign of `r` is the order of the first `n` elements. -/
structure Compares [LT α] (a b : Nat → α) (n : Nat) (r : Int) : Prop where
  equal : Agree a b n → r = 0
  less : Before a b n → r < 0
  greater : Before b a n → 0 < r

variable {a b c : Nat → α} {n k : Nat} {r r' r'' : Int}

theorem Agree.symm (h : Agree a b n) : Agree b a n := fun i hi => (h i hi).symm

theorem Agree.trans (h : Agree a b n) (h' : Agree b c n) : Agree a c n := fun i hi =>
  (h i hi).trans (h' i hi)

theorem Agree.mono (h : Agree a b n) (hk : k ≤ n) : Agree a b k := fun i hi => h i (by omega)

theorem agree_succ : Agree a b (n + 1) ↔ a 0 = b 0 ∧ Agree (fun i => a (i + 1)) (fun i => b (i + 1)) n := by
  constructor
  · intro h
    exact ⟨h 0 (Nat.succ_pos n), fun i hi => h (i + 1) (by omega)⟩
  · rintro ⟨h0, h⟩ i hi
    cases i with
    | zero => exact h0
    | succ i => exact h i (by omega)

/-- The sequences agree, or there is a first difference. -/
theorem agree_or_differ (a b : Nat → α) (n : Nat) :
    Agree a b n ∨ ∃ k, k < n ∧ Agree a b k ∧ a k ≠ b k := by
  induction n with
  | zero => exact Or.inl fun i hi => absurd hi (Nat.not_lt_zero i)
  | succ n ih =>
    rcases ih with h | ⟨k, hk, h⟩
    · by_cases hn : a n = b n
      · left
        intro i hi
        by_cases hin : i = n
        · subst hin
          exact hn
        · exact h i (by omega)
      · exact Or.inr ⟨n, Nat.lt_succ_self n, h, hn⟩
    · exact Or.inr ⟨k, by omega, h⟩

/-- There is at most one first difference. -/
theorem first_unique (h : Agree a b k) (hk : a k ≠ b k) {j : Nat} (h' : Agree a b j) (hj : a j ≠ b j) :
    k = j := by
  rcases Nat.lt_trichotomy k j with hlt | heq | hgt
  · exact absurd (h' k hlt) hk
  · exact heq
  · exact absurd (h j hgt) hj

section
variable [LinearOrder α]

theorem compares_of_agree (h : Agree a b n) : Compares a b n r ↔ r = 0 := by
  refine ⟨fun hc => hc.equal h, fun hr => ⟨fun _ => hr, ?_, ?_⟩⟩
  · rintro ⟨k, hk, -, hlt⟩
    exact absurd (h k hk) hlt.ne
  · rintro ⟨k, hk, -, hlt⟩
    exact absurd (h k hk) hlt.ne'

/-- Only the first difference counts. -/
theorem compares_of_first (hk : k < n) (h : Agree a b k) (hne : a k ≠ b k) :
    Compares a b n r ↔ (a k < b k → r < 0) ∧ (b k < a k → 0 < r) := by
  constructor
  · intro hc
    exact ⟨fun hlt => hc.less ⟨k, hk, h, hlt⟩, fun hlt => hc.greater ⟨k, hk, h.symm, hlt⟩⟩
  · rintro ⟨hless, hgreater⟩
    refine ⟨fun he => absurd (he k hk) hne, ?_, ?_⟩
    · rintro ⟨j, -, hj, hlt⟩
      obtain rfl := first_unique h hne hj hlt.ne
      exact hless hlt
    · rintro ⟨j, -, hj, hlt⟩
      obtain rfl := first_unique h hne hj.symm hlt.ne'
      exact hgreater hlt

theorem trichotomy (a b : Nat → α) (n : Nat) : Agree a b n ∨ Before a b n ∨ Before b a n := by
  rcases agree_or_differ a b n with h | ⟨k, hk, h, hne⟩
  · exact Or.inl h
  · rcases lt_or_gt_of_ne hne with hlt | hgt
    · exact Or.inr (Or.inl ⟨k, hk, h, hlt⟩)
    · exact Or.inr (Or.inr ⟨k, hk, h.symm, hgt⟩)

/-- The earlier of the two first differences decides. -/
theorem Before.trans (h : Before a b n) (h' : Before b c n) : Before a c n := by
  obtain ⟨k, hk, hak, hlt⟩ := h
  obtain ⟨j, hj, haj, hlt'⟩ := h'
  rcases Nat.lt_trichotomy k j with hkj | rfl | hjk
  · exact ⟨k, hk, hak.trans (haj.mono hkj.le), by rw [← haj k hkj]; exact hlt⟩
  · exact ⟨k, hk, hak.trans haj, hlt.trans hlt'⟩
  · exact ⟨j, hj, (hak.mono hjk.le).trans haj, by rw [hak j hjk]; exact hlt'⟩

theorem Before.congr_left (h : Before a b n) (hc : Agree c a n) : Before c b n := by
  obtain ⟨k, hk, hak, hlt⟩ := h
  exact ⟨k, hk, (hc.mono hk.le).trans hak, by rw [hc k hk]; exact hlt⟩

theorem Before.congr_right (h : Before a b n) (hc : Agree b c n) : Before a c n := by
  obtain ⟨k, hk, hak, hlt⟩ := h
  exact ⟨k, hk, hak.trans (hc.mono hk.le), by rw [← hc k hk]; exact hlt⟩

theorem Compares.neg_iff (h : Compares a b n r) : r < 0 ↔ Before a b n := by
  refine ⟨?_, h.less⟩
  intro hr
  rcases trichotomy a b n with he | hl | hg
  · have := h.equal he
    omega
  · exact hl
  · have := h.greater hg
    omega

theorem Compares.zero_iff (h : Compares a b n r) : r = 0 ↔ Agree a b n := by
  refine ⟨?_, h.equal⟩
  intro hr
  rcases trichotomy a b n with he | hl | hg
  · exact he
  · have := h.less hl
    omega
  · have := h.greater hg
    omega

/-- The comparison the other way round has the opposite sign. -/
theorem Compares.antisymm (h : Compares a b n r) (h' : Compares b a n r') : r'.sign = -r.sign := by
  rcases trichotomy a b n with he | hl | hg
  · rw [h.equal he, h'.equal he.symm]
    rfl
  · rw [Int.sign_eq_neg_one_of_neg (h.less hl), Int.sign_eq_one_of_pos (h'.greater hl)]
    rfl
  · rw [Int.sign_eq_one_of_pos (h.greater hg), Int.sign_eq_neg_one_of_neg (h'.less hg)]

theorem Compares.trans (h : Compares a b n r) (h' : Compares b c n r') (h'' : Compares a c n r'')
    (hr : r ≤ 0) (hr' : r' ≤ 0) : r'' ≤ 0 ∧ (r < 0 ∨ r' < 0 → r'' < 0) := by
  rcases eq_or_lt_of_le hr with h0 | hlt
  · have hab := h.zero_iff.mp h0
    rcases eq_or_lt_of_le hr' with h0' | hlt'
    · have := h''.equal (hab.trans (h'.zero_iff.mp h0'))
      omega
    · have := h''.less ((h'.neg_iff.mp hlt').congr_left hab)
      omega
  · have hab := h.neg_iff.mp hlt
    rcases eq_or_lt_of_le hr' with h0' | hlt'
    · have := h''.less (hab.congr_right (h'.zero_iff.mp h0'))
      omega
    · have := h''.less (hab.trans (h'.neg_iff.mp hlt'))
      omega

end

end Cynix.Base.Lexicographic
