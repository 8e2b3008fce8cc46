import Mathlib

/-! # Trees of tables

Tables that refer to tables, `depth` references from the top to the bottom. A
table is named by the path of indices that leads to it; `T` is the partial map
from paths to tables. That `T` is injective says the tables form a tree: no
table is reached by two paths. -/
namespace Cynix.Base.Radix

variable {ι τ : Type*}

/-- Follow the references along a path. -/
def descend (child : τ → ι → Option τ) : τ → List ι → Option τ
  | t, [] => some t
  | t, i :: is => (child t i).bind fun u => descend child u is

structure Tree (depth : Nat) (top : τ) (child : τ → ι → Option τ) (T : List ι → Option τ) : Prop where
  root : T [] = some top
  inj : ∀ p q t, T p = some t → T q = some t → p = q
  closed : ∀ p i t, T (p ++ [i]) = some t → p.length < depth ∧ ∃ u, T p = some u
  child : ∀ p t i, T p = some t → p.length < depth → child t i = T (p ++ [i])

variable {depth : Nat} {top t t' u : τ} {child child' : τ → ι → Option τ} {T : List ι → Option τ}
  {p q : List ι} {i j : ι}

theorem Tree.length_le (hT : Tree depth top child T) (h : T p = some t) : p.length ≤ depth := by
  cases List.eq_nil_or_concat p with
  | inl hp => simp [hp]
  | inr hp =>
    obtain ⟨p', i, rfl⟩ := hp
    rw [List.concat_eq_append] at h
    have := (hT.closed p' i t h).1
    simpa using this

/-- The tables on the way to a table. -/
theorem Tree.of_append (hT : Tree depth top child T) (h : T (p ++ q) = some t) : ∃ u, T p = some u := by
  induction q using List.reverseRecOn generalizing t with
  | nil => exact ⟨t, by simpa using h⟩
  | append_singleton q i ih =>
    rw [← List.append_assoc] at h
    obtain ⟨u, hu⟩ := (hT.closed _ i t h).2
    exact ih hu

theorem Tree.descend_eq (hT : Tree depth top child T) (hp : T p = some t)
    (hq : p.length + q.length ≤ depth) : descend child t q = T (p ++ q) := by
  induction q generalizing p t with
  | nil => simp [descend, hp]
  | cons i q ih =>
    rw [List.length_cons] at hq
    have happ : p ++ i :: q = p ++ [i] ++ q := List.append_cons p i q
    rw [descend, hT.child p t i hp (by omega), happ]
    cases hc : T (p ++ [i]) with
    | none =>
      cases hT' : T (p ++ [i] ++ q) with
      | none => rfl
      | some u =>
        obtain ⟨v, hv⟩ := hT.of_append hT'
        rw [hc] at hv
        cases hv
    | some u =>
      exact ih hc (by simp; omega)

/-- References that agree above the bottom make the same tree. -/
theorem Tree.congr (hT : Tree depth top child T)
    (hc : ∀ p t i, T p = some t → p.length < depth → child' t i = child t i) :
    Tree depth top child' T :=
  ⟨hT.root, hT.inj, hT.closed, fun p t i hp hl => (hc p t i hp hl).trans (hT.child p t i hp hl)⟩

/-- A table is referred to from one place. -/
theorem Tree.unique_ref (hT : Tree depth top child T) (hp : T p = some t) (hq : T q = some u)
    (hpl : p.length < depth) (hql : q.length < depth) (hi : child t i = some t')
    (hj : child u j = some t') : t = u ∧ i = j := by
  rw [hT.child p t i hp hpl] at hi
  rw [hT.child q u j hq hql] at hj
  have he := hT.inj _ _ _ hi hj
  obtain ⟨rfl, hs⟩ := List.append_inj' he rfl
  rw [hp] at hq
  exact ⟨Option.some.inj hq, by simpa using hs⟩

/-- An empty place takes a fresh table with no references. -/
theorem Tree.grow [DecidableEq ι] (hT : Tree depth top child T) (hp : T p = some t)
    (hl : p.length < depth) (hnone : child t i = none) (hfresh : ∀ q, T q ≠ some t')
    (hi : child' t i = some t') (hnew : ∀ j, child' t' j = none)
    (hold : ∀ q u j, T q = some u → (q, j) ≠ (p, i) → child' u j = child u j) :
    Tree depth top child' (Function.update T (p ++ [i]) (some t')) := by
  have hTi : T (p ++ [i]) = none := (hT.child p t i hp hl).symm.trans hnone
  have hne : ∀ q u, T q = some u → q ≠ p ++ [i] := by
    rintro q u hq rfl
    rw [hTi] at hq
    cases hq
  refine ⟨?_, ?_, ?_, ?_⟩
  · rw [Function.update_of_ne (by simp)]
    exact hT.root
  · intro q r u hq hr
    by_cases h1 : q = p ++ [i] <;> by_cases h2 : r = p ++ [i]
    · rw [h1, h2]
    · rw [h1, Function.update_self, Option.some.injEq] at hq
      rw [Function.update_of_ne h2, ← hq] at hr
      exact absurd hr (hfresh r)
    · rw [h2, Function.update_self, Option.some.injEq] at hr
      rw [Function.update_of_ne h1, ← hr] at hq
      exact absurd hq (hfresh q)
    · rw [Function.update_of_ne h1] at hq
      rw [Function.update_of_ne h2] at hr
      exact hT.inj q r u hq hr
  · intro q j u hq
    by_cases h1 : q ++ [j] = p ++ [i]
    · obtain ⟨rfl, -⟩ := List.append_inj' h1 rfl
      rw [Function.update_of_ne (hne _ _ hp)]
      exact ⟨hl, t, hp⟩
    · rw [Function.update_of_ne h1] at hq
      obtain ⟨h2, v, hv⟩ := hT.closed q j u hq
      rw [Function.update_of_ne (hne _ _ hv)]
      exact ⟨h2, v, hv⟩
  · intro q u j hq hql
    by_cases h1 : q = p ++ [i]
    · rw [h1, Function.update_self, Option.some.injEq] at hq
      subst hq h1
      rw [hnew, Function.update_of_ne (by simp)]
      -- nothing lies below a place that was empty
      cases hTj : T (p ++ [i] ++ [j]) with
      | none => rfl
      | some v =>
        obtain ⟨-, w, hw⟩ := hT.closed _ _ _ hTj
        rw [hTi] at hw
        cases hw
    · rw [Function.update_of_ne h1] at hq
      by_cases h2 : (q, j) = (p, i)
      · obtain ⟨rfl, rfl⟩ := Prod.mk.inj h2
        rw [hp, Option.some.injEq] at hq
        rw [← hq, hi, Function.update_self]
      · have h3 : q ++ [j] ≠ p ++ [i] := by
          intro he
          obtain ⟨rfl, hs⟩ := List.append_inj' he rfl
          exact h2 (by rw [show j = i by simpa using hs])
        rw [hold q u j hq h2, Function.update_of_ne h3]
        exact hT.child q u j hq hql

end Cynix.Base.Radix
