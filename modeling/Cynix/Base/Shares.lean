import Mathlib

/-! # A map shared out

The entries of a map are shared out: some are in plain view, each of the others
is the share of one holder, who knows something of its value. The lemmas are
about the changes that one step of a system makes to such a split. -/
namespace Cynix.Base.Shares

structure Share (κ ν : Type) where
  key : κ
  fits : ν → Prop

/-- `whole` is `rest` and, at other keys, the shares. -/
structure Split {σ κ ν : Type} (share : σ → Option (Share κ ν)) (rest whole : κ → Option ν) : Prop where
  unique : ∀ {s t p q}, share s = some p → share t = some q → p.key = q.key → s = t
  fits : ∀ {s p}, share s = some p → rest p.key = none ∧ ∃ v, whole p.key = some v ∧ p.fits v
  plain : ∀ {k}, (∀ s p, share s = some p → p.key ≠ k) → whole k = rest k

variable {σ κ ν : Type} {share : σ → Option (Share κ ν)} {rest whole : κ → Option ν}
  {s t : σ} {p q : Share κ ν} {k : κ} {v : ν} {P : ν → Prop}

theorem Split.nil (rest : κ → Option ν) : Split (fun _ : σ => none) rest rest :=
  ⟨by simp, by simp, fun _ => rfl⟩

/-- What is in plain view is nobody's share. -/
theorem Split.unshared (h : Split share rest whole) (hk : rest k = some v) :
    (∀ s p, share s = some p → p.key ≠ k) ∧ whole k = some v := by
  have hnot : ∀ s p, share s = some p → p.key ≠ k := by
    rintro s p hs rfl
    rw [(h.fits hs).1] at hk
    cases hk
  exact ⟨hnot, (h.plain hnot).trans hk⟩

theorem Split.fresh (h : Split share rest whole) (hk : whole k = none) (s : σ) (p : Share κ ν)
    (hs : share s = some p) : p.key ≠ k := by
  rintro rfl
  obtain ⟨-, v, hv, -⟩ := h.fits hs
  rw [hk] at hv
  cases hv

/-- A change in plain view. -/
theorem Split.put [DecidableEq κ] (h : Split share rest whole) (hk : ∀ s p, share s = some p → p.key ≠ k)
    (o : Option ν) : Split share (Function.update rest k o) (Function.update whole k o) := by
  refine ⟨h.unique, ?_, ?_⟩
  · intro s p hs
    rw [Function.update_of_ne (hk s p hs), Function.update_of_ne (hk s p hs)]
    exact h.fits hs
  · intro k' hk'
    by_cases hkk : k' = k
    · subst hkk
      rw [Function.update_self, Function.update_self]
    · rw [Function.update_of_ne hkk, Function.update_of_ne hkk]
      exact h.plain hk'

section
variable [DecidableEq σ]

theorem share_update {o : Option (Share κ ν)} (h : Function.update share s o t = some p) :
    t = s ∧ o = some p ∨ t ≠ s ∧ share t = some p := by
  by_cases ht : t = s
  · subst ht
    rw [Function.update_self] at h
    exact .inl ⟨rfl, h⟩
  · rw [Function.update_of_ne ht] at h
    exact .inr ⟨ht, h⟩

/-- The share of `s` becomes `⟨k, P⟩`, of which nobody else has a part. -/
theorem Split.set [DecidableEq κ] (h : Split share rest whole)
    (hothers : ∀ t q, share t = some q → t ≠ s → q.key ≠ k) (hown : ∀ p, share s = some p → p.key = k)
    (hrest : rest k = none) (hv : P v) :
    Split (Function.update share s (some ⟨k, P⟩)) rest (Function.update whole k (some v)) := by
  refine ⟨?_, ?_, ?_⟩
  · intro t u q r ht hu hqr
    rcases share_update ht with ⟨rfl, hq⟩ | ⟨htne, hq⟩ <;> rcases share_update hu with ⟨rfl, hr⟩ | ⟨hune, hr⟩
    · rfl
    · obtain rfl := Option.some.inj hq
      exact absurd hqr.symm (hothers u r hr hune)
    · obtain rfl := Option.some.inj hr
      exact absurd hqr (hothers t q hq htne)
    · exact h.unique hq hr hqr
  · intro t q ht
    rcases share_update ht with ⟨rfl, hq⟩ | ⟨htne, hq⟩
    · obtain rfl := Option.some.inj hq
      exact ⟨hrest, v, Function.update_self .., hv⟩
    · rw [Function.update_of_ne (hothers t q hq htne)]
      exact h.fits hq
  · intro k' hk'
    have hne : k' ≠ k := fun he => hk' s ⟨k, P⟩ (Function.update_self ..) he.symm
    rw [Function.update_of_ne hne]
    refine h.plain fun t q ht => ?_
    by_cases hts : t = s
    · subst hts
      rw [hown q ht]
      exact hne.symm
    · exact hk' t q ((Function.update_of_ne hts ..).trans ht)

theorem Split.change [DecidableEq κ] (h : Split share rest whole) (hs : share s = some p) (hv : P v) :
    Split (Function.update share s (some ⟨p.key, P⟩)) rest (Function.update whole p.key (some v)) := by
  refine h.set (fun t q ht hne he => hne (h.unique ht hs he)) ?_ (h.fits hs).1 hv
  intro q hq
  rw [hs] at hq
  rw [Option.some.inj hq]

/-- The holder knows something else of the same value. -/
theorem Split.know (h : Split share rest whole) (hs : share s = some p)
    (hv : ∀ v, whole p.key = some v → p.fits v → P v) :
    Split (Function.update share s (some ⟨p.key, P⟩)) rest whole := by
  classical
  obtain ⟨-, v, hw, hf⟩ := h.fits hs
  have hchange := h.change (P := P) hs (hv v hw hf)
  rwa [← hw, Function.update_eq_self] at hchange

theorem Split.gain [DecidableEq κ] (h : Split share rest whole) (hs : share s = none) (hk : whole k = none)
    (hv : P v) : Split (Function.update share s (some ⟨k, P⟩)) rest (Function.update whole k (some v)) := by
  refine h.set (fun t q ht _ => h.fresh hk t q ht) (by simp [hs]) ?_ hv
  rw [← h.plain (h.fresh hk), hk]

theorem Split.lose [DecidableEq κ] (h : Split share rest whole) (hs : share s = some p) :
    Split (Function.update share s none) rest (Function.update whole p.key none) := by
  have hold : ∀ {t q}, Function.update share s none t = some q → share t = some q ∧ q.key ≠ p.key := by
    intro t q ht
    rcases share_update ht with ⟨-, ht⟩ | ⟨hne, ht⟩
    · cases ht
    · exact ⟨ht, fun he => hne (h.unique ht hs he)⟩
  refine ⟨fun ht hu => h.unique (hold ht).1 (hold hu).1, ?_, ?_⟩
  · intro t q ht
    rw [Function.update_of_ne (hold ht).2]
    exact h.fits (hold ht).1
  · intro k hk
    by_cases hkp : k = p.key
    · subst hkp
      rw [Function.update_self, (h.fits hs).1]
    · rw [Function.update_of_ne hkp]
      refine h.plain fun t q ht => ?_
      by_cases hts : t = s
      · subst hts
        rw [hs] at ht
        cases ht
        exact Ne.symm hkp
      · exact hk t q ((Function.update_of_ne hts ..).trans ht)

/-- A share changes hands. -/
theorem Split.pass (h : Split share rest whole) (hs : share s = some p) (ht : share t = none) :
    Split (Function.update (Function.update share s none) t (some p)) rest whole := by
  classical
  obtain ⟨-, v, hw, hf⟩ := h.fits hs
  have hst : t ≠ s := by
    rintro rfl
    rw [ht] at hs
    cases hs
  have hgain := (h.lose hs).gain (s := t) (P := p.fits) (by rw [Function.update_of_ne hst, ht])
    (Function.update_self ..) hf
  rwa [Function.update_idem, ← hw, Function.update_eq_self] at hgain

end
end Cynix.Base.Shares
