import Mathlib

/-! # Who holds what

Holders, each with a list of the things it holds. `Sole` says that no thing is
held twice, by one holder or by two. There may be any number of holders, so
their lists cannot be joined into one; the lemmas are about the changes that
one step of a system makes: a thing changes hands, or new things appear. -/
namespace Cynix.Base.Holdings

variable {ι α : Type*} {held held' : ι → List α} {v w : ι} {x : α} {new : List α}

structure Sole (held : ι → List α) : Prop where
  nodup : ∀ w, (held w).Nodup
  unique : ∀ {v w x}, x ∈ held v → x ∈ held w → v = w

theorem Sole.perm (h : Sole held) (hp : ∀ w, (held' w).Perm (held w)) : Sole held' where
  nodup w := (hp w).nodup_iff.mpr (h.nodup w)
  unique hv hw := h.unique ((hp _).mem_iff.mp hv) ((hp _).mem_iff.mp hw)

/-- `x` passes from `v` to `w`. -/
structure Moves (held held' : ι → List α) (x : α) (v w : ι) : Prop where
  ne : v ≠ w
  source : (held v).Perm (x :: held' v)
  target : (held' w).Perm (x :: held w)
  rest : ∀ u, u ≠ v → u ≠ w → held' u = held u

/-- Each thing held after a move was held before it, by the same holder unless it is the one moved. -/
theorem Moves.held_before (m : Moves held held' x v w) {u : ι} {y : α} (hy : y ∈ held' u) :
    y ∈ held u ∨ u = w ∧ y = x := by
  by_cases hv : u = v
  · subst hv
    exact Or.inl (m.source.mem_iff.mpr (List.mem_cons_of_mem _ hy))
  · by_cases hw : u = w
    · subst hw
      rcases List.mem_cons.mp (m.target.mem_iff.mp hy) with rfl | hy
      · exact Or.inr ⟨rfl, rfl⟩
      · exact Or.inl hy
    · rw [m.rest u hv hw] at hy
      exact Or.inl hy

theorem Moves.mem_source (m : Moves held held' x v w) : x ∈ held v :=
  m.source.mem_iff.mpr (List.mem_cons_self ..)

/-- The thing moved is nowhere but with its new holder. -/
theorem Sole.moved_only (h : Sole held) (m : Moves held held' x v w) {u : ι} (hu : x ∈ held' u) :
    u = w := by
  rcases m.held_before hu with hx | ⟨rfl, -⟩
  · obtain rfl := h.unique hx m.mem_source
    have hnd := m.source.nodup_iff.mp (h.nodup u)
    exact absurd hu (List.nodup_cons.mp hnd).1
  · rfl

theorem Sole.move (h : Sole held) (m : Moves held held' x v w) : Sole held' where
  nodup u := by
    by_cases hv : u = v
    · subst hv
      exact (List.nodup_cons.mp (m.source.nodup_iff.mp (h.nodup u))).2
    · by_cases hw : u = w
      · subst hw
        refine m.target.nodup_iff.mpr (List.nodup_cons.mpr ⟨?_, h.nodup u⟩)
        intro hx
        exact hv (h.unique hx m.mem_source)
      · rw [m.rest u hv hw]
        exact h.nodup u
  unique {u u' y} hu hu' := by
    by_cases hy : y = x
    · subst hy
      rw [h.moved_only m hu, h.moved_only m hu']
    · have hb := (m.held_before hu).resolve_right fun he => hy he.2
      have hb' := (m.held_before hu').resolve_right fun he => hy he.2
      exact h.unique hb hb'

/-- New things come to one holder. -/
theorem Sole.add (h : Sole held) (hn : new.Nodup) (hfresh : ∀ x ∈ new, ∀ u, x ∉ held u)
    (hw : held' w = new ++ held w) (hrest : ∀ u, u ≠ w → held' u = held u) : Sole held' := by
  have hold : ∀ {u y}, y ∈ held' u → y ∈ held u ∨ u = w ∧ y ∈ new := by
    intro u y hy
    by_cases hu : u = w
    · subst hu
      rw [hw] at hy
      exact (List.mem_append.mp hy).symm.imp_right fun h => ⟨rfl, h⟩
    · rw [hrest u hu] at hy
      exact Or.inl hy
  refine ⟨?_, ?_⟩
  · intro u
    by_cases hu : u = w
    · subst hu
      rw [hw]
      refine List.nodup_append'.mpr ⟨hn, h.nodup u, ?_⟩
      intro y hy
      exact hfresh y hy u
    · rw [hrest u hu]
      exact h.nodup u
  · intro u u' y hu hu'
    rcases hold hu with hy | ⟨rfl, hy⟩ <;> rcases hold hu' with hy' | ⟨rfl, hy'⟩
    · exact h.unique hy hy'
    · exact absurd hy (hfresh y hy' _)
    · exact absurd hy' (hfresh y hy _)
    · rfl

/-! ## Single things -/

/-- Each holder holds at most one thing; `live` lists what is held, and nothing is held twice. -/
structure Account (holds : ι → Option α) (live : List α) : Prop where
  nodup : live.Nodup
  mem : ∀ {x}, x ∈ live ↔ ∃ v, holds v = some x
  unique : ∀ {v w x}, holds v = some x → holds w = some x → v = w

variable {holds : ι → Option α} {live live' : List α}

theorem Account.nil : Account (fun _ : ι => (none : Option α)) [] :=
  ⟨List.nodup_nil, by simp, by simp⟩

theorem Account.perm (h : Account holds live) (hp : live.Perm live') : Account holds live' :=
  ⟨hp.nodup_iff.mp h.nodup, hp.mem_iff.symm.trans h.mem, h.unique⟩

variable [DecidableEq ι]

theorem holds_update {o : Option α} {v : ι} (h : Function.update holds w o v = some x) :
    v = w ∧ o = some x ∨ v ≠ w ∧ holds v = some x := by
  by_cases hv : v = w
  · subst hv
    rw [Function.update_self] at h
    exact .inl ⟨rfl, h⟩
  · rw [Function.update_of_ne hv] at h
    exact .inr ⟨hv, h⟩

theorem Account.gain (h : Account holds live) (hw : holds w = none) (hx : x ∉ live) :
    Account (Function.update holds w (some x)) (x :: live) := by
  refine ⟨List.nodup_cons.mpr ⟨hx, h.nodup⟩, ?_, ?_⟩
  · intro y
    rw [List.mem_cons, h.mem]
    constructor
    · rintro (rfl | ⟨v, hv⟩)
      · exact ⟨w, Function.update_self ..⟩
      · have hne : v ≠ w := by
          rintro rfl
          rw [hw] at hv
          cases hv
        exact ⟨v, (Function.update_of_ne hne ..).trans hv⟩
    · rintro ⟨v, hv⟩
      rcases holds_update hv with ⟨-, hy⟩ | ⟨-, hy⟩
      · exact .inl (Option.some.inj hy).symm
      · exact .inr ⟨v, hy⟩
  · intro u v y hu hv
    rcases holds_update hu with ⟨rfl, hy⟩ | ⟨-, hy⟩ <;> rcases holds_update hv with ⟨rfl, hy'⟩ | ⟨-, hy'⟩
    · rfl
    · exact absurd (h.mem.mpr ⟨v, hy'⟩) (Option.some.inj hy ▸ hx)
    · exact absurd (h.mem.mpr ⟨u, hy⟩) (Option.some.inj hy' ▸ hx)
    · exact h.unique hy hy'

theorem Account.lose [BEq α] [LawfulBEq α] (h : Account holds live) (hv : holds v = some x) :
    Account (Function.update holds v none) (live.erase x) := by
  refine ⟨h.nodup.erase x, ?_, ?_⟩
  · intro y
    rw [h.nodup.mem_erase_iff, h.mem]
    constructor
    · rintro ⟨hne, u, hu⟩
      have huv : u ≠ v := by
        rintro rfl
        exact hne (Option.some.inj (hu.symm.trans hv))
      exact ⟨u, (Function.update_of_ne huv ..).trans hu⟩
    · rintro ⟨u, hu⟩
      obtain ⟨-, hy⟩ | ⟨hne, hy⟩ := holds_update hu
      · cases hy
      · refine ⟨?_, u, hy⟩
        rintro rfl
        exact hne (h.unique hy hv)
  · intro u w y hu hw
    obtain ⟨-, hy⟩ | ⟨-, hy⟩ := holds_update hu
    · cases hy
    · obtain ⟨-, hy'⟩ | ⟨-, hy'⟩ := holds_update hw
      · cases hy'
      · exact h.unique hy hy'

theorem Account.pass [BEq α] [LawfulBEq α] (h : Account holds live) (hv : holds v = some x) (hw : holds w = none) :
    Account (Function.update (Function.update holds v none) w (some x)) live := by
  have hne : w ≠ v := by
    rintro rfl
    rw [hw] at hv
    cases hv
  have hlost := h.lose hv
  have hback := hlost.gain (w := w) (x := x) ((Function.update_of_ne hne ..).trans hw)
    fun hx => (h.nodup.mem_erase_iff.mp hx).1 rfl
  exact hback.perm (List.perm_cons_erase (h.mem.mpr ⟨v, hv⟩)).symm

end Cynix.Base.Holdings
