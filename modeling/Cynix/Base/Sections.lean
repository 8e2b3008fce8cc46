import Mathlib

/-! # Critical sections

Data behind one lock. The body of a section is a machine that makes one access
at a time, and between two accesses any other CPU may run. Clients call
sections and go on with the results; without the lock they write none of the
data and read only what no section changes. `simulates` says that clients see
nothing else than if every section ran in one step: the rules for such coarse
runs hold for the fine ones. -/
namespace Cynix.Base.Sections

/-- The body of a section. It ends where it makes no access, with a result or, where the code does
not return, with none: then the lock stays taken. -/
structure Machine (S Op L R : Type) where
  start : Op → L
  step : L → S → Option (L × S)
  result : L → Option R

/-- What calls sections: its own steps, a call, and how it goes on when a call returns. -/
structure Client (S G Op R : Type) where
  quiet : S → G → G → Prop
  invoke : Nat → Op → G → G → Prop
  resume : Nat → Op → R → G → G → Prop

variable {S Op L R G : Type}

/-! ## Bodies -/

def Machine.Runs (M : Machine S Op L R) : L × S → L × S → Prop :=
  Relation.ReflTransGen fun a b => M.step a.1 a.2 = some b

/-- Undisturbed, the body ends, and does what `spec` says. -/
def Machine.Implements (M : Machine S Op L R) (spec : Op → S → Option R × S) : Prop :=
  ∀ op s, ∃ l, M.Runs (M.start op, s) (l, (spec op s).2) ∧ M.step l (spec op s).2 = none ∧
    M.result l = (spec op s).1

variable {M : Machine S Op L R} {C : Client S G Op R} {spec : Op → S → Option R × S}

/-- The clients' own steps do not see how far a body has got. -/
def Machine.Unseen (M : Machine S Op L R) (C : Client S G Op R) : Prop :=
  ∀ {l s l' s'}, M.step l s = some (l', s') → ∀ {g g'}, C.quiet s' g g' → C.quiet s g g'

theorem Machine.Unseen.runs (hU : M.Unseen C) {a b : L × S} (h : M.Runs a b) {g g' : G}
    (hq : C.quiet b.2 g g') : C.quiet a.2 g g' := by
  induction h with
  | refl => exact hq
  | tail _ hs ih => exact ih (hU hs hq)

theorem Machine.Runs.next {a : L × S} {l l' : L} {s s' : S} (h : M.Runs a (l, s))
    (hs : M.step l s = some (l', s')) : M.Runs a (l', s') :=
  h.tail hs

/-- A body makes no access after its end. -/
theorem Machine.Runs.eq_of_end {a b : L × S} (h : M.Runs a b) (ha : M.step a.1 a.2 = none) : b = a := by
  rcases Relation.ReflTransGen.cases_head h with rfl | ⟨c, hc, -⟩
  · rfl
  · rw [ha] at hc
    cases hc

/-- Wherever a body has got to, if it is at an end then the section is complete. -/
theorem Machine.Implements.complete (hM : M.Implements spec) {op : Op} {a s : S} {l : L}
    (hr : M.Runs (M.start op, a) (l, s)) (he : M.step l s = none) : spec op a = (M.result l, s) := by
  obtain ⟨l', hr', he', hres⟩ := hM op a
  have hdet : Relator.RightUnique fun a b : L × S => M.step a.1 a.2 = some b := by
    intro x y z hy hz
    exact Option.some.inj (hy.symm.trans hz)
  have hends : (l', (spec op a).2) = (l, s) := by
    rcases Relation.ReflTransGen.total_of_right_unique hdet hr hr' with h | h
    · exact Machine.Runs.eq_of_end h he
    · exact (Machine.Runs.eq_of_end h he').symm
  obtain ⟨rfl, hs⟩ := Prod.mk.inj hends
  rw [hres, ← hs]

/-! ## Runs of many CPUs -/

inductive Phase (Op L : Type) where
  | out
  | want (op : Op)
  | inside (op : Op) (l : L)
  | stuck (op : Op)

/-- Where a CPU is if sections are entered only to be left at once. -/
def Phase.outer : Phase Op L → Phase Op Empty
  | .out => .out
  | .want op => .want op
  | .inside op _ => .want op
  | .stuck op => .stuck op

structure State (S Op L G : Type) where
  client : G
  data : S
  lock : Bool
  phase : Nat → Phase Op L

def State.at (s : State S Op L G) (i : Nat) (p : Phase Op L) : State S Op L G :=
  { s with phase := Function.update s.phase i p }

/-- One access, of one CPU. A CPU that finds the lock taken asks again. -/
inductive Step (M : Machine S Op L R) (C : Client S G Op R) : State S Op L G → State S Op L G → Prop
  | quiet {s : State S Op L G} {g : G} : C.quiet s.data s.client g → Step M C s { s with client := g }
  | invoke {s : State S Op L G} {i : Nat} {op : Op} {g : G} : s.phase i = .out → C.invoke i op s.client g →
      Step M C s { s.at i (.want op) with client := g }
  | acquire {s : State S Op L G} {i : Nat} {op : Op} : s.phase i = .want op → s.lock = false →
      Step M C s { s.at i (.inside op (M.start op)) with lock := true }
  | access {s : State S Op L G} {i : Nat} {op : Op} {l l' : L} {d : S} : s.phase i = .inside op l →
      M.step l s.data = some (l', d) → Step M C s { s.at i (.inside op l') with data := d }
  | release {s : State S Op L G} {i : Nat} {op : Op} {l : L} {r : R} {g : G} : s.phase i = .inside op l →
      M.step l s.data = none → M.result l = some r → C.resume i op r s.client g →
      Step M C s { s.at i .out with client := g, lock := false }
  | die {s : State S Op L G} {i : Nat} {op : Op} {l : L} : s.phase i = .inside op l →
      M.step l s.data = none → M.result l = none → Step M C s (s.at i (.stuck op))

/-- What is left of a state when sections run in one step. -/
structure Coarse (S Op G : Type) where
  client : G
  data : S
  phase : Nat → Phase Op Empty

def Coarse.at (s : Coarse S Op G) (i : Nat) (p : Phase Op Empty) : Coarse S Op G :=
  { s with phase := Function.update s.phase i p }

inductive CoarseStep (spec : Op → S → Option R × S) (C : Client S G Op R) : Coarse S Op G → Coarse S Op G → Prop
  | quiet {s : Coarse S Op G} {g : G} : C.quiet s.data s.client g → CoarseStep spec C s { s with client := g }
  | invoke {s : Coarse S Op G} {i : Nat} {op : Op} {g : G} : s.phase i = .out → C.invoke i op s.client g →
      CoarseStep spec C s { s.at i (.want op) with client := g }
  | run {s : Coarse S Op G} {i : Nat} {op : Op} {r : R} {d : S} {g : G} : s.phase i = .want op →
      spec op s.data = (some r, d) → C.resume i op r s.client g →
      CoarseStep spec C s { s.at i .out with client := g, data := d }
  | die {s : Coarse S Op G} {i : Nat} {op : Op} {d : S} : s.phase i = .want op →
      spec op s.data = (none, d) → CoarseStep spec C s { s.at i (.stuck op) with data := d }

/-! ## One at a time -/

/-- The lock is taken while a CPU is inside, and only one is. -/
structure Excl (lock : Bool) (phase : Nat → Phase Op L) : Prop where
  locked : ∀ i op l, phase i = .inside op l → lock = true
  sole : ∀ i op l j op' l', phase i = .inside op l → phase j = .inside op' l' → i = j

section
variable {lock lock' : Bool} {phase : Nat → Phase Op L} {p : Phase Op L} {i j : Nat} {op op' : Op} {l l' : L}

theorem inside_update (h : Function.update phase i p j = .inside op l) :
    j = i ∧ p = .inside op l ∨ j ≠ i ∧ phase j = .inside op l := by
  by_cases hj : j = i
  · subst hj
    rw [Function.update_self] at h
    exact .inl ⟨rfl, h⟩
  · rw [Function.update_of_ne hj] at h
    exact .inr ⟨hj, h⟩

theorem Excl.start (lock : Bool) : Excl lock (fun _ => .out : Nat → Phase Op L) :=
  ⟨by simp, by simp⟩

/-- Whoever is inside after a change outside was inside before it. -/
theorem inside_of_outside (hp : ∀ op l, p ≠ .inside op l) (h : Function.update phase i p j = .inside op l) :
    phase j = .inside op l := by
  rcases inside_update h with ⟨-, h⟩ | ⟨-, h⟩
  · exact absurd h (hp op l)
  · exact h

theorem Excl.outside (h : Excl lock phase) (hp : ∀ op l, p ≠ .inside op l) :
    Excl lock (Function.update phase i p) :=
  ⟨fun j op l hj => h.locked j op l (inside_of_outside hp hj),
    fun j op l k op' l' hj hk => h.sole j op l k op' l' (inside_of_outside hp hj) (inside_of_outside hp hk)⟩

theorem Excl.nobody (h : Excl lock phase) (hl : lock = false) (j : Nat) (op : Op) (l : L) :
    phase j ≠ .inside op l := by
  intro hj
  rw [h.locked j op l hj] at hl
  cases hl

/-- The one who enters finds nobody. -/
theorem Excl.enters (h : Excl lock phase) (hl : lock = false)
    (hj : Function.update phase i (.inside op l) j = .inside op' l') :
    j = i ∧ Phase.inside op l = .inside op' l' :=
  (inside_update hj).resolve_right fun hin => h.nobody hl j op' l' hin.2

theorem Excl.enter (h : Excl lock phase) (hl : lock = false) :
    Excl true (Function.update phase i (.inside op l)) := by
  refine ⟨fun _ _ _ _ => rfl, ?_⟩
  intro j op' l' k op'' l'' hj hk
  rw [(h.enters hl hj).1, (h.enters hl hk).1]

theorem Excl.stays (h : Excl lock phase) (hi : phase i = .inside op l) {q : Phase Op L}
    (hj : Function.update phase i q j = .inside op' l') : j = i ∧ q = .inside op' l' :=
  (inside_update hj).resolve_right fun hin => hin.1 (h.sole _ _ _ _ _ _ hin.2 hi)

theorem Excl.stay (h : Excl lock phase) (hi : phase i = .inside op l) :
    Excl lock (Function.update phase i (.inside op l')) := by
  refine ⟨fun _ _ _ _ => h.locked i op l hi, ?_⟩
  intro j op' l' k op'' l'' hj hk
  rw [(h.stays hi hj).1, (h.stays hi hk).1]

/-- A CPU that leaves the section leaves it empty. -/
theorem Excl.left (h : Excl lock phase) (hi : phase i = .inside op l) (hp : ∀ op l, p ≠ .inside op l)
    (j : Nat) (op' : Op) (l' : L) : Function.update phase i p j ≠ .inside op' l' :=
  fun hj => hp _ _ (h.stays hi hj).2

theorem Excl.leave (h : Excl lock phase) (hi : phase i = .inside op l) (hp : ∀ op l, p ≠ .inside op l) :
    Excl lock' (Function.update phase i p) :=
  ⟨fun j op' l' hj => absurd hj (h.left hi hp j op' l'), fun j op' l' _ _ _ hj => absurd hj (h.left hi hp j op' l')⟩

end

/-! ## The simulation -/

/-- The two kinds of state at the same point: the data differs by what the one CPU in the section
has done of its body. -/
structure Matches (M : Machine S Op L R) (s : State S Op L G) (t : Coarse S Op G) : Prop where
  client : s.client = t.client
  phase : ∀ i, (s.phase i).outer = t.phase i
  excl : Excl s.lock s.phase
  idle : (∀ i op l, s.phase i ≠ .inside op l) → s.data = t.data
  busy : ∀ i op l, s.phase i = .inside op l → M.Runs (M.start op, t.data) (l, s.data)

variable {s s' : State S Op L G} {t : Coarse S Op G} {i j : Nat} {op : Op} {l : L} {p : Phase Op L}

theorem outer_at (h : ∀ i, (s.phase i).outer = t.phase i) (j : Nat) :
    ((s.at i p).phase j).outer = (t.at i p.outer).phase j := by
  change (Function.update s.phase i p j).outer = Function.update t.phase i p.outer j
  by_cases hj : j = i
  · subst hj
    rw [Function.update_self, Function.update_self]
  · rw [Function.update_of_ne hj, Function.update_of_ne hj]
    exact h j

/-- Taking part in a section is the same from outside as wanting to. -/
theorem outer_at_same (h : ∀ i, (s.phase i).outer = t.phase i) (hp : p.outer = (s.phase i).outer) (j : Nat) :
    ((s.at i p).phase j).outer = t.phase j := by
  rw [outer_at h, hp, h, Coarse.at, Function.update_eq_self]

theorem Matches.quiet (hm : Matches M s t) (g : G) : Matches M { s with client := g } { t with client := g } :=
  ⟨rfl, hm.phase, hm.excl, hm.idle, hm.busy⟩

theorem Matches.invoke (hm : Matches M s t) (ho : s.phase i = .out) (g : G) :
    Matches M { s.at i (.want op) with client := g } { t.at i (.want op) with client := g } := by
  refine ⟨rfl, outer_at hm.phase, hm.excl.outside (by simp), ?_, ?_⟩
  · intro hnone
    refine hm.idle fun j op' l' hj => hnone j op' l' ?_
    have hne : j ≠ i := by
      rintro rfl
      rw [ho] at hj
      cases hj
    exact (Function.update_of_ne hne ..).trans hj
  · exact fun j op' l' hj => hm.busy j op' l' (inside_of_outside (by simp) hj)

theorem Matches.acquire (hm : Matches M s t) (hw : s.phase i = .want op) (hl : s.lock = false) :
    Matches M { s.at i (.inside op (M.start op)) with lock := true } t := by
  refine ⟨hm.client, outer_at_same hm.phase (by rw [hw]; rfl), hm.excl.enter hl, ?_, ?_⟩
  · intro h
    exact absurd (Function.update_self ..) (h i op (M.start op))
  · intro j op' l' hj
    obtain ⟨-, hp⟩ := hm.excl.enters hl hj
    cases hp
    have hd : s.data = t.data := hm.idle (hm.excl.nobody hl)
    change M.Runs (M.start op, t.data) (M.start op, s.data)
    rw [hd]
    exact .refl

theorem Matches.access (hm : Matches M s t) {l' : L} {d : S} (hi : s.phase i = .inside op l)
    (hs : M.step l s.data = some (l', d)) : Matches M { s.at i (.inside op l') with data := d } t := by
  refine ⟨hm.client, outer_at_same hm.phase (by rw [hi]; rfl), hm.excl.stay hi, ?_, ?_⟩
  · intro h
    exact absurd (Function.update_self ..) (h i op l')
  · intro j op₁ l₁ hj
    obtain ⟨-, hp⟩ := hm.excl.stays hi hj
    cases hp
    exact (hm.busy i op l hi).next hs

theorem Matches.leave (hm : Matches M s t) (hi : s.phase i = .inside op l) (hp : ∀ op l, p ≠ .inside op l)
    (g : G) (lock : Bool) :
    Matches M { s.at i p with client := g, lock := lock } { t.at i p.outer with client := g, data := s.data } :=
  ⟨rfl, outer_at hm.phase, hm.excl.leave hi hp, fun _ => rfl,
    fun j op' l' hj => absurd hj (hm.excl.left hi hp j op' l')⟩

/-- The data before the section serves the clients' own steps as well. -/
theorem Matches.unseen (hU : M.Unseen C) (hm : Matches M s t) {g g' : G} (hq : C.quiet s.data g g') :
    C.quiet t.data g g' := by
  by_cases hin : ∃ i op l, s.phase i = .inside op l
  · obtain ⟨i, op, l, hi⟩ := hin
    exact hU.runs (hm.busy i op l hi) hq
  · rw [← hm.idle fun i op l hi => hin ⟨i, op, l, hi⟩]
    exact hq

theorem Matches.step (hM : M.Implements spec) (hU : M.Unseen C) (hm : Matches M s t) (h : Step M C s s') :
    ∃ t', Relation.ReflTransGen (CoarseStep spec C) t t' ∧ Matches M s' t' := by
  cases h with
  | @quiet g hq => exact ⟨_, .single (.quiet (hm.unseen hU (hm.client ▸ hq))), hm.quiet g⟩
  | @invoke i op g ho hc =>
    have hout : t.phase i = .out := by rw [← hm.phase, ho, Phase.outer]
    exact ⟨_, .single (.invoke hout (hm.client ▸ hc)), hm.invoke ho g⟩
  | acquire hw hl => exact ⟨t, .refl, hm.acquire hw hl⟩
  | access hi hs => exact ⟨t, .refl, hm.access hi hs⟩
  | @release i op l r g hi hs hr hc =>
    have hspec := hM.complete (hm.busy i op l hi) hs
    have hwant : t.phase i = .want op := by rw [← hm.phase, hi, Phase.outer]
    rw [hr] at hspec
    exact ⟨_, .single (.run hwant hspec (hm.client ▸ hc)), hm.leave (p := .out) hi (by simp) g false⟩
  | @die i op l hi hs hr =>
    have hspec := hM.complete (hm.busy i op l hi) hs
    have hwant : t.phase i = .want op := by rw [← hm.phase, hi, Phase.outer]
    rw [hr] at hspec
    have hleft := hm.leave (p := .stuck op) hi (by simp) t.client s.lock
    have hsame : ({ s.at i (.stuck op) with client := t.client, lock := s.lock } : State S Op L G) =
        s.at i (.stuck op) := by
      rw [← hm.client]
      rfl
    exact ⟨_, .single (.die hwant hspec), hsame ▸ hleft⟩

/-- **Sections look as if each ran in one step.** -/
theorem simulates (hM : M.Implements spec) (hU : M.Unseen C) (hm : Matches M s t)
    (h : Relation.ReflTransGen (Step M C) s s') :
    ∃ t', Relation.ReflTransGen (CoarseStep spec C) t t' ∧ Matches M s' t' := by
  induction h with
  | refl => exact ⟨t, .refl, hm⟩
  | tail _ hs ih =>
    obtain ⟨t₁, hr, hm₁⟩ := ih
    obtain ⟨t₂, hr₂, hm₂⟩ := hm₁.step hM hU hs
    exact ⟨t₂, hr.trans hr₂, hm₂⟩

/-- The accesses of a body that nobody disturbs. -/
theorem accesses {b : L × S} (hr : M.Runs (l, s.data) b) (hi : s.phase i = .inside op l) :
    Relation.ReflTransGen (Step M C) s { s.at i (.inside op b.1) with data := b.2 } := by
  induction hr with
  | refl =>
    have hsame : ({ s.at i (.inside op l) with data := s.data } : State S Op L G) = s := by
      rw [State.at, ← hi, Function.update_eq_self]
    rw [hsame]
  | @tail b b' _ hs ih =>
    have hstep : Step M C _ _ := Step.access (s := { s.at i (.inside op b.1) with data := b.2 }) (i := i)
      (Function.update_self ..) hs
    simp only [State.at, Function.update_idem] at hstep ih
    exact ih.tail hstep

/-- A section that nobody disturbs, from the lock to its return. -/
theorem undisturbed (hM : M.Implements spec) {r : R} {d : S} {g : G} (hw : s.phase i = .want op)
    (hl : s.lock = false) (hspec : spec op s.data = (some r, d)) (hc : C.resume i op r s.client g) :
    Relation.ReflTransGen (Step M C) s { s.at i .out with client := g, data := d } := by
  obtain ⟨l, hr, he, hres⟩ := hM op s.data
  rw [hspec] at hr he hres
  have hbody := accesses (C := C) (s := { s.at i (.inside op (M.start op)) with lock := true }) (i := i) hr
    (Function.update_self ..)
  have hlast := Step.release (C := C) (s := { s.at i (.inside op l) with data := d, lock := true }) (i := i)
    (Function.update_self ..) he hres hc
  simp only [State.at, Function.update_idem] at hbody hlast
  rw [← hl] at hlast
  exact (Relation.ReflTransGen.head (.acquire hw hl) hbody).tail hlast

/-- Before the first call. -/
def State.start (g : G) (d : S) : State S Op L G := ⟨g, d, false, fun _ => .out⟩
def Coarse.start (g : G) (d : S) : Coarse S Op G := ⟨g, d, fun _ => .out⟩

theorem matches_start (g : G) (d : S) : Matches M (State.start g d) (Coarse.start g d) :=
  ⟨rfl, fun _ => rfl, .start false, fun _ => rfl, by simp [State.start]⟩

/-! ## Clients over clients -/

section
variable {G' : Type} {C' : Client S G' Op R}

/-- The same machine with other clients. -/
def State.over (t : State S Op L G') (g : G) : State S Op L G := ⟨g, t.data, t.lock, t.phase⟩

/-- What `C` does, `C'` can do: the same calls, and any number of its own steps for one of `C`.
`ok` is what is known of the machine with the clients `C'`. -/
structure Refines (M : Machine S Op L R) (C : Client S G Op R) (C' : Client S G' Op R)
    (ok : State S Op L G' → Prop) (rel : G → G' → Prop) : Prop where
  quiet : ∀ {t g g₁}, ok t → rel g t.client → C.quiet t.data g g₁ →
    ∃ g₂, Relation.ReflTransGen (C'.quiet t.data) t.client g₂ ∧ rel g₁ g₂
  invoke : ∀ {t g g₁ i op}, ok t → rel g t.client → C.invoke i op g g₁ →
    ∃ g₂, C'.invoke i op t.client g₂ ∧ rel g₁ g₂
  resume : ∀ {t g g₁ i op l r}, ok t → rel g t.client → t.phase i = .inside op l → M.step l t.data = none →
    M.result l = some r → C.resume i op r g g₁ → ∃ g₂, C'.resume i op r t.client g₂ ∧ rel g₁ g₂

variable {ok : State S Op L G' → Prop} {rel : G → G' → Prop} {t : State S Op L G'} {g : G}

theorem quiet_steps {g₂ : G'} (h : Relation.ReflTransGen (C'.quiet t.data) t.client g₂) :
    Relation.ReflTransGen (Step M C') t { t with client := g₂ } := by
  induction h with
  | refl => exact .refl
  | tail _ hq ih => exact ih.tail (Step.quiet hq)

theorem Refines.step (href : Refines M C C' ok rel) (hok : ok t) (hrel : rel g t.client) (h : Step M C (t.over g) s') :
    ∃ t' g', Relation.ReflTransGen (Step M C') t t' ∧ s' = t'.over g' ∧ rel g' t'.client := by
  cases h with
  | @quiet g₁ hq =>
    obtain ⟨g₂, hsteps, hrel₂⟩ := href.quiet hok hrel hq
    exact ⟨_, g₁, quiet_steps hsteps, rfl, hrel₂⟩
  | @invoke i op g₁ ho hc =>
    obtain ⟨g₂, hcall, hrel₂⟩ := href.invoke hok hrel hc
    exact ⟨_, g₁, .single (.invoke ho hcall), rfl, hrel₂⟩
  | acquire hw hl => exact ⟨_, g, .single (.acquire hw hl), rfl, hrel⟩
  | access hi hs => exact ⟨_, g, .single (.access hi hs), rfl, hrel⟩
  | @release i op l r g₁ hi hs hr hc =>
    obtain ⟨g₂, hback, hrel₂⟩ := href.resume hok hrel hi hs hr hc
    exact ⟨_, g₁, .single (.release hi hs hr hback), rfl, hrel₂⟩
  | die hi hs hr => exact ⟨_, g, .single (.die hi hs hr), rfl, hrel⟩

/-- Every run with the clients `C` is, for the section, a run with the clients `C'`. -/
theorem Refines.run {t₀ : State S Op L G'} {g₀ : G} (href : Refines M C C' ok rel)
    (hok : ∀ t, Relation.ReflTransGen (Step M C') t₀ t → ok t) (hrel : rel g₀ t₀.client)
    (h : Relation.ReflTransGen (Step M C) (t₀.over g₀) s) :
    ∃ t g, Relation.ReflTransGen (Step M C') t₀ t ∧ s = t.over g ∧ rel g t.client := by
  induction h with
  | refl => exact ⟨t₀, g₀, .refl, rfl, hrel⟩
  | tail _ hs ih =>
    obtain ⟨t, g, hrun, rfl, hrel⟩ := ih
    obtain ⟨t', g', hsteps, heq, hrel'⟩ := href.step (hok t hrun) hrel hs
    exact ⟨t', g', hrun.trans hsteps, heq, hrel'⟩

end

end Cynix.Base.Sections
