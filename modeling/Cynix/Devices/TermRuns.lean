import Cynix.Devices.Term

/-! # Whole runs of the terminals

The invariant follows `term_init` from point to point. Between the calls the
terminals below `term_count` have their contexts, and once something has been
initialised there is a terminal 0 if there is a framebuffer. Inside `term_init`
terminal 0 is first taken away and then made again, and only there can a panic
find it missing. After a panic has started over, the contexts of terminals 1
and up may outlive their place in `term_count`. -/
namespace Cynix.Devices.Term

variable {Fb : Type} {resp : Option (List Fb)} {s t : State Fb}

/-! ## Framebuffers -/

theorem fbCopy_length (l fbs : List Fb) (h : fbs.length ≤ fbsMax) :
    (fbCopy l fbs).length = min (fbs.length + l.length) fbsMax := by
  induction l generalizing fbs with
  | nil =>
    simp only [fbCopy, List.length_nil, Nat.add_zero]
    omega
  | cons fb rest ih =>
    unfold fbCopy
    split
    · simp only [List.length_cons]
      omega
    · rw [ih _ (by simp only [List.length_append, List.length_singleton]; omega)]
      simp only [List.length_append, List.length_cons, List.length_nil]
      omega

/-- `fb_init` leaves as many framebuffers as there are, up to the size of the table. -/
theorem fbInit_length (h : s.fbInitDone = true → s.fbs.length = min (reported resp) termsMax) :
    (fbInit resp s).fbs.length = min (reported resp) termsMax := by
  unfold fbInit
  split
  · rename_i hd
    exact h hd
  · cases resp with
    | none => simp [reported]
    | some l => simpa [reported] using fbCopy_length l [] (by simp)

/-- `fb_init` changes the table of framebuffers and nothing else. -/
theorem fbInit_eq (resp : Option (List Fb)) (s : State Fb) :
    ∃ fbs fbDone, fbInit resp s = { s with fbs := fbs, fbInitDone := fbDone } := by
  unfold fbInit
  split
  · exact ⟨s.fbs, s.fbInitDone, rfl⟩
  · cases resp with
    | none => exact ⟨[], s.fbInitDone, rfl⟩
    | some l => exact ⟨fbCopy l [], true, rfl⟩

/-! ## The invariant -/

/-- The first `k` terminals have their own live contexts. -/
def Row (s : State Fb) (k : Nat) : Prop := ∀ i, i < k → ∃ c, s.ftCtx i = some c ∧ (c, i) ∈ s.live

/-- Every live context belongs to one of the first `k` terminals, or was left
behind by the `term_init` that a panic has interrupted. -/
def Older (s : State Fb) (k : Nat) : Prop := ∀ x ∈ s.live, x.2 < k ∨ s.panicked = true ∧ 1 ≤ x.2

/-- No `term_init` is under way. -/
structure Settled (resp : Option (List Fb)) (s : State Fb) : Prop where
  row : Row s s.termCount
  ready : s.termInitDone ≠ .notDone → 0 < reported resp → 0 < s.termCount
  only : s.termInitDone = .notDone ∨ s.panicked = false → ∀ x ∈ s.live, x.2 < s.termCount
  fresh : s.panicked = false → s.termInitDone = .notDone → s.termCount = 0
  debug : s.panicked = false → s.termInitDone = .debugDone → s.termCount ≤ 1

/-- What a `term_init` that has got past its first check knows. -/
structure Started (resp : Option (List Fb)) (debug : Bool) (s : State Fb) : Prop where
  fbs : s.fbs.length = min (reported resp) termsMax
  first : debug = true → s.termInitDone = .notDone
  normal : debug = false → s.panicked = false ∧ s.termInitDone ≠ .normalDone

structure AtLoop (resp : Option (List Fb)) (debug : Bool) (s : State Fb) : Prop extends
    Started resp debug s where
  row : Row s s.termCount
  older : Older s s.termCount
  one : debug = true → s.termCount ≤ 1

structure AtCreate (resp : Option (List Fb)) (debug : Bool) (s : State Fb) : Prop extends
    AtLoop resp debug s where
  more : s.termCount < s.fbs.length
  limit : s.termCount ≠ termsLimit debug

def InitAt (resp : Option (List Fb)) (debug : Bool) : Point → State Fb → Prop
  | .start, s => Settled resp s ∧ (debug = false → s.panicked = false)
  | .deinit, s => Started resp debug s ∧ Row s s.termCount ∧ (∀ x ∈ s.live, x.2 < s.termCount) ∧
      (s.panicked = false → s.termCount ≤ 1)
  | .reset, s => Started resp debug s ∧ Older s 0
  | .loop, s => AtLoop resp debug s
  | .create, s => AtCreate resp debug s
  | .incr, s => Started resp debug s ∧ Row s (s.termCount + 1) ∧ Older s (s.termCount + 1) ∧
      (debug = true → s.termCount = 0) ∧ s.termCount < s.fbs.length

def Phase (resp : Option (List Fb)) (s : State Fb) : Prop :=
  match s.todo with
  | .init debug p :: _ => InitAt resp debug p s
  | _ => Settled resp s

def Task.plain : Task → Bool
  | .init _ _ => false
  | _ => true

structure Inv (resp : Option (List Fb)) (s : State Fb) : Prop where
  safe : Safe resp s
  fb : s.fbInitDone = true → s.fbs.length = min (reported resp) termsMax
  /-- Only the top of the stack is a `term_init`. -/
  shape : ∀ t ∈ s.todo.tail, t.plain = true
  phase : Phase resp s

theorem Inv.boot : Inv resp (State.boot : State Fb) := by
  refine ⟨⟨by simp [State.boot], by simp [State.boot], Nat.zero_le _⟩, by simp [State.boot],
    by simp [State.boot], ?_⟩
  exact ⟨fun i hi => absurd hi (Nat.not_lt_zero i), fun h => absurd rfl h, by simp [State.boot],
    fun _ _ => rfl, fun _ _ => Nat.zero_le _⟩

/-! ## One step of `term_init` -/

variable {debug : Bool} {rest : List Task}

/-- Popping a finished `term_init` leaves a settled state. -/
theorem phase_of_settled (hrest : ∀ t ∈ s.todo, t.plain = true) (h : Settled resp s) : Phase resp s := by
  unfold Phase
  split
  · rename_i debug p rest htodo
    have := hrest (.init debug p) (by rw [htodo]; exact List.mem_cons_self)
    cases this
  · exact h

theorem termInit_deinit (hs : Safe resp s) (h : InitAt resp debug .deinit s) :
    ∀ x ∈ s.live.filter (fun x => some x.1 ≠ s.ftCtx 0), s.panicked = true ∧ 1 ≤ x.2 := by
  obtain ⟨-, hrow, honly, hcalm⟩ := h
  intro x hx
  obtain ⟨hx, hne⟩ := List.mem_filter.mp hx
  have hlt := honly x hx
  -- the context of terminal 0 is the only one for framebuffer 0, and it is gone
  have hpos : 1 ≤ x.2 := by
    obtain ⟨c, hc0, hmem⟩ := hrow 0 (by omega)
    by_contra hz
    have hxc := hs.single x hx (c, 0) hmem (by simp only; omega)
    simp [hc0, hxc] at hne
  refine ⟨?_, hpos⟩
  by_contra hp
  have := hcalm (by simpa using hp)
  omega

/-- The context that is created is the only one for its framebuffer. -/
theorem termInit_create (h : AtCreate resp debug s) : ∀ x ∈ s.live, x.2 ≠ s.termCount := by
  intro x hx
  rcases h.older x hx with hlt | ⟨hp, hpos⟩
  · omega
  · -- a panic starts the debug terminal over, which has number 0
    cases debug with
    | false => rw [(h.normal rfl).1] at hp; cases hp
    | true =>
      have h1 := h.one rfl
      have h2 := h.limit
      unfold termsLimit at h2
      simp only [if_true] at h2
      omega

theorem Settled.congr {todo : List Task} (h : Settled resp s) : Settled resp { s with todo := todo } :=
  ⟨h.row, h.ready, h.only, h.fresh, h.debug⟩

/-- `term_init` on a settled state: it returns, or it goes on with the framebuffers in place. -/
theorem Inv.start (hi : Inv resp s) (h : InitAt resp debug .start s)
    (hrest : ∀ t ∈ rest, t.plain = true) :
    Inv resp (termInit resp debug .start { s with todo := rest }) := by
  obtain ⟨hset, hcalm⟩ := h
  have hreturn : Inv resp { s with todo := rest } :=
    ⟨⟨hi.safe.writes, hi.safe.single, hi.safe.bound⟩, hi.fb,
      fun t ht => hrest t (List.mem_of_mem_tail ht), phase_of_settled hrest hset.congr⟩
  obtain ⟨fbs, fbDone, hfb⟩ := fbInit_eq resp { s with todo := rest }
  have hlen : (fbInit resp { s with todo := rest }).fbs.length = min (reported resp) termsMax :=
    fbInit_length hi.fb
  rw [hfb] at hlen
  have hgo : (debug = true → s.termInitDone = .notDone) →
      (debug = false → s.panicked = false ∧ s.termInitDone ≠ .normalDone) →
      Inv resp ((fbInit resp { s with todo := rest }).push (.init debug .deinit)) := by
    intro h1 h2
    rw [hfb]
    refine ⟨⟨hi.safe.writes, hi.safe.single, hi.safe.bound⟩, fun _ => hlen, hrest,
      ⟨hlen, h1, h2⟩, hset.row, ?_, ?_⟩
    · apply hset.only
      cases debug with
      | true => exact Or.inl (h1 rfl)
      | false => exact Or.inr (h2 rfl).1
    · intro hp
      cases hdone : s.termInitDone with
      | notDone => exact (hset.fresh hp hdone).trans_le (Nat.zero_le _)
      | debugDone => exact hset.debug hp hdone
      | normalDone =>
        cases debug with
        | true => rw [h1 rfl] at hdone; cases hdone
        | false => exact absurd hdone (h2 rfl).2
  unfold termInit
  cases debug with
  | true =>
    simp only [if_true]
    split
    · exact hreturn
    · rename_i hdone
      exact hgo (fun _ => by simpa using hdone) (fun h => by cases h)
  | false =>
    simp only [Bool.false_eq_true, if_false]
    split
    · exact hreturn
    · rename_i hdone
      exact hgo (fun h => by cases h) (fun _ => ⟨hcalm rfl, hdone⟩)

/-- The loop ends: the flag is set and everything is settled. -/
theorem AtLoop.finish (h : AtLoop resp debug s) (hend : s.fbs.length ≤ s.termCount ∨
    s.termCount = termsLimit debug) :
    Settled resp { s with termInitDone := if debug then .debugDone else .normalDone } := by
  refine ⟨h.row, ?_, ?_, ?_, ?_⟩
  · intro _ hpos
    rcases hend with hle | heq
    · have hsome : 0 < s.fbs.length := by
        rw [h.fbs]
        exact lt_min hpos (by decide)
      exact hsome.trans_le hle
    · simp only [heq]
      cases debug <;> decide
  · intro hor x hx
    rcases hor with hdone | hcalm
    · cases debug <;> simp at hdone
    · rcases h.older x hx with hlt | ⟨hp, -⟩
      · exact hlt
      · simp only at hcalm
        rw [hcalm] at hp
        cases hp
  · intro _ hdone
    cases debug <;> simp at hdone
  · intro _ hdone
    cases debug with
    | true => exact h.one rfl
    | false => simp at hdone

/-- Terminal 0 is taken away, if there is one. -/
theorem Inv.deinit (hi : Inv resp s) (h : InitAt resp debug .deinit s) (hrest : ∀ t ∈ rest, t.plain = true) :
    Inv resp (termInit resp debug .deinit { s with todo := rest }) := by
  have hlive := termInit_deinit hi.safe h
  obtain ⟨hst, hrow, honly, hcalm⟩ := h
  unfold Term.termInit
  simp only
  split
  · refine ⟨⟨hi.safe.writes, ?_, hi.safe.bound⟩, hi.fb, hrest, ⟨hst.fbs, hst.first, hst.normal⟩, ?_⟩
    · intro x hx y hy
      exact hi.safe.single x (List.mem_of_mem_filter hx) y (List.mem_of_mem_filter hy)
    · intro x hx
      exact Or.inr (hlive x hx)
  · rename_i hz
    have hz : s.termCount = 0 := by simpa using hz
    refine ⟨⟨hi.safe.writes, hi.safe.single, hi.safe.bound⟩, hi.fb, hrest,
      ⟨⟨hst.fbs, hst.first, hst.normal⟩, hrow, ?_, ?_⟩⟩
    · intro x hx
      exact Or.inl (honly x hx)
    · intro _
      exact hz.trans_le (Nat.zero_le _)

/-- The test of the loop: another terminal is made, or everything is settled. -/
theorem Inv.loop (hi : Inv resp s) (hloop : AtLoop resp debug s) (hrest : ∀ t ∈ rest, t.plain = true) :
    Inv resp (termInit resp debug .loop { s with todo := rest }) := by
  have hdone : s.fbs.length ≤ s.termCount ∨ s.termCount = termsLimit debug →
      Inv resp { s with todo := rest, termInitDone := if debug then .debugDone else .normalDone } :=
    fun hend => ⟨⟨hi.safe.writes, hi.safe.single, hi.safe.bound⟩, hi.fb,
      fun t ht => hrest t (List.mem_of_mem_tail ht),
      phase_of_settled hrest (hloop.finish hend).congr⟩
  unfold Term.termInit
  simp only
  split
  · split
    · rename_i hlim
      exact hdone (Or.inr hlim)
    · rename_i hlt hlim
      exact ⟨⟨hi.safe.writes, hi.safe.single, hi.safe.bound⟩, hi.fb, hrest,
        ⟨⟨⟨hloop.fbs, hloop.first, hloop.normal⟩, hloop.row, hloop.older, hloop.one⟩, hlt, hlim⟩⟩
  · rename_i hlt
    exact hdone (Or.inl (Nat.le_of_not_lt hlt))

/-- A context is made for the terminal at `term_count`. -/
theorem Inv.create (hi : Inv resp s) (hcr : AtCreate resp debug s) (hrest : ∀ t ∈ rest, t.plain = true) :
    Inv resp (termInit resp debug .create { s with todo := rest }) := by
  have hne := termInit_create hcr
  refine ⟨⟨hi.safe.writes, ?_, hi.safe.bound⟩, hi.fb, hrest, ⟨hcr.fbs, hcr.first, hcr.normal⟩,
    ?_, ?_, ?_, hcr.more⟩
  · intro x hx y hy hxy
    rcases List.mem_cons.mp hx with rfl | hx
    · rcases List.mem_cons.mp hy with rfl | hy
      · rfl
      · exact absurd hxy.symm (hne y hy)
    · rcases List.mem_cons.mp hy with rfl | hy
      · exact absurd hxy (hne x hx)
      · exact hi.safe.single x hx y hy hxy
  · intro i hlt
    change i < s.termCount + 1 at hlt
    change ∃ c, Function.update s.ftCtx s.termCount (some s.next) i = some c ∧
      (c, i) ∈ (s.next, s.termCount) :: s.live
    by_cases hlast : i = s.termCount
    · subst hlast
      exact ⟨s.next, Function.update_self .., List.mem_cons_self⟩
    · obtain ⟨c, hc, hmem⟩ := hcr.row i (by omega)
      exact ⟨c, by rw [Function.update_of_ne hlast, hc], List.mem_cons_of_mem _ hmem⟩
  · intro x hx
    rcases List.mem_cons.mp hx with rfl | hx
    · exact Or.inl (Nat.lt_succ_self _)
    · rcases hcr.older x hx with hlt | hp
      · exact Or.inl (Nat.lt_succ_of_lt hlt)
      · exact Or.inr hp
  · intro hd
    have h1 := hcr.one hd
    have h2 := hcr.limit
    rw [hd] at h2
    change s.termCount ≠ 1 at h2
    change s.termCount = 0
    omega

theorem Inv.termInit {p : Point} (hi : Inv resp s) (htodo : s.todo = .init debug p :: rest) :
    Inv resp (termInit resp debug p { s with todo := rest }) := by
  have hphase := hi.phase
  unfold Phase at hphase
  rw [htodo] at hphase
  have hrest := hi.shape
  rw [htodo] at hrest
  change ∀ t ∈ rest, t.plain = true at hrest
  cases p with
  | start => exact hi.start hphase hrest
  | deinit => exact hi.deinit hphase hrest
  | reset =>
    obtain ⟨hst, holder⟩ := hphase
    exact ⟨⟨hi.safe.writes, hi.safe.single, Nat.zero_le _⟩, hi.fb, hrest,
      ⟨⟨hst.fbs, hst.first, hst.normal⟩, fun i hi => absurd hi (Nat.not_lt_zero i), holder,
        fun _ => Nat.zero_le _⟩⟩
  | loop => exact hi.loop hphase hrest
  | create => exact hi.create hphase hrest
  | incr =>
    obtain ⟨hst, hrow, holder, hone, hlt⟩ := hphase
    refine ⟨⟨hi.safe.writes, hi.safe.single, ?_⟩, hi.fb, hrest,
      ⟨⟨hst.fbs, hst.first, hst.normal⟩, hrow, holder, ?_⟩⟩
    · rw [hst.fbs] at hlt
      exact hlt
    · intro hd
      exact (congrArg (· + 1) (hone hd)).le

/-! ## Runs -/

/-- Unless `term_init` is on top, the state is settled. -/
theorem Inv.settled (hi : Inv resp s) (h : ∀ t ∈ s.todo.head?, t.plain = true) : Settled resp s := by
  have hphase := hi.phase
  unfold Phase at hphase
  split at hphase
  · rename_i debug p rest htodo
    have := h (.init debug p) (by rw [htodo]; rfl)
    cases this
  · exact hphase

/-- A `flanterm_write` on a settled state. -/
theorem Settled.write_ok (h : Settled resp s) (hdone : s.termInitDone ≠ .notDone)
    (hpos : 0 < reported resp) : Write.Ok ⟨0, s.ftCtx 0, s.termCount, s.live⟩ := by
  have hterm := h.ready hdone hpos
  exact ⟨hterm, h.row 0 hterm⟩

theorem Inv.write {n : Nat} (hi : Inv resp s) (htodo : s.todo = .write (n + 1) :: rest)
    (hm : s.termInitDone ≠ .notDone → 0 < reported resp) :
    Inv resp ((termWrite 0 { s with todo := rest }).push (.write n)) := by
  have hset := hi.settled (by simp [htodo, Task.plain])
  have hrest := hi.shape
  rw [htodo] at hrest
  unfold termWrite
  simp only
  split
  · exact ⟨⟨hi.safe.writes, hi.safe.single, hi.safe.bound⟩, hi.fb, hrest, hset.congr⟩
  · rename_i hdone
    refine ⟨⟨?_, hi.safe.single, hi.safe.bound⟩, hi.fb, hrest,
      ⟨hset.row, hset.ready, hset.only, hset.fresh, hset.debug⟩⟩
    intro w hw
    rcases List.mem_append.mp hw with hw | hw
    · exact hi.safe.writes w hw
    · rw [List.mem_singleton.mp hw]
      exact hset.write_ok hdone (hm hdone)

/-- A panic finds a settled state, or one in which terminal 0 is there. -/
theorem Inv.panic (hi : Inv resp s) (lines : List Nat) (hrow : Row s s.termCount)
    (hready : s.termInitDone ≠ .notDone → 0 < reported resp → 0 < s.termCount)
    (honly : ∀ x ∈ s.live, x.2 < s.termCount) : Inv resp (panic lines s) := by
  have hplain : ∀ t ∈ lines.map Task.printf, t.plain = true := by
    intro t ht
    obtain ⟨n, -, rfl⟩ := List.mem_map.mp ht
    rfl
  refine ⟨⟨hi.safe.writes, hi.safe.single, hi.safe.bound⟩, hi.fb,
    fun t ht => hplain t (List.mem_of_mem_tail ht), phase_of_settled hplain ?_⟩
  refine ⟨hrow, hready, fun _ => honly, ?_, ?_⟩
  · intro hcalm
    cases hcalm
  · intro hcalm
    cases hcalm

theorem Inv.step {cause : Cause} (hi : Inv resp s) (hs : Step resp s cause t)
    (hm : Meets resp s cause) : Inv resp t := by
  have hidle : s.todo = [] → Settled resp s := fun htodo => hi.settled (by simp [htodo])
  have hsafe := hi.safe
  cases hs with
  | init debug htodo hcalm =>
    refine ⟨⟨hsafe.writes, hsafe.single, hsafe.bound⟩, hi.fb, ?_, (hidle htodo).congr, fun _ => hcalm⟩
    simp [State.push, htodo]
  | printf chars htodo hcalm =>
    refine ⟨⟨hsafe.writes, hsafe.single, hsafe.bound⟩, hi.fb, ?_, (hidle htodo).congr⟩
    simp [State.push, htodo]
  | write chars htodo hcalm =>
    refine ⟨⟨hsafe.writes, hsafe.single, hsafe.bound⟩, hi.fb, ?_, (hidle htodo).congr⟩
    simp [State.push, htodo]
  | panic lines htodo hcalm =>
    have hset := hidle htodo
    exact hi.panic lines hset.row hset.ready (hset.only (Or.inr hcalm))
  | @code task rest htodo =>
    have hrest := hi.shape
    rw [htodo] at hrest
    change ∀ t ∈ rest, t.plain = true at hrest
    cases task with
    | init debug p => exact hi.termInit htodo
    | printf chars =>
      have hset := hi.settled (by simp [htodo, Task.plain])
      refine ⟨⟨hsafe.writes, hsafe.single, hsafe.bound⟩, hi.fb, ?_, hset.congr, fun h => by cases h⟩
      intro t ht
      rcases List.mem_cons.mp ht with rfl | ht
      · rfl
      · exact hrest t ht
    | write chars =>
      cases chars with
      | zero =>
        have hset := hi.settled (by simp [htodo, Task.plain])
        exact ⟨⟨hsafe.writes, hsafe.single, hsafe.bound⟩, hi.fb,
          fun t ht => hrest t (List.mem_of_mem_tail ht), phase_of_settled hrest hset.congr⟩
      | succ n => exact hi.write htodo (hm.write n rest htodo)
  | @outOfMemory rest lines htodo =>
    have hphase := hi.phase
    unfold Phase at hphase
    rw [htodo] at hphase
    have hcr : AtCreate resp false s := hphase
    obtain ⟨hcalm, hnormal⟩ := hcr.normal rfl
    refine hi.panic lines hcr.row ?_ ?_
    · intro hdone _
      have hdebug : s.termInitDone = .debugDone := by
        cases h : s.termInitDone with
        | notDone => exact absurd h hdone
        | debugDone => rfl
        | normalDone => exact absurd h hnormal
      exact Nat.pos_of_ne_zero (hm.memory rfl hdebug)
    · intro x hx
      rcases hcr.older x hx with hlt | ⟨hp, -⟩
      · exact hlt
      · rw [hcalm] at hp
        cases hp

theorem Inv.run {s t : State Fb} (hi : Inv resp s)
    (hr : Relation.ReflTransGen (fun s t => ∃ cause, Step resp s cause t ∧ Meets resp s cause) s t) :
    Inv resp t := by
  induction hr with
  | refl => exact hi
  | tail _ hs ih =>
    obtain ⟨cause, hstep, hm⟩ := hs
    exact ih.step hstep hm

/-- **The terminals are safe in every run** whose steps meet the condition, for
every response of the bootloader: each write goes through the live context of
its terminal, also while a panic prints, no framebuffer has two contexts, and
`term_count` stays within the framebuffers and the table. -/
theorem terminals_safe (resp : Option (List Fb)) (s : State Fb)
    (hr : Relation.ReflTransGen (fun s t => ∃ cause, Step resp s cause t ∧ Meets resp s cause) .boot s) :
    Safe resp s :=
  (Inv.boot.run hr).safe

/-! ## Runs on given machines -/

/-- The code runs on for at most `n` tasks. -/
def runCode (resp : Option (List Fb)) : Nat → State Fb → State Fb
  | 0, s => s
  | n + 1, s =>
    match s.todo with
    | [] => s
    | t :: rest => runCode resp n (exec resp t { s with todo := rest })

theorem runCode_reaches {R : State Fb → State Fb → Prop} (hR : ∀ s t, Step resp s .code t → R s t)
    (n : Nat) (s : State Fb) : Relation.ReflTransGen R s (runCode resp n s) := by
  induction n generalizing s with
  | zero => exact .refl
  | succ n ih =>
    unfold runCode
    split
    · exact .refl
    · rename_i t rest htodo
      exact .head (hR _ _ (.code htodo)) (ih _)

/-- With a framebuffer, `printf` starts the debug terminal and writes to it. -/
theorem terminals_safe_printf : ∃ s : State Unit,
    Relation.ReflTransGen
      (fun s t => ∃ cause, Step (some [()]) s cause t ∧ Meets (some [()]) s cause) .boot s ∧
    s.log = [⟨0, some 0, 1, [(0, 0)]⟩] ∧ Safe (some [()]) s := by
  have hmeets : ∀ (s : State Unit) cause, cause ≠ .outOfMemory → Meets (some [()]) s cause :=
    fun s cause hc => ⟨fun _ _ _ _ => by decide, fun h => absurd h hc⟩
  have hrun : Relation.ReflTransGen
      (fun s t => ∃ cause, Step (some [()]) s cause t ∧ Meets (some [()]) s cause) .boot
      (runCode (some [()]) 9 (State.boot.push (.printf 1))) :=
    .head ⟨.call, .printf 1 rfl rfl, hmeets _ _ (by decide)⟩
      (runCode_reaches (fun s t h => ⟨.code, h, hmeets s _ (by decide)⟩) 9 _)
  exact ⟨_, hrun, rfl, terminals_safe _ _ hrun⟩

/-- Without a framebuffer the flag is set all the same and `printf` writes
through a context that was never created. With one, a panic for want of memory
while `term_init(false)` creates terminal 0 writes through the deinitialised
context of the debug terminal. -/
theorem terminals_unsafe :
    (∃ s : State Unit,
      Relation.ReflTransGen (fun s t => ∃ cause, Step none s cause t) .boot s ∧ ¬ Safe none s) ∧
    ∃ s : State Unit,
      Relation.ReflTransGen (fun s t => ∃ cause, Step (some [()]) s cause t) .boot s ∧
        ¬ Safe (some [()]) s := by
  have hcode : ∀ (resp : Option (List Unit)) s t, Step resp s .code t → ∃ cause, Step resp s cause t :=
    fun _ _ _ h => ⟨.code, h⟩
  constructor
  · refine ⟨runCode none 5 (State.boot.push (.printf 1)), ?_, ?_⟩
    · exact .head ⟨.call, .printf 1 rfl rfl⟩ (runCode_reaches (hcode none) 5 _)
    · intro hsafe
      have hw := hsafe.writes ⟨0, none, 0, []⟩ List.mem_cons_self
      exact absurd hw.1 (Nat.lt_irrefl 0)
  · -- the debug terminal, then `term_init(false)` up to its first allocation
    let s₁ : State Unit := runCode (some [()]) 9 (State.boot.push (.printf 1))
    let s₂ : State Unit := runCode (some [()]) 4 (s₁.push (.init false .start))
    refine ⟨runCode (some [()]) 3 (panic [1] s₂), ?_, ?_⟩
    · have h1 := Relation.ReflTransGen.head ⟨Cause.call, Step.printf 1 rfl rfl⟩
        (runCode_reaches (hcode (some [()])) 9 (State.boot.push (.printf 1)))
      have h2 := Relation.ReflTransGen.head ⟨Cause.call, Step.init (s := s₁) false rfl rfl⟩
        (runCode_reaches (hcode (some [()])) 4 (s₁.push (.init false .start)))
      have h3 := Relation.ReflTransGen.head ⟨Cause.outOfMemory, Step.outOfMemory (s := s₂) [1] rfl⟩
        (runCode_reaches (hcode (some [()])) 3 (panic [1] s₂))
      exact (h1.trans h2).trans h3
    · intro hsafe
      have hw := hsafe.writes ⟨0, some 0, 0, []⟩ (by decide)
      exact absurd hw.1 (Nat.lt_irrefl 0)

end Cynix.Devices.Term
