import Cynix.Mm.SlabLockRuns

/-! # What the objects of the slab allocator hold, on many CPUs

A client knows what is in an object from the call that returned it and from its
own stores. `Track` keeps that knowledge along a run: it changes when
`slab_alloc` or `slab_realloc` returns and when a client stores, and never
because of what another CPU does inside the allocator. -/
namespace Cynix.Mm.SlabLock
open Cynix.Base.Bytes Cynix.Base.Pages Cynix.Lib.Misc Cynix.Mm.SlabLayout Cynix.Mm.Slab
open Cynix.Mm.SlabRep (PlatformOk)

variable {σ : Type} {P : Platform σ} {s s' : State σ} {fl : Cache → List Nat}
  {i j n : Nat} {pc' : Pc} {o q : Obj} {m' : Mem}

/-- The bytes of the objects, by their address, and for each CPU those of the object that the
caller passed to `slab_realloc`. -/
structure Contents where
  data : Nat → Nat → UInt8
  moving : Nat → Nat → UInt8

/-- What the caller on CPU `i` learns from a step of it: a call of `slab_realloc` passes the bytes of
`o` on, `slab_alloc` returns an object of unknown bytes, and `slab_realloc` one that starts with
the bytes that were passed. -/
def Contents.learn (t : Contents) (mem : Mem) (i : Nat) : Pc → Pc → Contents
  | .idle, .allocAcquire ⟨_, some o, _⟩ => { t with moving := Function.update t.moving i (t.data o.addr) }
  | .allocRelease _ _ p, .idle => { t with data := Function.update t.data p fun k => mem (p + k) }
  | .freeRelease o (some q), .idle =>
    { t with
      data := Function.update t.data q.addr fun k =>
        if k < entSize o.cache then t.moving i k else mem (q.addr + k) }
  | _, _ => t

def Contents.store (t : Contents) (a k : Nat) (v : UInt8) : Contents :=
  { t with data := Function.update t.data a (Function.update (t.data a) k v) }

/-- A careful step of a CPU, a store of a client, or a step of the rest of the kernel. -/
inductive Track (P : Platform σ) : State σ × Contents → State σ × Contents → Prop where
  | cpu {s s' : State σ} {t : Contents} {i : Nat} : Step P (some i) s s' → Careful s i →
      Track P (s, t) (s', t.learn s.mem i (s.pc i) (s'.pc i))
  | write {s : State σ} {t : Contents} {o : Obj} {k : Nat} {v : UInt8} : o ∈ s.live →
      k < entSize o.cache →
      Track P (s, t) ({ s with mem := writeByte s.mem (o.addr + k) v }, t.store o.addr k v)
  | other {s s' : State σ} {t : Contents} : Step P none s s' →
      (∀ r, s.Uses r → ∀ x, r ≤ x → x < r + regionSize → s'.mem x = s.mem x) →
      Track P (s, t) (s', t)

theorem Track.careful {x y : State σ × Contents} (h : Track P x y) : CarefulStep P x.1 y.1 := by
  cases h with
  | cpu h hc => exact ⟨_, h, fun j hj => Option.some.inj hj ▸ hc⟩
  | write ho hk => exact ⟨none, .write ho hk, nofun⟩
  | other h _ => exact ⟨none, h, nofun⟩

/-- Every careful step is tracked. -/
theorem CarefulStep.track (h : CarefulStep P s s') (t : Contents) : ∃ t', Track P (s, t) (s', t') := by
  obtain ⟨who, h, hc⟩ := h
  cases who with
  | some i => exact ⟨_, .cpu h (hc i rfl)⟩
  | none =>
    cases h with
    | write ho hk => exact ⟨_, .write ho hk⟩
    | other hp hm => exact ⟨_, .other (.other hp hm) hm⟩

/-- A careful run is tracked from any knowledge on. -/
theorem careful_run_tracked (hr : Relation.ReflTransGen (CarefulStep P) s s') (t : Contents) :
    ∃ t', Relation.ReflTransGen (Track P) (s, t) (s', t') := by
  induction hr with
  | refl => exact ⟨t, .refl⟩
  | tail _ hst ih =>
    obtain ⟨u, hu⟩ := ih
    obtain ⟨t', ht⟩ := hst.track u
    exact ⟨t', hu.tail ht⟩

/-! ## Where the bytes are -/

/-- The object in which the bytes passed to `slab_realloc` are, and how many there are. -/
def Pc.carries : Pc → Option (Obj × Nat)
  | .idle => none
  | .allocAcquire a | .allocTest a | .refillLock a | .refillPages a | .refillFirst a _
  | .refillHead a _ | .refillHeader a _ _ | .refillSkip a _ | .refillSkipSet a _ _
  | .refillArr a _ | .refillLink a _ _ _ | .allocRead a _ | .allocNext a _ _ | .allocSet a _ _ _
  | .allocRelease a _ _ | .panicked a => a.old.map fun o => (o, entSize o.cache)
  | .copy _ old _ => some (old, entSize old.cache)
  | .freeAcquire o new | .freeRead o new | .freeLink o new _ | .freeSet o new | .freeRelease o new =>
    new.map fun q => (q, entSize o.cache)

/-- Memory holds what the clients know. -/
structure Holds (s : State σ) (t : Contents) : Prop where
  live : ∀ o ∈ s.live, ∀ k < entSize o.cache, s.mem (o.addr + k) = t.data o.addr k
  moving : ∀ i o n, (s.pc i).carries = some (o, n) →
    n ≤ entSize o.cache ∧ ∀ k < n, s.mem (o.addr + k) = t.moving i k

def Watched (s : State σ) (o : Obj) : Prop := o ∈ s.live ∨ ∃ j n, (s.pc j).carries = some (o, n)

/-- The new memory has changed no byte that somebody knows. -/
def Unchanged (s : State σ) (m' : Mem) : Prop :=
  ∀ o, Watched s o → ∀ k < entSize o.cache, m' (o.addr + k) = s.mem (o.addr + k)

theorem carries_hands {pc : Pc} (h : pc.carries = some (o, n)) : o ∈ pc.hands := by
  cases pc with
  | idle => cases h
  | copy new old _ =>
    obtain ⟨rfl, -⟩ := Prod.mk.inj (Option.some.inj h)
    simp [Pc.hands]
  | freeAcquire _ new | freeRead _ new | freeLink _ new _ | freeSet _ new | freeRelease _ new =>
    obtain ⟨q, rfl, he⟩ := Option.map_eq_some_iff.mp h
    obtain ⟨rfl, -⟩ := Prod.mk.inj he
    simp [Pc.hands]
  | allocAcquire a | allocTest a | refillLock a | refillPages a | refillFirst a _ | refillHead a _
  | refillHeader a _ _ | refillSkip a _ | refillSkipSet a _ _ | refillArr a _ | refillLink a _ _ _
  | allocRead a _ | allocNext a _ _ | allocSet a _ _ _ | allocRelease a _ _ | panicked a =>
    obtain ⟨q, hq, he⟩ := Option.map_eq_some_iff.mp h
    obtain ⟨rfl, -⟩ := Prod.mk.inj he
    simp [Pc.hands, hq]

theorem Watched.held (h : Watched s o) (fl : Cache → List Nat) : ∃ w, o ∈ held s fl w := by
  rcases h with h | ⟨j, n, h⟩
  · exact ⟨.client, h⟩
  · exact ⟨.cpu j, carries_hands h⟩

/-- A store in the region that a CPU is setting up. -/
theorem Inv.unchanged_building (hi : Inv P s fl) {r a : Nat} (v : Nat)
    (hb : (s.pc i).building = some r) (h1 : r ≤ a) (h2 : a + 8 ≤ r + regionSize) :
    Unchanged s (write64 s.mem a v) := by
  intro o ho k hk
  obtain ⟨w, hw⟩ := ho.held fl
  have := hi.slots.apart_building hi.regions hw hb
  exact write64_out (by omega)

/-- Stores in an object that a CPU has in its hands and nobody knows the bytes of. -/
theorem Inv.unchanged_hand (hi : Inv P s fl) (hq : q ∈ (s.pc i).hands)
    (hc : ∀ o n, (s.pc i).carries = some (o, n) → o.addr ≠ q.addr)
    (hm : ∀ x, x < q.addr ∨ q.addr + entSize q.cache ≤ x → m' x = s.mem x) : Unchanged s m' := by
  have hd := hi.slots.distinct hi.regions
  intro o ho k hk
  have hne : o.addr ≠ q.addr := by
    rcases ho with ho | ⟨j, n, ho⟩
    · exact (hd.apart i q hq o ho).symm
    · by_cases hji : j = i
      · subst hji
        exact hc o n ho
      · exact hd.others j i hji o (carries_hands ho) q hq
  obtain ⟨w, hw⟩ := ho.held fl
  have := (hi.slots.slot w o hw).apart hi.regions.ok (hi.slots.slot (.cpu i) q hq) hne
  exact hm _ (by omega)

/-- A link of the region that a CPU is setting up. -/
theorem Inv.unchanged_cell (hi : Inv P s fl) {a : Req} {r arr k m : Nat} (v : Nat)
    (hs : s.pc i = .refillLink a r arr k) (hm : m ≤ slabMax a.cache) :
    Unchanged s (write64 s.mem (arr + 8 * (m * slabFact a.cache)) v) := by
  have hrec := hi.lists.recalls i
  rw [hs] at hrec
  obtain ⟨-, rfl, -⟩ := hrec
  have := cell_in_region hm
  exact hi.unchanged_building v (i := i) (r := r) (by rw [hs]; rfl) (by omega) (by omega)

theorem Distinct.pair (h : Distinct s) (hh : (s.pc i).hands = [o, q]) : o.addr ≠ q.addr := by
  have hnd := h.hands i
  rw [hh] at hnd
  simpa using hnd

theorem mem_live {l₁ l₂ : List Obj} (hl : s.live = l₁ ++ o :: l₂) : ∀ q ∈ l₁ ++ l₂, q ∈ s.live := by
  intro q hq
  rw [hl]
  exact List.mem_append.mpr ((List.mem_append.mp hq).imp_right (List.mem_cons_of_mem _))

/-! ## One step -/

variable {t : Contents}

theorem Contents.learn_self (t : Contents) (m : Mem) (i : Nat) (pc : Pc) : t.learn m i pc pc = t := by
  cases pc with
  | freeRelease o new => cases new <;> rfl
  | _ => rfl

/-- The clients' objects after a step that gives them none. -/
theorem Holds.live_after (h : Holds s t) (hm : Unchanged s m') {l : List Obj} (hl : ∀ o ∈ l, o ∈ s.live) :
    ∀ o ∈ l, ∀ k < entSize o.cache, m' (o.addr + k) = t.data o.addr k := by
  intro o ho k hk
  rw [hm o (.inl (hl o ho)) k hk]
  exact h.live o (hl o ho) k hk

theorem Holds.moving_after (h : Holds s t) (hm : Unchanged s m') (hj : (s.pc j).carries = some (o, n)) :
    n ≤ entSize o.cache ∧ ∀ k < n, m' (o.addr + k) = t.moving j k := by
  obtain ⟨hn, hdata⟩ := h.moving j o n hj
  refine ⟨hn, fun k hk => ?_⟩
  rw [hm o (.inr ⟨j, n, hj⟩) k (by omega)]
  exact hdata k hk

/-- What remains to show after a step of CPU `i`: the clients' objects, and what it carries itself. -/
theorem Holds.next {t' : Contents} (h : Holds s t) (hpc : s'.pc = Function.update s.pc i pc')
    (hm : Unchanged s s'.mem) (hother : ∀ j, j ≠ i → t'.moving j = t.moving j)
    (hl : ∀ o ∈ s'.live, ∀ k < entSize o.cache, s'.mem (o.addr + k) = t'.data o.addr k)
    (hi : ∀ o n, pc'.carries = some (o, n) →
      n ≤ entSize o.cache ∧ ∀ k < n, s'.mem (o.addr + k) = t'.moving i k) : Holds s' t' := by
  refine ⟨hl, fun j o n hj => ?_⟩
  rw [hpc] at hj
  by_cases hji : j = i
  · subst hji
    rw [Function.update_self] at hj
    exact hi o n hj
  · rw [Function.update_of_ne hji] at hj
    rw [hother j hji]
    exact h.moving_after hm hj

/-- A step from which no caller learns anything, and that touches no byte anybody knows. -/
theorem Holds.stay (h : Holds s t) {pc : Pc} (hs : s.pc i = pc) (hpc : s'.pc = Function.update s.pc i pc')
    (ht : t.learn s.mem i pc pc' = t) (hc : pc'.carries = pc.carries) (hl : ∀ o ∈ s'.live, o ∈ s.live)
    (hm : Unchanged s s'.mem) : Holds s' (t.learn s.mem i (s.pc i) (s'.pc i)) := by
  obtain rfl := hs
  rw [hpc, Function.update_self, ht]
  refine h.next hpc hm (fun _ _ => rfl) (h.live_after hm hl) fun o n ho => ?_
  rw [hc] at ho
  exact h.moving_after hm ho

/-- A call returns: its CPU carries nothing any more. -/
theorem Holds.idle {t' : Contents} (h : Holds s t) (hpc : s'.pc = Function.update s.pc i .idle)
    (hm : Unchanged s s'.mem) (hother : t'.moving = t.moving)
    (hl : ∀ o ∈ s'.live, ∀ k < entSize o.cache, s'.mem (o.addr + k) = t'.data o.addr k) : Holds s' t' := by
  refine h.next hpc hm (fun j _ => congrFun hother j) hl fun o n ho => ?_
  cases ho

/-- An object in the hands of a CPU gets its bytes told as it goes to a client. -/
theorem Holds.return (hi : Inv P s fl) (h : Holds s t) (hq : q ∈ (s.pc i).hands) {b : Nat → UInt8}
    (hb : ∀ k < entSize q.cache, s.mem (q.addr + k) = b k) :
    ∀ o ∈ q :: s.live, ∀ k < entSize o.cache,
      s.mem (o.addr + k) = Function.update t.data q.addr b o.addr k := by
  intro o ho k hk
  rcases List.mem_cons.mp ho with rfl | ho
  · rw [Function.update_self]
    exact hb k hk
  · rw [Function.update_of_ne ((hi.slots.distinct hi.regions).apart i q hq o ho).symm]
    exact h.live o ho k hk

/-- `memcpy` of `slab_realloc`. -/
theorem Holds.copy (hi : Inv P s fl) (h : Holds s t) {new old : Obj}
    {fits : entSize old.cache ≤ entSize new.cache} (hs : s.pc i = .copy new old fits)
    (hpc : s'.pc = Function.update s.pc i (.freeAcquire old (some new))) (hl : s'.live = s.live)
    (hmem : s'.mem = copyUp s.mem new.addr old.addr (entSize old.cache)) : Holds s' t := by
  have hnew : new ∈ (s.pc i).hands := by rw [hs]; simp [Pc.hands]
  have hold : old ∈ (s.pc i).hands := by rw [hs]; simp [Pc.hands]
  have hne : old.addr ≠ new.addr :=
    ((hi.slots.distinct hi.regions).pair (by rw [hs]; rfl)).symm
  have hm : Unchanged s s'.mem := by
    rw [hmem]
    refine hi.unchanged_hand hnew ?_ fun x hx => copyUp_out (by omega)
    intro o n ho
    rw [hs] at ho
    obtain ⟨rfl, -⟩ := Prod.mk.inj (Option.some.inj ho)
    exact hne
  refine h.next hpc hm (fun _ _ => rfl) (h.live_after hm fun o ho => hl ▸ ho) fun o n ho => ?_
  obtain ⟨rfl, rfl⟩ := Prod.mk.inj (Option.some.inj ho)
  refine ⟨fits, fun k hk => ?_⟩
  have := (hi.slots.slot (.cpu i) old hold).apart hi.regions.ok (hi.slots.slot (.cpu i) new hnew) hne
  rw [hmem, copyUp_in (by omega) k hk]
  exact (h.moving i old _ (by rw [hs]; rfl)).2 k hk

/-- A step of one CPU. -/
theorem Holds.cpu (hi : Inv P s fl) (h : Holds s t) (hst : Step P (some i) s s') :
    Holds s' (t.learn s.mem i (s.pc i) (s'.pc i)) := by
  have hsame : Unchanged s s.mem := fun _ _ _ _ => rfl
  cases hst with
  | spin _ _ =>
    rw [Contents.learn_self]
    exact h
  | callAlloc hs _ | allocAcquire hs _ | allocEmpty hs _ | allocFull hs _ | refillLock hs
  | refillPages hs _ | refillPanic hs _ | refillFirst hs | refillHead hs | refillSkip hs
  | refillSkipSet hs | refillArr hs | allocRead hs | allocNext hs | allocSet hs
  | freeAcquire hs _ | freeRead hs | freeSet hs =>
    exact h.stay hs rfl rfl rfl (fun _ ho => ho) hsame
  | allocMove hs ho =>
    refine h.stay hs rfl rfl ?_ (fun _ ho => ho) hsame
    simp [Pc.carries, ho]
  | callFree hs hl _ =>
    exact h.stay hs rfl rfl rfl (mem_live hl) hsame
  | @callRealloc _ _ _ o _ _ _ _ hs hl hat hn hj =>
    obtain rfl := hi.found hl hat
    have ho : o ∈ s.live := by rw [hl]; simp
    rw [hs, State.goto_pc, Function.update_self]
    refine h.next (i := i) rfl hsame (fun j hji => Function.update_of_ne hji ..)
      (h.live_after hsame (mem_live hl)) fun q n hq => ?_
    obtain ⟨rfl, rfl⟩ := Prod.mk.inj (Option.some.inj hq)
    refine ⟨le_rfl, fun k hk => ?_⟩
    simpa [Contents.learn, Req.move] using h.live o ho k hk
  | @refillHeader _ _ r slabPtr a hs =>
    have hrec := hi.lists.recalls i
    rw [hs] at hrec
    obtain ⟨-, rfl⟩ := hrec
    refine h.stay hs rfl rfl rfl (fun _ ho => ho) ?_
    exact hi.unchanged_building _ (by rw [hs]; rfl) le_rfl (by simp only [regionSize]; omega)
  | refillLink hs hk => exact h.stay hs rfl rfl rfl (fun _ ho => ho) (hi.unchanged_cell _ hs hk.le)
  | refillLast hs _ => exact h.stay hs rfl rfl rfl (fun _ ho => ho) (hi.unchanged_cell _ hs le_rfl)
  | copy hs =>
    rw [hs, State.goto_pc, Function.update_self]
    exact h.copy hi hs rfl rfl rfl
  | @freeLink _ _ head o new hs =>
    have h8 := (entSize_facts o.cache).1
    refine h.stay hs rfl rfl rfl (fun _ ho => ho) ?_
    refine hi.unchanged_hand (i := i) (q := o) (by rw [hs]; simp [Pc.hands]) ?_ fun x hx =>
      write64_out (by omega)
    intro q n hq
    rw [hs] at hq
    obtain ⟨_, rfl, he⟩ := Option.map_eq_some_iff.mp hq
    obtain ⟨rfl, -⟩ := Prod.mk.inj he
    exact ((hi.slots.distinct hi.regions).pair (by rw [hs]; rfl)).symm
  | @allocReturn _ _ p a w hs ho =>
    have hp : (⟨p, a.cache⟩ : Obj) ∈ (s.pc i).hands := by rw [hs]; simp [Pc.hands]
    rw [hs, State.goto_pc, Function.update_self]
    exact h.idle (i := i) rfl hsame rfl (h.return hi hp fun _ _ => rfl)
  | @freeRelease _ _ o new hs =>
    cases new with
    | none => exact h.stay hs rfl rfl rfl (fun _ ho => ho) hsame
    | some q =>
      have hq : q ∈ (s.pc i).hands := by rw [hs]; simp [Pc.hands]
      rw [hs, State.goto_pc, Function.update_self]
      refine h.idle (i := i) rfl hsame rfl (h.return hi hq fun k _ => ?_)
      split
      · rename_i hk
        exact (h.moving i q _ (by rw [hs]; rfl)).2 k hk
      · rfl

/-- A byte that a client stores in an object of its own. -/
theorem Holds.write (hi : Inv P s fl) (h : Holds s t) {k : Nat} {v : UInt8} (ho : o ∈ s.live)
    (hk : k < entSize o.cache) :
    Holds { s with mem := writeByte s.mem (o.addr + k) v } (t.store o.addr k v) := by
  have hd := hi.slots.distinct hi.regions
  -- the store leaves every other object alone
  have hrest : ∀ {w q}, q ∈ held s fl w → q.addr ≠ o.addr → ∀ n < entSize q.cache,
      writeByte s.mem (o.addr + k) v (q.addr + n) = s.mem (q.addr + n) := by
    intro w q hq hne n hn
    have := (hi.slots.slot w q hq).apart hi.regions.ok (hi.slots.slot .client o ho) hne
    rw [writeByte, if_neg (by omega)]
  refine ⟨?_, ?_⟩
  · intro q hq n hn
    by_cases he : q.addr = o.addr
    · simp only [writeByte, Contents.store, he, Function.update_self, Nat.add_left_cancel_iff]
      by_cases hnk : n = k
      · rw [if_pos hnk, hnk, Function.update_self]
      · rw [if_neg hnk, Function.update_of_ne hnk, ← he]
        exact h.live q hq n hn
    · simp only [Contents.store, Function.update_of_ne he]
      rw [hrest (w := .client) hq he n hn]
      exact h.live q hq n hn
  · intro j q n hj
    obtain ⟨hn, hdata⟩ := h.moving j q n hj
    have hq := carries_hands hj
    refine ⟨hn, fun m hm => ?_⟩
    exact (hrest (w := .cpu j) hq (hd.apart j q hq o ho) m (by omega)).trans (hdata m hm)

/-- The rest of the kernel stores outside the regions in use. -/
theorem Holds.other (hi : Inv P s fl) (h : Holds s t) (hst : Step P none s s')
    (hm : ∀ r, s.Uses r → ∀ x, r ≤ x → x < r + regionSize → s'.mem x = s.mem x) : Holds s' t := by
  have hun : Unchanged s s'.mem := by
    intro o ho k hk
    obtain ⟨w, hw⟩ := ho.held fl
    obtain ⟨r, hr, h1, h2⟩ := (Owns.slot (x := o.addr + k) hw (by omega) (by omega)).in_region hi
    exact hm r hr _ h1 h2
  obtain ⟨hpc, hl⟩ : s'.pc = s.pc ∧ s'.live = s.live := by cases hst <;> exact ⟨rfl, rfl⟩
  refine ⟨h.live_after hun fun o ho => hl ▸ ho, ?_⟩
  intro j o n hj
  rw [hpc] at hj
  exact h.moving_after hun hj

theorem Holds.track (hi : Inv P s fl) (h : Holds s t) {y : State σ × Contents}
    (hst : Track P (s, t) y) : Holds y.1 y.2 := by
  cases hst with
  | cpu hst _ => exact h.cpu hi hst
  | write ho hk => exact h.write hi ho hk
  | other hst hm => exact h.other hi hst hm

/-! ## Runs -/

theorem Holds.run (hP : PlatformOk P) {x y : State σ × Contents} (hi : ∃ fl, Inv P x.1 fl)
    (h : Holds x.1 x.2) (hr : Relation.ReflTransGen (Track P) x y) :
    (∃ fl, Inv P y.1 fl) ∧ Holds y.1 y.2 := by
  induction hr with
  | refl => exact ⟨hi, h⟩
  | @tail x y _ hst ih =>
    obtain ⟨⟨fl, hi⟩, h⟩ := ih
    obtain ⟨who, hstep, hc⟩ := hst.careful
    exact ⟨step_inv hP hi hstep hc, h.track hi hst⟩

theorem ofSlab_holds (st : SlabState σ) (t : Contents) : Holds (State.ofSlab st) t := ⟨nofun, nofun⟩

/-- **The objects of the slab allocator hold what their owners know**, in every run whose attempts at
a lock are careful: what they stored, and after `slab_realloc` what the old object held. -/
theorem objects_keep_contents (P : Platform σ) (hP : PlatformOk P) (pmm : σ) (mem : Mem)
    (st : SlabState σ) (h : slabInit P (SlabRuns.SlabState.boot pmm mem) = some st)
    (t₀ t : Contents) (s : State σ)
    (hr : Relation.ReflTransGen (Track P) (State.ofSlab st, t₀) (s, t)) :
    ∀ o ∈ s.live, ∀ k < entSize o.cache, s.mem (o.addr + k) = t.data o.addr k :=
  (Holds.run hP (ofSlab_inv hP h) (ofSlab_holds st t₀) hr).2.live

theorem careful_of_wants (h : (s.pc i).wants = none) : Careful s i := by
  intro c hc
  rw [h] at hc
  cases hc

/-- CPU 0 takes the first slot of a cache while the others are idle. -/
theorem take_alone (P : Platform σ) {size : Nat} {c : Cache} (hs : slabFor size = some c)
    (hidle : ∀ j, s.pc j = .idle) (hl : s.lock c = false) (h0 : s.firstFree c ≠ 0) (t : Contents) :
    ∃ s' t', Relation.ReflTransGen (Track P) (s, t) (s', t') ∧ ⟨s.firstFree c, c⟩ ∈ s'.live := by
  have v : View s c .idle .idle false (s.firstFree c) := ⟨hidle 0, hidle 1, hl, rfl⟩
  have v₁ := v.goto_zero (.allocAcquire (.alloc c))
  have v₂ := (v₁.goto_zero (.allocTest (.alloc c))).set_lock true
  have v₃ := v₂.goto_zero (.allocRead (.alloc c) false)
  have v₄ := v₃.goto_zero (.allocNext (.alloc c) false (s.firstFree c))
  have v₅ := v₄.goto_zero (.allocSet (.alloc c) false (s.firstFree c) (read64 s.mem (s.firstFree c)))
  have v₆ := (v₅.goto_zero (.allocRelease (.alloc c) false (s.firstFree c))).set_head
    (read64 s.mem (s.firstFree c))
  -- nobody else is inside a cache
  have hcareful : Careful (s.goto 0 (.allocAcquire (.alloc c))) 0 := by
    intro d _ j hj
    by_cases hj0 : j = 0
    · subst hj0
      cases hj
    · rw [State.goto_pc, Function.update_of_ne hj0, hidle j] at hj
      cases hj
  have hrest : ∀ {u : State σ} {pc : Pc}, u.pc 0 = pc → pc.wants = none → Careful u 0 :=
    fun hu hw => careful_of_wants (hu ▸ hw)
  refine ⟨_, _, .tail (.tail (.tail (.tail (.tail (.tail (.single
    (.cpu (.callAlloc v.zero (.inr hs)) (hrest v.zero rfl)))
    (.cpu (.allocAcquire v₁.zero v₁.lock) hcareful))
    (.cpu (.allocFull v₂.zero h0) (hrest v₂.zero rfl)))
    (.cpu (.allocRead v₃.zero) (hrest v₃.zero rfl)))
    (.cpu (.allocNext v₄.zero) (hrest v₄.zero rfl)))
    (.cpu (.allocSet v₅.zero) (hrest v₅.zero rfl)))
    (.cpu (.allocReturn v₆.zero rfl) (hrest v₆.zero rfl)), ?_⟩
  exact List.mem_cons_self

/-- A client stores a byte in an object that it got. -/
theorem objects_keep_contents_one_byte :
    ∃ (st : SlabState (List Range)) (t : Contents) (s : State (List Range)) (o : Obj),
      slabInit SlabRuns.smallPlatform (SlabRuns.SlabState.boot [] fun _ => 0) = some st ∧
      Relation.ReflTransGen (Track SlabRuns.smallPlatform) (State.ofSlab st, ⟨fun _ _ => 0, fun _ _ => 0⟩)
        (s, t) ∧
      o ∈ s.live ∧ t.data o.addr 3 = 7 ∧ s.mem (o.addr + 3) = t.data o.addr 3 := by
  have hfull : (slabInit SlabRuns.smallPlatform (SlabRuns.SlabState.boot [] fun _ => 0)).any
      (fun st => (st.slabs 11).firstFree != 0) = true := by
    decide +kernel
  obtain ⟨st, hst, hhead⟩ := (Option.any_eq_true _ _).mp hfull
  obtain ⟨fl, hi⟩ := ofSlab_inv SlabRuns.smallPlatform_ok hst
  obtain ⟨s, t, hr, ho⟩ := take_alone (s := State.ofSlab st) SlabRuns.smallPlatform
    (show slabFor 10000 = some 11 by decide +kernel) (fun _ => rfl) (hi.locks.outside 11 nofun)
    (by simpa [State.ofSlab] using hhead) ⟨fun _ _ => 0, fun _ _ => 0⟩
  have hk : 3 < entSize 11 := by decide
  have hr' := hr.tail (.write (v := 7) ho hk)
  refine ⟨st, _, _, _, hst, hr', ho, by simp [Contents.store], ?_⟩
  exact objects_keep_contents _ SlabRuns.smallPlatform_ok _ _ st hst _ _ _ hr' _ ho 3 hk

end Cynix.Mm.SlabLock
