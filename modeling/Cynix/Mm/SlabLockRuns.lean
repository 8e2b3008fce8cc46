import Cynix.Mm.SlabLockRefill

/-! # Runs of the slab allocator on many CPUs

In a run where no CPU tries for the lock of a cache that another is refilling,
a cache has one CPU inside and no slot is handed out twice. The first attempt
that is not careful puts two CPUs inside. -/
namespace Cynix.Mm.SlabLock
open Cynix.Base.Bytes Cynix.Base.Pages Cynix.Base.Linked Cynix.Base.Holdings Cynix.Lib.Misc
open Cynix.Mm.SlabLayout Cynix.Mm.Slab
open Cynix.Mm.SlabRep (PlatformOk)

variable {σ : Type} {P : Platform σ} {s s' : State σ} {fl : Cache → List Nat}
  {i : Nat} {c : Cache} {x : Nat} {m' : Mem} {o : Obj}

/-! ## The clients and the rest of the kernel -/

theorem Inv.others (hi : Inv P s fl) {pmm : σ} (hk : Keeps s fl .client m')
    (hp : ∀ block, s.Uses ((block + P.hhdm) % 2 ^ 64) → (block, 64) ∈ P.pages.live s.pmm →
      (block, 64) ∈ P.pages.live pmm) : Inv P { s with pmm := pmm, mem := m' } fl := by
  refine ⟨hi.locks.of_eq (fun _ => rfl) (fun _ => rfl) rfl,
    hi.regions.of_eq (fun _ => rfl) rfl hp fun r hr => hk.header nofun hr,
    hi.slots.perm (fun w => ?_) rfl, ?_, hi.lists.empty, ?_⟩
  · cases w <;> exact .refl _
  · intro c hc
    exact hk.chain nofun (hi.lists.chain c hc)
  · intro j
    exact (hi.lists.recalls j).frame (fun _ _ => ⟨rfl, rfl⟩) hk nofun nofun

/-- Every byte that a party owns lies in a region that is in use. -/
theorem Owns.in_region (hi : Inv P s fl) {w : Who} (h : Owns s fl w x) :
    ∃ r, s.Uses r ∧ r ≤ x ∧ x < r + regionSize := by
  cases h with
  | @slot _ o _ ho h1 h2 =>
    have hs := hi.slots.slot w o ho
    have := hs.ge
    have := hs.le
    exact ⟨_, Or.inl (List.mem_map.mpr ⟨_, hs.region, rfl⟩), by simp only; omega,
      by simp only; omega⟩
  | header hr h1 h2 =>
    exact ⟨_, Or.inl (List.mem_map.mpr ⟨_, hr, rfl⟩), h1, by simp only [regionSize]; omega⟩
  | building hb h1 h2 => exact ⟨_, Or.inr ⟨_, hb⟩, h1, h2⟩

/-! ## One step -/

/-- The cache that `slab_free` and `slab_realloc` read from the header. -/
theorem Inv.found (hi : Inv P s fl) {l₁ l₂ : List Obj} (hl : s.live = l₁ ++ o :: l₂)
    (hat : P.slabAt (read64 s.mem (regionOf o.addr)) = some c) : c = o.cache := by
  rw [hi.lookup (by rw [hl]; simp)] at hat
  exact (Option.some.inj hat).symm

theorem step_inv (hP : PlatformOk P) (hi : Inv P s fl) {who : Option Nat} (hst : Step P who s s')
    (hc : ∀ i, who = some i → Careful s i) : ∃ fl', Inv P s' fl' := by
  have hsame := fun w => Keeps.refl s fl w
  cases hst with
  | callAlloc h _ =>
    exact ⟨fl, Works.outside ⟨h, rfl, rfl, rfl, rfl, .refl _, rfl⟩ hi rfl ⟨rfl, rfl⟩ ⟨rfl, rfl⟩ rfl
      (hsame _) trivial⟩
  | callFree h hl hat =>
    obtain rfl := hi.found hl hat
    exact ⟨fl, hi.give h hl rfl ⟨rfl, rfl, rfl⟩ trivial⟩
  | callRealloc h hl hat _ _ =>
    obtain rfl := hi.found hl hat
    exact ⟨fl, hi.give h hl rfl ⟨rfl, rfl, rfl⟩ trivial⟩
  | spin => exact ⟨fl, hi⟩
  | allocAcquire h hfree =>
    exact ⟨fl, Works.enter ⟨h, rfl, rfl, rfl, rfl, .refl _, rfl⟩ hi (hc _ rfl) rfl hfree rfl rfl
      ⟨rfl, rfl, rfl⟩ rfl rfl trivial⟩
  | @allocEmpty _ i a h h0 =>
    have hchain := hi.chain_inside (i := i) (c := a.cache) (by rw [h]; rfl) (by rw [h]; rfl)
    rw [h0] at hchain
    exact ⟨fl, Works.inside ⟨h, rfl, rfl, rfl, rfl, .refl _, rfl⟩ hi rfl ⟨rfl, rfl⟩ ⟨rfl, rfl⟩
      (fun _ => hchain.null) rfl (hsame _) trivial⟩
  | @allocFull _ i a h h0 =>
    have hchain := hi.chain_inside (i := i) (c := a.cache) (by rw [h]; rfl) (by rw [h]; rfl)
    obtain ⟨l, hl, -⟩ := hchain.pop h0
    exact ⟨fl, Works.inside ⟨h, rfl, rfl, rfl, rfl, .refl _, rfl⟩ hi rfl ⟨rfl, rfl⟩ ⟨rfl, rfl⟩
      (by simp [Pc.creating]) rfl (hsame _) (by simp [Recalls, hl])⟩
  | @refillLock _ i a h =>
    have hin : (s.pc i).inside = some a.cache := by rw [h]; rfl
    have hlocks : Locks
        { s.goto i (.refillPages a) with lock := Function.update s.lock a.cache false } :=
      hi.locks.open (i := i) rfl hin (.inr ⟨rfl, rfl⟩) rfl
    exact ⟨fl, Works.refill ⟨h, rfl, rfl, rfl, rfl, .refl _, rfl⟩ hi hlocks ⟨rfl, rfl⟩ ⟨rfl, rfl⟩
      (fun _ _ => rfl) (hsame _) trivial⟩
  | refillPages h hA => exact ⟨fl, hi.refillPages hP h hA⟩
  | refillPanic h _ =>
    exact ⟨fl, Works.create ⟨h, rfl, rfl, rfl, rfl, .refl _, rfl⟩ hi rfl ⟨rfl, rfl, rfl⟩
      ⟨rfl, rfl, rfl⟩ (fun _ _ => rfl) (hsame _) trivial⟩
  | refillFirst h =>
    exact ⟨fl, Works.create ⟨h, rfl, rfl, rfl, rfl, .refl _, rfl⟩ hi rfl ⟨rfl, rfl, rfl⟩
      ⟨rfl, rfl, rfl⟩ (fun _ hd => Function.update_of_ne hd ..) (hsame _) (by simp [Recalls])⟩
  | @refillHead _ i r a h =>
    have hrec := hi.lists.recalls i
    rw [h] at hrec
    exact ⟨fl, Works.create ⟨h, rfl, rfl, rfl, rfl, .refl _, rfl⟩ hi rfl ⟨rfl, rfl, rfl⟩
      ⟨rfl, rfl, rfl⟩ (fun _ _ => rfl) (hsame _) ⟨hrec, hrec⟩⟩
  | refillHeader h => exact ⟨fl, hi.refillHeader hP h⟩
  | @refillSkip _ i r a h =>
    have hrec := hi.lists.recalls i
    rw [h] at hrec
    exact ⟨fl, Works.create ⟨h, rfl, rfl, rfl, rfl, .refl _, rfl⟩ hi rfl ⟨rfl, rfl, rfl⟩
      ⟨rfl, rfl, rfl⟩ (fun _ _ => rfl) (hsame _) ⟨hrec.1, hrec.2⟩⟩
  | @refillSkipSet _ i r v a h =>
    have hrec := hi.lists.recalls i
    rw [h] at hrec
    obtain ⟨rfl, hlink⟩ := hrec
    have hoff := (SlabRep.createSlab_numbers a.cache).1
    exact ⟨fl, Works.create ⟨h, rfl, rfl, rfl, rfl, .refl _, rfl⟩ hi rfl ⟨rfl, rfl, rfl⟩
      ⟨rfl, rfl, rfl⟩ (fun _ hd => Function.update_of_ne hd ..) (hsame _)
      ⟨by simp [hoff], hlink⟩⟩
  | @refillArr _ i r a h =>
    have hrec := hi.lists.recalls i
    rw [h] at hrec
    exact ⟨fl, Works.create ⟨h, rfl, rfl, rfl, rfl, .refl _, rfl⟩ hi rfl ⟨rfl, rfl, rfl⟩
      ⟨rfl, rfl, rfl⟩ (fun _ _ => rfl) (hsame _) ⟨rfl, hrec.1, hrec.2⟩⟩
  | refillLink h hk => exact ⟨fl, hi.refillLink h hk⟩
  | refillLast h hk => exact hi.refillLast h hk
  | @allocRead _ i a wr h =>
    have hrec := hi.lists.recalls i
    rw [h] at hrec
    exact ⟨fl, Works.inside ⟨h, rfl, rfl, rfl, rfl, .refl _, rfl⟩ hi rfl ⟨rfl, rfl⟩ ⟨rfl, rfl⟩
      (by simp [Pc.creating]) rfl (hsame _) ⟨rfl, hrec⟩⟩
  | @allocNext _ i p a wr h =>
    have hrec := hi.lists.recalls i
    rw [h] at hrec
    exact ⟨fl, Works.inside ⟨h, rfl, rfl, rfl, rfl, .refl _, rfl⟩ hi rfl ⟨rfl, rfl⟩ ⟨rfl, rfl⟩
      (by simp [Pc.creating]) rfl (hsame _) ⟨hrec.1, hrec.2, rfl⟩⟩
  | allocSet h => exact hi.allocSet h
  | allocReturn h hold =>
    exact ⟨fl, hi.return (by rw [h]; rfl) (by rw [h]; rfl) (by rw [h]; rfl)
      (by rw [h]; simp [Pc.hands, hold])⟩
  | @allocMove _ i p a o wr h hold =>
    have hin : (s.pc i).inside = some a.cache := by rw [h]; rfl
    have hh : (Pc.copy ⟨p, a.cache⟩ o (a.grows o hold)).hands.Perm
        (Pc.allocRelease a wr p).hands := by simp [Pc.hands, hold]
    exact ⟨fl, Works.inv ⟨h, rfl, rfl, rfl, rfl, hh, rfl⟩ hi
      (hi.locks.open (i := i) rfl hin (.inl rfl) rfl) (hsame _)
      (Lists.leave hi (i := i) rfl hin (by rw [h]; rfl) rfl rfl rfl trivial)⟩
  | @copy _ i new old fits h =>
    have hnew : new ∈ held s fl (.cpu i) := by simp [held, h, Pc.hands]
    have hk : Keeps s fl (.cpu i) (copyUp s.mem new.addr old.addr (entSize old.cache)) :=
      keeps_of_slot hi.regions hi.slots hnew fun x hx => copyUp_out (by omega)
    exact ⟨fl, Works.outside ⟨h, rfl, rfl, rfl, rfl, .swap .., rfl⟩ hi rfl ⟨rfl, rfl⟩ ⟨rfl, rfl⟩ rfl
      hk trivial⟩
  | freeAcquire h hfree =>
    exact ⟨fl, Works.enter ⟨h, rfl, rfl, rfl, rfl, .refl _, rfl⟩ hi (hc _ rfl) rfl hfree rfl rfl
      ⟨rfl, rfl, rfl⟩ rfl rfl trivial⟩
  | freeRead h =>
    exact ⟨fl, Works.inside ⟨h, rfl, rfl, rfl, rfl, .refl _, rfl⟩ hi rfl ⟨rfl, rfl⟩ ⟨rfl, rfl⟩
      (by simp [Pc.creating]) rfl (hsame _) rfl⟩
  | freeLink h => exact ⟨fl, hi.freeLink h⟩
  | freeSet h => exact hi.freeSet h
  | @freeRelease _ i o new h =>
    cases new with
    | some q =>
      exact ⟨fl, hi.return (by rw [h]; rfl) (by rw [h]; rfl) (by rw [h]; rfl) (by rw [h]; rfl)⟩
    | none =>
      have hin : (s.pc i).inside = some o.cache := by rw [h]; rfl
      exact ⟨fl, Works.inv ⟨h, rfl, rfl, rfl, rfl, .refl _, rfl⟩ hi
        (hi.locks.open (i := i) rfl hin (.inl rfl) rfl) (hsame _)
        (Lists.leave hi (i := i) rfl hin (by rw [h]; rfl) rfl rfl rfl trivial)⟩
  | @write _ o k v ho hk =>
    have hkeep : Keeps s fl .client (writeByte s.mem (o.addr + k) v) := by
      refine keeps_of_slot hi.regions hi.slots ho ?_
      intro x hx
      unfold writeByte
      rw [if_neg (by omega)]
    exact ⟨fl, hi.others hkeep fun _ _ hl => hl⟩
  | other hp hm =>
    refine ⟨fl, hi.others (fun w _ x hx => ?_) hp⟩
    obtain ⟨r, hr, h1, h2⟩ := hx.in_region hi
    exact hm r hr x h1 h2

/-! ## Runs -/

/-- The state after `slab_init` satisfies the invariant. -/
theorem ofSlab_inv (hP : PlatformOk P) {pmm : σ} {mem : Mem} {st : SlabState σ}
    (h : slabInit P (SlabRuns.SlabState.boot pmm mem) = some st) :
    ∃ fl, Inv P (State.ofSlab st) fl := by
  obtain ⟨fl, ⟨hcore, -⟩⟩ := SlabRuns.slabInit_inv hP h
  have hfree : ∀ {c p}, p ∈ fl c → Slot st.regions c p := fun hp => hcore.free_slot hp
  -- only free slots are held
  have hheld : ∀ w o, o ∈ held (State.ofSlab st) fl w → w = .free o.cache ∧ o.addr ∈ fl o.cache := by
    intro w o ho
    cases w with
    | header | client | cpu j => cases ho
    | free c =>
      obtain ⟨rfl, hp⟩ := mem_held_free.mp ho
      exact ⟨rfl, hp⟩
  refine ⟨fl, ⟨nofun, nofun, fun c _ => hcore.unlocked c⟩, ⟨hcore.regions, ?_, nofun, nofun,
    hcore.header⟩, ⟨⟨?_, ?_⟩, ?_⟩, ⟨fun c _ => hcore.chain c, nofun, fun _ => trivial⟩⟩
  · rintro r (hr | ⟨_, hb⟩)
    · obtain ⟨q, hq, rfl⟩ := List.mem_map.mp hr
      exact hcore.source q hq
    · cases hb
  · intro w
    cases w with
    | header | client | cpu j => exact List.nodup_nil
    | free c =>
      refine ((hcore.nodup c).of_append_left).map fun p q he => ?_
      exact congrArg Obj.addr he
  · intro v w o hv hw
    rw [(hheld v o hv).1, (hheld w o hw).1]
  · intro w o ho
    exact hfree (hheld w o ho).2

/-- A step of a client or the rest of the kernel, or a careful step of a CPU. -/
def CarefulStep (P : Platform σ) (s s' : State σ) : Prop :=
  ∃ who, Step P who s s' ∧ ∀ i, who = some i → Careful s i

theorem run_inv (hP : PlatformOk P) (hi : Inv P s fl)
    (hr : Relation.ReflTransGen (CarefulStep P) s s') : ∃ fl', Inv P s' fl' := by
  induction hr with
  | refl => exact ⟨fl, hi⟩
  | tail _ hst ih =>
    obtain ⟨fl', hi'⟩ := ih
    obtain ⟨who, hst, hc⟩ := hst
    exact step_inv hP hi' hst hc

theorem Slots.distinct (hr : Regions P s) (h : Slots s fl) : Distinct s := by
  have hne : ∀ {v w : Who} {o q : Obj}, o ∈ held s fl v → q ∈ held s fl w → v ≠ w →
      o.addr ≠ q.addr := by
    intro v w o q ho hq hvw he
    obtain rfl := h.obj_eq hr ho hq he
    exact hvw (h.sole.unique ho hq)
  have hnd : ∀ w, ((held s fl w).map Obj.addr).Nodup := by
    intro w
    refine List.Nodup.map_on (fun o ho q hq he => ?_) (h.sole.nodup w)
    exact h.obj_eq hr ho hq he
  refine ⟨hnd .client, fun i => hnd (.cpu i), ?_, ?_⟩
  · intro i o ho q hq
    exact hne (v := .cpu i) (w := .client) ho hq nofun
  · intro i j hij o ho q hq
    exact hne (v := .cpu i) (w := .cpu j) ho hq fun he => hij (Who.cpu.inj he)

theorem wants_outside {pc : Pc} (h : pc.wants = some c) : pc.inside = none := by
  cases pc <;> first | rfl | cases h

/-- A CPU that tries for a free lock gets inside; the others stay where they are. -/
theorem wants_enters (hst : Step P (some i) s s') (hw : (s.pc i).wants = some c)
    (hl : s.lock c = false) :
    (s'.pc i).inside = some c ∧ ∀ j, j ≠ i → s'.pc j = s.pc j := by
  have hpc : ∀ {pc}, s.pc i = pc → pc.wants = some c := fun h => h ▸ hw
  cases hst with
  | spin hw' hl' =>
    rw [hw] at hw'
    obtain rfl := Option.some.inj hw'
    rw [hl] at hl'
    cases hl'
  | allocAcquire h | freeAcquire h =>
    refine ⟨?_, fun j hj => Function.update_of_ne hj ..⟩
    rw [← hpc h]
    exact congrArg Pc.inside (Function.update_self i _ s.pc)
  | callAlloc h | callFree h | callRealloc h | allocEmpty h | allocFull h | refillLock h
  | refillPages h | refillPanic h | refillFirst h | refillHead h | refillHeader h | refillSkip h
  | refillSkipSet h | refillArr h | refillLink h | refillLast h | allocRead h | allocNext h
  | allocSet h | allocReturn h | allocMove h | copy h | freeRead h | freeLink h | freeSet h
  | freeRelease h => cases hpc h

/-- A CPU that tries for the lock of a cache that another is refilling joins it inside. -/
theorem careless_step (hi : Inv P s fl) (hst : Step P (some i) s s') (hc : ¬ Careful s i) :
    ¬ Exclusive s' := by
  simp only [Careful, not_forall] at hc
  obtain ⟨c, hw, j, hj, hre⟩ := hc
  have hl := hi.locks.inside j c hj
  rw [Bool.eq_true_of_not_eq_false hre] at hl
  obtain ⟨hin, hrest⟩ := wants_enters hst hw hl
  have hji : j ≠ i := by
    rintro rfl
    rw [wants_outside hw] at hj
    cases hj
  intro hx
  exact hji (hx j i c (by rw [hrest j hji]; exact hj) hin)

/-- **A cache has one CPU inside, and no slot is handed out twice, in every run whose attempts at a
lock are careful**; and an attempt that is not breaks it. -/
theorem careful_runs_exclude (P : Platform σ) (hP : PlatformOk P) (pmm : σ) (mem : Mem)
    (st : SlabState σ) (h : slabInit P (SlabRuns.SlabState.boot pmm mem) = some st) (s : State σ)
    (hr : Relation.ReflTransGen (CarefulStep P) (State.ofSlab st) s) :
    Exclusive s ∧ Distinct s ∧
      ∀ i s', Step P (some i) s s' → (Exclusive s' ↔ Careful s i) := by
  obtain ⟨fl₀, hi₀⟩ := ofSlab_inv hP h
  obtain ⟨fl, hi⟩ := run_inv hP hi₀ hr
  refine ⟨hi.locks.exclusive, hi.slots.distinct hi.regions, fun i s' hst => ⟨?_, ?_⟩⟩
  · intro hx
    by_contra hc
    exact careless_step hi hst hc hx
  · intro hc
    obtain ⟨fl', hi'⟩ := step_inv hP hi hst fun j hj => Option.some.inj hj ▸ hc
    exact hi'.locks.exclusive

/-- A CPU inside a cache. -/
theorem careful_runs_exclude_one_cpu :
    ∃ (st : SlabState (List Range)) (s : State (List Range)),
      slabInit SlabRuns.smallPlatform (SlabRuns.SlabState.boot [] fun _ => 0) = some st ∧
      Relation.ReflTransGen (CarefulStep SlabRuns.smallPlatform) (State.ofSlab st) s ∧
      (s.pc 0).inside = some 11 ∧ Exclusive s ∧ Distinct s ∧
      ∀ i s', Step SlabRuns.smallPlatform (some i) s s' → (Exclusive s' ↔ Careful s i) := by
  have hinit : (slabInit SlabRuns.smallPlatform (SlabRuns.SlabState.boot [] fun _ => 0)).isSome = true := by
    decide +kernel
  obtain ⟨st, hst⟩ := Option.isSome_iff_exists.mp hinit
  obtain ⟨fl, hi⟩ := ofSlab_inv SlabRuns.smallPlatform_ok hst
  have hfor : slabFor 10000 = some 11 := by decide +kernel
  have hcall : Step SlabRuns.smallPlatform (some 0) (State.ofSlab st) _ :=
    .callAlloc rfl (.inr hfor)
  have hcas : Step SlabRuns.smallPlatform (some 0) _ _ :=
    .allocAcquire (s := (State.ofSlab st).goto 0 (.allocAcquire (.alloc 11))) (i := 0)
      (a := .alloc 11) rfl (hi.locks.outside 11 nofun)
  -- nobody else is inside a cache
  have hcareful : Careful ((State.ofSlab st).goto 0 (.allocAcquire (.alloc 11))) 0 := by
    intro c _ j hj
    by_cases hj0 : j = 0
    · subst hj0
      cases hj
    · rw [State.goto_pc, Function.update_of_ne hj0] at hj
      cases hj
  have hr : Relation.ReflTransGen (CarefulStep SlabRuns.smallPlatform) (State.ofSlab st) _ :=
    (Relation.ReflTransGen.single
      ⟨some 0, hcall, fun i hi' => Option.some.inj hi' ▸ nofun⟩).tail
      ⟨some 0, hcas, fun i hi' => Option.some.inj hi' ▸ hcareful⟩
  exact ⟨st, _, hst, hr, rfl, careful_runs_exclude _ SlabRuns.smallPlatform_ok _ _ st hst _ hr⟩

/-! ## The race

A cache can be emptied by one CPU alone. When it then refills the cache, the
assignment in `create_slab` opens the lock: a second CPU gets in, and both take
the same first slot. -/

abbrev Reaches (P : Platform σ) : State σ → State σ → Prop :=
  Relation.ReflTransGen fun s s' => ∃ who, Step P who s s'

/-- What the race depends on: where CPU 0 and CPU 1 are, and the two words of the cache. -/
structure View (s : State σ) (c : Cache) (zero one : Pc) (lock : Bool) (head : Nat) : Prop where
  zero : s.pc 0 = zero
  one : s.pc 1 = one
  lock : s.lock c = lock
  head : s.firstFree c = head

variable {zero one pc' : Pc} {lk b : Bool} {head v : Nat}

theorem View.goto_zero (h : View s c zero one lk head) (pc' : Pc) :
    View (s.goto 0 pc') c pc' one lk head :=
  ⟨by simp, by simp [h.one], h.lock, h.head⟩

theorem View.goto_one (h : View s c zero one lk head) (pc' : Pc) :
    View (s.goto 1 pc') c zero pc' lk head :=
  ⟨by simp [h.zero], by simp, h.lock, h.head⟩

theorem View.set_lock (h : View s c zero one lk head) (b : Bool) :
    View { s with lock := Function.update s.lock c b } c zero one b head :=
  ⟨h.zero, h.one, by simp, h.head⟩

theorem View.set_head (h : View s c zero one lk head) (v : Nat) :
    View { s with firstFree := Function.update s.firstFree c v } c zero one lk v :=
  ⟨h.zero, h.one, h.lock, by simp⟩

theorem View.set_rest (h : View s c zero one lk head) (m : Mem) (pmm : σ) (regions : List Region) :
    View { s with mem := m, pmm := pmm, regions := regions } c zero one lk head :=
  ⟨h.zero, h.one, h.lock, h.head⟩

/-- One CPU takes the first slot of a cache that is not empty. -/
theorem take_slot (P : Platform σ) {size : Nat} (hs : slabFor size = some c)
    (h : View s c .idle .idle false head) (h0 : head ≠ 0) :
    ∃ s', Reaches P s s' ∧ View s' c .idle .idle false (read64 s.mem head) ∧ s'.mem = s.mem ∧
      s'.pmm = s.pmm := by
  obtain rfl := h.head
  have v₁ := h.goto_zero (.allocAcquire (.alloc c))
  have v₂ := (v₁.goto_zero (.allocTest (.alloc c))).set_lock true
  have v₃ := v₂.goto_zero (.allocRead (.alloc c) false)
  have v₄ := v₃.goto_zero (.allocNext (.alloc c) false (s.firstFree c))
  have v₅ := v₄.goto_zero (.allocSet (.alloc c) false (s.firstFree c) (read64 s.mem (s.firstFree c)))
  have v₆ := (v₅.goto_zero (.allocRelease (.alloc c) false (s.firstFree c))).set_head
    (read64 s.mem (s.firstFree c))
  refine ⟨_, .tail (.tail (.tail (.tail (.tail (.tail (.single ⟨_, .callAlloc h.zero (.inr hs)⟩)
    ⟨_, .allocAcquire v₁.zero v₁.lock⟩) ⟨_, .allocFull v₂.zero h0⟩) ⟨_, .allocRead v₃.zero⟩)
    ⟨_, .allocNext v₄.zero⟩) ⟨_, .allocSet v₅.zero⟩) ⟨_, .allocReturn v₆.zero rfl⟩, ?_, rfl, rfl⟩
  exact ⟨by simp, v₆.one, by simp [Req.alloc], v₆.head⟩

/-- One CPU empties a cache, one call after another. -/
theorem empty_cache (P : Platform σ) {size : Nat} (hs : slabFor size = some c) {l : List Nat}
    (h : View s c .idle .idle false head) (hl : Chain (read64 s.mem) head l) :
    ∃ s', Reaches P s s' ∧ View s' c .idle .idle false 0 ∧ s'.pmm = s.pmm := by
  induction l generalizing s head with
  | nil =>
    obtain rfl : head = 0 := hl
    exact ⟨s, .refl, h, rfl⟩
  | cons p l ih =>
    obtain ⟨rfl, h0, htail⟩ := hl
    obtain ⟨t, hst, hv, hm, hp⟩ := take_slot P hs h h0
    have hrest : Chain (read64 t.mem) (read64 s.mem head) l := by
      rw [hm]
      exact htail
    obtain ⟨u, htu, hv', hp'⟩ := ih hv hrest
    exact ⟨u, hst.trans htu, hv', hp'.trans hp⟩

/-- The loop of `create_slab` and the `NULL` after it. -/
theorem link_slots (P : Platform σ) {a : Req} {r arr k : Nat}
    (h : View s c (.refillLink a r arr k) one lk head) (hk : k ≤ slabMax a.cache) :
    ∃ s', Reaches P s s' ∧ View s' c (.allocRead a true) one lk head := by
  induction hn : slabMax a.cache - k generalizing s k with
  | zero =>
    have v₁ := (h.goto_zero (.allocRead a true)).set_rest
      (write64 s.mem (arr + 8 * (slabMax a.cache * slabFact a.cache)) 0) s.pmm
      ((r, a.cache) :: s.regions)
    exact ⟨_, .single ⟨_, .refillLast h.zero (by omega)⟩, v₁⟩
  | succ n ih =>
    have v₁ := (h.goto_zero (.refillLink a r arr (k + 1))).set_rest
      (write64 s.mem (arr + 8 * (k * slabFact a.cache)) (arr + 8 * ((k + 1) * slabFact a.cache)))
      s.pmm s.regions
    obtain ⟨t, ht, hv⟩ := ih v₁ (by omega) (by omega)
    exact ⟨t, .head ⟨_, .refillLink h.zero (by omega)⟩ ht, hv⟩

/-- CPU 0 finds the cache empty and opens its lock. -/
theorem open_lock (P : Platform σ) {size : Nat} (hs : slabFor size = some c)
    (h : View s c .idle .idle false 0) :
    ∃ s', Reaches P s s' ∧ View s' c (.refillPages (.alloc c)) .idle false 0 ∧ s'.pmm = s.pmm := by
  have v₁ := h.goto_zero (.allocAcquire (.alloc c))
  have v₂ := (v₁.goto_zero (.allocTest (.alloc c))).set_lock true
  have v₃ := v₂.goto_zero (.refillLock (.alloc c))
  have v₄ := (v₃.goto_zero (.refillPages (.alloc c))).set_lock false
  exact ⟨_, .tail (.tail (.tail (.single ⟨_, .callAlloc h.zero (.inr hs)⟩)
    ⟨_, .allocAcquire v₁.zero v₁.lock⟩) ⟨_, .allocEmpty v₂.zero v₂.head⟩) ⟨_, .refillLock v₃.zero⟩,
    v₄, rfl⟩

/-- CPU 0 sets up the new region up to the loop of `create_slab`. -/
theorem set_up_region (P : Platform σ) {block : Nat} {pmm : σ}
    (h : View s c (.refillPages (.alloc c)) .idle false 0)
    (hA : P.pages.alloc 64 s.pmm = some (block, pmm)) :
    ∃ s' r, Reaches P s s' ∧ View s' c (.refillLink (.alloc c) r (r + alignUp 8 (entSize c)) 0) .idle
      false (r + alignUp 8 (entSize c)) := by
  generalize hr : (block + P.hhdm) % 2 ^ 64 = r
  obtain ⟨s₁, r₁, v₁⟩ : ∃ s', (∃ who, Step P who s s') ∧
      View s' c (.refillFirst (.alloc c) r) .idle false 0 :=
    ⟨_, ⟨_, .refillPages h.zero hA⟩, hr ▸ (h.goto_zero _).set_rest _ _ _⟩
  obtain ⟨s₂, r₂, v₂⟩ : ∃ s', (∃ who, Step P who s₁ s') ∧
      View s' c (.refillHead (.alloc c) r) .idle false r :=
    ⟨_, ⟨_, .refillFirst v₁.zero⟩, (v₁.goto_zero _).set_head r⟩
  obtain ⟨s₃, r₃, v₃⟩ : ∃ s', (∃ who, Step P who s₂ s') ∧
      View s' c (.refillHeader (.alloc c) r r) .idle false r :=
    ⟨_, ⟨_, .refillHead v₂.zero⟩, by simpa [Req.alloc, v₂.head] using v₂.goto_zero _⟩
  obtain ⟨s₄, r₄, v₄⟩ : ∃ s', (∃ who, Step P who s₃ s') ∧
      View s' c (.refillSkip (.alloc c) r) .idle false r :=
    ⟨_, ⟨_, .refillHeader v₃.zero⟩, (v₃.goto_zero _).set_rest _ _ _⟩
  obtain ⟨s₅, r₅, v₅⟩ : ∃ s', (∃ who, Step P who s₄ s') ∧
      View s' c (.refillSkipSet (.alloc c) r r) .idle false r :=
    ⟨_, ⟨_, .refillSkip v₄.zero⟩, by simpa [Req.alloc, v₄.head] using v₄.goto_zero _⟩
  obtain ⟨s₆, r₆, v₆⟩ : ∃ s', (∃ who, Step P who s₅ s') ∧
      View s' c (.refillArr (.alloc c) r) .idle false (r + alignUp 8 (entSize c)) :=
    ⟨_, ⟨_, .refillSkipSet v₅.zero⟩, (v₅.goto_zero _).set_head _⟩
  obtain ⟨s₇, r₇, v₇⟩ : ∃ s', (∃ who, Step P who s₆ s') ∧
      View s' c (.refillLink (.alloc c) r (r + alignUp 8 (entSize c)) 0) .idle false
        (r + alignUp 8 (entSize c)) :=
    ⟨_, ⟨_, .refillArr v₆.zero⟩, by simpa [Req.alloc, v₆.head] using v₆.goto_zero _⟩
  exact ⟨s₇, r, ((((((.single r₁ : Reaches P s s₁).tail r₂).tail r₃).tail r₄).tail r₅).tail r₆).tail r₇,
    v₇⟩

/-- CPU 1 gets in while CPU 0 is refilling, and both take the same slot. -/
theorem both_take (P : Platform σ) {size p : Nat} (hs : slabFor size = some c) (hp : p ≠ 0)
    (h : View s c (.allocRead (.alloc c) true) .idle false p) :
    ∃ t u, Reaches P s t ∧ ¬ Exclusive t ∧ Reaches P t u ∧ ¬ (u.live.map Obj.addr).Nodup := by
  obtain ⟨s₁, r₁, v₁⟩ : ∃ s', (∃ who, Step P who s s') ∧
      View s' c (.allocRead (.alloc c) true) (.allocAcquire (.alloc c)) false p :=
    ⟨_, ⟨_, .callAlloc h.one (.inr hs)⟩, h.goto_one _⟩
  obtain ⟨t, r₂, v₂⟩ : ∃ s', (∃ who, Step P who s₁ s') ∧
      View s' c (.allocRead (.alloc c) true) (.allocTest (.alloc c)) true p :=
    ⟨_, ⟨_, .allocAcquire v₁.one v₁.lock⟩, (v₁.goto_one _).set_lock true⟩
  have hboth : ¬ Exclusive t := by
    intro hx
    exact absurd (hx 0 1 c (by rw [v₂.zero]; rfl) (by rw [v₂.one]; rfl)) (by decide)
  obtain ⟨s₃, r₃, v₃⟩ : ∃ s', (∃ who, Step P who t s') ∧
      View s' c (.allocRead (.alloc c) true) (.allocRead (.alloc c) false) true p :=
    ⟨_, ⟨_, .allocFull v₂.one (v₂.head ▸ hp)⟩, v₂.goto_one _⟩
  obtain ⟨s₄, r₄, v₄⟩ : ∃ s', (∃ who, Step P who s₃ s') ∧
      View s' c (.allocRead (.alloc c) true) (.allocNext (.alloc c) false p) true p :=
    ⟨_, ⟨_, .allocRead v₃.one⟩, by simpa [Req.alloc, v₃.head] using v₃.goto_one _⟩
  obtain ⟨s₅, r₅, v₅⟩ : ∃ s', (∃ who, Step P who s₄ s') ∧
      View s' c (.allocNext (.alloc c) true p) (.allocNext (.alloc c) false p) true p :=
    ⟨_, ⟨_, .allocRead v₄.zero⟩, by simpa [Req.alloc, v₄.head] using v₄.goto_zero _⟩
  obtain ⟨s₆, q, r₆, v₆⟩ : ∃ s' q, (∃ who, Step P who s₅ s') ∧
      View s' c (.allocSet (.alloc c) true p q) (.allocNext (.alloc c) false p) true p :=
    ⟨_, _, ⟨_, .allocNext v₅.zero⟩, v₅.goto_zero _⟩
  obtain ⟨s₇, r₇, v₇⟩ : ∃ s', (∃ who, Step P who s₆ s') ∧
      View s' c (.allocRelease (.alloc c) true p) (.allocNext (.alloc c) false p) true q :=
    ⟨_, ⟨_, .allocSet v₆.zero⟩, (v₆.goto_zero _).set_head q⟩
  obtain ⟨s₈, q', r₈, v₈⟩ : ∃ s' q', (∃ who, Step P who s₇ s') ∧
      View s' c (.allocRelease (.alloc c) true p) (.allocSet (.alloc c) false p q') true q :=
    ⟨_, _, ⟨_, .allocNext v₇.one⟩, v₇.goto_one _⟩
  obtain ⟨s₉, r₉, v₉⟩ : ∃ s', (∃ who, Step P who s₈ s') ∧
      View s' c (.allocRelease (.alloc c) true p) (.allocRelease (.alloc c) false p) true q' :=
    ⟨_, ⟨_, .allocSet v₈.one⟩, (v₈.goto_one _).set_head q'⟩
  have ht : Reaches P t s₉ :=
    ((((((.single r₃ : Reaches P t s₃).tail r₄).tail r₅).tail r₆).tail r₇).tail r₈).tail r₉
  have v₁₀ := (v₉.goto_zero .idle).set_lock false
  refine ⟨t, _, (Relation.ReflTransGen.single r₁).tail r₂, hboth,
    (ht.tail ⟨_, .allocReturn v₉.zero rfl⟩).tail ⟨_, .allocReturn (i := 1) v₁₀.one rfl⟩, ?_⟩
  simp

/-- A page allocator with room for one more block lets any cache be raced for. -/
theorem refill_races (P : Platform σ) (hi : Inv P s fl) {size block : Nat} {pmm : σ}
    (hs : slabFor size = some c) (hidle : ∀ i, s.pc i = .idle)
    (hA : P.pages.alloc 64 s.pmm = some (block, pmm)) :
    ∃ t u, Reaches P s t ∧ ¬ Exclusive t ∧ Reaches P t u ∧ ¬ (u.live.map Obj.addr).Nodup := by
  have hout : ∀ j, (s.pc j).inside ≠ some c := by
    intro j
    rw [hidle j]
    nofun
  have v : View s c .idle .idle false (s.firstFree c) :=
    ⟨hidle 0, hidle 1, hi.locks.outside c hout, rfl⟩
  obtain ⟨s₁, r₁, v₁, hp₁⟩ := empty_cache P hs v (hi.chain_outside hout)
  obtain ⟨s₂, r₂, v₂, hp₂⟩ := open_lock P hs v₁
  rw [← hp₁, ← hp₂] at hA
  obtain ⟨s₃, r, r₃, v₃⟩ := set_up_region P v₂ hA
  obtain ⟨s₄, r₄, v₄⟩ := link_slots P v₃ (Nat.zero_le _)
  have hne : r + alignUp 8 (entSize c) ≠ 0 := by
    have := (entSize_facts c).1
    rw [(SlabRep.createSlab_numbers c).1]
    omega
  obtain ⟨t, u, ht, htwo, hu, hsame⟩ := both_take P hs hne v₄
  exact ⟨t, u, (((r₁.trans r₂).trans r₃).trans r₄).trans ht, htwo, hu, hsame⟩

theorem two_cpus_share_slot :
    ∃ (st : SlabState (List Range)) (t u : State (List Range)),
      slabInit SlabRuns.smallPlatform (SlabRuns.SlabState.boot [] fun _ => 0) = some st ∧
      Reaches SlabRuns.smallPlatform (State.ofSlab st) t ∧ ¬ Exclusive t ∧
      Reaches SlabRuns.smallPlatform t u ∧ ¬ (u.live.map Obj.addr).Nodup := by
  have hroom : ((slabInit SlabRuns.smallPlatform (SlabRuns.SlabState.boot [] fun _ => 0)).bind
      fun st => SlabRuns.smallPlatform.pages.alloc 64 st.pmm).isSome = true := by
    decide +kernel
  obtain ⟨⟨block, pmm⟩, hA⟩ := Option.isSome_iff_exists.mp hroom
  obtain ⟨st, hst, hA⟩ := Option.bind_eq_some_iff.mp hA
  obtain ⟨fl, hi⟩ := ofSlab_inv SlabRuns.smallPlatform_ok hst
  obtain ⟨t, u, h⟩ := refill_races SlabRuns.smallPlatform hi
    (show slabFor 10000 = some 11 by decide +kernel) (fun _ => rfl) hA
  exact ⟨st, t, u, hst, h⟩

end Cynix.Mm.SlabLock
