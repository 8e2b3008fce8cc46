import Mathlib
import Cynix.Base.Locking
import Cynix.Base.Progress

/-! # Code that takes spinlocks comes to an end

Finitely many CPUs with finitely many calls each. Every step leaves a CPU with
less code, and among CPUs that wait for each other the one that wants the
highest lock waits for nobody but a CPU that has halted. So in a fair run all
calls return, unless some CPU halts. -/
namespace Cynix.Base.Finishing
open Cynix.Base.Locking Cynix.Base.Progress

variable {L : Type}

/-! ## Less code -/

inductive Sub : Prog L Unit → Prog L Unit → Prop
  | readIf (k : Bool → Prog L Unit) (b : Bool) : Sub (k b) (.readIf k)
  | setIf (b : Bool) (k : Prog L Unit) : Sub k (.setIf b k)
  | acquire (l : L) (k : Prog L Unit) : Sub k (.acquire l k)
  | release (l : L) (k : Prog L Unit) : Sub k (.release l k)
  | reset (l : L) (k : Prog L Unit) : Sub k (.reset l k)
  | choose (k : Nat → Prog L Unit) (n : Nat) : Sub (k n) (.choose k)

theorem Sub.acc (p : Prog L Unit) : Acc Sub p := by
  induction p with
  | pure a => exact ⟨_, fun q hq => by cases hq⟩
  | halt => exact ⟨_, fun q hq => by cases hq⟩
  | readIf k ih =>
    refine ⟨_, fun q hq => ?_⟩
    cases hq with
    | readIf k b => exact ih b
  | setIf b k ih =>
    refine ⟨_, fun q hq => ?_⟩
    cases hq with
    | setIf => exact ih
  | acquire l k ih =>
    refine ⟨_, fun q hq => ?_⟩
    cases hq with
    | acquire => exact ih
  | release l k ih =>
    refine ⟨_, fun q hq => ?_⟩
    cases hq with
    | release => exact ih
  | reset l k ih =>
    refine ⟨_, fun q hq => ?_⟩
    cases hq with
    | reset => exact ih
  | choose k ih =>
    refine ⟨_, fun q hq => ?_⟩
    cases hq with
    | choose k n => exact ih n

theorem Sub.quiet {t t' : Thread L} (h : Quiet t t') : Sub t'.prog t.prog := by
  cases h with
  | readIf => exact .readIf ..
  | setIf => exact .setIf ..
  | choose n => exact .choose ..

/-! ## CPUs with calls to make -/

structure Crew (L : Type) where
  sys : System L
  /-- The calls still to be made, each with the interrupt flag it is made with. -/
  queue : Nat → List (Bool × Prog L Unit)

section
variable [DecidableEq L] (n : Nat)

/-- A step of one of the `n` CPUs. -/
inductive Move : Crew L → Crew L → Prop
  | call {s : Crew L} {c : Nat} {i b : Bool} {h : List L} {p : Prog L Unit} {q : List (Bool × Prog L Unit)} : c < n →
      s.sys.parked c = false → s.sys.thread c = ⟨i, h, .pure ()⟩ → s.queue c = (b, p) :: q →
      Move s ⟨s.sys.set c ⟨b, h, p⟩, Function.update s.queue c q⟩
  | quiet {s : Crew L} {c : Nat} {t : Thread L} : c < n → s.sys.parked c = false → Quiet (s.sys.thread c) t →
      Move s { s with sys := s.sys.set c t }
  | acquire {s : Crew L} {c : Nat} {h : List L} {l : L} {k : Prog L Unit} : c < n → s.sys.parked c = false →
      s.sys.thread c = ⟨false, h, .acquire l k⟩ → s.sys.word l = false →
      Move s { s with sys := { s.sys.set c ⟨false, l :: h, k⟩ with word := Function.update s.sys.word l true } }
  | release {s : Crew L} {c : Nat} {i : Bool} {h : List L} {l : L} {k : Prog L Unit} : c < n →
      s.sys.parked c = false → s.sys.thread c = ⟨i, h, .release l k⟩ →
      Move s { s with sys := { s.sys.set c ⟨i, h.erase l, k⟩ with word := Function.update s.sys.word l false } }
  | reset {s : Crew L} {c : Nat} {i : Bool} {h : List L} {l : L} {k : Prog L Unit} : c < n →
      s.sys.parked c = false → s.sys.thread c = ⟨i, h, .reset l k⟩ →
      Move s { s with sys := { s.sys.set c ⟨i, h, k⟩ with word := Function.update s.sys.word l false } }
  | stop {s : Crew L} {c : Nat} : c < n → s.sys.parked c = false → (s.sys.thread c).ifl = true →
      Move s { s with sys := { s.sys.set c { s.sys.thread c with ifl := false } with
        parked := Function.update s.sys.parked c true } }

end

/-- All CPUs idle, with their calls. -/
def Crew.start (flag : Nat → Bool) (queue : Nat → List (Bool × Prog L Unit)) : Crew L :=
  ⟨⟨fun c => ⟨flag c, [], .pure ()⟩, fun _ => false, fun _ => false⟩, queue⟩

/-! ## The measure -/

abbrev Key (L : Type) := Nat × Nat × Prog L Unit

def Less : Key L → Key L → Prop := Prod.Lex (· < ·) (Prod.Lex (· < ·) Sub)

theorem less_wf : WellFounded (Less : Key L → Key L → Prop) :=
  Nat.lt_wfRel.wf.prod_lex (Nat.lt_wfRel.wf.prod_lex ⟨Sub.acc⟩)

def key (s : Crew L) (c : Nat) : Key L :=
  ((!s.sys.parked c).toNat, (s.queue c).length, (s.sys.thread c).prog)

variable [DecidableEq L] {n : Nat} {s s' : Crew L} {c : Nat} {rank : L → Nat}

/-- A step changes one CPU, which is then closer to its end. -/
theorem Move.key_less (h : Move n s s') : ∃ c, c < n ∧ (∀ d, d ≠ c → key s' d = key s d) ∧ Less (key s' c) (key s c) := by
  cases h with
  | @call c i b h p q hc hp ht hq =>
    refine ⟨c, hc, ?_, ?_⟩
    · intro d hd
      simp [key, System.set, Function.update_of_ne hd]
    · have : q.length < (s.queue c).length := by rw [hq]; exact Nat.lt_succ_self _
      simp only [key, System.set, Function.update_self, hp]
      exact .right _ (.left _ _ this)
  | @quiet c t hc hp hq =>
    refine ⟨c, hc, ?_, ?_⟩
    · intro d hd
      simp [key, System.set, Function.update_of_ne hd]
    · simp only [key, System.set, Function.update_self]
      exact .right _ (.right _ (Sub.quiet hq))
  | @acquire c h l k hc hp ht hw =>
    refine ⟨c, hc, ?_, ?_⟩
    · intro d hd
      simp [key, System.set, Function.update_of_ne hd]
    · simp only [key, System.set, Function.update_self, ht]
      exact .right _ (.right _ (.acquire l k))
  | @release c i h l k hc hp ht =>
    refine ⟨c, hc, ?_, ?_⟩
    · intro d hd
      simp [key, System.set, Function.update_of_ne hd]
    · simp only [key, System.set, Function.update_self, ht]
      exact .right _ (.right _ (.release l k))
  | @reset c i h l k hc hp ht =>
    refine ⟨c, hc, ?_, ?_⟩
    · intro d hd
      simp [key, System.set, Function.update_of_ne hd]
    · simp only [key, System.set, Function.update_self, ht]
      exact .right _ (.right _ (.reset l k))
  | @stop c hc hp hi =>
    refine ⟨c, hc, ?_, ?_⟩
    · intro d hd
      simp [key, System.set, Function.update_of_ne hd]
    · simp only [key, System.set, Function.update_self, hp]
      exact .left _ _ (by decide)

def keys (n : Nat) (s : Crew L) : Multiset (Key L) := (Multiset.range n).map (key s)

theorem Move.keys_less (h : Move n s s') : Relation.CutExpand Less (keys n s') (keys n s) := by
  obtain ⟨c, hc, hother, hless⟩ := h.key_less
  have hmem : c ∈ Multiset.range n := Multiset.mem_range.mpr hc
  obtain ⟨rest, hrest⟩ := Multiset.exists_cons_of_mem hmem
  have hnotin : c ∉ rest := by
    have := Multiset.nodup_range n
    rw [hrest, Multiset.nodup_cons] at this
    exact this.1
  have hsame : rest.map (key s') = rest.map (key s) := by
    refine Multiset.map_congr rfl ?_
    intro d hd
    exact hother d fun h => hnotin (h ▸ hd)
  unfold keys
  rw [hrest, Multiset.map_cons, Multiset.map_cons, hsame]
  exact Relation.cutExpand_single_add hless _

/-! ## The invariant -/

/-- Every lock that is taken is held by one of the CPUs. -/
def Taken (n : Nat) (s : System L) : Prop := ∀ l, s.word l = true → ∃ c, c < n ∧ l ∈ (s.thread c).held

structure Ok (rank : L → Nat) (n : Nat) (s : Crew L) : Prop where
  sys : SysInv rank s.sys
  calls : ∀ c, ∀ x ∈ s.queue c, Neutral rank x.2 x.1 []
  taken : Taken n s.sys

omit [DecidableEq L] in
/-- A CPU that gives up at most the lock `l`, while the word of no other lock gets set. -/
theorem Taken.set {t : Thread L} {word : L → Bool} {l : L} {s : System L} (h : Taken n s)
    (hheld : ∀ m, m ≠ l → m ∈ (s.thread c).held → m ∈ t.held) (hword : ∀ m, word m = true → m ≠ l ∧ s.word m = true) :
    Taken n { s.set c t with word := word } := by
  intro m hm
  obtain ⟨hne, hm'⟩ := hword m hm
  obtain ⟨d, hd, hmem⟩ := h m hm'
  refine ⟨d, hd, ?_⟩
  change m ∈ (Function.update s.thread c t d).held
  by_cases hdc : d = c
  · subst hdc
    rw [Function.update_self]
    exact hheld m hne hmem
  · rwa [Function.update_of_ne hdc]

omit [DecidableEq L] in
/-- A CPU keeps its locks, and no lock is taken. -/
theorem Taken.keep {t : Thread L} {s : System L} (h : Taken n s) (hheld : t.held = (s.thread c).held) : Taken n (s.set c t) := by
  intro m hm
  obtain ⟨d, hd, hmem⟩ := h m hm
  refine ⟨d, hd, ?_⟩
  change m ∈ (Function.update s.thread c t d).held
  by_cases hdc : d = c
  · subst hdc
    rwa [Function.update_self, hheld]
  · rwa [Function.update_of_ne hdc]

omit [DecidableEq L] in
theorem quiet_held {t t' : Thread L} (h : Quiet t t') : t'.held = t.held := by
  cases h <;> rfl

theorem update_false {word : L → Bool} {l m : L} (h : Function.update word l false m = true) : m ≠ l ∧ word m = true := by
  by_cases hm : m = l
  · subst hm
    rw [Function.update_self] at h
    cases h
  · exact ⟨hm, by rwa [Function.update_of_ne hm] at h⟩

theorem Move.taken (h : Move n s s') (ht : Taken n s.sys) : Taken n s'.sys := by
  cases h with
  | call hc hp hth hq => exact ht.keep (by rw [hth])
  | quiet hc hp hq => exact ht.keep (quiet_held hq)
  | @acquire c h l k hc hp hth hw =>
    intro m hm
    change Function.update s.sys.word l true m = true at hm
    change ∃ d, d < n ∧ m ∈ (Function.update s.sys.thread c ⟨false, l :: h, k⟩ d).held
    by_cases hml : m = l
    · subst hml
      exact ⟨c, hc, by rw [Function.update_self]; exact List.mem_cons_self⟩
    · rw [Function.update_of_ne hml] at hm
      obtain ⟨d, hd, hmem⟩ := ht m hm
      refine ⟨d, hd, ?_⟩
      by_cases hdc : d = c
      · subst hdc
        rw [hth] at hmem
        rw [Function.update_self]
        exact List.mem_cons_of_mem l hmem
      · rwa [Function.update_of_ne hdc]
  | @release c i h l k hc hp hth =>
    refine ht.set (l := l) ?_ (fun m hm => update_false hm)
    intro m hne hm
    rw [hth] at hm
    exact (List.mem_erase_of_ne hne).mpr hm
  | @reset c i h l k hc hp hth =>
    refine ht.set (l := l) ?_ (fun m hm => update_false hm)
    intro m hne hm
    rwa [hth] at hm
  | stop hc hp hi => exact ht.keep (s := s.sys) rfl

/-- The steps of the CPUs are those of a system with these calls. -/
theorem Move.sys {calls : Bool → Prog L Unit → Prop} (h : Move n s s') (hcalls : ∀ c, ∀ x ∈ s.queue c, calls x.1 x.2) :
    Relation.ReflTransGen (SysStep calls) s.sys s'.sys := by
  cases h with
  | @call c i b h p q hc hp hth hq =>
    have hcall : calls b p := hcalls c (b, p) (by rw [hq]; exact List.mem_cons_self)
    have h1 : SysStep calls s.sys (s.sys.set c ⟨b, h, .pure ()⟩) := .idle hp hth
    have h2 : SysStep calls (s.sys.set c ⟨b, h, .pure ()⟩) ((s.sys.set c ⟨b, h, .pure ()⟩).set c ⟨b, h, p⟩) :=
      .call hp (Function.update_self ..) hcall
    have heq : (s.sys.set c ⟨b, h, .pure ()⟩).set c ⟨b, h, p⟩ = s.sys.set c ⟨b, h, p⟩ := by
      simp [System.set]
    exact .tail (.single h1) (heq ▸ h2)
  | quiet hc hp hq => exact .single (.quiet hp hq)
  | acquire hc hp hth hw => exact .single (.acquire hp hth hw)
  | release hc hp hth => exact .single (.release hp hth)
  | reset hc hp hth => exact .single (.reset hp hth)
  | stop hc hp hi => exact .single (.stop hp hi)

theorem Move.queue (h : Move n s s') (c : Nat) : ∀ x ∈ s'.queue c, x ∈ s.queue c := by
  cases h with
  | @call d i b h p q hc hp hth hq =>
    intro x hx
    change x ∈ Function.update s.queue d q c at hx
    by_cases hcd : c = d
    · subst hcd
      rw [Function.update_self] at hx
      rw [hq]
      exact List.mem_cons_of_mem _ hx
    · rwa [Function.update_of_ne hcd] at hx
  | quiet | acquire | release | reset | stop => exact fun x hx => hx

theorem SysInv.steps {calls : Bool → Prog L Unit → Prop} {s s' : System L} (hi : SysInv rank s)
    (hcalls : ∀ i p, calls i p → Neutral rank p i []) (h : Relation.ReflTransGen (SysStep calls) s s') : SysInv rank s' := by
  induction h with
  | refl => exact hi
  | tail _ hs ih => exact SysInv.step hcalls ih hs

theorem Ok.move (hok : Ok rank n s) (h : Move n s s') : Ok rank n s' :=
  ⟨SysInv.steps hok.sys (fun _ _ h => h) (h.sys hok.calls), fun c x hx => hok.calls c x (h.queue c x hx), h.taken hok.taken⟩

theorem ok_start {flag : Nat → Bool} {queue : Nat → List (Bool × Prog L Unit)}
    (hq : ∀ c, ∀ x ∈ queue c, Neutral rank x.2 x.1 []) : Ok rank n (Crew.start flag queue) := by
  refine ⟨?_, hq, ?_⟩
  · intro c
    exact ⟨rfl, fun _ => rfl⟩
  · intro l hl
    cases hl

/-! ## The end -/

def Halted (s : System L) (c : Nat) : Prop := s.parked c = false ∧ (s.thread c).prog = .halt

def Finished (s : Crew L) (c : Nat) : Prop := (s.sys.thread c).prog = .pure () ∧ s.queue c = []

/-- Where the CPUs are when none can make a step. -/
theorem Ok.at_end (hok : Ok rank n s) (hend : ∀ s', ¬ Move n s s') (hc : c < n) (hp : s.sys.parked c = false) :
    Finished s c ∨ Halted s.sys c ∨ ∃ l, Wants s.sys c l ∧ s.sys.word l = true := by
  have hgood := hok.sys.good hp
  cases ht : s.sys.thread c with
  | mk i h prog =>
    rw [ht] at hgood
    cases prog with
    | pure a =>
      cases hq : s.queue c with
      | nil => exact .inl ⟨by rw [ht], hq⟩
      | cons x q => exact absurd (.call hc hp ht hq) (hend _)
    | readIf k => exact absurd (.quiet hc hp (by rw [ht]; exact .readIf)) (hend _)
    | setIf b k => exact absurd (.quiet hc hp (by rw [ht]; exact .setIf)) (hend _)
    | choose k => exact absurd (.quiet hc hp (by rw [ht]; exact .choose 0)) (hend _)
    | release l k => exact absurd (.release hc hp ht) (hend _)
    | reset l k => exact absurd (.reset hc hp ht) (hend _)
    | halt => exact .inr (.inl ⟨hp, by rw [ht]⟩)
    | acquire l k =>
      obtain rfl : i = false := hgood.pre.1
      cases hw : s.sys.word l with
      | true => exact .inr (.inr ⟨l, ⟨hp, k, by rw [ht]⟩, hw⟩)
      | false => exact absurd (.acquire hc hp ht hw) (hend _)

/-- A lock that is taken at the end is held by a CPU that halted or waits itself. -/
theorem Ok.holder (hok : Ok rank n s) (hend : ∀ s', ¬ Move n s s') {l : L} (hw : s.sys.word l = true) :
    ∃ d, d < n ∧ l ∈ (s.sys.thread d).held ∧ (Halted s.sys d ∨ ∃ m, Wants s.sys d m ∧ s.sys.word m = true) := by
  obtain ⟨d, hd, hmem⟩ := hok.taken l hw
  have hp : s.sys.parked d = false := by
    cases hp : s.sys.parked d with
    | false => rfl
    | true =>
      have := hok.sys d
      rw [hp, if_pos rfl] at this
      rw [this] at hmem
      cases hmem
  refine ⟨d, hd, hmem, ?_⟩
  rcases hok.at_end hend hd hp with hfin | hrest
  · have hnil := (hok.sys.good hp).pre
    rw [hfin.1] at hnil
    change (s.sys.thread d).held = [] at hnil
    rw [hnil] at hmem
    cases hmem
  · exact hrest

/-- Whoever waits at the end waits, through others perhaps, for a CPU that has halted. -/
theorem Ok.waits_for_halted (hok : Ok rank n s) (hend : ∀ s', ¬ Move n s s') {l : L} (hl : Wants s.sys c l)
    (hw : s.sys.word l = true) : ∃ d, d < n ∧ Halted s.sys d ∧ Relation.TransGen (WaitsFor s.sys) c d := by
  -- the locks wanted along the way go up, and there are only `n` CPUs to want one
  classical
  let want := fun d => if h : ∃ m, Wants s.sys d m then rank h.choose else 0
  have hwant : ∀ {d m}, Wants s.sys d m → want d = rank m := by
    intro d m hm
    have hex : ∃ m, Wants s.sys d m := ⟨m, hm⟩
    have heq : hex.choose = m := by
      obtain ⟨-, k, hk⟩ := hex.choose_spec
      obtain ⟨-, k', hk'⟩ := hm
      rw [hk] at hk'
      exact (Prog.acquire.inj hk').1
    simp only [want, dif_pos hex, heq]
  have hbound : ∀ d, d < n → want d ≤ (Finset.range n).sup want :=
    fun d hd => Finset.le_sup (f := want) (Finset.mem_range.mpr hd)
  obtain ⟨k, hk⟩ : ∃ k, k = (Finset.range n).sup want - rank l := ⟨_, rfl⟩
  induction k using Nat.strong_induction_on generalizing c l with
  | _ k ih =>
    obtain ⟨d, hd, hmem, hhalt | ⟨m, hm, hwm⟩⟩ := hok.holder hend hw
    · exact ⟨d, hd, hhalt, .single ⟨l, hl, hmem⟩⟩
    · have hup := hok.sys.wants_above hm hmem
      have hle := hbound d hd
      rw [hwant hm] at hle
      obtain ⟨e, he, hhalt, hchain⟩ := ih _ (by omega) hm hwm rfl
      exact ⟨e, he, hhalt, .head ⟨l, hl, hmem⟩ hchain⟩

/-- Every fair run comes to an end. Then each CPU has made its calls, was stopped, has halted, or waits
for a CPU that has halted; if none has halted, no lock is taken. -/
theorem settles {flag : Nat → Bool} {queue : Nat → List (Bool × Prog L Unit)} {r : Nat → Crew L}
    (hq : ∀ c, ∀ x ∈ queue c, Neutral rank x.2 x.1 []) (h : Fair (Move n) Eq (Crew.start flag queue) r) :
    ∃ N, ∀ m, N ≤ m → (∀ c, c < n → (r m).sys.parked c = true ∨ Finished (r m) c ∨ Halted (r m).sys c ∨
        ∃ d, d < n ∧ Halted (r m).sys d ∧ Relation.TransGen (WaitsFor (r m).sys) c d) ∧
      ((∀ c, c < n → ¬ Halted (r m).sys c) → ∀ l, (r m).sys.word l = false) := by
  have hok : ∀ m, Ok rank n (r m) := h.invariant (ok_start hq) (fun _ _ hs hm => hs.move hm) (fun _ _ hs heq => heq ▸ hs)
  obtain ⟨N, hN⟩ := h.ends (I := Ok rank n) less_wf.cutExpand hok (fun _ _ _ hm => hm.keys_less)
    (fun _ _ _ heq => heq ▸ rfl)
  refine ⟨N, ?_⟩
  intro m hm
  have hend := hN m hm
  refine ⟨?_, ?_⟩
  · intro c hc
    cases hp : (r m).sys.parked c with
    | true => exact .inl rfl
    | false =>
      rcases (hok m).at_end hend hc hp with hfin | hhalt | ⟨l, hl, hw⟩
      · exact .inr (.inl hfin)
      · exact .inr (.inr (.inl hhalt))
      · exact .inr (.inr (.inr ((hok m).waits_for_halted hend hl hw)))
  · intro hnone l
    cases hw : (r m).sys.word l with
    | false => rfl
    | true =>
      obtain ⟨d, hd, hmem, hhalt | ⟨l', hl', hw'⟩⟩ := (hok m).holder hend hw
      · exact absurd hhalt (hnone d hd)
      · obtain ⟨e, he, hhalt, -⟩ := (hok m).waits_for_halted hend hl' hw'
        exact absurd hhalt (hnone e he)

end Cynix.Base.Finishing
