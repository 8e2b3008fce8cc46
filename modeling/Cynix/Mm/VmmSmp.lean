import Cynix.Base.Sections
import Cynix.Mm.VmmRuns

/-! # Mapping pages under running processors

`vmm_map_page` on one pagemap from any number of CPUs, one access at a time,
while processors walk the tables without the lock, one load at a time, and
while the rest of the kernel uses the page allocator and its own memory. The
log has the calls in the order of their last stores. A walk that is overtaken
by stores still ends with what its page was mapped to at its last load. -/
namespace Cynix.Mm.VmmSmp
open Cynix.Base.Bytes Cynix.Base.Pages Cynix.Base.Radix Cynix.Base.Sections Cynix.Lib.Misc Cynix.Lib.Alloc
open Cynix.Mm.Pmm Cynix.Mm.Vmm Cynix.Mm.VmmTables Cynix.Mm.VmmRuns

/-- Where a CPU is between `spinlock_acquire` and `spinlock_release`. The number is that of the levels
still to go down. -/
inductive Local where
  /-- The test in `get_next_level`, or, at the last level, the store of `phys | flags`. -/
  | level (k table : Nat)
  | read (k table : Nat)
  | alloc (k table : Nat)
  /-- The loop of `pmm_alloc`. -/
  | zero (k table ret i : Nat)
  | link (k table ret : Nat)
  | done
  /-- The panic in `pmm_alloc_nozero`. -/
  | dead

variable {σ : Type}

def entryAddr (hhdm table v k : Nat) : Nat := table + hhdm + index v k * 8

def step (A : PageAllocator σ) (hhdm : Nat) (c : Call) : Local → Heap σ → Option (Local × Heap σ)
  | .level 0 table, h =>
    some (.done, { h with mem := write64 h.mem (entryAddr hhdm table c.virt 0) (c.phys ||| c.flags) })
  | .level (k + 1) table, h =>
    if read64 h.mem (entryAddr hhdm table c.virt (k + 1)) &&& 0x01 ≠ 0 then some (.read k table, h)
    else some (.alloc k table, h)
  | .read k table, h =>
    some (.level k (read64 h.mem (entryAddr hhdm table c.virt (k + 1)) &&& (2 ^ 64 - 1 - vmmPteFlagsMask)), h)
  | .alloc k table, h =>
    match A.alloc 1 h.pmm with
    | some (ret, pmm) => some (.zero k table ret 0, { h with pmm := pmm })
    | none => some (.dead, h)
  | .zero k table ret i, h =>
    if i < 1 * pageSize % 2 ^ 64 / 8 then
      some (.zero k table ret (i + 1), { h with mem := write64 h.mem (ret + hhdm + 8 * i) 0 })
    else some (.link k table ret, h)
  | .link k table ret, h =>
    some (.level k ret, { h with mem := write64 h.mem (entryAddr hhdm table c.virt (k + 1)) (ret ||| 0b111) })
  | .done, _ => none
  | .dead, _ => none

/-! ## The call in one go -/

def Runs (A : PageAllocator σ) (hhdm : Nat) (c : Call) : Local × Heap σ → Local × Heap σ → Prop :=
  Relation.ReflTransGen fun a b => step A hhdm c a.1 a.2 = some b

variable {A : PageAllocator σ} {hhdm top : Nat} {la57 : Bool} {c : Call} {h h' : Heap σ}

theorem runs_zero {k table ret i : Nat} (pmm : σ) (m : Mem) (hi : i ≤ 512) :
    Runs A hhdm c (.zero k table ret i, ⟨pmm, fill64 m (ret + hhdm) 0 i⟩)
      (.link k table ret, ⟨pmm, fillPages hhdm m ret 1 0⟩) := by
  obtain ⟨n, hn⟩ := Nat.exists_eq_add_of_le hi
  induction n generalizing i with
  | zero =>
    obtain rfl : i = 512 := by omega
    exact .single rfl
  | succ n ih =>
    have hlt : i < 1 * pageSize % 2 ^ 64 / 8 := by
      change i < 512
      omega
    exact .head (if_pos hlt) (ih (by omega) (by omega))

/-- One `get_next_level`. -/
theorem runs_getNextLevel {k table ret : Nat}
    (hg : getNextLevel A hhdm table (index c.virt (k + 1)) true h = some (ret, h')) :
    Runs A hhdm c (.level (k + 1) table, h) (.level k ret, h') := by
  unfold getNextLevel at hg
  dsimp only at hg
  by_cases hpresent : read64 h.mem (table + hhdm + index c.virt (k + 1) * 8) &&& 0x01 ≠ 0
  · rw [if_pos hpresent] at hg
    cases hg
    exact .head (if_pos hpresent) (.single rfl)
  · rw [if_neg hpresent, if_neg (by simp)] at hg
    refine .head (if_neg hpresent) ?_
    cases ha : pmmAllocVia A hhdm 1 h with
    | none => simp [ha] at hg
    | some r =>
      obtain ⟨ret', h₁⟩ := r
      obtain ⟨pmm, hpmm, rfl⟩ := pmmAllocVia_some ha
      simp only [ha, Option.some.injEq, Prod.mk.injEq] at hg
      obtain ⟨rfl, rfl⟩ := hg
      have halloc : step A hhdm c (.alloc k table) h = some (.zero k table ret' 0, ⟨pmm, h.mem⟩) := by
        simp [step, hpmm]
      have hzero : Runs A hhdm c (.alloc k table, h) (.link k table ret', ⟨pmm, fillPages hhdm h.mem ret' 1 0⟩) :=
        .head halloc (runs_zero pmm h.mem (Nat.zero_le _))
      exact hzero.tail rfl

/-- Undisturbed, the accesses are what `vmm_map_page` does. -/
theorem runs_vmmMapPage (hm : vmmMapPage A hhdm la57 top c.virt c.phys c.flags h = some h') :
    Runs A hhdm c (.level (depth la57) top, h) (.done, h') := by
  unfold vmmMapPage at hm
  rw [pml5Index_eq, pml4Index_eq, pml3Index_eq, pml2Index_eq, pml1Index_eq] at hm
  simp only [Option.bind_eq_bind, Option.bind_eq_some_iff, Prod.exists, Option.some.injEq] at hm
  obtain ⟨pml4, h4, hg4, pml3, h3, hg3, pml2, h2, hg2, pml1, h1, hg1, rfl⟩ := hm
  have htop : Runs A hhdm c (.level (depth la57) top, h) (.level 3 pml4, h4) := by
    cases la57 with
    | false =>
      cases hg4
      exact .refl
    | true => exact runs_getNextLevel hg4
  exact (((htop.trans (runs_getNextLevel hg3)).trans (runs_getNextLevel hg2)).trans
    (runs_getNextLevel hg1)).tail rfl

/-! ## The system -/

/-- A processor's walk, between two of its loads. -/
inductive Walker where
  | idle
  | onWay (v k table : Nat)
  | done (v : Nat) (found : Option Nat)

/-- One load of a walk. -/
def Walker.load (hhdm : Nat) (mem : Mem) : Walker → Walker
  | .onWay v (k + 1) t =>
    match child hhdm mem t (index v (k + 1)) with
    | some u => .onWay v k u
    | none => .done v none
  | .onWay v 0 t =>
    .done v (if entryOf hhdm mem t (index v 0) &&& 1 = 0 then none else some (entryOf hhdm mem t (index v 0)))
  | w => w

structure Space (σ : Type) where
  heap : Heap σ
  lock : Bool
  phase : Nat → Phase Call Local
  walker : Nat → Walker
  log : List Call

/-- The page a CPU has allocated and not linked yet. -/
def Local.page : Local → Option Nat
  | .zero _ _ ret _ => some ret
  | .link _ _ ret => some ret
  | _ => none

/-- The pages that are the tables, or are becoming one. -/
def Space.Owns (hhdm : Nat) (la57 : Bool) (top : Nat) (s : Space σ) (t : Nat) : Prop :=
  (∃ p : List (Fin 512), p.length ≤ depth la57 ∧ descend (child hhdm s.heap.mem) top p = some t) ∨
    ∃ i c l, s.phase i = .inside c l ∧ l.page = some t

/-- The call's last store is when it takes effect. -/
def Local.log (c : Call) (log : List Call) : Local → List Call
  | .level 0 _ => log ++ [c]
  | _ => log

inductive Step (A : PageAllocator σ) (hhdm : Nat) (la57 : Bool) (top : Nat) : Space σ → Space σ → Prop
  | call {s : Space σ} {i : Nat} {c : Call} : s.phase i = .out → c.Entered la57 →
      Step A hhdm la57 top s { s with phase := Function.update s.phase i (.want c) }
  | acquire {s : Space σ} {i : Nat} {c : Call} : s.phase i = .want c → s.lock = false →
      Step A hhdm la57 top s { s with
        phase := Function.update s.phase i (.inside c (.level (depth la57) top)), lock := true }
  | access {s : Space σ} {i : Nat} {c : Call} {l l' : Local} {h : Heap σ} : s.phase i = .inside c l →
      step A hhdm c l s.heap = some (l', h) →
      Step A hhdm la57 top s { s with
        phase := Function.update s.phase i (.inside c l'), heap := h, log := l.log c s.log }
  | release {s : Space σ} {i : Nat} {c : Call} : s.phase i = .inside c .done →
      Step A hhdm la57 top s { s with phase := Function.update s.phase i .out, lock := false }
  | look {s : Space σ} {i v : Nat} : Canonical la57 v → v % 4096 = 0 →
      Step A hhdm la57 top s { s with walker := Function.update s.walker i (.onWay v (depth la57) top) }
  | load {s : Space σ} {i : Nat} :
      Step A hhdm la57 top s { s with
        walker := Function.update s.walker i ((s.walker i).load hhdm s.heap.mem) }
  /-- The rest of the kernel: it neither frees nor writes the pages of the tables. -/
  | other {s : Space σ} {h : Heap σ} :
      (∀ t, s.Owns hhdm la57 top t → (t, 1) ∈ A.live h.pmm ∧
        ∀ a, OwnsAt hhdm (t, 1) a → h.mem a = s.heap.mem a) →
      Step A hhdm la57 top s { s with heap := h }

/-! ## The invariant -/

variable {T T' : List (Fin 512) → Option Nat} {k t v ret : Nat} {l l' : Local} {s s' : Space σ}

/-- `t` is the table for `v` with `k` levels to go. -/
def Path (la57 : Bool) (T : List (Fin 512) → Option Nat) (v k t : Nat) : Prop :=
  ∃ p, T p = some t ∧ upper v (depth la57) = p ++ upper v k

/-- A page of the allocator that is no table yet. -/
structure Fresh (A : PageAllocator σ) (h : Heap σ) (T : List (Fin 512) → Option Nat) (ret : Nat) : Prop where
  page : ret % 4096 = 0
  bound : ret + 4096 ≤ 2 ^ 52
  live : (ret, 1) ∈ A.live h.pmm
  apart : ∀ q u, T q = some u → Apart (ret, 1) (u, 1)
  source : ∃ s s', A.alloc 1 s = some (ret, s')

/-- What a CPU relies on between two accesses. -/
def At (A : PageAllocator σ) (hhdm : Nat) (la57 : Bool) (h : Heap σ) (T : List (Fin 512) → Option Nat)
    (c : Call) : Local → Prop
  | .level k t => Path la57 T c.virt k t
  | .read k t => Path la57 T c.virt (k + 1) t ∧ child hhdm h.mem t (index c.virt (k + 1)) ≠ none
  | .alloc k t => Path la57 T c.virt (k + 1) t ∧ child hhdm h.mem t (index c.virt (k + 1)) = none
  | .zero k t ret i => Path la57 T c.virt (k + 1) t ∧ child hhdm h.mem t (index c.virt (k + 1)) = none ∧
      Fresh A h T ret ∧ ∀ j : Fin 512, j < i → entryOf hhdm h.mem ret j = 0
  | .link k t ret => Path la57 T c.virt (k + 1) t ∧ child hhdm h.mem t (index c.virt (k + 1)) = none ∧
      Fresh A h T ret ∧ ∀ j, entryOf hhdm h.mem ret j = 0
  | .done => True
  | .dead => True

structure Ok (A : PageAllocator σ) (hhdm : Nat) (la57 : Bool) (top : Nat) (s : Space σ)
    (T : List (Fin 512) → Option Nat) : Prop where
  tables : Tables A hhdm la57 top s.heap T
  excl : Excl s.lock s.phase
  entered : ∀ i c, (s.phase i = .want c ∨ ∃ l, s.phase i = .inside c l) → c.Entered la57
  point : ∀ i c l, s.phase i = .inside c l → At A hhdm la57 s.heap T c l
  mapped : ∀ v, Canonical la57 v → v % 4096 = 0 →
    leaf hhdm la57 s.heap T v = (lastCall s.log v).bind Call.found
  walker : ∀ i v k t, s.walker i = .onWay v k t → Canonical la57 v ∧ v % 4096 = 0 ∧ Path la57 T v k t

theorem Path.length (hP : Path la57 T v k t) : ∃ p, T p = some t ∧ p.length + k = depth la57 ∧
    upper v (depth la57) = p ++ upper v k := by
  obtain ⟨p, hp, hup⟩ := hP
  refine ⟨p, hp, ?_, hup⟩
  have hlen := congrArg List.length hup
  rw [List.length_append, length_upper, length_upper] at hlen
  exact hlen.symm

theorem Path.mono (hP : Path la57 T v k t) (hT : ∀ q t, T q = some t → T' q = some t) : Path la57 T' v k t := by
  obtain ⟨p, hp, hup⟩ := hP
  exact ⟨p, hT p t hp, hup⟩

/-- One level down. -/
theorem Path.down (hP : Path la57 T v (k + 1) t) (hT : Tables A hhdm la57 top h T) {u : Nat}
    (hc : child hhdm h.mem t (index v (k + 1)) = some u) : Path la57 T v k u := by
  obtain ⟨p, hp, hlen, hup⟩ := hP.length
  refine ⟨p ++ [index v (k + 1)], ?_, ?_⟩
  · rw [← hT.tree.child p t _ hp (by omega)]
    exact hc
  · rw [hup, upper, List.append_assoc, List.singleton_append]

/-! ## Changes that keep the tables -/

/-- The tables' pages stay as they are, whatever else happens. -/
structure Keeps (A : PageAllocator σ) (hhdm : Nat) (h h' : Heap σ) (t : Nat) : Prop where
  live : (t, 1) ∈ A.live h'.pmm
  bytes : ∀ a, OwnsAt hhdm (t, 1) a → h'.mem a = h.mem a

theorem Keeps.entryOf (hk : Keeps A hhdm h h' t) (j : Fin 512) :
    Vmm.entryOf hhdm h'.mem t j = Vmm.entryOf hhdm h.mem t j := by
  have hj := j.isLt
  refine read64_congr fun x h1 h2 => hk.bytes x ?_
  unfold OwnsAt
  simp only
  omega

theorem tables_keep (hT : Tables A hhdm la57 top h T) (hk : ∀ p t, T p = some t → Keeps A hhdm h h' t) :
    Tables A hhdm la57 top h' T := by
  refine ⟨hT.tree.congr ?_, ?_, ?_, hT.source⟩
  · intro p t i hp _
    rw [child, (hk p t hp).entryOf]
    rfl
  · intro p t hp
    obtain ⟨h1, h2, -⟩ := hT.page p t hp
    exact ⟨h1, h2, (hk p t hp).live⟩
  · intro p t i hp hl
    rw [(hk p t hp).entryOf]
    exact hT.linked p t i hp hl

theorem leaf_keep (hk : ∀ p t, T p = some t → Keeps A hhdm h h' t) (v : Nat) :
    leaf hhdm la57 h' T v = leaf hhdm la57 h T v := by
  unfold leaf
  cases ht : T (upper v (depth la57)) with
  | none => rfl
  | some t => simp [(hk _ t ht).entryOf]

theorem Fresh.keep (hf : Fresh A h T ret) (hl : (ret, 1) ∈ A.live h'.pmm) : Fresh A h' T ret :=
  ⟨hf.page, hf.bound, hl, hf.apart, hf.source⟩

/-- What a CPU relies on survives changes elsewhere. -/
theorem At.keep (ha : At A hhdm la57 h T c l) (hk : ∀ p t, T p = some t → Keeps A hhdm h h' t)
    (hpage : ∀ ret, l.page = some ret → Keeps A hhdm h h' ret) : At A hhdm la57 h' T c l := by
  have hchild : ∀ {v k t}, Path la57 T v k t → ∀ j, child hhdm h'.mem t j = child hhdm h.mem t j := by
    intro v k t hP j
    obtain ⟨p, hp, -⟩ := hP
    rw [child, (hk p t hp).entryOf]
    rfl
  cases l with
  | level k t => exact ha
  | read k t => exact ⟨ha.1, (hchild ha.1 _).trans_ne ha.2⟩
  | alloc k t => exact ⟨ha.1, (hchild ha.1 _).trans ha.2⟩
  | zero k t ret i =>
    obtain ⟨hP, hc, hf, hz⟩ := ha
    have hret := hpage ret rfl
    exact ⟨hP, (hchild hP _).trans hc, hf.keep hret.live, fun j hj => (hret.entryOf j).trans (hz j hj)⟩
  | link k t ret =>
    obtain ⟨hP, hc, hf, hz⟩ := ha
    have hret := hpage ret rfl
    exact ⟨hP, (hchild hP _).trans hc, hf.keep hret.live, fun j => (hret.entryOf j).trans (hz j)⟩
  | done => trivial
  | dead => trivial

/-- Linking a table of empty entries where there was none. -/
theorem tables_link (hT : Tables A hhdm la57 top h T) {p : List (Fin 512)} {i : Fin 512} (hp : T p = some t)
    (hl : p.length < depth la57) (hc : child hhdm h.mem t i = none) (hf : Fresh A h T ret)
    (hz : ∀ j, entryOf hhdm h.mem ret j = 0) {m : Mem} (hm : m = write64 h.mem (t + hhdm + i * 8) (ret ||| 0b111)) :
    Tables A hhdm la57 top { h with mem := m } (Function.update T (p ++ [i]) (some ret)) ∧
    Extends A hhdm la57 h T { h with mem := m } (Function.update T (p ++ [i]) (some ret)) := by
  obtain ⟨ht, -, -⟩ := hT.page p t hp
  have hfresh : ∀ q, T q ≠ some ret := by
    intro q hq
    have := hf.apart q ret hq
    unfold Apart at this
    simp only at this
    omega
  have hret : ret ||| 0b111 < 2 ^ 64 := by
    have := hf.bound
    rw [or_seven hf.page]
    omega
  have hset : entryOf hhdm m t i = ret ||| 0b111 := by
    rw [hm]
    exact entryOf_write hhdm hret
  have hnew : ∀ j, entryOf hhdm m ret j = 0 := by
    intro j
    have hne : (ret, j) ≠ (t, i) := fun he => hfresh p ((Prod.mk.inj he).1 ▸ hp)
    rw [hm, entryOf_write_ne hhdm ht hf.page hne]
    exact hz j
  have hold : ∀ q u j, T q = some u → (q, j) ≠ (p, i) → entryOf hhdm m u j = entryOf hhdm h.mem u j := by
    intro q u j hq hne
    rw [hm]
    refine entryOf_write_ne hhdm ht (hT.page q u hq).1 ?_
    intro he
    obtain ⟨rfl, rfl⟩ := Prod.mk.inj he
    exact hne (by rw [hT.tree.inj q p u hq hp])
  have hsplit : ∀ q u, Function.update T (p ++ [i]) (some ret) q = some u → u = ret ∨ T q = some u := by
    intro q u hq
    by_cases hqp : q = p ++ [i]
    · rw [hqp, Function.update_self, Option.some.injEq] at hq
      exact .inl hq.symm
    · rw [Function.update_of_ne hqp] at hq
      exact .inr hq
  have hnone : T (p ++ [i]) = none := (hT.tree.child p t i hp hl).symm.trans hc
  refine ⟨⟨?_, ?_, ?_, ?_⟩, ?_, ?_, ?_, ?_⟩
  · refine hT.tree.grow hp hl hc hfresh ?_ ?_ ?_
    · rw [child, hset]
      exact nextTable_or hf.page hf.bound
    · intro j
      rw [child, hnew]
      rfl
    · intro q u j hq hne
      rw [child, hold q u j hq hne]
      rfl
  · intro q u hq
    rcases hsplit q u hq with rfl | hq
    · exact ⟨hf.page, hf.bound, hf.live⟩
    · exact hT.page q u hq
  · intro q u j hq hql
    rcases hsplit q u hq with rfl | hqu
    · exact .inl (hnew j)
    · by_cases hqi : (q, j) = (p, i)
      · obtain ⟨rfl, rfl⟩ := Prod.mk.inj hqi
        obtain rfl := Option.some.inj (hp.symm.trans hqu)
        exact .inr ⟨ret, hf.page, hf.bound, hset⟩
      · rw [hold q u j hqu hqi]
        exact hT.linked q u j hqu hql
  · intro q u hq
    rcases hsplit q u hq with rfl | hq
    · exact hf.source
    · exact hT.source q u hq
  · intro q u hq
    have hqp : q ≠ p ++ [i] := by
      rintro rfl
      rw [hnone] at hq
      cases hq
    rwa [Function.update_of_ne hqp]
  · intro q u j hq hql
    refine hold q u j hq ?_
    intro hqi
    rw [(Prod.mk.inj hqi).1] at hql
    omega
  · intro q u j hq hqn hql
    rcases hsplit q u hq with rfl | hq
    · exact hnew j
    · rw [hqn] at hq
      cases hq
  · intro x hx
    rw [hm]
    exact hT.spared_write hp hx

/-! ## The accesses under the lock -/

/-- The tables after an access, from those before: they may have grown, and the page tables say what
the log says. -/
theorem Ok.advance {i : Nat} (hok : Ok A hhdm la57 top s T) (hi : s.phase i = .inside c l)
    (hT' : Tables A hhdm la57 top h T') (hsub : ∀ q t, T q = some t → T' q = some t)
    (hmap : ∀ v, Canonical la57 v → v % 4096 = 0 →
      leaf hhdm la57 h T' v = (lastCall (l.log c s.log) v).bind Call.found)
    (hat : At A hhdm la57 h T' c l') :
    Ok A hhdm la57 top { s with
      phase := Function.update s.phase i (.inside c l'), heap := h, log := l.log c s.log } T' := by
  refine ⟨hT', hok.excl.stay hi, ?_, ?_, hmap, ?_⟩
  · intro j c' hj
    change Function.update s.phase i _ j = _ ∨ ∃ l, Function.update s.phase i _ j = _ at hj
    by_cases hji : j = i
    · subst hji
      simp only [Function.update_self, reduceCtorEq, Phase.inside.injEq, false_or, exists_and_left,
        exists_eq', and_true] at hj
      exact hj ▸ hok.entered j c (.inr ⟨l, hi⟩)
    · rw [Function.update_of_ne hji] at hj
      exact hok.entered j c' hj
  · intro j c' l'' hj
    obtain ⟨-, hp⟩ := hok.excl.stays hi hj
    cases hp
    exact hat
  · intro j v k t hj
    obtain ⟨hv, hv0, hP⟩ := hok.walker j v k t hj
    exact ⟨hv, hv0, hP.mono hsub⟩

theorem step_leaf (hT : Tables A hhdm la57 top h T) (hc : c.Entered la57) (hP : Path la57 T c.virt 0 t)
    {log : List Call} (hmap : ∀ v, Canonical la57 v → v % 4096 = 0 →
      leaf hhdm la57 h T v = (lastCall log v).bind Call.found) :
    Tables A hhdm la57 top { h with mem := write64 h.mem (entryAddr hhdm t c.virt 0) (c.phys ||| c.flags) } T ∧
    ∀ v, Canonical la57 v → v % 4096 = 0 →
      leaf hhdm la57 { h with mem := write64 h.mem (entryAddr hhdm t c.virt 0) (c.phys ||| c.flags) } T v =
        (lastCall (log ++ [c]) v).bind Call.found := by
  obtain ⟨p, hp, hup⟩ := hP
  rw [upper, List.append_nil] at hup
  obtain ⟨hT', hM⟩ := hT.write_leaf hc.entry (hup ▸ hp) rfl
  refine ⟨hT', ?_⟩
  intro v hv hv0
  have hpl : place la57 v = place la57 c.virt ↔ c.virt = v :=
    ⟨fun he => (place_inj hv hc.canonical hv0 hc.virt he).symm, fun he => by rw [he]⟩
  have hleaf := hM.leaf_eq v
  simp only [hpl, hc.found_eq] at hleaf
  refine hleaf.trans ?_
  rw [lastCall_concat, hmap v hv hv0]
  split_ifs <;> rfl

/-- The test in `get_next_level` is that of the processor. -/
theorem child_none_iff {i : Fin 512} {m : Mem} :
    child hhdm m t i = none ↔ ¬ read64 m (t + hhdm + i * 8) &&& 0x01 ≠ 0 := by
  unfold child nextTable entryOf
  rw [not_not]
  exact ite_eq_left_iff.trans (by simp)

/-- `get_next_level` follows an entry to the same table as the processor. -/
theorem child_read (hT : Tables A hhdm la57 top h T) {p : List (Fin 512)} {i : Fin 512} (hp : T p = some t)
    (hl : p.length < depth la57) (hc : child hhdm h.mem t i ≠ none) :
    child hhdm h.mem t i = some (read64 h.mem (t + hhdm + i * 8) &&& (2 ^ 64 - 1 - vmmPteFlagsMask)) := by
  rcases hT.linked p t i hp hl with he | ⟨u, hu, hub, he⟩
  · simp [child, he, nextTable] at hc
  · have he' : read64 h.mem (t + hhdm + i * 8) = u ||| 0b111 := he
    rw [child, he, he', nextTable_or hu hub, notFlags_or hu hub]

theorem fresh_alloc (hT : Tables A hhdm la57 top h T) (hA : A.Below (2 ^ 52)) {pmm : σ}
    (ha : A.alloc 1 h.pmm = some (ret, pmm)) :
    Fresh A { h with pmm := pmm } T ret ∧ ∀ p t, T p = some t → Keeps A hhdm h { h with pmm := pmm } t := by
  have hlive := A.alloc_live ha
  have hbelow := hA 1 _ _ _ (by decide) ha
  refine ⟨⟨A.alloc_page (by decide) ha, by omega, by rw [hlive]; simp, ?_, _, _, ha⟩, ?_⟩
  · exact fun q u hq => A.alloc_apart (by decide) ha _ (hT.page q u hq).2.2
  · intro p t hp
    refine ⟨?_, fun _ _ => rfl⟩
    rw [hlive]
    exact List.mem_cons_of_mem _ (hT.page p t hp).2.2

/-- A store of the loop in `pmm_alloc` is to no table. -/
theorem keeps_zero (hT : Tables A hhdm la57 top h T) (hf : Fresh A h T ret) {i : Nat} (hi : i < 512) (p : List (Fin 512))
    (t : Nat) (hp : T p = some t) : Keeps A hhdm h { h with mem := write64 h.mem (ret + hhdm + 8 * i) 0 } t := by
  refine ⟨(hT.page p t hp).2.2, fun a ha => write64_out ?_⟩
  have hap := hf.apart p t hp
  unfold Apart at hap
  unfold OwnsAt at ha
  simp only at hap ha
  omega

theorem entryOf_zero {m : Mem} {i : Nat} (hz : ∀ j : Fin 512, j < i → entryOf hhdm m ret j = 0) (j : Fin 512)
    (hj : j < i + 1) : entryOf hhdm (write64 m (ret + hhdm + 8 * i) 0) ret j = 0 := by
  by_cases hji : (j : Nat) = i
  · have haddr : ret + hhdm + j * 8 = ret + hhdm + 8 * i := by omega
    unfold entryOf
    rw [haddr]
    exact read64_write64_of_lt (by decide)
  · have hlt : (j : Nat) < i := by omega
    refine (read64_write64_ne ?_).trans (hz j hlt)
    omega

theorem Ok.access {i : Nat} (hok : Ok A hhdm la57 top s T) (hA : A.Below (2 ^ 52)) (hi : s.phase i = .inside c l)
    (hs : step A hhdm c l s.heap = some (l', h)) :
    ∃ T', Ok A hhdm la57 top { s with
      phase := Function.update s.phase i (.inside c l'), heap := h, log := l.log c s.log } T' := by
  have hT := hok.tables
  have hat := hok.point i c l hi
  have hsame : ∀ q t, T q = some t → T q = some t := fun _ _ hq => hq
  cases l with
  | level k t =>
    cases k with
    | zero =>
      cases hs
      obtain ⟨hT', hmap⟩ := step_leaf hT (hok.entered i c (.inr ⟨_, hi⟩)) hat hok.mapped
      exact ⟨T, hok.advance hi hT' hsame hmap trivial⟩
    | succ k =>
      simp only [step] at hs
      split_ifs at hs with hpresent
      · cases hs
        exact ⟨T, hok.advance hi hT hsame hok.mapped ⟨hat, fun hn => child_none_iff.mp hn hpresent⟩⟩
      · cases hs
        exact ⟨T, hok.advance hi hT hsame hok.mapped ⟨hat, child_none_iff.mpr hpresent⟩⟩
  | read k t =>
    cases hs
    obtain ⟨hP, hc⟩ := hat
    obtain ⟨p, hp, hlen, -⟩ := hP.length
    exact ⟨T, hok.advance hi hT hsame hok.mapped (hP.down hT (child_read hT hp (by omega) hc))⟩
  | alloc k t =>
    obtain ⟨hP, hc⟩ := hat
    cases ha : A.alloc 1 s.heap.pmm with
    | none =>
      simp only [step, ha, Option.some.injEq, Prod.mk.injEq] at hs
      obtain ⟨rfl, rfl⟩ := hs
      exact ⟨T, hok.advance hi hT hsame hok.mapped trivial⟩
    | some r =>
      obtain ⟨ret, pmm⟩ := r
      simp only [step, ha, Option.some.injEq, Prod.mk.injEq] at hs
      obtain ⟨rfl, rfl⟩ := hs
      obtain ⟨hf, hk⟩ := fresh_alloc hT hA ha
      exact ⟨T, hok.advance hi (tables_keep hT hk) hsame hok.mapped ⟨hP, hc, hf, by simp⟩⟩
  | zero k t ret j =>
    obtain ⟨hP, hc, hf, hz⟩ := hat
    obtain ⟨p, hp, -⟩ := hP.length
    simp only [step] at hs
    split_ifs at hs with hj
    · cases hs
      have hk := keeps_zero hT hf hj
      refine ⟨T, hok.advance hi (tables_keep hT hk) hsame ?_ ⟨hP, ?_, hf.keep hf.live, entryOf_zero hz⟩⟩
      · intro v hv hv0
        rw [leaf_keep hk]
        exact hok.mapped v hv hv0
      · rw [child, (hk p t hp).entryOf]
        exact hc
    · cases hs
      have hall : ∀ j, entryOf hhdm s.heap.mem ret j = 0 := by
        intro j'
        refine hz j' ?_
        change ¬ j < 512 at hj
        omega
      exact ⟨T, hok.advance hi hT hsame hok.mapped ⟨hP, hc, hf, hall⟩⟩
  | link k t ret =>
    cases hs
    obtain ⟨hP, hc, hf, hz⟩ := hat
    obtain ⟨p, hp, hlen, hup⟩ := hP.length
    obtain ⟨hT', hE⟩ := tables_link hT hp (by omega) hc hf hz rfl
    refine ⟨_, hok.advance hi hT' hE.tables ?_ ⟨p ++ [index c.virt (k + 1)], Function.update_self .., ?_⟩⟩
    · intro v hv hv0
      exact (hE.leaf_eq v).trans (hok.mapped v hv hv0)
    · rw [hup, upper, List.append_assoc, List.singleton_append]
  | done => cases hs
  | dead => cases hs

/-! ## The walks and the rest -/

/-- A load takes a walk one level down, or ends it with what its page is mapped to now. -/
theorem Path.load (hP : Path la57 T v k t) (hT : Tables A hhdm la57 top h T) :
    (∃ k' u, (Walker.onWay v k t).load hhdm h.mem = .onWay v k' u ∧ Path la57 T v k' u) ∨
    (Walker.onWay v k t).load hhdm h.mem = .done v (walk hhdm la57 h.mem top v) := by
  obtain ⟨p, hp, hlen, hup⟩ := hP.length
  cases k with
  | zero =>
    refine .inr ?_
    rw [upper, List.append_nil] at hup
    rw [hT.walk_eq, leaf, hup, hp]
    rfl
  | succ k =>
    have hchild := hT.tree.child p t (index v (k + 1)) hp (by omega)
    cases hc : child hhdm h.mem t (index v (k + 1)) with
    | some u => exact .inl ⟨k, u, by simp [Walker.load, hc], hP.down hT hc⟩
    | none =>
      refine .inr ?_
      -- no table on the way now, so the whole walk finds nothing now
      have hgone : T (upper v (depth la57)) = none := by
        cases hT' : T (upper v (depth la57)) with
        | none => rfl
        | some u =>
          have happ : upper v (depth la57) = p ++ [index v (k + 1)] ++ upper v k := by
            rw [hup, upper, List.append_assoc, List.singleton_append]
          rw [happ] at hT'
          obtain ⟨w, hw⟩ := hT.tree.of_append hT'
          rw [← hchild, hc] at hw
          cases hw
      rw [hT.walk_eq, leaf, hgone]
      simp [Walker.load, hc]

theorem Ok.outside (hok : Ok A hhdm la57 top s T) {i : Nat} {p : Phase Call Local} {lock : Bool}
    (hp : ∀ c l, p ≠ .inside c l) (hc : ∀ c, p = .want c → c.Entered la57)
    (he : Excl lock (Function.update s.phase i p)) :
    Ok A hhdm la57 top { s with phase := Function.update s.phase i p, lock := lock } T := by
  refine ⟨hok.tables, he, ?_, ?_, hok.mapped, hok.walker⟩
  · intro j c hj
    change Function.update s.phase i p j = _ ∨ ∃ l, Function.update s.phase i p j = _ at hj
    by_cases hji : j = i
    · subst hji
      rw [Function.update_self] at hj
      rcases hj with hj | ⟨l, hj⟩
      · exact hc c hj
      · exact absurd hj (hp c l)
    · rw [Function.update_of_ne hji] at hj
      exact hok.entered j c hj
  · exact fun j c l hj => hok.point j c l (inside_of_outside hp hj)

theorem Ok.acquire (hok : Ok A hhdm la57 top s T) {i : Nat} (hw : s.phase i = .want c) (hl : s.lock = false) :
    Ok A hhdm la57 top { s with
      phase := Function.update s.phase i (.inside c (.level (depth la57) top)), lock := true } T := by
  refine ⟨hok.tables, hok.excl.enter hl, ?_, ?_, hok.mapped, hok.walker⟩
  · intro j c' hj
    change Function.update s.phase i _ j = _ ∨ ∃ l, Function.update s.phase i _ j = _ at hj
    by_cases hji : j = i
    · subst hji
      simp only [Function.update_self, reduceCtorEq, Phase.inside.injEq, false_or, exists_and_left,
        exists_eq', and_true] at hj
      exact hj ▸ hok.entered j c (.inl hw)
    · rw [Function.update_of_ne hji] at hj
      exact hok.entered j c' hj
  · intro j c' l' hj
    obtain ⟨-, hp⟩ := hok.excl.enters hl hj
    cases hp
    exact ⟨[], hok.tables.tree.root, rfl⟩

theorem Ok.look (hok : Ok A hhdm la57 top s T) {i : Nat} {w : Walker}
    (hw : ∀ v k t, w = .onWay v k t → Canonical la57 v ∧ v % 4096 = 0 ∧ Path la57 T v k t) :
    Ok A hhdm la57 top { s with walker := Function.update s.walker i w } T := by
  refine ⟨hok.tables, hok.excl, hok.entered, hok.point, hok.mapped, ?_⟩
  intro j v k t hj
  change Function.update s.walker i w j = _ at hj
  by_cases hji : j = i
  · subst hji
    rw [Function.update_self] at hj
    exact hw v k t hj
  · rw [Function.update_of_ne hji] at hj
    exact hok.walker j v k t hj

/-- Every table can be reached from the top. -/
theorem Ok.owns (hok : Ok A hhdm la57 top s T) {p : List (Fin 512)} (hp : T p = some t) :
    s.Owns hhdm la57 top t := by
  have hlen := hok.tables.tree.length_le hp
  refine .inl ⟨p, hlen, ?_⟩
  rw [hok.tables.tree.descend_eq hok.tables.tree.root (by simpa using hlen), List.nil_append]
  exact hp

theorem Ok.other (hok : Ok A hhdm la57 top s T)
    (hk : ∀ t, s.Owns hhdm la57 top t → Keeps A hhdm s.heap h t) : Ok A hhdm la57 top { s with heap := h } T := by
  have hkT : ∀ p t, T p = some t → Keeps A hhdm s.heap h t := fun p t hp => hk t (hok.owns hp)
  refine ⟨tables_keep hok.tables hkT, hok.excl, hok.entered, ?_, ?_, hok.walker⟩
  · intro i c l hi
    exact (hok.point i c l hi).keep hkT fun ret hr => hk ret (.inr ⟨i, c, l, hi, hr⟩)
  · intro v hv hv0
    rw [leaf_keep hkT]
    exact hok.mapped v hv hv0

theorem Ok.step (hok : Ok A hhdm la57 top s T) (hA : A.Below (2 ^ 52)) (h : Step A hhdm la57 top s s') :
    ∃ T', Ok A hhdm la57 top s' T' := by
  cases h with
  | call _ hc =>
    refine ⟨T, hok.outside (by simp) ?_ (hok.excl.outside (by simp))⟩
    intro c' he
    cases he
    exact hc
  | acquire hw hl => exact ⟨T, hok.acquire hw hl⟩
  | access hi hs => exact hok.access hA hi hs
  | release hi => exact ⟨T, hok.outside (by simp) (by simp) (hok.excl.leave hi (by simp))⟩
  | look hv hv0 =>
    refine ⟨T, hok.look ?_⟩
    intro v' k t he
    cases he
    exact ⟨hv, hv0, [], hok.tables.tree.root, rfl⟩
  | @load i =>
    refine ⟨T, hok.look ?_⟩
    intro v k t hl
    cases hw : s.walker i with
    | idle => simp [hw, Walker.load] at hl
    | done v r => simp [hw, Walker.load] at hl
    | onWay v₀ k₀ t₀ =>
      rw [hw] at hl
      obtain ⟨hv, hv0, hP⟩ := hok.walker i v₀ k₀ t₀ hw
      rcases hP.load hok.tables with ⟨k', u, he, hP'⟩ | he
      · rw [he] at hl
        cases hl
        exact ⟨hv, hv0, hP'⟩
      · rw [he] at hl
        cases hl
  | other hk => exact ⟨T, hok.other fun t ht => ⟨(hk t ht).1, (hk t ht).2⟩⟩

theorem Ok.run (hok : Ok A hhdm la57 top s T) (hA : A.Below (2 ^ 52))
    (h : Relation.ReflTransGen (Step A hhdm la57 top) s s') : ∃ T', Ok A hhdm la57 top s' T' := by
  induction h with
  | refl => exact ⟨T, hok⟩
  | tail _ hs ih =>
    obtain ⟨T₁, hok₁⟩ := ih
    exact hok₁.step hA hs

/-- A pagemap after the calls made while only one CPU ran. -/
def Space.start (h : Heap σ) (calls : List Call) : Space σ := ⟨h, false, fun _ => .out, fun _ => .idle, calls⟩

theorem Ok.start (hA : A.Below (2 ^ 52)) {h₀ h₁ : Heap σ} {calls : List Call}
    (htop : pmmAllocVia A hhdm 1 h₀ = some (top, h₁)) (hcs : ∀ c ∈ calls, c.Entered la57)
    (hm : mapPages A hhdm la57 top calls h₁ = some h) : ∃ T, Ok A hhdm la57 top (Space.start h calls) T := by
  obtain ⟨⟨T, hT⟩, hw⟩ := mapPages_tables hA (Tables.start hA htop) hcs hm
  refine ⟨T, hT, .start false, by simp [Space.start], by simp [Space.start], ?_, by simp [Space.start]⟩
  intro v hv hv0
  have hleaf : leaf hhdm la57 h T v = _ := (hT.walk_eq v).symm.trans (hw v hv hv0)
  refine hleaf.trans ?_
  rw [walk_start hA htop]
  change _ = (lastCall calls v).bind _
  cases lastCall calls v <;> rfl

/-- **Walks see the map.** CPUs map pages of one pagemap, one access at a time; processors walk its tables,
one load at a time and without the lock; the rest of the kernel goes on, away from the tables. In every state
the tables are a tree and translate each page as the last call in the log says, the calls in the order
of their last stores. A walk that ends in this state, wherever the tables were when it began, ends
with that translation. -/
theorem walks_see_the_map (A : PageAllocator σ) (hA : A.Below (2 ^ 52)) (hhdm : Nat) (la57 : Bool)
    (h₀ h₁ h : Heap σ) (top : Nat) (htop : pmmAllocVia A hhdm 1 h₀ = some (top, h₁)) (calls : List Call)
    (hcs : ∀ c ∈ calls, c.Entered la57) (hm : mapPages A hhdm la57 top calls h₁ = some h) (s : Space σ)
    (hrun : Relation.ReflTransGen (Step A hhdm la57 top) (Space.start h calls) s) :
    (∃ T, Tree (depth la57) top (child hhdm s.heap.mem) T) ∧
    (∀ v, Canonical la57 v → v % 4096 = 0 →
      walk hhdm la57 s.heap.mem top v = (lastCall s.log v).bind Call.found) ∧
    ∀ i v k t found, s.walker i = .onWay v k t → (s.walker i).load hhdm s.heap.mem = .done v found →
      found = (lastCall s.log v).bind Call.found := by
  obtain ⟨T₀, hok₀⟩ := Ok.start hA htop hcs hm
  obtain ⟨T, hok⟩ := hok₀.run hA hrun
  have hwalk : ∀ v, Canonical la57 v → v % 4096 = 0 →
      walk hhdm la57 s.heap.mem top v = (lastCall s.log v).bind Call.found := by
    intro v hv hv0
    rw [hok.tables.walk_eq]
    exact hok.mapped v hv hv0
  refine ⟨⟨T, hok.tables.tree⟩, hwalk, ?_⟩
  intro i v k t found hi hl
  obtain ⟨hv, hv0, hP⟩ := hok.walker i v k t hi
  rw [hi] at hl
  rcases hP.load hok.tables with ⟨k', u, he, -⟩ | he
  · rw [he] at hl
    cases hl
  · rw [he] at hl
    cases hl
    exact hwalk v hv hv0

/-- The accesses of a call that nobody disturbs. -/
theorem call_runs {i : Nat} {b : Local × Heap σ} (hr : Runs A hhdm c (l, s.heap) b) (hi : s.phase i = .inside c l) :
    ∃ log, Relation.ReflTransGen (Step A hhdm la57 top) s
      { s with phase := Function.update s.phase i (.inside c b.1), heap := b.2, log := log } := by
  induction hr with
  | refl =>
    refine ⟨s.log, ?_⟩
    rw [← hi, Function.update_eq_self]
  | @tail b b' _ hs ih =>
    obtain ⟨log, hrun⟩ := ih
    have hstep : Step A hhdm la57 top
        { s with phase := Function.update s.phase i (.inside c b.1), heap := b.2, log := log } _ :=
      .access (i := i) (Function.update_self ..) hs
    simp only [Function.update_idem] at hstep
    exact ⟨_, hrun.tail hstep⟩

/-- CPU 0 has taken the lock for a call. -/
def entering (h : Heap σ) (top : Nat) (c : Call) : Space σ :=
  { Space.start h [] with
    phase := Function.update (fun _ => .out) 0 (.inside c (.level (depth true) top)), lock := true }

theorem entering_reached (h : Heap σ) (hc : c.Entered true) :
    Relation.ReflTransGen (Step A hhdm true top) (Space.start h []) (entering h top c) := by
  have hcall : Step A hhdm true top (Space.start h []) _ := .call (i := 0) rfl hc
  have hlock : Step A hhdm true top
      { Space.start h [] with phase := Function.update (fun _ => .out) 0 (.want c) } _ :=
    .acquire (i := 0) (c := c) rfl rfl
  simp only [Function.update_idem] at hlock
  exact .tail (.single hcall) hlock

/-- CPU 0 has mapped a page in an empty pagemap. -/
theorem walks_see_the_map_one_page : ∃ top h₁ s,
    pmmAllocVia bump 0 1 ⟨[], fun _ => 0⟩ = some (top, h₁) ∧
    Relation.ReflTransGen (Step bump 0 true top) (Space.start h₁ []) s ∧
    s.phase 0 = .inside ⟨0xffff800000001000, 0x5000, 3⟩ .done ∧
    walk 0 true s.heap.mem top 0xffff800000001000 = (lastCall s.log 0xffff800000001000).bind Call.found := by
  obtain ⟨top, h₁, h, h1, h2⟩ := onePage_some 3 (by decide +kernel)
  have hc : Call.Entered true ⟨0xffff800000001000, 0x5000, 3⟩ :=
    ⟨by decide, by decide, by decide, by decide⟩
  have hmap : Runs bump 0 ⟨0xffff800000001000, 0x5000, 3⟩ (.level (depth true) top, h₁) (.done, h) := by
    refine runs_vmmMapPage ?_
    simpa only [mapPages, List.foldlM_cons, List.foldlM_nil, Option.bind_eq_bind, Option.pure_def,
      Option.bind_fun_some] using h2
  obtain ⟨log, hbody⟩ := call_runs (i := 0) (s := entering h₁ top ⟨0xffff800000001000, 0x5000, 3⟩) hmap rfl
  have hrun := (entering_reached h₁ hc).trans hbody
  refine ⟨top, h₁, _, h1, hrun, rfl, ?_⟩
  exact (walks_see_the_map bump bump_below 0 true _ h₁ h₁ top h1 [] (by simp) rfl _ hrun).2.1
    0xffff800000001000 (by decide) (by decide)

end Cynix.Mm.VmmSmp
