import Mathlib
import Cynix.Base.Progress

/-! # Bringing the CPUs up (`sys/mp.c`, `sys/cpu.c`)

`mp_init` on the bootstrap processor and `cpu_init` on every CPU, store by
store and in any interleaving. The other CPUs wait in the bootloader for their
`goto_address`; `mp_init` waits for each of them to come online before it goes
on to the next. A pointer is the number of the allocation that it came from, so
that no two blocks are the same; 0 is `NULL`. -/
namespace Cynix.Sys.BringUp

open Cynix.Base.Progress

/-- The fields of `struct cpu_local` with those of its `tss` and `idle_thread`. -/
structure Record where
  cpuNumber : Nat
  lapicId : Nat
  isBsp : Bool
  online : Bool
  lapicTimerFreq : Nat
  rsp0 : Nat
  ist1 : Nat
  commonIntStack : Nat
  abortStack : Nat
  /-- `idle_thread.self`: the record it is part of. -/
  idleSelf : Nat
  /-- `idle_thread.running_on`. -/
  runningOn : Nat
  deriving DecidableEq

/-- What `alloc` hands out. -/
def Record.zero : Record := ⟨0, 0, false, false, 0, 0, 0, 0, 0, 0, 0⟩

/-- The registers of a CPU that `cpu_init` sets; pointers into a record are the record's. -/
structure Cpu where
  tr : Nat
  kernelPagemap : Bool
  gsBase : Nat
  kernelGsBase : Nat
  lapicEnabled : Bool
  deriving DecidableEq

def Cpu.reset : Cpu := ⟨0, false, 0, 0, false⟩

/-- The fields of `struct limine_mp_info` that change. -/
structure Info where
  extraArgument : Nat
  gotoAddress : Bool

/-- Where `mp_init` is. -/
inductive Pc where
  | alloc (i : Nat)
  /-- The stores to and about the record before `cpu_init` may start, by their number. -/
  | prep (p i a : Nat)
  | call (i : Nat)
  | wait (i a : Nat)
  | done

inductive Run where
  | parked
  /-- In `cpu_init` on the record, before the step of this number. -/
  | init (k a : Nat)
  | up

structure Machine where
  recs : Nat → Record
  cpus : Nat → Cpu
  infos : Nat → Info
  cpuLocals : List Nat
  allocs : Nat
  fpuStorageSize : Nat
  pc : Pc
  run : Nat → Run
  mpInitDone : Bool

/-- What the bootloader and the hardware say; LAPIC IDs are unique. -/
structure Config where
  cpuCount : Nat
  lapicId : Nat → Nat
  bspLapicId : Nat
  distinct : ∀ i j, i < cpuCount → j < cpuCount → lapicId i = lapicId j → i = j
  /-- The top of a stack. -/
  top : Nat → Nat
  freq : Nat → Nat
  fpu : Nat → Nat

def Config.isBsp (C : Config) (i : Nat) : Bool := C.lapicId i == C.bspLapicId

variable (C : Config)

def Machine.setRec (s : Machine) (a : Nat) (r : Record) : Machine := { s with recs := Function.update s.recs a r }
def Machine.setCpu (s : Machine) (i : Nat) (c : Cpu) : Machine := { s with cpus := Function.update s.cpus i c }
def Machine.setInfo (s : Machine) (i : Nat) (f : Info) : Machine := { s with infos := Function.update s.infos i f }
def Machine.setRun (s : Machine) (i : Nat) (r : Run) : Machine := { s with run := Function.update s.run i r }

/-- `cpu_init`, step by step, on CPU `i` with the record `a`. -/
def cpuInitStep (i a : Nat) (s : Machine) : Nat → Machine
  | 0 => s.setRec a { s.recs a with lapicId := C.lapicId i }
  -- `gdt_reload`, `idt_reload` and `gdt_load_tss`
  | 1 => s.setCpu i { s.cpus i with tr := a }
  | 2 => s.setCpu i { s.cpus i with kernelPagemap := true }
  | 3 => { s.setRec a { s.recs a with commonIntStack := s.allocs } with allocs := s.allocs + 1 }
  | 4 => s.setRec a { s.recs a with rsp0 := C.top (s.recs a).commonIntStack }
  | 5 => { s.setRec a { s.recs a with abortStack := s.allocs } with allocs := s.allocs + 1 }
  | 6 => s.setRec a { s.recs a with ist1 := C.top (s.recs a).abortStack }
  | 7 => s.setRec a { s.recs a with idleSelf := a }
  | 8 => s.setRec a { s.recs a with runningOn := (s.recs a).cpuNumber }
  | 9 => s.setCpu i { s.cpus i with gsBase := a }
  | 10 => s.setCpu i { s.cpus i with kernelGsBase := a }
  | 11 => { s with fpuStorageSize := C.fpu i }
  | 12 => s.setCpu i { s.cpus i with lapicEnabled := true }
  | 13 => s.setRec a { s.recs a with lapicTimerFreq := C.freq i }
  | _ => s.setRec a { s.recs a with online := true }

def cpuInitSteps : Nat := 15

inductive Move : Machine → Machine → Prop
  | alloc {s : Machine} {i : Nat} : s.pc = .alloc i → i < C.cpuCount →
      Move s { s.setRec s.allocs .zero with allocs := s.allocs + 1, pc := .prep 0 i s.allocs }
  | finish {s : Machine} {i : Nat} : s.pc = .alloc i → ¬ i < C.cpuCount →
      Move s { s with mpInitDone := true, pc := .done }
  | push {s : Machine} {i a : Nat} : s.pc = .prep 0 i a →
      Move s { s with cpuLocals := s.cpuLocals ++ [a], pc := .prep 1 i a }
  | extra {s : Machine} {i a : Nat} : s.pc = .prep 1 i a →
      Move s { s.setInfo i { s.infos i with extraArgument := a } with pc := .prep 2 i a }
  | number {s : Machine} {i a : Nat} : s.pc = .prep 2 i a →
      Move s { s.setRec a { s.recs a with cpuNumber := i } with pc := .prep 3 i a }
  | self {s : Machine} {i a : Nat} : s.pc = .prep 3 i a → C.isBsp i = true →
      Move s { s.setRec a { s.recs a with isBsp := true } with pc := .prep 4 i a }
  | enter {s : Machine} {i a : Nat} : s.pc = .prep 4 i a →
      Move s { s.setRun i (.init 0 (s.infos i).extraArgument) with pc := .call i }
  | goto {s : Machine} {i a : Nat} : s.pc = .prep 3 i a → C.isBsp i = false →
      Move s { s.setInfo i { s.infos i with gotoAddress := true } with pc := .wait i a }
  | wake {s : Machine} {i : Nat} : s.run i = .parked → (s.infos i).gotoAddress = true →
      Move s (s.setRun i (.init 0 (s.infos i).extraArgument))
  | init {s : Machine} {i k a : Nat} : s.run i = .init k a → k < cpuInitSteps →
      Move s ((cpuInitStep C i a s k).setRun i (.init (k + 1) a))
  | back {s : Machine} {i a : Nat} : s.pc = .call i → s.run i = .init cpuInitSteps a → (s.recs a).isBsp = true →
      Move s { s.setRun i .up with pc := .alloc (i + 1) }
  | stay {s : Machine} {i a : Nat} : s.run i = .init cpuInitSteps a → (s.recs a).isBsp = false →
      Move s (s.setRun i .up)
  | seen {s : Machine} {i a : Nat} : s.pc = .wait i a → (s.recs a).online = true →
      Move s { s with pc := .alloc (i + 1) }

/-- Someone else allocates memory. -/
inductive Other : Machine → Machine → Prop
  | alloc {s : Machine} : Other s { s with allocs := s.allocs + 1 }

def Step (s s' : Machine) : Prop := Move C s s' ∨ Other s s'

/-- `cpu_current` on CPU `i`, with interrupts off. -/
def cpuCurrent (s : Machine) (i : Nat) : Option Nat := s.cpuLocals[(s.recs (s.cpus i).gsBase).runningOn]?

/-- The machine when `mp_init` starts. -/
def boot : Machine where
  recs := fun _ => .zero
  cpus := fun _ => .reset
  infos := fun _ => ⟨0, false⟩
  cpuLocals := []
  allocs := 1
  fpuStorageSize := 0
  pc := .alloc 0
  run := fun _ => .parked
  mpInitDone := false

/-! ## One CPU's progress -/

/-- The record after `k` steps of `cpu_init`, with the stacks `c` and `b`. -/
def recAt (i a c b k : Nat) : Record where
  cpuNumber := i
  lapicId := if 0 < k then C.lapicId i else 0
  isBsp := C.isBsp i
  online := decide (14 < k)
  lapicTimerFreq := if 13 < k then C.freq i else 0
  rsp0 := if 4 < k then C.top c else 0
  ist1 := if 6 < k then C.top b else 0
  commonIntStack := if 3 < k then c else 0
  abortStack := if 5 < k then b else 0
  idleSelf := if 7 < k then a else 0
  runningOn := if 8 < k then i else 0

def cpuAt (a k : Nat) : Cpu where
  tr := if 1 < k then a else 0
  kernelPagemap := decide (2 < k)
  gsBase := if 9 < k then a else 0
  kernelGsBase := if 10 < k then a else 0
  lapicEnabled := decide (12 < k)

/-- The blocks of a CPU that `allocs` allocations have been made for so far. -/
structure Blocks (allocs a c b k : Nat) : Prop where
  record : a < allocs
  common : 3 < k → a < c ∧ c < allocs
  abort : 5 < k → c < b ∧ b < allocs

variable {C} {s s' : Machine} {i j a c b k : Nat}

theorem Blocks.mono {allocs allocs' : Nat} (h : Blocks allocs a c b k) (hle : allocs ≤ allocs') : Blocks allocs' a c b k :=
  ⟨h.record.trans_le hle, fun hk => ⟨(h.common hk).1, (h.common hk).2.trans_le hle⟩,
    fun hk => ⟨(h.abort hk).1, (h.abort hk).2.trans_le hle⟩⟩

/-- CPU `i` has made `k` steps of `cpu_init` on its own record. -/
structure Ready (C : Config) (s : Machine) (i a k : Nat) : Prop where
  extra : (s.infos i).extraArgument = a
  listed : s.cpuLocals[i]? = some a
  cpu : s.cpus i = cpuAt a k
  record : ∃ c b, s.recs a = recAt C i a c b k ∧ Blocks s.allocs a c b k

theorem Ready.keep (h : Ready C s i a k) (hi : s'.infos i = s.infos i) (hl : s'.cpuLocals[i]? = s.cpuLocals[i]?)
    (hc : s'.cpus i = s.cpus i) (hr : s'.recs a = s.recs a) (ha : s.allocs ≤ s'.allocs) : Ready C s' i a k := by
  obtain ⟨c, b, hrec, hb⟩ := h.record
  exact ⟨hi ▸ h.extra, hl.trans h.listed, hc.trans h.cpu, c, b, hr.trans hrec, hb.mono ha⟩

/-- What one step of `cpu_init` leaves alone. -/
theorem cpuInitStep_frame (C : Config) (i a : Nat) (s : Machine) (k : Nat) :
    (cpuInitStep C i a s k).infos = s.infos ∧ (cpuInitStep C i a s k).cpuLocals = s.cpuLocals ∧
    (cpuInitStep C i a s k).pc = s.pc ∧ (cpuInitStep C i a s k).run = s.run ∧
    (cpuInitStep C i a s k).mpInitDone = s.mpInitDone ∧ s.allocs ≤ (cpuInitStep C i a s k).allocs ∧
    (∀ j, j ≠ i → (cpuInitStep C i a s k).cpus j = s.cpus j) ∧
    ∀ b, b ≠ a → (cpuInitStep C i a s k).recs b = s.recs b := by
  unfold cpuInitStep
  split
  all_goals
    refine ⟨rfl, rfl, rfl, rfl, rfl, ?_, ?_, ?_⟩
    · simp [Machine.setRec, Machine.setCpu]
    · intro j hj
      first | rfl | exact Function.update_of_ne hj ..
    · intro b hb
      first | rfl | exact Function.update_of_ne hb ..

theorem Blocks.next {allocs allocs' : Nat} (h : Blocks allocs a c b k) (hle : allocs ≤ allocs') (h3 : k ≠ 3) (h5 : k ≠ 5) :
    Blocks allocs' a c b (k + 1) := by
  have hm := h.mono hle
  exact ⟨hm.record, fun hk => hm.common (by omega), fun hk => hm.abort (by omega)⟩

/-- The record after the next step. -/
theorem record_init (hrec : s.recs a = recAt C i a c b k) (hb : Blocks s.allocs a c b k) (hk : k < cpuInitSteps) :
    ∃ c b, (cpuInitStep C i a s k).recs a = recAt C i a c b (k + 1) ∧ Blocks (cpuInitStep C i a s k).allocs a c b (k + 1) := by
  obtain ⟨-, -, -, -, -, hallocs, -, -⟩ := cpuInitStep_frame C i a s k
  by_cases h3 : k = 3
  · subst h3
    refine ⟨s.allocs, b, ?_, ?_⟩
    · simp [cpuInitStep, Machine.setRec, hrec, recAt]
    · exact ⟨hb.record.trans_le hallocs, fun _ => ⟨hb.record, Nat.lt_succ_self _⟩, fun h => by omega⟩
  · by_cases h5 : k = 5
    · subst h5
      refine ⟨c, s.allocs, ?_, ?_⟩
      · simp [cpuInitStep, Machine.setRec, hrec, recAt]
      · obtain ⟨h1, h2⟩ := hb.common (by omega)
        exact ⟨hb.record.trans_le hallocs, fun _ => ⟨h1, h2.trans_le hallocs⟩, fun _ => ⟨h2, Nat.lt_succ_self _⟩⟩
    · refine ⟨c, b, ?_, hb.next hallocs h3 h5⟩
      unfold cpuInitSteps at hk
      interval_cases k <;> simp [cpuInitStep, Machine.setRec, Machine.setCpu, hrec, recAt] at h3 h5 ⊢

theorem cpu_init (hcpu : s.cpus i = cpuAt a k) (hk : k < cpuInitSteps) :
    (cpuInitStep C i a s k).cpus i = cpuAt a (k + 1) := by
  unfold cpuInitSteps at hk
  interval_cases k <;> simp [cpuInitStep, Machine.setRec, Machine.setCpu, hcpu, cpuAt]

theorem Ready.init (h : Ready C s i a k) (hk : k < cpuInitSteps) : Ready C (cpuInitStep C i a s k) i a (k + 1) := by
  obtain ⟨hinfo, hlocals, -⟩ := cpuInitStep_frame C i a s k
  obtain ⟨c, b, hrec, hb⟩ := h.record
  exact ⟨hinfo ▸ h.extra, hlocals ▸ h.listed, cpu_init h.cpu hk, record_init hrec hb hk⟩

/-! ## The invariant -/

/-- The CPU that `mp_init` is at. -/
def Pc.index (C : Config) : Pc → Nat
  | .alloc i => i
  | .prep _ i _ => i
  | .call i => i
  | .wait i _ => i
  | .done => C.cpuCount

structure Untouched (s : Machine) (j : Nat) : Prop where
  parked : s.run j = .parked
  waiting : (s.infos j).gotoAddress = false
  cpu : s.cpus j = .reset

/-- The record before `cpu_init`. -/
def prepRec (i p : Nat) : Record := { Record.zero with cpuNumber := if 3 ≤ p then i else 0, isBsp := decide (4 ≤ p) }

structure Prep (C : Config) (s : Machine) (p i a : Nat) : Prop where
  bound : p ≤ 4
  count : i < C.cpuCount
  untouched : Untouched s i
  made : a < s.allocs
  older : ∀ (j b : Nat), j < i → s.cpuLocals[j]? = some b → (s.recs b).abortStack < a
  record : s.recs a = prepRec i p
  length : s.cpuLocals.length = i + min p 1
  listed : 1 ≤ p → s.cpuLocals[i]? = some a
  extra : 2 ≤ p → (s.infos i).extraArgument = a
  isBsp : 4 ≤ p → C.isBsp i = true

/-- The CPU that `mp_init` waits for: still in the bootloader, in `cpu_init`, or online. -/
def Waited (s : Machine) (i a k : Nat) : Prop :=
  s.run i = .parked ∧ (s.infos i).gotoAddress = true ∧ k = 0 ∨ s.run i = .init k a ∨ s.run i = .up ∧ k = cpuInitSteps

def Now (C : Config) (s : Machine) : Pc → Prop
  | .alloc i => Untouched s i ∧ s.cpuLocals.length = i ∧ i ≤ C.cpuCount
  | .prep p i a => Prep C s p i a
  | .call i => C.isBsp i = true ∧ s.cpuLocals.length = i + 1 ∧ i < C.cpuCount ∧
      ∃ k a, k ≤ cpuInitSteps ∧ s.run i = .init k a ∧ Ready C s i a k
  | .wait i a => C.isBsp i = false ∧ s.cpuLocals.length = i + 1 ∧ i < C.cpuCount ∧
      ∃ k, k ≤ cpuInitSteps ∧ Waited s i a k ∧ Ready C s i a k
  | .done => Untouched s C.cpuCount ∧ s.cpuLocals.length = C.cpuCount

/-- A CPU that has come online. -/
def Online (C : Config) (s : Machine) (j : Nat) : Prop :=
  ∃ a, Ready C s j a cpuInitSteps ∧ (s.run j = .init cpuInitSteps a ∧ C.isBsp j = false ∨ s.run j = .up)

structure Ok (C : Config) (s : Machine) : Prop where
  now : Now C s s.pc
  before : ∀ j, j < s.pc.index C → Online C s j
  after : ∀ j, s.pc.index C < j → Untouched s j
  order : ∀ (j j' b b' : Nat), j < j' → s.cpuLocals[j]? = some b → s.cpuLocals[j']? = some b' →
    (s.recs b).abortStack < b'
  finished : s.mpInitDone = true → s.pc = .done

/-- The blocks of a CPU that is online, in the order of their allocation. -/
theorem Ready.blocks (h : Ready C s i a cpuInitSteps) :
    a < (s.recs a).commonIntStack ∧ (s.recs a).commonIntStack < (s.recs a).abortStack ∧
      (s.recs a).abortStack < s.allocs := by
  obtain ⟨c, b, hrec, hb⟩ := h.record
  obtain ⟨h1, -⟩ := hb.common (by decide)
  obtain ⟨h2, h3⟩ := hb.abort (by decide)
  have hc : (s.recs a).commonIntStack = c := by rw [hrec]; rfl
  have hab : (s.recs a).abortStack = b := by rw [hrec]; rfl
  rw [hc, hab]
  exact ⟨h1, h2, h3⟩

theorem Online.keep (h : Online C s j) (hi : s'.infos j = s.infos j) (hl : s'.cpuLocals[j]? = s.cpuLocals[j]?)
    (hc : s'.cpus j = s.cpus j) (hr : ∀ b, s.cpuLocals[j]? = some b → s'.recs b = s.recs b)
    (ha : s.allocs ≤ s'.allocs) (hrun : s'.run j = s.run j) : Online C s' j := by
  obtain ⟨a, hready, hup⟩ := h
  rw [← hrun] at hup
  exact ⟨a, hready.keep hi hl hc (hr a hready.listed) ha, hup⟩

/-- The records of the CPUs before this one are other records. -/
theorem Ok.ne_record (hok : Ok C s) (hj : j < s.pc.index C) {b : Nat} (hb : s.cpuLocals[j]? = some b)
    (ha : (s.recs b).abortStack < a) : b ≠ a := by
  obtain ⟨b', hready, -⟩ := hok.before j hj
  obtain rfl : b' = b := Option.some.inj (hready.listed.symm.trans hb)
  have := hready.blocks
  omega

theorem Untouched.keep (h : Untouched s j) (hrun : s'.run j = s.run j) (hi : s'.infos j = s.infos j)
    (hc : s'.cpus j = s.cpus j) : Untouched s' j :=
  ⟨hrun.trans h.parked, hi ▸ h.waiting, hc.trans h.cpu⟩

/-! ## The steps of `mp_init` -/

theorem Ok.nowAt {pc : Pc} (hok : Ok C s) (hpc : s.pc = pc) : Now C s pc :=
  hpc ▸ hok.now

theorem Ok.prep {p : Nat} (hok : Ok C s) (hpc : s.pc = .prep p i a) : Prep C s p i a :=
  hok.nowAt hpc

/-- A store to what belongs to the CPU that `mp_init` is at. -/
theorem update_off {β : Type} {f : Nat → β} {x : β} (hindex : s.pc.index C = i) (hj : j ≠ s.pc.index C) :
    Function.update f i x j = f j :=
  Function.update_of_ne (hindex ▸ hj) ..

theorem Ok.alloc (hok : Ok C s) (hpc : s.pc = .alloc i) (hi : i < C.cpuCount) :
    Ok C { s.setRec s.allocs .zero with allocs := s.allocs + 1, pc := .prep 0 i s.allocs } := by
  have hnow := hok.now
  have hbefore := hok.before
  have hafter := hok.after
  rw [hpc] at hnow hbefore hafter
  obtain ⟨hunt, hlen, -⟩ := hnow
  -- no record in use is the new one
  have hold : ∀ {j b}, s.cpuLocals[j]? = some b → j < i ∧ (s.recs b).abortStack < s.allocs ∧
      Function.update s.recs s.allocs .zero b = s.recs b := by
    intro j b hb
    have hj : j < i := by
      have := (List.getElem?_eq_some_iff.mp hb).1
      omega
    obtain ⟨b', hready, -⟩ := hbefore j hj
    obtain rfl : b' = b := Option.some.inj (hready.listed.symm.trans hb)
    obtain ⟨h1, h2, h3⟩ := hready.blocks
    exact ⟨hj, h3, Function.update_of_ne (by omega) ..⟩
  refine ⟨⟨by decide, hi, hunt.keep rfl rfl rfl, Nat.lt_succ_self _, ?_, ?_, hlen, by omega, by omega, by omega⟩,
    ?_, fun j hj => (hafter j hj).keep rfl rfl rfl, ?_, ?_⟩
  · intro j b hj hb
    obtain ⟨-, hlt, hrec⟩ := hold hb
    change (Function.update s.recs s.allocs .zero b).abortStack < s.allocs
    rwa [hrec]
  · exact Function.update_self ..
  · intro j hj
    exact (hbefore j hj).keep rfl rfl rfl (fun b hb => (hold hb).2.2) (Nat.le_succ _) rfl
  · intro j j' b b' hjj hb hb'
    change (Function.update s.recs s.allocs .zero b).abortStack < b'
    rw [(hold hb).2.2]
    exact hok.order j j' b b' hjj hb hb'
  · intro hd
    have := hok.finished hd
    rw [hpc] at this
    cases this

theorem Ok.finish (hok : Ok C s) (hpc : s.pc = .alloc i) (hi : ¬ i < C.cpuCount) :
    Ok C { s with mpInitDone := true, pc := .done } := by
  have hnow := hok.now
  have hbefore := hok.before
  have hafter := hok.after
  rw [hpc] at hnow hbefore hafter
  obtain ⟨hunt, hlen, hle⟩ := hnow
  obtain rfl : i = C.cpuCount := by omega
  exact ⟨⟨hunt.keep rfl rfl rfl, hlen⟩, fun j hj => (hbefore j hj).keep rfl rfl rfl (fun _ _ => rfl) le_rfl rfl,
    fun j hj => (hafter j hj).keep rfl rfl rfl, hok.order, fun _ => rfl⟩

/-- A step that concerns only the CPU that `mp_init` is at, once its record is listed. -/
theorem Ok.local (hok : Ok C s) (hpc : s.pc ≠ .done) (hindex : s'.pc.index C = s.pc.index C)
    (hlen : s.cpuLocals.length = s.pc.index C + 1) (hlist : s.cpuLocals[s.pc.index C]? = some a)
    (hlocals : s'.cpuLocals = s.cpuLocals) (hinfos : ∀ j, j ≠ s.pc.index C → s'.infos j = s.infos j)
    (hcpus : ∀ j, j ≠ s.pc.index C → s'.cpus j = s.cpus j) (hruns : ∀ j, j ≠ s.pc.index C → s'.run j = s.run j)
    (hrecs : ∀ b, b ≠ a → s'.recs b = s.recs b) (hallocs : s.allocs ≤ s'.allocs)
    (hdone : s'.mpInitDone = s.mpInitDone) (hnow : Now C s' s'.pc) : Ok C s' := by
  have hold : ∀ {j b}, j < s.pc.index C → s.cpuLocals[j]? = some b → s'.recs b = s.recs b := by
    intro j b hj hb
    exact hrecs b (hok.ne_record hj hb (hok.order j _ b a hj hb hlist))
  refine ⟨hnow, ?_, ?_, ?_, ?_⟩
  · intro j hj
    rw [hindex] at hj
    have hne := Nat.ne_of_lt hj
    exact (hok.before j hj).keep (hinfos j hne) (by rw [hlocals]) (hcpus j hne) (fun b hb => hold hj hb) hallocs
      (hruns j hne)
  · intro j hj
    rw [hindex] at hj
    have hne := Nat.ne_of_gt hj
    exact (hok.after j hj).keep (hruns j hne) (hinfos j hne) (hcpus j hne)
  · intro j j' b b' hjj hb hb'
    rw [hlocals] at hb hb'
    have hj' := (List.getElem?_eq_some_iff.mp hb').1
    rw [hold (by omega) hb]
    exact hok.order j j' b b' hjj hb hb'
  · intro hd
    rw [hdone] at hd
    exact absurd (hok.finished hd) hpc

theorem Ok.push (hok : Ok C s) (hpc : s.pc = .prep 0 i a) :
    Ok C { s with cpuLocals := s.cpuLocals ++ [a], pc := .prep 1 i a } := by
  have hnow := hok.now
  have hbefore := hok.before
  have hafter := hok.after
  rw [hpc] at hnow hbefore hafter
  have hprep : Prep C s 0 i a := hnow
  have hlen : s.cpuLocals.length = i := by simpa using hprep.length
  have hold : ∀ {j}, j < i → (s.cpuLocals ++ [a])[j]? = s.cpuLocals[j]? :=
    fun hj => List.getElem?_append_left (by omega)
  have hlast : (s.cpuLocals ++ [a])[i]? = some a := by simp [← hlen]
  refine ⟨⟨by decide, hprep.count, hprep.untouched.keep rfl rfl rfl, hprep.made, ?_, hprep.record, by simp [hlen],
    fun _ => hlast, by omega, by omega⟩, ?_, fun j hj => (hafter j hj).keep rfl rfl rfl, ?_, ?_⟩
  · intro j b hj hb
    exact hprep.older j b hj ((hold hj).symm.trans hb)
  · intro j hj
    exact (hbefore j hj).keep rfl (hold hj) rfl (fun _ _ => rfl) le_rfl rfl
  · intro j j' b b' hjj hb hb'
    change (s.cpuLocals ++ [a])[j]? = some b at hb
    change (s.cpuLocals ++ [a])[j']? = some b' at hb'
    have hj' : j' < i + 1 := by
      have := (List.getElem?_eq_some_iff.mp hb').1
      simpa [hlen] using this
    rw [hold (by omega)] at hb
    rcases Nat.lt_succ_iff_lt_or_eq.mp hj' with hlt | rfl
    · rw [hold hlt] at hb'
      exact hok.order j j' b b' hjj hb hb'
    · obtain rfl : a = b' := Option.some.inj (hlast.symm.trans hb')
      exact hprep.older j b hjj hb
  · intro hd
    have := hok.finished hd
    rw [hpc] at this
    cases this

/-- A step of `mp_init` that changes the record or the information of its own CPU only. -/
theorem Ok.prepare {p : Nat} (hok : Ok C s) (hpc : s.pc = .prep p i a) (p' : Nat) (r : Record) (f : Info) (hp : 1 ≤ p)
    (hp' : p ≤ p') (hbound : p' ≤ 4) (hr : r = prepRec i p') (hf : f.gotoAddress = false)
    (hf' : 2 ≤ p' → f.extraArgument = a) (hbsp : 4 ≤ p' → C.isBsp i = true) :
    Ok C { (s.setRec a r).setInfo i f with pc := .prep p' i a } := by
  have hprep := hok.prep hpc
  have hindex : s.pc.index C = i := by rw [hpc]; rfl
  have hlen : s.cpuLocals.length = i + 1 := by
    have := hprep.length
    omega
  have hlist := hprep.listed hp
  refine hok.local (a := a) (by rw [hpc]; intro h; cases h) hindex.symm (by rw [hindex, hlen]) (by rw [hindex, hlist]) rfl
    ?_ (fun _ _ => rfl) (fun _ _ => rfl) (fun b hb => Function.update_of_ne hb ..) le_rfl rfl ?_
  · exact fun j hj => update_off hindex hj
  refine ⟨hbound, hprep.count, ⟨hprep.untouched.parked, ?_, hprep.untouched.cpu⟩, hprep.made, ?_, ?_, ?_,
    fun _ => hlist, ?_, hbsp⟩
  · change (Function.update s.infos i f i).gotoAddress = false
    rwa [Function.update_self]
  · intro j b hj hb
    have hlt := hprep.older j b hj hb
    change (Function.update s.recs a r b).abortStack < a
    rwa [Function.update_of_ne (hok.ne_record (by rw [hindex]; exact hj) hb hlt)]
  · exact (Function.update_self ..).trans hr
  · change s.cpuLocals.length = i + min p' 1
    omega
  · intro h2
    change (Function.update s.infos i f i).extraArgument = a
    rw [Function.update_self]
    exact hf' h2

theorem Ok.extra (hok : Ok C s) (hpc : s.pc = .prep 1 i a) :
    Ok C { s.setInfo i { s.infos i with extraArgument := a } with pc := .prep 2 i a } := by
  have hprep := hok.prep hpc
  have hsame : s.setRec a (s.recs a) = s := by simp [Machine.setRec]
  have := hok.prepare hpc 2 (s.recs a) { s.infos i with extraArgument := a } le_rfl (by decide) (by decide)
    (hprep.record.trans rfl) hprep.untouched.waiting (fun _ => rfl) (by omega)
  rwa [hsame] at this

theorem Ok.store {p p' : Nat} {r : Record} (hok : Ok C s) (hpc : s.pc = .prep p i a) (hp : 2 ≤ p) (hp' : p ≤ p')
    (hbound : p' ≤ 4) (hr : r = prepRec i p') (hbsp : 4 ≤ p' → C.isBsp i = true) :
    Ok C { s.setRec a r with pc := .prep p' i a } := by
  have hprep := hok.prep hpc
  have hsame : (s.setRec a r).setInfo i (s.infos i) = s.setRec a r := by simp [Machine.setRec, Machine.setInfo]
  have := hok.prepare hpc p' r (s.infos i) (by omega) hp' hbound hr hprep.untouched.waiting
    (fun _ => hprep.extra hp) hbsp
  rwa [hsame] at this

/-- Before `cpu_init` starts. -/
theorem Prep.ready {p : Nat} (h : Prep C s p i a) (hp : 3 ≤ p) (hbsp : C.isBsp i = decide (4 ≤ p)) : Ready C s i a 0 := by
  refine ⟨h.extra (by omega), h.listed (by omega), h.untouched.cpu, 0, 0, ?_, h.made, by omega, by omega⟩
  rw [h.record]
  simp [prepRec, recAt, Record.zero, hp, hbsp]

theorem Ok.number (hok : Ok C s) (hpc : s.pc = .prep 2 i a) :
    Ok C { s.setRec a { s.recs a with cpuNumber := i } with pc := .prep 3 i a } := by
  have hprep := hok.prep hpc
  refine hok.store hpc le_rfl (by decide) (by decide) ?_ (by omega)
  rw [hprep.record]
  rfl

theorem Ok.self (hok : Ok C s) (hpc : s.pc = .prep 3 i a) (hbsp : C.isBsp i = true) :
    Ok C { s.setRec a { s.recs a with isBsp := true } with pc := .prep 4 i a } := by
  have hprep := hok.prep hpc
  refine hok.store hpc (by decide) (by decide) le_rfl ?_ (fun _ => hbsp)
  rw [hprep.record]
  rfl

theorem Ok.enter (hok : Ok C s) (hpc : s.pc = .prep 4 i a) :
    Ok C { s.setRun i (.init 0 (s.infos i).extraArgument) with pc := .call i } := by
  have hprep := hok.prep hpc
  have hindex : s.pc.index C = i := by rw [hpc]; rfl
  have hlist := hprep.listed (by decide)
  have hready := hprep.ready (by decide) (hprep.isBsp le_rfl)
  refine hok.local (a := a) (by rw [hpc]; intro h; cases h) hindex.symm (by rw [hindex, hprep.length]; rfl)
    (by rw [hindex, hlist]) rfl (fun _ _ => rfl) (fun _ _ => rfl) ?_ (fun _ _ => rfl) le_rfl rfl ?_
  · exact fun j hj => update_off hindex hj
  refine ⟨hprep.isBsp le_rfl, hprep.length, hprep.count, 0, a, by decide, ?_, hready.keep rfl rfl rfl rfl le_rfl⟩
  rw [hprep.extra (by decide)]
  exact Function.update_self ..

theorem Ok.goto (hok : Ok C s) (hpc : s.pc = .prep 3 i a) (hbsp : C.isBsp i = false) :
    Ok C { s.setInfo i { s.infos i with gotoAddress := true } with pc := .wait i a } := by
  have hprep := hok.prep hpc
  have hindex : s.pc.index C = i := by rw [hpc]; rfl
  have hlist := hprep.listed (by decide)
  have hready := hprep.ready le_rfl hbsp
  refine hok.local (a := a) (by rw [hpc]; intro h; cases h) hindex.symm (by rw [hindex, hprep.length]; rfl)
    (by rw [hindex, hlist]) rfl ?_ (fun _ _ => rfl) (fun _ _ => rfl) (fun _ _ => rfl) le_rfl rfl ?_
  · exact fun j hj => update_off hindex hj
  have hinfo : Function.update s.infos i { s.infos i with gotoAddress := true } i =
      { s.infos i with gotoAddress := true } := Function.update_self ..
  refine ⟨hbsp, hprep.length, hprep.count, 0, by decide, .inl ⟨hprep.untouched.parked, ?_, rfl⟩, ?_⟩
  · change (Function.update s.infos i _ i).gotoAddress = true
    rw [hinfo]
  · refine ⟨?_, hready.listed, hready.cpu, hready.record⟩
    change (Function.update s.infos i _ i).extraArgument = a
    rw [hinfo]
    exact hready.extra

/-! ## The steps of the other CPUs -/

/-- A CPU that is neither online nor untouched is the one that `mp_init` is at. -/
theorem Ok.current (hok : Ok C s) (hun : ¬ Untouched s i) (hon : ¬ Online C s i) :
    s.pc = .call i ∨ ∃ a, s.pc = .wait i a := by
  have hle : s.pc.index C = i := by
    rcases Nat.lt_trichotomy i (s.pc.index C) with h | h | h
    · exact absurd (hok.before i h) hon
    · exact h.symm
    · exact absurd (hok.after i h) hun
  have hnow := hok.now
  cases hpc : s.pc with
  | alloc j =>
    rw [hpc] at hnow hle
    exact absurd (hle ▸ hnow.1) hun
  | prep p j a =>
    rw [hpc] at hnow hle
    exact absurd (hle ▸ Prep.untouched hnow) hun
  | call j =>
    rw [hpc] at hle
    exact .inl (congrArg Pc.call hle)
  | wait j a =>
    rw [hpc] at hle
    exact .inr ⟨a, by rw [← hle]; rfl⟩
  | done =>
    rw [hpc] at hnow hle
    exact absurd (hle ▸ hnow.1) hun

/-- A CPU in the middle of `cpu_init` works on its own record. -/
theorem Ok.inside (hok : Ok C s) (hrun : s.run i = .init k a) (hk : k < cpuInitSteps) :
    (s.pc = .call i ∨ s.pc = .wait i a) ∧ Ready C s i a k ∧ s.cpuLocals.length = i + 1 ∧ i < C.cpuCount := by
  have hun : ¬ Untouched s i := by
    intro h
    rw [h.parked] at hrun
    cases hrun
  have hon : ¬ Online C s i := by
    rintro ⟨b, -, ⟨h, -⟩ | h⟩ <;> rw [h] at hrun <;> cases hrun
    omega
  have hnow := hok.now
  rcases hok.current hun hon with hpc | ⟨b, hpc⟩ <;> rw [hpc] at hnow
  · obtain ⟨-, hlen, hcount, k', a', -, hrun', hready⟩ := hnow
    cases hrun.symm.trans hrun'
    exact ⟨.inl hpc, hready, hlen, hcount⟩
  · obtain ⟨-, hlen, hcount, k', -, ⟨h, -⟩ | h | ⟨h, -⟩, hready⟩ := hnow
    · cases hrun.symm.trans h
    · cases hrun.symm.trans h
      exact ⟨.inr hpc, hready, hlen, hcount⟩
    · cases hrun.symm.trans h

theorem Ok.wake (hok : Ok C s) (hrun : s.run i = .parked) (hgoto : (s.infos i).gotoAddress = true) :
    Ok C (s.setRun i (.init 0 (s.infos i).extraArgument)) := by
  have hun : ¬ Untouched s i := by
    intro h
    rw [h.waiting] at hgoto
    cases hgoto
  have hon : ¬ Online C s i := by
    rintro ⟨b, -, ⟨h, -⟩ | h⟩ <;> rw [h] at hrun <;> cases hrun
  have hnow := hok.now
  rcases hok.current hun hon with hpc | ⟨a, hpc⟩ <;> rw [hpc] at hnow
  · obtain ⟨-, -, -, k, a, -, hrun', -⟩ := hnow
    cases hrun.symm.trans hrun'
  obtain ⟨hbsp, hlen, hcount, k, -, ⟨-, -, rfl⟩ | h | ⟨h, -⟩, hready⟩ := hnow
  · have hindex : s.pc.index C = i := by rw [hpc]; rfl
    refine hok.local (a := a) (by rw [hpc]; intro h; cases h) rfl (by rw [hindex, hlen]) (by rw [hindex, hready.listed]) rfl
      (fun _ _ => rfl) (fun _ _ => rfl) ?_ (fun _ _ => rfl) le_rfl rfl ?_
    · intro j hj
      rw [hindex] at hj
      exact Function.update_of_ne hj ..
    · change Now C _ s.pc
      rw [hpc]
      refine ⟨hbsp, hlen, hcount, 0, by decide, .inr (.inl ?_), hready.keep rfl rfl rfl rfl le_rfl⟩
      rw [hready.extra]
      exact Function.update_self ..
  · cases hrun.symm.trans h
  · cases hrun.symm.trans h

theorem Ok.init (hok : Ok C s) (hrun : s.run i = .init k a) (hk : k < cpuInitSteps) :
    Ok C ((cpuInitStep C i a s k).setRun i (.init (k + 1) a)) := by
  obtain ⟨hpc, hready, hlen, hcount⟩ := hok.inside hrun hk
  obtain ⟨hinfos, hlocals, hpc', hruns, hdone, hallocs, hcpus, hrecs⟩ := cpuInitStep_frame C i a s k
  have hindex : s.pc.index C = i := by rcases hpc with h | h <;> rw [h] <;> rfl
  have hready' : Ready C ((cpuInitStep C i a s k).setRun i (.init (k + 1) a)) i a (k + 1) :=
    (hready.init hk).keep rfl rfl rfl rfl le_rfl
  have hrun' : ((cpuInitStep C i a s k).setRun i (.init (k + 1) a)).run i = .init (k + 1) a := Function.update_self ..
  refine hok.local (a := a) ?_ (congrArg _ hpc') (by rw [hindex, hlen]) (by rw [hindex, hready.listed]) hlocals
    (fun j _ => congrFun hinfos j) ?_ ?_ hrecs hallocs hdone ?_
  · rcases hpc with h | h <;> rw [h] <;> intro h' <;> cases h'
  · intro j hj
    rw [hindex] at hj
    exact hcpus j hj
  · intro j hj
    rw [hindex] at hj
    exact (Function.update_of_ne hj ..).trans (congrFun hruns j)
  · change Now C _ (cpuInitStep C i a s k).pc
    have hnow := hok.now
    rw [hpc']
    rcases hpc with h | h <;> rw [h] at hnow ⊢
    · exact ⟨hnow.1, hlocals ▸ hlen, hcount, k + 1, a, hk, hrun', hready'⟩
    · exact ⟨hnow.1, hlocals ▸ hlen, hcount, k + 1, hk, .inr (.inl hrun'), hready'⟩

/-- `mp_init` goes on to the next CPU. -/
theorem Ok.advance (hok : Ok C s) (hpc : s.pc ≠ .done) (hindex : s.pc.index C = i) (hlen : s.cpuLocals.length = i + 1)
    (hcount : i < C.cpuCount) (hruns : ∀ j, j ≠ i → s'.run j = s.run j) (hrecs : s'.recs = s.recs)
    (hlocals : s'.cpuLocals = s.cpuLocals) (hinfos : s'.infos = s.infos) (hcpus : s'.cpus = s.cpus)
    (hallocs : s'.allocs = s.allocs) (hdone : s'.mpInitDone = s.mpInitDone) (hpc' : s'.pc = .alloc (i + 1))
    (hon : Online C s' i) : Ok C s' := by
  have hbefore := hok.before
  have hafter := hok.after
  rw [hindex] at hbefore hafter
  have hindex' : s'.pc.index C = i + 1 := by rw [hpc']; rfl
  have hkeep : ∀ j, i < j → Untouched s' j := by
    intro j hj
    exact (hafter j hj).keep (hruns j (by omega)) (congrFun hinfos j) (congrFun hcpus j)
  refine ⟨?_, ?_, ?_, ?_, ?_⟩
  · rw [hpc']
    exact ⟨hkeep _ (Nat.lt_succ_self i), by rw [hlocals, hlen], hcount⟩
  · intro j hj
    rw [hindex'] at hj
    rcases Nat.lt_succ_iff_lt_or_eq.mp hj with hlt | rfl
    · exact (hbefore j hlt).keep (congrFun hinfos j) (by rw [hlocals]) (congrFun hcpus j)
        (fun b _ => congrFun hrecs b) hallocs.ge (hruns j (by omega))
    · exact hon
  · intro j hj
    rw [hindex'] at hj
    exact hkeep j (by omega)
  · rw [hlocals, hrecs]
    exact hok.order
  · intro hd
    rw [hdone] at hd
    exact absurd (hok.finished hd) hpc

theorem Ok.back (hok : Ok C s) (hpc : s.pc = .call i) (hrun : s.run i = .init cpuInitSteps a) :
    Ok C { s.setRun i .up with pc := .alloc (i + 1) } := by
  obtain ⟨-, hlen, hcount, k, b, -, hrun', hready⟩ := hok.nowAt hpc
  cases hrun.symm.trans hrun'
  refine hok.advance (by rw [hpc]; intro h; cases h) (by rw [hpc]; rfl) hlen hcount
    (fun j hj => Function.update_of_ne hj ..) rfl rfl rfl rfl rfl rfl rfl ?_
  exact ⟨a, hready.keep rfl rfl rfl rfl le_rfl, .inr (Function.update_self ..)⟩

theorem Ready.online_iff (h : Ready C s i a k) (hk : k ≤ cpuInitSteps) : (s.recs a).online = true ↔ k = cpuInitSteps := by
  obtain ⟨c, b, hrec, -⟩ := h.record
  unfold cpuInitSteps at *
  simp only [hrec, recAt, decide_eq_true_eq]
  omega

theorem Ok.seen (hok : Ok C s) (hpc : s.pc = .wait i a) (honline : (s.recs a).online = true) :
    Ok C { s with pc := .alloc (i + 1) } := by
  obtain ⟨hbsp, hlen, hcount, k, hk, hwait, hready⟩ := hok.nowAt hpc
  obtain rfl := (hready.online_iff hk).mp honline
  refine hok.advance (by rw [hpc]; intro h; cases h) (by rw [hpc]; rfl) hlen hcount (fun _ _ => rfl) rfl rfl rfl rfl rfl
    rfl rfl ⟨a, hready.keep rfl rfl rfl rfl le_rfl, ?_⟩
  rcases hwait with ⟨-, -, h⟩ | h | ⟨h, -⟩
  · cases h
  · exact .inl ⟨h, hbsp⟩
  · exact .inr h

theorem Prep.keep {p : Nat} (h : Prep C s p i a) (hrun : s'.run i = s.run i) (hi : s'.infos i = s.infos i)
    (hc : s'.cpus i = s.cpus i) (hr : s'.recs = s.recs) (hl : s'.cpuLocals = s.cpuLocals) (ha : s.allocs ≤ s'.allocs) :
    Prep C s' p i a where
  bound := h.bound
  count := h.count
  untouched := h.untouched.keep hrun hi hc
  made := h.made.trans_le ha
  older := by rw [hl, hr]; exact h.older
  record := by rw [hr]; exact h.record
  length := by rw [hl]; exact h.length
  listed := by rw [hl]; exact h.listed
  extra := by rw [hi]; exact h.extra
  isBsp := h.isBsp

theorem Now.other {pc : Pc} (h : Now C s pc) : Now C { s with allocs := s.allocs + 1 } pc := by
  cases pc with
  | alloc i => exact ⟨h.1.keep rfl rfl rfl, h.2⟩
  | prep p i a =>
    exact Prep.keep h rfl rfl rfl rfl rfl (Nat.le_succ _)
  | call i =>
    obtain ⟨hbsp, hlen, hcount, k, a, hk, hrun, hready⟩ := h
    exact ⟨hbsp, hlen, hcount, k, a, hk, hrun, hready.keep rfl rfl rfl rfl (Nat.le_succ _)⟩
  | wait i a =>
    obtain ⟨hbsp, hlen, hcount, k, hk, hwait, hready⟩ := h
    exact ⟨hbsp, hlen, hcount, k, hk, hwait, hready.keep rfl rfl rfl rfl (Nat.le_succ _)⟩
  | done => exact ⟨h.1.keep rfl rfl rfl, h.2⟩

theorem Ok.other (hok : Ok C s) : Ok C { s with allocs := s.allocs + 1 } :=
  ⟨hok.now.other, fun j hj => (hok.before j hj).keep rfl rfl rfl (fun _ _ => rfl) (Nat.le_succ _) rfl,
    fun j hj => (hok.after j hj).keep rfl rfl rfl, hok.order, hok.finished⟩

/-- An application processor goes to its loop. -/
theorem Ok.stay (hok : Ok C s) (hrun : s.run i = .init cpuInitSteps a) (hbsp : (s.recs a).isBsp = false) :
    Ok C (s.setRun i .up) := by
  have hself : (s.setRun i .up).run i = .up := Function.update_self ..
  have hne : ∀ j, j ≠ i → (s.setRun i .up).run j = s.run j := fun j hj => Function.update_of_ne hj ..
  have hun : ¬ Untouched s i := by
    intro h
    rw [h.parked] at hrun
    cases hrun
  have hbefore : ∀ j, j < s.pc.index C → Online C (s.setRun i .up) j := by
    intro j hj
    by_cases hji : j = i
    · subst hji
      obtain ⟨b, hready, -⟩ := hok.before j hj
      exact ⟨b, hready.keep rfl rfl rfl rfl le_rfl, .inr hself⟩
    · exact (hok.before j hj).keep rfl rfl rfl (fun _ _ => rfl) le_rfl (hne j hji)
  have hafter : ∀ j, s.pc.index C < j → Untouched (s.setRun i .up) j := by
    intro j hj
    have hji : j ≠ i := fun h => hun (h ▸ hok.after j hj)
    exact (hok.after j hj).keep (hne j hji) rfl rfl
  refine ⟨?_, hbefore, hafter, hok.order, hok.finished⟩
  change Now C (s.setRun i .up) s.pc
  have hnow := hok.now
  cases hpc : s.pc with
  | alloc j =>
    rw [hpc] at hnow
    have hji : j ≠ i := fun h => hun (h ▸ hnow.1)
    exact ⟨hnow.1.keep (hne j hji) rfl rfl, hnow.2⟩
  | prep p j b =>
    rw [hpc] at hnow
    have hprep : Prep C s p j b := hnow
    have hji : j ≠ i := fun h => hun (h ▸ hprep.untouched)
    exact hprep.keep (hne j hji) rfl rfl rfl rfl le_rfl
  | call j =>
    rw [hpc] at hnow
    obtain ⟨hbsp', hlen, hcount, k, b, hk, hrun', hready⟩ := hnow
    have hji : j ≠ i := by
      rintro rfl
      cases hrun.symm.trans hrun'
      obtain ⟨c, d, hrec, -⟩ := hready.record
      rw [hrec] at hbsp
      exact absurd (hbsp'.symm.trans hbsp) (by decide)
    exact ⟨hbsp', hlen, hcount, k, b, hk, (hne j hji).trans hrun', hready.keep rfl rfl rfl rfl le_rfl⟩
  | wait j b =>
    rw [hpc] at hnow
    obtain ⟨hbsp', hlen, hcount, k, hk, hwait, hready⟩ := hnow
    refine ⟨hbsp', hlen, hcount, k, hk, ?_, hready.keep rfl rfl rfl rfl le_rfl⟩
    by_cases hji : j = i
    · subst hji
      rcases hwait with ⟨h, -⟩ | h | ⟨h, -⟩
      · cases hrun.symm.trans h
      · cases hrun.symm.trans h
        exact .inr (.inr ⟨hself, rfl⟩)
      · cases hrun.symm.trans h
    · simp only [Waited, hne j hji]
      exact hwait
  | done =>
    rw [hpc] at hnow
    have hji : C.cpuCount ≠ i := fun h => hun (h ▸ hnow.1)
    exact ⟨hnow.1.keep (hne _ hji) rfl rfl, hnow.2⟩

theorem Ok.move (hok : Ok C s) (h : Move C s s') : Ok C s' := by
  cases h with
  | alloc hpc hi => exact hok.alloc hpc hi
  | finish hpc hi => exact hok.finish hpc hi
  | push hpc => exact hok.push hpc
  | extra hpc => exact hok.extra hpc
  | number hpc => exact hok.number hpc
  | self hpc hbsp => exact hok.self hpc hbsp
  | enter hpc => exact hok.enter hpc
  | goto hpc hbsp => exact hok.goto hpc hbsp
  | wake hrun hgoto => exact hok.wake hrun hgoto
  | init hrun hk => exact hok.init hrun hk
  | back hpc hrun hbsp => exact hok.back hpc hrun
  | stay hrun hbsp => exact hok.stay hrun hbsp
  | seen hpc honline => exact hok.seen hpc honline

theorem Ok.step (hok : Ok C s) (h : Step C s s') : Ok C s' := by
  rcases h with h | h
  · exact hok.move h
  · cases h
    exact hok.other

theorem ok_boot (C : Config) : Ok C boot := by
  refine ⟨⟨⟨rfl, rfl, rfl⟩, rfl, Nat.zero_le _⟩, ?_, fun j _ => ⟨rfl, rfl, rfl⟩, ?_, fun h => by cases h⟩
  · intro j hj
    exact absurd hj (Nat.not_lt_zero j)
  · intro j j' b b' _ hb
    cases hb

theorem Ok.run (h : Relation.ReflTransGen (Step C) boot s) : Ok C s := by
  induction h with
  | refl => exact ok_boot C
  | tail _ hstep ih => exact ih.step hstep

/-! ## `mp_init` returns -/

/-- The moves that `mp_init` still has to make itself, at most. -/
def Pc.left (C : Config) : Pc → Nat
  | .alloc i => 7 * (C.cpuCount - i) + 1
  | .prep p i _ => 7 * (C.cpuCount - (i + 1)) + (7 - p)
  | .call i => 7 * (C.cpuCount - (i + 1)) + 2
  | .wait i _ => 7 * (C.cpuCount - (i + 1)) + 2
  | .done => 0

def Run.left : Run → Nat
  | .parked => cpuInitSteps + 2
  | .init k _ => cpuInitSteps + 1 - k
  | .up => 0

def left (C : Config) (s : Machine) : Nat := s.pc.left C + ∑ j ∈ Finset.range C.cpuCount, (s.run j).left

theorem left_le {s s' : Machine} (hpc : s'.pc.left C < s.pc.left C) (hne : ∀ j, j ≠ i → s'.run j = s.run j)
    (hi : (s'.run i).left ≤ (s.run i).left) : left C s' < left C s := by
  refine Nat.add_lt_add_of_lt_of_le hpc (Finset.sum_le_sum ?_)
  intro j _
  by_cases hj : j = i
  · exact hj ▸ hi
  · rw [hne j hj]

theorem left_pc {s s' : Machine} (hpc : s'.pc.left C < s.pc.left C) (hrun : s'.run = s.run) : left C s' < left C s :=
  left_le (i := 0) hpc (fun j _ => congrFun hrun j) (by rw [hrun])

theorem left_lt {s s' : Machine} (hpc : s'.pc = s.pc) (hne : ∀ j, j ≠ i → s'.run j = s.run j) (hcount : i < C.cpuCount)
    (hi : (s'.run i).left < (s.run i).left) : left C s' < left C s := by
  unfold left
  rw [hpc]
  refine Nat.add_lt_add_left (Finset.sum_lt_sum ?_ ⟨i, Finset.mem_range.mpr hcount, hi⟩) _
  intro j _
  by_cases hj : j = i
  · exact hj ▸ hi.le
  · rw [hne j hj]

/-- A CPU that has left the bootloader is one of those that it reported. -/
theorem Ok.counted (hok : Ok C s) (hun : ¬ Untouched s i) : i < C.cpuCount := by
  have hindex : s.pc.index C ≤ C.cpuCount := by
    have hnow := hok.now
    cases hpc : s.pc <;> rw [hpc] at hnow
    case alloc => exact hnow.2.2
    case prep => exact (Prep.count hnow).le
    case call => exact hnow.2.2.1.le
    case wait => exact hnow.2.2.1.le
    case done => exact le_rfl
  rcases Nat.lt_or_ge i (s.pc.index C) with h | h
  · omega
  · by_contra hcount
    have heq : s.pc.index C = i := by
      rcases Nat.lt_or_eq_of_le h with hlt | heq
      · exact absurd (hok.after i hlt) hun
      · exact heq
    have hnow := hok.now
    cases hpc : s.pc <;> rw [hpc] at hnow heq
    case alloc => exact hun (heq ▸ hnow.1)
    case prep => exact hun (heq ▸ Prep.untouched hnow)
    case call => exact hcount (heq ▸ hnow.2.2.1)
    case wait => exact hcount (heq ▸ hnow.2.2.1)
    case done => exact hun (heq ▸ hnow.1)

theorem Ok.move_left (hok : Ok C s) (h : Move C s s') : left C s' < left C s := by
  cases h with
  | alloc hpc hi => exact left_pc (by rw [hpc]; simp only [Pc.left]; omega) rfl
  | finish hpc hi => exact left_pc (by rw [hpc]; simp only [Pc.left]; omega) rfl
  | push hpc => exact left_pc (by rw [hpc]; simp only [Pc.left]; omega) rfl
  | extra hpc => exact left_pc (by rw [hpc]; simp only [Pc.left]; omega) rfl
  | number hpc => exact left_pc (by rw [hpc]; simp only [Pc.left]; omega) rfl
  | self hpc hbsp => exact left_pc (by rw [hpc]; simp only [Pc.left]; omega) rfl
  | goto hpc hbsp => exact left_pc (by rw [hpc]; simp only [Pc.left]; omega) rfl
  | seen hpc honline => exact left_pc (by rw [hpc]; simp only [Pc.left]; omega) rfl
  | @enter i a hpc =>
    have hnow := hok.now
    rw [hpc] at hnow
    refine left_le (i := i) (by rw [hpc]; simp only [Pc.left]; omega) (fun j hj => Function.update_of_ne hj ..) ?_
    rw [(Prep.untouched hnow).parked]
    simp [Machine.setRun, Run.left]
  | @back i a hpc hrun hbsp =>
    refine left_le (i := i) (by rw [hpc]; simp only [Pc.left]; omega) (fun j hj => Function.update_of_ne hj ..) ?_
    simp [Machine.setRun, Run.left]
  | @wake i hrun hgoto =>
    have hcount := hok.counted (i := i) (fun h => by rw [h.waiting] at hgoto; cases hgoto)
    refine left_lt (i := i) rfl (fun j hj => Function.update_of_ne hj ..) hcount ?_
    simp [Machine.setRun, Run.left, hrun]
  | @init i k a hrun hk =>
    obtain ⟨-, -, hpc, hruns, -⟩ := cpuInitStep_frame C i a s k
    have hcount := hok.counted (i := i) (fun h => by rw [h.parked] at hrun; cases hrun)
    refine left_lt (i := i) hpc (fun j hj => (Function.update_of_ne hj ..).trans (congrFun hruns j)) hcount ?_
    simp only [Machine.setRun, Function.update_self, Run.left, hrun]
    omega
  | @stay i a hrun hbsp =>
    have hcount := hok.counted (i := i) (fun h => by rw [h.parked] at hrun; cases hrun)
    refine left_lt (i := i) rfl (fun j hj => Function.update_of_ne hj ..) hcount ?_
    simp [Machine.setRun, Run.left, hrun]

theorem Move.pc_done (h : Move C s s') (hdone : s'.pc = .done) : s.pc = .done ∨ s'.mpInitDone = true := by
  cases h with
  | finish => exact .inr rfl
  | wake | stay => exact .inl hdone
  | @init i k a =>
    obtain ⟨-, -, hpc, -⟩ := cpuInitStep_frame C i a s k
    exact .inl (hpc.symm.trans hdone)
  | alloc | push | extra | number | self | enter | goto | back | seen => cases hdone

theorem Move.keeps_done (h : Move C s s') (hdone : s.mpInitDone = true) : s'.mpInitDone = true := by
  cases h with
  | finish => rfl
  | @init i k a =>
    obtain ⟨-, -, -, -, hinit, -⟩ := cpuInitStep_frame C i a s k
    exact hinit.trans hdone
  | alloc | push | extra | number | self | enter | goto | wake | back | stay | seen => exact hdone

/-- A CPU that runs `cpu_init` can go on. -/
theorem Ready.goes_on (h : Ready C s i a k) (hk : k ≤ cpuInitSteps) (hrun : s.run i = .init k a) (hpc : s.pc = .call i)
    (hbsp : C.isBsp i = true) : ∃ s', Move C s s' := by
  rcases Nat.lt_or_eq_of_le hk with hlt | rfl
  · exact ⟨_, .init hrun hlt⟩
  · obtain ⟨c, b, hrec, -⟩ := h.record
    exact ⟨_, .back hpc hrun (by rw [hrec]; exact hbsp)⟩

/-- Until `mp_init` is done, someone can move. -/
theorem Ok.progress (hok : Ok C s) (hpc : s.pc ≠ .done) : ∃ s', Move C s s' := by
  have hnow := hok.now
  cases h : s.pc with
  | alloc i =>
    by_cases hi : i < C.cpuCount
    · exact ⟨_, .alloc h hi⟩
    · exact ⟨_, .finish h hi⟩
  | prep p i a =>
    rw [h] at hnow
    have hp := Prep.bound hnow
    interval_cases p
    · exact ⟨_, .push h⟩
    · exact ⟨_, .extra h⟩
    · exact ⟨_, .number h⟩
    · cases hbsp : C.isBsp i with
      | true => exact ⟨_, .self h hbsp⟩
      | false => exact ⟨_, .goto h hbsp⟩
    · exact ⟨_, .enter h⟩
  | call i =>
    rw [h] at hnow
    obtain ⟨hbsp, -, -, k, a, hk, hrun, hready⟩ := hnow
    exact hready.goes_on hk hrun h hbsp
  | wait i a =>
    rw [h] at hnow
    obtain ⟨-, -, -, k, hk, hwait, hready⟩ := hnow
    rcases hwait with ⟨hrun, hgoto, -⟩ | hrun | ⟨-, rfl⟩
    · exact ⟨_, .wake hrun hgoto⟩
    · rcases Nat.lt_or_eq_of_le hk with hlt | rfl
      · exact ⟨_, .init hrun hlt⟩
      · exact ⟨_, .seen h ((hready.online_iff hk).mpr rfl)⟩
    · exact ⟨_, .seen h ((hready.online_iff hk).mpr rfl)⟩
  | done => exact absurd h hpc

/-- When nobody can move, `mp_init` is done and every CPU is up. -/
theorem Ok.ended (hok : Ok C s) (hstuck : ∀ s', ¬ Move C s s') :
    s.pc = .done ∧ ∀ i, i < C.cpuCount → s.run i = .up := by
  have hpc : s.pc = .done := by
    by_contra h
    obtain ⟨s', hs'⟩ := hok.progress h
    exact hstuck s' hs'
  refine ⟨hpc, ?_⟩
  intro i hi
  have hbefore := hok.before i
  rw [hpc] at hbefore
  obtain ⟨a, hready, ⟨hrun, hbsp⟩ | hup⟩ := hbefore hi
  · obtain ⟨c, b, hrec, -⟩ := hready.record
    exact absurd (.stay hrun (by rw [hrec]; exact hbsp)) (hstuck _)
  · exact hup

/-- What holds all along a run. -/
theorem run_ok {r : Nat → Machine} (h : Fair (Move C) Other boot r) (n : Nat) :
    Ok C (r n) ∧ ((r n).pc = .done → (r n).mpInitDone = true) := by
  refine h.invariant (I := fun s => Ok C s ∧ (s.pc = .done → s.mpInitDone = true)) ⟨ok_boot C, fun h => by cases h⟩ ?_ ?_ n
  · intro s s' hs hmove
    refine ⟨hs.1.move hmove, ?_⟩
    intro hdone
    rcases hmove.pc_done hdone with h | h
    · exact hmove.keeps_done (hs.2 h)
    · exact h
  · intro s s' hs hother
    cases hother
    exact ⟨hs.1.other, hs.2⟩

theorem run_ends {r : Nat → Machine} (h : Fair (Move C) Other boot r) : ∃ n, ∀ m, n ≤ m → ∀ s, ¬ Move C (r m) s :=
  h.ends (I := Ok C) Nat.lt_wfRel.wf (fun n => (run_ok h n).1) (fun _ _ hok => hok.move_left)
    (fun _ _ _ hother => by cases hother; rfl)

/-- Two CPUs, the second of which booted the machine. -/
def twoCpus : Config where
  cpuCount := 2
  lapicId := fun i => i
  bspLapicId := 1
  distinct := fun _ _ _ _ h => h
  top := fun a => a
  freq := fun _ => 0
  fpu := fun _ => 512

theorem eager_two : Fair (Move twoCpus) Other boot
    (eager (Move twoCpus) (fun s => { s with allocs := s.allocs + 1 }) boot) :=
  eager_fair (Move twoCpus) boot _ (fun s => Other.alloc (s := s))

/-- The record of a CPU that is online. -/
def onlineRecord (C : Config) (i a c b : Nat) : Record where
  cpuNumber := i
  lapicId := C.lapicId i
  isBsp := C.isBsp i
  online := true
  lapicTimerFreq := C.freq i
  rsp0 := C.top c
  ist1 := C.top b
  commonIntStack := c
  abortStack := b
  idleSelf := a
  runningOn := i

/-- The registers of a CPU that is online, with the record `a`. -/
def onlineCpu (a : Nat) : Cpu := ⟨a, true, a, a, true⟩

/-- The record of a CPU and its stacks. -/
def blocksOf (s : Machine) (a : Nat) : List Nat := [a, (s.recs a).commonIntStack, (s.recs a).abortStack]

/-- `%gs:8` is the CPU's own number as soon as the GS base is set. -/
theorem Ready.current (h : Ready C s i a k) (hk : 9 < k) : cpuCurrent s i = some a := by
  obtain ⟨c, b, hrec, -⟩ := h.record
  have h8 : 8 < k := by omega
  have hgs : (s.cpus i).gsBase = a := by simp [h.cpu, cpuAt, hk]
  have hon : (s.recs a).runningOn = i := by simp [hrec, recAt, h8]
  rw [cpuCurrent, hgs, hon, h.listed]

theorem Ok.listed_online (hok : Ok C s) (hdone : s.mpInitDone = true) {i a : Nat} (ha : s.cpuLocals[i]? = some a) :
    Ready C s i a cpuInitSteps := by
  have hpc := hok.finished hdone
  have hnow := hok.now
  have hbefore := hok.before
  rw [hpc] at hnow hbefore
  have hi := (List.getElem?_eq_some_iff.mp ha).1
  rw [hnow.2] at hi
  obtain ⟨b, hready, -⟩ := hbefore i hi
  obtain rfl : b = a := Option.some.inj (hready.listed.symm.trans ha)
  exact hready

/-- The blocks of all CPUs, in the order of their allocation. -/
theorem Ok.blocks_ascend (hok : Ok C s) (hdone : s.mpInitDone = true) :
    (s.cpuLocals.flatMap (blocksOf s)).Pairwise (· < ·) := by
  refine List.pairwise_flatMap.mpr ⟨?_, ?_⟩
  · intro a ha
    obtain ⟨i, hi⟩ := List.getElem?_of_mem ha
    obtain ⟨h1, h2, -⟩ := (hok.listed_online hdone hi).blocks
    simp only [blocksOf, List.pairwise_cons, List.mem_cons, List.not_mem_nil, or_false]
    grind
  · rw [List.pairwise_iff_getElem]
    intro i j hi hj hij x hx y hy
    have ha : s.cpuLocals[i]? = some s.cpuLocals[i] := List.getElem?_eq_getElem hi
    have hb : s.cpuLocals[j]? = some s.cpuLocals[j] := List.getElem?_eq_getElem hj
    have hlt := hok.order i j _ _ hij ha hb
    obtain ⟨h1, h2, -⟩ := (hok.listed_online hdone ha).blocks
    obtain ⟨h3, h4, -⟩ := (hok.listed_online hdone hb).blocks
    simp only [blocksOf, List.mem_cons, List.not_mem_nil, or_false] at hx hy
    omega

/-- However the CPUs interleave, they initialise themselves one at a time; a CPU in the
middle of it has its own record, and finds that record with `cpu_current` from the moment
its GS base is set. When `mp_init` is done every CPU is listed under its number, with a
complete record of its own, the record's task state segment and page tables loaded, and
stacks that no other CPU has. -/
theorem cpus_come_up (h : Relation.ReflTransGen (Step C) boot s) :
    (∀ i j k l a b, s.run i = .init k a → s.run j = .init l b → k < cpuInitSteps → l < cpuInitSteps → i = j) ∧
    (∀ i k a, s.run i = .init k a → k < cpuInitSteps → s.cpuLocals[i]? = some a ∧ (9 < k → cpuCurrent s i = some a)) ∧
    (s.mpInitDone = true →
      s.cpuLocals.length = C.cpuCount ∧
      (∀ i, i < C.cpuCount → ∃ a c b, s.cpuLocals[i]? = some a ∧ s.recs a = onlineRecord C i a c b ∧
        s.cpus i = onlineCpu a ∧ cpuCurrent s i = some a) ∧
      (s.cpuLocals.flatMap (blocksOf s)).Nodup) := by
  have hok := Ok.run h
  refine ⟨?_, ?_, ?_⟩
  · intro i j k l a b hi hj hk hl
    obtain ⟨-, -, hleni, -⟩ := hok.inside hi hk
    obtain ⟨-, -, hlenj, -⟩ := hok.inside hj hl
    omega
  · intro i k a hi hk
    obtain ⟨-, hready, -⟩ := hok.inside hi hk
    exact ⟨hready.listed, hready.current⟩
  · intro hdone
    have hpc := hok.finished hdone
    have hnow := hok.now
    have hbefore := hok.before
    rw [hpc] at hnow hbefore
    refine ⟨hnow.2, ?_, (hok.blocks_ascend hdone).imp Nat.ne_of_lt⟩
    intro i hi
    obtain ⟨a, hready, -⟩ := hbefore i hi
    obtain ⟨c, b, hrec, -⟩ := hready.record
    exact ⟨a, c, b, hready.listed, hrec, hready.cpu, hready.current (by decide)⟩

theorem fair_reach {r : Nat → Machine} (h : Fair (Move C) Other boot r) (n : Nat) :
    Relation.ReflTransGen (Step C) boot (r n) :=
  h.invariant (I := Relation.ReflTransGen (Step C) boot) .refl (fun _ _ hs hm => hs.tail (.inl hm))
    (fun _ _ hs ho => hs.tail (.inr ho)) n

theorem cpus_come_up_two : ∃ s, Relation.ReflTransGen (Step twoCpus) boot s ∧ s.mpInitDone = true ∧
    s.cpuLocals.length = 2 ∧ cpuCurrent s 0 ≠ cpuCurrent s 1 := by
  obtain ⟨n, hn⟩ := run_ends eager_two
  obtain ⟨hok, hdone⟩ := run_ok eager_two n
  have hinit := hdone (hok.ended (hn n le_rfl)).1
  have hreach := fair_reach eager_two n
  obtain ⟨-, -, h⟩ := cpus_come_up hreach
  obtain ⟨hlen, hall, hnodup⟩ := h hinit
  refine ⟨_, hreach, hinit, hlen, ?_⟩
  obtain ⟨a, c, b, ha, hrec, -, hcur⟩ := hall 0 (by decide)
  obtain ⟨a', c', b', ha', hrec', -, hcur'⟩ := hall 1 (by decide)
  rw [hcur, hcur']
  intro heq
  obtain rfl := Option.some.inj heq
  have := congrArg Record.cpuNumber (hrec.symm.trans hrec')
  cases this

end Cynix.Sys.BringUp
