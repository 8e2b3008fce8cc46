import Cynix.Sys.Boot

/-! # Who a panic stops

The records that `mp_init` makes of the processors, the interprocessor
interrupts that `panic` sends on any of them, and what the local APIC makes of
the two encodings. `panic` leaves out the bootstrap processor, whoever
panics. -/
namespace Cynix.Sys.PanicIpis
open Cynix.Base.Trace Cynix.Mm.Access Cynix.Acpi.Tables Cynix.Sys.Devices Cynix.Sys.Boot

/-- The fields of a `struct cpu_local` that `mp_init` and `cpu_init` set and that are read again. -/
structure CpuLocal where
  cpuNumber : Nat
  lapicId : Nat
  isBsp : Bool
  online : Bool
  lapicTimerFreq : Nat
  deriving DecidableEq, Repr

variable (M : Machine)

/-- The loop of `mp_init` from processor `i` on, with the vector `cpu_locals` and `lapic_base`.
`alloc` hands out zeroed memory; the loop goes on once the processor is online. -/
def mpInitLoop (x2apicMode : Bool) (bspLapicId : Nat) :
    Nat → List CpuLocal → Nat → List Cpu → Boot (List CpuLocal × Nat)
  | _, cpuLocals, lapicBase, [] => pure (cpuLocals, lapicBase)
  | i, cpuLocals, lapicBase, cpu :: cpus => do
    let cpuLocal : CpuLocal := ⟨i, 0, false, false, 0⟩
    let cpuLocal := if cpu.lapicId = bspLapicId then { cpuLocal with isBsp := true } else cpuLocal
    let (freq, base) ← cpuInit M x2apicMode cpu lapicBase
    let cpuLocal := { cpuLocal with lapicId := cpu.lapicId, lapicTimerFreq := freq, online := true }
    mpInitLoop x2apicMode bspLapicId (i + 1) (cpuLocals ++ [cpuLocal]) base cpus

/-- `mp_init`: `cpu_locals` and `lapic_base`. -/
def mpInit (mp : MpResponse) : Boot (List CpuLocal × Nat) :=
  mpInitLoop M mp.x2apic mp.bsp.lapicId 0 [] 0 mp.cpus

/-- The interrupts that `panic` sends on `self`, with `lapic_base` afterwards. -/
def panicIpis (x2apicMode mpInitDone : Bool) (self : Cpu) (lapicBase : Nat) (cpuLocals : List CpuLocal) : Boot Nat :=
  if mpInitDone then
    cpuLocals.foldlM (fun base cpuLocal =>
      if !cpuLocal.isBsp then
        lapicSendIpi M.hhdm x2apicMode self base cpuLocal.lapicId M.isrAbortVector
      else pure base) lapicBase
  else pure lapicBase

/-! ## The local APIC -/

/-- An interrupt on its way: the low word of the command register and the destination field. -/
structure Ipi where
  command : Nat
  destination : Nat
  deriving DecidableEq, Repr

/-- The interrupts that a local APIC sends for the writes to its registers. As an x2APIC it has one
command register; otherwise the store to the low word sends, with the high word stored before. -/
def sent (x2apicMode : Bool) (base : Nat) : Nat → List Event → List Ipi
  | _, [] => []
  | high, .wrmsr reg value :: es =>
    if x2apicMode && reg == 0x830 then ⟨value % 2 ^ 32, value / 2 ^ 32⟩ :: sent x2apicMode base high es
    else sent x2apicMode base high es
  | high, .access addr 4 (some value) :: es =>
    if !x2apicMode && addr == base + 0x310 then sent x2apicMode base value es
    else if !x2apicMode && addr == base + 0x300 then ⟨value, high / 2 ^ 24⟩ :: sent x2apicMode base high es
    else sent x2apicMode base high es
  | high, _ :: es => sent x2apicMode base high es

/-- The destination that means every processor. -/
def everyone (x2apicMode : Bool) : Nat := if x2apicMode then 0xffffffff else 0xff

/-- The interrupt with vector `vec` reaches the processor: it has a fixed vector, a physical
destination and no shorthand, and its destination is that processor or all of them. -/
def Ipi.reaches (ipi : Ipi) (x2apicMode : Bool) (vec id : Nat) : Bool :=
  ipi.command == vec && vec < 256 && (ipi.destination == id || ipi.destination == everyone x2apicMode)

/-- Every processor but `self` gets the interrupt once, and `self` does not. -/
def StopsOthers (x2apicMode : Bool) (vec : Nat) (ids : List Nat) (self : Nat) (ipis : List Ipi) : Prop :=
  ∀ id ∈ ids, ipis.countP (·.reaches x2apicMode vec id) = if id = self then 0 else 1

variable {M} {x2apicMode : Bool} {self : Cpu} {bspLapicId lapicBase base vec high : Nat} {cpus : List Cpu}
  {cpuLocals : List CpuLocal} {ids : List Nat}

/-! ## The records -/

theorem mpInitLoop_returns {i : Nat} {done locals : List CpuLocal}
    (h : (mpInitLoop M x2apicMode bspLapicId i done lapicBase cpus).outcome = .returns (locals, base)) :
    ∃ new, locals = done ++ new ∧
      new.map (fun c => (c.lapicId, c.isBsp)) = cpus.map fun c => (c.lapicId, c.lapicId == bspLapicId) := by
  induction cpus generalizing i done lapicBase with
  | nil =>
    obtain ⟨rfl, -⟩ := Prod.mk.inj (Outcome.returns.inj h)
    exact ⟨[], (List.append_nil _).symm, rfl⟩
  | cons cpu cpus ih =>
    obtain ⟨⟨freq, base'⟩, -, h⟩ := bind_returns h
    obtain ⟨new, rfl, hnew⟩ := ih h
    refine ⟨_, (List.append_assoc _ _ _), ?_⟩
    rw [List.singleton_append, List.map_cons, List.map_cons, hnew]
    by_cases hb : cpu.lapicId = bspLapicId <;> simp [hb]

/-! ## The interrupts -/

/-- One call of `lapic_send_ipi` sends one interrupt, to the id it is given. -/
theorem sent_lapicSendIpi {hhdm id : Nat} (hv : vec < 256) (hid : id < if x2apicMode then 2 ^ 32 else 256)
    (hb : xapicBase hhdm self lapicBase = base) :
    ∃ lapicBase', (lapicSendIpi hhdm x2apicMode self lapicBase id vec).outcome = .returns lapicBase' ∧
      xapicBase hhdm self lapicBase' = base ∧
      ∀ high es, ∃ high', sent x2apicMode base high
        ((lapicSendIpi hhdm x2apicMode self lapicBase id vec).events ++ es) =
          ⟨vec, id⟩ :: sent x2apicMode base high' es := by
  cases x2apicMode with
  | true =>
    have hval : ((id <<< 32) ||| vec) % 2 ^ 64 = id * 2 ^ 32 + vec := by
      simp only [if_true] at hid
      rw [Nat.shiftLeft_eq, Nat.mul_comm, ← Nat.two_pow_add_eq_or_of_lt (by omega), Nat.mul_comm,
        Nat.mod_eq_of_lt (by omega)]
    refine ⟨lapicBase, rfl, hb, ?_⟩
    intro high es
    refine ⟨high, ?_⟩
    change sent true base high (.wrmsr 0x830 (((id <<< 32) ||| vec) % 2 ^ 64) :: es) = _
    rw [hval, sent]
    simp only [beq_self_eq_true, Bool.and_self, if_true, List.cons.injEq, Ipi.mk.injEq, and_true]
    omega
  | false =>
    simp only [Bool.false_eq_true, if_false] at hid
    have hagain : xapicBase hhdm self base = base := by rw [← hb, xapicBase_xapicBase]
    have hrun : lapicSendIpi hhdm false self lapicBase id vec =
        ⟨[.access (base + 0x310) 4 (some (id * 2 ^ 24)), .access (base + 0x300) 4 (some vec)],
          .returns base⟩ := by
      change (⟨[.access (xapicBase hhdm self lapicBase + 0x310) 4 (some ((id <<< 24) % 2 ^ 32)),
        .access (xapicBase hhdm self (xapicBase hhdm self lapicBase) + 0x300) 4 (some (vec % 2 ^ 32))],
          .returns (xapicBase hhdm self (xapicBase hhdm self lapicBase))⟩ : Boot Nat) = _
      rw [hb, hagain, Nat.shiftLeft_eq, Nat.mod_eq_of_lt (by omega), Nat.mod_eq_of_lt (by omega)]
    rw [hrun]
    refine ⟨base, rfl, hagain, ?_⟩
    intro high es
    refine ⟨id * 2 ^ 24, ?_⟩
    simp [sent]

/-- The loop of `panic` sends one interrupt for each record without `is_bsp`, in their order. -/
theorem sent_panicIpis (hv : M.isrAbortVector < 256)
    (hid : ∀ c ∈ cpuLocals, c.lapicId < if x2apicMode then 2 ^ 32 else 256)
    (hb : xapicBase M.hhdm self lapicBase = base) (high : Nat) :
    sent x2apicMode base high (panicIpis M x2apicMode true self lapicBase cpuLocals).events =
      (cpuLocals.filter (!·.isBsp)).map fun c => ⟨M.isrAbortVector, c.lapicId⟩ := by
  unfold panicIpis
  rw [if_pos rfl]
  induction cpuLocals generalizing lapicBase high with
  | nil => rfl
  | cons c cpuLocals ih =>
    have hids : ∀ c ∈ cpuLocals, c.lapicId < if x2apicMode then 2 ^ 32 else 256 :=
      fun c hc => hid c (List.mem_cons_of_mem _ hc)
    rw [List.foldlM_cons]
    cases hbsp : c.isBsp with
    | true =>
      rw [List.filter_cons_of_neg (by simp [hbsp])]
      exact ih hids hb high
    | false =>
      obtain ⟨lapicBase', hret, hb', hsent⟩ :=
        sent_lapicSendIpi hv (hid c List.mem_cons_self) hb
      simp only [Bool.not_false, if_true]
      rw [bind_events hret, List.filter_cons_of_pos (by simp [hbsp]), List.map_cons]
      obtain ⟨high', hhigh⟩ := hsent high _
      rw [hhigh, ih hids hb' high']

/-! ## Whom they reach -/

/-- Interrupts for all ids but one reach each of the others once exactly if that one is `self` and
nobody else has the id that means everyone. -/
theorem stopsOthers_iff (hv : vec < 256) (hnd : ids.Nodup) {own : Nat} (hself : own ∈ ids) :
    StopsOthers x2apicMode vec ids own ((ids.filter (· ≠ bspLapicId)).map fun id => ⟨vec, id⟩) ↔
      own = bspLapicId ∧ ∀ id ∈ ids, id ≠ own → id ≠ everyone x2apicMode := by
  have hcount : ∀ id, ((ids.filter (· ≠ bspLapicId)).map fun id => (⟨vec, id⟩ : Ipi)).countP
      (·.reaches x2apicMode vec id) =
        ids.countP fun d => d ≠ bspLapicId ∧ (d = id ∨ d = everyone x2apicMode) := by
    intro id
    rw [List.countP_map, List.countP_filter]
    refine List.countP_congr fun d _ => ?_
    simp [Ipi.reaches, hv, and_comm]
  unfold StopsOthers
  simp only [hcount]
  constructor
  · intro h
    have h0 := h own hself
    rw [if_pos rfl, List.countP_eq_zero] at h0
    simp only [decide_eq_true_eq, not_and, not_or] at h0
    have hown : own = bspLapicId := by
      by_contra hne
      exact (h0 own hself hne).1 rfl
    refine ⟨hown, ?_⟩
    intro id hid hne
    exact (h0 id hid (hown ▸ hne)).2
  · rintro ⟨rfl, hnone⟩ id hid
    have hsame : (ids.countP fun d => d ≠ own ∧ (d = id ∨ d = everyone x2apicMode)) =
        ids.countP fun d => d ≠ own ∧ d = id := by
      refine List.countP_congr fun d hd => ?_
      have := hnone d hd
      simp only [decide_eq_true_eq]
      tauto
    rw [hsame]
    by_cases hself : id = own
    · rw [if_pos hself, List.countP_eq_zero]
      simp only [decide_eq_true_eq, not_and]
      intro d _ hne he
      exact hne (he.trans hself)
    · have heq : (ids.countP fun d => d ≠ own ∧ d = id) = ids.count id := by
        refine List.countP_congr fun d _ => ?_
        simp only [decide_eq_true_eq, beq_iff_eq]
        constructor
        · exact fun h => h.2
        · rintro rfl
          exact ⟨hself, rfl⟩
      rw [if_neg hself, heq, List.count_eq_one_of_mem hnd hid]

/-- After `mp_init` the interrupts of a panic go to every id but that of the bootstrap processor. -/
theorem sent_after_mpInit {mp : MpResponse} (h : (mpInit M mp).outcome = .returns (cpuLocals, lapicBase))
    (hid : ∀ c ∈ mp.cpus, c.lapicId < if mp.x2apic then 2 ^ 32 else 256) (hv : M.isrAbortVector < 256)
    (self : Cpu) (high : Nat) :
    sent mp.x2apic (xapicBase M.hhdm self lapicBase) high
        (panicIpis M mp.x2apic true self lapicBase cpuLocals).events =
      ((mp.cpus.map Cpu.lapicId).filter (· ≠ mp.bsp.lapicId)).map fun id => ⟨M.isrAbortVector, id⟩ := by
  obtain ⟨new, hlocals, hnew⟩ := mpInitLoop_returns h
  rw [List.nil_append] at hlocals
  subst hlocals
  have hids : cpuLocals.map CpuLocal.lapicId = mp.cpus.map Cpu.lapicId := by
    have := congrArg (List.map Prod.fst) hnew
    rwa [List.map_map, List.map_map] at this
  have hidl : ∀ c ∈ cpuLocals, c.lapicId < if mp.x2apic then 2 ^ 32 else 256 := by
    intro c hc
    have hmem : c.lapicId ∈ mp.cpus.map Cpu.lapicId := hids ▸ List.mem_map_of_mem hc
    obtain ⟨cpu, hcpu, he⟩ := List.mem_map.mp hmem
    exact he ▸ hid cpu hcpu
  have hothers : (cpuLocals.filter (!·.isBsp)).map CpuLocal.lapicId =
      (mp.cpus.map Cpu.lapicId).filter (· ≠ mp.bsp.lapicId) := by
    have := congrArg (fun l => (l.filter (!·.2)).map Prod.fst) hnew
    simp only [List.filter_map, List.map_map] at this ⊢
    refine this.trans (congrArg _ (List.filter_congr fun c _ => ?_))
    by_cases hc : c.lapicId = mp.bsp.lapicId <;> simp [hc]
  rw [sent_panicIpis hv hidl rfl, ← hothers, List.map_map]
  rfl

/-- **A panic stops every other processor exactly if it happens on the bootstrap processor**, and
no other one has the id that means everyone. -/
theorem panic_stops_others_iff (M : Machine) (mp : MpResponse) (cpuLocals : List CpuLocal) (lapicBase : Nat)
    (h : (mpInit M mp).outcome = .returns (cpuLocals, lapicBase)) (hnd : (mp.cpus.map Cpu.lapicId).Nodup)
    (hid : ∀ c ∈ mp.cpus, c.lapicId < if mp.x2apic then 2 ^ 32 else 256) (hv : M.isrAbortVector < 256)
    (self : Cpu) (hself : self ∈ mp.cpus) (high : Nat) :
    StopsOthers mp.x2apic M.isrAbortVector (mp.cpus.map Cpu.lapicId) self.lapicId
        (sent mp.x2apic (xapicBase M.hhdm self lapicBase) high
          (panicIpis M mp.x2apic true self lapicBase cpuLocals).events) ↔
      self.lapicId = mp.bsp.lapicId ∧
        ∀ c ∈ mp.cpus, c.lapicId ≠ self.lapicId → c.lapicId ≠ everyone mp.x2apic := by
  rw [sent_after_mpInit h hid hv, stopsOthers_iff hv hnd (List.mem_map_of_mem hself)]
  simp only [List.forall_mem_map]

/-! ## Two processors -/

def plainCpu (lapicId : Nat) : Cpu := ⟨lapicId, fun _ => 0xfee00000, false, false, 1000000000, []⟩

def twoCpus (x2apic : Bool) : MpResponse := ⟨x2apic, plainCpu 4, [plainCpu 2, plainCpu 4]⟩

def plainMachine : Machine := ⟨⟨none, none, 0, [], 0xffff800000000000⟩, fun _ => 0, none, none, [], 0x20⟩

theorem twoCpus_init (x2apic : Bool) : ∃ cpuLocals lapicBase,
    (mpInit plainMachine (twoCpus x2apic)).outcome = .returns (cpuLocals, lapicBase) := by
  cases x2apic
  · exact ⟨_, _, rfl⟩
  · exact ⟨_, _, rfl⟩

theorem panic_stops_others_iff_bsp : ∃ cpuLocals lapicBase,
    (mpInit plainMachine (twoCpus false)).outcome = .returns (cpuLocals, lapicBase) ∧
    StopsOthers false 0x20 [2, 4] 4 (sent false (xapicBase plainMachine.hhdm (plainCpu 4) lapicBase) 0
      (panicIpis plainMachine false true (plainCpu 4) lapicBase cpuLocals).events) := by
  obtain ⟨cpuLocals, lapicBase, h⟩ := twoCpus_init false
  have hiff := panic_stops_others_iff plainMachine (twoCpus false) cpuLocals lapicBase h (by decide)
    (by decide) (by decide) (plainCpu 4) (by simp [twoCpus]) 0
  exact ⟨cpuLocals, lapicBase, h, hiff.mpr (by decide)⟩

/-- On the other processor, the one interrupt goes to itself. -/
theorem twoCpus_sent (x2apic : Bool) : ∃ cpuLocals lapicBase,
    (mpInit plainMachine (twoCpus x2apic)).outcome = .returns (cpuLocals, lapicBase) ∧
    sent x2apic (xapicBase plainMachine.hhdm (plainCpu 2) lapicBase) 0
      (panicIpis plainMachine x2apic true (plainCpu 2) lapicBase cpuLocals).events = [⟨0x20, 2⟩] := by
  obtain ⟨cpuLocals, lapicBase, h⟩ := twoCpus_init x2apic
  have hid : ∀ c ∈ (twoCpus x2apic).cpus, c.lapicId < if x2apic then 2 ^ 32 else 256 := by
    cases x2apic <;> decide
  exact ⟨cpuLocals, lapicBase, h, sent_after_mpInit h hid (by decide) (plainCpu 2) 0⟩

/-- The other processor panics: it interrupts itself, and the bootstrap processor goes on. -/
theorem panic_elsewhere_stops_itself :
    (∃ cpuLocals lapicBase, (mpInit plainMachine (twoCpus false)).outcome = .returns (cpuLocals, lapicBase) ∧
      ¬ StopsOthers false 0x20 [2, 4] 2 (sent false (xapicBase plainMachine.hhdm (plainCpu 2) lapicBase) 0
        (panicIpis plainMachine false true (plainCpu 2) lapicBase cpuLocals).events)) ∧
    ∃ cpuLocals lapicBase, (mpInit plainMachine (twoCpus true)).outcome = .returns (cpuLocals, lapicBase) ∧
      ¬ StopsOthers true 0x20 [2, 4] 2 (sent true (xapicBase plainMachine.hhdm (plainCpu 2) lapicBase) 0
        (panicIpis plainMachine true true (plainCpu 2) lapicBase cpuLocals).events) := by
  constructor
  · obtain ⟨cpuLocals, lapicBase, h, hsent⟩ := twoCpus_sent false
    refine ⟨cpuLocals, lapicBase, h, ?_⟩
    rw [hsent]
    unfold StopsOthers
    decide
  · obtain ⟨cpuLocals, lapicBase, h, hsent⟩ := twoCpus_sent true
    refine ⟨cpuLocals, lapicBase, h, ?_⟩
    rw [hsent]
    unfold StopsOthers
    decide

end Cynix.Sys.PanicIpis
