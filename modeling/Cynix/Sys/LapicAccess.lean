import Cynix.Sys.DeviceAccess

/-! # The registers of the local APIC on the boot path

After `acpi_init` the kernel turns to the local APIC. In x2APIC mode it uses
model-specific registers; in xAPIC mode it reads and writes a page of the
window whose address the first access takes from the base register, and which
nothing on the path maps. The boot path is in order exactly if that page
happens to be mapped for another reason. -/
namespace Cynix.Sys.LapicAccess
open Cynix.Base.Bytes Cynix.Base.Pages Cynix.Base.Trace Cynix.Lib.Misc Cynix.Lib.Alloc
open Cynix.Mm.Pmm Cynix.Mm.Vmm Cynix.Mm.VmmRuns Cynix.Mm.VmmInit Cynix.Mm.KernelSpace Cynix.Mm.Access
open Cynix.Acpi.Tables Cynix.Acpi.Lookup Cynix.Sys.Devices Cynix.Sys.Boot Cynix.Sys.DeviceAccess

/-! ## Accesses through `lapic_base` -/

section
variable {init : List Call} {past : List Event} {hhdm B lapicBase : Nat} {mem : Mem} {x2apicMode : Bool}
  {cpu : Cpu}

/-- In xAPIC mode the registers are at `B`, and their page is mapped. -/
def Ready (x2apicMode : Bool) (init : List Call) (B base : Nat) (past : List Event) : Prop :=
  x2apicMode = false → base = B ∧ Covers (init ++ callsOf past) B 4096

/-- The base is kept, on whatever processor. -/
theorem Ready.cached (hB : B ≠ 0) (h : Ready x2apicMode init B lapicBase past) :
    Ready x2apicMode init B (xapicBase hhdm cpu lapicBase) past := by
  intro hx
  obtain ⟨rfl, hcov⟩ := h hx
  exact ⟨if_neg hB, hcov⟩

theorem safe_lapicRead {reg : Nat} (hreg : reg < 4096)
    (h : Ready x2apicMode init B (xapicBase hhdm cpu lapicBase) past) :
    Safe (Allowed init) past (lapicRead hhdm mem x2apicMode cpu lapicBase reg)
      (fun r l => Ready x2apicMode init B r.2 l) := by
  unfold lapicRead
  cases x2apicMode with
  | true => exact Safe.pure fun hx => nomatch hx
  | false =>
    obtain ⟨hbase, hcov⟩ := h rfl
    simp only [Bool.false_eq_true, if_false, hbase]
    refine (Safe.emit (P := fun _ l => Covers (init ++ callsOf l) B 4096)
      (hcov.sub (by omega) (by omega)) (hcov.later _)).bind fun _ hcov' => ?_
    exact Safe.pure fun _ => ⟨rfl, hcov'⟩

theorem safe_xapicWrite {reg val : Nat} (hreg : reg < 4096) (hbase : xapicBase hhdm cpu lapicBase = B)
    (hcov : Covers (init ++ callsOf past) B 4096) :
    Safe (Allowed init) past (xapicWrite hhdm cpu lapicBase reg val)
      (fun base l => base = B ∧ Covers (init ++ callsOf l) B 4096) := by
  unfold xapicWrite
  simp only [hbase]
  refine (Safe.emit (P := fun _ l => Covers (init ++ callsOf l) B 4096)
    (hcov.sub (by omega) (by omega)) (hcov.later _)).bind fun _ hcov' => ?_
  exact Safe.pure ⟨rfl, hcov'⟩

theorem safe_x2apicWrite {reg val : Nat} :
    Safe (Allowed init) past (x2apicWrite reg val) fun _ _ => True :=
  Safe.emit trivial trivial

theorem safe_lapicWrite {reg val : Nat} (hreg : reg < 4096)
    (h : Ready x2apicMode init B (xapicBase hhdm cpu lapicBase) past) :
    Safe (Allowed init) past (lapicWrite hhdm x2apicMode cpu lapicBase reg val)
      (fun base l => Ready x2apicMode init B base l) := by
  unfold lapicWrite
  cases x2apicMode with
  | true => exact safe_x2apicWrite.bind fun _ _ => Safe.pure fun hx => nomatch hx
  | false =>
    obtain ⟨hbase, hcov⟩ := h rfl
    exact (safe_xapicWrite hreg hbase hcov).mono fun _ hb _ => hb

theorem safe_lapicTimerStop (hB : B ≠ 0)
    (h : Ready x2apicMode init B (xapicBase hhdm cpu lapicBase) past) :
    Safe (Allowed init) past (lapicTimerStop hhdm x2apicMode cpu lapicBase)
      (fun base l => Ready x2apicMode init B base l) := by
  unfold lapicTimerStop
  refine (safe_lapicWrite (by decide) h).bind fun base hb => ?_
  exact safe_lapicWrite (by decide) (hb.cached hB)

theorem safe_pollTimer (hB : B ≠ 0) {n : Nat}
    (h : Ready x2apicMode init B (xapicBase hhdm cpu lapicBase) past) :
    Safe (Allowed init) past (pollTimer hhdm mem x2apicMode cpu lapicBase n)
      (fun base l => Ready x2apicMode init B base l) := by
  induction n generalizing lapicBase past with
  | zero => exact (safe_lapicRead (by decide) h).bind fun _ hb => Safe.pure hb
  | succ n ih => exact (safe_lapicRead (by decide) h).bind fun _ hb => ih (hb.cached hB)

theorem safe_measureLoop (hB : B ≠ 0) {samples : Nat} {rounds : List Round}
    (h : Ready x2apicMode init B (xapicBase hhdm cpu lapicBase) past) :
    Safe (Allowed init) past (measureLoop hhdm mem x2apicMode cpu lapicBase samples rounds)
      (fun r l => Ready x2apicMode init B r.2 l) := by
  induction rounds generalizing lapicBase samples past with
  | nil => exact Safe.running
  | cons round rounds ih =>
    unfold measureLoop
    refine (safe_lapicWrite (by decide) h).bind fun base hb => ?_
    refine (safe_pollTimer hB (hb.cached hB)).bind fun base hb => ?_
    by_cases ht : sub64 round.initialPitTick round.finalPitTick < 0x4000
    · simp only [ht, if_true]
      exact ih (hb.cached hB)
    · simp only [ht, if_false]
      exact Safe.pure hb

theorem safe_lapicTimerCalibrate (hB : B ≠ 0)
    (h : Ready x2apicMode init B (xapicBase hhdm cpu lapicBase) past) :
    Safe (Allowed init) past (lapicTimerCalibrate hhdm mem x2apicMode cpu lapicBase)
      (fun r l => Ready x2apicMode init B r.2 l) := by
  unfold lapicTimerCalibrate
  refine (safe_lapicTimerStop hB h).bind fun base hb => ?_
  refine (safe_lapicWrite (by decide) (hb.cached hB)).bind fun base hb => ?_
  refine (safe_lapicWrite (by decide) (hb.cached hB)).bind fun base hb => ?_
  by_cases hc : cpu.coreClock ≠ 0
  · rw [if_pos hc]
    exact Safe.pure hb
  · rw [if_neg hc]
    refine (safe_measureLoop hB (hb.cached hB)).bind fun r hb => ?_
    refine (safe_lapicTimerStop hB (hb.cached hB)).bind fun base hb => ?_
    exact Safe.pure hb

theorem safe_lapicEnable (hB : B ≠ 0) {spuriousVec : Nat}
    (h : Ready x2apicMode init B (xapicBase hhdm cpu lapicBase) past) :
    Safe (Allowed init) past (lapicEnable hhdm mem x2apicMode cpu lapicBase spuriousVec)
      (fun base l => Ready x2apicMode init B base l) := by
  unfold lapicEnable
  refine (safe_lapicRead (by decide) h).bind fun r hb => ?_
  exact safe_lapicWrite (by decide) (hb.cached hB)

theorem safe_lapicSendIpi (hB : B ≠ 0) {lapicId vec : Nat}
    (h : Ready x2apicMode init B (xapicBase hhdm cpu lapicBase) past) :
    Safe (Allowed init) past (lapicSendIpi hhdm x2apicMode cpu lapicBase lapicId vec)
      (fun base l => Ready x2apicMode init B base l) := by
  unfold lapicSendIpi
  cases x2apicMode with
  | true => exact safe_x2apicWrite.bind fun _ _ => Safe.pure fun hx => nomatch hx
  | false =>
    obtain ⟨hbase, hcov⟩ := h rfl
    refine (safe_xapicWrite (by decide) hbase hcov).bind fun base hb => ?_
    obtain ⟨rfl, hcov'⟩ := hb
    exact (safe_xapicWrite (by decide) (if_neg hB) hcov').mono fun _ hb _ => hb

end

/-! ## The boot path after `acpi_init` -/

section
variable {M : Machine} {init : List Call} {past : List Event} {B lapicBase : Nat} {x2apicMode : Bool}

theorem safe_cpuInit (hB : B ≠ 0) {cpu : Cpu}
    (h : Ready x2apicMode init B (xapicBase M.hhdm cpu lapicBase) past) :
    Safe (Allowed init) past (cpuInit M x2apicMode cpu lapicBase)
      (fun r l => Ready x2apicMode init B r.2 l) := by
  unfold cpuInit
  by_cases hc : cpu.xsave && !cpu.xsaveLeaf
  · rw [if_pos hc]
    exact Safe.stop
  · rw [if_neg hc]
    refine (safe_lapicEnable hB h).bind fun base hb => ?_
    exact safe_lapicTimerCalibrate hB (hb.cached hB)

theorem safe_mpLoop (hB : B ≠ 0) {cpus : List Cpu} (h : Ready x2apicMode init B lapicBase past) :
    Safe (Allowed init) past (mpLoop M x2apicMode lapicBase cpus)
      (fun base l => Ready x2apicMode init B base l) := by
  induction cpus generalizing lapicBase past with
  | nil => exact Safe.pure h
  | cons cpu cpus ih => exact (safe_cpuInit hB (h.cached hB)).bind fun _ hb => ih hb

theorem safe_sendIpis (hB : B ≠ 0) {bsp : Cpu} {cpus : List Cpu}
    (h : Ready x2apicMode init B lapicBase past) :
    Safe (Allowed init) past (sendIpis M x2apicMode bsp lapicBase cpus)
      (fun base l => Ready x2apicMode init B base l) := by
  induction cpus generalizing lapicBase past with
  | nil => exact Safe.pure h
  | cons cpu cpus ih =>
    unfold sendIpis
    by_cases hid : cpu.lapicId = bsp.lapicId
    · rw [if_pos hid]
      exact ih h
    · rw [if_neg hid]
      exact (safe_lapicSendIpi hB (h.cached hB)).bind fun _ hb => ih hb

/-- The part of `kmain` behind `acpi_init`. -/
def afterAcpi (M : Machine) (mp : MpResponse) : Boot Unit := do
  let base ← mpLoop M mp.x2apic 0 mp.cpus
  let _ ← sendIpis M mp.x2apic mp.bsp base mp.cpus
  stop "Nothing to do"

/-- The page of the registers, by the base register of the processor. -/
def lapicPage (cpu : Cpu) : Nat := cpu.msr 0x1b &&& 0xfffff000

theorem lapicPage_bits (cpu : Cpu) : lapicPage cpu % 4096 = 0 ∧ lapicPage cpu < 2 ^ 32 := by
  have h : lapicPage cpu = cpu.msr 0x1b % 2 ^ 32 - cpu.msr 0x1b % 2 ^ 12 :=
    and_bits (cpu.msr 0x1b) (a := 12) (b := 32) (by decide)
  omega

theorem xapicBase_zero (hM : MachineOk M) (cpu : Cpu) :
    xapicBase M.hhdm cpu 0 = M.hhdm + lapicPage cpu := by
  have h1 := (lapicPage_bits cpu).2
  have h2 := hM.high
  have h3 : xapicBase M.hhdm cpu 0 = (lapicPage cpu + M.hhdm) % 2 ^ 64 := if_pos rfl
  omega

/-- A page is covered as soon as one of its addresses is. -/
theorem covers_page {calls : List Call} {x : Nat} (hB : B % 4096 = 0) (h : Present calls x)
    (hx : x / 4096 * 4096 = B) : Covers calls B 4096 := by
  intro y h1 h2
  have hpage : x / 4096 * 4096 = y / 4096 * 4096 := by omega
  obtain ⟨c, hc, hv, hf⟩ := h
  exact ⟨c, hc, hv.trans hpage, hf⟩

/-- **The registers are touched in order exactly if their page is mapped** when the first
processor comes to them in xAPIC mode. -/
theorem guarded_afterAcpi (hM : MachineOk M) (mp : MpResponse) :
    Guarded (Allowed init) past (afterAcpi M mp).events ↔
      ∀ cpu cpus, mp.x2apic = false → mp.cpus = cpu :: cpus → (cpu.xsave && !cpu.xsaveLeaf) = false →
        Present (init ++ callsOf past) (M.hhdm + lapicPage cpu) := by
  constructor
  · intro h cpu cpus hx hcpus hcpuid
    -- the read in `lapic_enable` is the first event
    have hfirst : Guarded (Allowed init) past (load32 M.mem (M.hhdm + lapicPage cpu + 0xf0)).events := by
      refine h.of_initial ?_
      unfold afterAcpi
      rw [hcpus, hx]
      refine List.IsPrefix.trans ?_ (bind_events_le _ _)
      refine List.IsPrefix.trans ?_ (bind_events_le (cpuInit M false cpu 0) _)
      unfold cpuInit
      rw [hcpuid, ← xapicBase_zero hM]
      refine List.IsPrefix.trans ?_ (bind_events_le (lapicEnable M.hhdm M.mem false cpu 0 0xff) _)
      refine List.IsPrefix.trans ?_ (bind_events_le (lapicRead M.hhdm M.mem false cpu 0 lapicRegSpurious) _)
      exact bind_events_le (load32 M.mem (xapicBase M.hhdm cpu 0 + 0xf0)) _
    have hcov : Covers (init ++ callsOf past) (M.hhdm + lapicPage cpu + 0xf0) 4 :=
      (guarded_cons.mp hfirst).1
    have h1 := hM.aligned
    have h2 := (lapicPage_bits cpu).1
    have hpage : (M.hhdm + lapicPage cpu + 0xf0) / 4096 * 4096 = (M.hhdm + lapicPage cpu) / 4096 * 4096 := by
      omega
    obtain ⟨c, hc, hv, hf⟩ := hcov _ le_rfl (by omega)
    exact ⟨c, hc, hv.trans hpage, hf⟩
  · intro h
    unfold afterAcpi
    cases hcpus : mp.cpus with
    | nil => exact guarded_nil
    | cons cpu cpus =>
      have hB : M.hhdm + lapicPage cpu ≠ 0 := hM.ptr_ne _
      by_cases hcpuid : cpu.xsave && !cpu.xsaveLeaf
      · -- `cpu_init` panics before it touches a register
        have hstop : ∀ base, cpuInit M mp.x2apic cpu base = stop "CPUID failure" := fun base => if_pos hcpuid
        simp only [mpLoop, hstop]
        exact guarded_nil
      · have hready : Ready mp.x2apic init (M.hhdm + lapicPage cpu) (xapicBase M.hhdm cpu 0) past := by
          intro hx
          have hpres := h cpu cpus hx hcpus (Bool.eq_false_iff.mpr hcpuid)
          have h1 := hM.aligned
          have h2 := (lapicPage_bits cpu).1
          exact ⟨xapicBase_zero hM cpu, covers_page (by omega) hpres (by omega)⟩
        refine (show Safe (Allowed init) past _ (fun _ _ => True) from ?_).events
        refine Safe.bind (P := fun base l => Ready mp.x2apic init (M.hhdm + lapicPage cpu) base l) ?_
          fun base hb => ?_
        · exact (safe_cpuInit hB hready).bind fun _ hb => safe_mpLoop hB hb
        · exact (safe_sendIpis hB hb).bind fun _ _ => Safe.stop

end

/-! ## When the boot path is in order -/

/-- The ways in which a page of the window is mapped once `acpi_init` has
returned; `file` is the memory `vmm_init` finds the kernel file in. -/
inductive PageMapped (M : Machine) (file : Mem) (address page : Nat) : Prop where
  | entry {e : MemmapEntry} : e ∈ M.boot.memmap → isMapped e.type → Lies e page →
      PageMapped M file address page
  | segment {p : Phdr} : p ∈ loads file M.boot.kernelFile → InPages p (M.hhdm + page) →
      PageMapped M file address page
  | span {p len : Nat} : (p, len) ∈ acpiSpans M address → p / 4096 * 4096 ≤ page → page < p + len →
      PageMapped M file address page

/-- The page of the registers is mapped, if the boot path comes to them in xAPIC mode. -/
def LapicOk (M : Machine) (file : Mem) : Prop :=
  ∀ mp cpu cpus address, M.mp = some mp → mp.x2apic = false → mp.cpus = cpu :: cpus →
    M.rsdp = some address → address ≠ 0 → AcpiReturns M address →
    (cpu.xsave && !cpu.xsaveLeaf) = false → PageMapped M file address (lapicPage cpu)

section
variable {σ : Type} {A : PageAllocator σ} {M : Machine} {file : Mem}
  {physicalBase virtualBase address page : Nat}

theorem present_iff_pageMapped (hb : BootOk A M.boot file physicalBase virtualBase) (hM : MachineOk M)
    (ht : TablesOk M address) (hp : page % 4096 = 0) {α : Type} {x : Boot α} {a : α}
    (hx : Does M.hhdm mmioFlags (initCalls M.boot file physicalBase virtualBase) [] x a
      (acpiSpans M address)) :
    Present (initCalls M.boot file physicalBase virtualBase ++ callsOf x.events) (M.hhdm + page) ↔
      PageMapped M file address page := by
  have hpage : (M.hhdm + page) / 4096 * 4096 = M.hhdm + page := by
    have := hM.aligned
    omega
  rw [hx.calls_eq]
  constructor
  · intro hcall
    obtain ⟨c, hc, hv, _⟩ := hcall
    rw [hpage] at hv
    rcases List.mem_append.mp hc with hc | hc
    · rcases mem_initCalls.mp hc with ⟨p, hp, hc⟩ | ⟨e, he, hc⟩
      · obtain ⟨v, hin, -, rfl⟩ := (mem_segmentCalls hb hp).mp hc
        exact .segment hp (hv ▸ hin)
      · obtain ⟨hm, q, hl, rfl⟩ := (mem_entryCalls hb he).mp hc
        obtain rfl : q = page := Nat.add_left_cancel hv
        exact .entry he hm hl
    · obtain ⟨s, hs, hc⟩ := List.mem_flatMap.mp hc
      obtain ⟨q, -, h1, h2, rfl⟩ := (mem_vmmMapSpan hM.aligned (acpiSpans_window hM ht s hs)).mp hc
      obtain rfl : q = page := Nat.add_left_cancel hv
      exact .span hs h1 h2
  · intro h
    unfold Present
    rw [hpage]
    cases h with
    | @entry e he hm hl =>
      have hc := (mem_entryCalls hb he).mpr ⟨hm, page, hl, rfl⟩
      exact ⟨_, List.mem_append_left _ (mem_initCalls.mpr (.inr ⟨e, he, hc⟩)), rfl,
        (entryFlags_bits e.type).1⟩
    | @segment p hp hin =>
      have hc := (mem_segmentCalls hb hp).mpr ⟨_, hin, by have := hM.aligned; omega, rfl⟩
      exact ⟨_, List.mem_append_left _ (mem_initCalls.mpr (.inl ⟨p, hp, hc⟩)), rfl,
        (segmentFlags_bits p).1⟩
    | @span p len hs h1 h2 =>
      have hc : ⟨M.hhdm + page, page, mmioFlags⟩ ∈ vmmMapSpan (M.hhdm + p) p len mmioFlags :=
        (mem_vmmMapSpan hM.aligned (acpiSpans_window hM ht _ hs)).mpr ⟨page, hp, h1, h2, rfl⟩
      exact ⟨_, List.mem_append_right _ (List.mem_flatMap.mpr ⟨_, hs, hc⟩), rfl, mmioFlags_present⟩

/-- The boot path behind `acpi_init`, when that has returned. -/
theorem guarded_boot_iff (hb : BootOk A M.boot file physicalBase virtualBase) (hM : MachineOk M)
    {mp : MpResponse} (hmp : M.mp = some mp) (hrsdp : M.rsdp = some address) (hne : address ≠ 0)
    (hret : AcpiReturns M address) :
    Guarded (Allowed (initCalls M.boot file physicalBase virtualBase)) [] (kmain M).events ↔
      ∀ cpu cpus, mp.x2apic = false → mp.cpus = cpu :: cpus → (cpu.xsave && !cpu.xsaveLeaf) = false →
        PageMapped M file address (lapicPage cpu) := by
  have htries : Tries M.hhdm mmioFlags (initCalls M.boot file physicalBase virtualBase) []
      (acpiInit M mp.x2apic) _ _ _ := tries_acpiInit hM hrsdp hne
  obtain ⟨a, -, hacpi⟩ := htries.does hret
  have hkmain : kmain M = acpiInit M mp.x2apic >>= fun _ => afterAcpi M mp := by
    unfold kmain
    rw [hmp]
    rfl
  rw [hkmain, bind_events hacpi.returns, guarded_append, and_iff_right hacpi.events,
    guarded_afterAcpi hM]
  simp only [List.nil_append, present_iff_pageMapped hb hM (hM.tables address hrsdp hne)
    (lapicPage_bits _).1 hacpi]

/-- `acpi_init` is in order also where it does not return. -/
theorem guarded_no_acpi {init : List Call} (hM : MachineOk M) {mp : MpResponse} (hmp : M.mp = some mp)
    (hret : ∀ address, M.rsdp = some address → address ≠ 0 → ¬ AcpiReturns M address) :
    Guarded (Allowed init) [] (kmain M).events := by
  have hstuck : Guarded (Allowed init) [] (acpiInit M mp.x2apic).events ∧
      ∀ a, (acpiInit M mp.x2apic).outcome ≠ .returns a := by
    by_cases hr : ∃ address, M.rsdp = some address ∧ address ≠ 0
    · obtain ⟨address, hrsdp, hne⟩ := hr
      exact (tries_acpiInit hM hrsdp hne).fails (hret address hrsdp hne)
    · rw [acpiInit_no_rsdp fun address h => not_not.mp fun hne => hr ⟨address, h, hne⟩]
      exact ⟨guarded_nil, nofun⟩
  unfold kmain
  rw [hmp]
  change Guarded (Allowed init) [] (acpiInit M mp.x2apic >>= fun _ => afterAcpi M mp).events
  rw [(bind_stuck _ hstuck.2).1]
  exact hstuck.1

/-- **The boot path goes through mapped pages exactly if the page of the local APIC is mapped**:
every access to a table, to the HPET or to the xAPIC registers comes after its page was entered
as present, by `vmm_init` or by `vmm_map_span`, if and only if the xAPIC registers are not
reached or their page belongs to something else that was mapped. -/
theorem device_accesses_mapped_iff (A : PageAllocator σ) (M : Machine) (file : Mem)
    (physicalBase virtualBase : Nat) (hb : BootOk A M.boot file physicalBase virtualBase)
    (hM : MachineOk M) :
    Guarded (Allowed (initCalls M.boot file physicalBase virtualBase)) [] (kmain M).events ↔
      LapicOk M file := by
  cases hmp : M.mp with
  | none =>
    unfold kmain
    rw [hmp]
    refine iff_of_true guarded_nil fun mp _ _ _ h => ?_
    rw [hmp] at h
    cases h
  | some mp =>
    by_cases hr : ∃ address, M.rsdp = some address ∧ address ≠ 0 ∧ AcpiReturns M address
    · obtain ⟨address, hrsdp, hne, hret⟩ := hr
      rw [guarded_boot_iff hb hM hmp hrsdp hne hret]
      constructor
      · intro h mp' cpu cpus address' hmp' hx hcpus hrsdp' _ _ hcpuid
        obtain rfl : mp = mp' := Option.some.inj (hmp.symm.trans hmp')
        obtain rfl : address = address' := Option.some.inj (hrsdp.symm.trans hrsdp')
        exact h cpu cpus hx hcpus hcpuid
      · exact fun h cpu cpus hx hcpus hcpuid =>
          h mp cpu cpus address hmp hx hcpus hrsdp hne hret hcpuid
    · have hret : ∀ address, M.rsdp = some address → address ≠ 0 → ¬ AcpiReturns M address :=
        fun address h1 h2 h3 => hr ⟨address, h1, h2, h3⟩
      refine iff_of_true (guarded_no_acpi hM hmp hret) ?_
      exact fun _ _ _ address _ _ _ h1 h2 h3 => absurd h3 (hret address h1 h2)

end

/-! ## A machine

An XSDT with an empty MADT and an HPET, and one processor with the local APIC
at its usual place, apart from the memory map. -/

def tableBytes : Mem :=
  let m := write64 (fun _ => 0) 0xffff8000000e0008 (2 * 2 ^ 56)
  let m := write64 m 0xffff8000000e0018 0xe1000
  let m := write64 m 0xffff8000000e1000 (52 * 2 ^ 32)
  let m := write64 m 0xffff8000000e1024 0xe2000
  let m := write64 m 0xffff8000000e102c 0xe3000
  let m := write64 m 0xffff8000000e2000 (0x43495041 + 44 * 2 ^ 32)
  let m := write64 m 0xffff8000000e3000 (0x54455048 + 56 * 2 ^ 32)
  let m := write64 m 0xffff8000000e302c 0xfed00000
  write64 m 0xffff8000fed00000 (0x429b17f * 2 ^ 32)

def onlyCpu : Cpu :=
  { lapicId := 0
    msr := fun reg => if reg = 0x1b then 0xfee00900 else 0
    xsave := true
    xsaveLeaf := true
    coreClock := 24000000
    rounds := [] }

def apicMachine (x2apic : Bool) : Machine :=
  { boot := smallBoot
    mem := tableBytes
    rsdp := some 0xe0000
    mp := some ⟨x2apic, onlyCpu, [onlyCpu]⟩
    uacpi := [.clock]
    isrAbortVector := 0x20 }

theorem apicMachine_tables (x2apic : Bool) :
    rootAddr tableBytes (rsdpPtr (apicMachine x2apic) 0xe0000) = 0xe1000 ∧
    tables (apicMachine x2apic) 0xe0000 = [0xe2000, 0xe3000] ∧
    tableWith (apicMachine x2apic) 0xe0000 facp = none ∧
    tableWith (apicMachine x2apic) 0xe0000 apic = some 0xe2000 ∧
    tableWith (apicMachine x2apic) 0xe0000 hpetSig = some 0xe3000 ∧
    hpetAddr (apicMachine x2apic) 0xe3000 = 0xfed00000 := by
  cases x2apic <;> decide +kernel

theorem apicMachine_ok (x2apic : Bool) : MachineOk (apicMachine x2apic) := by
  obtain ⟨hroot, htables, -, hapic, hhpet, haddr⟩ := apicMachine_tables x2apic
  have hhdm : (apicMachine x2apic).hhdm = 0xffff800000000000 := rfl
  have hwindow : ∀ p len, p + len ≤ 2 ^ 40 → Window (apicMachine x2apic).hhdm p len := by
    intro p len h
    rw [hhdm]
    exact ⟨by omega, by omega⟩
  have hlen : lengthAt tableBytes (0xffff800000000000 + 0xe1000) = 52 ∧
      lengthAt tableBytes (0xffff800000000000 + 0xe2000) = 44 ∧
      lengthAt tableBytes (0xffff800000000000 + 0xe3000) = 56 := by decide +kernel
  obtain ⟨hl1, hl2, hl3⟩ := hlen
  refine ⟨by rw [hhdm], by rw [hhdm]; decide, ?_, ?_⟩
  · intro address hrsdp _
    obtain rfl : 0xe0000 = address := Option.some.inj hrsdp
    have hptr : rsdtPtr (apicMachine x2apic) 0xe0000 = 0xffff800000000000 + 0xe1000 := by
      cases x2apic <;> decide +kernel
    have hmem : (apicMachine x2apic).mem = tableBytes := rfl
    refine ⟨hwindow _ _ (by decide), ?_, ?_, ?_, ?_, ?_⟩
    · rw [hptr, hmem, hl1]
      decide
    · rw [hptr, hmem, hroot, hl1]
      exact hwindow _ _ (by decide)
    · rw [htables]
      intro p hp
      simp only [List.mem_cons, List.not_mem_nil, or_false] at hp
      rcases hp with rfl | rfl
      · rw [hhdm, hmem, hl2, ← hhdm]
        exact ⟨hwindow _ _ (by decide), hwindow _ _ (by decide)⟩
      · rw [hhdm, hmem, hl3, ← hhdm]
        exact ⟨hwindow _ _ (by decide), hwindow _ _ (by decide)⟩
    · intro p hp
      obtain rfl : 0xe2000 = p := Option.some.inj (hapic.symm.trans hp)
      rw [hhdm, hmem, hl2]
      exact ⟨le_rfl, .done⟩
    · intro p hp
      obtain rfl : 0xe3000 = p := Option.some.inj (hhpet.symm.trans hp)
      rw [haddr, hhdm, hmem, hl3, ← hhdm]
      exact ⟨by decide, hwindow _ _ (by decide)⟩
  · intro addr len h
    cases h with
    | tail _ h => cases h

theorem device_accesses_mapped_x2apic :
    Guarded (Allowed (initCalls smallBoot smallFile 0x200000 0xffffffff80000000)) []
      (kmain (apicMachine true)).events := by
  refine (device_accesses_mapped_iff bump (apicMachine true) smallFile 0x200000 0xffffffff80000000
    smallBoot_ok (apicMachine_ok true)).mpr ?_
  intro mp cpu cpus address hmp hx
  obtain rfl := Option.some.inj hmp
  cases hx

/-- The machine boots up to the local APIC, and no one has mapped its registers. -/
theorem lapic_registers_unmapped :
    ¬ Guarded (Allowed (initCalls smallBoot smallFile 0x200000 0xffffffff80000000)) []
      (kmain (apicMachine false)).events := by
  obtain ⟨-, -, hfacp, hapic, hhpet, -⟩ := apicMachine_tables false
  have hret : AcpiReturns (apicMachine false) 0xe0000 := by
    refine ⟨?_, ?_, 0xe3000, hhpet, by decide +kernel⟩
    · intro hreduced
      obtain ⟨p, hp, _⟩ := hreduced
      rw [hfacp] at hp
      cases hp
    · rw [hapic]
      rfl
  have hspans : ∀ s ∈ acpiSpans (apicMachine false) 0xe0000, s.1 + s.2 ≤ 0xfed00100 := by decide +kernel
  have hnot : ¬ PageMapped (apicMachine false) smallFile 0xe0000 0xfee00000 := by
    intro h
    cases h with
    | @entry e he _ hl =>
      have hhigh := hl.high
      revert hhigh
      have : ∀ e ∈ smallBoot.memmap, ¬ 0xfee00000 < roundUp (e.base + e.length) := by decide
      exact this e he
    | @segment p hp hin =>
      have hp : p ∈ loads smallFile smallBoot.kernelFile := hp
      rw [smallBoot_loads] at hp
      obtain rfl := List.mem_singleton.mp hp
      have hlow : 0xffffffff80000000 ≤ 0xffff800000000000 + 0xfee00000 := hin.1
      omega
    | span hs _ hhigh =>
      have := hspans _ hs
      simp only at this
      omega
  intro h
  have hmapped := (guarded_boot_iff (A := bump) (M := apicMachine false) smallBoot_ok
    (apicMachine_ok false) rfl rfl (by decide) hret).mp h onlyCpu [] rfl rfl rfl
  exact hnot hmapped

end Cynix.Sys.LapicAccess
