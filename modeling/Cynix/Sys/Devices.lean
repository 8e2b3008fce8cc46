import Cynix.Acpi.Tables

/-! # The HPET and the local APIC (`sys/hpet.c`, `sys/lapic.c`) -/
namespace Cynix.Sys.Devices
open Cynix.Base.Bytes Cynix.Base.Trace Cynix.Lib.Misc Cynix.Mm.Access Cynix.Acpi.Tables

/-! ## The HPET -/

/-- `sizeof(struct hpet)`: the registers up to the timers. -/
def sizeofHpet : Nat := 256

/-- `hpet` and `hpet_frequency`. -/
structure Hpet where
  base : Nat
  frequency : Nat
  deriving DecidableEq, Repr

/-- `hpet_read_counter`: `main_counter_value` lies at 0xf0. -/
def hpetReadCounter (mem : Mem) (hpet : Nat) : Boot Nat := load64 mem (hpet + 0xf0)

/-- `hpet_init`. A period of 0 makes the division trap. -/
def hpetInit (hhdm : Nat) (mem : Mem) (rsdp rsdt : Nat) : Boot Hpet := do
  let table ← acpiFindSdt hhdm mem rsdp rsdt hpetSig 0
  if table = 0 then stop "HPET ACPI table not found"
  else
    let address ← load64 mem (table + 44)
    let hpet := (address + hhdm) % 2 ^ 64
    mapSpan hhdm hpet sizeofHpet
    let capabilities ← load64 mem hpet
    let counterClkPeriod := capabilities >>> 32
    if counterClkPeriod = 0 then stop "Division exception"
    else
      store64 (hpet + 0xf0) 0
      let configuration ← load64 mem (hpet + 0x10)
      store64 (hpet + 0x10) (configuration ||| 0b01)
      pure ⟨hpet, 1000000000000000 / counterClkPeriod⟩

/-! ## The local APIC -/

/-- One round of the measurement in `lapic_timer_calibrate`: the PIT before and
after, and how often the timer was found running. -/
structure Round where
  initialPitTick : Nat
  finalPitTick : Nat
  polls : Nat
  deriving DecidableEq, Repr

/-- A processor, as far as it decides what the boot path does. -/
structure Cpu where
  lapicId : Nat
  /-- `rdmsr`. -/
  msr : Nat → Nat
  /-- CPUID reports XSAVE, and it has the leaf 0xd. -/
  xsave : Bool
  xsaveLeaf : Bool
  /-- `ecx` of the leaf 0x15, or 0 where there is none. -/
  coreClock : Nat
  rounds : List Round

def lapicRegIcr0 : Nat := 0x300
def lapicRegIcr1 : Nat := 0x310
def lapicRegSpurious : Nat := 0x0f0
def lapicRegTimer : Nat := 0x320
def lapicRegTimerInitcnt : Nat := 0x380
def lapicRegTimerCurcnt : Nat := 0x390
def lapicRegTimerDiv : Nat := 0x3e0

def pitDividend : Nat := 1193182

section
variable (hhdm : Nat) (mem : Mem) (x2apicMode : Bool) (cpu : Cpu)

/-- `lapic_base`: computed from the base register at the first access, 0 before. -/
def xapicBase (lapicBase : Nat) : Nat :=
  if lapicBase = 0 then ((cpu.msr 0x1b &&& 0xfffff000) + hhdm) % 2 ^ 64 else lapicBase

/-- `lapic_base` is computed once. -/
theorem xapicBase_xapicBase (lapicBase : Nat) :
    xapicBase hhdm cpu (xapicBase hhdm cpu lapicBase) = xapicBase hhdm cpu lapicBase := by
  unfold xapicBase
  split <;> simp_all

/-- `lapic_read`: the value, and `lapic_base` afterwards. -/
def lapicRead (lapicBase reg : Nat) : Boot (Nat × Nat) :=
  if x2apicMode then pure (cpu.msr (0x800 + (reg >>> 4)), lapicBase)
  else do
    let base := xapicBase hhdm cpu lapicBase
    let value ← load32 mem (base + reg / 4 * 4)
    pure (value, base)

/-- `xapic_write` and `x2apic_write`, with `lapic_base` afterwards. -/
def xapicWrite (lapicBase reg val : Nat) : Boot Nat := do
  let base := xapicBase hhdm cpu lapicBase
  store32 (base + reg / 4 * 4) (val % 2 ^ 32)
  pure base

def x2apicWrite (reg val : Nat) : Boot Unit := emit (.wrmsr (0x800 + (reg >>> 4)) (val % 2 ^ 64)) ()

def lapicWrite (lapicBase reg val : Nat) : Boot Nat :=
  if x2apicMode then do
    x2apicWrite reg val
    pure lapicBase
  else xapicWrite hhdm cpu lapicBase reg val

def lapicTimerStop (lapicBase : Nat) : Boot Nat := do
  let base ← lapicWrite hhdm x2apicMode cpu lapicBase lapicRegTimerInitcnt 0
  lapicWrite hhdm x2apicMode cpu base lapicRegTimer (1 <<< 16)

/-- The polling of the current count: `n` reads before the one that finds 0. -/
def pollTimer (lapicBase : Nat) : Nat → Boot Nat
  | 0 => do
    let (_, base) ← lapicRead hhdm mem x2apicMode cpu lapicBase lapicRegTimerCurcnt
    pure base
  | n + 1 => do
    let (_, base) ← lapicRead hhdm mem x2apicMode cpu lapicBase lapicRegTimerCurcnt
    pollTimer base n

/-- The measuring loop: the frequency and `lapic_base`. -/
def measureLoop (lapicBase samples : Nat) : List Round → Boot (Nat × Nat)
  | [] => running
  | round :: rounds => do
    let base ← lapicWrite hhdm x2apicMode cpu lapicBase lapicRegTimerInitcnt samples
    let base ← pollTimer hhdm mem x2apicMode cpu base round.polls
    let pitTicks := sub64 round.initialPitTick round.finalPitTick
    if pitTicks < 0x4000 then measureLoop base (samples * 2 % 2 ^ 64) rounds
    else pure (samples / pitTicks * pitDividend % 2 ^ 64, base)

/-- `lapic_timer_calibrate`: `lapic_timer_freq`, and `lapic_base` afterwards. -/
def lapicTimerCalibrate (lapicBase : Nat) : Boot (Nat × Nat) := do
  let base ← lapicTimerStop hhdm x2apicMode cpu lapicBase
  let base ← lapicWrite hhdm x2apicMode cpu base lapicRegTimer ((1 <<< 16) ||| 0xff)
  let base ← lapicWrite hhdm x2apicMode cpu base lapicRegTimerDiv 0b1011
  if cpu.coreClock ≠ 0 then pure (cpu.coreClock, base)
  else
    let (freq, base) ← measureLoop hhdm mem x2apicMode cpu base 16 cpu.rounds
    let base ← lapicTimerStop hhdm x2apicMode cpu base
    pure (freq, base)

def lapicEnable (lapicBase spuriousVec : Nat) : Boot Nat := do
  let (value, base) ← lapicRead hhdm mem x2apicMode cpu lapicBase lapicRegSpurious
  lapicWrite hhdm x2apicMode cpu base lapicRegSpurious (value ||| (1 <<< 8) ||| spuriousVec)

def lapicSendIpi (lapicBase lapicId vec : Nat) : Boot Nat :=
  if x2apicMode then do
    x2apicWrite lapicRegIcr0 ((lapicId <<< 32) ||| vec)
    pure lapicBase
  else do
    let base ← xapicWrite hhdm cpu lapicBase lapicRegIcr1 (lapicId <<< 24)
    xapicWrite hhdm cpu base lapicRegIcr0 vec

end

end Cynix.Sys.Devices
