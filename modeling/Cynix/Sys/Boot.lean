import Cynix.Sys.Devices

/-! # The boot path after `vmm_init`

`kmain` from there on: `acpi_init`, `mp_init` with `cpu_init` on each processor
in turn, and the panic that ends it. Kernel allocations are taken to succeed;
where one panics the run ends with the events so far. -/
namespace Cynix.Sys.Boot
open Cynix.Base.Bytes Cynix.Base.Trace Cynix.Lib.Misc Cynix.Mm.VmmInit Cynix.Mm.Access
open Cynix.Acpi.Tables Cynix.Sys.Devices

/-- What uACPI asks of the kernel while it is set up. -/
inductive UacpiCall where
  /-- `uacpi_kernel_map`. -/
  | map (addr len : Nat)
  /-- `uacpi_kernel_get_nanoseconds_since_boot`. -/
  | clock
  deriving DecidableEq, Repr

/-- The response to the MP request; `bsp` is the processor that runs `kmain`. -/
structure MpResponse where
  x2apic : Bool
  bsp : Cpu
  cpus : List Cpu

structure Machine where
  boot : BootInfo
  /-- What a load through the window finds. -/
  mem : Mem
  /-- The address in the RSDP response. -/
  rsdp : Option Nat
  mp : Option MpResponse
  uacpi : List UacpiCall
  isrAbortVector : Nat

variable (M : Machine)

def Machine.hhdm : Nat := M.boot.hhdm

/-- uACPI's calls; it uses what it has mapped. -/
def uacpiRun (hpet : Nat) : List UacpiCall → Boot Unit
  | [] => pure ()
  | .map addr len :: calls => do
    let _ ← emit (.map ((addr + M.hhdm) % 2 ^ 64) addr len mmioFlags) ()
    uacpiRun hpet calls
  | .clock :: calls => do
    let _ ← hpetReadCounter M.mem hpet
    uacpiRun hpet calls

/-- The check of `HW_REDUCED_ACPI` in `acpi_init`. -/
def checkFadt (fadt : Nat) : Boot Unit :=
  if fadt = 0 then pure ()
  else do
    let length ← load32 M.mem (fadt + 4)
    if 116 ≤ length then
      let fadtFlags ← load32 M.mem (fadt + 4 * 28)
      if fadtFlags &&& (1 <<< 20) ≠ 0 then stop "HW reduced ACPI systems not supported" else pure ()
    else pure ()

/-- `acpi_init` from the mapping of the RSDP to that of the root table: `rsdt`. -/
def findRoot (rsdp : Nat) : Boot Nat := do
  mapSpan M.hhdm rsdp sizeofRsdp
  let root ← (do
    if ← useXsdt M.mem rsdp then load64 M.mem (rsdp + 24) else load32 M.mem (rsdp + 16))
  let rsdt := (root + M.hhdm) % 2 ^ 64
  -- the messages read the revision and the choice again
  let _ ← load8 M.mem (rsdp + 15)
  let _ ← useXsdt M.mem rsdp
  mapSpan M.hhdm rsdt sizeofSdt
  let _ ← load32 M.mem (rsdt + 4)
  let length ← load32 M.mem (rsdt + 4)
  mapSpan M.hhdm rsdt length
  pure rsdt

def acpiInit (x2apicMode : Bool) : Boot (MadtVectors × Hpet) :=
  match M.rsdp with
  | none | some 0 => stop "ACPI is not supported on this machine"
  | some address => do
    let rsdp := (address + M.hhdm) % 2 ^ 64
    let rsdt ← findRoot M rsdp
    let fadt ← acpiFindSdt M.hhdm M.mem rsdp rsdt facp 0
    checkFadt M fadt
    let vectors ← madtInit M.hhdm M.mem x2apicMode rsdp rsdt
    let hpet ← hpetInit M.hhdm M.mem rsdp rsdt
    uacpiRun M hpet.base M.uacpi
    pure (vectors, hpet)

/-- `cpu_init` from the CPUID checks on: `lapic_timer_freq` and `lapic_base`. -/
def cpuInit (x2apicMode : Bool) (cpu : Cpu) (lapicBase : Nat) : Boot (Nat × Nat) :=
  if cpu.xsave && !cpu.xsaveLeaf then stop "CPUID failure"
  else do
    let base ← lapicEnable M.hhdm M.mem x2apicMode cpu lapicBase 0xff
    lapicTimerCalibrate M.hhdm M.mem x2apicMode cpu base

/-- The loop of `mp_init`. Another processor starts in `cpu_init` and is waited
for, so one that panics there stops the boot too. -/
def mpLoop (x2apicMode : Bool) (lapicBase : Nat) : List Cpu → Boot Nat
  | [] => pure lapicBase
  | cpu :: cpus => do
    let (_, base) ← cpuInit M x2apicMode cpu lapicBase
    mpLoop x2apicMode base cpus

/-- The IPIs of `panic` on `bsp` once `mp_init_done` is set. -/
def sendIpis (x2apicMode : Bool) (bsp : Cpu) (lapicBase : Nat) : List Cpu → Boot Nat
  | [] => pure lapicBase
  | cpu :: cpus =>
    if cpu.lapicId = bsp.lapicId then sendIpis x2apicMode bsp lapicBase cpus
    else do
      let base ← lapicSendIpi M.hhdm x2apicMode bsp lapicBase cpu.lapicId M.isrAbortVector
      sendIpis x2apicMode bsp base cpus

/-- `kmain` from the return of `vmm_init` on. -/
def kmain : Boot Unit :=
  match M.mp with
  | none => stop "MP bootloader response missing"
  | some mp => do
    let _ ← acpiInit M mp.x2apic
    let base ← mpLoop M mp.x2apic 0 mp.cpus
    let _ ← sendIpis M mp.x2apic mp.bsp base mp.cpus
    stop "Nothing to do"

end Cynix.Sys.Boot
