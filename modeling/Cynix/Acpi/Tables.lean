import Cynix.Mm.Access

/-! # Finding and reading ACPI tables (`acpi/acpi.c`, `acpi/madt.c`)

The tables are read through the higher-half window; `mem` is what a load finds
at a virtual address. Every load and every `vmm_map_span` is an event. -/
namespace Cynix.Acpi.Tables
open Cynix.Base.Bytes Cynix.Base.Trace Cynix.Lib.Misc Cynix.Mm.Vmm Cynix.Mm.Access

abbrev Boot := Traced Event

def load8 (mem : Mem) (a : Nat) : Boot Nat := emit (.access a 1 none) (mem a).toNat
def load32 (mem : Mem) (a : Nat) : Boot Nat := emit (.access a 4 none) (read32 mem a)
def load64 (mem : Mem) (a : Nat) : Boot Nat := emit (.access a 8 none) (read64 mem a)
def store32 (a v : Nat) : Boot Unit := emit (.access a 4 (some v)) ()
def store64 (a v : Nat) : Boot Unit := emit (.access a 8 (some v)) ()

/-- The flags of every span mapped here: present, writable, not executable. -/
def mmioFlags : Nat := vmmPtePresent ||| vmmPteNoexec ||| vmmPteWritable

/-- `vmm_map_span` of a pointer into the window. -/
def mapSpan (hhdm ptr len : Nat) : Boot Unit := emit (.map ptr (sub64 ptr hhdm) len mmioFlags) ()

/-- `sizeof(struct rsdp)` and `sizeof(struct sdt)`. -/
def sizeofRsdp : Nat := 40
def sizeofSdt : Nat := 36

section
variable (hhdm : Nat) (mem : Mem) (rsdp rsdt : Nat)

/-- `rsdp->revision >= 2 && rsdp->xsdt_addr != 0`. -/
def useXsdt : Boot Bool := do
  let revision ← load8 mem (rsdp + 15)
  if 2 ≤ revision then
    let xsdtAddr ← load64 mem (rsdp + 24)
    pure (xsdtAddr ≠ 0)
  else pure false

/-- `memcmp(ptr, bytes, n) == 0`: it compares up to the first difference. -/
def sameBytes : Nat → List UInt8 → Boot Bool
  | _, [] => pure true
  | a, b :: bytes => do
    let x ← load8 mem a
    if x = b.toNat then sameBytes (a + 1) bytes else pure false

/-- The entry `i` of the root table. -/
def rootEntry (i : Nat) : Boot Nat := do
  if ← useXsdt mem rsdp then load64 mem (rsdt + sizeofSdt + 8 * i)
  else load32 mem (rsdt + sizeofSdt + 4 * i)

/-- The loop of `acpi_find_sdt` with `n` entries to go; 0 is `NULL`. -/
def findLoop (signature : List UInt8) : Nat → Nat → Nat → Boot Nat
  | 0, _, _ => pure 0
  | n + 1, i, index => do
    let entry ← rootEntry mem rsdp rsdt i
    let sdt := (entry + hhdm) % 2 ^ 64
    mapSpan hhdm sdt sizeofSdt
    if ← sameBytes mem sdt signature then
      if 0 < index then findLoop signature n (i + 1) (index - 1)
      else
        -- the length is read once for the message and once for the call
        let _ ← load32 mem (sdt + 4)
        let length ← load32 mem (sdt + 4)
        mapSpan hhdm sdt length
        pure sdt
    else findLoop signature n (i + 1) index

def acpiFindSdt (signature : List UInt8) (index : Nat) : Boot Nat := do
  let length ← load32 mem (rsdt + 4)
  let xsdt ← useXsdt mem rsdp
  let entryCount := sub64 length sizeofSdt / (if xsdt then 8 else 4)
  findLoop hhdm mem rsdp rsdt signature entryCount 0 index

end

/-- The four characters of a signature. -/
def facp : List UInt8 := [70, 65, 67, 80]
def apic : List UInt8 := [65, 80, 73, 67]
def hpetSig : List UInt8 := [72, 80, 69, 84]

/-! ## The MADT -/

/-- The vectors of `madt.c`; an item is the address of an entry. -/
structure MadtVectors where
  lapics : List Nat := []
  x2apics : List Nat := []
  ioApics : List Nat := []
  isos : List Nat := []
  nmis : List Nat := []
  deriving DecidableEq, Repr

/-- The `switch` of `madt_init`. -/
def MadtVectors.push (v : MadtVectors) (x2apicMode : Bool) (id header : Nat) : MadtVectors :=
  match id with
  | 0 => { v with lapics := v.lapics ++ [header] }
  | 9 => if x2apicMode then { v with x2apics := v.x2apics ++ [header] } else v
  | 1 => { v with ioApics := v.ioApics ++ [header] }
  | 2 => { v with isos := v.isos ++ [header] }
  | 4 => { v with nmis := v.nmis ++ [header] }
  | _ => v

/-- `sizeof(struct madt)`, which is where the entries start. -/
def sizeofMadt : Nat := 44

/-- The loop of `madt_init`, for at most `fuel` rounds. -/
def madtLoop (mem : Mem) (x2apicMode : Bool) (madt : Nat) :
    Nat → Nat → MadtVectors → Boot MadtVectors
  | 0, _, _ => running
  | fuel + 1, offset, v => do
    let length ← load32 mem (madt + 4)
    if length ≤ offset + sizeofMadt then pure v
    else
      let header := madt + sizeofMadt + offset
      let id ← load8 mem header
      let entryLength ← load8 mem (header + 1)
      madtLoop mem x2apicMode madt fuel (offset + entryLength) (v.push x2apicMode id header)

/-- `madt_init` on empty vectors. The length has 32 bits, so a loop that takes
2^32 rounds has come to an entry of length 0 and never ends. -/
def madtInit (hhdm : Nat) (mem : Mem) (x2apicMode : Bool) (rsdp rsdt : Nat) : Boot MadtVectors := do
  let madt ← acpiFindSdt hhdm mem rsdp rsdt apic 0
  if madt = 0 then stop "System does not have an MADT"
  else madtLoop mem x2apicMode madt (2 ^ 32) 0 {}

end Cynix.Acpi.Tables
