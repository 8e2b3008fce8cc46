import Mathlib

/-! # Values in `edx:eax` (`sys/cpu.k.h`)

Model-specific registers, extended control registers and the time-stamp counter
have 64 bits; their instructions take a value from `edx:eax` or leave it there.
Every helper splits or joins the halves on its own, and `rdtsc` joins one half
with itself. -/
namespace Cynix.Sys.RegisterPair

abbrev Half := BitVec 32
abbrev Word := BitVec 64

/-- The two registers. -/
structure Pair where
  edx : Half
  eax : Half

/-- The registers that the instructions reach. -/
structure Registers where
  msr : Half → Word
  xcr : Half → Word
  tsc : Word

/-- The values that a processor takes for a register; any other one is a general-protection fault. -/
structure Processor where
  msrTakes : Half → Word → Bool
  xcrTakes : Half → Word → Bool

/-! ## The instructions -/

/-- What an instruction reads from `edx:eax`. -/
def Pair.value (p : Pair) : Word := p.edx ++ p.eax

/-- What an instruction leaves in `edx:eax`. -/
def Pair.of (v : Word) : Pair := ⟨v.extractLsb' 32 32, v.extractLsb' 0 32⟩

variable (P : Processor)

def asmRdtsc (r : Registers) : Pair := .of r.tsc

def asmRdmsr (r : Registers) (ecx : Half) : Pair := .of (r.msr ecx)

/-- `none` is the fault. -/
def asmWrmsr (r : Registers) (ecx : Half) (p : Pair) : Option Registers :=
  if P.msrTakes ecx p.value then some { r with msr := Function.update r.msr ecx p.value } else none

def asmXsetbv (r : Registers) (ecx : Half) (p : Pair) : Option Registers :=
  if P.xcrTakes ecx p.value then some { r with xcr := Function.update r.xcr ecx p.value } else none

/-! ## The helpers -/

def wrxcr (r : Registers) (reg : Half) (value : Word) : Option Registers :=
  let a : Half := value.setWidth 32
  let d : Half := (value >>> 32).setWidth 32
  asmXsetbv P r reg ⟨d, a⟩

/-- The result is made of `edx` alone. -/
def rdtsc (r : Registers) : Word :=
  let p := asmRdtsc r
  p.edx.setWidth 64 <<< 32 ||| p.edx.setWidth 64

def rdmsr (r : Registers) (msr : Half) : Word :=
  let p := asmRdmsr r msr
  p.edx.setWidth 64 <<< 32 ||| p.eax.setWidth 64

/-- The result of the call, and the registers afterwards. -/
def wrmsr (r : Registers) (msr : Half) (val : Word) : Option (Word × Registers) :=
  let eax : Half := val.setWidth 32
  let edx : Half := (val >>> 32).setWidth 32
  match asmWrmsr P r msr ⟨edx, eax⟩ with
  | none => none
  | some r => some (edx.setWidth 64 <<< 32 ||| eax.setWidth 64, r)

def setKernelGsBase (r : Registers) (addr : Word) : Option Registers := (wrmsr P r 0xc0000102 addr).map Prod.snd
def setGsBase (r : Registers) (addr : Word) : Option Registers := (wrmsr P r 0xc0000101 addr).map Prod.snd
def setFsBase (r : Registers) (addr : Word) : Option Registers := (wrmsr P r 0xc0000100 addr).map Prod.snd

def getKernelGsBase (r : Registers) : Word := rdmsr r 0xc0000102
def getGsBase (r : Registers) : Word := rdmsr r 0xc0000101
def getFsBase (r : Registers) : Word := rdmsr r 0xc0000100

/-! ## Halves -/

theorem join_eq (edx eax : Half) : edx.setWidth 64 <<< 32 ||| eax.setWidth 64 = Pair.value ⟨edx, eax⟩ := by
  rw [← BitVec.setWidth_append_eq_shiftLeft_setWidth_or, BitVec.setWidth_eq]
  rfl

theorem value_of (v : Word) : (Pair.of v).value = v :=
  BitVec.extractLsb'_append_extractLsb'

theorem split_eq (v : Word) : (⟨(v >>> 32).setWidth 32, v.setWidth 32⟩ : Pair) = .of v := by
  unfold Pair.of
  congr 1

theorem value_toNat (p : Pair) : p.value.toNat = p.edx.toNat * 2 ^ 32 + p.eax.toNat := by
  rw [Pair.value, BitVec.toNat_append, ← Nat.shiftLeft_add_eq_or_of_lt p.eax.isLt, Nat.shiftLeft_eq]

/-! ## What survives -/

/-- What the registers take over and give back of a value, whatever they held before. -/
structure Survives (P : Processor) (r : Registers) (v : Word) : Prop where
  /-- The instruction gets the value, and the call returns it. -/
  wrmsr : ∀ msr, wrmsr P r msr v =
    if P.msrTakes msr v then some (v, { r with msr := Function.update r.msr msr v }) else none
  wrxcr : ∀ reg, wrxcr P r reg v =
    if P.xcrTakes reg v then some { r with xcr := Function.update r.xcr reg v } else none
  rdmsr : ∀ msr, r.msr msr = v → rdmsr r msr = v
  readBack : ∀ msr ret r', RegisterPair.wrmsr P r msr v = some (ret, r') → RegisterPair.rdmsr r' msr = v
  kernelGsBase : ∀ r', setKernelGsBase P r v = some r' → getKernelGsBase r' = v
  gsBase : ∀ r', setGsBase P r v = some r' → getGsBase r' = v
  fsBase : ∀ r', setFsBase P r v = some r' → getFsBase r' = v

variable {P} {r r' : Registers} {msr reg : Half} {v w ret : Word}

theorem rdmsr_eq : rdmsr r msr = r.msr msr := by
  rw [rdmsr, join_eq]
  exact value_of _

theorem wrxcr_eq : wrxcr P r reg v =
    if P.xcrTakes reg v then some { r with xcr := Function.update r.xcr reg v } else none := by
  rw [wrxcr, split_eq, asmXsetbv, value_of]

theorem wrmsr_eq : wrmsr P r msr v =
    if P.msrTakes msr v then some (v, { r with msr := Function.update r.msr msr v }) else none := by
  rw [wrmsr, join_eq, split_eq, asmWrmsr, value_of]
  split <;> simp_all

theorem rdmsr_wrmsr (h : wrmsr P r msr v = some (ret, r')) : rdmsr r' msr = v := by
  rw [wrmsr_eq] at h
  split at h
  · obtain ⟨-, rfl⟩ := Prod.mk.inj (Option.some.inj h)
    rw [rdmsr_eq]
    exact Function.update_self ..
  · cases h

/-- A setter and the getter of the same register. -/
theorem rdmsr_set (h : (wrmsr P r msr v).map Prod.snd = some r') : rdmsr r' msr = v := by
  obtain ⟨p, hp, rfl⟩ := Option.map_eq_some_iff.mp h
  exact rdmsr_wrmsr hp

theorem survives (P : Processor) (r : Registers) (v : Word) : Survives P r v where
  wrmsr _ := wrmsr_eq
  wrxcr _ := wrxcr_eq
  rdmsr _ h := rdmsr_eq.trans h
  readBack _ _ _ h := rdmsr_wrmsr h
  kernelGsBase _ h := rdmsr_set h
  gsBase _ h := rdmsr_set h
  fsBase _ h := rdmsr_set h

/-! ## The time-stamp counter -/

/-- The registers with this counter value. -/
def Registers.at (r : Registers) (v : Word) : Registers := { r with tsc := v }

def upper (v : Word) : Half := (Pair.of v).edx
def lower (v : Word) : Half := (Pair.of v).eax

/-- The upper half comes twice. -/
theorem rdtsc_toNat : (rdtsc (r.at v)).toNat = (upper v).toNat * 2 ^ 32 + (upper v).toNat := by
  rw [rdtsc, join_eq, value_toNat]
  rfl

theorem toNat_halves (v : Word) : v.toNat = (upper v).toNat * 2 ^ 32 + (lower v).toNat := by
  have h := value_toNat (Pair.of v)
  rwa [value_of] at h

theorem rdtsc_eq_iff : rdtsc (r.at v) = v ↔ upper v = lower v := by
  rw [← BitVec.toNat_inj, rdtsc_toNat, toNat_halves v, ← BitVec.toNat_inj]
  omega

theorem rdtsc_lt_iff : rdtsc (r.at v) < rdtsc (r.at w) ↔ upper v < upper w := by
  rw [BitVec.lt_def, BitVec.lt_def, rdtsc_toNat, rdtsc_toNat]
  omega

/-- A value, as a register's and as the counter's, and a second counter value. -/
structure PairOk (P : Processor) (r : Registers) (v w : Word) : Prop extends Survives P r v where
  counter : rdtsc (r.at v) = v
  ordered : v < w → rdtsc (r.at v) < rdtsc (r.at w)

/-- **Values survive the register pair, but for those of the time-stamp counter**: `rdtsc` returns
the counter exactly if its halves are the same, and tells two counter values apart by their upper
halves alone. -/
theorem register_pair_iff (P : Processor) (r : Registers) (v w : Word) :
    Survives P r v ∧ (PairOk P r v w ↔ upper v = lower v ∧ (v < w → upper v < upper w)) := by
  refine ⟨survives P r v, ?_⟩
  constructor
  · intro h
    exact ⟨rdtsc_eq_iff.mp h.counter, fun hlt => rdtsc_lt_iff.mp (h.ordered hlt)⟩
  · intro h
    exact ⟨survives P r v, rdtsc_eq_iff.mpr h.1, fun hlt => rdtsc_lt_iff.mpr (h.2 hlt)⟩

/-- The counter stands still for 2^32 ticks. -/
theorem rdtsc_stands_still : ∃ (P : Processor) (r : Registers),
    rdtsc (r.at 1) = 0 ∧ rdtsc (r.at 2) = 0 ∧ ¬ PairOk P r 1 2 := by
  refine ⟨⟨fun _ _ => true, fun _ _ => true⟩, ⟨fun _ => 0, fun _ => 0, 0⟩, by decide, by decide, ?_⟩
  intro h
  exact absurd h.counter (by decide)

end Cynix.Sys.RegisterPair
