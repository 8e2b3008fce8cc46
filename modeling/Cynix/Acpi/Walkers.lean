import Cynix.Acpi.Lookup

/-! # The ACPI walkers on arbitrary tables

`acpi_find_sdt` and `madt_init` on root tables and MADTs of any content. The
lengths they find steer them without a check: the walkers stay inside the
tables, and the loop over the MADT ends, exactly on the tables described here. -/
namespace Cynix.Acpi.Walkers
open Cynix.Base.Bytes Cynix.Base.Trace Cynix.Lib.Misc Cynix.Mm.Access
open Cynix.Acpi.Tables Cynix.Acpi.Lookup

variable {hhdm : Nat} {mem : Mem} {rsdp rsdt madt : Nat}

/-! ## The entries of a MADT -/

section
variable (mem : Mem) (madt : Nat)

/-- The two bytes of a header. -/
def entryId (offset : Nat) : Nat := (mem (madt + sizeofMadt + offset)).toNat
def entryLength (offset : Nat) : Nat := (mem (madt + sizeofMadt + offset + 1)).toNat

/-- The entry at the offset starts inside the table. -/
def Starts (offset : Nat) : Prop := offset + sizeofMadt < lengthAt mem madt

instance (offset : Nat) : Decidable (Starts mem madt offset) :=
  inferInstanceAs (Decidable (offset + sizeofMadt < lengthAt mem madt))

/-- The offsets of the headers that at most `fuel` rounds of the loop read. -/
def madtRounds : Nat → Nat → List Nat
  | 0, _ => []
  | fuel + 1, offset =>
    if lengthAt mem madt ≤ offset + sizeofMadt then []
    else offset :: madtRounds fuel (offset + entryLength mem madt offset)

/-- The loads of one round. -/
def roundEvents (offset : Nat) : List Event :=
  [.access (madt + 4) 4 none, .access (madt + sizeofMadt + offset) 1 none,
    .access (madt + sizeofMadt + offset + 1) 1 none]

end

/-- The loop on an entry that starts inside the table. -/
theorem madtLoop_entry (x2apicMode : Bool) (fuel : Nat) {offset : Nat} (v : MadtVectors) (h : Starts mem madt offset) :
    (madtLoop mem x2apicMode madt (fuel + 1) offset v).events = roundEvents madt offset ++
      (madtLoop mem x2apicMode madt fuel (offset + entryLength mem madt offset)
        (v.push x2apicMode (entryId mem madt offset) (madt + sizeofMadt + offset))).events ∧
    (madtLoop mem x2apicMode madt (fuel + 1) offset v).outcome =
      (madtLoop mem x2apicMode madt fuel (offset + entryLength mem madt offset)
        (v.push x2apicMode (entryId mem madt offset) (madt + sizeofMadt + offset))).outcome := by
  have hlen : (load32 mem (madt + 4)).outcome = .returns (lengthAt mem madt) := rfl
  have hif : ¬ lengthAt mem madt ≤ offset + sizeofMadt := Nat.not_le.mpr h
  rw [madtLoop, bind_events hlen, bind_outcome hlen, if_neg hif]
  exact ⟨rfl, rfl⟩

/-- The loop behind the table. -/
theorem madtLoop_end (x2apicMode : Bool) (fuel : Nat) {offset : Nat} (v : MadtVectors) (h : ¬ Starts mem madt offset) :
    (madtLoop mem x2apicMode madt (fuel + 1) offset v).events = [.access (madt + 4) 4 none] ∧
    (madtLoop mem x2apicMode madt (fuel + 1) offset v).outcome = .returns v := by
  have hlen : (load32 mem (madt + 4)).outcome = .returns (lengthAt mem madt) := rfl
  have hif : lengthAt mem madt ≤ offset + sizeofMadt := Nat.not_lt.mp h
  rw [madtLoop, bind_events hlen, bind_outcome hlen, if_pos hif]
  exact ⟨rfl, rfl⟩

theorem madtRounds_entry {fuel offset : Nat} (h : Starts mem madt offset) :
    madtRounds mem madt (fuel + 1) offset =
      offset :: madtRounds mem madt fuel (offset + entryLength mem madt offset) :=
  if_neg (Nat.not_le.mpr h)

theorem madtRounds_end {fuel offset : Nat} (h : ¬ Starts mem madt offset) :
    madtRounds mem madt (fuel + 1) offset = [] :=
  if_pos (Nat.not_lt.mp h)

/-- Behind the table the loop returns in any number of rounds. -/
theorem madtLoop_past {offset : Nat} (hs : ¬ Starts mem madt offset) (x2apicMode : Bool) {fuel : Nat}
    (hfuel : 0 < fuel) (v : MadtVectors) :
    (madtLoop mem x2apicMode madt fuel offset v).outcome = .returns v ∧
    madtRounds mem madt fuel offset = [] := by
  cases fuel with
  | zero => cases hfuel
  | succ fuel => exact ⟨(madtLoop_end _ _ _ hs).2, madtRounds_end hs⟩

/-- The slots that the loop of `acpi_find_sdt` reads, with `n` entries to go. -/
def findSlots (hhdm : Nat) (mem : Mem) (rsdp rsdt : Nat) (signature : List UInt8) :
    Nat → Nat → Nat → List Nat
  | 0, _, _ => []
  | n + 1, i, index =>
    i :: if hasBytes mem ((entryAt mem rsdp rsdt i + hhdm) % 2 ^ 64) signature then
      if 0 < index then findSlots hhdm mem rsdp rsdt signature n (i + 1) (index - 1) else []
    else findSlots hhdm mem rsdp rsdt signature n (i + 1) index

/-- `entry_count`. -/
def entryCount (mem : Mem) (rsdp rsdt : Nat) : Nat :=
  sub64 (lengthAt mem rsdt) sizeofSdt / entrySize mem rsdp

/-- What is done for a slot until its signature is compared. -/
def slotEvents (hhdm : Nat) (mem : Mem) (rsdp rsdt : Nat) (signature : List UInt8) (i : Nat) : List Event :=
  let sdt := (entryAt mem rsdp rsdt i + hhdm) % 2 ^ 64
  (rootEntry mem rsdp rsdt i).events ++ ((mapSpan hhdm sdt sizeofSdt).events ++
    (sameBytes mem sdt signature).events)

theorem useXsdt_returns : (useXsdt mem rsdp).outcome = .returns (usesXsdt mem rsdp) := by
  have hrev : (load8 mem (rsdp + 15)).outcome = .returns (mem (rsdp + 15)).toNat := rfl
  unfold useXsdt usesXsdt
  rw [bind_outcome hrev]
  by_cases h : 2 ≤ (mem (rsdp + 15)).toNat
  · have hxsdt : (load64 mem (rsdp + 24)).outcome = .returns (read64 mem (rsdp + 24)) := rfl
    rw [if_pos h, decide_eq_true h, bind_outcome hxsdt, pure_outcome, Bool.true_and]
  · rw [if_neg h, decide_eq_false h]
    rfl

theorem rootEntry_returns {i : Nat} :
    (rootEntry mem rsdp rsdt i).outcome = .returns (entryAt mem rsdp rsdt i) := by
  unfold rootEntry entryAt
  rw [bind_outcome useXsdt_returns]
  cases usesXsdt mem rsdp <;> rfl

theorem sameBytes_returns {bytes : List UInt8} {a : Nat} :
    (sameBytes mem a bytes).outcome = .returns (hasBytes mem a bytes) := by
  induction bytes generalizing a with
  | nil => rfl
  | cons b bytes ih =>
    have hload : (load8 mem a).outcome = .returns (mem a).toNat := rfl
    unfold sameBytes hasBytes
    rw [bind_outcome hload]
    by_cases h : (mem a).toNat = b.toNat
    · rw [if_pos h, decide_eq_true h, Bool.true_and]
      exact ih
    · rw [if_neg h, decide_eq_false h, Bool.false_and]
      rfl

/-- **The loop and its slots**: it goes through the slots one after another, and ends with the
mapping of the table if it has found one. -/
theorem findLoop_slots {signature : List UInt8} {n i index : Nat} :
    ∃ last : List Event, (last = [] ∨ ∃ sdt, last = [.access (sdt + 4) 4 none, .access (sdt + 4) 4 none] ++
        (mapSpan hhdm sdt (lengthAt mem sdt)).events) ∧
      (findLoop hhdm mem rsdp rsdt signature n i index).events =
        (findSlots hhdm mem rsdp rsdt signature n i index).flatMap
          (slotEvents hhdm mem rsdp rsdt signature) ++ last := by
  induction n generalizing i index with
  | zero => exact ⟨[], .inl rfl, rfl⟩
  | succ n ih =>
    unfold findLoop findSlots
    rw [bind_events rootEntry_returns]
    simp only
    generalize hsdt : (entryAt mem rsdp rsdt i + hhdm) % 2 ^ 64 = sdt
    have hslot : slotEvents hhdm mem rsdp rsdt signature i = (rootEntry mem rsdp rsdt i).events ++
        ((mapSpan hhdm sdt sizeofSdt).events ++ (sameBytes mem sdt signature).events) := by
      rw [slotEvents, hsdt]
    have hmap : (mapSpan hhdm sdt sizeofSdt).outcome = .returns () := rfl
    rw [bind_events hmap, bind_events sameBytes_returns, List.flatMap_cons, hslot]
    simp only [List.append_assoc, List.append_cancel_left_eq]
    cases hasBytes mem sdt signature with
    | false => exact ih
    | true =>
      simp only [if_true]
      by_cases hindex : 0 < index
      · simp only [hindex, if_true]
        exact ih
      · simp only [hindex, if_false]
        exact ⟨_, .inr ⟨sdt, rfl⟩, rfl⟩

theorem acpiFindSdt_events {signature : List UInt8} {index : Nat} :
    (acpiFindSdt hhdm mem rsdp rsdt signature index).events = (load32 mem (rsdt + 4)).events ++
      ((useXsdt mem rsdp).events ++
        (findLoop hhdm mem rsdp rsdt signature (entryCount mem rsdp rsdt) 0 index).events) := by
  -- the loop is kept under a name, so that it is not unfolded on the count
  obtain ⟨loop, hloop⟩ : ∃ loop : Nat → Bool → Boot Nat, loop = fun length xsdt =>
      findLoop hhdm mem rsdp rsdt signature (sub64 length sizeofSdt / (if xsdt then 8 else 4)) 0 index :=
    ⟨_, rfl⟩
  have hfind : acpiFindSdt hhdm mem rsdp rsdt signature index =
      load32 mem (rsdt + 4) >>= fun length => useXsdt mem rsdp >>= fun xsdt => loop length xsdt := by
    simp only [acpiFindSdt, hloop]
  have hcount : loop (lengthAt mem rsdt) (usesXsdt mem rsdp) =
      findLoop hhdm mem rsdp rsdt signature (entryCount mem rsdp rsdt) 0 index := by
    rw [hloop, entryCount, entrySize]
  have hlen : (load32 mem (rsdt + 4)).outcome = .returns (lengthAt mem rsdt) := rfl
  rw [← hcount, hfind, bind_events hlen, bind_events useXsdt_returns]

/-- The size of the structure that an entry is recorded as. The structure for
the id 9 is declared nowhere, so its size is left open. -/
def recordedAs (sizeofX2apic : Nat) (x2apicMode : Bool) : Nat → Option Nat
  | 0 => some 8
  | 9 => if x2apicMode then some sizeofX2apic else none
  | 1 => some 12
  | 2 => some 10
  | 4 => some 6
  | _ => none

/-- What is not recorded is not pushed. -/
theorem push_of_not_recorded {sizeofX2apic : Nat} {x2apicMode : Bool} {id header : Nat} {v : MadtVectors}
    (h : recordedAs sizeofX2apic x2apicMode id = none) : v.push x2apicMode id header = v := by
  unfold recordedAs at h
  unfold MadtVectors.push
  split at h <;> simp_all

end Cynix.Acpi.Walkers
