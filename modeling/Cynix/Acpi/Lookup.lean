import Cynix.Acpi.Tables

/-! # What the ACPI walkers read and map

The tables of a machine as their bytes say, and the loops of `acpi_find_sdt`
and `madt_init` against them: which spans they map, that they read only what is
mapped, and what they return. -/
namespace Cynix.Acpi.Lookup
open Cynix.Base.Bytes Cynix.Base.Trace Cynix.Lib.Misc Cynix.Mm.Vmm Cynix.Mm.VmmRuns Cynix.Mm.Access
open Cynix.Acpi.Tables

/-! ## The tables -/

section
variable (hhdm : Nat) (mem : Mem) (rsdp rsdt : Nat)

def usesXsdt : Bool := decide (2 ≤ (mem (rsdp + 15)).toNat) && decide (read64 mem (rsdp + 24) ≠ 0)

/-- The physical address of the root table. -/
def rootAddr : Nat := if usesXsdt mem rsdp then read64 mem (rsdp + 24) else read32 mem (rsdp + 16)

/-- The `length` field of the table at a pointer. -/
def lengthAt (ptr : Nat) : Nat := read32 mem (ptr + 4)

def entrySize : Nat := if usesXsdt mem rsdp then 8 else 4

def entryAt (i : Nat) : Nat :=
  if usesXsdt mem rsdp then read64 mem (rsdt + sizeofSdt + 8 * i)
  else read32 mem (rsdt + sizeofSdt + 4 * i)

/-- The physical addresses in the root table. -/
def entries : List Nat :=
  (List.range ((lengthAt mem rsdt - sizeofSdt) / entrySize mem rsdp)).map (entryAt mem rsdp rsdt)

def hasBytes : Nat → List UInt8 → Bool
  | _, [] => true
  | a, b :: bytes => decide ((mem a).toNat = b.toNat) && hasBytes (a + 1) bytes

/-- The first table with a signature. -/
def table (signature : List UInt8) (ps : List Nat) : Option Nat :=
  ps.find? fun p => hasBytes mem (hhdm + p) signature

/-- The spans that a lookup maps: the headers up to the table, and the table. -/
def lookupSpans (signature : List UInt8) : List Nat → List Span
  | [] => []
  | p :: ps =>
    if hasBytes mem (hhdm + p) signature then [(p, sizeofSdt), (p, lengthAt mem (hhdm + p))]
    else (p, sizeofSdt) :: lookupSpans signature ps

/-- The tables with a signature, in the order of the root table. -/
def matching (signature : List UInt8) (ps : List Nat) : List Nat :=
  ps.filter fun p => hasBytes mem (hhdm + p) signature

/-- The spans that the lookup of the match number `index` maps, counted from 0. -/
def lookupSpansAt (signature : List UInt8) : Nat → List Nat → List Span
  | _, [] => []
  | index, p :: ps =>
    if hasBytes mem (hhdm + p) signature then
      if 0 < index then (p, sizeofSdt) :: lookupSpansAt signature (index - 1) ps
      else [(p, sizeofSdt), (p, lengthAt mem (hhdm + p))]
    else (p, sizeofSdt) :: lookupSpansAt signature index ps

/-- The entries of a MADT, from an offset on, fill it to its end. -/
inductive Fill (start : Nat) : Nat → Nat → Prop where
  | done {n : Nat} : Fill start n n
  | entry {offset n : Nat} : 2 ≤ (mem (start + offset + 1)).toNat →
      Fill start (offset + (mem (start + offset + 1)).toNat) n → Fill start offset n

end

theorem Fill.le {mem : Mem} {start offset n : Nat} (h : Fill mem start offset n) : offset ≤ n := by
  induction h with
  | done => exact le_rfl
  | entry _ _ ih => omega

/-! ## The walkers -/

variable {hhdm : Nat} {mem : Mem} {rsdp rsdt : Nat} {init : List Call} {past : List Event}

/-- What the walkers need: the RSDP and the root table are mapped. -/
structure RootMapped (mem : Mem) (rsdp rsdt : Nat) (init : List Call) (past : List Event) : Prop where
  rsdp : Covers (init ++ callsOf past) rsdp sizeofRsdp
  root : Covers (init ++ callsOf past) rsdt (lengthAt mem rsdt)
  length : sizeofSdt ≤ lengthAt mem rsdt

theorem RootMapped.later (h : RootMapped mem rsdp rsdt init past) (l : List Event) :
    RootMapped mem rsdp rsdt init (past ++ l) :=
  ⟨h.rsdp.later l, h.root.later l, h.length⟩

theorem does_load8 {a : Nat} (h : Covers (init ++ callsOf past) a 1) :
    Does hhdm mmioFlags init past (load8 mem a) (mem a).toNat [] := Does.access h _

theorem does_load32 {a : Nat} (h : Covers (init ++ callsOf past) a 4) :
    Does hhdm mmioFlags init past (load32 mem a) (read32 mem a) [] := Does.access h _

theorem does_load64 {a : Nat} (h : Covers (init ++ callsOf past) a 8) :
    Does hhdm mmioFlags init past (load64 mem a) (read64 mem a) [] := Does.access h _

theorem window_ptr {p len : Nat} (hw : Window hhdm p len) :
    (p + hhdm) % 2 ^ 64 = hhdm + p ∧ sub64 (hhdm + p) hhdm = p := by
  obtain ⟨-, h2⟩ := hw
  refine ⟨by omega, ?_⟩
  rw [sub64_eq (by omega) (by omega)]
  omega

theorem does_mapSpan {p len n : Nat} (hw : Window hhdm p n) :
    Does hhdm mmioFlags init past (mapSpan hhdm (hhdm + p) len) () [(p, len)] := by
  unfold mapSpan
  rw [(window_ptr hw).2]
  exact Does.map (p, len) ()

theorem does_useXsdt (h : Covers (init ++ callsOf past) rsdp sizeofRsdp) :
    Does hhdm mmioFlags init past (useXsdt mem rsdp) (usesXsdt mem rsdp) [] := by
  unfold useXsdt usesXsdt
  refine Does.bind_left (does_load8 (h.sub (by omega) (by unfold sizeofRsdp; omega))) ?_
  by_cases hr : 2 ≤ (mem (rsdp + 15)).toNat
  · simp only [hr, if_true, decide_true, Bool.true_and]
    refine Does.bind_left (does_load64 ((h.later _).sub (by omega) (by unfold sizeofRsdp; omega))) ?_
    exact Does.pure _
  · simp only [hr, if_false, decide_false, Bool.false_and]
    exact Does.pure _

theorem does_sameBytes {a n : Nat} {bytes : List UInt8} (h : Covers (init ++ callsOf past) a n)
    (hn : bytes.length ≤ n) :
    Does hhdm mmioFlags init past (sameBytes mem a bytes) (hasBytes mem a bytes) [] := by
  induction bytes generalizing a n past with
  | nil => exact Does.pure _
  | cons b bytes ih =>
    rw [List.length_cons] at hn
    refine Does.bind_left (does_load8 (h.sub le_rfl (by omega))) ?_
    unfold hasBytes
    by_cases hb : (mem a).toNat = b.toNat
    · simp only [hb, if_true, decide_true, Bool.true_and]
      exact ih (n := n - 1) ((h.later _).sub (by omega) (by omega)) (by omega)
    · simp only [hb, if_false, decide_false, Bool.false_and]
      exact Does.pure _

/-- Entry `i` lies inside the root table. -/
theorem entry_inside {i : Nat} (hi : i < (lengthAt mem rsdt - sizeofSdt) / entrySize mem rsdp)
    (hl : sizeofSdt ≤ lengthAt mem rsdt) :
    sizeofSdt + entrySize mem rsdp * i + entrySize mem rsdp ≤ lengthAt mem rsdt := by
  have hle := Nat.mul_le_mul_left (entrySize mem rsdp) hi
  rw [Nat.mul_succ] at hle
  have := Nat.mul_div_le (lengthAt mem rsdt - sizeofSdt) (entrySize mem rsdp)
  omega

theorem does_rootEntry (h : RootMapped mem rsdp rsdt init past) {i : Nat}
    (hi : i < (lengthAt mem rsdt - sizeofSdt) / entrySize mem rsdp) :
    Does hhdm mmioFlags init past (rootEntry mem rsdp rsdt i) (entryAt mem rsdp rsdt i) [] := by
  have hin := entry_inside hi h.length
  unfold rootEntry entryAt
  refine Does.bind_left (does_useXsdt h.rsdp) ?_
  unfold entrySize at hin
  have hroot := h.root.later (useXsdt mem rsdp).events
  cases hx : usesXsdt mem rsdp with
  | true =>
    simp only [hx, if_true] at hin ⊢
    exact does_load64 (hroot.sub (by omega) (by omega))
  | false =>
    simp only [hx, Bool.false_eq_true, if_false] at hin ⊢
    exact does_load32 (hroot.sub (by omega) (by omega))

/-- The tables in the list lie in the window. -/
def Tabled (hhdm : Nat) (mem : Mem) (ps : List Nat) : Prop :=
  ∀ p ∈ ps, Window hhdm p sizeofSdt ∧ Window hhdm p (lengthAt mem (hhdm + p))

theorem mmioFlags_present : mmioFlags &&& vmmPtePresent ≠ 0 := by decide

/-- The pointer a lookup returns. -/
def ptrOf (hhdm : Nat) : Option Nat → Nat
  | none => 0
  | some p => hhdm + p

variable {signature : List UInt8}

theorem table_eq_matching (ps : List Nat) :
    table hhdm mem signature ps = (matching hhdm mem signature ps)[0]? := by
  rw [table, matching, ← List.head?_eq_getElem?, List.head?_filter]

theorem lookupSpans_eq_at (ps : List Nat) :
    lookupSpans hhdm mem signature ps = lookupSpansAt hhdm mem signature 0 ps := by
  induction ps with
  | nil => rfl
  | cons p ps ih => simp only [lookupSpans, lookupSpansAt, Nat.lt_irrefl, if_false, ih]

/-- The loop with `n` entries to go counts the matches down to the one asked for. -/
theorem does_findLoop (hh : hhdm % 4096 = 0) (hs : signature.length ≤ 4) {n i index : Nat}
    (h : RootMapped mem rsdp rsdt init past)
    (hin : i + n ≤ (lengthAt mem rsdt - sizeofSdt) / entrySize mem rsdp)
    (ht : ∀ p ∈ (List.range' i n).map (entryAt mem rsdp rsdt), Window hhdm p sizeofSdt) :
    Does hhdm mmioFlags init past (findLoop hhdm mem rsdp rsdt signature n i index)
      (ptrOf hhdm (matching hhdm mem signature ((List.range' i n).map (entryAt mem rsdp rsdt)))[index]?)
      (lookupSpansAt hhdm mem signature index ((List.range' i n).map (entryAt mem rsdp rsdt))) := by
  induction n generalizing i index past with
  | zero => exact Does.pure _
  | succ n ih =>
    rw [List.range'_succ, List.map_cons] at ht ⊢
    obtain ⟨hw, htail⟩ := List.forall_mem_cons.mp ht
    simp only [findLoop, matching, lookupSpansAt, List.filter_cons]
    generalize hp : entryAt mem rsdp rsdt i = p at *
    refine Does.bind_left (hp ▸ does_rootEntry h (by omega)) ?_
    have h₁ := h.later (rootEntry mem rsdp rsdt i).events
    simp only [(window_ptr hw).1]
    have hmap : Does hhdm mmioFlags init (past ++ (rootEntry mem rsdp rsdt i).events)
        (mapSpan hhdm (hhdm + p) sizeofSdt) () [(p, sizeofSdt)] := does_mapSpan hw
    have hcov := hmap.covers hh mmioFlags_present (List.mem_singleton_self _) hw
    have h₂ := h₁.later (mapSpan hhdm (hhdm + p) sizeofSdt).events
    have hsame : Does hhdm mmioFlags init _ (sameBytes mem (hhdm + p) signature)
        (hasBytes mem (hhdm + p) signature) [] :=
      does_sameBytes (hcov.sub le_rfl (n := 4) (by unfold sizeofSdt; omega)) hs
    have h₃ := h₂.later (sameBytes mem (hhdm + p) signature).events
    have hcov₃ := hcov.later (sameBytes mem (hhdm + p) signature).events
    cases hb : hasBytes mem (hhdm + p) signature with
    | true =>
      rw [hb] at hsame
      simp only [if_true]
      cases index with
      | zero =>
        refine hmap.bind (w := [(p, lengthAt mem (hhdm + p))]) (hsame.bind_left ?_)
        simp only [if_true, Nat.lt_irrefl, if_false]
        have hlen := fun l => (hcov₃.later l).sub (a := hhdm + p + 4) (n := 4) (by omega)
          (by unfold sizeofSdt; omega)
        refine Does.bind_left (does_load32 (hcov₃.sub (by omega) (by unfold sizeofSdt; omega))) ?_
        refine Does.bind_left (does_load32 (hlen _)) ?_
        exact Does.bind (v := [(p, lengthAt mem (hhdm + p))]) (w := []) (does_mapSpan hw) (Does.pure _)
      | succ index =>
        simp only [Nat.zero_lt_succ, if_true, List.getElem?_cons_succ, Nat.add_sub_cancel]
        refine hmap.bind (hsame.bind_left ?_)
        simp only [if_true]
        exact ih h₃ (by omega) htail
    | false =>
      rw [hb] at hsame
      simp only [Bool.false_eq_true, if_false]
      refine hmap.bind (hsame.bind_left ?_)
      simp only [Bool.false_eq_true, if_false]
      exact ih h₃ (by omega) htail

/-- **A lookup of a table by its signature and its number among the matches.** -/
theorem does_acpiFindSdt_at (hh : hhdm % 4096 = 0) (hs : signature.length ≤ 4)
    (h : RootMapped mem rsdp rsdt init past) (ht : ∀ p ∈ entries mem rsdp rsdt, Window hhdm p sizeofSdt)
    (index : Nat) :
    Does hhdm mmioFlags init past (acpiFindSdt hhdm mem rsdp rsdt signature index)
      (ptrOf hhdm (matching hhdm mem signature (entries mem rsdp rsdt))[index]?)
      (lookupSpansAt hhdm mem signature index (entries mem rsdp rsdt)) := by
  have hlt : lengthAt mem rsdt < 2 ^ 64 := by
    have := read32_lt mem (rsdt + 4)
    unfold lengthAt
    omega
  unfold acpiFindSdt
  refine Does.bind_left (does_load32 (h.root.sub (by omega) ?_)) ?_
  · have := h.length
    unfold sizeofSdt at this
    omega
  have h₁ := h.later (load32 mem (rsdt + 4)).events
  refine Does.bind_left (does_useXsdt h₁.rsdp) ?_
  have h₂ := h₁.later (useXsdt mem rsdp).events
  rw [show read32 mem (rsdt + 4) = lengthAt mem rsdt from rfl, sub64_eq h.length hlt]
  unfold entries at ht ⊢
  rw [List.range_eq_range'] at ht ⊢
  exact does_findLoop hh hs h₂ (by rw [Nat.zero_add]; exact le_rfl) ht

theorem does_acpiFindSdt (hh : hhdm % 4096 = 0) (hs : signature.length ≤ 4)
    (h : RootMapped mem rsdp rsdt init past) (ht : Tabled hhdm mem (entries mem rsdp rsdt)) :
    Does hhdm mmioFlags init past (acpiFindSdt hhdm mem rsdp rsdt signature 0)
      (ptrOf hhdm (table hhdm mem signature (entries mem rsdp rsdt)))
      (lookupSpans hhdm mem signature (entries mem rsdp rsdt)) := by
  rw [table_eq_matching, lookupSpans_eq_at]
  exact does_acpiFindSdt_at hh hs h (fun p hp => (ht p hp).1) 0

/-! ## The MADT -/

/-- The loop of `madt_init` ends when the entries fill the table. -/
theorem does_madtLoop {x2apicMode : Bool} {madt fuel offset : Nat} {v : MadtVectors}
    (hl : sizeofMadt ≤ lengthAt mem madt)
    (hf : Fill mem (madt + sizeofMadt) offset (lengthAt mem madt - sizeofMadt))
    (hfuel : lengthAt mem madt - sizeofMadt < offset + fuel)
    (h : Covers (init ++ callsOf past) madt (lengthAt mem madt)) :
    ∃ v', Does hhdm mmioFlags init past (madtLoop mem x2apicMode madt fuel offset v) v' [] := by
  induction fuel generalizing offset v past with
  | zero =>
    have := hf.le
    omega
  | succ fuel ih =>
    have hlen : Does hhdm mmioFlags init past (load32 mem (madt + 4)) (lengthAt mem madt) [] :=
      does_load32 (h.sub (by omega) (by unfold sizeofMadt at hl; omega))
    simp only [madtLoop]
    generalize hn : lengthAt mem madt - sizeofMadt = n at *
    cases hf with
    | done =>
      refine ⟨v, hlen.bind_left ?_⟩
      rw [if_pos (by omega)]
      exact Does.pure _
    | entry h2 hrest =>
      have hle := hrest.le
      have h₁ := h.later (load32 mem (madt + 4)).events
      have h₂ := h₁.later (load8 mem (madt + sizeofMadt + offset)).events
      have h₃ := h₂.later (load8 mem (madt + sizeofMadt + offset + 1)).events
      obtain ⟨v', hv'⟩ := ih hrest (by omega) h₃
        (v := v.push x2apicMode (mem (madt + sizeofMadt + offset)).toNat (madt + sizeofMadt + offset))
      refine ⟨v', hlen.bind_left ?_⟩
      rw [if_neg (by omega)]
      refine Does.bind_left (does_load8 (h₁.sub (by omega) (by omega))) ?_
      exact Does.bind_left (does_load8 (h₂.sub (by omega) (by omega))) hv'

end Cynix.Acpi.Lookup
