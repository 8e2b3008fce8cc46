import Cynix.Mm.MapSpan
import Cynix.Sys.LapicAccess

/-! # Which table `acpi_find_sdt` finds

`acpi_init` chooses between the RSDT and the XSDT once, and `acpi_find_sdt`
chooses again for the number of entries and for each of them: all agree. The
loop counts `index` down at each match, so what it returns is the match of
that number. -/
namespace Cynix.Acpi.FindSdt
open Cynix.Base.Bytes Cynix.Base.Pages Cynix.Base.Trace Cynix.Lib.Misc Cynix.Lib.Alloc
open Cynix.Mm.Vmm Cynix.Mm.VmmTables Cynix.Mm.VmmRuns Cynix.Mm.VmmInit Cynix.Mm.KernelSpace Cynix.Mm.Access Cynix.Mm.MapSpan
open Cynix.Acpi.Tables Cynix.Acpi.Lookup Cynix.Sys.Devices Cynix.Sys.Boot Cynix.Sys.DeviceAccess Cynix.Sys.LapicAccess

variable {σ : Type} {A : PageAllocator σ} {M : Machine} {address index p top : Nat} {la57 : Bool}
  {signature : List UInt8} {init : List Call} {past : List Event} {h h' : Heap σ}
  {T : List (Fin 512) → Option Nat}

/-- The higher-half window starts in the upper half of the address space. -/
def HigherHalf (la57 : Bool) (hhdm : Nat) : Prop := 2 ^ 64 - 2 ^ (12 + 9 * (depth la57 + 1) - 1) ≤ hhdm

/-- `acpi_find_sdt` on the root table that `acpi_init` has found. -/
def find (M : Machine) (address : Nat) (signature : List UInt8) (index : Nat) : Boot Nat :=
  acpiFindSdt M.hhdm M.mem (rsdpPtr M address) (rsdtPtr M address) signature index

/-- The tables listed with this signature, in their order. -/
def listed (M : Machine) (address : Nat) (signature : List UInt8) : List Nat :=
  matching M.hhdm M.mem signature (tables M address)

/-- The lookup selects the table of this number: `init` and `past` are what was mapped before. -/
structure Selects (M : Machine) (address : Nat) (signature : List UInt8) (index : Nat) (init : List Call)
    (past : List Event) : Prop where
  root : (findRoot M (rsdpPtr M address)).outcome = .returns (rsdtPtr M address)
  /-- Every load finds its page mapped, and the result is the match number `index`, or `NULL`. -/
  result : ∃ spans, Does M.hhdm mmioFlags init past (find M address signature index)
    (ptrOf M.hhdm (listed M address signature)[index]?) spans
  null : ptrOf M.hhdm (listed M address signature)[index]? = 0 ↔
    (listed M address signature).length < index + 1

/-! ## The spans of a lookup -/

theorem matching_cons {hhdm : Nat} {mem : Mem} (q : Nat) (ps : List Nat) : matching hhdm mem signature (q :: ps) =
    if hasBytes mem (hhdm + q) signature then q :: matching hhdm mem signature ps
    else matching hhdm mem signature ps :=
  List.filter_cons

/-- The table comes last, and only headers before it. -/
theorem lookupSpansAt_last {hhdm : Nat} {mem : Mem} {ps : List Nat}
    (hp : (matching hhdm mem signature ps)[index]? = some p) :
    ∃ headers, lookupSpansAt hhdm mem signature index ps = headers ++ [(p, lengthAt mem (hhdm + p))] ∧
      ∀ s ∈ headers, s.1 ∈ ps ∧ s.2 = sizeofSdt := by
  induction ps generalizing index with
  | nil => simp [matching] at hp
  | cons q ps ih =>
    unfold lookupSpansAt
    have hcons : ∀ headers : List Span, (∀ s ∈ headers, s.1 ∈ ps ∧ s.2 = sizeofSdt) →
        ∀ s ∈ (q, sizeofSdt) :: headers, s.1 ∈ q :: ps ∧ s.2 = sizeofSdt := by
      intro headers hs
      refine List.forall_mem_cons.mpr ⟨⟨List.mem_cons_self, rfl⟩, ?_⟩
      intro s hm
      exact ⟨List.mem_cons_of_mem _ (hs s hm).1, (hs s hm).2⟩
    by_cases hb : hasBytes mem (hhdm + q) signature
    · rw [if_pos hb]
      rw [matching_cons, if_pos hb] at hp
      cases index with
      | zero =>
        obtain rfl : q = p := Option.some.inj hp
        exact ⟨[(q, sizeofSdt)], rfl, hcons [] (by simp)⟩
      | succ index =>
        rw [List.getElem?_cons_succ] at hp
        obtain ⟨headers, he, hs⟩ := ih hp
        refine ⟨(q, sizeofSdt) :: headers, ?_, hcons headers hs⟩
        rw [if_pos (Nat.zero_lt_succ _), Nat.add_sub_cancel, he, List.cons_append]
    · rw [if_neg hb]
      rw [matching_cons, if_neg hb] at hp
      obtain ⟨headers, he, hs⟩ := ih hp
      exact ⟨(q, sizeofSdt) :: headers, by rw [he, List.cons_append], hcons headers hs⟩

theorem spanOk_of_window {hhdm len : Nat} (hh : hhdm % 4096 = 0) (hhigh : HigherHalf la57 hhdm)
    (hw : Window hhdm p len) : SpanOk la57 (hhdm + p) p len := by
  obtain ⟨h1, h2⟩ := hw
  unfold HigherHalf at hhigh
  refine ⟨by omega, Or.inr ⟨by omega, by omega⟩, by omega, Or.inr ⟨by omega, by omega⟩⟩

theorem mmioFlags_lt : mmioFlags < 2 ^ 64 := by decide

/-- After the lookup, the page tables map the table that was found. -/
theorem translate_found (hA : A.Below (2 ^ 52)) (hT : Tables A M.hhdm la57 top h T) (hh : M.hhdm % 4096 = 0)
    (hhigh : HigherHalf la57 M.hhdm) (hheaders : ∀ q ∈ tables M address, Window M.hhdm q sizeofSdt)
    {r : Nat} (hdoes : Does M.hhdm mmioFlags init past (find M address signature index) r
      (lookupSpansAt M.hhdm M.mem signature index (tables M address)))
    (hp : (listed M address signature)[index]? = some p)
    (hw : Window M.hhdm p (lengthAt M.mem (M.hhdm + p)))
    (hm : mapPages A M.hhdm la57 top (callsOf (find M address signature index).events) h = some h') :
    ∀ o, o < lengthAt M.mem (M.hhdm + p) →
      translate M.hhdm la57 h'.mem top (M.hhdm + p + o) = some ⟨p + o, true, true, false⟩ := by
  obtain ⟨headers, he, hs⟩ := lookupSpansAt_last hp
  have hspan := spanOk_of_window hh hhigh hw
  rw [hdoes.calls_eq, he, List.flatMap_append, mapPages_append, Option.bind_eq_some_iff] at hm
  obtain ⟨h₁, hm₁, hm⟩ := hm
  rw [List.flatMap_singleton] at hm
  have hentered : ∀ c ∈ headers.flatMap fun s => vmmMapSpan (M.hhdm + s.1) s.1 s.2 mmioFlags,
      c.Entered la57 := by
    intro c hc
    obtain ⟨s, hsm, hc⟩ := List.mem_flatMap.mp hc
    obtain ⟨hmem, hsize⟩ := hs s hsm
    rw [hsize] at hc
    exact span_call_entered (spanOk_of_window hh hhigh (hheaders _ hmem)) mmioFlags_lt hc
  obtain ⟨⟨T₁, hT₁⟩, -⟩ := mapPages_tables hA hT hentered hm₁
  have hmapped := spanMapped_of_mapPages hA hT₁ hspan mmioFlags_lt hm
  intro o ho
  rw [hmapped.bytes hw.phys (by decide) o ho, if_neg mmioFlags_present]
  rfl

/-! ## The lookup -/

theorem ptrOf_eq_zero_iff {hhdm : Nat} (h0 : 0 < hhdm) (x : Option Nat) : ptrOf hhdm x = 0 ↔ x = none := by
  cases x with
  | none => simp [ptrOf]
  | some p =>
    refine iff_of_false ?_ (by simp)
    simp only [ptrOf]
    omega

/-- **`acpi_find_sdt` finds the table asked for**, with all of it mapped in the page tables. -/
theorem find_sdt_selects (M : Machine) (address : Nat) (hh : M.hhdm % 4096 = 0) (la57 : Bool)
    (hhigh : HigherHalf la57 M.hhdm) (hr : RootOk M address)
    (hheaders : ∀ p ∈ tables M address, Window M.hhdm p sizeofSdt) (init : List Call)
    (past later : List Event) (signature : List UInt8) (hs : signature.length = 4) (index : Nat) :
    Selects M address signature index init (past ++ (findRoot M (rsdpPtr M address)).events ++ later) ∧
    ∀ (A : PageAllocator σ) (top : Nat) (h h' : Heap σ) (T : List (Fin 512) → Option Nat),
      A.Below (2 ^ 52) → Tables A M.hhdm la57 top h T →
      mapPages A M.hhdm la57 top (callsOf (find M address signature index).events) h = some h' →
      ∀ p, (listed M address signature)[index]? = some p → Window M.hhdm p (lengthAt M.mem (M.hhdm + p)) →
        ∀ o, o < lengthAt M.mem (M.hhdm + p) →
          translate M.hhdm la57 h'.mem top (M.hhdm + p + o) = some ⟨p + o, true, true, false⟩ := by
  have hroot : Does M.hhdm mmioFlags init past (findRoot M (rsdpPtr M address)) (rsdtPtr M address) _ :=
    does_findRoot hh hr
  have hmapped : RootMapped M.mem (rsdpPtr M address) (rsdtPtr M address) init
      (past ++ (findRoot M (rsdpPtr M address)).events) := rootMapped hh hr
  have hfind : Does M.hhdm mmioFlags init _ (find M address signature index) _ _ :=
    does_acpiFindSdt_at hh hs.le (hmapped.later later) hheaders index
  have hpos : 0 < M.hhdm := by
    unfold HigherHalf at hhigh
    cases la57 <;> simp only [depth, Bool.false_eq_true, if_false, if_true] at hhigh <;> omega
  refine ⟨⟨hroot.returns, ⟨_, hfind⟩, ?_⟩, ?_⟩
  · rw [ptrOf_eq_zero_iff hpos, List.getElem?_eq_none_iff]
    omega
  · intro A top h h' T hA hT hm p hp hw
    exact translate_found hA hT hh hhigh hheaders hfind hp hw hm

/-- The HPET table is the second one in the XSDT. -/
theorem find_sdt_selects_hpet : (listed (apicMachine true) 0xe0000 hpetSig)[0]? = some 0xe3000 ∧
    Selects (apicMachine true) 0xe0000 hpetSig 0 [] (findRoot (apicMachine true) 0xffff8000000e0000).events ∧
    ∃ (top : Nat) (h h' : Heap (List Range)),
      mapPages bump (apicMachine true).hhdm false top
        (callsOf (find (apicMachine true) 0xe0000 hpetSig 0).events) h = some h' ∧
      translate (apicMachine true).hhdm false h'.mem top (0xffff800000000000 + 0xe3000 + 55) =
        some ⟨0xe3000 + 55, true, true, false⟩ := by
  obtain ⟨-, htables, -, -, hhpet, -⟩ := apicMachine_tables true
  have hok := apicMachine_ok true
  have ht := hok.tables 0xe0000 rfl (by decide)
  have hheaders : ∀ p ∈ tables (apicMachine true) 0xe0000, Window (apicMachine true).hhdm p sizeofSdt :=
    fun p hp => (ht.tables p hp).1
  have hhigh : HigherHalf false (apicMachine true).hhdm := by
    unfold HigherHalf
    decide
  have hfound : (listed (apicMachine true) 0xe0000 hpetSig)[0]? = some 0xe3000 :=
    (table_eq_matching _).symm.trans hhpet
  have hlen : lengthAt (apicMachine true).mem ((apicMachine true).hhdm + 0xe3000) = 56 := by decide +kernel
  obtain ⟨hsel, hmap⟩ := find_sdt_selects (σ := List Range) (apicMachine true) 0xe0000 hok.aligned false hhigh
    ht.rootOk hheaders [] [] [] hpetSig rfl 0
  have hcalls : callsOf (find (apicMachine true) 0xe0000 hpetSig 0).events =
      [⟨0xffff8000000e2000, 0xe2000, mmioFlags⟩, ⟨0xffff8000000e3000, 0xe3000, mmioFlags⟩,
        ⟨0xffff8000000e3000, 0xe3000, mmioFlags⟩] := by
    decide +kernel
  have hentered : ∀ c ∈ callsOf (find (apicMachine true) 0xe0000 hpetSig 0).events, c.Entered false := by
    rw [hcalls]
    intro c hc
    simp only [List.mem_cons, List.not_mem_nil, or_false] at hc
    rcases hc with rfl | rfl | rfl <;> exact ⟨by decide, by decide, by decide, by decide⟩
  obtain ⟨top, h, hinit, hroom⟩ := smallBoot_init
  obtain ⟨⟨T, hT⟩, -⟩ := walk_vmmInit bump_below smallBoot_ok hinit
  have hroom' : bumpRoom (4 + 4 * (callsOf (find (apicMachine true) 0xe0000 hpetSig 0).events).length) h.pmm := by
    rw [hcalls]
    exact hroom
  obtain ⟨h', hm, -⟩ := mapPages_total (h := h) (T := T) (k := 4) bump_below bump_supply hT hentered hroom'
  have hw : Window (apicMachine true).hhdm 0xe3000 (lengthAt (apicMachine true).mem ((apicMachine true).hhdm + 0xe3000)) :=
    (ht.tables 0xe3000 (by rw [htables]; simp)).2
  refine ⟨hfound, hsel, top, h, h', hm, ?_⟩
  exact hmap bump top h h' T bump_below hT hm 0xe3000 hfound hw 55 (by rw [hlen]; decide)

end Cynix.Acpi.FindSdt
