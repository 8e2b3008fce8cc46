import Cynix.Acpi.Lookup
import Cynix.Sys.Boot

/-! # The boot path touches mapped pages only, but for the xAPIC registers

`acpi_init` maps every table and the HPET before it reads them. Nothing maps
the registers of the local APIC: in xAPIC mode their page has to be mapped by
chance, as part of a memory map entry or of another span. -/
namespace Cynix.Sys.DeviceAccess
open Cynix.Base.Bytes Cynix.Base.Pages Cynix.Base.Trace Cynix.Lib.Misc
open Cynix.Mm.Vmm Cynix.Mm.VmmRuns Cynix.Mm.VmmInit Cynix.Mm.KernelSpace Cynix.Mm.Access
open Cynix.Acpi.Tables Cynix.Acpi.Lookup Cynix.Sys.Devices Cynix.Sys.Boot

/-! ## Machines -/

section
variable (M : Machine) (address : Nat)

/-- The pointers to the RSDP and the root table. -/
def rsdpPtr : Nat := M.hhdm + address
def rsdtPtr : Nat := M.hhdm + rootAddr M.mem (rsdpPtr M address)

def tables : List Nat := entries M.mem (rsdpPtr M address) (rsdtPtr M address)

def tableWith (signature : List UInt8) : Option Nat := table M.hhdm M.mem signature (tables M address)

/-- The physical address of the HPET registers, in the HPET table. -/
def hpetAddr (p : Nat) : Nat := read64 M.mem (M.hhdm + p + 44)

/-- The RSDP and the root table lie in the window, and the root table is no shorter than its header. -/
structure RootOk : Prop where
  rsdp : Window M.hhdm address sizeofRsdp
  length : sizeofSdt ≤ lengthAt M.mem (rsdtPtr M address)
  root : Window M.hhdm (rootAddr M.mem (rsdpPtr M address)) (lengthAt M.mem (rsdtPtr M address))

/-- The tables a machine hands over: each lies in the window with its length,
the MADT is filled by its entries, and the HPET table reaches to its address. -/
structure TablesOk : Prop where
  rsdp : Window M.hhdm address sizeofRsdp
  rootLength : sizeofSdt ≤ lengthAt M.mem (rsdtPtr M address)
  root : Window M.hhdm (rootAddr M.mem (rsdpPtr M address)) (lengthAt M.mem (rsdtPtr M address))
  tables : Tabled M.hhdm M.mem (tables M address)
  madt : ∀ p, tableWith M address apic = some p → sizeofMadt ≤ lengthAt M.mem (M.hhdm + p) ∧
    Fill M.mem (M.hhdm + p + sizeofMadt) 0 (lengthAt M.mem (M.hhdm + p) - sizeofMadt)
  hpet : ∀ p, tableWith M address hpetSig = some p → 52 ≤ lengthAt M.mem (M.hhdm + p) ∧
    Window M.hhdm (hpetAddr M p) sizeofHpet

/-- The machines the boot path is meant for. -/
structure MachineOk : Prop where
  aligned : M.hhdm % 4096 = 0
  high : 0 < M.hhdm ∧ M.hhdm + 2 ^ 32 ≤ 2 ^ 64
  tables : ∀ address, M.rsdp = some address → address ≠ 0 → TablesOk M address
  uacpi : ∀ addr len, .map addr len ∈ M.uacpi → Window M.hhdm addr len

def uacpiSpans : List UacpiCall → List Span
  | [] => []
  | .map addr len :: calls => (addr, len) :: uacpiSpans calls
  | .clock :: calls => uacpiSpans calls

/-- The FADT has the flag for hardware-reduced ACPI. -/
def HwReduced : Prop := ∃ p, tableWith M address facp = some p ∧
  116 ≤ lengthAt M.mem (M.hhdm + p) ∧ read32 M.mem (M.hhdm + p + 4 * 28) &&& (1 <<< 20) ≠ 0

/-- There is an HPET, and its period is not 0. -/
def HasHpet : Prop := ∃ p, tableWith M address hpetSig = some p ∧
  read64 M.mem (M.hhdm + hpetAddr M p) >>> 32 ≠ 0

/-- `acpi_init` comes to its end. -/
structure AcpiReturns : Prop where
  fadt : ¬ HwReduced M address
  madt : (tableWith M address apic).isSome
  hpet : HasHpet M address

def rootSpans : List Span :=
  [(address, sizeofRsdp), (rootAddr M.mem (rsdpPtr M address), sizeofSdt),
    (rootAddr M.mem (rsdpPtr M address), lengthAt M.mem (rsdtPtr M address))]

def hpetSpans : List Span :=
  lookupSpans M.hhdm M.mem hpetSig (tables M address) ++
    match tableWith M address hpetSig with
    | none => []
    | some p => [(hpetAddr M p, sizeofHpet)]

/-- What `acpi_init` maps when it comes to its end. -/
def acpiSpans : List Span :=
  rootSpans M address ++ (lookupSpans M.hhdm M.mem facp (tables M address) ++
    (lookupSpans M.hhdm M.mem apic (tables M address) ++ (hpetSpans M address ++ uacpiSpans M.uacpi)))

end

variable {M : Machine} {address : Nat} {init : List Call} {past : List Event}

theorem TablesOk.rootOk (ht : TablesOk M address) : RootOk M address := ⟨ht.rsdp, ht.rootLength, ht.root⟩

/-! ## `acpi_init` -/

/-- The choice between the two addresses in the RSDP. -/
theorem does_rootAddr {rsdp : Nat} (h : Covers (init ++ callsOf past) rsdp sizeofRsdp) :
    Does M.hhdm mmioFlags init past
      (do if ← useXsdt M.mem rsdp then load64 M.mem (rsdp + 24) else load32 M.mem (rsdp + 16))
      (rootAddr M.mem rsdp) [] := by
  unfold rootAddr
  refine Does.bind_left (does_useXsdt h) ?_
  have h₁ := h.later (useXsdt M.mem rsdp).events
  cases usesXsdt M.mem rsdp with
  | true => exact does_load64 (h₁.sub (by omega) (by unfold sizeofRsdp; omega))
  | false => exact does_load32 (h₁.sub (by omega) (by unfold sizeofRsdp; omega))

theorem does_findRoot (hh : M.hhdm % 4096 = 0) (ht : RootOk M address) :
    Does M.hhdm mmioFlags init past (findRoot M (rsdpPtr M address)) (rsdtPtr M address)
      (rootSpans M address) := by
  have hroot := ht.root.sub ht.length
  have hmap₁ : Does M.hhdm mmioFlags init past (mapSpan M.hhdm (rsdpPtr M address) sizeofRsdp) ()
      [(address, sizeofRsdp)] := does_mapSpan ht.rsdp
  have hcov₁ : Covers _ (rsdpPtr M address) sizeofRsdp :=
    hmap₁.covers hh mmioFlags_present (List.mem_singleton_self _) ht.rsdp
  unfold findRoot
  refine hmap₁.bind (w := [_, _]) (Does.bind_left (does_rootAddr hcov₁) ?_)
  rw [(window_ptr ht.root).1, ← rsdtPtr]
  have hcov₂ := hcov₁.later (do
    if ← useXsdt M.mem (rsdpPtr M address) then load64 M.mem (rsdpPtr M address + 24)
    else load32 M.mem (rsdpPtr M address + 16)).events
  refine Does.bind_left (does_load8 (hcov₂.sub (by omega) (by unfold sizeofRsdp; omega))) ?_
  refine Does.bind_left (does_useXsdt (hcov₂.later _)) ?_
  -- the root table's header, and then all of it
  refine Does.bind (v := [_]) (w := [_]) (does_mapSpan hroot) ?_
  have hcov₃ : ∀ past, Covers (init ++ callsOf (past ++
      (mapSpan M.hhdm (rsdtPtr M address) sizeofSdt).events)) (rsdtPtr M address) sizeofSdt := fun past =>
    (show Does M.hhdm mmioFlags init past _ _ _ from does_mapSpan hroot).covers hh
      mmioFlags_present (List.mem_singleton_self _) hroot
  have hfield : ∀ past l, Covers (init ++ callsOf (past ++
      (mapSpan M.hhdm (rsdtPtr M address) sizeofSdt).events ++ l)) (rsdtPtr M address + 4) 4 :=
    fun past l => ((hcov₃ past).later l).sub (by omega) (by unfold sizeofSdt; omega)
  refine Does.bind_left (does_load32 ((hcov₃ _).sub (by omega) (by unfold sizeofSdt; omega))) ?_
  refine Does.bind_left (does_load32 (hfield _ _)) ?_
  exact Does.bind (v := [_]) (w := []) (does_mapSpan hroot) (Does.pure _)

/-- After `findRoot` the walkers have what they need. -/
theorem rootMapped (hh : M.hhdm % 4096 = 0) (ht : RootOk M address) :
    RootMapped M.mem (rsdpPtr M address) (rsdtPtr M address) init
      (past ++ (findRoot M (rsdpPtr M address)).events) := by
  have h : Does M.hhdm mmioFlags init past (findRoot M (rsdpPtr M address)) (rsdtPtr M address) _ :=
    does_findRoot hh ht
  exact ⟨h.covers hh mmioFlags_present (by simp [rootSpans]) ht.rsdp,
    h.covers hh mmioFlags_present (by simp [rootSpans]) ht.root, ht.length⟩

/-- A table that was found is mapped, its header and then all of it. -/
theorem mem_lookupSpans {hhdm : Nat} {mem : Mem} {signature : List UInt8} {ps : List Nat} {p : Nat}
    (h : table hhdm mem signature ps = some p) :
    p ∈ ps ∧ (p, sizeofSdt) ∈ lookupSpans hhdm mem signature ps ∧
      (p, lengthAt mem (hhdm + p)) ∈ lookupSpans hhdm mem signature ps := by
  induction ps with
  | nil => cases h
  | cons q ps ih =>
    unfold table at h
    rw [List.find?_cons] at h
    unfold lookupSpans
    cases hq : hasBytes mem (hhdm + q) signature with
    | true =>
      rw [hq] at h
      obtain rfl := Option.some.inj h
      simp
    | false =>
      rw [hq] at h
      obtain ⟨h1, h2, h3⟩ := ih h
      exact ⟨List.mem_cons_of_mem _ h1, by simp [h2], by simp [h3]⟩

/-- A lookup on a machine. -/
theorem does_find (hM : MachineOk M) (ht : TablesOk M address)
    (hr : RootMapped M.mem (rsdpPtr M address) (rsdtPtr M address) init past)
    (signature : List UInt8) (hs : signature.length ≤ 4) :
    Does M.hhdm mmioFlags init past
      (acpiFindSdt M.hhdm M.mem (rsdpPtr M address) (rsdtPtr M address) signature 0)
      (ptrOf M.hhdm (tableWith M address signature))
      (lookupSpans M.hhdm M.mem signature (tables M address)) :=
  does_acpiFindSdt hM.aligned hs hr ht.tables

/-- The table that a lookup has found is covered. -/
theorem covers_find (hM : MachineOk M) (ht : TablesOk M address) {signature : List UInt8}
    {x : Boot Nat} {r : Nat} (hx : Does M.hhdm mmioFlags init past x r
      (lookupSpans M.hhdm M.mem signature (tables M address)))
    {p : Nat} (hp : tableWith M address signature = some p) :
    Covers (init ++ callsOf (past ++ x.events)) (M.hhdm + p) sizeofSdt ∧
    Covers (init ++ callsOf (past ++ x.events)) (M.hhdm + p) (lengthAt M.mem (M.hhdm + p)) := by
  obtain ⟨hmem, hhead, hall⟩ := mem_lookupSpans hp
  exact ⟨hx.covers hM.aligned mmioFlags_present hhead (ht.tables p hmem).1,
    hx.covers hM.aligned mmioFlags_present hall (ht.tables p hmem).2⟩

theorem MachineOk.ptr_ne (hM : MachineOk M) (p : Nat) : M.hhdm + p ≠ 0 := by
  have := hM.high.1
  omega

/-- The FADT check: it returns, or it stops the boot on a hardware-reduced system. -/
theorem tries_checkFadt (hM : MachineOk M)
    (hf : ∀ p, tableWith M address facp = some p →
      Covers (init ++ callsOf past) (M.hhdm + p) sizeofSdt ∧
      Covers (init ++ callsOf past) (M.hhdm + p) (lengthAt M.mem (M.hhdm + p))) :
    Tries M.hhdm mmioFlags init past (checkFadt M (ptrOf M.hhdm (tableWith M address facp)))
      (¬ HwReduced M address) (fun _ => True) [] := by
  unfold checkFadt HwReduced
  cases ht : tableWith M address facp with
  | none => exact (Does.pure ()).tries (by simp) trivial
  | some p =>
    obtain ⟨hhead, hall⟩ := hf p ht
    have hload : Does M.hhdm mmioFlags init past (load32 M.mem (M.hhdm + p + 4))
        (lengthAt M.mem (M.hhdm + p)) [] :=
      does_load32 (hhead.sub (by omega) (by unfold sizeofSdt; omega))
    rw [ptrOf, if_neg (hM.ptr_ne p)]
    refine hload.tries_bind (w := []) ?_
    by_cases hlen : 116 ≤ lengthAt M.mem (M.hhdm + p)
    · have hflags : Does M.hhdm mmioFlags init (past ++ (load32 M.mem (M.hhdm + p + 4)).events)
          (load32 M.mem (M.hhdm + p + 4 * 28)) (read32 M.mem (M.hhdm + p + 4 * 28)) [] :=
        does_load32 ((hall.later _).sub (by omega) (by omega))
      rw [if_pos hlen]
      refine hflags.tries_bind (w := []) ?_
      by_cases hbit : read32 M.mem (M.hhdm + p + 4 * 28) &&& (1 <<< 20) ≠ 0
      · rw [if_pos hbit]
        exact Tries.stop fun hn => hn ⟨p, rfl, hlen, hbit⟩
      · rw [if_neg hbit]
        refine (Does.pure ()).tries ?_ trivial
        intro hreduced
        obtain ⟨_, hq, hr⟩ := hreduced
        cases hq
        exact hbit hr.2
    · rw [if_neg hlen]
      refine (Does.pure ()).tries ?_ trivial
      intro hreduced
      obtain ⟨_, hq, hr⟩ := hreduced
      cases hq
      exact hlen hr.1

theorem tries_madtInit {x2apicMode : Bool} (hM : MachineOk M) (ht : TablesOk M address)
    (hr : RootMapped M.mem (rsdpPtr M address) (rsdtPtr M address) init past) :
    Tries M.hhdm mmioFlags init past
      (madtInit M.hhdm M.mem x2apicMode (rsdpPtr M address) (rsdtPtr M address))
      (tableWith M address apic).isSome (fun _ => True)
      (lookupSpans M.hhdm M.mem apic (tables M address)) := by
  have hfind := does_find hM ht hr apic (by decide)
  unfold madtInit
  rw [← List.append_nil (lookupSpans ..)]
  refine hfind.tries_bind ?_
  cases hp : tableWith M address apic with
  | none => exact Tries.stop (by simp)
  | some p =>
    obtain ⟨hlen, hfill⟩ := ht.madt p hp
    have hlt := read32_lt M.mem (M.hhdm + p + 4)
    have hloop : ∃ v, Does M.hhdm mmioFlags init _
        (madtLoop M.mem x2apicMode (M.hhdm + p) (2 ^ 32) 0 {}) v [] :=
      does_madtLoop hlen hfill (by unfold lengthAt; omega) (covers_find hM ht hfind hp).2
    obtain ⟨v, hv⟩ := hloop
    rw [ptrOf, if_neg (hM.ptr_ne p)]
    exact hv.tries rfl trivial

theorem does_store64 {a v : Nat} (h : Covers (init ++ callsOf past) a 8) :
    Does M.hhdm mmioFlags init past (store64 a v) () [] := Does.access h _

theorem tries_hpetInit (hM : MachineOk M) (ht : TablesOk M address)
    (hr : RootMapped M.mem (rsdpPtr M address) (rsdtPtr M address) init past) :
    Tries M.hhdm mmioFlags init past (hpetInit M.hhdm M.mem (rsdpPtr M address) (rsdtPtr M address))
      (HasHpet M address)
      (fun hpet => ∃ p, tableWith M address hpetSig = some p ∧ hpet.base = M.hhdm + hpetAddr M p)
      (hpetSpans M address) := by
  have hfind := does_find hM ht hr hpetSig (by decide)
  unfold hpetInit hpetSpans HasHpet
  refine hfind.tries_bind ?_
  cases hp : tableWith M address hpetSig with
  | none => exact Tries.stop (by simp)
  | some p =>
    obtain ⟨hlen, hwin⟩ := ht.hpet p hp
    have hcov := (covers_find hM ht hfind hp).2
    have haddr : Does M.hhdm mmioFlags init _ (load64 M.mem (M.hhdm + p + 44)) (hpetAddr M p) [] :=
      does_load64 (hcov.sub (by omega) (by omega))
    rw [ptrOf, if_neg (hM.ptr_ne p)]
    refine haddr.tries_bind (w := [_]) ?_
    simp only [(window_ptr hwin).1]
    generalize past ++
      (acpiFindSdt M.hhdm M.mem (rsdpPtr M address) (rsdtPtr M address) hpetSig 0).events ++
      (load64 M.mem (M.hhdm + p + 44)).events = past₀
    have hmap : Does M.hhdm mmioFlags init past₀
        (mapSpan M.hhdm (M.hhdm + hpetAddr M p) sizeofHpet) () [(hpetAddr M p, sizeofHpet)] :=
      does_mapSpan hwin
    refine hmap.tries_bind (w := []) ?_
    -- from here on the registers are mapped
    have h₁ := hmap.covers hM.aligned mmioFlags_present (List.mem_singleton_self _) hwin
    generalize past₀ ++ (mapSpan M.hhdm (M.hhdm + hpetAddr M p) sizeofHpet).events = past₁ at h₁ ⊢
    have hcap : Does M.hhdm mmioFlags init past₁ (load64 M.mem (M.hhdm + hpetAddr M p))
        (read64 M.mem (M.hhdm + hpetAddr M p)) [] :=
      does_load64 (h₁.sub le_rfl (by unfold sizeofHpet; omega))
    refine hcap.tries_bind (w := []) ?_
    by_cases hper : read64 M.mem (M.hhdm + hpetAddr M p) >>> 32 = 0
    · simp only [hper, if_true]
      refine Tries.stop ?_
      intro hperiod
      obtain ⟨_, hq, hr⟩ := hperiod
      cases hq
      exact hr hper
    · simp only [hper, if_false]
      have h₂ := h₁.later (load64 M.mem (M.hhdm + hpetAddr M p)).events
      refine Does.tries_bind (v := []) (w := [])
        (does_store64 (h₂.sub (by omega) (by unfold sizeofHpet; omega))) ?_
      have h₃ := h₂.later (store64 (M.hhdm + hpetAddr M p + 0xf0) 0).events
      refine Does.tries_bind (v := []) (w := [])
        (does_load64 (h₃.sub (by omega) (by unfold sizeofHpet; omega))) ?_
      have h₄ := h₃.later (load64 M.mem (M.hhdm + hpetAddr M p + 0x10)).events
      refine Does.tries_bind (v := []) (w := [])
        (does_store64 (h₄.sub (by omega) (by unfold sizeofHpet; omega))) ?_
      exact (Does.pure _).tries ⟨p, rfl, hper⟩ ⟨p, rfl, rfl⟩

theorem does_uacpiRun {hpet : Nat} {calls : List UacpiCall}
    (h : Covers (init ++ callsOf past) hpet sizeofHpet)
    (hw : ∀ addr len, .map addr len ∈ calls → Window M.hhdm addr len) :
    Does M.hhdm mmioFlags init past (uacpiRun M hpet calls) () (uacpiSpans calls) := by
  induction calls generalizing past with
  | nil => exact Does.pure _
  | cons call calls ih =>
    have hw' : ∀ addr len, .map addr len ∈ calls → Window M.hhdm addr len :=
      fun addr len hm => hw addr len (List.mem_cons_of_mem _ hm)
    cases call with
    | map addr len =>
      have hwin := hw addr len List.mem_cons_self
      unfold uacpiRun uacpiSpans
      rw [(window_ptr hwin).1]
      exact Does.bind (v := [(addr, len)]) (Does.map (addr, len) ()) (ih (h.later _) hw')
    | clock =>
      unfold uacpiRun uacpiSpans
      refine Does.bind_left (does_load64 (h.sub (by omega) (by unfold sizeofHpet; omega))) ?_
      exact ih (h.later _) hw'

/-- **`acpi_init`** reads only what it has mapped. -/
theorem tries_acpiInit {x2apicMode : Bool} (hM : MachineOk M) (hrsdp : M.rsdp = some address)
    (hne : address ≠ 0) :
    Tries M.hhdm mmioFlags init past (acpiInit M x2apicMode) (AcpiReturns M address) (fun _ => True)
      (acpiSpans M address) := by
  have ht := hM.tables address hrsdp hne
  have hunfold : acpiInit M x2apicMode = (do
      let rsdt ← findRoot M (rsdpPtr M address)
      let fadt ← acpiFindSdt M.hhdm M.mem (rsdpPtr M address) rsdt facp 0
      checkFadt M fadt
      let vectors ← madtInit M.hhdm M.mem x2apicMode (rsdpPtr M address) rsdt
      let hpet ← hpetInit M.hhdm M.mem (rsdpPtr M address) rsdt
      uacpiRun M hpet.base M.uacpi
      pure (vectors, hpet)) := by
    unfold acpiInit
    rw [hrsdp, rsdpPtr, ← (window_ptr ht.rsdp).1]
    cases address with
    | zero => exact absurd rfl hne
    | succ n => rfl
  have hroot : Does M.hhdm mmioFlags init past (findRoot M (rsdpPtr M address)) (rsdtPtr M address) _ :=
    does_findRoot hM.aligned ht.rootOk
  have hr₁ : RootMapped M.mem (rsdpPtr M address) (rsdtPtr M address) init
      (past ++ (findRoot M (rsdpPtr M address)).events) := rootMapped hM.aligned ht.rootOk
  have hfind := does_find hM ht hr₁ facp (by decide)
  have hr₂ := hr₁.later
    (acpiFindSdt M.hhdm M.mem (rsdpPtr M address) (rsdtPtr M address) facp 0).events
  have hcheck := tries_checkFadt hM fun p hp => covers_find hM ht hfind hp
  have hr₃ := hr₂.later (checkFadt M (ptrOf M.hhdm (tableWith M address facp))).events
  rw [hunfold]
  refine Tries.congr
    (c := ¬ HwReduced M address ∧ (tableWith M address apic).isSome ∧ HasHpet M address ∧ True) ?_
    ⟨fun ⟨h1, h2, h3, _⟩ => ⟨h1, h2, h3⟩, fun ⟨h1, h2, h3⟩ => ⟨h1, h2, h3, trivial⟩⟩
  refine hroot.tries_bind (hfind.tries_bind (hcheck.bind (v := []) fun _ _ _ => ?_))
  refine (tries_madtInit hM ht hr₃).bind fun vectors _ _ => ?_
  have hr₄ := hr₃.later (madtInit M.hhdm M.mem x2apicMode (rsdpPtr M address) (rsdtPtr M address)).events
  refine (tries_hpetInit hM ht hr₄).bind fun hpet hbase hd => ?_
  obtain ⟨p, hp, hbase⟩ := hbase
  have hspan : (hpetAddr M p, sizeofHpet) ∈ hpetSpans M address := by simp [hpetSpans, hp]
  have hcov := hd.covers hM.aligned mmioFlags_present hspan (ht.hpet p hp).2
  rw [← hbase] at hcov
  rw [← List.append_nil (uacpiSpans ..)]
  exact (does_uacpiRun hcov hM.uacpi).tries_bind ((Does.pure _).tries trivial trivial)

theorem lookupSpans_window (signature : List UInt8) {ps : List Nat} (ht : Tabled M.hhdm M.mem ps) :
    ∀ s ∈ lookupSpans M.hhdm M.mem signature ps, Window M.hhdm s.1 s.2 := by
  induction ps with
  | nil => exact fun s hs => nomatch hs
  | cons p ps ih =>
    obtain ⟨⟨h1, h2⟩, htail⟩ := List.forall_mem_cons.mp ht
    unfold lookupSpans
    cases hasBytes M.mem (M.hhdm + p) signature with
    | true => simp [h1, h2]
    | false => simpa [h1] using ih htail

theorem uacpiSpans_window {calls : List UacpiCall}
    (hw : ∀ addr len, .map addr len ∈ calls → Window M.hhdm addr len) :
    ∀ s ∈ uacpiSpans calls, Window M.hhdm s.1 s.2 := by
  induction calls with
  | nil => exact fun s hs => nomatch hs
  | cons call calls ih =>
    have hrest := ih fun addr len hm => hw addr len (List.mem_cons_of_mem _ hm)
    cases call with
    | map addr len => exact List.forall_mem_cons.mpr ⟨hw addr len List.mem_cons_self, hrest⟩
    | clock => exact hrest

/-- What `acpi_init` maps lies in the window. -/
theorem acpiSpans_window (hM : MachineOk M) (ht : TablesOk M address) :
    ∀ s ∈ acpiSpans M address, Window M.hhdm s.1 s.2 := by
  have hroot := ht.root.sub ht.rootLength
  have hfind := fun signature => lookupSpans_window signature ht.tables
  have hhpet : ∀ s ∈ hpetSpans M address, Window M.hhdm s.1 s.2 := by
    unfold hpetSpans
    refine List.forall_mem_append.mpr ⟨hfind hpetSig, ?_⟩
    cases hp : tableWith M address hpetSig with
    | none => simp
    | some p => simpa using (ht.hpet p hp).2
  unfold acpiSpans
  simp only [List.forall_mem_append]
  refine ⟨?_, hfind facp, hfind apic, hhpet, uacpiSpans_window hM.uacpi⟩
  simp [rootSpans, ht.rsdp, ht.root, hroot]

/-- Without an RSDP nothing is read. -/
theorem acpiInit_no_rsdp {x2apicMode : Bool} (h : ∀ address, M.rsdp = some address → address = 0) :
    acpiInit M x2apicMode = stop "ACPI is not supported on this machine" := by
  unfold acpiInit
  cases hr : M.rsdp with
  | none => rfl
  | some address =>
    obtain rfl := h address hr
    rfl

end Cynix.Sys.DeviceAccess
