import Cynix.Mm.VmmRuns

/-! # The kernel address space (`vmm_init`)

The loops of `vmm_init` over the upper half of the top-level table, the program
headers of the kernel file and the memory map, and the address space they
leave. -/
namespace Cynix.Mm.VmmInit
open Cynix.Base.Bytes Cynix.Base.Pages Cynix.Base.Radix Cynix.Lib.Misc Cynix.Lib.Alloc
open Cynix.Mm.Pmm Cynix.Mm.Vmm Cynix.Mm.VmmTables Cynix.Mm.VmmRuns

inductive PagingMode where
  | fourLevel
  | fiveLevel
  deriving DecidableEq, Repr

/-- What the bootloader answers; `none` is a missing response. -/
structure BootInfo where
  pagingMode : Option PagingMode
  /-- `physical_base` and `virtual_base`. -/
  executableAddress : Option (Nat × Nat)
  /-- The address of the kernel file. -/
  kernelFile : Nat
  memmap : List MemmapEntry
  hhdm : Nat

def BootInfo.la57 (b : BootInfo) : Bool := b.pagingMode == some .fiveLevel

/-- The fields of an `Elf64_Phdr` that are read. -/
structure Phdr where
  type : Nat
  flags : Nat
  vaddr : Nat
  memsz : Nat
  deriving DecidableEq, Repr

def phdrAt (mem : Mem) (a : Nat) : Phdr :=
  ⟨read32 mem a, read32 mem (a + 4), read64 mem (a + 16), read64 mem (a + 40)⟩

/-- `e_phoff`, `e_phentsize` and `e_phnum` of the file at `file`. -/
def ePhoff (mem : Mem) (file : Nat) : Nat := read64 mem (file + 32)
def ePhentsize (mem : Mem) (file : Nat) : Nat := read16 mem (file + 54)
def ePhnum (mem : Mem) (file : Nat) : Nat := read16 mem (file + 56)

def ptLoad : Nat := 1
def pfX : Nat := 1
def pfW : Nat := 2

/-- The flags of a segment's pages. -/
def segmentFlags (p : Phdr) : Nat :=
  let flags := vmmPtePresent
  let flags := if p.flags &&& pfX = 0 then flags ||| vmmPteNoexec else flags
  if p.flags &&& pfW ≠ 0 then flags ||| vmmPteWritable else flags

/-- The calls of a loop over `count` pages. -/
def spanCalls (virt phys flags count : Nat) : List Call :=
  (List.range count).map fun k =>
    ⟨(virt + k * pageSize) % 2 ^ 64, (phys + k * pageSize) % 2 ^ 64, flags⟩

variable {σ : Type} (A : PageAllocator σ)

def mapKernelSpan (hhdm : Nat) (la57 : Bool) (top virt phys len flags : Nat) (h : Heap σ) :
    Option (Heap σ) :=
  mapPages A hhdm la57 top (spanCalls virt phys flags (alignUp len pageSize / pageSize)) h

/-- The loop over the program headers. `e_phnum` and `e_phentsize` are read
again each time round; `e_phnum` has 16 bits, so `fuel` 65536 is never used up. -/
def phdrLoop (b : BootInfo) (top physicalBase virtualBase : Nat) :
    Nat → Nat → Nat → Heap σ → Option (Heap σ)
  | 0, _, _, h => some h
  | fuel + 1, i, phdr, h =>
    if i < ePhnum h.mem b.kernelFile then do
      let p := phdrAt h.mem phdr
      let h ←
        (if p.type ≠ ptLoad then some h
        else
          let phys := (sub64 p.vaddr virtualBase + physicalBase) % 2 ^ 64
          mapKernelSpan A b.hhdm b.la57 top p.vaddr phys p.memsz (segmentFlags p) h)
      phdrLoop b top physicalBase virtualBase fuel (i + 1)
        (phdr + ePhentsize h.mem b.kernelFile) h
    else some h

/-- The types of entries that `vmm_init` maps. -/
def isMapped (t : MemmapType) : Bool :=
  t == .usable || t == .bootloaderReclaimable || t == .executableAndModules || t == .framebuffer

def entryFlags (t : MemmapType) : Nat :=
  vmmPtePresent ||| vmmPteNoexec ||| vmmPteWritable ||| (if t = .framebuffer then vmmPteWc else 0)

/-- The calls of the memory map loop for one entry. -/
def entryCalls (hhdm : Nat) (e : MemmapEntry) : List Call :=
  if isMapped e.type then
    let base := alignDown e.base pageSize
    let top := alignUp ((e.base + e.length) % 2 ^ 64) pageSize
    spanCalls (base + hhdm) base (entryFlags e.type) ((top - base) / pageSize)
  else []

/-- The entries 256 to 511 of the top-level table get their tables. -/
def prefill (hhdm top : Nat) (h : Heap σ) : Option (Heap σ) :=
  (List.range 256).foldlM (fun h k =>
    match getNextLevel A hhdm top (256 + k) true h with
    | some (ret, h) => if ret = 0 then none else some h
    | none => none) h

/-- `vmm_init` up to `vmm_switch_pagemap`, with the top-level table; `none` is a panic. -/
def vmmInit (b : BootInfo) (h : Heap σ) : Option (Nat × Heap σ) := do
  let (top, h) ← pmmAllocVia A b.hhdm 1 h
  let h ← prefill A b.hhdm top h
  let (physicalBase, virtualBase) ← b.executableAddress
  let h ← phdrLoop A b top physicalBase virtualBase 65536 0
    (b.kernelFile + ePhoff h.mem b.kernelFile) h
  let h ← b.memmap.foldlM (fun h e => mapPages A b.hhdm b.la57 top (entryCalls b.hhdm e) h) h
  some (top, h)

/-! ## Translation -/

/-- What an access to an address may do and where it goes. -/
structure Access where
  phys : Nat
  writable : Bool
  noexec : Bool
  user : Bool
  deriving DecidableEq, Repr

/-- The walk with the permissions of all levels: writable and user-accessible
where every entry allows it, not executable where one entry forbids it. -/
def translateFrom (hhdm : Nat) (mem : Mem) (v : Nat) : Nat → Nat → Access → Option Access
  | 0, t, a =>
    let e := entryOf hhdm mem t (index v 0)
    if e &&& 1 = 0 then none
    else some ⟨(e &&& (2 ^ 52 - 2 ^ 12)) + v % 4096, a.writable && e.testBit 1,
      a.noexec || e.testBit 63, a.user && e.testBit 2⟩
  | k + 1, t, a =>
    let e := entryOf hhdm mem t (index v (k + 1))
    match nextTable e with
    | none => none
    | some u => translateFrom hhdm mem v k u
        ⟨0, a.writable && e.testBit 1, a.noexec || e.testBit 63, a.user && e.testBit 2⟩

def translate (hhdm : Nat) (la57 : Bool) (mem : Mem) (top v : Nat) : Option Access :=
  translateFrom hhdm mem v (depth la57) top ⟨0, true, false, true⟩

/-- The access a last-level entry gives, when the levels above allow everything. -/
def accessOf (v e : Nat) : Access :=
  ⟨(e &&& (2 ^ 52 - 2 ^ 12)) + v % 4096, e.testBit 1, e.testBit 63, e.testBit 2⟩

variable {A} {hhdm top v : Nat} {la57 : Bool} {h h' : Heap σ} {T T' : List (Fin 512) → Option Nat}

/-- The entry of a table allows everything. -/
theorem testBit_or_seven {t : Nat} (ht : t % 4096 = 0) (hb : t + 4096 ≤ 2 ^ 52) :
    (t ||| 0b111).testBit 1 = true ∧ (t ||| 0b111).testBit 63 = false ∧
      (t ||| 0b111).testBit 2 = true := by
  have h1 : Nat.testBit 7 1 = true := by decide
  have h2 : Nat.testBit 7 2 = true := by decide
  refine ⟨by simp [Nat.testBit_or, h1], ?_, by simp [Nat.testBit_or, h2]⟩
  rw [or_seven ht]
  exact Nat.testBit_lt_two_pow (by omega)

theorem Tables.translateFrom_eq (hT : Tables A hhdm la57 top h T) (v : Nat) :
    ∀ {k : Nat} {p : List (Fin 512)} {t : Nat}, T p = some t → p.length + k = depth la57 →
      translateFrom hhdm h.mem v k t ⟨0, true, false, true⟩ = (do
        let t ← T (p ++ upper v k)
        let e := entryOf hhdm h.mem t (index v 0)
        if e &&& 1 = 0 then none else some (accessOf v e))
  | 0, p, t, hp, hl => by simp [translateFrom, upper, hp, accessOf]
  | k + 1, p, t, hp, hl => by
    have hch := hT.tree.child p t (index v (k + 1)) hp (by omega)
    have happ : p ++ upper v (k + 1) = p ++ [index v (k + 1)] ++ upper v k :=
      List.append_cons p _ _
    rw [translateFrom, happ]
    cases hc : T (p ++ [index v (k + 1)]) with
    | none =>
      have hnext : nextTable (entryOf hhdm h.mem t (index v (k + 1))) = none := hch.trans hc
      have hend : T (p ++ [index v (k + 1)] ++ upper v k) = none := by
        cases hT' : T (p ++ [index v (k + 1)] ++ upper v k) with
        | none => rfl
        | some u =>
          obtain ⟨w, hw⟩ := hT.tree.of_append hT'
          rw [hc] at hw
          cases hw
      simp only [hnext, hend]
      rfl
    | some u =>
      obtain ⟨hu, hub, -⟩ := hT.page _ u hc
      have he := flagBits_of_linked hT hp (by omega) (hch.trans hc)
      obtain ⟨h1, h2, h3⟩ := testBit_or_seven hu hub
      simp only [he, nextTable_or hu hub, h1, h2, h3, Bool.and_true, Bool.or_false]
      have hlen : (p ++ [index v (k + 1)]).length + k = depth la57 := by
        rw [List.length_append, List.length_singleton]
        omega
      exact Tables.translateFrom_eq hT v hc hlen

/-- Only the last level restricts an access. -/
theorem Tables.translate_eq (hT : Tables A hhdm la57 top h T) (v : Nat) :
    translate hhdm la57 h.mem top v = (walk hhdm la57 h.mem top v).map (accessOf v) := by
  rw [translate, Tables.translateFrom_eq hT v hT.tree.root (by simp), hT.walk_eq, leaf,
    List.nil_append]
  cases T (upper v (depth la57)) with
  | none => rfl
  | some t =>
    simp only [Option.bind_eq_bind, Option.bind_some]
    by_cases he : entryOf hhdm h.mem t (index v 0) &&& 1 = 0
    · rw [if_pos he, if_pos he, Option.map_none]
    · rw [if_neg he, if_neg he, Option.map_some]

/-! ## The loops as one list of calls -/

variable {b : BootInfo} {physicalBase virtualBase : Nat} {calls calls' : List Call}

theorem mapPages_append : mapPages A hhdm la57 top (calls ++ calls') h =
    (mapPages A hhdm la57 top calls h).bind (mapPages A hhdm la57 top calls') := by
  unfold mapPages
  rw [List.foldlM_append]
  rfl

theorem mapPages_flatMap {α : Type} (f : α → List Call) (l : List α) :
    l.foldlM (fun h a => mapPages A hhdm la57 top (f a) h) h =
      mapPages A hhdm la57 top (l.flatMap f) h := by
  induction l generalizing h with
  | nil => rfl
  | cons a l ih =>
    rw [List.foldlM_cons, List.flatMap_cons, mapPages_append]
    congr 1
    funext h
    exact ih

/-- The program headers of the kernel file. -/
def phdrs (mem : Mem) (file : Nat) : List Phdr :=
  (List.range (ePhnum mem file)).map fun i =>
    phdrAt mem (file + ePhoff mem file + i * ePhentsize mem file)

def loads (mem : Mem) (file : Nat) : List Phdr := (phdrs mem file).filter (·.type = ptLoad)

/-- The calls for one segment. -/
def segmentCalls (physicalBase virtualBase : Nat) (p : Phdr) : List Call :=
  spanCalls p.vaddr ((sub64 p.vaddr virtualBase + physicalBase) % 2 ^ 64) (segmentFlags p)
    (alignUp p.memsz pageSize / pageSize)

/-- The parts of the kernel file that are read lie in no page of the allocator. -/
structure FileSpared (A : PageAllocator σ) (hhdm : Nat) (mem : Mem) (file : Nat) : Prop where
  ehdr : ∀ x, file ≤ x → x < file + 64 → Spared A hhdm x
  phdr : ∀ i, i < ePhnum mem file → ∀ x, file + ePhoff mem file + i * ePhentsize mem file ≤ x →
    x < file + ePhoff mem file + i * ePhentsize mem file + 56 → Spared A hhdm x

theorem phdrAt_congr {m m' : Mem} {a : Nat} (h : ∀ x, a ≤ x → x < a + 56 → m x = m' x) :
    phdrAt m a = phdrAt m' a := by
  unfold phdrAt
  rw [read32_congr fun x h1 h2 => h x (by omega) (by omega),
    read32_congr fun x h1 h2 => h x (by omega) (by omega),
    read64_congr fun x h1 h2 => h x (by omega) (by omega),
    read64_congr fun x h1 h2 => h x (by omega) (by omega)]

/-- The file header reads the same in every memory that agrees on what is spared. -/
theorem FileSpared.ehdr_eq {m m' : Mem} {file : Nat} (hf : FileSpared A hhdm m file)
    (hm : ∀ x, Spared A hhdm x → m' x = m x) :
    ePhoff m' file = ePhoff m file ∧ ePhentsize m' file = ePhentsize m file ∧
      ePhnum m' file = ePhnum m file := by
  have hb : ∀ x, file ≤ x → x < file + 64 → m' x = m x := fun x h1 h2 => hm x (hf.ehdr x h1 h2)
  exact ⟨read64_congr fun x h1 h2 => hb x (by omega) (by omega),
    read16_congr fun x h1 h2 => hb x (by omega) (by omega),
    read16_congr fun x h1 h2 => hb x (by omega) (by omega)⟩

/-- Calls keep the tables, and the bytes that are spared. -/
theorem mapPages_spared (hA : A.Below (2 ^ 52)) (hT : Tables A hhdm la57 top h T)
    (hcs : ∀ c ∈ calls, c.Ok la57) (hm : mapPages A hhdm la57 top calls h = some h') :
    (∃ T', Tables A hhdm la57 top h' T') ∧ ∀ x, Spared A hhdm x → h'.mem x = h.mem x := by
  refine mapPages_rule (P := fun h₁ => (∃ T₁, Tables A hhdm la57 top h₁ T₁) ∧
    ∀ x, Spared A hhdm x → h₁.mem x = h.mem x) ⟨⟨T, hT⟩, fun _ _ => rfl⟩ ?_ hm
  intro c hc h₁ h₂ hboth hmap
  obtain ⟨⟨T₁, hT₁⟩, hspared⟩ := hboth
  obtain ⟨T₂, hT₂, hM⟩ := vmmMapPage_spec hT₁ hA (hcs c hc).entry_lt hmap
  exact ⟨⟨T₂, hT₂⟩, fun x hx => (hM.spared x hx).trans (hspared x hx)⟩

/-- The loop from header `i` on makes the calls of the segments left. -/
theorem phdrLoop_eq (hA : A.Below (2 ^ 52)) {mem : Mem} (hf : FileSpared A b.hhdm mem b.kernelFile)
    (hok : ∀ p ∈ loads mem b.kernelFile, ∀ c ∈ segmentCalls physicalBase virtualBase p, c.Ok b.la57)
    {n : Nat} : ∀ {fuel i : Nat} {h : Heap σ} {T : List (Fin 512) → Option Nat},
      Tables A b.hhdm b.la57 top h T → (∀ x, Spared A b.hhdm x → h.mem x = mem x) →
      i + n = ePhnum mem b.kernelFile → n < fuel →
      phdrLoop A b top physicalBase virtualBase fuel i
          (b.kernelFile + ePhoff mem b.kernelFile + i * ePhentsize mem b.kernelFile) h =
        mapPages A b.hhdm b.la57 top ((((List.range' i n).map fun i =>
          phdrAt mem (b.kernelFile + ePhoff mem b.kernelFile + i * ePhentsize mem b.kernelFile)).filter
            (·.type = ptLoad)).flatMap (segmentCalls physicalBase virtualBase)) h := by
  induction n with
  | zero =>
    intro fuel i h T hT hm hi hfuel
    obtain ⟨fuel, rfl⟩ := Nat.exists_eq_succ_of_ne_zero (show fuel ≠ 0 by omega)
    obtain ⟨-, -, h3⟩ := hf.ehdr_eq hm
    rw [phdrLoop, h3, if_neg (by omega)]
    rfl
  | succ n ih =>
    intro fuel i h T hT hm hi hfuel
    obtain ⟨fuel, rfl⟩ := Nat.exists_eq_succ_of_ne_zero (show fuel ≠ 0 by omega)
    obtain ⟨-, -, h3⟩ := hf.ehdr_eq hm
    have hp : phdrAt h.mem (b.kernelFile + ePhoff mem b.kernelFile + i * ePhentsize mem b.kernelFile) =
        phdrAt mem (b.kernelFile + ePhoff mem b.kernelFile + i * ePhentsize mem b.kernelFile) :=
      phdrAt_congr fun x h1 h2 => hm x (hf.phdr i (by omega) x h1 h2)
    have hnext : ∀ k, b.kernelFile + ePhoff mem b.kernelFile + i * k + k =
        b.kernelFile + ePhoff mem b.kernelFile + (i + 1) * k := by
      intro k
      rw [Nat.succ_mul]
      omega
    have hmem : phdrAt mem (b.kernelFile + ePhoff mem b.kernelFile + i * ePhentsize mem b.kernelFile) ∈
        phdrs mem b.kernelFile := List.mem_map.mpr ⟨i, List.mem_range.mpr (by omega), rfl⟩
    rw [phdrLoop, h3, if_pos (by omega), hp, List.range'_succ, List.map_cons, List.filter_cons]
    generalize phdrAt mem _ = p at *
    by_cases ht : p.type = ptLoad
    · simp only [ht, ne_eq, not_true_eq_false, if_false, decide_true, if_true, List.flatMap_cons,
        mapPages_append, Option.bind_eq_bind]
      change (mapPages A b.hhdm b.la57 top (segmentCalls physicalBase virtualBase p) h).bind _ = _
      cases hs : mapPages A b.hhdm b.la57 top (segmentCalls physicalBase virtualBase p) h with
      | none => rfl
      | some h₁ =>
        have hl : p ∈ loads mem b.kernelFile := List.mem_filter.mpr ⟨hmem, by simpa using ht⟩
        obtain ⟨⟨T₁, hT₁⟩, hsp⟩ := mapPages_spared hA hT (hok p hl) hs
        have hm₁ : ∀ x, Spared A b.hhdm x → h₁.mem x = mem x :=
          fun x hx => (hsp x hx).trans (hm x hx)
        obtain ⟨-, h2, -⟩ := hf.ehdr_eq hm₁
        simp only [Option.bind_some, h2, hnext]
        exact ih hT₁ hm₁ (by omega) (by omega)
    · obtain ⟨-, h2, -⟩ := hf.ehdr_eq hm
      simp only [ht, ne_eq, not_false_eq_true, if_true, decide_false, Bool.false_eq_true, if_false,
        Option.bind_eq_bind, Option.bind_some, h2, hnext]
      exact ih hT hm (by omega) (by omega)

/-- The whole loop. -/
theorem phdrLoop_loads (hA : A.Below (2 ^ 52)) {mem : Mem}
    (hf : FileSpared A b.hhdm mem b.kernelFile)
    (hok : ∀ p ∈ loads mem b.kernelFile, ∀ c ∈ segmentCalls physicalBase virtualBase p, c.Ok b.la57)
    (hT : Tables A b.hhdm b.la57 top h T) (hsp : ∀ x, Spared A b.hhdm x → h.mem x = mem x) :
    phdrLoop A b top physicalBase virtualBase 65536 0
        (b.kernelFile + ePhoff h.mem b.kernelFile) h =
      mapPages A b.hhdm b.la57 top
        ((loads mem b.kernelFile).flatMap (segmentCalls physicalBase virtualBase)) h := by
  obtain ⟨e1, -, -⟩ := hf.ehdr_eq hsp
  have hnum : ePhnum mem b.kernelFile < 65536 := by
    have h1 := (mem (b.kernelFile + 56)).toNat_lt
    have h2 := (mem (b.kernelFile + 56 + 1)).toNat_lt
    unfold ePhnum read16
    omega
  have hloop := phdrLoop_eq hA hf hok hT hsp (Nat.zero_add _) hnum
  rw [Nat.zero_mul, Nat.add_zero] at hloop
  rw [e1, hloop, loads, phdrs, List.range_eq_range']

/-- The prefilled entries have their tables. -/
theorem prefill_spec (hA : A.Below (2 ^ 52)) (hT : Tables A hhdm la57 top h T)
    (hp : prefill A hhdm top h = some h') :
    ∃ T', Tables A hhdm la57 top h' T' ∧ Extends A hhdm la57 h T h' T' ∧
      ∀ i : Fin 512, 256 ≤ i.val → ∃ t, T' [i] = some t := by
  unfold prefill at hp
  have hlt : ∀ k ∈ List.range 256, k < 256 := fun k hk => List.mem_range.mp hk
  suffices hl : ∀ l : List Nat, (∀ k ∈ l, k < 256) → ∀ {h : Heap σ} {T : List (Fin 512) → Option Nat},
      Tables A hhdm la57 top h T → l.foldlM (fun h k =>
        match getNextLevel A hhdm top (256 + k) true h with
        | some (ret, h) => if ret = 0 then none else some h
        | none => none) h = some h' →
      ∃ T', Tables A hhdm la57 top h' T' ∧ Extends A hhdm la57 h T h' T' ∧
        ∀ i : Fin 512, 256 ≤ i.val → i.val - 256 ∈ l → ∃ t, T' [i] = some t by
    obtain ⟨T', hT', hE, hin⟩ := hl _ hlt hT hp
    exact ⟨T', hT', hE, fun i hi => hin i hi (List.mem_range.mpr (by have := i.isLt; omega))⟩
  intro l hlt h T hT hp
  induction l generalizing h T with
  | nil =>
    simp only [List.foldlM_nil, Option.pure_def, Option.some.injEq] at hp
    subst hp
    exact ⟨T, hT, Extends.refl h T, fun _ _ hi => nomatch hi⟩
  | cons k l ih =>
    rw [List.foldlM_cons, Option.bind_eq_bind, Option.bind_eq_some_iff] at hp
    obtain ⟨h₁, hk, hp⟩ := hp
    cases hg : getNextLevel A hhdm top (256 + k) true h with
    | none => simp [hg] at hk
    | some r =>
      obtain ⟨ret, h₂⟩ := r
      have hk256 : k < 256 := hlt k (by simp)
      have hret : h₂ = h₁ := by
        simp only [hg] at hk
        split at hk
        · cases hk
        · exact Option.some.inj hk
      subst hret
      obtain ⟨T₁, hT₁, ht, hE₁⟩ := getNextLevel_spec (i := ⟨256 + k, by omega⟩) hT hA hT.tree.root
        (by cases la57 <;> decide) hg
      obtain ⟨T₂, hT₂, hE₂, hin⟩ := ih (fun j hj => hlt j (by simp [hj])) hT₁ hp
      refine ⟨T₂, hT₂, hE₁.trans hE₂, fun i hi hmem => ?_⟩
      rcases List.mem_cons.mp hmem with hik | hmem
      · have hi' : i = ⟨256 + k, by omega⟩ := Fin.ext (by simp only; omega)
        exact ⟨ret, hi' ▸ hE₂.tables _ _ ht⟩
      · exact hin i hi hmem

/-- `vmm_init` makes the calls for the segments and for the memory map, in this
order, on tables that map nothing. -/
theorem vmmInit_some (hA : A.Below (2 ^ 52)) (hb : b.executableAddress = some (physicalBase, virtualBase))
    (hf : FileSpared A b.hhdm h.mem b.kernelFile)
    (hok : ∀ p ∈ loads h.mem b.kernelFile, ∀ c ∈ segmentCalls physicalBase virtualBase p, c.Ok b.la57)
    (hi : vmmInit A b h = some (top, h')) :
    ∃ h₁ T₁, Tables A b.hhdm b.la57 top h₁ T₁ ∧
      (∀ i : Fin 512, 256 ≤ i.val → ∃ t, T₁ [i] = some t) ∧
      (∀ v, walk b.hhdm b.la57 h₁.mem top v = none) ∧
      mapPages A b.hhdm b.la57 top
        ((loads h.mem b.kernelFile).flatMap (segmentCalls physicalBase virtualBase) ++
          b.memmap.flatMap (entryCalls b.hhdm)) h₁ = some h' := by
  unfold vmmInit at hi
  simp only [hb, Option.bind_eq_bind, Option.bind_eq_some_iff, Option.bind_some, Prod.exists,
    Option.some.injEq, Prod.mk.injEq] at hi
  obtain ⟨top', h₀, h0, h₁, h1, h₂, h2, h₃, h3, rfl, rfl⟩ := hi
  have hT₀ : Tables A b.hhdm b.la57 top' _ _ := Tables.start hA h0
  obtain ⟨T₁, hT₁, hE, hhalf⟩ := prefill_spec hA hT₀ h1
  have hsp : ∀ x, Spared A b.hhdm x → h₁.mem x = h.mem x := by
    intro x hx
    obtain ⟨pmm, hp, rfl⟩ := pmmAllocVia_some h0
    rw [hE.spared x hx]
    exact fillPages_out (A.alloc_fits (by decide) hp) (hx _ _ _ hp)
  refine ⟨h₁, T₁, hT₁, hhalf, ?_, ?_⟩
  · intro v
    rw [hT₁.walk_eq, hE.leaf_eq, ← hT₀.walk_eq, walk_start hA h0]
  · rw [phdrLoop_loads hA hf hok hT₁ hsp] at h2
    rw [mapPages_append, h2, Option.bind_some, ← mapPages_flatMap]
    exact h3

/-! ## With enough pages no call fails -/

variable {room : Nat → σ → Prop}

theorem getNextLevel_total (hA : A.Below (2 ^ 52)) (hS : Supply A room)
    (hT : Tables A hhdm la57 top h T) {p : List (Fin 512)} {t : Nat} (hp : T p = some t)
    (hl : p.length < depth la57) (i : Fin 512) {k : Nat} (hr : room (k + 1) h.pmm) :
    ∃ u h' T', getNextLevel A hhdm t i true h = some (u, h') ∧ u ≠ 0 ∧ room k h'.pmm ∧
      Tables A hhdm la57 top h' T' ∧ T' (p ++ [i]) = some u := by
  have hsome : ∃ u h', getNextLevel A hhdm t i true h = some (u, h') ∧ room k h'.pmm := by
    unfold getNextLevel
    by_cases he : read64 h.mem (t + hhdm + i * 8) &&& 0x01 ≠ 0
    · exact ⟨_, h, if_pos he, hS.less k _ hr⟩
    · obtain ⟨a, s', ha, hr'⟩ := hS.take k _ hr
      simp only [he, if_false, Bool.true_eq_false, pmmAllocVia, ha, Option.some.injEq, Prod.mk.injEq]
      exact ⟨a, _, ⟨rfl, rfl⟩, hr'⟩
  obtain ⟨u, h', hg, hr'⟩ := hsome
  obtain ⟨T', hT', hu, -⟩ := getNextLevel_spec hT hA hp hl hg
  obtain ⟨s, s', hs⟩ := hT'.source _ u hu
  exact ⟨u, h', T', hg, hS.nonnull _ _ _ hs, hr', hT', hu⟩

theorem vmmMapPage_total (hA : A.Below (2 ^ 52)) (hS : Supply A room)
    (hT : Tables A hhdm la57 top h T) (virt phys flags : Nat) {k : Nat} (hr : room (k + 4) h.pmm) :
    ∃ h', vmmMapPage A hhdm la57 top virt phys flags h = some h' ∧ room k h'.pmm := by
  unfold vmmMapPage
  rw [pml5Index_eq, pml4Index_eq, pml3Index_eq, pml2Index_eq, pml1Index_eq]
  have htop : ∃ pml4 h4 T4 p, (if la57 then getNextLevel A hhdm top (index virt 4) true h
      else some (top, h)) = some (pml4, h4) ∧ room (k + 3) h4.pmm ∧ Tables A hhdm la57 top h4 T4 ∧
      T4 p = some pml4 ∧ p.length + 3 = depth la57 := by
    cases la57 with
    | false => exact ⟨top, h, T, [], rfl, hS.less _ _ hr, hT, hT.tree.root, rfl⟩
    | true =>
      obtain ⟨u, h', T', hg, -, hr', hT', hu⟩ :=
        getNextLevel_total hA hS hT hT.tree.root (by decide) (index virt 4) hr
      exact ⟨u, h', T', _, by simpa using hg, hr', hT', hu, rfl⟩
  obtain ⟨pml4, h4, T4, p, hg4, hr4, hT4, hp4, hlen⟩ := htop
  obtain ⟨pml3, h3, T3, hg3, -, hr3, hT3, hp3⟩ :=
    getNextLevel_total hA hS hT4 hp4 (by omega) (index virt 3) hr4
  obtain ⟨pml2, h2, T2, hg2, -, hr2, hT2, hp2⟩ :=
    getNextLevel_total hA hS hT3 hp3 (by simp; omega) (index virt 2) hr3
  obtain ⟨pml1, h1, T1, hg1, -, hr1, -, -⟩ :=
    getNextLevel_total hA hS hT2 hp2 (by simp; omega) (index virt 1) hr2
  simp only [Option.bind_eq_bind]
  rw [hg4, Option.bind_some, hg3, Option.bind_some, hg2, Option.bind_some, hg1, Option.bind_some]
  exact ⟨_, rfl, hr1⟩

theorem mapPages_total (hA : A.Below (2 ^ 52)) (hS : Supply A room)
    (hT : Tables A hhdm la57 top h T) (hcs : ∀ c ∈ calls, c.Entered la57) {k : Nat}
    (hr : room (k + 4 * calls.length) h.pmm) :
    ∃ h', mapPages A hhdm la57 top calls h = some h' ∧ room k h'.pmm := by
  induction calls generalizing h T with
  | nil => exact ⟨h, rfl, hr⟩
  | cons c calls ih =>
    rw [List.length_cons, Nat.mul_succ, ← Nat.add_assoc] at hr
    obtain ⟨h₁, hm, hr₁⟩ := vmmMapPage_total hA hS hT c.virt c.phys c.flags hr
    obtain ⟨T₁, hT₁, -⟩ := vmmMapPage_spec hT hA (hcs c (by simp)).entry hm
    obtain ⟨h', hm', hr'⟩ := ih hT₁ (fun c hc => hcs c (by simp [hc])) hr₁
    refine ⟨h', ?_, hr'⟩
    rw [mapPages, List.foldlM_cons, Option.bind_eq_bind, hm, Option.bind_some]
    exact hm'

theorem prefill_total (hA : A.Below (2 ^ 52)) (hS : Supply A room)
    (hT : Tables A hhdm la57 top h T) {k : Nat} (hr : room (k + 256) h.pmm) :
    ∃ h', prefill A hhdm top h = some h' ∧ room k h'.pmm := by
  unfold prefill
  have hlt : ∀ j ∈ List.range 256, j < 256 := fun j hj => List.mem_range.mp hj
  have hlen : room (k + (List.range 256).length) h.pmm := by simpa using hr
  clear hr
  generalize List.range 256 = l at hlt hlen
  induction l generalizing h T with
  | nil => exact ⟨h, rfl, hlen⟩
  | cons j l ih =>
    have hj : j < 256 := hlt j (by simp)
    obtain ⟨u, h₁, T₁, hg, hu, hr₁, hT₁, -⟩ := getNextLevel_total hA hS hT hT.tree.root
      (by cases la57 <;> decide) (⟨256 + j, by omega⟩ : Fin 512) hlen
    obtain ⟨h', hp, hr'⟩ := ih hT₁ (fun i hi => hlt i (by simp [hi])) hr₁
    refine ⟨h', ?_, hr'⟩
    simp only at hg
    rw [List.foldlM_cons, Option.bind_eq_bind, hg]
    simp only [hu, if_false, Option.bind_some]
    exact hp

theorem vmmInit_total (hA : A.Below (2 ^ 52)) (hS : Supply A room)
    (hb : b.executableAddress = some (physicalBase, virtualBase))
    (hf : FileSpared A b.hhdm h.mem b.kernelFile)
    (hok : ∀ p ∈ loads h.mem b.kernelFile, ∀ c ∈ segmentCalls physicalBase virtualBase p, c.Ok b.la57)
    (hok' : ∀ c ∈ b.memmap.flatMap (entryCalls b.hhdm), c.Ok b.la57) {k : Nat}
    (hr : room (k + 4 * (b.memmap.flatMap (entryCalls b.hhdm)).length +
      4 * ((loads h.mem b.kernelFile).flatMap (segmentCalls physicalBase virtualBase)).length +
      256 + 1) h.pmm) : ∃ top h', vmmInit A b h = some (top, h') ∧ room k h'.pmm := by
  obtain ⟨top, pmm, ha, hr₀⟩ := hS.take _ _ hr
  have h0 : pmmAllocVia A b.hhdm 1 h = some (top, ⟨pmm, fillPages b.hhdm h.mem top 1 0⟩) := by
    simp only [pmmAllocVia, ha]
  have hT₀ : Tables A b.hhdm b.la57 top _ _ := Tables.start hA h0
  obtain ⟨h₁, h1, hr₁⟩ := prefill_total hA hS hT₀ hr₀
  obtain ⟨T₁, hT₁, hE, -⟩ := prefill_spec hA hT₀ h1
  have hsp : ∀ x, Spared A b.hhdm x → h₁.mem x = h.mem x := by
    intro x hx
    rw [hE.spared x hx]
    exact fillPages_out (A.alloc_fits (by decide) ha) (hx _ _ _ ha)
  have hcs : ∀ c ∈ (loads h.mem b.kernelFile).flatMap (segmentCalls physicalBase virtualBase),
      c.Ok b.la57 := by
    intro c hc
    obtain ⟨p, hp, hc⟩ := List.mem_flatMap.mp hc
    exact hok p hp c hc
  obtain ⟨h₂, h2, hr₂⟩ := mapPages_total hA hS hT₁ (fun c hc => (hcs c hc).entered) hr₁
  obtain ⟨⟨T₂, hT₂⟩, -⟩ := mapPages_spared hA hT₁ hcs h2
  obtain ⟨h₃, h3, hr₃⟩ := mapPages_total hA hS hT₂ (fun c hc => (hok' c hc).entered) hr₂
  refine ⟨top, h₃, ?_, hr₃⟩
  have hloop : phdrLoop A b top physicalBase virtualBase 65536 0
      (b.kernelFile + ePhoff h₁.mem b.kernelFile) h₁ = some h₂ := by
    rw [phdrLoop_loads hA hf hok hT₁ hsp, h2]
  simp only [vmmInit, hb, h0, Option.bind_eq_bind, Option.bind_some, h1, hloop]
  rw [mapPages_flatMap, h3, Option.bind_some]

end Cynix.Mm.VmmInit
