import Cynix.Mm.VmmInit

/-! # What `vmm_init` maps

The address space at `vmm_switch_pagemap`: the kernel's segments with their
permissions, the memory map entries in the higher-half window, nothing else. -/
namespace Cynix.Mm.KernelSpace
open Cynix.Base.Bytes Cynix.Base.Pages Cynix.Lib.Misc Cynix.Lib.Alloc
open Cynix.Mm.Pmm Cynix.Mm.Vmm Cynix.Mm.VmmTables Cynix.Mm.VmmRuns Cynix.Mm.VmmInit

def roundUp (n : Nat) : Nat := (n + 4095) / 4096 * 4096

/-- The address lies in the page-rounded segment. -/
def InPages (p : Phdr) (v : Nat) : Prop := p.vaddr ≤ v ∧ v < p.vaddr + roundUp p.memsz

/-- The page lies in the page-rounded entry. -/
structure Lies (e : MemmapEntry) (page : Nat) : Prop where
  aligned : page % 4096 = 0
  low : e.base / 4096 * 4096 ≤ page
  high : page < roundUp (e.base + e.length)

variable {σ : Type} {A : PageAllocator σ} {b : BootInfo} {mem : Mem}
  {physicalBase virtualBase hhdm v page : Nat} {la57 : Bool} {p q : Phdr} {e : MemmapEntry} {c : Call}

/-- What `vmm_init` relies on. -/
structure BootOk (A : PageAllocator σ) (b : BootInfo) (mem : Mem) (physicalBase virtualBase : Nat) :
    Prop where
  executable : b.executableAddress = some (physicalBase, virtualBase)
  hhdm : b.hhdm % 4096 = 0
  physical : physicalBase % 4096 = 0
  virtual : virtualBase % 4096 = 0
  file : FileSpared A b.hhdm mem b.kernelFile
  /-- Segments start on pages, lie above `virtual_base` and are in physical memory. -/
  segment : ∀ p ∈ loads mem b.kernelFile, p.vaddr % 4096 = 0 ∧ virtualBase ≤ p.vaddr ∧
    p.memsz + 4095 < 2 ^ 64 ∧ physicalBase + (p.vaddr - virtualBase) + roundUp p.memsz ≤ 2 ^ 52
  canonical : ∀ p ∈ loads mem b.kernelFile, ∀ v, InPages p v → Canonical b.la57 v
  /-- No two segments share a page. -/
  disjoint : (loads mem b.kernelFile).Pairwise fun p q => ∀ v, InPages p v → ¬ InPages q v
  entry : ∀ e ∈ b.memmap, isMapped e.type → e.base + e.length ≤ 2 ^ 52
  /-- The window holds canonical addresses, apart from the kernel image. -/
  window : ∀ e ∈ b.memmap, isMapped e.type → ∀ page, Lies e page →
    Canonical b.la57 (b.hhdm + page) ∧ ∀ p ∈ loads mem b.kernelFile, ¬ InPages p (b.hhdm + page)

/-! ## The calls -/

theorem canonical_lt (h : Canonical la57 v) : v < 2 ^ 64 := by
  cases la57 <;> simp only [Canonical, depth, Bool.false_eq_true, if_false, if_true] at h <;> omega

theorem mem_spanCalls {virt phys flags count : Nat} : c ∈ spanCalls virt phys flags count ↔
    ∃ k, k < count ∧
      c = ⟨(virt + k * pageSize) % 2 ^ 64, (phys + k * pageSize) % 2 ^ 64, flags⟩ := by
  simp [spanCalls, eq_comm]

theorem alignUp_eq {n : Nat} (h : n + 4095 < 2 ^ 64) : alignUp n pageSize = roundUp n := by
  unfold alignUp roundUp
  rw [divRoundup_page h]
  unfold pageSize
  omega

/-- A call for a segment is one of its pages, with the page it is loaded at. -/
theorem mem_segmentCalls (hb : BootOk A b mem physicalBase virtualBase)
    (hp : p ∈ loads mem b.kernelFile) : c ∈ segmentCalls physicalBase virtualBase p ↔
      ∃ v, InPages p v ∧ v % 4096 = 0 ∧ c = ⟨v, physicalBase + (v - virtualBase), segmentFlags p⟩ := by
  obtain ⟨hv, hlow, hsz, hphys⟩ := hb.segment p hp
  have hcount : alignUp p.memsz pageSize / pageSize * 4096 = roundUp p.memsz := by
    rw [alignUp_eq hsz]
    unfold roundUp pageSize
    omega
  have hlt : ∀ v, InPages p v → v < 2 ^ 64 := fun v hv => canonical_lt (hb.canonical p hp v hv)
  unfold segmentCalls
  rw [mem_spanCalls]
  generalize alignUp p.memsz pageSize / pageSize = n at *
  constructor
  · rintro ⟨k, hk, rfl⟩
    have hin : InPages p (p.vaddr + k * 4096) := by
      unfold InPages
      omega
    have := hlt _ hin
    refine ⟨p.vaddr + k * 4096, hin, by omega, ?_⟩
    unfold pageSize sub64
    rw [Call.mk.injEq]
    refine ⟨by omega, ?_, rfl⟩
    unfold InPages at hin
    omega
  · rintro ⟨v, hin, hv0, rfl⟩
    have := hlt v hin
    unfold InPages at hin
    refine ⟨(v - p.vaddr) / 4096, by omega, ?_⟩
    unfold pageSize sub64
    rw [Call.mk.injEq]
    refine ⟨by omega, ?_, rfl⟩
    omega

theorem mem_entryCalls (hb : BootOk A b mem physicalBase virtualBase) (he : e ∈ b.memmap) :
    c ∈ entryCalls b.hhdm e ↔
      isMapped e.type ∧ ∃ page, Lies e page ∧ c = ⟨b.hhdm + page, page, entryFlags e.type⟩ := by
  unfold entryCalls
  by_cases hm : isMapped e.type
  · have hfit := hb.entry e he hm
    have htop : alignUp ((e.base + e.length) % 2 ^ 64) pageSize = roundUp (e.base + e.length) := by
      rw [Nat.mod_eq_of_lt (by omega), alignUp_eq (by omega)]
    have hup : roundUp (e.base + e.length) % 4096 = 0 := Nat.mul_mod_left _ _
    have hmax : roundUp (e.base + e.length) ≤ 2 ^ 52 := by
      unfold roundUp
      omega
    simp only [hm, if_true, htop, mem_spanCalls, alignDown, true_and]
    unfold pageSize
    constructor
    · rintro ⟨k, hk, rfl⟩
      have hl : Lies e (e.base / 4096 * 4096 + k * 4096) := ⟨by omega, by omega, by omega⟩
      have := canonical_lt (hb.window e he hm _ hl).1
      refine ⟨_, hl, ?_⟩
      rw [Call.mk.injEq]
      exact ⟨by omega, by omega, rfl⟩
    · rintro ⟨page, hl, rfl⟩
      have := canonical_lt (hb.window e he hm _ hl).1
      obtain ⟨h0, h1, h2⟩ := hl
      refine ⟨(page - e.base / 4096 * 4096) / 4096, by omega, ?_⟩
      rw [Call.mk.injEq]
      exact ⟨by omega, by omega, rfl⟩
  · simp [hm]

theorem segmentFlags_within (p : Phdr) : segmentFlags p &&& vmmPteFlagsMask = segmentFlags p := by
  unfold segmentFlags
  split <;> split <;> decide

theorem entryFlags_within (t : MemmapType) : entryFlags t &&& vmmPteFlagsMask = entryFlags t := by
  cases t <;> decide

theorem segment_call_ok (hb : BootOk A b mem physicalBase virtualBase)
    (hp : p ∈ loads mem b.kernelFile) (hc : c ∈ segmentCalls physicalBase virtualBase p) :
    c.Ok b.la57 := by
  obtain ⟨v, hin, hv0, rfl⟩ := (mem_segmentCalls hb hp).mp hc
  obtain ⟨hv, hlow, hsz, hphys⟩ := hb.segment p hp
  have h1 := hb.physical
  have h2 := hb.virtual
  refine ⟨hb.canonical p hp v hin, hv0, ?_, ?_, segmentFlags_within p⟩
  · simp only
    unfold InPages at hin
    omega
  · simp only
    unfold InPages at hin
    omega

theorem entry_call_ok (hb : BootOk A b mem physicalBase virtualBase) (he : e ∈ b.memmap)
    (hc : c ∈ entryCalls b.hhdm e) : c.Ok b.la57 := by
  obtain ⟨hm, page, hl, rfl⟩ := (mem_entryCalls hb he).mp hc
  have hfit := hb.entry e he hm
  have h0 := hb.hhdm
  obtain ⟨h1, h2, h3⟩ := hl
  refine ⟨(hb.window e he hm page ⟨h1, h2, h3⟩).1, ?_, h1, ?_, entryFlags_within e.type⟩
  · simp only
    omega
  · simp only
    unfold roundUp at h3
    omega

/-! ## The last call for a page -/

theorem lastCall_some {calls : List Call} (h : lastCall calls v = some c) : c ∈ calls ∧ c.virt = v := by
  have hm := List.mem_of_find?_eq_some h
  have hv := List.find?_some h
  exact ⟨List.mem_reverse.mp hm, by simpa using hv⟩

theorem lastCall_exists {calls : List Call} (hc : c ∈ calls) : ∃ d, lastCall calls c.virt = some d := by
  rw [← Option.isSome_iff_exists]
  unfold lastCall
  rw [List.find?_isSome]
  exact ⟨c, List.mem_reverse.mpr hc, by simp⟩

/-- The calls of `vmm_init`. -/
def initCalls (b : BootInfo) (mem : Mem) (physicalBase virtualBase : Nat) : List Call :=
  (loads mem b.kernelFile).flatMap (segmentCalls physicalBase virtualBase) ++
    b.memmap.flatMap (entryCalls b.hhdm)

theorem mem_initCalls : c ∈ initCalls b mem physicalBase virtualBase ↔
    (∃ p ∈ loads mem b.kernelFile, c ∈ segmentCalls physicalBase virtualBase p) ∨
      ∃ e ∈ b.memmap, c ∈ entryCalls b.hhdm e := by
  simp only [initCalls, List.mem_append, List.mem_flatMap]

theorem initCalls_ok (hb : BootOk A b mem physicalBase virtualBase)
    (hc : c ∈ initCalls b mem physicalBase virtualBase) : c.Ok b.la57 := by
  rcases mem_initCalls.mp hc with ⟨p, hp, hc⟩ | ⟨e, he, hc⟩
  · exact segment_call_ok hb hp hc
  · exact entry_call_ok hb he hc

/-- Segments are equal if they share a page. -/
theorem segment_unique (hb : BootOk A b mem physicalBase virtualBase)
    (hp : p ∈ loads mem b.kernelFile) (hq : q ∈ loads mem b.kernelFile) (h : InPages p v)
    (h' : InPages q v) : p = q := by
  by_contra hne
  rcases List.pairwise_iff_getElem.mp hb.disjoint with hd
  obtain ⟨i, hi, rfl⟩ := List.getElem_of_mem hp
  obtain ⟨j, hj, rfl⟩ := List.getElem_of_mem hq
  rcases Nat.lt_trichotomy i j with hij | rfl | hij
  · exact hd i j hi hj hij v h h'
  · exact hne rfl
  · exact hd j i hj hi hij v h' h

/-- The last call for a page of a segment is the segment's. -/
theorem lastCall_segment (hb : BootOk A b mem physicalBase virtualBase)
    (hp : p ∈ loads mem b.kernelFile) (hin : InPages p v) (hv0 : v % 4096 = 0) :
    lastCall (initCalls b mem physicalBase virtualBase) v =
      some ⟨v, physicalBase + (v - virtualBase), segmentFlags p⟩ := by
  have hmem : (⟨v, physicalBase + (v - virtualBase), segmentFlags p⟩ : Call) ∈
      initCalls b mem physicalBase virtualBase :=
    mem_initCalls.mpr (Or.inl ⟨p, hp, (mem_segmentCalls hb hp).mpr ⟨v, hin, hv0, rfl⟩⟩)
  obtain ⟨d, hd⟩ := lastCall_exists hmem
  simp only at hd
  obtain ⟨hdm, hdv⟩ := lastCall_some hd
  rw [hd]
  rcases mem_initCalls.mp hdm with ⟨q, hq, hc⟩ | ⟨e, he, hc⟩
  · obtain ⟨w, hw, -, rfl⟩ := (mem_segmentCalls hb hq).mp hc
    simp only at hdv
    subst hdv
    rw [segment_unique hb hp hq hin hw]
  · obtain ⟨hm, page, hl, rfl⟩ := (mem_entryCalls hb he).mp hc
    simp only at hdv
    exact absurd (hdv ▸ hin) ((hb.window e he hm page hl).2 p hp)

/-- The last call for a page of the window is that of an entry the page lies in. -/
theorem lastCall_window (hb : BootOk A b mem physicalBase virtualBase) (he : e ∈ b.memmap)
    (hm : isMapped e.type) (hl : Lies e page) : ∃ e' ∈ b.memmap, isMapped e'.type ∧ Lies e' page ∧
      lastCall (initCalls b mem physicalBase virtualBase) (b.hhdm + page) =
        some ⟨b.hhdm + page, page, entryFlags e'.type⟩ := by
  have hmem : (⟨b.hhdm + page, page, entryFlags e.type⟩ : Call) ∈
      initCalls b mem physicalBase virtualBase :=
    mem_initCalls.mpr (Or.inr ⟨e, he, (mem_entryCalls hb he).mpr ⟨hm, page, hl, rfl⟩⟩)
  obtain ⟨d, hd⟩ := lastCall_exists hmem
  simp only at hd
  obtain ⟨hdm, hdv⟩ := lastCall_some hd
  rw [hd]
  rcases mem_initCalls.mp hdm with ⟨q, hq, hc⟩ | ⟨e', he', hc⟩
  · obtain ⟨w, hw, -, rfl⟩ := (mem_segmentCalls hb hq).mp hc
    simp only at hdv
    exact absurd (hdv ▸ hw) ((hb.window e he hm page hl).2 q hq)
  · obtain ⟨hm', page', hl', rfl⟩ := (mem_entryCalls hb he').mp hc
    simp only at hdv
    obtain rfl : page' = page := by omega
    exact ⟨e', he', hm', hl', rfl⟩

/-! ## Entries -/

/-- The bits of a page address and of the flags do not meet. -/
theorem and_page_low {phys m : Nat} (h : phys % 4096 = 0) (hm : m < 4096) : phys &&& m = 0 := by
  have hlow : m = (2 ^ 12 - 1) &&& m := by
    rw [Nat.and_comm, Nat.and_two_pow_sub_one_of_lt_two_pow hm]
  rw [hlow, ← Nat.and_assoc, Nat.and_two_pow_sub_one_eq_mod, h, Nat.zero_and]

theorem testBit_page {phys i : Nat} (h : phys % 4096 = 0) (hs : phys < 2 ^ 52) (hi : i < 12 ∨ 52 ≤ i) :
    phys.testBit i = false := by
  rcases hi with hi | hi
  · have hb := congrArg (Nat.testBit · i) h
    simp only [show (4096 : Nat) = 2 ^ 12 from rfl, Nat.testBit_mod_two_pow, hi, decide_true,
      Bool.true_and, Nat.zero_testBit] at hb
    exact hb
  · exact Nat.testBit_lt_two_pow (lt_of_lt_of_le hs (Nat.pow_le_pow_right (by decide) hi))

/-- What a call's entry gives access to. -/
theorem accessOf_entry (hc : c.Ok la57) (v : Nat) : accessOf v (c.phys ||| c.flags) =
    ⟨c.phys + v % 4096, c.flags.testBit 1, c.flags.testBit 63, c.flags.testBit 2⟩ := by
  have haddr : (c.phys ||| c.flags) &&& (2 ^ 52 - 2 ^ 12) = c.phys := by
    have hf : c.flags &&& (2 ^ 52 - 2 ^ 12) = 0 := by
      rw [← hc.flags, Nat.and_assoc, show vmmPteFlagsMask &&& (2 ^ 52 - 2 ^ 12) = 0 by decide,
        Nat.and_zero]
    have hp := hc.phys
    have hs := hc.small
    rw [Nat.and_or_distrib_right, hf, Nat.or_zero, and_bits _ (by decide)]
    omega
  unfold accessOf
  rw [haddr, Nat.testBit_or, Nat.testBit_or, Nat.testBit_or,
    testBit_page hc.phys hc.small (Or.inl (by decide)),
    testBit_page hc.phys hc.small (Or.inr (by decide)),
    testBit_page hc.phys hc.small (Or.inl (by decide))]
  simp

theorem segmentFlags_bits (p : Phdr) : segmentFlags p &&& vmmPtePresent ≠ 0 ∧
    (segmentFlags p).testBit 1 = decide (p.flags &&& pfW ≠ 0) ∧
    (segmentFlags p).testBit 63 = decide (p.flags &&& pfX = 0) ∧
    (segmentFlags p).testBit 2 = false := by
  unfold segmentFlags
  by_cases hx : p.flags &&& pfX = 0 <;> by_cases hw : p.flags &&& pfW = 0 <;>
    simp only [hx, hw, ne_eq, not_true_eq_false, not_false_eq_true, if_true, if_false, decide_true,
      decide_false] <;> decide

theorem entryFlags_bits : ∀ t : MemmapType, entryFlags t &&& vmmPtePresent ≠ 0 ∧
    (entryFlags t).testBit 1 = true ∧ (entryFlags t).testBit 63 = true ∧
    (entryFlags t).testBit 2 = false ∧
    entryFlags t &&& vmmPteWc = if t = .framebuffer then vmmPteWc else 0 := by
  intro t
  cases t <;> decide

/-- All addresses of a page have its entry. -/
theorem walk_page (mem : Mem) (top v : Nat) :
    walk hhdm la57 mem top v = walk hhdm la57 mem top (v - v % 4096) := by
  have hidx : ∀ k, index v k = index (v - v % 4096) k := by
    intro k
    have hdiv : (v - v % 4096) / 4096 = v / 4096 := by omega
    rw [index, index, Fin.mk.injEq, Nat.pow_add, ← Nat.div_div_eq_div_mul,
      ← Nat.div_div_eq_div_mul, show (2 : Nat) ^ 12 = 4096 from rfl, hdiv]
  have hup : ∀ k, upper v k = upper (v - v % 4096) k := by
    intro k
    induction k with
    | zero => rfl
    | succ k ih => rw [upper, upper, hidx, ih]
  unfold walk
  rw [hup, hidx]

/-! ## The address space -/

/-- The address space at `vmm_switch_pagemap`. -/
structure KernelMapped (b : BootInfo) (mem : Mem) (physicalBase virtualBase top : Nat) (mem' : Mem) :
    Prop where
  segments : ∀ p ∈ loads mem b.kernelFile, ∀ v, p.vaddr ≤ v → v < p.vaddr + p.memsz →
    translate b.hhdm b.la57 mem' top v =
      some ⟨physicalBase + (v - virtualBase), decide (p.flags &&& pfW ≠ 0),
        decide (p.flags &&& pfX = 0), false⟩
  /-- A page of a mapped entry, with the cache bits of framebuffer pages. -/
  window : ∀ e ∈ b.memmap, isMapped e.type → ∀ page, Lies e page →
    translate b.hhdm b.la57 mem' top (b.hhdm + page) = some ⟨page, true, true, false⟩ ∧
    ∃ x, walk b.hhdm b.la57 mem' top (b.hhdm + page) = some x ∧ x &&& vmmPtePresent ≠ 0 ∧
      ((∀ e' ∈ b.memmap, isMapped e'.type → Lies e' page → e'.type = .framebuffer) →
        x &&& vmmPteWc = vmmPteWc) ∧
      ((∀ e' ∈ b.memmap, Lies e' page → e'.type ≠ .framebuffer) → x &&& vmmPteWc = 0)
  nothingElse : ∀ v, Canonical b.la57 v → v % 4096 = 0 →
    (∀ p ∈ loads mem b.kernelFile, ¬ InPages p v) →
    (∀ e ∈ b.memmap, isMapped e.type → ∀ page, Lies e page → v ≠ b.hhdm + page) →
    walk b.hhdm b.la57 mem' top v = none

variable {h h' : Heap σ} {top : Nat}

theorem walk_vmmInit (hA : A.Below (2 ^ 52)) (hb : BootOk A b h.mem physicalBase virtualBase)
    (hi : vmmInit A b h = some (top, h')) :
    (∃ T, Tables A b.hhdm b.la57 top h' T) ∧ ∀ v, Canonical b.la57 v → v % 4096 = 0 →
      walk b.hhdm b.la57 h'.mem top v =
        (lastCall (initCalls b h.mem physicalBase virtualBase) v).bind Call.found := by
  obtain ⟨h₁, T₁, hT₁, -, hnone, hm⟩ := vmmInit_some hA hb.executable hb.file
    (fun p hp c hc => segment_call_ok hb hp hc) hi
  obtain ⟨hT, hw⟩ := mapPages_tables hA hT₁ (fun c hc => (initCalls_ok hb hc).entered) hm
  refine ⟨hT, fun v hv hv0 => ?_⟩
  rw [hw v hv hv0, hnone v]
  unfold initCalls
  cases lastCall _ v <;> rfl

/-- **After `vmm_init`** the kernel's segments and the usable, reclaimable,
executable and framebuffer entries are mapped as they should be, and nothing
else is. -/
theorem vmmInit_maps_kernel (A : PageAllocator σ) (hA : A.Below (2 ^ 52)) (b : BootInfo) (h h' : Heap σ)
    (physicalBase virtualBase top : Nat) (hb : BootOk A b h.mem physicalBase virtualBase)
    (hi : vmmInit A b h = some (top, h')) :
    KernelMapped b h.mem physicalBase virtualBase top h'.mem := by
  obtain ⟨⟨T, hT⟩, hw⟩ := walk_vmmInit hA hb hi
  refine ⟨?_, ?_, ?_⟩
  · intro p hp v hlow hhigh
    obtain ⟨hv, hvb, hsz, -⟩ := hb.segment p hp
    have hin : InPages p (v - v % 4096) := by
      unfold InPages roundUp
      omega
    have hlast := lastCall_segment hb hp hin (by omega)
    have hok := initCalls_ok hb (lastCall_some hlast).1
    obtain ⟨f1, f2, f3, f4⟩ := segmentFlags_bits p
    have h2 := hb.virtual
    rw [Tables.translate_eq hT, walk_page, hw _ (hb.canonical p hp _ hin) (by omega), hlast]
    simp only [Option.bind_some, Call.found, f1, if_false, Option.map_some]
    rw [accessOf_entry hok]
    simp only [f2, f3, f4, Option.some.injEq, Access.mk.injEq, and_true]
    omega
  · intro e he hm page hl
    obtain ⟨e', he', hm', hl', hlast⟩ := lastCall_window hb he hm hl
    have hok := initCalls_ok hb (lastCall_some hlast).1
    obtain ⟨f1, f2, f3, f4, f5⟩ := entryFlags_bits e'.type
    have hpage : (b.hhdm + page) % 4096 = 0 := by
      have := hb.hhdm
      have := hl.aligned
      omega
    have hwalk := hw _ (hb.window e he hm page hl).1 hpage
    rw [hlast] at hwalk
    simp only [Option.bind_some, Call.found, f1, if_false] at hwalk
    have hwc : (page ||| entryFlags e'.type) &&& vmmPteWc =
        if e'.type = .framebuffer then vmmPteWc else 0 := by
      rw [Nat.and_or_distrib_right, and_page_low hl.aligned (by decide), Nat.zero_or, f5]
    refine ⟨?_, _, hwalk, ?_, ?_, ?_⟩
    · rw [Tables.translate_eq hT, hwalk, Option.map_some]
      have hacc := accessOf_entry hok (b.hhdm + page)
      simp only at hacc
      rw [hacc, hpage, f2, f3, f4, Nat.add_zero]
    · rw [Nat.and_or_distrib_right, and_page_low hl.aligned (by decide), Nat.zero_or]
      exact f1
    · intro hall
      rw [hwc, if_pos (hall e' he' hm' hl')]
    · intro hno
      rw [hwc, if_neg (hno e' he' hl')]
  · intro v hv hv0 hseg hwin
    rw [hw v hv hv0]
    cases hlast : lastCall (initCalls b h.mem physicalBase virtualBase) v with
    | none => rfl
    | some c =>
      obtain ⟨hc, rfl⟩ := lastCall_some hlast
      rcases mem_initCalls.mp hc with ⟨p, hp, hc⟩ | ⟨e, he, hc⟩
      · obtain ⟨w, hw, -, rfl⟩ := (mem_segmentCalls hb hp).mp hc
        exact absurd hw (hseg p hp)
      · obtain ⟨hm, page, hl, rfl⟩ := (mem_entryCalls hb he).mp hc
        exact absurd rfl (hwin e he hm page hl)

/-! ## A machine

One segment of two pages, some usable memory and a framebuffer that ends
inside a page. -/

def smallFile : Mem :=
  let m := write64 (fun _ => 0) 0x10020 64
  let m := write64 m 0x10030 (56 * 2 ^ 48)
  let m := write64 m 0x10038 1
  let m := write64 m 0x10040 (1 + 5 * 2 ^ 32)
  let m := write64 m 0x10050 0xffffffff80000000
  write64 m 0x10068 0x1234

def smallBoot : BootInfo :=
  { pagingMode := some .fourLevel
    executableAddress := some (0x200000, 0xffffffff80000000)
    kernelFile := 0x10000
    memmap := [⟨0x1000000, 0x2000, .usable⟩, ⟨0xfd000000, 0x1800, .framebuffer⟩]
    hhdm := 0xffff800000000000 }

theorem smallBoot_loads :
    loads smallFile smallBoot.kernelFile = [⟨1, 5, 0xffffffff80000000, 0x1234⟩] := by
  decide +kernel

theorem smallBoot_la57 : smallBoot.la57 = false := rfl

theorem smallBoot_ok : BootOk bump smallBoot smallFile 0x200000 0xffffffff80000000 := by
  have hspare : ∀ x, x < 0xffff800000000000 → Spared bump smallBoot.hhdm x := by
    intro x hx rs a rs' _ ho
    unfold OwnsAt smallBoot at ho
    simp only at ho
    omega
  have hphdr : ePhnum smallFile 0x10000 = 1 ∧ ePhoff smallFile 0x10000 = 64 ∧
      ePhentsize smallFile 0x10000 = 56 := by
    decide +kernel
  obtain ⟨hn, ho, hs⟩ := hphdr
  refine ⟨rfl, rfl, rfl, rfl, ⟨?_, ?_⟩, ?_, ?_, ?_, ?_, ?_⟩
  · intro x _ hx
    refine hspare x (hx.trans (by decide))
  · intro i hi x _ hx
    simp only [smallBoot, hn, ho, hs] at hi hx
    exact hspare x (by omega)
  · rw [smallBoot_loads]
    intro p hp
    obtain rfl := List.mem_singleton.mp hp
    decide
  · rw [smallBoot_loads, smallBoot_la57]
    intro p hp v hv
    obtain rfl := List.mem_singleton.mp hp
    simp only [InPages, roundUp, Canonical, depth, Bool.false_eq_true, if_false] at hv ⊢
    omega
  · rw [smallBoot_loads]
    exact List.pairwise_singleton _ _
  · intro e he _
    simp only [smallBoot, List.mem_cons, List.not_mem_nil, or_false] at he
    rcases he with rfl | rfl <;> decide
  · rw [smallBoot_loads, smallBoot_la57]
    intro e he _ page hl
    obtain ⟨-, -, hhigh⟩ := hl
    have hpage : page < 0xfd002000 := by
      simp only [smallBoot, List.mem_cons, List.not_mem_nil, or_false] at he
      rcases he with rfl | rfl <;> simp only [roundUp] at hhigh <;> omega
    simp only [smallBoot, Canonical, depth, Bool.false_eq_true, if_false]
    refine ⟨by omega, ?_⟩
    intro p hp
    obtain rfl := List.mem_singleton.mp hp
    simp only [InPages]
    omega

/-- `vmm_init` returns on the machine, and leaves pages for more. -/
theorem smallBoot_init : ∃ top h',
    vmmInit bump smallBoot ⟨[], smallFile⟩ = some (top, h') ∧ bumpRoom 16 h'.pmm := by
  have hroom : bumpRoom (16 + 4 * (smallBoot.memmap.flatMap (entryCalls smallBoot.hhdm)).length +
      4 * ((loads smallFile smallBoot.kernelFile).flatMap
        (segmentCalls 0x200000 0xffffffff80000000)).length + 256 + 1) [] := by
    rw [smallBoot_loads, bumpRoom]
    decide +kernel
  exact vmmInit_total (h := ⟨[], smallFile⟩) bump_below bump_supply
    smallBoot_ok.executable smallBoot_ok.file
    (fun p hp c hc => segment_call_ok smallBoot_ok hp hc)
    (fun c hc => initCalls_ok smallBoot_ok (List.mem_append_right _ hc)) hroom

theorem vmmInit_maps_kernel_small : ∃ top h',
    vmmInit bump smallBoot ⟨[], smallFile⟩ = some (top, h') ∧
    KernelMapped smallBoot smallFile 0x200000 0xffffffff80000000 top h'.mem := by
  obtain ⟨top, h', hi, -⟩ := smallBoot_init
  exact ⟨top, h', hi, vmmInit_maps_kernel bump bump_below smallBoot ⟨[], smallFile⟩ h' _ _ top
    smallBoot_ok hi⟩

end Cynix.Mm.KernelSpace
