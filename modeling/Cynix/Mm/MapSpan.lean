import Cynix.Mm.Access

/-! # What `vmm_map_span` maps

The length is rounded on the physical side and the start on both, so the two
sides come out the same only because they have one offset into their pages.
The calls are then one for each page that the span touches. -/
namespace Cynix.Mm.MapSpan
open Cynix.Base.Bytes Cynix.Base.Pages Cynix.Lib.Misc Cynix.Lib.Alloc
open Cynix.Mm.Vmm Cynix.Mm.VmmTables Cynix.Mm.VmmRuns Cynix.Mm.VmmInit Cynix.Mm.KernelSpace Cynix.Mm.Access

/-- The loop of `vmm_map_span` from round `i` on, with the calls it makes; `none` if it takes more
than `fuel` rounds. -/
def spanLoop (alignedVirtBase alignedPhysBase alignedLength flags : Nat) : Nat → Nat → Option (List Call)
  | 0, _ => none
  | fuel + 1, i =>
    if i < alignedLength then do
      let calls ← spanLoop alignedVirtBase alignedPhysBase alignedLength flags fuel ((i + pageSize) % 2 ^ 64)
      some (⟨(alignedVirtBase + i) % 2 ^ 64, (alignedPhysBase + i) % 2 ^ 64, flags⟩ :: calls)
    else some []

/-- What a caller of `vmm_map_span` passes: the rounding does not wrap, and the span is in one half
of the address space, at the same offset into its page as the memory. -/
structure SpanOk (la57 : Bool) (virt phys len : Nat) : Prop where
  top : phys + len + 4095 < 2 ^ 64
  canonical : Canonical la57 virt
  offset : virt % 4096 = phys % 4096
  half : virt + len ≤ 2 ^ (12 + 9 * (depth la57 + 1) - 1) ∨
    2 ^ 64 - 2 ^ (12 + 9 * (depth la57 + 1) - 1) ≤ virt ∧ virt + len ≤ 2 ^ 64

/-- The address lies in a page of the span. -/
def InSpan (virt len v : Nat) : Prop := virt / 4096 * 4096 ≤ v ∧ v < roundUp (virt + len)

/-- The number of pages. -/
def spanPages (phys len : Nat) : Nat := (alignUp (phys + len) pageSize - alignDown phys pageSize) / pageSize

variable {σ : Type} {A : PageAllocator σ} {hhdm top virt phys len flags v o : Nat} {la57 : Bool}
  {h h' h'' : Heap σ} {T : List (Fin 512) → Option Nat} {c : Call}

/-- The address space after `vmm_map_span`, next to the one before. -/
structure SpanMapped (hhdm : Nat) (la57 : Bool) (top virt phys len flags : Nat) (h h' : Heap σ) : Prop where
  /-- The processor finds the entry with the flags as they were given, if they are present ... -/
  entries : ∀ o, o < len → walk hhdm la57 h'.mem top (virt + o) =
    if flags &&& vmmPtePresent = 0 then none else some ((phys + o) / 4096 * 4096 ||| flags)
  /-- ... and so the byte it stands for, if that is in physical memory. -/
  bytes : phys + len ≤ 2 ^ 52 → flags &&& vmmPteFlagsMask = flags → ∀ o, o < len →
    translate hhdm la57 h'.mem top (virt + o) = if flags &&& vmmPtePresent = 0 then none
      else some ⟨phys + o, flags.testBit 1, flags.testBit 63, flags.testBit 2⟩
  changed : ∀ v, Canonical la57 v → walk hhdm la57 h'.mem top v ≠ walk hhdm la57 h.mem top v → InSpan virt len v
  others : ∀ v, Canonical la57 v → ¬ InSpan virt len v →
    translate hhdm la57 h'.mem top v = translate hhdm la57 h.mem top v

/-! ## The calls -/

theorem spanLoop_eq {alignedLength : Nat} (hl : alignedLength % 4096 = 0) (hb : alignedLength < 2 ^ 64) (virt phys : Nat) :
    ∀ {n fuel i : Nat}, i + n * 4096 = alignedLength → n < fuel → spanLoop virt phys alignedLength flags fuel i =
      some ((List.range' (i / 4096) n).map fun k =>
        ⟨(virt + k * pageSize) % 2 ^ 64, (phys + k * pageSize) % 2 ^ 64, flags⟩)
  | 0, fuel + 1, i, hi, hf => by
    rw [spanLoop, if_neg (by omega)]
    rfl
  | n + 1, fuel + 1, i, hi, hf => by
    have hnext : (i + pageSize) % 2 ^ 64 = i + 4096 := Nat.mod_eq_of_lt (by unfold pageSize; omega)
    have hround : (i + 4096) / 4096 = i / 4096 + 1 := by omega
    have hcell : i / 4096 * 4096 = i := by omega
    rw [spanLoop, if_pos (by omega), hnext, spanLoop_eq hl hb virt phys (n := n) (by omega) (by omega), hround,
      List.range'_succ, List.map_cons, show pageSize = 4096 from rfl, hcell]
    rfl

/-- The numbers of a span; `n` is the number of its pages. -/
theorem SpanOk.numbers (hs : SpanOk la57 virt phys len) : ∃ n, spanPages phys len = n ∧
    sub64 (alignUp ((phys + len) % 2 ^ 64) pageSize) (alignDown phys pageSize) = n * 4096 ∧
    phys / 4096 * 4096 + n * 4096 = roundUp (phys + len) ∧
    virt / 4096 * 4096 + n * 4096 = roundUp (virt + len) := by
  have h1 := hs.top
  have h2 := hs.offset
  have htop : alignUp (phys + len) pageSize = roundUp (phys + len) := alignUp_eq h1
  have hlen : sub64 (roundUp (phys + len)) (phys / 4096 * 4096) = roundUp (phys + len) - phys / 4096 * 4096 := by
    apply sub64_eq <;> unfold roundUp <;> omega
  refine ⟨_, rfl, ?_, ?_, ?_⟩
  · rw [Nat.mod_eq_of_lt (by omega), spanPages, htop]
    unfold alignDown
    rw [show pageSize = 4096 from rfl, hlen]
    unfold roundUp
    omega
  · rw [spanPages, htop]
    unfold alignDown roundUp pageSize
    omega
  · rw [spanPages, htop]
    unfold alignDown roundUp pageSize
    omega

theorem vmmMapSpan_eq (hs : SpanOk la57 virt phys len) : vmmMapSpan virt phys len flags =
    spanCalls (virt / 4096 * 4096) (phys / 4096 * 4096) flags (spanPages phys len) := by
  obtain ⟨n, hn, hlen, -, -⟩ := hs.numbers
  have hcount : n * 4096 / pageSize = n := Nat.mul_div_cancel n (by decide)
  unfold vmmMapSpan
  simp only [hlen, hcount, hn]
  rfl

/-- The loop stops after one round for each page. -/
theorem spanLoop_calls (hs : SpanOk la57 virt phys len) {fuel : Nat} (hf : spanPages phys len < fuel) :
    spanLoop (alignDown virt pageSize) (alignDown phys pageSize)
        (sub64 (alignUp ((phys + len) % 2 ^ 64) pageSize) (alignDown phys pageSize)) flags fuel 0 =
      some (vmmMapSpan virt phys len flags) := by
  obtain ⟨n, hn, hlen, hp, -⟩ := hs.numbers
  have hb : n * 4096 < 2 ^ 64 := by
    have := hs.top
    unfold roundUp at hp
    omega
  rw [hlen, spanLoop_eq (by omega) hb _ _ (Nat.zero_add _) (hn ▸ hf), vmmMapSpan_eq hs, hn, spanCalls,
    List.range_eq_range']
  rfl

/-- No round of the loop wraps. -/
theorem round_eq {base k n : Nat} (hb : base + n * 4096 ≤ 2 ^ 64) (hk : k < n) :
    (base + k * pageSize) % 2 ^ 64 = base + k * 4096 := by
  unfold pageSize
  exact Nat.mod_eq_of_lt (by omega)

/-- The pages of the span, at the memory they stand for. -/
theorem mem_vmmMapSpan_iff (hs : SpanOk la57 virt phys len) : c ∈ vmmMapSpan virt phys len flags ↔
    ∃ page, page % 4096 = 0 ∧ InSpan virt len page ∧
      c = ⟨page, phys / 4096 * 4096 + (page - virt / 4096 * 4096), flags⟩ := by
  obtain ⟨n, hn, -, hp, hv⟩ := hs.numbers
  rw [vmmMapSpan_eq hs, mem_spanCalls, hn]
  clear hn
  have hptop := hs.top
  have hvtop : virt / 4096 * 4096 + n * 4096 ≤ 2 ^ 64 := by
    have hc := canonical_lt hs.canonical
    have hh := hs.half
    rw [hv]
    unfold roundUp
    cases la57 <;> simp only [depth, Bool.false_eq_true, if_false, if_true] at hh <;> omega
  have hptop' : phys / 4096 * 4096 + n * 4096 < 2 ^ 64 := by
    rw [hp]
    unfold roundUp
    omega
  unfold InSpan
  rw [← hv]
  clear hv hp
  constructor
  · rintro ⟨k, hk, rfl⟩
    refine ⟨virt / 4096 * 4096 + k * 4096, by omega, by omega, ?_⟩
    rw [round_eq hvtop hk, round_eq hptop'.le hk, Nat.add_sub_cancel_left]
  · rintro ⟨page, h1, ⟨h2, h3⟩, rfl⟩
    obtain ⟨k, rfl⟩ : ∃ k, page = virt / 4096 * 4096 + k * 4096 :=
      ⟨(page - virt / 4096 * 4096) / 4096, by omega⟩
    have hk : k < n := by omega
    exact ⟨k, hk, by rw [round_eq hvtop hk, round_eq hptop'.le hk, Nat.add_sub_cancel_left]⟩

theorem SpanOk.canonical_page (hs : SpanOk la57 virt phys len) (hv : InSpan virt len v) : Canonical la57 v := by
  obtain ⟨h1, h2⟩ := hv
  have hc := hs.canonical
  have hh := hs.half
  unfold roundUp at h2
  cases la57 <;> simp only [Canonical, depth, Bool.false_eq_true, if_false, if_true] at hc hh ⊢ <;> omega

theorem span_call_entered (hs : SpanOk la57 virt phys len) (hf : flags < 2 ^ 64)
    (hc : c ∈ vmmMapSpan virt phys len flags) : c.Entered la57 := by
  obtain ⟨n, -, -, hp, hv⟩ := hs.numbers
  have htop := hs.top
  obtain ⟨page, h1, h2, rfl⟩ := (mem_vmmMapSpan_iff hs).mp hc
  have hphys : phys / 4096 * 4096 + (page - virt / 4096 * 4096) < 2 ^ 64 := by
    unfold InSpan at h2
    unfold roundUp at hp
    omega
  refine ⟨hs.canonical_page h2, h1, ?_, Nat.or_lt_two_pow hphys hf⟩
  have := h2.1
  simp only
  omega

/-- The last call for a page of the span. -/
theorem lastCall_span (hs : SpanOk la57 virt phys len) (hv : InSpan virt len v) (h0 : v % 4096 = 0) :
    lastCall (vmmMapSpan virt phys len flags) v =
      some ⟨v, phys / 4096 * 4096 + (v - virt / 4096 * 4096), flags⟩ := by
  have hcall : (⟨v, phys / 4096 * 4096 + (v - virt / 4096 * 4096), flags⟩ : Call) ∈
      vmmMapSpan virt phys len flags := (mem_vmmMapSpan_iff hs).mpr ⟨v, h0, hv, rfl⟩
  obtain ⟨d, hd⟩ := lastCall_exists hcall
  obtain ⟨hm, hdv⟩ := lastCall_some hd
  obtain ⟨page, -, -, rfl⟩ := (mem_vmmMapSpan_iff hs).mp hm
  simp only at hd hdv
  rw [hd, hdv]

theorem lastCall_outside (hs : SpanOk la57 virt phys len) (hv : ¬ InSpan virt len v) :
    lastCall (vmmMapSpan virt phys len flags) v = none := by
  cases hl : lastCall (vmmMapSpan virt phys len flags) v with
  | none => rfl
  | some c =>
    obtain ⟨hm, rfl⟩ := lastCall_some hl
    obtain ⟨page, -, hp, rfl⟩ := (mem_vmmMapSpan_iff hs).mp hm
    exact absurd hp hv

/-! ## The address space afterwards -/

/-- The walk at every address: the span has its entries, the rest what it had. -/
theorem walk_mapSpan (hA : A.Below (2 ^ 52)) (hT : Tables A hhdm la57 top h T) (hs : SpanOk la57 virt phys len)
    (hf : flags < 2 ^ 64) (hm : mapPages A hhdm la57 top (vmmMapSpan virt phys len flags) h = some h') :
    (∃ T', Tables A hhdm la57 top h' T') ∧
      (∀ v, InSpan virt len v → walk hhdm la57 h'.mem top v = if flags &&& vmmPtePresent = 0 then none
        else some ((phys / 4096 * 4096 + (v / 4096 * 4096 - virt / 4096 * 4096)) ||| flags)) ∧
      ∀ v, Canonical la57 v → ¬ InSpan virt len v → walk hhdm la57 h'.mem top v = walk hhdm la57 h.mem top v := by
  obtain ⟨hT', hw⟩ := mapPages_tables hA hT (fun c hc => span_call_entered hs hf hc) hm
  have hpage : ∀ v, InSpan virt len (v - v % 4096) ↔ InSpan virt len v := by
    intro v
    unfold InSpan roundUp
    omega
  have hcanon : ∀ v, Canonical la57 v → Canonical la57 (v - v % 4096) := by
    intro v hv
    cases la57 <;> simp only [Canonical, depth, Bool.false_eq_true, if_false, if_true] at hv ⊢ <;> omega
  refine ⟨hT', ?_, ?_⟩
  · intro v hv
    have hv' := (hpage v).mpr hv
    rw [walk_page, hw _ (hs.canonical_page hv') (by omega), lastCall_span hs hv' (by omega),
      show v - v % 4096 = v / 4096 * 4096 by omega]
    rfl
  · intro v hc hv
    rw [walk_page, hw _ (hcanon v hc) (by omega), lastCall_outside hs (fun h => hv ((hpage v).mp h)),
      ← walk_page]

theorem spanMapped_of_mapPages (hA : A.Below (2 ^ 52)) (hT : Tables A hhdm la57 top h T)
    (hs : SpanOk la57 virt phys len) (hf : flags < 2 ^ 64)
    (hm : mapPages A hhdm la57 top (vmmMapSpan virt phys len flags) h = some h') :
    SpanMapped hhdm la57 top virt phys len flags h h' := by
  obtain ⟨⟨T', hT'⟩, hin, hout⟩ := walk_mapSpan hA hT hs hf hm
  have hoff := hs.offset
  have hspan : ∀ o, o < len → InSpan virt len (virt + o) := by
    intro o ho
    unfold InSpan roundUp
    omega
  have hentry : ∀ o, o < len → walk hhdm la57 h'.mem top (virt + o) =
      if flags &&& vmmPtePresent = 0 then none else some ((phys + o) / 4096 * 4096 ||| flags) := by
    intro o ho
    have hsame : phys / 4096 * 4096 + ((virt + o) / 4096 * 4096 - virt / 4096 * 4096) =
        (phys + o) / 4096 * 4096 := by
      omega
    rw [hin _ (hspan o ho), hsame]
  refine ⟨hentry, ?_, ?_, ?_⟩
  · intro hp hmask o ho
    rw [Tables.translate_eq hT', hentry o ho]
    by_cases hpres : flags &&& vmmPtePresent = 0
    · rw [if_pos hpres, if_pos hpres, Option.map_none]
    · have hok : Call.Ok la57 ⟨(virt + o) / 4096 * 4096, (phys + o) / 4096 * 4096, flags⟩ := by
        refine ⟨hs.canonical_page ?_, by simp only; omega, by simp only; omega, by simp only; omega, hmask⟩
        unfold InSpan roundUp
        simp only
        omega
      have hacc := accessOf_entry hok (virt + o)
      simp only at hacc
      rw [if_neg hpres, if_neg hpres, Option.map_some, hacc]
      congr 2
      omega
  · intro v hc hne
    by_contra hv
    exact hne (hout v hc hv)
  · intro v hc hv
    rw [Tables.translate_eq hT', Tables.translate_eq hT, hout v hc hv]

/-- Mapping the same span again finds every entry as it is. -/
theorem walk_mapSpan_again (hA : A.Below (2 ^ 52)) (hT : Tables A hhdm la57 top h T)
    (hs : SpanOk la57 virt phys len) (hf : flags < 2 ^ 64)
    (hm : mapPages A hhdm la57 top (vmmMapSpan virt phys len flags) h = some h')
    (hm' : mapPages A hhdm la57 top (vmmMapSpan virt phys len flags) h' = some h'') (hc : Canonical la57 v) :
    translate hhdm la57 h''.mem top v = translate hhdm la57 h'.mem top v := by
  obtain ⟨⟨T', hT'⟩, hin, -⟩ := walk_mapSpan hA hT hs hf hm
  obtain ⟨⟨T'', hT''⟩, hin', hout'⟩ := walk_mapSpan hA hT' hs hf hm'
  rw [Tables.translate_eq hT'', Tables.translate_eq hT']
  by_cases hv : InSpan virt len v
  · rw [hin' v hv, hin v hv]
  · rw [hout' v hc hv]

/-- **`vmm_map_span` maps the bytes of the span and nothing else**, on every pagemap. -/
theorem map_span_exact (A : PageAllocator σ) (hA : A.Below (2 ^ 52)) (hhdm : Nat) (la57 : Bool) (top : Nat)
    (h : Heap σ) (T : List (Fin 512) → Option Nat) (hT : Tables A hhdm la57 top h T)
    (virt phys len flags : Nat) (hs : SpanOk la57 virt phys len) (hf : flags < 2 ^ 64) :
    (∀ fuel, spanPages phys len < fuel → spanLoop (alignDown virt pageSize) (alignDown phys pageSize)
        (sub64 (alignUp ((phys + len) % 2 ^ 64) pageSize) (alignDown phys pageSize)) flags fuel 0 =
      some (vmmMapSpan virt phys len flags)) ∧
    (vmmMapSpan virt phys len flags).length = spanPages phys len ∧
    (∀ room : Nat → σ → Prop, Supply A room → room (4 * spanPages phys len) h.pmm →
      ∃ h', mapPages A hhdm la57 top (vmmMapSpan virt phys len flags) h = some h') ∧
    ∀ h', mapPages A hhdm la57 top (vmmMapSpan virt phys len flags) h = some h' →
      SpanMapped hhdm la57 top virt phys len flags h h' ∧
      ∀ h'', mapPages A hhdm la57 top (vmmMapSpan virt phys len flags) h' = some h'' →
        ∀ v, Canonical la57 v → translate hhdm la57 h''.mem top v = translate hhdm la57 h'.mem top v := by
  have hlen : (vmmMapSpan virt phys len flags).length = spanPages phys len := by
    rw [vmmMapSpan_eq hs, spanCalls, List.length_map, List.length_range]
  refine ⟨fun fuel hfuel => spanLoop_calls hs hfuel, hlen, ?_, ?_⟩
  · intro room hS hr
    obtain ⟨h', hm, -⟩ := mapPages_total (k := 0) hA hS hT (fun c hc => span_call_entered hs hf hc)
      (by rwa [hlen, Nat.zero_add])
    exact ⟨h', hm⟩
  · intro h' hm
    exact ⟨spanMapped_of_mapPages hA hT hs hf hm,
      fun h'' hm' v hc => walk_mapSpan_again hA hT hs hf hm hm' hc⟩

/-! ## On a fresh pagemap -/

/-- A span of a page or two in a pagemap of four levels. -/
theorem fresh_span (hs : SpanOk false virt phys len) (hn : spanPages phys len ≤ 2) (flags : Nat)
    (hf : flags < 2 ^ 64) :
    ∃ top h T h', pmmAllocVia bump 0 1 ⟨[], fun _ => 0⟩ = some (top, h) ∧ Tables bump 0 false top h T ∧
      mapPages bump 0 false top (vmmMapSpan virt phys len flags) h = some h' := by
  have hroom : bumpRoom (8 + 1) [] := by
    unfold bumpRoom
    decide
  obtain ⟨top, pmm, ha, hr⟩ := bump_supply.take 8 [] hroom
  have hstart : ∃ h, pmmAllocVia bump 0 1 ⟨[], fun _ => 0⟩ = some (top, h) ∧ h.pmm = pmm := by
    unfold pmmAllocVia
    simp [ha]
  obtain ⟨h, hh, rfl⟩ := hstart
  have hT : Tables bump 0 false top h _ := Tables.start bump_below hh
  have hlen : (vmmMapSpan virt phys len flags).length ≤ 2 := by
    rw [vmmMapSpan_eq hs, spanCalls, List.length_map, List.length_range]
    exact hn
  have hr' : bumpRoom (0 + 4 * (vmmMapSpan virt phys len flags).length) h.pmm := by
    exact Nat.lt_of_le_of_lt (Nat.add_le_add_left (Nat.mul_le_mul_right 8192 (by omega)) _) hr
  obtain ⟨h', hm, -⟩ := mapPages_total bump_below bump_supply hT (fun c hc => span_call_entered hs hf hc) hr'
  exact ⟨top, h, _, h', hh, hT, hm⟩

/-- 512 bytes of which the last 256 are in a second page. -/
theorem map_span_exact_two_pages : ∃ top h h', pmmAllocVia bump 0 1 ⟨[], fun _ => 0⟩ = some (top, h) ∧
    mapPages bump 0 false top (vmmMapSpan 0xffff8000fee00f00 0xfee00f00 0x200 3) h = some h' ∧
    (vmmMapSpan 0xffff8000fee00f00 0xfee00f00 0x200 3).length = 2 ∧
    SpanMapped 0 false top 0xffff8000fee00f00 0xfee00f00 0x200 3 h h' := by
  have hs : SpanOk false 0xffff8000fee00f00 0xfee00f00 0x200 := ⟨by decide, by decide, rfl, by decide⟩
  obtain ⟨top, h, T, h', hh, hT, hm⟩ := fresh_span hs (by decide) 3 (by decide)
  obtain ⟨-, hlen, -, hafter⟩ := map_span_exact bump bump_below 0 false top h T hT _ _ _ 3 hs (by decide)
  exact ⟨top, h, h', hh, hm, hlen, (hafter h' hm).1⟩

/-- Where a span of one byte is found. -/
theorem fresh_byte (hs : SpanOk false virt phys 1) (hn : spanPages phys 1 ≤ 2) (flags : Nat)
    (hf : flags < 2 ^ 64) :
    ∃ top h h', pmmAllocVia bump 0 1 ⟨[], fun _ => 0⟩ = some (top, h) ∧
      mapPages bump 0 false top (vmmMapSpan virt phys 1 flags) h = some h' ∧
      translate 0 false h'.mem top virt = (if flags &&& vmmPtePresent = 0 then none
        else some (phys / 4096 * 4096 ||| flags)).map (accessOf virt) := by
  obtain ⟨top, h, T, h', hh, hT, hm⟩ := fresh_span hs hn flags hf
  obtain ⟨⟨T', hT'⟩, -, -⟩ := walk_mapSpan bump_below hT hs hf hm
  refine ⟨top, h, h', hh, hm, ?_⟩
  have hw := (spanMapped_of_mapPages bump_below hT hs hf hm).entries 0 (by decide)
  rw [Nat.add_zero, Nat.add_zero] at hw
  rw [Tables.translate_eq hT', hw]

/-- What is not in physical memory, is not asked to be present, or has a flag in the bits of the
address, is not translated to what was passed. -/
theorem spans_not_as_passed :
    (∃ top h h', pmmAllocVia bump 0 1 ⟨[], fun _ => 0⟩ = some (top, h) ∧
      mapPages bump 0 false top (vmmMapSpan 0xffff800000000000 (2 ^ 52) 1 3) h = some h' ∧
      SpanOk false 0xffff800000000000 (2 ^ 52) 1 ∧
      translate 0 false h'.mem top 0xffff800000000000 = some ⟨0, true, false, false⟩) ∧
    (∃ top h h', pmmAllocVia bump 0 1 ⟨[], fun _ => 0⟩ = some (top, h) ∧
      mapPages bump 0 false top (vmmMapSpan 0xffff800000000000 0x5000 1 2) h = some h' ∧
      SpanOk false 0xffff800000000000 0x5000 1 ∧
      translate 0 false h'.mem top 0xffff800000000000 = none) ∧
    (∃ top h h', pmmAllocVia bump 0 1 ⟨[], fun _ => 0⟩ = some (top, h) ∧
      mapPages bump 0 false top (vmmMapSpan 0xffff800000000000 0x4000 1 0x1003) h = some h' ∧
      SpanOk false 0xffff800000000000 0x4000 1 ∧
      translate 0 false h'.mem top 0xffff800000000000 = some ⟨0x5000, true, false, false⟩) := by
  refine ⟨?_, ?_, ?_⟩
  · have hs : SpanOk false 0xffff800000000000 (2 ^ 52) 1 := ⟨by decide, by decide, rfl, by decide⟩
    obtain ⟨top, h, h', hh, hm, ht⟩ := fresh_byte hs (by decide) 3 (by decide)
    exact ⟨top, h, h', hh, hm, hs, ht.trans (by decide)⟩
  · have hs : SpanOk false 0xffff800000000000 0x5000 1 := ⟨by decide, by decide, rfl, by decide⟩
    obtain ⟨top, h, h', hh, hm, ht⟩ := fresh_byte hs (by decide) 2 (by decide)
    exact ⟨top, h, h', hh, hm, hs, ht.trans (by decide)⟩
  · have hs : SpanOk false 0xffff800000000000 0x4000 1 := ⟨by decide, by decide, rfl, by decide⟩
    obtain ⟨top, h, h', hh, hm, ht⟩ := fresh_byte hs (by decide) 0x1003 (by decide)
    exact ⟨top, h, h', hh, hm, hs, ht.trans (by decide)⟩

end Cynix.Mm.MapSpan
