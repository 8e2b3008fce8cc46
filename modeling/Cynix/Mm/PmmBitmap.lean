import Cynix.Mm.PmmRuns

/-! # The bitmap that `pmm_init` builds

Three passes over the memory map: the top of memory, the place of the bitmap,
and the clearing of the usable pages. The last pass classifies every page that
has a bit. The size of the bitmap is a truncated quotient rounded up to pages,
so it falls short when the page count is one to seven past a multiple of 32768. -/
namespace Cynix.Mm.PmmBitmap
open Cynix.Base.Bytes Cynix.Base.Pages Cynix.Lib.Misc Cynix.Mm.Pmm Cynix.Mm.PmmRuns

/-! ## The top of memory -/

/-- The number of pages below the end of the highest entry that counts. -/
def topPages (memmap : List MemmapEntry) : Nat :=
  (memmap.filter fun e => countsForTop e.type).foldr (fun e n => max (entryTop e / 4096) n) 0

theorem alignUp_page (v : Nat) : alignUp v pageSize % 4096 = 0 ∧ alignUp v pageSize < 2 ^ 64 := by
  unfold alignUp pageSize
  omega

theorem topPages_cons (e : MemmapEntry) (memmap : List MemmapEntry) : topPages (e :: memmap) =
    if countsForTop e.type then max (entryTop e / 4096) (topPages memmap) else topPages memmap := by
  unfold topPages
  rw [List.filter_cons]
  split <;> rfl

theorem foldl_top (memmap : List MemmapEntry) (top : Nat) :
    memmap.foldl (fun top e => if countsForTop e.type && top < entryTop e then entryTop e else top) top =
      max top (4096 * topPages memmap) := by
  induction memmap generalizing top with
  | nil => simp [topPages]
  | cons e memmap ih =>
    have hpage : entryTop e % 4096 = 0 := (alignUp_page _).1
    rw [List.foldl_cons, ih, topPages_cons]
    cases countsForTop e.type with
    | true =>
      simp only [Bool.true_and, decide_eq_true_eq, if_true]
      split <;> omega
    | false => simp only [Bool.false_and, Bool.false_eq_true, if_false]

theorem topAddress_eq (memmap : List MemmapEntry) : topAddress memmap = 4096 * topPages memmap := by
  unfold topAddress
  rw [foldl_top]
  omega

theorem topPages_lt (memmap : List MemmapEntry) : topPages memmap < 2 ^ 52 := by
  induction memmap with
  | nil => decide
  | cons e memmap ih =>
    have hlt : entryTop e < 2 ^ 64 := (alignUp_page _).2
    rw [topPages_cons]
    split <;> omega

theorem avlPageCount_eq (memmap : List MemmapEntry) : avlPageCount memmap = topPages memmap := by
  have hlt := topPages_lt memmap
  unfold avlPageCount
  rw [topAddress_eq, divRoundup_page (by omega)]
  omega

theorem bitmapSize_eq (memmap : List MemmapEntry) :
    bitmapSize memmap = (topPages memmap / 8 + 4095) / 4096 * 4096 := by
  have hlt := topPages_lt memmap
  unfold bitmapSize alignUp
  rw [avlPageCount_eq, divRoundup_page (by omega)]
  unfold pageSize
  omega

/-- The highest entry bounds the others. -/
theorem entryTop_le {memmap : List MemmapEntry} {e : MemmapEntry} (he : e ∈ memmap)
    (hc : countsForTop e.type) : entryTop e / 4096 ≤ topPages memmap := by
  induction memmap with
  | nil => cases he
  | cons d memmap ih =>
    rw [topPages_cons]
    cases he with
    | head =>
      rw [if_pos hc]
      exact le_max_left _ _
    | tail _ h =>
      have hle := ih h
      split <;> omega

/-! ## Memory maps -/

/-- What the bootloader guarantees about its entries. -/
structure MapOk (memmap : List MemmapEntry) : Prop where
  fits : ∀ e ∈ memmap, e.base + e.length < 2 ^ 64
  aligned : ∀ e ∈ memmap, e.type = .usable → e.base % 4096 = 0 ∧ e.length % 4096 = 0

/-- The page `k` lies in the entry. -/
def InEntry (e : MemmapEntry) (k : Nat) : Prop := e.base ≤ k * 4096 ∧ k * 4096 < e.base + e.length

variable {memmap : List MemmapEntry} {hhdm : Nat} {mem : Mem} {e : MemmapEntry} {k : Nat}

theorem MapOk.entryTop_usable (hm : MapOk memmap) (he : e ∈ memmap) (hu : e.type = .usable) :
    entryTop e = e.base + e.length := by
  obtain ⟨h1, h2⟩ := hm.aligned e he hu
  have h3 := hm.fits e he
  unfold entryTop alignUp
  rw [Nat.mod_eq_of_lt h3, divRoundup_page (by omega)]
  unfold pageSize
  omega

/-- A usable page is counted. -/
theorem MapOk.usable_lt (hm : MapOk memmap) (he : e ∈ memmap) (hu : e.type = .usable)
    (hk : InEntry e k) : k < topPages memmap := by
  have hle := entryTop_le he (by rw [hu]; rfl)
  rw [hm.entryTop_usable he hu] at hle
  obtain ⟨h1, h2⟩ := hm.aligned e he hu
  unfold InEntry at hk
  omega

/-! ## Clearing -/

theorem clearPages_bit {phys size base n j : Nat} {bitmap : Mem} (hb : base % 4096 = 0)
    (hj : j % 4096 = 0) (hw : base + j + n * 4096 ≤ 2 ^ 64) :
    bitTest (clearPages phys size base n j bitmap) k = false ↔ bitTest bitmap k = false ∨
      ((base + j ≤ k * 4096 ∧ k * 4096 < base + j + n * 4096) ∧
        overlapsBitmap phys size (k * 4096) = false) := by
  induction n generalizing j bitmap with
  | zero =>
    rw [clearPages]
    constructor
    · exact .inl
    · intro h
      rcases h with h | h
      · exact h
      · omega
  | succ n ih =>
    have hpage : (base + j) % 2 ^ 64 = base + j := Nat.mod_eq_of_lt (by omega)
    have hj' : (j + pageSize) % 4096 = 0 := by
      unfold pageSize
      omega
    rw [clearPages, ih hj' (by unfold pageSize; omega), hpage]
    unfold pageSize
    by_cases hk : k * 4096 = base + j
    · rw [hk, show (base + j) / 4096 = k by omega]
      cases overlapsBitmap phys size (base + j) with
      | true => simp
      | false =>
        simp only [Bool.false_eq_true, if_false, bitTest_bitReset, decide_true, Bool.not_true,
          Bool.false_and, true_or, true_iff]
        exact .inr ⟨by omega, trivial⟩
    · have hsame : bitTest (if overlapsBitmap phys size (base + j) then bitmap
          else bitReset bitmap ((base + j) / 4096)) k = bitTest bitmap k := by
        split
        · rfl
        · rw [bitTest_bitReset, decide_eq_false (by omega), Bool.not_false, Bool.true_and]
      rw [hsame, show (base + (j + 4096) ≤ k * 4096 ∧ k * 4096 < base + (j + 4096) + n * 4096) ↔
        (base + j ≤ k * 4096 ∧ k * 4096 < base + j + (n + 1) * 4096) by omega]

theorem MapOk.clearEntry_bit (hm : MapOk memmap) (he : e ∈ memmap) {phys size : Nat} {bitmap : Mem} :
    bitTest (clearEntry phys size bitmap e) k = false ↔ bitTest bitmap k = false ∨
      (e.type = .usable ∧ InEntry e k ∧ overlapsBitmap phys size (k * 4096) = false) := by
  unfold clearEntry
  by_cases hu : e.type = .usable
  · obtain ⟨h1, h2⟩ := hm.aligned e he hu
    have h3 := hm.fits e he
    have hn : (e.length + (pageSize - 1)) / pageSize * 4096 = e.length := by
      unfold pageSize
      omega
    simp only [hu, beq_self_eq_true, if_true]
    rw [clearPages_bit h1 rfl (by omega), hn, Nat.add_zero]
    simp only [InEntry, true_and]
  · simp [hu]

/-- The third loop: a bit is clear if it was, or if its page is usable and not the bitmap's. -/
theorem MapOk.clear_bit {l : List MemmapEntry} (hm : MapOk memmap) (hl : ∀ e ∈ l, e ∈ memmap)
    {phys size : Nat} {bitmap : Mem} :
    bitTest (l.foldl (clearEntry phys size) bitmap) k = false ↔ bitTest bitmap k = false ∨
      (∃ e ∈ l, e.type = .usable ∧ InEntry e k) ∧ overlapsBitmap phys size (k * 4096) = false := by
  induction l generalizing bitmap with
  | nil => simp
  | cons e l ih =>
    obtain ⟨he, hl'⟩ := List.forall_mem_cons.mp hl
    rw [List.foldl_cons, ih hl', hm.clearEntry_bit he, List.exists_mem_cons_iff]
    tauto

/-! ## The place of the bitmap -/

/-- The physical address of the bitmap. -/
def bitmapPhys (hhdm : Nat) (memmap : List MemmapEntry) : Nat := sub64 (bitmapAddr hhdm memmap) hhdm

/-- Some byte of the bitmap lies in the page `k`. -/
def HoldsBitmap (hhdm : Nat) (memmap : List MemmapEntry) (k : Nat) : Prop :=
  bitmapPhys hhdm memmap < k * 4096 + 4096 ∧ k * 4096 < bitmapPhys hhdm memmap + bitmapSize memmap

/-- There is an entry for the bitmap. -/
def HasPlace (memmap : List MemmapEntry) : Prop :=
  ∃ e ∈ memmap, e.type = .usable ∧ (topPages memmap / 8 + 4095) / 4096 * 4096 < e.length

theorem bitmapEntry_some (h : bitmapEntry memmap = some e) :
    e ∈ memmap ∧ e.type = .usable ∧ bitmapSize memmap < e.length := by
  have hp := List.find?_some h
  simp only [Bool.and_eq_true, beq_iff_eq, decide_eq_true_eq] at hp
  exact ⟨List.mem_of_find?_eq_some h, hp.1, hp.2⟩

theorem hasPlace_iff : HasPlace memmap ↔ ∃ e, bitmapEntry memmap = some e := by
  unfold HasPlace
  rw [← bitmapSize_eq]
  constructor
  · intro hplace
    obtain ⟨e, he, hu, hl⟩ := hplace
    have hsome : (bitmapEntry memmap).isSome := List.find?_isSome.mpr ⟨e, he, by simp [hu, hl]⟩
    exact Option.isSome_iff_exists.mp hsome
  · intro hsome
    obtain ⟨e, h⟩ := hsome
    exact ⟨e, bitmapEntry_some h⟩

theorem bitmapPhys_eq (hh : hhdm < 2 ^ 64) (hb : e.base < 2 ^ 64) (h : bitmapEntry memmap = some e) :
    bitmapPhys hhdm memmap = e.base := by
  unfold bitmapPhys bitmapAddr sub64
  simp only [h]
  omega

/-- The test of the third loop skips the pages of the bitmap and no others. -/
theorem overlaps_iff {phys size : Nat} (hp : phys % 4096 = 0) (hs : size % 4096 = 0)
    (hw : phys + size < 2 ^ 64) (hk : k * 4096 + 4096 < 2 ^ 64) :
    overlapsBitmap phys size (k * 4096) = false ↔
      ¬ (phys < k * 4096 + 4096 ∧ k * 4096 < phys + size) := by
  unfold overlapsBitmap pageSize
  simp only [Nat.mod_eq_of_lt hw, Nat.mod_eq_of_lt hk, Bool.or_eq_false_iff, Bool.and_eq_false_iff,
    decide_eq_false_iff_not]
  omega

/-- After `memset` every bit of the storage is set. -/
theorem bitmapAfterMemset_bit (h : bitmapEntry memmap = some e) (hk : k < 8 * bitmapSize memmap) :
    bitTest (bitmapAfterMemset hhdm memmap mem) k = true := by
  have hbyte : bitmapAfterMemset hhdm memmap mem (k / 8) = 0xff := by
    unfold bitmapAfterMemset
    simp only [h]
    rw [if_pos (by omega)]
  have hbit : ∀ j, j < 8 → Nat.testBit 255 j = true := by decide
  rw [bitTest_eq_testBit, hbyte]
  exact hbit _ (Nat.mod_lt _ (by decide))

/-- **`pmm_init` classifies every page**: usable pages are counted, and a bit of the storage is
clear exactly if its page is usable and holds no part of the bitmap. -/
theorem pmmInit_classifies (hhdm : Nat) (memmap : List MemmapEntry) (mem : Mem) (hh : hhdm < 2 ^ 64)
    (hm : MapOk memmap) (hplace : ∃ e ∈ memmap, e.type = .usable ∧ bitmapSize memmap < e.length) :
    (∀ e ∈ memmap, e.type = .usable → ∀ k, InEntry e k → k < (pmmInit hhdm memmap mem).avlPageCount) ∧
    ∀ k, k < (pmmInit hhdm memmap mem).avlPageCount → k < 8 * bitmapSize memmap →
      (bitTest (pmmInit hhdm memmap mem).bitmap k = false ↔
        (∃ e ∈ memmap, e.type = .usable ∧ InEntry e k) ∧ ¬ HoldsBitmap hhdm memmap k) := by
  have havl : (pmmInit hhdm memmap mem).avlPageCount = topPages memmap := avlPageCount_eq memmap
  refine ⟨fun e he hu k hk => havl ▸ hm.usable_lt he hu hk, fun k hk hstore => ?_⟩
  obtain ⟨b, hb⟩ := hasPlace_iff.mp (by unfold HasPlace; rw [← bitmapSize_eq]; exact hplace)
  obtain ⟨hbm, hbu, hbl⟩ := bitmapEntry_some hb
  have hphys : bitmapPhys hhdm memmap = b.base := bitmapPhys_eq hh (by have := hm.fits b hbm; omega) hb
  have hset : bitTest (bitmapAfterMemset hhdm memmap mem) k = true := bitmapAfterMemset_bit hb hstore
  have hclear : bitTest (pmmInit hhdm memmap mem).bitmap k = false ↔
      (∃ e ∈ memmap, e.type = .usable ∧ InEntry e k) ∧
        overlapsBitmap (bitmapPhys hhdm memmap) (bitmapSize memmap) (k * 4096) = false := by
    have h : bitTest (memmap.foldl (clearEntry (bitmapPhys hhdm memmap) (bitmapSize memmap))
        (bitmapAfterMemset hhdm memmap mem)) k = false ↔ _ := hm.clear_bit fun _ he => he
    rw [hset] at h
    simp only [Bool.true_eq_false, false_or] at h
    exact h
  rw [hclear]
  refine and_congr_right fun ⟨e, he, hu, hin⟩ => ?_
  have hsize : bitmapSize memmap % 4096 = 0 := (alignUp_page _).1
  have hend : k * 4096 + 4096 < 2 ^ 64 := by
    obtain ⟨h1, h2⟩ := hm.aligned e he hu
    have h3 := hm.fits e he
    unfold InEntry at hin
    omega
  have hfits := hm.fits b hbm
  rw [hphys, overlaps_iff (hm.aligned b hbm hbu).1 hsize (by omega) hend]
  unfold HoldsBitmap
  rw [hphys]

theorem pmmInit_classifies_eight :
    (∃ e ∈ eightPages, e.type = .usable ∧ bitmapSize eightPages < e.length) ∧
    (bitTest (pmmInit 0 eightPages fun _ => 0).bitmap 5 = false ↔
      (∃ e ∈ eightPages, e.type = .usable ∧ InEntry e 5) ∧ ¬ HoldsBitmap 0 eightPages 5) := by
  have hplace : ∃ e ∈ eightPages, e.type = .usable ∧ bitmapSize eightPages < e.length :=
    ⟨⟨0, 0x8000, .usable⟩, by decide, rfl, by decide⟩
  have hm : MapOk eightPages := ⟨by decide, by decide⟩
  exact ⟨hplace, (pmmInit_classifies 0 eightPages (fun _ => 0) (by decide) hm hplace).2 5 (by decide)
    (by decide)⟩

/-! ## The size of the bitmap -/

/-- What makes the bitmap adequate. -/
structure Adequate (hhdm : Nat) (memmap : List MemmapEntry) (mem : Mem) : Prop where
  /-- The storage lies inside the image of one usable entry. -/
  storage : ∃ e ∈ memmap, e.type = .usable ∧ hhdm + e.base ≤ bitmapAddr hhdm memmap ∧
    bitmapAddr hhdm memmap + bitmapSize memmap ≤ hhdm + e.base + e.length
  covers : ∀ i, i < (pmmInit hhdm memmap mem).avlPageCount → i / 8 < bitmapSize memmap
  /-- In every run the bits that a call tests, sets or clears are inside the storage. -/
  tests : ∀ s, Relation.ReflTransGen (Step hhdm) (Sys.boot hhdm memmap mem) s →
    ∀ count, ∀ q ∈ allocTests count s.pmm, q.1 / 8 < bitmapSize memmap
  ranges : ∀ s, Relation.ReflTransGen (Step hhdm) (Sys.boot hhdm memmap mem) s →
    ∀ r ∈ s.live, ∀ k, InRange r k → k / 8 < bitmapSize memmap

/-- The images of the entries do not wrap. -/
structure HhdmOk (hhdm : Nat) (memmap : List MemmapEntry) : Prop where
  pos : 0 < hhdm
  image : ∀ e ∈ memmap, e.type = .usable → hhdm + e.base + e.length ≤ 2 ^ 64

/-- The page count is not just past a multiple of 32768. -/
def NotJustPast (memmap : List MemmapEntry) : Prop :=
  topPages memmap % 32768 = 0 ∨ 8 ≤ topPages memmap % 32768

theorem covers_iff : (∀ i, i < topPages memmap → i / 8 < bitmapSize memmap) ↔ NotJustPast memmap := by
  unfold NotJustPast
  rw [bitmapSize_eq]
  constructor
  · intro h
    have hlast := h (topPages memmap - 1)
    omega
  · intro h i hi
    omega

/-- What a run touches has an index below the page count. -/
theorem run_lt {s : Sys} (h : Relation.ReflTransGen (Step hhdm) (Sys.boot hhdm memmap mem) s) :
    (∀ count, ∀ q ∈ allocTests count s.pmm, q.1 < topPages memmap) ∧
    ∀ r ∈ s.live, ∀ k, InRange r k → k < topPages memmap := by
  have hi : Inv (pmmInit hhdm memmap mem) s.pmm s.live :=
    (Inv.boot (avlPageCount_lt memmap) (Nat.zero_le _)).run h
  have havl : (pmmInit hhdm memmap mem).avlPageCount = topPages memmap := avlPageCount_eq memmap
  have hcount := hi.count.trans havl
  have hcur := hi.cursor
  refine ⟨fun count q hq => ?_, fun r hr k hk => ?_⟩
  · have := allocTests_lt (by omega) q hq
    omega
  · have := (hi.shape r hr).2.2
    unfold InRange at hk
    omega

/-- **The bitmap is adequate exactly if there is a usable entry longer than it and the page count
is a multiple of 32768 or at least eight past one.** -/
theorem bitmap_adequate_iff (hhdm : Nat) (memmap : List MemmapEntry) (mem : Mem)
    (hh : HhdmOk hhdm memmap) :
    Adequate hhdm memmap mem ↔ HasPlace memmap ∧ NotJustPast memmap := by
  have havl : (pmmInit hhdm memmap mem).avlPageCount = topPages memmap := avlPageCount_eq memmap
  constructor
  · intro h
    refine ⟨?_, covers_iff.mp (havl ▸ h.covers)⟩
    by_contra hno
    -- no place was found, and `pmm_bitmap` is `NULL`
    have hnone : bitmapEntry memmap = none := by
      cases hb : bitmapEntry memmap with
      | none => rfl
      | some e => exact absurd (hasPlace_iff.mpr ⟨e, hb⟩) hno
    have hnull : bitmapAddr hhdm memmap = 0 := by simp only [bitmapAddr, hnone]
    obtain ⟨e, -, -, hlow, -⟩ := h.storage
    have := hh.pos
    omega
  · intro hboth
    obtain ⟨hplace, hcount⟩ := hboth
    have hcov := covers_iff.mpr hcount
    obtain ⟨b, hb⟩ := hasPlace_iff.mp hplace
    obtain ⟨hbm, hbu, hbl⟩ := bitmapEntry_some hb
    have himage := hh.image b hbm hbu
    have haddr : bitmapAddr hhdm memmap = b.base + hhdm := by
      simp only [bitmapAddr, hb]
      omega
    refine ⟨⟨b, hbm, hbu, by omega, by omega⟩, fun i hi => hcov i (havl ▸ hi), fun s hs count q hq => ?_,
      fun s hs r hr k hk => ?_⟩
    · exact hcov _ ((run_lt hs).1 count q hq)
    · exact hcov _ ((run_lt hs).2 r hr k hk)

theorem bitmap_adequate_eight :
    Adequate 0xffff800000000000 eightPages fun _ => 0 := by
  have hh : HhdmOk 0xffff800000000000 eightPages := ⟨by decide, by decide⟩
  refine (bitmap_adequate_iff 0xffff800000000000 eightPages (fun _ => 0) hh).mpr ⟨?_, .inr (by decide)⟩
  exact ⟨⟨0, 0x8000, .usable⟩, by decide, rfl, by decide⟩

/-- One page past 128 MiB: the last page has no bit. -/
theorem bitmap_one_page_short :
    ¬ Adequate 0xffff800000000000 [⟨0, 0x8001000, .usable⟩] fun _ => 0 := by
  intro h
  have := h.covers 32768 (by decide)
  revert this
  decide

end Cynix.Mm.PmmBitmap
