import Cynix.Lib.Alloc

/-! # Whole runs of the kernel heap

A run is any sequence of `alloc`, `realloc`, `free` and owner writes. Each live
block carries the bytes its owner may rely on: zeros when `alloc` returns it,
changed by the owner's own writes and by nothing else, and kept up to the
smaller size by `realloc`. The invariant says that memory holds these bytes,
that the metadata page records the block, and that the pages the allocator has
handed out are those of the live blocks and of the other users it had before. -/
namespace Cynix.Lib.AllocRuns
open Cynix.Base.Bytes Cynix.Base.Pages Cynix.Lib.Misc Cynix.Mm Cynix.Mm.Pmm Cynix.Lib.Alloc

variable {σ : Type} {A : PageAllocator σ} {hhdm : Nat}

/-- `others` are the ranges that were handed out before the run started. -/
structure HeapInv (A : PageAllocator σ) (hhdm : Nat) (others : List Range) (h : Heap σ)
    (bs : List Block) : Prop where
  pages : (A.live h.pmm).Perm (bs.map (Block.range hhdm) ++ others)
  apart : (A.live h.pmm).Pairwise Apart
  fits : ∀ b ∈ bs, (b.range hhdm).1 + (b.range hhdm).2 * 4096 < 2 ^ 64
  ok : ∀ b ∈ bs, BlockOk hhdm h.mem b

variable {others : List Range} {h : Heap σ} {bs l₁ l₂ : List Block} {b : Block}

theorem HeapInv.pairwise (hi : HeapInv A hhdm others h bs) :
    (bs.map (Block.range hhdm)).Pairwise Apart :=
  (List.pairwise_append.mp (hi.apart.perm hi.pages fun h => h.symm)).1

theorem HeapInv.mem_live (hi : HeapInv A hhdm others h bs) (hb : b ∈ bs) :
    b.range hhdm ∈ A.live h.pmm :=
  hi.pages.mem_iff.mpr (List.mem_append_left _ (List.mem_map_of_mem hb))

theorem HeapInv.perm (hi : HeapInv A hhdm others h bs) {bs' : List Block} (hp : bs.Perm bs') :
    HeapInv A hhdm others h bs' :=
  ⟨hi.pages.trans ((hp.map _).append_right _), hi.apart, fun c hc => hi.fits c (hp.mem_iff.mpr hc),
    fun c hc => hi.ok c (hp.mem_iff.mpr hc)⟩

/-- The other blocks are apart from the chosen one. -/
theorem HeapInv.apart_rest (hi : HeapInv A hhdm others h (l₁ ++ b :: l₂)) :
    ∀ c ∈ l₁ ++ l₂, Apart (b.range hhdm) (c.range hhdm) := by
  have hp : ((l₁ ++ b :: l₂).map (Block.range hhdm)).Perm
      ((b :: (l₁ ++ l₂)).map (Block.range hhdm)) := List.perm_middle.map _
  have hw := hi.pairwise.perm hp fun h => h.symm
  intro c hc
  exact (List.pairwise_cons.mp hw).1 _ (List.mem_map_of_mem hc)

/-- A change inside one block's pages leaves the others as they are. -/
theorem HeapInv.rest_ok (hi : HeapInv A hhdm others h (l₁ ++ b :: l₂)) {m' : Mem}
    (hm : ∀ x, ¬ OwnsAt hhdm (b.range hhdm) x → m' x = h.mem x) :
    ∀ c ∈ l₁ ++ l₂, BlockOk hhdm m' c := by
  intro c hc
  have hcm : c ∈ l₁ ++ b :: l₂ := by
    rcases List.mem_append.mp hc with hc | hc <;> simp [hc]
  exact (hi.ok c hcm).congr fun x hx => hm x ((hi.apart_rest c hc).symm.not_ownsAt hx)

/-- The chosen block changes its bytes or its size, not its pages. -/
theorem HeapInv.change (hi : HeapInv A hhdm others h (l₁ ++ b :: l₂)) {b' : Block} {m' : Mem}
    (hr : b'.range hhdm = b.range hhdm) (hb : BlockOk hhdm m' b')
    (hm : ∀ x, ¬ OwnsAt hhdm (b.range hhdm) x → m' x = h.mem x) :
    HeapInv A hhdm others { h with mem := m' } (l₁ ++ b' :: l₂) := by
  have hmap : (l₁ ++ b' :: l₂).map (Block.range hhdm) = (l₁ ++ b :: l₂).map (Block.range hhdm) := by
    simp [hr]
  refine ⟨by rw [hmap]; exact hi.pages, hi.apart, ?_, ?_⟩
  · intro c hc
    rcases List.mem_append.mp hc with hc | hc
    · exact hi.fits c (by simp [hc])
    · rcases List.mem_cons.mp hc with rfl | hc
      · rw [hr]; exact hi.fits b (by simp)
      · exact hi.fits c (by simp [hc])
  · intro c hc
    rcases List.mem_append.mp hc with hc | hc
    · exact hi.rest_ok hm c (by simp [hc])
    · rcases List.mem_cons.mp hc with rfl | hc
      · exact hb
      · exact hi.rest_ok hm c (by simp [hc])

/-- Bytes inside the block's size change: the metadata stay. -/
theorem HeapInv.poke (hi : HeapInv A hhdm others h (l₁ ++ b :: l₂)) {m' : Mem} {data : Nat → UInt8}
    (hd : ∀ i, i < b.size → m' (b.ptr + i) = data i)
    (hm : ∀ x, x < b.ptr ∨ b.ptr + b.size ≤ x → m' x = h.mem x) :
    HeapInv A hhdm others { h with mem := m' } (l₁ ++ { b with data := data } :: l₂) := by
  have hb := hi.ok b (by simp)
  have hlow := hb.low
  have hsz := size_le_pages hb.size
  unfold pageSize at hlow hsz
  refine hi.change rfl ⟨hb.low, hb.size, ?_, ?_, hd⟩ ?_
  · rw [← hb.metaPages]
    exact read64_congr fun x h1 h2 => hm x (by simp only [pageSize] at *; omega)
  · have hms := hb.metaSize
    rw [← hms]
    exact read64_congr fun x h1 h2 => hm x (by simp only [pageSize] at *; omega)
  · intro x hx
    apply hm
    unfold OwnsAt Block.range pageSize at hx
    simp only at hx
    omega

/-! ## The three calls -/

theorem alloc_some {size ptr : Nat} {h h' : Heap σ}
    (ha : alloc A hhdm size h = some (ptr, h')) :
    ∃ page, A.alloc (divRoundup size pageSize + 1) h.pmm = some (page, h'.pmm) ∧
      ptr = page + hhdm + pageSize ∧
      h'.mem = write64 (write64 (fillPages hhdm h.mem page (divRoundup size pageSize + 1) 0)
        (page + hhdm) (divRoundup size pageSize)) (page + hhdm + 8) size := by
  have hlt := divRoundup_page_lt size
  unfold alloc pmmAllocVia at ha
  simp only [Nat.mod_eq_of_lt (show divRoundup size pageSize + 1 < 2 ^ 64 by omega)] at ha
  cases hA : A.alloc (divRoundup size pageSize + 1) h.pmm with
  | none => rw [hA] at ha; simp at ha
  | some r =>
    obtain ⟨page, pmm⟩ := r
    rw [hA] at ha
    simp only [Option.some.injEq, Prod.mk.injEq] at ha
    obtain ⟨rfl, rfl⟩ := ha
    exact ⟨page, rfl, rfl, rfl⟩

/-- Every byte `alloc` writes lies in the pages it takes. -/
theorem alloc_out {size ptr : Nat} {h h' : Heap σ} (ha : alloc A hhdm size h = some (ptr, h')) {x : Nat}
    (hx : ¬ OwnsAt hhdm (ptr - pageSize - hhdm, divRoundup size pageSize + 1) x) :
    h'.mem x = h.mem x := by
  obtain ⟨page, hA, rfl, hmem⟩ := alloc_some ha
  rw [Nat.add_sub_cancel, Nat.add_sub_cancel] at hx
  have hx' := hx
  unfold OwnsAt at hx'
  simp only at hx'
  rw [hmem, write64_out (by omega), write64_out (by omega),
    fillPages_out (A.alloc_fits (by omega) hA) hx]

theorem HeapInv.alloc (hi : HeapInv A hhdm others h bs) {size ptr : Nat} {h' : Heap σ}
    (hs : size + 4095 < 2 ^ 64) (ha : alloc A hhdm size h = some (ptr, h')) :
    HeapInv A hhdm others h' (⟨ptr, size, fun _ => 0⟩ :: bs) := by
  obtain ⟨page, hA, rfl, hmem⟩ := alloc_some ha
  have hlive := A.alloc_live hA
  have hap := A.alloc_apart (by omega) hA
  have hfit := A.alloc_fits (by omega) hA
  have hsz := size_le_pages hs
  have hpc := divRoundup_page_lt size
  have hr : Block.range hhdm ⟨page + hhdm + pageSize, size, fun _ => 0⟩ =
      (page, divRoundup size pageSize + 1) := by
    unfold Block.range
    rw [Nat.add_sub_cancel, Nat.add_sub_cancel]
  refine ⟨?_, ?_, ?_, ?_⟩
  · rw [hlive, List.map_cons, hr]
    exact hi.pages.cons _
  · rw [hlive]
    exact List.pairwise_cons.mpr ⟨hap, hi.apart⟩
  · intro c hc
    rcases List.mem_cons.mp hc with rfl | hc
    · rw [hr]; exact hfit
    · exact hi.fits c hc
  · intro c hc
    rcases List.mem_cons.mp hc with rfl | hc
    · refine ⟨by simp only; omega, hs, ?_, ?_, ?_⟩
      · simp only [Nat.add_sub_cancel]
        rw [hmem, read64_write64_ne (by omega), read64_write64_of_lt (by omega)]
      · simp only [Nat.add_sub_cancel]
        rw [hmem, read64_write64_of_lt (by omega)]
      · intro i hi
        simp only [pageSize] at hi ⊢
        rw [hmem, write64_out (by omega), write64_out (by omega), fillPages_zero hfit]
        unfold OwnsAt
        simp only
        unfold pageSize at *
        omega
    · refine (hi.ok c hc).congr fun x hx => alloc_out ha ?_
      rw [Nat.add_sub_cancel, Nat.add_sub_cancel]
      exact (hap _ (hi.mem_live hc)).symm.not_ownsAt hx

/-- What `free` of a live block passes to the page allocator. -/
theorem free_eq (hb : BlockOk hhdm h.mem b) (hn : b.ptr ≠ 0) :
    free A hhdm b.ptr h = pmmFreeVia A hhdm (b.range hhdm).1 (b.range hhdm).2 h := by
  have := divRoundup_page_lt b.size
  unfold free Block.range
  rw [if_neg hn]
  simp only [hb.metaPages]
  rw [Nat.mod_eq_of_lt (by omega)]

theorem BlockOk.ptr_ne_zero {mem : Mem} (hb : BlockOk hhdm mem b) : b.ptr ≠ 0 := by
  have := hb.low
  unfold pageSize at this
  omega

theorem HeapInv.free (hi : HeapInv A hhdm others h (l₁ ++ b :: l₂)) :
    HeapInv A hhdm others (free A hhdm b.ptr h) (l₁ ++ l₂) := by
  have hb := hi.ok b (by simp)
  have hlive : A.live (A.free (b.range hhdm).1 (b.range hhdm).2 h.pmm) =
      (A.live h.pmm).erase (b.range hhdm) := A.free_live (hi.mem_live (by simp))
  rw [free_eq hb (BlockOk.ptr_ne_zero hb)]
  have hsub : ∀ c ∈ l₁ ++ l₂, c ∈ l₁ ++ b :: l₂ := by
    intro c hc
    rcases List.mem_append.mp hc with hc | hc <;> simp [hc]
  refine ⟨?_, ?_, fun c hc => hi.fits c (hsub c hc), ?_⟩
  · -- the allocator's list loses exactly the block's range
    have hmid : (l₁ ++ b :: l₂).Perm (b :: (l₁ ++ l₂)) := List.perm_middle
    have hp : (A.live h.pmm).Perm (b.range hhdm :: ((l₁ ++ l₂).map (Block.range hhdm) ++ others)) :=
      hi.pages.trans ((hmid.map _).append_right _)
    change (A.live (A.free _ _ h.pmm)).Perm _
    rw [hlive]
    simpa using hp.erase (b.range hhdm)
  · change (A.live (A.free _ _ h.pmm)).Pairwise Apart
    rw [hlive]
    exact hi.apart.sublist List.erase_sublist
  · exact hi.rest_ok fun x hx => fillPages_out (hi.fits b (by simp)) hx

/-- The block after `realloc`: the bytes both sizes cover are kept. -/
def Block.resized (b : Block) (ptr newSize : Nat) (mem : Mem) : Block :=
  ⟨ptr, newSize, fun i => if i < min b.size newSize then b.data i else mem (ptr + i)⟩

/-- Resizing in place changes the recorded size and no page. -/
theorem HeapInv.resize (hi : HeapInv A hhdm others h (l₁ ++ b :: l₂)) {newSize : Nat}
    (hs : newSize + 4095 < 2 ^ 64) (hp : divRoundup b.size pageSize = divRoundup newSize pageSize) :
    HeapInv A hhdm others { h with mem := write64 h.mem (b.ptr - pageSize + 8) newSize }
      (l₁ ++ Block.resized b b.ptr newSize (write64 h.mem (b.ptr - pageSize + 8) newSize) :: l₂) := by
  have hb := hi.ok b (by simp)
  have hlow := hb.low
  refine hi.change ?_ ⟨hb.low, hs, ?_, ?_, ?_⟩ ?_
  · simp only [Block.resized, Block.range, hp]
  · simp only [Block.resized]
    rw [read64_write64_ne (by omega), hb.metaPages, hp]
  · exact read64_write64_of_lt (by omega)
  · intro i _
    simp only [Block.resized]
    split
    · rw [write64_out (by simp only [pageSize] at *; omega)]
      exact hb.data i (by omega)
    · rfl
  · intro x hx
    apply write64_out
    simp only [OwnsAt, Block.range, pageSize] at *
    omega

/-- Moving is `alloc`, a copy into the new block, and `free` of the old one. -/
theorem HeapInv.move (hi : HeapInv A hhdm others h (l₁ ++ b :: l₂)) {newSize ptr : Nat}
    {h₁ : Heap σ} (hs : newSize + 4095 < 2 ^ 64)
    (ha : Alloc.alloc A hhdm newSize h = some (ptr, h₁)) {h₂ : Heap σ}
    (h₂_eq : h₂ = { h₁ with mem := copyUp h₁.mem ptr b.ptr (min newSize b.size) }) :
    HeapInv A hhdm others (Alloc.free A hhdm b.ptr h₂)
      (l₁ ++ Block.resized b ptr newSize (Alloc.free A hhdm b.ptr h₂).mem :: l₂) := by
  have h1 := hi.alloc hs ha
  have hb := h1.ok b (by simp)
  have hfront : HeapInv A hhdm others h₁ ([] ++ ⟨ptr, newSize, fun _ => 0⟩ :: (l₁ ++ b :: l₂)) := h1
  have hap : Apart (Block.range hhdm ⟨ptr, newSize, fun _ => 0⟩) (b.range hhdm) :=
    hfront.apart_rest b (by simp)
  have hnew := (h1.ok ⟨ptr, newSize, fun _ => 0⟩ (by simp)).low
  -- the two blocks' bytes are apart, so the copy reads what the old block held
  have hsep : ptr + newSize ≤ b.ptr ∨ b.ptr + b.size ≤ ptr := by
    have hn := size_le_pages hs
    have ho := size_le_pages hb.size
    have hlow := hb.low
    simp only [Apart, Block.range, pageSize] at *
    omega
  have hcopy : ∀ i, i < min b.size newSize → h₂.mem (ptr + i) = b.data i := by
    intro i hlt
    rw [h₂_eq]
    simp only
    rw [copyUp_in (by omega) i (by omega)]
    exact hb.data i (by omega)
  have h2 : HeapInv A hhdm others h₂
      ((Block.resized b ptr newSize h₂.mem :: l₁) ++ b :: l₂) := by
    have hpoke : HeapInv A hhdm others { h₁ with mem := h₂.mem }
        ([] ++ Block.resized b ptr newSize h₂.mem :: (l₁ ++ b :: l₂)) := by
      refine hfront.poke ?_ ?_
      · intro i _
        simp only
        split
        · exact hcopy i (by omega)
        · rfl
      · intro x hx
        simp only at hx
        rw [h₂_eq]
        exact copyUp_out (by omega)
    rw [h₂_eq] at hpoke ⊢
    simpa using hpoke
  -- the bytes of the moved block survive the release of the old one
  have h3 : HeapInv A hhdm others (Alloc.free A hhdm b.ptr h₂)
      ([] ++ Block.resized b ptr newSize h₂.mem :: (l₁ ++ l₂)) := by
    simpa using h2.free
  obtain ⟨h₃, h₃_eq⟩ : ∃ h₃, h₃ = Alloc.free A hhdm b.ptr h₂ := ⟨_, rfl⟩
  rw [← h₃_eq] at h3 ⊢
  have hd := (h3.ok (Block.resized b ptr newSize h₂.mem) (by simp)).data
  have h4 : HeapInv A hhdm others h₃ ([] ++ Block.resized b ptr newSize h₃.mem :: (l₁ ++ l₂)) := by
    refine h3.poke ?_ fun _ _ => rfl
    intro i hlt
    have := hd i hlt
    simp only [Block.resized] at this ⊢
    split
    · rw [this, if_pos (by omega)]
    · rfl
  exact h4.perm List.perm_middle.symm

theorem HeapInv.realloc (hi : HeapInv A hhdm others h (l₁ ++ b :: l₂)) {newSize ptr : Nat}
    {h' : Heap σ} (hs : newSize + 4095 < 2 ^ 64)
    (hr : Alloc.realloc A hhdm b.ptr newSize h = some (ptr, h')) :
    HeapInv A hhdm others h' (l₁ ++ Block.resized b ptr newSize h'.mem :: l₂) := by
  have hb := hi.ok b (by simp)
  unfold Alloc.realloc at hr
  rw [if_neg (BlockOk.ptr_ne_zero hb)] at hr
  simp only [hb.metaPages] at hr
  split at hr
  · rename_i hp
    simp only [Option.some.injEq, Prod.mk.injEq] at hr
    obtain ⟨rfl, rfl⟩ := hr
    exact hi.resize hs hp
  · split at hr
    · rename_i newPtr h₁ ha
      -- the old block's size is still on record after the new block was made
      have hsize := ((hi.alloc hs ha).ok b (by simp)).metaSize
      simp only [hsize, Option.some.injEq, Prod.mk.injEq] at hr
      obtain ⟨rfl, rfl⟩ := hr
      exact hi.move hs ha rfl
    · cases hr

/-! ## Runs -/

structure Sys (σ : Type) where
  heap : Heap σ
  blocks : List Block

inductive Step (A : PageAllocator σ) (hhdm : Nat) : Sys σ → Sys σ → Prop where
  | alloc {h h' : Heap σ} {bs : List Block} {size ptr : Nat} : size + (pageSize - 1) < 2 ^ 64 →
      Alloc.alloc A hhdm size h = some (ptr, h') →
      Step A hhdm ⟨h, bs⟩ ⟨h', ⟨ptr, size, fun _ => 0⟩ :: bs⟩
  | reallocNull {h h' : Heap σ} {bs : List Block} {size ptr : Nat} : size + (pageSize - 1) < 2 ^ 64 →
      Alloc.realloc A hhdm 0 size h = some (ptr, h') →
      Step A hhdm ⟨h, bs⟩ ⟨h', ⟨ptr, size, fun _ => 0⟩ :: bs⟩
  | realloc {h h' : Heap σ} {l₁ l₂ : List Block} {b : Block} {newSize ptr : Nat} :
      newSize + (pageSize - 1) < 2 ^ 64 →
      Alloc.realloc A hhdm b.ptr newSize h = some (ptr, h') →
      Step A hhdm ⟨h, l₁ ++ b :: l₂⟩ ⟨h', l₁ ++ Block.resized b ptr newSize h'.mem :: l₂⟩
  | free {h : Heap σ} {l₁ l₂ : List Block} {b : Block} :
      Step A hhdm ⟨h, l₁ ++ b :: l₂⟩ ⟨Alloc.free A hhdm b.ptr h, l₁ ++ l₂⟩
  | freeNull {h : Heap σ} {bs : List Block} : Step A hhdm ⟨h, bs⟩ ⟨Alloc.free A hhdm 0 h, bs⟩
  /-- The owner of `b` stores a byte inside its block. -/
  | write {h : Heap σ} {l₁ l₂ : List Block} {b : Block} {i : Nat} {v : UInt8} : i < b.size →
      Step A hhdm ⟨h, l₁ ++ b :: l₂⟩
        ⟨{ h with mem := writeByte h.mem (b.ptr + i) v },
          l₁ ++ { b with data := Function.update b.data i v } :: l₂⟩

theorem HeapInv.step {s t : Sys σ} (hi : HeapInv A hhdm others s.heap s.blocks)
    (hst : Step A hhdm s t) : HeapInv A hhdm others t.heap t.blocks := by
  cases hst with
  | alloc hs ha => exact hi.alloc hs ha
  | reallocNull hs ha => exact hi.alloc hs (by simpa [Alloc.realloc] using ha)
  | realloc hs ha => exact hi.realloc hs ha
  | free => exact hi.free
  | freeNull => simpa [Alloc.free] using hi
  | @write h l₁ l₂ b i v hlt =>
    refine hi.poke ?_ ?_
    · intro j hj
      by_cases hij : j = i
      · subst hij; simp [writeByte]
      · have := (hi.ok b (by simp)).data j hj
        simpa [writeByte, hij] using this
    · intro x hx
      unfold writeByte
      rw [if_neg (by omega)]

theorem HeapInv.run {s t : Sys σ} (hi : HeapInv A hhdm others s.heap s.blocks)
    (hr : Relation.ReflTransGen (Step A hhdm) s t) : HeapInv A hhdm others t.heap t.blocks := by
  induction hr with
  | refl => exact hi
  | tail _ hs ih => exact ih.step hs

theorem HeapInv.start {pmm : σ} {mem : Mem} (hp : (A.live pmm).Pairwise Apart) :
    HeapInv A hhdm (A.live pmm) ⟨pmm, mem⟩ [] :=
  ⟨by simp, hp, by simp, by simp⟩

/-- What the heap promises in a state, to the owners of the live blocks and to
the page allocator. `others` are the ranges it had handed out before. -/
structure Contract (A : PageAllocator σ) (hhdm : Nat) (others : List Range) (s : Sys σ) : Prop where
  /-- The allocator has handed out the blocks' pages, `DIV_ROUNDUP(size) + 1`
  for each, and those of the other users, and no more. -/
  pages : (A.live s.heap.pmm).Perm (s.blocks.map (Block.range hhdm) ++ others)
  metadata : ∀ b ∈ s.blocks, read64 s.heap.mem (b.ptr - pageSize) = divRoundup b.size pageSize ∧
    read64 s.heap.mem (b.ptr - pageSize + 8) = b.size
  disjoint : s.blocks.Pairwise fun b c => Apart (b.range hhdm) (c.range hhdm)
  /-- `free` gives back exactly the pages that were taken for the block. -/
  freed : ∀ b ∈ s.blocks, b.range hhdm ∈ A.live s.heap.pmm ∧
    (Alloc.free A hhdm b.ptr s.heap).pmm =
      A.free (b.range hhdm).1 (b.range hhdm).2 s.heap.pmm
  /-- A block holds what its owner put there. -/
  contents : ∀ b ∈ s.blocks, ∀ i, i < b.size → s.heap.mem (b.ptr + i) = b.data i
  zeroed : ∀ size ptr h', size + (pageSize - 1) < 2 ^ 64 →
    Alloc.alloc A hhdm size s.heap = some (ptr, h') → ∀ i, i < size → h'.mem (ptr + i) = 0
  kept : ∀ b ∈ s.blocks, ∀ newSize ptr h', newSize + (pageSize - 1) < 2 ^ 64 →
    Alloc.realloc A hhdm b.ptr newSize s.heap = some (ptr, h') →
    ∀ i, i < min b.size newSize → h'.mem (ptr + i) = s.heap.mem (b.ptr + i)
  /-- No call changes a byte of a block it is not about. -/
  alloc_frame : ∀ size ptr h', size + (pageSize - 1) < 2 ^ 64 →
    Alloc.alloc A hhdm size s.heap = some (ptr, h') →
    ∀ c ∈ s.blocks, ∀ i, i < c.size → h'.mem (c.ptr + i) = s.heap.mem (c.ptr + i)
  realloc_frame : ∀ l₁ b l₂, s.blocks = l₁ ++ b :: l₂ → ∀ newSize ptr h',
    newSize + (pageSize - 1) < 2 ^ 64 →
    Alloc.realloc A hhdm b.ptr newSize s.heap = some (ptr, h') →
    ∀ c ∈ l₁ ++ l₂, ∀ i, i < c.size → h'.mem (c.ptr + i) = s.heap.mem (c.ptr + i)
  free_frame : ∀ l₁ b l₂, s.blocks = l₁ ++ b :: l₂ →
    ∀ c ∈ l₁ ++ l₂, ∀ i, i < c.size →
      (Alloc.free A hhdm b.ptr s.heap).mem (c.ptr + i) = s.heap.mem (c.ptr + i)

theorem HeapInv.contract {s : Sys σ} (hi : HeapInv A hhdm others s.heap s.blocks) :
    Contract A hhdm others s := by
  have hdata : ∀ c ∈ s.blocks, ∀ i, i < c.size → s.heap.mem (c.ptr + i) = c.data i :=
    fun c hc => (hi.ok c hc).data
  -- blocks that are live before and after a call hold the same bytes
  have hframe : ∀ {h' : Heap σ} {bs' : List Block}, HeapInv A hhdm others h' bs' →
      ∀ c ∈ s.blocks, c ∈ bs' → ∀ i, i < c.size → h'.mem (c.ptr + i) = s.heap.mem (c.ptr + i) :=
    fun hi' c hc hc' i hlt => ((hi'.ok c hc').data i hlt).trans (hdata c hc i hlt).symm
  have hsub : ∀ {l₁ l₂ : List Block} {b c : Block}, c ∈ l₁ ++ l₂ → c ∈ l₁ ++ b :: l₂ := by
    intro l₁ l₂ b c hc
    rcases List.mem_append.mp hc with hc | hc <;> simp [hc]
  refine ⟨hi.pages, fun b hb => ⟨(hi.ok b hb).metaPages, (hi.ok b hb).metaSize⟩,
    List.pairwise_map.mp hi.pairwise, ?_, hdata, ?_, ?_, ?_, ?_, ?_⟩
  · intro b hb
    refine ⟨hi.mem_live hb, ?_⟩
    rw [free_eq (hi.ok b hb) (BlockOk.ptr_ne_zero (hi.ok b hb))]
    rfl
  · intro size ptr h' hs ha i hlt
    exact ((hi.alloc hs ha).ok ⟨ptr, size, fun _ => 0⟩ (by simp)).data i hlt
  · intro b hb newSize ptr h' hs hr i hlt
    obtain ⟨l₁, l₂, hl⟩ := List.append_of_mem hb
    rw [hl] at hi
    have hn := ((hi.realloc hs hr).ok (Block.resized b ptr newSize h'.mem) (by simp)).data i
      (by simp only [Block.resized]; omega)
    simp only [Block.resized, if_pos hlt] at hn
    rw [hn, hdata b hb i (by omega)]
  · intro size ptr h' hs ha c hc
    exact hframe (hi.alloc hs ha) c hc (by simp [hc])
  · intro l₁ b l₂ hl newSize ptr h' hs hr c hc
    rw [hl] at hi
    exact hframe (hi.realloc hs hr) c (hl ▸ hsub hc) (hsub hc)
  · intro l₁ b l₂ hl c hc
    rw [hl] at hi
    exact hframe hi.free c (hl ▸ hsub hc) hc

/-- **The heap keeps its contract in every run**, on top of every page
allocator that hands out disjoint ranges. -/
theorem heap_run_contract (A : PageAllocator σ) (hhdm : Nat) (pmm : σ) (mem : Mem)
    (hp : (A.live pmm).Pairwise Apart) (s : Sys σ)
    (hr : Relation.ReflTransGen (Step A hhdm) ⟨⟨pmm, mem⟩, []⟩ s) :
    Contract A hhdm (A.live pmm) s :=
  ((HeapInv.start hp).run hr).contract

/-- The page allocator of the kernel on one usable stretch of eight pages. -/
def smallPmm : PmmRuns.PmmOk (pmmInit 0 PmmRuns.eightPages fun _ => 0) :=
  ⟨pmmInit 0 PmmRuns.eightPages fun _ => 0, [], PmmRuns.Inv.boot (avlPageCount_lt _) (Nat.zero_le _)⟩

theorem heap_run_contract_one_block :
    ∃ s : Sys _, Relation.ReflTransGen (Step (PmmRuns.pmmAllocator _) 0)
        ⟨⟨smallPmm, fun _ => 0⟩, []⟩ s ∧ s.blocks.length = 1 ∧
      Contract (PmmRuns.pmmAllocator _) 0 [] s := by
  have hsome : (Alloc.alloc (PmmRuns.pmmAllocator _) 0 16 ⟨smallPmm, fun _ => 0⟩).isSome = true := by
    decide +kernel
  obtain ⟨⟨ptr, h'⟩, ha⟩ := Option.isSome_iff_exists.mp hsome
  have hrun : Relation.ReflTransGen (Step (PmmRuns.pmmAllocator _) 0)
      ⟨⟨smallPmm, fun _ => 0⟩, []⟩ ⟨h', [⟨ptr, 16, fun _ => 0⟩]⟩ :=
    .single (.alloc (by decide) ha)
  exact ⟨_, hrun, rfl, heap_run_contract _ 0 smallPmm _ List.Pairwise.nil _ hrun⟩

end Cynix.Lib.AllocRuns
