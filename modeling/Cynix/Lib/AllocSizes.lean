import Cynix.Lib.StackContainer

/-! # Sizes that wrap

`DIV_ROUNDUP` adds before it divides and `stack_new` multiplies without a
check, so a size next to `2 ^ 64` becomes a request for few pages. This file
says for each of `alloc`, `realloc` and `stack_new` on which sizes the block it
returns is large enough. The block's pages are read off its own metadata, so
that blocks made for a wrapped size are covered as well. -/
namespace Cynix.Lib.AllocSizes
open Cynix.Base.Bytes Cynix.Base.Pages Cynix.Lib.Misc Cynix.Mm Cynix.Mm.Pmm Cynix.Lib.Alloc
open Cynix.Lib.AllocRuns Cynix.Lib.StackContainer

variable {σ : Type}

/-- The pages of the block at `ptr` as its metadata give them, the metadata page first. -/
def blockRange (hhdm : Nat) (mem : Mem) (ptr : Nat) : Range :=
  (ptr - pageSize - hhdm, read64 mem (ptr - pageSize) + 1)

/-- `ptr` is a block of the heap: the page allocator has handed out the pages
its metadata name. -/
structure Granted (A : PageAllocator σ) (hhdm : Nat) (h : Heap σ) (ptr : Nat) : Prop where
  low : hhdm + pageSize ≤ ptr
  live : blockRange hhdm h.mem ptr ∈ A.live h.pmm
  fits : (blockRange hhdm h.mem ptr).1 + (blockRange hhdm h.mem ptr).2 * 4096 < 2 ^ 64

/-- The bytes from `ptr` on are usable: they lie in pages the block owns. -/
structure Usable (A : PageAllocator σ) (hhdm : Nat) (h : Heap σ) (ptr size : Nat) : Prop where
  live : blockRange hhdm h.mem ptr ∈ A.live h.pmm
  inside : ∀ i, i < size → OwnsAt hhdm (blockRange hhdm h.mem ptr) (ptr + i)

/-- A call panics, or its block has `size` usable bytes. -/
def Serves (A : PageAllocator σ) (hhdm size : Nat) (r : Option (Nat × Heap σ)) : Prop :=
  ∀ ptr h', r = some (ptr, h') → Usable A hhdm h' ptr size

/-- `stack_new` panics, or the stack's header and its items have their memory:
it takes `nmemb` pushes, all inside the pages of the block at `base`. -/
def StackServes (A : PageAllocator σ) (hhdm nmemb : Nat) (r : Option (Nat × Stack × Heap σ)) : Prop :=
  ∀ ptr stack h', r = some (ptr, stack, h') → Usable A hhdm h' ptr stackSize ∧
    blockRange hhdm h'.mem stack.base ∈ A.live h'.pmm ∧
    Accepts hhdm (blockRange hhdm h'.mem stack.base) nmemb stack h'.mem

/-- The page allocator runs out of memory on these requests, made in this order. -/
def outOfMemory (A : PageAllocator σ) : List Nat → σ → Bool
  | [], _ => false
  | n :: ns, s =>
    match A.alloc n s with
    | none => true
    | some (_, s') => outOfMemory A ns s'

variable {A : PageAllocator σ} {hhdm : Nat} {h h' : Heap σ} {ptr size : Nat}

/-! ## Blocks -/

theorem Granted.of_inv {others : List Range} {bs : List Block} (hi : HeapInv A hhdm others h bs)
    {b : Block} (hb : b ∈ bs) : Granted A hhdm h b.ptr := by
  have hr : blockRange hhdm h.mem b.ptr = b.range hhdm := by
    unfold blockRange Block.range
    rw [(hi.ok b hb).metaPages]
  exact ⟨(hi.ok b hb).low, hr ▸ hi.mem_live hb, hr ▸ hi.fits b hb⟩

/-- A block whose metadata name the pages they named is one as long as these are live. -/
theorem Granted.of_range (hg : Granted A hhdm h ptr) (hr : blockRange hhdm h'.mem ptr = blockRange hhdm h.mem ptr)
    (hlive : blockRange hhdm h.mem ptr ∈ A.live h'.pmm) : Granted A hhdm h' ptr := by
  refine ⟨hg.low, ?_, ?_⟩
  · rw [hr]
    exact hlive
  · rw [hr]
    exact hg.fits

/-- Every live block of a run of the heap is one that `realloc` may be called on. -/
theorem Granted.of_run {pmm : σ} {mem : Mem} {s : Sys σ} (hp : (A.live pmm).Pairwise Apart)
    (hr : Relation.ReflTransGen (Step A hhdm) ⟨⟨pmm, mem⟩, []⟩ s) {b : Block} (hb : b ∈ s.blocks) :
    Granted A hhdm s.heap b.ptr :=
  .of_inv ((HeapInv.start hp).run hr) hb

/-- Usable bytes are covered by the pages on record. -/
theorem Usable.le (hu : Usable A hhdm h ptr size) (hlow : hhdm + pageSize ≤ ptr) :
    size ≤ read64 h.mem (ptr - pageSize) * 4096 := by
  cases size with
  | zero => exact Nat.zero_le _
  | succ n =>
    have hin := hu.inside n (Nat.lt_succ_self n)
    unfold OwnsAt blockRange at hin
    simp only at hin
    unfold pageSize at *
    omega

theorem Granted.usable_iff (hg : Granted A hhdm h ptr) :
    Usable A hhdm h ptr size ↔ size ≤ read64 h.mem (ptr - pageSize) * 4096 := by
  constructor
  · intro hu
    exact hu.le hg.low
  · intro hle
    have hlow := hg.low
    refine ⟨hg.live, ?_⟩
    intro i hi
    unfold OwnsAt blockRange
    simp only
    unfold pageSize at *
    omega

/-- Rounding up loses pages exactly when the sum wraps. -/
theorem size_le_pages_iff (hs : size < 2 ^ 64) :
    size ≤ divRoundup size pageSize * 4096 ↔ size + 4095 < 2 ^ 64 := by
  constructor
  · intro hle
    unfold divRoundup pageSize at hle
    omega
  · exact size_le_pages

/-- A size that wraps asks for the metadata page only. -/
theorem divRoundup_wrapped (hs : size < 2 ^ 64) (hw : ¬ size + 4095 < 2 ^ 64) :
    divRoundup size pageSize = 0 := by
  unfold divRoundup pageSize
  omega

/-! ## `alloc` -/

theorem alloc_none_iff : alloc A hhdm size h = none ↔
    A.alloc (divRoundup size pageSize + 1) h.pmm = none := by
  have hlt := divRoundup_page_lt size
  unfold alloc pmmAllocVia
  simp only [Nat.mod_eq_of_lt (show divRoundup size pageSize + 1 < 2 ^ 64 by omega)]
  cases A.alloc (divRoundup size pageSize + 1) h.pmm with
  | none => simp
  | some r => simp

/-- The new block, whatever the size: its pages are on record and it owns them. -/
theorem alloc_granted (ha : alloc A hhdm size h = some (ptr, h')) :
    Granted A hhdm h' ptr ∧ read64 h'.mem (ptr - pageSize) = divRoundup size pageSize := by
  have hlt := divRoundup_page_lt size
  obtain ⟨page, hA, rfl, hmem⟩ := alloc_some ha
  have hpages : read64 h'.mem (page + hhdm + pageSize - pageSize) = divRoundup size pageSize := by
    rw [hmem, Nat.add_sub_cancel, read64_write64_ne (by omega), read64_write64_of_lt (by omega)]
  have hr : blockRange hhdm h'.mem (page + hhdm + pageSize) = (page, divRoundup size pageSize + 1) := by
    unfold blockRange
    rw [hpages, Nat.add_sub_cancel, Nat.add_sub_cancel]
  refine ⟨⟨by omega, ?_, ?_⟩, hpages⟩
  · rw [hr, A.alloc_live hA]
    exact List.mem_cons_self
  · rw [hr]
    exact A.alloc_fits (by omega) hA

/-- The metadata words of a block lie in its first page. -/
theorem metadata_mem {ptr : Nat} {mem : Mem} (hlow : hhdm + pageSize ≤ ptr) {x : Nat}
    (h1 : ptr - pageSize ≤ x) (h2 : x < ptr - pageSize + 8) : OwnsAt hhdm (blockRange hhdm mem ptr) x := by
  unfold OwnsAt blockRange
  simp only
  unfold pageSize at *
  omega

/-- The blocks that were there stay, with the pages they had, apart from the new one. -/
theorem alloc_keeps (ha : alloc A hhdm size h = some (ptr, h')) {q : Nat} (hg : Granted A hhdm h q) :
    Granted A hhdm h' q ∧ read64 h'.mem (q - pageSize) = read64 h.mem (q - pageSize) ∧
      Apart (blockRange hhdm h'.mem ptr) (blockRange hhdm h'.mem q) := by
  have hpages := (alloc_granted ha).2
  obtain ⟨page, hA, hptr, -⟩ := alloc_some ha
  have hp : ptr - pageSize - hhdm = page := by rw [hptr, Nat.add_sub_cancel, Nat.add_sub_cancel]
  have hap : Apart (ptr - pageSize - hhdm, divRoundup size pageSize + 1) (blockRange hhdm h.mem q) := by
    rw [hp]
    exact A.alloc_apart (by omega) hA _ hg.live
  have hread : read64 h'.mem (q - pageSize) = read64 h.mem (q - pageSize) := by
    apply read64_congr
    intro x h1 h2
    exact alloc_out ha (hap.symm.not_ownsAt (metadata_mem hg.low h1 h2))
  have hr : blockRange hhdm h'.mem q = blockRange hhdm h.mem q := by
    unfold blockRange
    rw [hread]
  refine ⟨hg.of_range hr ?_, hread, ?_⟩
  · rw [A.alloc_live hA]
    exact List.mem_cons_of_mem _ hg.live
  · rw [hr]
    unfold blockRange at hap ⊢
    rw [hpages]
    exact hap

theorem alloc_usable_iff (hs : size < 2 ^ 64) (ha : alloc A hhdm size h = some (ptr, h')) :
    Usable A hhdm h' ptr size ↔ size + 4095 < 2 ^ 64 := by
  obtain ⟨hg, hpages⟩ := alloc_granted ha
  rw [hg.usable_iff, hpages, size_le_pages_iff hs]

theorem outOfMemory_one {n : Nat} {s : σ} : outOfMemory A [n] s ↔ A.alloc n s = none := by
  unfold outOfMemory
  cases A.alloc n s with
  | none => simp
  | some r => simp [outOfMemory]

theorem not_outOfMemory_head {n : Nat} {ns : List Nat} {s : σ} (h : outOfMemory A (n :: ns) s = false) :
    A.alloc n s ≠ none := by
  intro hn
  simp [outOfMemory, hn] at h

/-- A size that wraps panics only if not even one page is left. -/
theorem alloc_wrapped_none_iff (hs : size < 2 ^ 64) (hw : ¬ size + 4095 < 2 ^ 64) :
    alloc A hhdm size h = none ↔ outOfMemory A [1] h.pmm := by
  rw [alloc_none_iff, divRoundup_wrapped hs hw, outOfMemory_one]

/-- Both calls: the size decides about the block, and a bad size is harmless
only where the call panics on it. -/
theorem serves_iff {r : Option (Nat × Heap σ)} {P Q : Prop}
    (hu : ∀ ptr h', r = some (ptr, h') → (Usable A hhdm h' ptr size ↔ P)) (hn : ¬ P → (r = none ↔ Q)) :
    Serves A hhdm size r ↔ P ∨ Q := by
  by_cases hP : P
  · refine iff_of_true ?_ (Or.inl hP)
    intro ptr h' hr
    exact (hu ptr h' hr).mpr hP
  · rw [or_iff_right hP, ← hn hP]
    constructor
    · intro hserves
      cases hr : r with
      | none => rfl
      | some b => exact absurd ((hu _ _ hr).mp (hserves _ _ hr)) hP
    · intro hnone ptr h' hr
      rw [hnone] at hr
      cases hr

theorem alloc_serves_iff (hs : size < 2 ^ 64) :
    Serves A hhdm size (alloc A hhdm size h) ↔ size + 4095 < 2 ^ 64 ∨ outOfMemory A [1] h.pmm :=
  serves_iff (fun _ _ ha => alloc_usable_iff hs ha) (alloc_wrapped_none_iff hs)

/-! ## `realloc` -/

theorem Granted.ptr_ne_zero (hg : Granted A hhdm h ptr) : ptr ≠ 0 := by
  have hlow := hg.low
  unfold pageSize at hlow
  omega

/-- A block is the same block as long as its metadata page is not written. -/
theorem Granted.congr (hg : Granted A hhdm h ptr) (m' : Mem)
    (hm : ∀ x, ptr - pageSize ≤ x → x < ptr - pageSize + 8 → m' x = h.mem x) :
    Granted A hhdm { h with mem := m' } ptr ∧ blockRange hhdm m' ptr = blockRange hhdm h.mem ptr := by
  have hr : blockRange hhdm m' ptr = blockRange hhdm h.mem ptr := by
    unfold blockRange
    rw [read64_congr hm]
  exact ⟨hg.of_range hr hg.live, hr⟩

/-- `free` gives back the pages the block owns. -/
theorem Granted.free_eq (hg : Granted A hhdm h ptr) : free A hhdm ptr h =
    pmmFreeVia A hhdm (blockRange hhdm h.mem ptr).1 (blockRange hhdm h.mem ptr).2 h := by
  have hfit := hg.fits
  unfold blockRange at hfit
  simp only at hfit
  unfold free blockRange
  rw [if_neg hg.ptr_ne_zero]
  simp only [Nat.mod_eq_of_lt (show read64 h.mem (ptr - pageSize) + 1 < 2 ^ 64 by omega)]

/-- After the copy and the release of the old block the new one's metadata are
as `alloc` wrote them, however long the copy was. -/
theorem moved_pages {newPtr n : Nat} {h₁ : Heap σ} (hg : Granted A hhdm h ptr)
    (ha : alloc A hhdm size h = some (newPtr, h₁)) :
    read64 (free A hhdm ptr { h₁ with mem := copyUp h₁.mem newPtr ptr n }).mem (newPtr - pageSize) =
      divRoundup size pageSize := by
  obtain ⟨hnew, hpages⟩ := alloc_granted ha
  obtain ⟨hold, -, hap⟩ := alloc_keeps ha hg
  have hlow := hold.low
  have hnlow := hnew.low
  rw [← hpages]
  apply read64_congr
  intro x h1 h2
  have hx : x < newPtr := by unfold pageSize at *; omega
  have hcopy : copyUp h₁.mem newPtr ptr n x = h₁.mem x := copyUp_out (Or.inl hx)
  rw [← hcopy]
  by_cases hbelow : newPtr - pageSize < ptr - pageSize
  · -- the new block lies below: the fill runs upwards from the old one
    have hpage : x < ptr - pageSize - hhdm + hhdm := by
      unfold Apart blockRange at hap
      simp only at hap
      unfold pageSize at *
      omega
    unfold free
    rw [if_neg hold.ptr_ne_zero]
    exact fill64_out (Or.inl hpage)
  · -- the old block lies below: the copy has left its metadata alone
    obtain ⟨hold', hr⟩ := hold.congr (copyUp h₁.mem newPtr ptr n) fun y hy1 hy2 =>
      copyUp_out (Or.inl (by unfold pageSize at *; omega))
    rw [hold'.free_eq]
    apply fillPages_out hold'.fits
    rw [hr]
    exact hap.not_ownsAt (metadata_mem hnlow h1 h2)

/-- A copy that stays in the new block leaves the release of the old one exact. -/
theorem moved_granted {newPtr n : Nat} {h₁ : Heap σ} (hg : Granted A hhdm h ptr)
    (ha : alloc A hhdm size h = some (newPtr, h₁)) (hn : n ≤ divRoundup size pageSize * 4096) :
    Granted A hhdm (free A hhdm ptr { h₁ with mem := copyUp h₁.mem newPtr ptr n }) newPtr := by
  obtain ⟨hnew, hpages⟩ := alloc_granted ha
  obtain ⟨hold, -, hap⟩ := alloc_keeps ha hg
  have hnlow := hnew.low
  have hlow := hold.low
  have hrange : blockRange hhdm (free A hhdm ptr { h₁ with mem := copyUp h₁.mem newPtr ptr n }).mem newPtr =
      blockRange hhdm h₁.mem newPtr := by
    unfold blockRange
    rw [moved_pages hg ha, hpages]
  have hapart := hap
  unfold Apart blockRange at hapart
  simp only [hpages] at hapart
  obtain ⟨hold', hr⟩ := hold.congr (copyUp h₁.mem newPtr ptr n) fun y hy1 hy2 =>
    copyUp_out (by unfold pageSize at *; omega)
  have hlive : A.live (free A hhdm ptr { h₁ with mem := copyUp h₁.mem newPtr ptr n }).pmm =
      (A.live h₁.pmm).erase (blockRange hhdm h₁.mem ptr) := by
    rw [hold'.free_eq, hr]
    exact A.free_live hold.live
  refine hnew.of_range hrange ?_
  rw [hlive]
  refine (List.mem_erase_of_ne ?_).mpr hnew.live
  intro heq
  rw [heq] at hap
  unfold Apart blockRange at hap
  simp only at hap
  omega

/-- The block that `realloc` returns: the size decides whether it is large enough. -/
theorem realloc_usable_iff {newPtr : Nat} (hg : Granted A hhdm h ptr) (hs : size < 2 ^ 64)
    (hr : realloc A hhdm ptr size h = some (newPtr, h')) :
    Usable A hhdm h' newPtr size ↔ size + 4095 < 2 ^ 64 := by
  rw [← size_le_pages_iff hs]
  unfold realloc at hr
  rw [if_neg hg.ptr_ne_zero] at hr
  simp only at hr
  split at hr
  · rename_i hpages
    simp only [Option.some.injEq, Prod.mk.injEq] at hr
    obtain ⟨rfl, rfl⟩ := hr
    have hg' := (hg.congr (write64 h.mem (ptr - pageSize + 8) size) fun x _ _ =>
      write64_out (by omega)).1
    rw [hg'.usable_iff, ← hpages, read64_write64_ne (by omega)]
  · split at hr
    · rename_i newPtr' h₁ ha
      simp only [Option.some.injEq, Prod.mk.injEq] at hr
      obtain ⟨rfl, rfl⟩ := hr
      have hpages := moved_pages (n := min size (read64 h₁.mem (ptr - pageSize + 8))) hg ha
      constructor
      · intro hu
        have hle := hu.le (alloc_granted ha).1.low
        rwa [hpages] at hle
      · intro hle
        rw [(moved_granted hg ha (by omega)).usable_iff, hpages]
        exact hle
    · cases hr

/-- A size that wraps is refused only for want of a page, and a block that has
no page of its own is resized in place. -/
theorem realloc_wrapped_none_iff (hg : Granted A hhdm h ptr) (hs : size < 2 ^ 64)
    (hw : ¬ size + 4095 < 2 ^ 64) : realloc A hhdm ptr size h = none ↔
      outOfMemory A [1] h.pmm ∧ read64 h.mem (ptr - pageSize) ≠ 0 := by
  unfold realloc
  rw [if_neg hg.ptr_ne_zero, divRoundup_wrapped hs hw]
  by_cases hz : read64 h.mem (ptr - pageSize) = 0
  · simp [hz]
  · have hnone : alloc A hhdm size h = none ↔ _ := alloc_wrapped_none_iff hs hw
    simp only [if_neg hz, ← hnone]
    cases alloc A hhdm size h with
    | none => simp [hz]
    | some r => simp

theorem realloc_serves_iff (hs : size < 2 ^ 64) (hp : ptr = 0 ∨ Granted A hhdm h ptr) :
    Serves A hhdm size (realloc A hhdm ptr size h) ↔ size + 4095 < 2 ^ 64 ∨
      outOfMemory A [1] h.pmm ∧ (ptr = 0 ∨ read64 h.mem (ptr - pageSize) ≠ 0) := by
  rcases hp with rfl | hg
  · have hnull : realloc A hhdm 0 size h = alloc A hhdm size h := by simp [realloc]
    rw [hnull, alloc_serves_iff hs]
    simp
  · rw [or_iff_right (a := ptr = 0) hg.ptr_ne_zero]
    exact serves_iff (fun _ _ hr => realloc_usable_iff hg hs hr) (realloc_wrapped_none_iff hg hs)

/-! ## `stack_new` -/

variable {typeSize nmemb : Nat} {stack : Stack}

theorem divRoundup_stackSize : divRoundup stackSize pageSize = 1 := rfl

theorem stackNew_none_iff : stackNew A hhdm typeSize nmemb h = none ↔
    outOfMemory A [2, divRoundup (typeSize * nmemb % 2 ^ 64) pageSize + 1] h.pmm := by
  unfold stackNew outOfMemory
  cases ha : alloc A hhdm stackSize h with
  | none =>
    have hA := alloc_none_iff.mp ha
    rw [divRoundup_stackSize] at hA
    simp [hA]
  | some r =>
    obtain ⟨ptr, h₁⟩ := r
    obtain ⟨page, hA, -, -⟩ := alloc_some ha
    rw [divRoundup_stackSize] at hA
    have hnone : alloc A hhdm (typeSize * nmemb % 2 ^ 64) h₁ = none ↔ _ := alloc_none_iff
    simp only [hA, outOfMemory_one, ← hnone]
    cases alloc A hhdm (typeSize * nmemb % 2 ^ 64) h₁ with
    | none => simp
    | some r => simp

theorem stackNew_some (hn : stackNew A hhdm typeSize nmemb h = some (ptr, stack, h')) :
    ∃ h₁, alloc A hhdm stackSize h = some (ptr, h₁) ∧
      alloc A hhdm (typeSize * nmemb % 2 ^ 64) h₁ = some (stack.base, h') ∧
      stack.typeSize = typeSize ∧ stack.curOffset = typeSize * nmemb % 2 ^ 64 ∧
      stack.top = stack.base + typeSize * nmemb % 2 ^ 64 := by
  unfold stackNew at hn
  split at hn
  · cases hn
  · rename_i p h₁ ha
    simp only at hn
    split at hn
    · cases hn
    · rename_i base h₂ hb
      simp only [Option.some.injEq, Prod.mk.injEq] at hn
      obtain ⟨rfl, rfl, rfl⟩ := hn
      exact ⟨h₁, ha, hb, rfl, rfl, rfl⟩

/-- The header and the pages of the items are there in any case. -/
theorem stackNew_blocks (hn : stackNew A hhdm typeSize nmemb h = some (ptr, stack, h')) :
    Usable A hhdm h' ptr stackSize ∧ Granted A hhdm h' stack.base := by
  obtain ⟨h₁, ha, hb, -, -⟩ := stackNew_some hn
  obtain ⟨hg, hpages⟩ := alloc_granted ha
  obtain ⟨hg', hread, -⟩ := alloc_keeps hb hg
  refine ⟨?_, (alloc_granted hb).1⟩
  rw [hg'.usable_iff, hread, hpages, divRoundup_stackSize]
  decide

/-- A product that fits makes room for every push; one that wraps, or that the
rounding wraps, does not. -/
theorem stackNew_accepts_iff (ht : 1 ≤ typeSize)
    (hn : stackNew A hhdm typeSize nmemb h = some (ptr, stack, h')) :
    Accepts hhdm (blockRange hhdm h'.mem stack.base) nmemb stack h'.mem ↔
      typeSize * nmemb + 4095 < 2 ^ 64 := by
  obtain ⟨h₁, -, hb, htype, hcur, -⟩ := stackNew_some hn
  obtain ⟨hg, hpages⟩ := alloc_granted hb
  constructor
  · intro hacc
    have hroom := hacc.room
    rw [htype, hcur, Nat.mul_comm nmemb] at hroom
    have hfit : typeSize * nmemb < 2 ^ 64 := by omega
    rw [Nat.mod_eq_of_lt hfit] at hcur hpages
    by_contra hw
    -- the block has its metadata page only, and the first push lies above it
    rw [divRoundup_wrapped hfit hw] at hpages
    cases nmemb with
    | zero => omega
    | succ n =>
      have hlow := hg.low
      have hin := hacc.first (by omega)
      unfold OwnsAt blockRange at hin
      simp only [hpages] at hin
      unfold pageSize at *
      omega
  · intro hfit
    rw [Nat.mod_eq_of_lt (by omega)] at hcur hpages
    have hsz := size_le_pages hfit
    apply accepts_of_room
    · rw [htype, hcur, Nat.mul_comm]
    · intro i hi
      have hu : Usable A hhdm h' stack.base (typeSize * nmemb) := by
        rw [hg.usable_iff, hpages]
        exact hsz
      exact hu.inside i (by omega)

theorem stackNew_serves_iff (ht : 1 ≤ typeSize) :
    StackServes A hhdm nmemb (stackNew A hhdm typeSize nmemb h) ↔ typeSize * nmemb + 4095 < 2 ^ 64 ∨
      outOfMemory A [2, divRoundup (typeSize * nmemb % 2 ^ 64) pageSize + 1] h.pmm := by
  have hnone : stackNew A hhdm typeSize nmemb h = none ↔ _ := stackNew_none_iff
  rw [← hnone]
  cases hn : stackNew A hhdm typeSize nmemb h with
  | none =>
    refine iff_of_true ?_ (Or.inr rfl)
    intro ptr stack h' heq
    cases heq
  | some r =>
    obtain ⟨ptr, stack, h'⟩ := r
    obtain ⟨hheader, hg⟩ := stackNew_blocks hn
    rw [or_iff_left (by simp), ← stackNew_accepts_iff ht hn]
    constructor
    · intro hserves
      exact (hserves ptr stack h' rfl).2.2
    · intro hacc ptr' stack' h'' heq
      cases heq
      exact ⟨hheader, hg.live, hacc⟩

/-- **The sizes each call can serve.** `alloc` and `realloc` keep their promise
on the sizes the rounding does not wrap and `stack_new` on the products it does
not wrap; on the others they keep it only by running out of memory first. -/
theorem sizes_serve_iff (A : PageAllocator σ) (hhdm : Nat) (h : Heap σ) :
    (∀ size, size < 2 ^ 64 → (Serves A hhdm size (alloc A hhdm size h) ↔
      size + (pageSize - 1) < 2 ^ 64 ∨ outOfMemory A [1] h.pmm)) ∧
    (∀ ptr size, size < 2 ^ 64 → ptr = 0 ∨ Granted A hhdm h ptr →
      (Serves A hhdm size (realloc A hhdm ptr size h) ↔ size + (pageSize - 1) < 2 ^ 64 ∨
        outOfMemory A [1] h.pmm ∧ (ptr = 0 ∨ read64 h.mem (ptr - pageSize) ≠ 0))) ∧
    (∀ typeSize nmemb, typeSize < 2 ^ 64 → nmemb < 2 ^ 64 → 1 ≤ typeSize →
      (StackServes A hhdm nmemb (stackNew A hhdm typeSize nmemb h) ↔
        typeSize * nmemb + (pageSize - 1) < 2 ^ 64 ∨
        outOfMemory A [2, divRoundup (typeSize * nmemb % 2 ^ 64) pageSize + 1] h.pmm)) := by
  refine ⟨?_, ?_, ?_⟩
  · intro size hs
    exact alloc_serves_iff hs
  · intro ptr size hs hp
    exact realloc_serves_iff hs hp
  · intro typeSize nmemb _ _ ht
    exact stackNew_serves_iff ht

theorem smallPmm_two_one : outOfMemory (PmmRuns.pmmAllocator _) [2, 1] smallPmm = false := by
  decide +kernel

/-- On the machine of eight pages: ordinary sizes are served. -/
theorem sizes_serve_iff_small : ∃ ptr h',
    alloc (PmmRuns.pmmAllocator _) 0 16 ⟨smallPmm, fun _ => 0⟩ = some (ptr, h') ∧
    Usable (PmmRuns.pmmAllocator _) 0 h' ptr 16 ∧
    Serves (PmmRuns.pmmAllocator _) 0 5000 (realloc (PmmRuns.pmmAllocator _) 0 ptr 5000 h') ∧
    StackServes (PmmRuns.pmmAllocator _) 0 16 (stackNew (PmmRuns.pmmAllocator _) 0 8 16 h') := by
  have hround : divRoundup 16 pageSize + 1 = 2 := by decide
  have hsome : alloc (PmmRuns.pmmAllocator _) 0 16 ⟨smallPmm, fun _ => 0⟩ ≠ none := by
    rw [Ne, alloc_none_iff, hround]
    exact fun hn => not_outOfMemory_head smallPmm_two_one hn
  obtain ⟨⟨ptr, h'⟩, ha⟩ := Option.ne_none_iff_exists'.mp hsome
  obtain ⟨halloc, -, -⟩ := sizes_serve_iff (PmmRuns.pmmAllocator _) 0 ⟨smallPmm, fun _ => 0⟩
  obtain ⟨-, hrealloc, hstack⟩ := sizes_serve_iff (PmmRuns.pmmAllocator _) 0 h'
  refine ⟨ptr, h', ha, ?_, ?_, ?_⟩
  · exact (halloc 16 (by decide)).mpr (Or.inl (by decide)) ptr h' ha
  · exact (hrealloc ptr 5000 (by decide) (Or.inr (alloc_granted ha).1)).mpr (Or.inl (by decide))
  · exact (hstack 8 16 (by decide) (by decide) (by decide)).mpr (Or.inl (by decide))

/-- The largest size and a product of `2 ^ 64` get a block without a single usable byte. -/
theorem sizes_wrap_small :
    ¬ Serves (PmmRuns.pmmAllocator _) 0 (2 ^ 64 - 1)
      (alloc (PmmRuns.pmmAllocator _) 0 (2 ^ 64 - 1) ⟨smallPmm, fun _ => 0⟩) ∧
    ¬ StackServes (PmmRuns.pmmAllocator _) 0 (2 ^ 32)
      (stackNew (PmmRuns.pmmAllocator _) 0 (2 ^ 32) (2 ^ 32) ⟨smallPmm, fun _ => 0⟩) := by
  have hone : outOfMemory (PmmRuns.pmmAllocator _) [1] smallPmm = false := by decide +kernel
  have hzero : divRoundup (2 ^ 32 * 2 ^ 32 % 2 ^ 64) pageSize = 0 := by decide
  constructor
  · rw [alloc_serves_iff (by decide), hone]
    decide
  · rw [stackNew_serves_iff (by decide), hzero, smallPmm_two_one]
    decide

end Cynix.Lib.AllocSizes
