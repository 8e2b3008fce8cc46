import Cynix.Lib.VectorRuns

/-! # Several vectors on one heap

A family of vectors, each with a block of its own or none yet. A push on one
of them may move its block; the blocks of the others are live all the while,
so their elements stay. Bytes in no page that the allocator hands out stay in
any case. -/
namespace Cynix.Lib.VectorFamily
open Cynix.Base.Bytes Cynix.Base.Pages Cynix.Base.Cells Cynix.Lib.Misc Cynix.Mm.Pmm Cynix.Lib.Alloc
open Cynix.Lib.AllocRuns Cynix.Lib.AllocSizes Cynix.Lib.Vector Cynix.Lib.VectorRuns

variable {σ α ι : Type} {A : PageAllocator σ} {hhdm : Nat} {T : CType α} {others : List Range}
  {h h' : Heap σ} {vec vec' : Vec} {l : List α} {rest : List Block} {b : Block} {size ptr x : Nat}

/-! ## Bytes that are never handed out -/

/-- A byte that lies in no block of pages that the allocator hands out. -/
def Reserved (A : PageAllocator σ) (hhdm x : Nat) : Prop :=
  ∀ n s a s', 1 ≤ n → A.alloc n s = some (a, s') → ¬ OwnsAt hhdm (a, n) x

/-- The pages of a block at `ptr` with room for `size` bytes. -/
def pagesAt (hhdm ptr size : Nat) : Range := (ptr - pageSize - hhdm, divRoundup size pageSize + 1)

theorem alloc_reserved (hx : Reserved A hhdm x) (ha : alloc A hhdm size h = some (ptr, h')) :
    h'.mem x = h.mem x ∧ ¬ OwnsAt hhdm (pagesAt hhdm ptr size) x := by
  obtain ⟨page, hpage, hptr, -⟩ := alloc_some ha
  have hout : ¬ OwnsAt hhdm (pagesAt hhdm ptr size) x := by
    have hpages : pagesAt hhdm ptr size = (page, divRoundup size pageSize + 1) := by
      rw [pagesAt, hptr, Nat.add_sub_cancel, Nat.add_sub_cancel]
    rw [hpages]
    exact hx _ _ _ _ (by omega) hpage
  exact ⟨alloc_out ha hout, hout⟩

/-- The copy of `realloc` stays in the pages of the new block. -/
theorem copyUp_reserved {mem : Mem} {src n : Nat} (hlow : hhdm + pageSize ≤ ptr) (hs : size + 4095 < 2 ^ 64)
    (hn : n ≤ size) (hx : ¬ OwnsAt hhdm (pagesAt hhdm ptr size) x) : copyUp mem ptr src n x = mem x := by
  have hpages := size_le_pages hs
  apply copyUp_out
  unfold OwnsAt pagesAt pageSize at *
  simp only at hx
  omega

theorem realloc_reserved (hi : HeapInv A hhdm others h (b :: rest)) (hx : Reserved A hhdm x)
    (hb : ¬ OwnsAt hhdm (b.range hhdm) x) (hs : size + 4095 < 2 ^ 64)
    (hr : realloc A hhdm b.ptr size h = some (ptr, h')) :
    h'.mem x = h.mem x ∧ ¬ OwnsAt hhdm (pagesAt hhdm ptr size) x := by
  have hok := hi.ok b List.mem_cons_self
  have hlow := hok.low
  unfold realloc at hr
  rw [if_neg (BlockOk.ptr_ne_zero hok)] at hr
  simp only [hok.metaPages] at hr
  split at hr
  · rename_i hp
    simp only [Option.some.injEq, Prod.mk.injEq] at hr
    obtain ⟨rfl, rfl⟩ := hr
    have hsame : pagesAt hhdm b.ptr size = b.range hhdm := by rw [pagesAt, ← hp, Block.range]
    refine ⟨write64_out ?_, hsame ▸ hb⟩
    unfold OwnsAt Block.range pageSize at hb
    unfold pageSize at hlow ⊢
    simp only at hb
    omega
  · split at hr
    · rename_i newPtr h₁ ha
      obtain ⟨hmem, hout⟩ := alloc_reserved hx ha
      have hi₁ := hi.alloc hs ha
      have hnew := hi₁.ok ⟨newPtr, size, fun _ => 0⟩ List.mem_cons_self
      have hold := hi₁.ok b (by simp)
      simp only [hold.metaSize, Option.some.injEq, Prod.mk.injEq] at hr
      obtain ⟨rfl, rfl⟩ := hr
      refine ⟨?_, hout⟩
      have hcopy : ∀ y, ¬ OwnsAt hhdm (pagesAt hhdm newPtr size) y →
          copyUp h₁.mem newPtr b.ptr (min size b.size) y = h₁.mem y :=
        fun y hy => copyUp_reserved hnew.low hs (min_le_left size b.size) hy
      -- the copy leaves the old block on record, so that its own pages are given back
      have hap : Apart (pagesAt hhdm newPtr size) (b.range hhdm) :=
        (List.pairwise_cons.mp hi₁.pairwise).1 _ (by simp)
      have hrec := hold.congr fun y hy => hcopy y (hap.symm.not_ownsAt hy)
      rw [free_eq hrec (BlockOk.ptr_ne_zero hrec)]
      change fillPages hhdm _ _ _ _ x = _
      rw [fillPages_out (hi.fits b List.mem_cons_self) hb]
      exact (hcopy x hout).trans hmem
    · cases hr

/-! ## A push -/

/-- The block of the vector, if it has one, does not own the byte. -/
def Clear (hhdm : Nat) (T : CType α) (vec : Vec) (x : Nat) : Prop :=
  vec.capacity ≠ 0 → ¬ OwnsAt hhdm (pagesAt hhdm vec.data (vec.capacity * T.size)) x

theorem ensureLength_reserved (hv : VecOk A hhdm T others h vec l rest) (hx : Reserved A hhdm x)
    (hc : Clear hhdm T vec x) (he : vectorEnsureLength A hhdm T vec.length vec h = some (vec', h')) :
    h'.mem x = h.mem x ∧ Clear hhdm T vec' x := by
  rcases hv.ensureLength_cases he with ⟨capacity, data, -, -, -, hfit, hr, rfl⟩ | ⟨-, rfl, rfl⟩
  · obtain ⟨bytes, hi⟩ := hv.heap
    unfold ownBlock at hi
    by_cases hz : vec.capacity = 0
    · rw [hv.null hz] at hr
      have ha : Alloc.alloc A hhdm (capacity * T.size) h = some (data, h') := by
        simpa [Alloc.realloc] using hr
      obtain ⟨hmem, hout⟩ := alloc_reserved hx ha
      exact ⟨hmem, fun _ => hout⟩
    · rw [if_neg hz] at hi
      have hi' : HeapInv A hhdm others h (⟨vec.data, vec.capacity * T.size, bytes⟩ :: rest) := hi
      obtain ⟨hmem, hout⟩ := realloc_reserved hi' hx (hc hz) hfit hr
      exact ⟨hmem, fun _ => hout⟩
  · exact ⟨rfl, hc⟩

theorem pushBack_reserved (hA : A.Below (2 ^ 52)) (hv : VecOk A hhdm T others h vec l rest)
    (hx : Reserved A hhdm x) (hc : Clear hhdm T vec x) {value : α} {r : Ran σ Nat}
    (hr : vectorPushBack A hhdm T value vec h = some r) :
    r.heap.mem x = h.mem x ∧ Clear hhdm T r.vec x := by
  obtain ⟨vec₁, h₁, he, rfl⟩ := vectorPushBack_some hr
  obtain ⟨hv₁, hlt⟩ := hv.ensureLength hA he
  obtain ⟨hmem, hc₁⟩ := ensureLength_reserved hv hx hc he
  refine ⟨?_, hc₁⟩
  have hne : vec₁.capacity ≠ 0 := by omega
  have hout := hc₁ hne
  have hsmall := (hv₁.small hne).1
  have hlow : hhdm + pageSize ≤ vec₁.data := by
    obtain ⟨bytes, hi⟩ := hv₁.heap
    unfold ownBlock at hi
    rw [if_neg hne] at hi
    exact (hi.ok ⟨vec₁.data, vec₁.capacity * T.size, bytes⟩ (by simp)).low
  have hle := addr_add_le (T := T) (d := vec₁.data) hlt
  have hge := le_addr (T := T) (d := vec₁.data) (i := vec₁.length)
  rw [← hmem]
  refine store_out ?_
  rw [hv₁.length] at hge ⊢
  unfold OwnsAt pagesAt pageSize at hout
  unfold pageSize at hlow hsmall
  simp only at hout
  omega

/-! ## Failure -/

section
variable {ks : List ι} {vecs : ι → Vec} {lists : ι → List α} {k : ι}

/-- The blocks of the vectors, in the order of their names. -/
def blocks (T : CType α) (ks : List ι) (vecs : ι → Vec) (data : ι → Nat → UInt8) : List Block :=
  ks.flatMap fun k => ownBlock T (vecs k) (data k)

/-- Each vector holds its list, and their blocks are blocks of one heap. -/
structure VecsOk (A : PageAllocator σ) (hhdm : Nat) (T : CType α) (others : List Range) (ks : List ι)
    (h : Heap σ) (vecs : ι → Vec) (lists : ι → List α) : Prop where
  heap : ∃ data, HeapInv A hhdm others h (blocks T ks vecs data)
  each : ∀ k ∈ ks, ∃ rest, VecOk A hhdm T others h (vecs k) (lists k) rest

theorem VecsOk.start {pmm : σ} {mem : Mem} (hp : (A.live pmm).Pairwise Apart) (ks : List ι) :
    VecsOk A hhdm T (A.live pmm) ks ⟨pmm, mem⟩ (fun _ => .initialiser) fun _ => [] := by
  have hnone : blocks T ks (fun _ : ι => Vec.initialiser) (fun _ _ => 0) = [] := by
    simp [blocks, ownBlock, Vec.initialiser]
  refine ⟨⟨fun _ _ => 0, ?_⟩, fun _ _ => ⟨[], VecOk.start hp⟩⟩
  rw [hnone]
  exact HeapInv.start hp

theorem mem_blocks (hk : k ∈ ks) (hc : (vecs k).capacity ≠ 0) (data : ι → Nat → UInt8) :
    ⟨(vecs k).data, (vecs k).capacity * T.size, data k⟩ ∈ blocks T ks vecs data := by
  refine List.mem_flatMap.mpr ⟨k, hk, ?_⟩
  rw [ownBlock, if_neg hc]
  exact List.mem_singleton_self _

/-- Where the block of a vector is live before and after, its elements are the same. -/
theorem elems_kept {data : ι → Nat → UInt8} {vecs' : ι → Vec} {data' : ι → Nat → UInt8}
    (hi : HeapInv A hhdm others h (blocks T ks vecs data))
    (hi' : HeapInv A hhdm others h' (blocks T ks vecs' data')) (hk : k ∈ ks) (hvec : vecs' k = vecs k)
    (hdata : data' k = data k) (hroom : (lists k).length ≤ (vecs k).capacity)
    (he : Elems T h.mem (vecs k).data (lists k)) : Elems T h'.mem (vecs k).data (lists k) := by
  refine he.congr fun z hz => ?_
  have hmul : (lists k).length * T.size ≤ (vecs k).capacity * T.size := Nat.mul_le_mul_right _ hroom
  have hc : (vecs k).capacity ≠ 0 := by
    intro hc
    rw [hc, Nat.zero_mul] at hmul
    omega
  have hbefore := (hi.ok _ (mem_blocks hk hc data)).data z (by simp only; omega)
  have hc' : (vecs' k).capacity ≠ 0 := hvec ▸ hc
  have hafter := (hi'.ok _ (mem_blocks hk hc' data')).data z (by simp only [hvec]; omega)
  simp only [hvec, hdata] at hbefore hafter
  rw [hbefore, hafter]

variable [DecidableEq ι]

theorem blocks_perm (hk : k ∈ ks) (data : ι → Nat → UInt8) :
    (blocks T ks vecs data).Perm (ownBlock T (vecs k) (data k) ++ blocks T (ks.erase k) vecs data) :=
  (List.perm_cons_erase hk).flatMap_right _

/-- A vector of the family, with the blocks of the others around it. -/
theorem VecsOk.vecOk (hv : VecsOk A hhdm T others ks h vecs lists) (hk : k ∈ ks) {data : ι → Nat → UInt8}
    (hi : HeapInv A hhdm others h (blocks T ks vecs data)) :
    VecOk A hhdm T others h (vecs k) (lists k) (blocks T (ks.erase k) vecs data) := by
  obtain ⟨rest, hr⟩ := hv.each k hk
  exact ⟨hr.length, hr.room, hr.null, hr.small, ⟨data k, hi.perm (blocks_perm hk data)⟩, hr.elems⟩

/-- The other blocks do not depend on the vector that is pushed to. -/
theorem blocks_erase (hnd : ks.Nodup) (data : ι → Nat → UInt8) (v : Vec) (d : Nat → UInt8) :
    blocks T (ks.erase k) (Function.update vecs k v) (Function.update data k d) =
      blocks T (ks.erase k) vecs data := by
  refine List.flatMap_congr fun j hj => ?_
  have hne : j ≠ k := (hnd.mem_erase_iff.mp hj).1
  rw [Function.update_of_ne hne, Function.update_of_ne hne]

theorem VecsOk.pushBack (hA : A.Below (2 ^ 52)) (hnd : ks.Nodup) (hv : VecsOk A hhdm T others ks h vecs lists)
    (hk : k ∈ ks) {value : α} {r : Ran σ Nat} (hr : vectorPushBack A hhdm T value (vecs k) h = some r) :
    VecsOk A hhdm T others ks r.heap (Function.update vecs k r.vec)
      (Function.update lists k (lists k ++ [value])) := by
  obtain ⟨data, hi⟩ := hv.heap
  have hok := ((hv.vecOk hk hi).pushBack hA hr).1.ok
  obtain ⟨d, hd⟩ := hok.heap
  have hi' : HeapInv A hhdm others r.heap
      (blocks T ks (Function.update vecs k r.vec) (Function.update data k d)) := by
    refine hd.perm ?_
    have hp : (blocks T ks (Function.update vecs k r.vec) (Function.update data k d)).Perm _ := blocks_perm hk _
    rw [Function.update_self, Function.update_self, blocks_erase hnd] at hp
    exact hp.symm
  refine ⟨⟨_, hi'⟩, ?_⟩
  intro j hj
  by_cases hjk : j = k
  · subst hjk
    rw [Function.update_self, Function.update_self]
    exact ⟨_, hok⟩
  · obtain ⟨rest, hrest⟩ := hv.each j hj
    have hvec : Function.update vecs k r.vec j = vecs j := Function.update_of_ne hjk _ _
    have hdata : Function.update data k d j = data j := Function.update_of_ne hjk _ _
    have hroom : (lists j).length ≤ (vecs j).capacity := hrest.length ▸ hrest.room
    have helems := elems_kept hi hi' hj hvec hdata hroom hrest.elems
    have hheap := hi'.perm (blocks_perm hj _)
    rw [hvec, hdata] at hheap
    rw [hvec, Function.update_of_ne hjk]
    exact ⟨_, hrest.length, hrest.room, hrest.null, hrest.small, ⟨_, hheap⟩, helems⟩

end

end Cynix.Lib.VectorFamily
