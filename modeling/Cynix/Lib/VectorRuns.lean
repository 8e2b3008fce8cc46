import Cynix.Lib.Vector

/-! # Vectors refine lists

A run is any sequence of the four macros that change a vector, and between them
anything the other users of the heap do with their own blocks. The vector
starts empty and unallocated; the list beside it goes through the corresponding
list operations. The invariant ties the two: the vector's block is a live block
of the heap with room for `capacity` elements, and its first cells hold the
list. -/
namespace Cynix.Lib.VectorRuns
open Cynix.Base.Bytes Cynix.Base.Pages Cynix.Base.Cells Cynix.Lib.Misc Cynix.Lib.Alloc
open Cynix.Lib.AllocRuns Cynix.Lib.AllocSizes Cynix.Lib.Vector

variable {σ α : Type} {A : PageAllocator σ} {hhdm : Nat} {T : CType α}

/-- The block of a vector; there is none before the first growth. -/
def ownBlock (T : CType α) (vec : Vec) (data : Nat → UInt8) : List Block :=
  if vec.capacity = 0 then [] else [⟨vec.data, vec.capacity * T.size, data⟩]

structure VecOk (A : PageAllocator σ) (hhdm : Nat) (T : CType α) (others : List Range) (h : Heap σ)
    (vec : Vec) (l : List α) (rest : List Block) : Prop where
  length : vec.length = l.length
  room : vec.length ≤ vec.capacity
  null : vec.capacity = 0 → vec.data = 0
  small : vec.capacity ≠ 0 → vec.capacity * T.size ≤ divRoundup (vec.capacity * T.size) pageSize * 4096 ∧
    divRoundup (vec.capacity * T.size) pageSize * 4096 ≤ 2 ^ 52
  heap : ∃ data, HeapInv A hhdm others h (ownBlock T vec data ++ rest)
  elems : Elems T h.mem vec.data l

variable {others : List Range} {h h' : Heap σ} {vec vec' : Vec} {l : List α} {rest : List Block}

theorem VecOk.start {pmm : σ} {mem : Mem} (hp : (A.live pmm).Pairwise Apart) :
    VecOk A hhdm T (A.live pmm) ⟨pmm, mem⟩ .initialiser [] [] :=
  ⟨rfl, Nat.le_refl _, fun _ => rfl, fun h => absurd rfl h, ⟨fun _ => 0, HeapInv.start hp⟩,
    fun i hi => absurd hi (Nat.not_lt_zero i)⟩

/-- A capacity whose block exists is far from wrapping. -/
theorem VecOk.capacity_le (hv : VecOk A hhdm T others h vec l rest) : vec.capacity ≤ 2 ^ 52 := by
  by_cases hc : vec.capacity = 0
  · rw [hc]
    exact Nat.zero_le _
  · obtain ⟨h1, h2⟩ := hv.small hc
    have := Nat.le_mul_of_pos_right vec.capacity T.pos
    omega

/-! ## Growth -/

/-- The pages of a block that `realloc` returns lie below the bound of the allocator. -/
theorem alloc_pages_le (hA : A.Below (2 ^ 52)) {size ptr : Nat}
    (ha : alloc A hhdm size h = some (ptr, h')) : divRoundup size pageSize * 4096 ≤ 2 ^ 52 := by
  obtain ⟨page, hpage, -, -⟩ := alloc_some ha
  have := hA _ _ _ _ (by omega) hpage
  omega

theorem realloc_pages_le (hA : A.Below (2 ^ 52)) {ptr size newPtr : Nat}
    (hold : ptr ≠ 0 → read64 h.mem (ptr - pageSize) * 4096 ≤ 2 ^ 52)
    (hr : realloc A hhdm ptr size h = some (newPtr, h')) :
    divRoundup size pageSize * 4096 ≤ 2 ^ 52 := by
  unfold realloc at hr
  split at hr
  · exact alloc_pages_le hA hr
  · rename_i hne
    simp only at hr
    split at hr
    · rename_i hpages
      rw [← hpages]
      exact hold hne
    · split at hr
      · rename_i ha
        exact alloc_pages_le hA ha
      · cases hr

/-- The page count on record for the vector's block. -/
theorem VecOk.pages_le (hv : VecOk A hhdm T others h vec l rest) (hne : vec.data ≠ 0) :
    read64 h.mem (vec.data - pageSize) * 4096 ≤ 2 ^ 52 := by
  have hz : vec.capacity ≠ 0 := fun hz => hne (hv.null hz)
  obtain ⟨data, hi⟩ := hv.heap
  unfold ownBlock at hi
  rw [if_neg hz] at hi
  rw [(hi.ok ⟨vec.data, vec.capacity * T.size, data⟩ (by simp)).metaPages]
  exact (hv.small hz).2

/-- The capacity after a growth: more than the length, and its bytes do not wrap. -/
theorem VecOk.grown (hv : VecOk A hhdm T others h vec l rest) (hfull : vec.length ≥ vec.capacity)
    {capacity : Nat} (hc : capacity = if vec.capacity = 0 then 8 else vec.capacity * 2 % 2 ^ 64) :
    vec.length < capacity ∧ vec.capacity ≤ capacity ∧ capacity ≠ 0 ∧ capacity * T.size + 4095 < 2 ^ 64 := by
  have hsmall := T.small
  have hroom := hv.room
  by_cases hz : vec.capacity = 0
  · rw [if_pos hz] at hc
    subst hc
    omega
  · have hle := hv.capacity_le
    rw [if_neg hz, Nat.mod_eq_of_lt (by omega)] at hc
    obtain ⟨h1, h2⟩ := hv.small hz
    have hmul : capacity * T.size = 2 * (vec.capacity * T.size) := by rw [hc]; ring
    omega

/-- `realloc` of the vector's block, or its first allocation: the bytes the old
block had are in the new one. -/
theorem VecOk.realloc (hv : VecOk A hhdm T others h vec l rest) {size ptr : Nat}
    (hs : size + 4095 < 2 ^ 64) (hr : Alloc.realloc A hhdm vec.data size h = some (ptr, h')) :
    (∃ data, HeapInv A hhdm others h' (⟨ptr, size, data⟩ :: rest)) ∧
      ∀ z, z < vec.capacity * T.size → z < size → h'.mem (ptr + z) = h.mem (vec.data + z) := by
  obtain ⟨data, hi⟩ := hv.heap
  unfold ownBlock at hi
  by_cases hz : vec.capacity = 0
  · rw [if_pos hz, List.nil_append] at hi
    rw [hv.null hz] at hr
    have ha : Alloc.alloc A hhdm size h = some (ptr, h') := by simpa [Alloc.realloc] using hr
    refine ⟨⟨_, hi.alloc hs ha⟩, ?_⟩
    intro z hlt
    simp [hz] at hlt
  · rw [if_neg hz] at hi
    have hold := (hi.ok ⟨vec.data, vec.capacity * T.size, data⟩ (by simp)).data
    have hnew : HeapInv A hhdm others h'
        ([] ++ Block.resized ⟨vec.data, vec.capacity * T.size, data⟩ ptr size h'.mem :: rest) :=
      HeapInv.realloc hi hs hr
    have hkept := (hnew.ok _ List.mem_cons_self).data
    refine ⟨⟨_, hnew⟩, ?_⟩
    intro z h1 h2
    rw [hold z h1]
    have hz' := hkept z h2
    simpa [Block.resized, h1, h2] using hz'

/-- What `VECTOR_ENSURE_LENGTH` does to a vector in order: none of its products wraps. -/
theorem VecOk.ensureLength_cases (hv : VecOk A hhdm T others h vec l rest)
    (he : vectorEnsureLength A hhdm T vec.length vec h = some (vec', h')) :
    (∃ capacity data, vec.length < capacity ∧ vec.capacity ≤ capacity ∧ capacity ≠ 0 ∧
      capacity * T.size + 4095 < 2 ^ 64 ∧
      Alloc.realloc A hhdm vec.data (capacity * T.size) h = some (data, h') ∧ vec' = { vec with data, capacity }) ∨
    (vec.length < vec.capacity ∧ vec' = vec ∧ h' = h) := by
  rcases vectorEnsureLength_some he with ⟨capacity, data, hfull, hc, hr, hvec⟩ | hroom
  · obtain ⟨hlt, hge, hne, hfit⟩ := hv.grown hfull hc
    rw [Nat.mod_eq_of_lt (by omega)] at hr
    exact .inl ⟨capacity, data, hlt, hge, hne, hfit, hr, hvec⟩
  · exact .inr hroom

/-- `VECTOR_ENSURE_LENGTH` keeps the elements and leaves room for one more. -/
theorem VecOk.ensureLength (hA : A.Below (2 ^ 52)) (hv : VecOk A hhdm T others h vec l rest)
    (he : vectorEnsureLength A hhdm T vec.length vec h = some (vec', h')) :
    VecOk A hhdm T others h' vec' l rest ∧ l.length < vec'.capacity := by
  have hlen := hv.length
  rcases hv.ensureLength_cases he with ⟨capacity, data, hlt, hge, hne, hfit, hr, rfl⟩ | ⟨hlt, rfl, rfl⟩
  · obtain ⟨⟨bytes, hi⟩, hkept⟩ := hv.realloc hfit hr
    refine ⟨⟨hv.length, hlt.le, fun hz => absurd hz hne, fun _ => ⟨size_le_pages hfit, ?_⟩,
      ⟨bytes, ?_⟩, ?_⟩, hlen ▸ hlt⟩
    · exact realloc_pages_le hA hv.pages_le hr
    · unfold ownBlock
      rw [if_neg hne]
      exact hi
    · refine hv.elems.congr ?_
      intro z hz
      have h1 : l.length * T.size ≤ vec.capacity * T.size :=
        Nat.mul_le_mul_right _ (hlen ▸ hv.room)
      have h2 : vec.capacity * T.size ≤ capacity * T.size := Nat.mul_le_mul_right _ hge
      exact hkept z (by omega) (by omega)
  · exact ⟨hv, by omega⟩

/-! ## The four macros -/

/-- A change inside the block's elements, up to its capacity. -/
theorem VecOk.update (hv : VecOk A hhdm T others h vec l rest) {m' : Mem} {l' : List α}
    (hroom : l'.length ≤ vec.capacity) (hc : vec.capacity ≠ 0) (he : Elems T m' vec.data l')
    (hm : ∀ z, z < vec.data ∨ vec.data + vec.capacity * T.size ≤ z → m' z = h.mem z) :
    VecOk A hhdm T others { h with mem := m' } { vec with length := l'.length } l' rest := by
  obtain ⟨data, hi⟩ := hv.heap
  unfold ownBlock at hi
  rw [if_neg hc] at hi
  refine ⟨rfl, hroom, hv.null, hv.small, ⟨fun i => m' (vec.data + i), ?_⟩, he⟩
  unfold ownBlock
  rw [if_neg hc]
  have hi' : HeapInv A hhdm others h ([] ++ ⟨vec.data, vec.capacity * T.size, data⟩ :: rest) := hi
  exact hi'.poke (fun _ _ => rfl) hm

/-- What a macro has done when it returns: the vector holds the new list, and
every element it touched is one the block has room for. -/
structure Did (A : PageAllocator σ) (hhdm : Nat) (T : CType α) (others : List Range) (l' : List α)
    (rest : List Block) {β : Type} (r : Ran σ β) : Prop where
  ok : VecOk A hhdm T others r.heap r.vec l' rest
  accessed : ∀ i ∈ r.accessed, i < r.vec.capacity

theorem VecOk.pushBack (hA : A.Below (2 ^ 52)) (hv : VecOk A hhdm T others h vec l rest) {x : α}
    {r : Ran σ Nat} (hr : vectorPushBack A hhdm T x vec h = some r) :
    Did A hhdm T others (l ++ [x]) rest r ∧ r.value = l.length := by
  obtain ⟨vec₁, h₁, he, rfl⟩ := vectorPushBack_some hr
  obtain ⟨hv₁, hlt⟩ := hv.ensureLength hA he
  have hcap := hv₁.capacity_le
  have hlen : (l ++ [x]).length = l.length + 1 := by simp
  simp only [hv₁.length, Nat.mod_eq_of_lt (show l.length + 1 < 2 ^ 64 by omega)]
  refine ⟨⟨?_, ?_⟩, sub64_eq (by omega) (by omega)⟩
  · simp only [← hlen]
    refine hv₁.update (by omega) (by omega) (elems_push hv₁.elems) ?_
    intro z hz
    have hle := addr_add_le (T := T) (d := vec₁.data) hlt
    have hge := le_addr (T := T) (d := vec₁.data) (i := l.length)
    exact store_out (by omega)
  · intro i hi
    rw [List.mem_singleton.mp hi]
    exact hlt

theorem VecOk.insert (hA : A.Below (2 ^ 52)) (hv : VecOk A hhdm T others h vec l rest) {index : Nat}
    {x : α} (hidx : index ≤ l.length) {r : Ran σ Unit}
    (hr : vectorInsert A hhdm T index x vec h = some r) :
    Did A hhdm T others (l.insertIdx index x) rest r := by
  obtain ⟨vec₁, h₁, he, rfl⟩ := vectorInsert_some hr
  obtain ⟨hv₁, hlt⟩ := hv.ensureLength hA he
  have hcap := hv₁.capacity_le
  have hlen := List.length_insertIdx_of_le_length hidx x
  have hloop := insertLoop_spec hidx fun i hi => elems_getD hv₁.elems x hi
  simp only [hv₁.length, Nat.mod_eq_of_lt (show l.length + 1 < 2 ^ 64 by omega)]
  refine ⟨?_, ?_⟩
  · simp only [← hlen]
    refine hv₁.update (by omega) (by omega) (elems_insert hv₁.elems hidx) ?_
    intro z hz
    have hle := addr_add_le (T := T) (d := vec₁.data) (show index < vec₁.capacity by omega)
    have hge := le_addr (T := T) (d := vec₁.data) (i := index)
    have hmul : (l.length + 1) * T.size ≤ vec₁.capacity * T.size := Nat.mul_le_mul_right _ hlt
    rw [store_out (by omega)]
    exact hloop.frame z (by omega)
  · intro i hi
    rcases List.mem_append.mp hi with hi | hi
    · exact (hloop.accessed i hi).trans_lt hlt
    · rw [List.mem_singleton.mp hi]
      exact hidx.trans_lt hlt

theorem VecOk.remove (hv : VecOk A hhdm T others h vec l rest) {index : Nat} (hidx : index < l.length) :
    Did A hhdm T others (l.eraseIdx index) rest (vectorRemove T index vec h) := by
  have hlen := hv.length
  have hroom := hv.room
  have hcap := hv.capacity_le
  have hsub : sub64 vec.length 1 = l.length - 1 := by rw [sub64_eq (by omega) (by omega), hlen]
  have hloop := removeLoop_spec (show index + (l.length - 1 - index) = l.length - 1 by omega)
    fun i _ hi => elems_getD hv.elems l[index] (show i < l.length by omega)
  unfold vectorRemove
  simp only [hsub]
  refine ⟨?_, ?_⟩
  · have hlen' := List.length_eraseIdx_of_lt hidx
    have hmul : (l.length - 1) * T.size ≤ vec.capacity * T.size := Nat.mul_le_mul_right _ (by omega)
    have hup := hv.update (by omega) (by omega) (elems_remove hv.elems hidx) fun z hz =>
      hloop.frame z (by omega)
    rwa [hlen'] at hup
  · intro i hi
    have := hloop.accessed i hi
    simp only
    omega

/-! ## Runs -/

inductive Op (α : Type) where
  | pushBack (value : α)
  | pushFront (value : α)
  | insert (index : Nat) (value : α)
  | remove (index : Nat)

/-- The indices a caller may pass. -/
def Op.Allowed (vec : Vec) : Op α → Prop
  | .insert index _ => index ≤ vec.length
  | .remove index => index < vec.length
  | _ => True

def Op.onList : Op α → List α → List α
  | .pushBack x, l => l ++ [x]
  | .pushFront x, l => x :: l
  | .insert index x, l => l.insertIdx index x
  | .remove index, l => l.eraseIdx index

def Ran.drop {β : Type} (r : Ran σ β) : Ran σ Unit := ⟨(), r.vec, r.heap, r.accessed⟩

def Op.run (A : PageAllocator σ) (hhdm : Nat) (T : CType α) (vec : Vec) (h : Heap σ) :
    Op α → Option (Ran σ Unit)
  | .pushBack x => (vectorPushBack A hhdm T x vec h).map Ran.drop
  | .pushFront x => vectorPushFront A hhdm T x vec h
  | .insert index x => vectorInsert A hhdm T index x vec h
  | .remove index => some (vectorRemove T index vec h)

/-- The heap with the vector in it. `list` is what the vector should hold, `rest` are the
blocks of the others, and `accessed` has every index with the capacity at that time. -/
structure VecSys (σ α : Type) where
  heap : Heap σ
  vec : Vec
  list : List α
  rest : List Block
  accessed : List (Nat × Nat)

def VecSys.init (pmm : σ) (mem : Mem) : VecSys σ α := ⟨⟨pmm, mem⟩, .initialiser, [], [], []⟩

inductive VecStep (A : PageAllocator σ) (hhdm : Nat) (T : CType α) : VecSys σ α → VecSys σ α → Prop where
  | op {s : VecSys σ α} (o : Op α) {r : Ran σ Unit} : o.Allowed s.vec →
      o.run A hhdm T s.vec s.heap = some r →
      VecStep A hhdm T s ⟨r.heap, r.vec, o.onList s.list, s.rest,
        s.accessed ++ r.accessed.map fun i => (i, r.vec.capacity)⟩
  /-- Another user of the heap allocates, resizes, frees or writes a block of its own. -/
  | other {s : VecSys σ α} {data : Nat → UInt8} {h' : Heap σ} {rest' : List Block} :
      (∀ i, i < s.vec.capacity * T.size → s.heap.mem (s.vec.data + i) = data i) →
      Step A hhdm ⟨s.heap, ownBlock T s.vec data ++ s.rest⟩ ⟨h', ownBlock T s.vec data ++ rest'⟩ →
      VecStep A hhdm T s { s with heap := h', rest := rest' }

theorem VecOk.op (hA : A.Below (2 ^ 52)) (hv : VecOk A hhdm T others h vec l rest) {o : Op α}
    (ha : o.Allowed vec) {r : Ran σ Unit} (hr : o.run A hhdm T vec h = some r) :
    Did A hhdm T others (o.onList l) rest r := by
  cases o with
  | pushBack x =>
    obtain ⟨r₁, hr₁, rfl⟩ := Option.map_eq_some_iff.mp hr
    have hdid := (hv.pushBack hA hr₁).1
    exact ⟨hdid.ok, hdid.accessed⟩
  | pushFront x => exact hv.insert hA (Nat.zero_le _) hr
  | insert index x => exact hv.insert hA (hv.length ▸ ha) hr
  | remove index =>
    cases hr
    exact hv.remove (hv.length ▸ ha)

/-- The calls of the others leave the vector as it is. -/
theorem VecOk.other (hv : VecOk A hhdm T others h vec l rest) {data : Nat → UInt8} {rest' : List Block}
    (hd : ∀ i, i < vec.capacity * T.size → h.mem (vec.data + i) = data i)
    (hs : Step A hhdm ⟨h, ownBlock T vec data ++ rest⟩ ⟨h', ownBlock T vec data ++ rest'⟩) :
    VecOk A hhdm T others h' vec l rest' := by
  have hi : HeapInv A hhdm others h (ownBlock T vec data ++ rest) := by
    obtain ⟨data', hi'⟩ := hv.heap
    unfold ownBlock at hi' ⊢
    split
    · rename_i hz
      simpa [hz] using hi'
    · rename_i hz
      rw [if_neg hz] at hi'
      have hblock : HeapInv A hhdm others h
          ([] ++ ⟨vec.data, vec.capacity * T.size, data'⟩ :: rest) := hi'
      exact hblock.poke hd fun _ _ => rfl
  have hi' : HeapInv A hhdm others h' (ownBlock T vec data ++ rest') := hi.step hs
  refine ⟨hv.length, hv.room, hv.null, hv.small, ⟨data, hi'⟩, hv.elems.congr ?_⟩
  intro z hz
  have hmul : l.length * T.size ≤ vec.capacity * T.size := Nat.mul_le_mul_right _ (hv.length ▸ hv.room)
  have hc : vec.capacity ≠ 0 := by
    intro hc
    rw [hc, Nat.zero_mul] at hmul
    omega
  unfold ownBlock at hi'
  rw [if_neg hc] at hi'
  rw [hd z (by omega)]
  exact (hi'.ok ⟨vec.data, vec.capacity * T.size, data⟩ (by simp)).data z (by simp only; omega)

/-- The invariant of a run. -/
structure VecInv (A : PageAllocator σ) (hhdm : Nat) (T : CType α) (others : List Range)
    (s : VecSys σ α) : Prop where
  ok : VecOk A hhdm T others s.heap s.vec s.list s.rest
  accessed : ∀ a ∈ s.accessed, a.1 < a.2

theorem VecInv.step (hA : A.Below (2 ^ 52)) {s t : VecSys σ α} (hi : VecInv A hhdm T others s)
    (hs : VecStep A hhdm T s t) : VecInv A hhdm T others t := by
  cases hs with
  | op o ha hr =>
    have hdid := hi.ok.op hA ha hr
    refine ⟨hdid.ok, ?_⟩
    intro a hmem
    rcases List.mem_append.mp hmem with hmem | hmem
    · exact hi.accessed a hmem
    · obtain ⟨i, hm, rfl⟩ := List.mem_map.mp hmem
      exact hdid.accessed i hm
  | other hd hstep => exact ⟨hi.ok.other hd hstep, hi.accessed⟩

theorem VecInv.run (hA : A.Below (2 ^ 52)) {s t : VecSys σ α} (hi : VecInv A hhdm T others s)
    (hr : Relation.ReflTransGen (VecStep A hhdm T) s t) : VecInv A hhdm T others t := by
  induction hr with
  | refl => exact hi
  | tail _ hs ih => exact ih.step hA hs

/-! ## What a vector promises -/

/-- The vector of a state against the list. -/
structure Refines [DecidableEq α] (A : PageAllocator σ) (hhdm : Nat) (T : CType α) (s : VecSys σ α) :
    Prop where
  length : s.vec.length = s.list.length
  elements : ∀ i (hi : i < s.list.length), T.load s.heap.mem (T.addr s.vec.data i) = s.list[i]
  room : s.vec.length ≤ s.vec.capacity
  /-- The data block is one the heap has handed out, and it holds `capacity` elements. -/
  block : s.vec.capacity ≠ 0 → Usable A hhdm s.heap s.vec.data (s.vec.capacity * T.size)
  accessed : ∀ a ∈ s.accessed, a.1 < a.2
  /-- `VECTOR_PUSH_BACK` yields the index at which it has put the value. -/
  pushBack : ∀ x r, vectorPushBack A hhdm T x s.vec s.heap = some r → r.value = s.list.length ∧
    T.load r.heap.mem (T.addr r.vec.data r.value) = x
  item : ∀ i (hi : i < s.list.length), vectorItem T i s.vec s.heap.mem = (s.list[i], [i]) ∧
    i < s.vec.capacity
  found : ∀ x ∈ s.list, ∃ n : Nat, (vectorFind T x s.vec s.heap.mem).1 = n ∧
    IsLeast {i | s.list[i]? = some x} n
  notFound : ∀ x, x ∉ s.list → (vectorFind T x s.vec s.heap.mem).1 = vectorInvalidIndex
  findAccessed : ∀ x, ∀ i ∈ (vectorFind T x s.vec s.heap.mem).2, i < s.vec.capacity
  /-- `VECTOR_FOR_EACH` runs its body on each element once, in order. -/
  forEach : ∃ ps : List Nat, ps.map (T.load s.heap.mem) = s.list ∧ ps.Nodup ∧
    (∀ p ∈ ps, ∃ i, i < s.vec.capacity ∧ p = T.addr s.vec.data i) ∧
    ∀ (β : Type) (body : β → Nat → β) (b : β), vectorForEach T s.vec body b = ps.foldl body b

theorem VecOk.usable (hv : VecOk A hhdm T others h vec l rest) (hc : vec.capacity ≠ 0) :
    Usable A hhdm h vec.data (vec.capacity * T.size) := by
  obtain ⟨data, hi⟩ := hv.heap
  unfold ownBlock at hi
  rw [if_neg hc] at hi
  have hg := Granted.of_inv (b := ⟨vec.data, vec.capacity * T.size, data⟩) hi (by simp)
  rw [hg.usable_iff, (hi.ok ⟨vec.data, vec.capacity * T.size, data⟩ (by simp)).metaPages]
  exact (hv.small hc).1

theorem isLeast_idxOf [DecidableEq α] {x : α} (hx : x ∈ l) : IsLeast {i | l[i]? = some x} (l.idxOf x) := by
  refine ⟨List.getElem?_idxOf hx, ?_⟩
  intro i hi
  obtain ⟨hlt, hx'⟩ := List.getElem?_eq_some_iff.mp hi
  by_contra hlt'
  have hfirst : i < l.findIdx (· == x) := Nat.lt_of_not_le hlt'
  have hne := List.not_of_lt_findIdx hfirst
  simp [hx'] at hne

/-- `VECTOR_FIND` on a vector that holds a list. -/
theorem VecOk.find [DecidableEq α] (hv : VecOk A hhdm T others h vec l rest) (x : α) :
    (vectorFind T x vec h.mem).1 = (if x ∈ l then (l.idxOf x : Int) else vectorInvalidIndex) ∧
      ∀ i ∈ (vectorFind T x vec h.mem).2, i < l.length := by
  have hlen := hv.length
  have hroom := hv.room
  have hcap := hv.capacity_le
  have hfind := findLoop_spec (x := x) hv.elems hlen (by omega) (Nat.zero_add _)
  simp only [List.drop_zero, Nat.zero_add] at hfind
  unfold vectorFind
  rw [hlen]
  exact hfind

theorem VecInv.refines [DecidableEq α] (hA : A.Below (2 ^ 52)) {s : VecSys σ α}
    (hi : VecInv A hhdm T others s) : Refines A hhdm T s := by
  have hv := hi.ok
  have hlen := hv.length
  have hroom := hv.room
  have hcap := hv.capacity_le
  refine ⟨hlen, fun i hi => hv.elems.load_eq hi, hroom, hv.usable, hi.accessed, ?_, ?_, ?_, ?_, ?_, ?_⟩
  · intro x r hr
    obtain ⟨hdid, hval⟩ := hv.pushBack hA hr
    refine ⟨hval, ?_⟩
    rw [hval, hdid.ok.elems.load_eq (by simp)]
    simp
  · intro i hi
    refine ⟨?_, by omega⟩
    unfold vectorItem
    rw [if_pos (by omega), hv.elems.load_eq hi]
  · intro x hx
    refine ⟨s.list.idxOf x, ?_, isLeast_idxOf hx⟩
    rw [(hv.find x).1, if_pos hx]
  · intro x hx
    rw [(hv.find x).1, if_neg hx]
  · intro x i hmem
    have := (hv.find x).2 i hmem
    omega
  · refine ⟨visits T s.vec, visits_load hv.elems hlen, visits_nodup _, ?_, ?_⟩
    · intro p hp
      obtain ⟨i, hmem, rfl⟩ := List.mem_map.mp hp
      have hlt := List.mem_range'_1.mp hmem
      exact ⟨i, by omega, rfl⟩
    · intro β body b
      exact vectorForEach_eq _ _ _

/-- **Vectors refine lists**, in every run of the four macros on a vector that
starts as `VECTOR_INITIALISER`, with any use of the heap by others in between. -/
theorem vector_refines_list [DecidableEq α] (A : PageAllocator σ) (hA : A.Below (2 ^ 52)) (hhdm : Nat)
    (T : CType α) (pmm : σ) (mem : Mem) (hp : (A.live pmm).Pairwise Apart) (s : VecSys σ α)
    (hr : Relation.ReflTransGen (VecStep A hhdm T) (.init pmm mem) s) : Refines A hhdm T s :=
  (VecInv.run hA ⟨VecOk.start hp, by simp [VecSys.init]⟩ hr).refines hA

theorem vector_refines_list_push : ∃ s : VecSys _ _,
    Relation.ReflTransGen (VecStep bump 0 word64) (.init [] fun _ => 0) s ∧ s.list = [7] ∧
      Refines bump 0 word64 s := by
  have hsome : (vectorPushBack bump 0 word64 7 .initialiser ⟨[], fun _ => 0⟩).isSome = true := by
    decide +kernel
  obtain ⟨r, hpush⟩ := Option.isSome_iff_exists.mp hsome
  have hrun : (Op.pushBack 7).run bump 0 word64 .initialiser ⟨[], fun _ => 0⟩ = some (Ran.drop r) :=
    congrArg (Option.map Ran.drop) hpush
  have hop : VecStep bump 0 word64 (.init [] fun _ => 0) _ := .op (.pushBack 7) trivial hrun
  have hstep := Relation.ReflTransGen.single hop
  exact ⟨_, hstep, rfl, vector_refines_list bump bump_below 0 word64 [] _ List.Pairwise.nil _ hstep⟩

/-! ## Removing a value -/

/-- The vector that a macro leaves has exactly these elements. -/
def HoldsList (T : CType α) {β : Type} (r : Ran σ β) (l' : List α) : Prop :=
  r.vec.length = l'.length ∧
    ∀ i (hi : i < l'.length), T.load r.heap.mem (T.addr r.vec.data i) = l'[i]

/-- `VECTOR_REMOVE_BY_VALUE` removes the first occurrence of the value and nothing else. -/
structure RemovesOnly [DecidableEq α] (T : CType α) (x : α) (l : List α) {β : Type} (r : Ran σ β) : Prop where
  found : x ∈ l → HoldsList T r (l.erase x)
  notFound : x ∉ l → HoldsList T r l

theorem VecOk.removeByValue [DecidableEq α] (hv : VecOk A hhdm T others h vec l rest) {x : α} (hx : x ∈ l) :
    Did A hhdm T others (l.erase x) rest (vectorRemoveByValue T x vec h) := by
  obtain ⟨hval, hacc⟩ := hv.find x
  have hlen := hv.length
  have hroom := hv.room
  have hcap := hv.capacity_le
  have hidx := List.idxOf_lt_length_of_mem hx
  rw [if_pos hx] at hval
  have hmod : ((l.idxOf x : Int) % 2 ^ 64).toNat = l.idxOf x := by omega
  have hdid := hv.remove hidx
  rw [← List.erase_eq_eraseIdx_of_idxOf rfl] at hdid
  refine ⟨?_, ?_⟩
  · unfold vectorRemoveByValue
    simp only [hval, hmod]
    exact hdid.ok
  · intro i hi
    unfold vectorRemoveByValue at hi
    simp only [hval, hmod] at hi
    rw [vectorRemoveByValue_vec]
    rcases List.mem_append.mp hi with hi | hi
    · have := hacc i hi
      simp only
      omega
    · have := hdid.accessed i hi
      rwa [vectorRemove_vec] at this

/-- The length changes in any case: it is one less, or `SIZE_MAX` for an empty vector. -/
theorem VecOk.removeByValue_length [DecidableEq α] (hv : VecOk A hhdm T others h vec l rest) (x : α) :
    (vectorRemoveByValue T x vec h).vec.length ≠ l.length := by
  have hlen := hv.length
  have hroom := hv.room
  have hcap := hv.capacity_le
  rw [vectorRemoveByValue_vec]
  unfold sub64
  simp only
  omega

/-- **`VECTOR_REMOVE_BY_VALUE` does what it should exactly if the value occurs**, on every vector
that holds a list (`VecInv.run` has those of all runs). -/
theorem remove_by_value_iff [DecidableEq α] (A : PageAllocator σ) (hhdm : Nat) (T : CType α)
    (others : List Range) (h : Heap σ) (vec : Vec) (l : List α) (rest : List Block)
    (hv : VecOk A hhdm T others h vec l rest) (x : α) :
    RemovesOnly T x l (vectorRemoveByValue T x vec h) ↔ x ∈ l := by
  constructor
  · intro hr
    by_contra hx
    exact hv.removeByValue_length x (hr.notFound hx).1
  · intro hx
    have hok := (hv.removeByValue hx).ok
    refine ⟨fun _ => ⟨hok.length, fun i hi => hok.elems.load_eq hi⟩, fun hn => absurd hx hn⟩

theorem remove_by_value_iff_push : ∃ r : Ran (List Range) Nat,
    vectorPushBack bump 0 word64 7 .initialiser ⟨[], fun _ => 0⟩ = some r ∧
      RemovesOnly word64 7 [7] (vectorRemoveByValue word64 7 r.vec r.heap) := by
  have hsome : (vectorPushBack bump 0 word64 7 .initialiser ⟨[], fun _ => 0⟩).isSome = true := by
    decide +kernel
  obtain ⟨r, hpush⟩ := Option.isSome_iff_exists.mp hsome
  have hstart : VecOk bump 0 word64 [] ⟨[], fun _ => 0⟩ .initialiser [] [] := VecOk.start List.Pairwise.nil
  have hv := (hstart.pushBack bump_below hpush).1.ok
  exact ⟨r, hpush, (remove_by_value_iff _ _ _ _ _ _ _ _ hv 7).mpr (by simp)⟩

/-- A value that is not there: the only element goes, and an empty vector gets the length
`SIZE_MAX`. -/
theorem remove_absent_value : ∃ r : Ran (List Range) Nat,
    vectorPushBack bump 0 word64 7 .initialiser ⟨[], fun _ => 0⟩ = some r ∧
      ¬ RemovesOnly word64 8 [7] (vectorRemoveByValue word64 8 r.vec r.heap) ∧
      ¬ RemovesOnly word64 8 [] (vectorRemoveByValue word64 8 .initialiser (⟨[], fun _ => 0⟩ : Heap (List Range))) := by
  have hsome : (vectorPushBack bump 0 word64 7 .initialiser ⟨[], fun _ => 0⟩).isSome = true := by
    decide +kernel
  obtain ⟨r, hpush⟩ := Option.isSome_iff_exists.mp hsome
  have hstart : VecOk bump 0 word64 [] ⟨[], fun _ => 0⟩ .initialiser [] [] := VecOk.start List.Pairwise.nil
  have hv := (hstart.pushBack bump_below hpush).1.ok
  refine ⟨r, hpush, ?_, ?_⟩
  · intro hr
    exact hv.removeByValue_length 8 (hr.notFound (by decide)).1
  · intro hr
    exact hstart.removeByValue_length 8 (hr.notFound (by decide)).1

end Cynix.Lib.VectorRuns
