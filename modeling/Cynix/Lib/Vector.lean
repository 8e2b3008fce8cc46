import Cynix.Base.Cells
import Cynix.Lib.AllocSizes

/-! # Vectors (`lib/vector.k.h`)

The macros over the kernel heap. A vector is its three fields; the elements are
cells of a C type in the block that `data` points to. Each macro also returns
the indices of the elements it has accessed, in order. `none` is the panic of
an allocation. -/
namespace Cynix.Lib.Vector
open Cynix.Base.Bytes Cynix.Base.Pages Cynix.Base.Cells Cynix.Lib.Misc Cynix.Lib.Alloc

structure Vec where
  data : Nat
  length : Nat
  capacity : Nat
  deriving Repr, DecidableEq

/-- `VECTOR_INITIALISER`. -/
def Vec.initialiser : Vec := ⟨0, 0, 0⟩

/-- What a macro leaves behind. -/
structure Ran (σ β : Type) where
  value : β
  vec : Vec
  heap : Heap σ
  accessed : List Nat

variable {σ α β : Type} (A : PageAllocator σ) (hhdm : Nat) (T : CType α)

def vectorEnsureLength (length : Nat) (vec : Vec) (h : Heap σ) : Option (Vec × Heap σ) :=
  if length ≥ vec.capacity then
    let capacity := if vec.capacity = 0 then 8 else vec.capacity * 2 % 2 ^ 64
    match realloc A hhdm vec.data (capacity * T.size % 2 ^ 64) h with
    | none => none
    | some (data, h) => some ({ vec with data, capacity }, h)
  else some (vec, h)

/-- The value is the index of the new element. -/
def vectorPushBack (value : α) (vec : Vec) (h : Heap σ) : Option (Ran σ Nat) :=
  match vectorEnsureLength A hhdm T vec.length vec h with
  | none => none
  | some (vec, h) =>
    let mem := T.store h.mem (T.addr vec.data vec.length) value
    let length := (vec.length + 1) % 2 ^ 64
    some ⟨sub64 length 1, { vec with length }, { h with mem }, [vec.length]⟩

/-- `for (i = length; i > index; i--) data[i] = data[i - 1]`. -/
def insertLoop (data index : Nat) : Nat → Mem → Mem × List Nat
  | 0, m => (m, [])
  | i + 1, m =>
    if i + 1 > index then
      let m := T.store m (T.addr data (i + 1)) (T.load m (T.addr data i))
      let r := insertLoop data index i m
      (r.1, i :: (i + 1) :: r.2)
    else (m, [])

def vectorInsert (index : Nat) (value : α) (vec : Vec) (h : Heap σ) : Option (Ran σ Unit) :=
  match vectorEnsureLength A hhdm T vec.length vec h with
  | none => none
  | some (vec, h) =>
    let r := insertLoop T vec.data index vec.length h.mem
    let length := (vec.length + 1) % 2 ^ 64
    let mem := T.store r.1 (T.addr vec.data index) value
    some ⟨(), { vec with length }, { h with mem }, r.2 ++ [index]⟩

def vectorPushFront (value : α) (vec : Vec) (h : Heap σ) : Option (Ran σ Unit) :=
  vectorInsert A hhdm T 0 value vec h

/-- `for (; i < bound; i++) data[i] = data[i + 1]`; the loop runs at most `bound - i` times. -/
def removeLoop (data bound : Nat) : Nat → Nat → Mem → Mem × List Nat
  | 0, _, m => (m, [])
  | n + 1, i, m =>
    if i < bound then
      let m := T.store m (T.addr data i) (T.load m (T.addr data (i + 1)))
      let r := removeLoop data bound n (i + 1) m
      (r.1, (i + 1) :: i :: r.2)
    else (m, [])

/-- The bound `length - 1` is unsigned. -/
def vectorRemove (index : Nat) (vec : Vec) (h : Heap σ) : Ran σ Unit :=
  let bound := sub64 vec.length 1
  let r := removeLoop T vec.data bound (bound - index) index h.mem
  ⟨(), { vec with length := sub64 vec.length 1 }, { h with mem := r.1 }, r.2⟩

def vectorItem (index : Nat) (vec : Vec) (m : Mem) : α × List Nat :=
  if index < vec.length then (T.load m (T.addr vec.data index), [index]) else (T.minusOne, [])

/-- `VECTOR_INVALID_INDEX`. -/
def vectorInvalidIndex : Int := -1

/-- The loop of `VECTOR_FIND`; the result is an `ssize_t`. -/
def findLoop [DecidableEq α] (value : α) (vec : Vec) (m : Mem) : Nat → Nat → Int × List Nat
  | 0, _ => (vectorInvalidIndex, [])
  | n + 1, i =>
    if i < vec.length then
      if T.load m (T.addr vec.data i) = value then (Int.bmod i (2 ^ 64), [i])
      else
        let r := findLoop value vec m n (i + 1)
        (r.1, i :: r.2)
    else (vectorInvalidIndex, [])

def vectorFind [DecidableEq α] (value : α) (vec : Vec) (m : Mem) : Int × List Nat :=
  findLoop T value vec m vec.length 0

/-- `VECTOR_REMOVE_BY_VALUE`: the `ssize_t` that was found becomes a `size_t`. -/
def vectorRemoveByValue [DecidableEq α] (value : α) (vec : Vec) (h : Heap σ) : Ran σ Unit :=
  let found := vectorFind T value vec h.mem
  let r := vectorRemove T (found.1 % 2 ^ 64).toNat vec h
  { r with accessed := found.2 ++ r.accessed }

/-- The loop of `VECTOR_FOR_EACH`: the body gets a pointer to the element. The
bodies in the kernel do not change the vector they run over. -/
def forEachLoop (vec : Vec) (body : β → Nat → β) : Nat → Nat → β → β
  | 0, _, s => s
  | n + 1, i, s =>
    if i < vec.length then forEachLoop vec body n (i + 1) (body s (T.addr vec.data i)) else s

def vectorForEach (vec : Vec) (body : β → Nat → β) (s : β) : β :=
  forEachLoop T vec body vec.length 0 s

variable {A hhdm T} {m : Mem} {data index : Nat} {f : Nat → α}

/-- The vector has room, or it gets a block of another capacity. -/
theorem vectorEnsureLength_some {length : Nat} {vec vec' : Vec} {h h' : Heap σ}
    (he : vectorEnsureLength A hhdm T length vec h = some (vec', h')) :
    (∃ capacity data, vec.capacity ≤ length ∧
      capacity = (if vec.capacity = 0 then 8 else vec.capacity * 2 % 2 ^ 64) ∧
      realloc A hhdm vec.data (capacity * T.size % 2 ^ 64) h = some (data, h') ∧
      vec' = { vec with data, capacity }) ∨
    (length < vec.capacity ∧ vec' = vec ∧ h' = h) := by
  unfold vectorEnsureLength at he
  split at he
  · rename_i hfull
    left
    obtain ⟨capacity, hc⟩ : ∃ c, c = if vec.capacity = 0 then 8 else vec.capacity * 2 % 2 ^ 64 := ⟨_, rfl⟩
    simp only [← hc] at he
    cases hr : realloc A hhdm vec.data (capacity * T.size % 2 ^ 64) h with
    | none => rw [hr] at he; cases he
    | some r =>
      obtain ⟨data, h₁⟩ := r
      rw [hr] at he
      simp only [Option.some.injEq, Prod.mk.injEq] at he
      obtain ⟨rfl, rfl⟩ := he
      exact ⟨capacity, data, hfull, hc, hr, rfl⟩
  · rename_i hroom
    right
    simp only [Option.some.injEq, Prod.mk.injEq] at he
    exact ⟨Nat.lt_of_not_le hroom, he.1.symm, he.2.symm⟩

/-- The two macros that add an element make room first. -/
theorem vectorPushBack_some {value : α} {vec : Vec} {h : Heap σ} {r : Ran σ Nat}
    (hr : vectorPushBack A hhdm T value vec h = some r) :
    ∃ vec' h', vectorEnsureLength A hhdm T vec.length vec h = some (vec', h') ∧
      r = ⟨sub64 ((vec'.length + 1) % 2 ^ 64) 1, { vec' with length := (vec'.length + 1) % 2 ^ 64 },
        { h' with mem := T.store h'.mem (T.addr vec'.data vec'.length) value }, [vec'.length]⟩ := by
  unfold vectorPushBack at hr
  cases he : vectorEnsureLength A hhdm T vec.length vec h with
  | none => rw [he] at hr; cases hr
  | some p =>
    rw [he] at hr
    exact ⟨p.1, p.2, rfl, (Option.some.inj hr).symm⟩

theorem vectorInsert_some {value : α} {vec : Vec} {h : Heap σ} {r : Ran σ Unit}
    (hr : vectorInsert A hhdm T index value vec h = some r) :
    ∃ vec' h', vectorEnsureLength A hhdm T vec.length vec h = some (vec', h') ∧
      r = ⟨(), { vec' with length := (vec'.length + 1) % 2 ^ 64 },
        { h' with mem := T.store (insertLoop T vec'.data index vec'.length h'.mem).1 (T.addr vec'.data index) value },
        (insertLoop T vec'.data index vec'.length h'.mem).2 ++ [index]⟩ := by
  unfold vectorInsert at hr
  cases he : vectorEnsureLength A hhdm T vec.length vec h with
  | none => rw [he] at hr; cases hr
  | some p =>
    rw [he] at hr
    exact ⟨p.1, p.2, rfl, (Option.some.inj hr).symm⟩

theorem vectorRemove_vec (vec : Vec) (h : Heap σ) :
    (vectorRemove T index vec h).vec = { vec with length := sub64 vec.length 1 } := by
  unfold vectorRemove
  with_reducible rfl

theorem vectorRemoveByValue_vec [DecidableEq α] (x : α) (vec : Vec) (h : Heap σ) :
    (vectorRemoveByValue T x vec h).vec = { vec with length := sub64 vec.length 1 } := by
  unfold vectorRemoveByValue
  simp only [vectorRemove_vec]

/-! ## The shift loops -/

/-- `insertLoop` moves the elements from `index` on up by one and touches
nothing above the element it fills first. -/
structure ShiftedUp (T : CType α) (data index n : Nat) (f : Nat → α) (m : Mem) (r : Mem × List Nat) :
    Prop where
  below : ∀ i, i < index → Cell T r.1 (T.addr data i) (f i)
  moved : ∀ i, index ≤ i → i < n → Cell T r.1 (T.addr data (i + 1)) (f i)
  above : ∀ i y, n < i → Cell T m (T.addr data i) y → Cell T r.1 (T.addr data i) y
  frame : ∀ z, z < data ∨ data + (n + 1) * T.size ≤ z → r.1 z = m z
  accessed : ∀ i ∈ r.2, i ≤ n

theorem insertLoop_spec {n : Nat} (hidx : index ≤ n)
    (h : ∀ i, i < n → Cell T m (T.addr data i) (f i)) :
    ShiftedUp T data index n f m (insertLoop T data index n m) := by
  induction n generalizing m with
  | zero => exact ⟨by omega, by omega, fun _ _ _ hc => hc, fun _ _ => rfl, by simp [insertLoop]⟩
  | succ n ih =>
    unfold insertLoop
    by_cases hgt : n + 1 > index
    · rw [if_pos hgt, (h n (Nat.lt_succ_self n)).load_eq]
      obtain ⟨below, moved, above, frame, accessed⟩ :=
        ih (m := T.store m (T.addr data (n + 1)) (f n)) (by omega)
          fun i hi => (h i (by omega)).store_ne (by omega)
      refine ⟨below, ?_, ?_, ?_, ?_⟩
      · intro i h1 h2
        by_cases hin : i = n
        · subst hin
          exact above (i + 1) (f i) (Nat.lt_succ_self i) cell_store
        · exact moved i h1 (by omega)
      · intro i y hi hc
        exact above i y (by omega) (hc.store_ne (by omega))
      · intro z hz
        have hle := addr_add_le (T := T) (d := data) (show n + 1 < n + 1 + 1 by omega)
        have hge := le_addr (T := T) (d := data) (i := n + 1)
        have hmul : (n + 1) * T.size ≤ (n + 1 + 1) * T.size := Nat.mul_le_mul_right _ (by omega)
        rw [frame z (by omega)]
        exact store_out (by omega)
      · intro i hi
        rcases List.mem_cons.mp hi with rfl | hi
        · omega
        · rcases List.mem_cons.mp hi with rfl | hi
          · exact Nat.le_refl _
          · have := accessed i hi
            omega
    · rw [if_neg hgt]
      refine ⟨fun i hi => h i (by omega), by omega, fun _ _ _ hc => hc, fun _ _ => rfl, by simp⟩

/-- `removeLoop` moves the elements above `index` down by one. -/
structure ShiftedDown (T : CType α) (data index bound : Nat) (f : Nat → α) (m : Mem)
    (r : Mem × List Nat) : Prop where
  below : ∀ i y, i < index → Cell T m (T.addr data i) y → Cell T r.1 (T.addr data i) y
  moved : ∀ i, index ≤ i → i < bound → Cell T r.1 (T.addr data i) (f (i + 1))
  frame : ∀ z, z < data ∨ data + bound * T.size ≤ z → r.1 z = m z
  accessed : ∀ i ∈ r.2, i ≤ bound

theorem removeLoop_spec {n bound : Nat} (hn : index + n = bound)
    (h : ∀ i, index ≤ i → i ≤ bound → Cell T m (T.addr data i) (f i)) :
    ShiftedDown T data index bound f m (removeLoop T data bound n index m) := by
  induction n generalizing index m with
  | zero => exact ⟨fun _ _ _ hc => hc, by omega, fun _ _ => rfl, by simp [removeLoop]⟩
  | succ n ih =>
    unfold removeLoop
    rw [if_pos (by omega), (h (index + 1) (by omega) (by omega)).load_eq]
    obtain ⟨below, moved, frame, accessed⟩ :=
      ih (m := T.store m (T.addr data index) (f (index + 1))) (show index + 1 + n = bound by omega)
        fun i h1 h2 => (h i (by omega) h2).store_ne (by omega)
    refine ⟨?_, ?_, ?_, ?_⟩
    · intro i y hi hc
      exact below i y (by omega) (hc.store_ne (by omega))
    · intro i h1 h2
      by_cases hin : i = index
      · subst hin
        exact below i (f (i + 1)) (Nat.lt_succ_self i) cell_store
      · exact moved i (by omega) h2
    · intro z hz
      have hle := addr_add_le (T := T) (d := data) (show index < bound by omega)
      have hge := le_addr (T := T) (d := data) (i := index)
      rw [frame z hz]
      exact store_out (by omega)
    · intro i hi
      rcases List.mem_cons.mp hi with rfl | hi
      · omega
      · rcases List.mem_cons.mp hi with rfl | hi
        · omega
        · exact accessed i hi

/-! ## What the macros do to the elements -/

variable {l : List α} {x : α}

theorem elems_getD (h : Elems T m data l) (x : α) {i : Nat} (hi : i < l.length) :
    Cell T m (T.addr data i) (l.getD i x) := by
  rw [List.getD_eq_getElem _ _ hi]
  exact h i hi

theorem elems_push (h : Elems T m data l) :
    Elems T (T.store m (T.addr data l.length) x) data (l ++ [x]) := by
  intro i hi
  rw [List.length_append, List.length_singleton] at hi
  by_cases hlt : i < l.length
  · rw [List.getElem_append_left hlt]
    exact (h i hlt).store_ne (by omega)
  · have hil : i = l.length := by omega
    subst hil
    rw [List.getElem_concat_length rfl]
    exact cell_store

theorem elems_insert (h : Elems T m data l) (hidx : index ≤ l.length) :
    Elems T (T.store (insertLoop T data index l.length m).1 (T.addr data index) x) data
      (l.insertIdx index x) := by
  have hloop := insertLoop_spec hidx fun i hi => elems_getD h x hi
  intro i hi
  rw [List.length_insertIdx_of_le_length hidx] at hi
  rw [List.getElem_insertIdx]
  split
  · rename_i hlt
    rw [← List.getD_eq_getElem l x (by omega)]
    exact (hloop.below i hlt).store_ne (by omega)
  · split
    · rename_i _ heq
      subst heq
      exact cell_store
    · have hmoved := hloop.moved (i - 1) (by omega) (by omega)
      rw [← List.getD_eq_getElem l x (by omega)]
      rw [show i - 1 + 1 = i by omega] at hmoved
      exact hmoved.store_ne (by omega)

theorem elems_remove (h : Elems T m data l) (hidx : index < l.length) :
    Elems T (removeLoop T data (l.length - 1) (l.length - 1 - index) index m).1 data
      (l.eraseIdx index) := by
  have hloop := removeLoop_spec (show index + (l.length - 1 - index) = l.length - 1 by omega)
    fun i _ hi => elems_getD h l[index] (show i < l.length by omega)
  intro i hi
  rw [List.length_eraseIdx_of_lt hidx] at hi
  rw [List.getElem_eraseIdx]
  split
  · rename_i hlt
    exact hloop.below i _ hlt (h i (by omega))
  · rw [← List.getD_eq_getElem l l[index] (by omega)]
    exact hloop.moved i (by omega) hi

/-- From `i` on, the loop returns the first index that holds the value. -/
theorem findLoop_spec [DecidableEq α] {vec : Vec} (h : Elems T m vec.data l)
    (hlen : vec.length = l.length) (hsmall : l.length < 2 ^ 63) {n i : Nat} (hn : i + n = l.length) :
    (findLoop T x vec m n i).1 =
      (if x ∈ l.drop i then ((i + (l.drop i).idxOf x : Nat) : Int) else vectorInvalidIndex) ∧
    ∀ k ∈ (findLoop T x vec m n i).2, k < l.length := by
  induction n generalizing i with
  | zero =>
    rw [List.drop_eq_nil_of_le (by omega)]
    simp [findLoop]
  | succ n ih =>
    have hi : i < l.length := by omega
    unfold findLoop
    rw [if_pos (by omega), Elems.load_eq h hi, List.drop_eq_getElem_cons hi]
    by_cases hx : l[i] = x
    · rw [if_pos hx, hx]
      refine ⟨?_, by simpa using hi⟩
      simp only [List.mem_cons, true_or, if_true, List.idxOf_cons_self, Nat.add_zero]
      exact Int.bmod_eq_of_le (by omega) (by omega)
    · rw [if_neg hx]
      obtain ⟨hval, hacc⟩ := ih (i := i + 1) (by omega)
      refine ⟨?_, ?_⟩
      · rw [hval, List.idxOf_cons_ne _ hx]
        simp only [List.mem_cons, Ne.symm hx, false_or]
        split
        · congr 1
          omega
        · rfl
      · intro k hk
        rcases List.mem_cons.mp hk with rfl | hk
        · exact hi
        · exact hacc k hk

/-- The body runs once on each element's address, in order. -/
theorem forEachLoop_spec {vec : Vec} (body : β → Nat → β) {n i : Nat} (hn : i + n = vec.length) (s : β) :
    forEachLoop T vec body n i s = ((List.range' i n).map (T.addr vec.data)).foldl body s := by
  induction n generalizing i s with
  | zero => rfl
  | succ n ih =>
    unfold forEachLoop
    rw [if_pos (by omega), ih (by omega), List.range'_succ]
    rfl

/-- The addresses a loop over the vector visits. -/
def visits (T : CType α) (vec : Vec) : List Nat := (List.range' 0 vec.length).map (T.addr vec.data)

theorem vectorForEach_eq (vec : Vec) (body : β → Nat → β) (s : β) :
    vectorForEach T vec body s = (visits T vec).foldl body s :=
  forEachLoop_spec body (Nat.zero_add _) s

theorem visits_nodup (vec : Vec) : (visits T vec).Nodup := by
  refine List.Nodup.map ?_ List.nodup_range'
  intro i k hik
  by_contra hne
  have hap := addr_apart (T := T) (d := vec.data) hne
  have hpos := T.pos
  omega

theorem visits_load {vec : Vec} (h : Elems T m vec.data l) (hlen : vec.length = l.length) :
    (visits T vec).map (T.load m) = l := by
  apply List.ext_getElem
  · simp [visits, hlen]
  · intro i h1 h2
    simpa [visits] using Elems.load_eq h h2

end Cynix.Lib.Vector
