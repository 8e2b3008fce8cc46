import Cynix.Base.Bytes

/-! # Typed cells in byte memory

A C type is a size, a representation of its values in that many bytes, and the
value that given bytes stand for. A cell is an address that holds a value in its
representation; an array is a row of cells. Storing into one cell leaves the
other cells of its array and all bytes outside it as they are. -/
namespace Cynix.Base.Cells
open Cynix.Base.Bytes

structure CType (α : Type) where
  size : Nat
  enc : α → Nat → UInt8
  dec : (Nat → UInt8) → α
  /-- The value of `(TYPE)-1`. -/
  minusOne : α
  dec_enc : ∀ x f, (∀ j, j < size → f j = enc x j) → dec f = x
  pos : 1 ≤ size
  /-- No object of C is larger than `PTRDIFF_MAX`, not even one of eight elements. -/
  small : 8 * size < 2 ^ 63

variable {α : Type} (T : CType α)

def CType.load (m : Mem) (a : Nat) : α := T.dec fun j => m (a + j)

def CType.store (m : Mem) (a : Nat) (x : α) : Mem := blit m a (T.enc x) T.size

/-- `&data[i]`. -/
def CType.addr (data i : Nat) : Nat := data + i * T.size

/-- The bytes at `a` represent `x`. -/
def Cell (m : Mem) (a : Nat) (x : α) : Prop := ∀ j, j < T.size → m (a + j) = T.enc x j

/-- The array at `data` starts with these elements. -/
def Elems (m : Mem) (data : Nat) (l : List α) : Prop :=
  ∀ i (hi : i < l.length), Cell T m (T.addr data i) l[i]

variable {T} {m m' : Mem} {a b d i k n : Nat} {x y : α} {l : List α}

theorem Cell.load_eq (h : Cell T m a x) : T.load m a = x := T.dec_enc x _ h

theorem cell_store : Cell T (T.store m a x) a x := by
  intro j hj
  exact blit_in hj

theorem Cell.congr (h : Cell T m a x) (hm : ∀ j, j < T.size → m' (a + j) = m (a + j)) :
    Cell T m' a x := by
  intro j hj
  rw [hm j hj]
  exact h j hj

theorem store_out {z : Nat} (hz : z < a ∨ a + T.size ≤ z) : T.store m a x z = m z := blit_out hz

/-! ## Arrays -/

/-- An element below the bound ends below the bound. -/
theorem addr_add_le (hi : i < n) : T.addr d i + T.size ≤ d + n * T.size := by
  have h := Nat.mul_le_mul_right T.size (Nat.succ_le_of_lt hi)
  rw [Nat.succ_mul] at h
  unfold CType.addr
  omega

theorem le_addr : d ≤ T.addr d i := Nat.le_add_right _ _

/-- Two elements of an array do not overlap. -/
theorem addr_apart (h : i ≠ k) :
    T.addr d i + T.size ≤ T.addr d k ∨ T.addr d k + T.size ≤ T.addr d i := by
  rcases Nat.lt_or_gt_of_ne h with h | h
  · exact Or.inl (addr_add_le h)
  · exact Or.inr (addr_add_le h)

/-- A store into one element leaves the others. -/
theorem Cell.store_ne (h : Cell T m (T.addr d i) x) (hne : k ≠ i) :
    Cell T (T.store m (T.addr d k) y) (T.addr d i) x := by
  refine h.congr ?_
  intro j hj
  have hap := addr_apart (T := T) (d := d) hne
  exact store_out (by omega)

theorem Elems.load_eq (h : Elems T m d l) (hi : i < l.length) :
    T.load m (T.addr d i) = l[i] :=
  (h i hi).load_eq

/-- An array is where its bytes are. -/
theorem Elems.congr (h : Elems T m d l)
    (hm : ∀ z, z < l.length * T.size → m' (b + z) = m (d + z)) : Elems T m' b l := by
  intro i hi j hj
  have hle := addr_add_le (T := T) (d := 0) hi
  unfold CType.addr at hle
  have := hm (i * T.size + j) (by omega)
  unfold CType.addr
  rw [Nat.add_assoc, this, ← Nat.add_assoc]
  exact h i hi j hj

/-! ## Words -/

/-- `uint64_t`, and every pointer type. -/
def word64 : CType UInt64 where
  size := 8
  enc x j := byteOf x.toNat j
  dec f := UInt64.ofNat (read64 f 0)
  minusOne := -1
  dec_enc x f hf := by
    have hread : read64 f 0 = read64 (write64 f 0 x.toNat) 0 := by
      apply read64_congr
      intro j h1 h2
      rw [write64_in h1 h2]
      exact hf j (by omega)
    rw [hread, read64_write64_of_lt x.toNat_lt, UInt64.ofNat_toNat]
  pos := by decide
  small := by decide

end Cynix.Base.Cells
