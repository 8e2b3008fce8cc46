import Mathlib

/-! # Byte-addressed memory

A memory is a total function from addresses to bytes. Words are 64 bits wide
and little endian. The loops that fill or copy a stretch of memory are written
as the recursions they are, one store at a time; each has one lemma for the
bytes it writes and one for the bytes it leaves alone. -/
namespace Cynix.Base.Bytes

abbrev Mem := Nat → UInt8

def writeByte (m : Mem) (a : Nat) (b : UInt8) : Mem := fun x => if x = a then b else m x

/-- The byte of weight `256 ^ i` of a word. -/
def byteOf (v i : Nat) : UInt8 := UInt8.ofNat (v / 256 ^ i)

def read64 (m : Mem) (a : Nat) : Nat :=
  (m a).toNat + 256 * ((m (a + 1)).toNat + 256 * ((m (a + 2)).toNat + 256 *
    ((m (a + 3)).toNat + 256 * ((m (a + 4)).toNat + 256 * ((m (a + 5)).toNat + 256 *
      ((m (a + 6)).toNat + 256 * (m (a + 7)).toNat))))))

def read16 (m : Mem) (a : Nat) : Nat := (m a).toNat + 256 * (m (a + 1)).toNat

def read32 (m : Mem) (a : Nat) : Nat := read16 m a + 65536 * read16 m (a + 2)

def write64 (m : Mem) (a v : Nat) : Mem := fun x =>
  if a ≤ x ∧ x < a + 8 then byteOf v (x - a) else m x

/-- Store `v` in `n` consecutive words from `a` on. -/
def fill64 (m : Mem) (a v : Nat) : Nat → Mem
  | 0 => m
  | n + 1 => write64 (fill64 m a v n) (a + 8 * n) v

/-- Copy `n` bytes upwards, one at a time, as `rep movsb` does. -/
def copyUp (m : Mem) (dest src : Nat) : Nat → Mem
  | 0 => m
  | n + 1 => writeByte (copyUp m dest src n) (dest + n) (copyUp m dest src n (src + n))

/-- Copy `n` bytes downwards, the last one first. -/
def copyDown (m : Mem) (dest src : Nat) : Nat → Mem
  | 0 => m
  | n + 1 => copyDown (writeByte m (dest + n) (m (src + n))) dest src n

/-- Store the first `n` bytes of `f` from `a` on. -/
def blit (m : Mem) (a : Nat) (f : Nat → UInt8) (n : Nat) : Mem := fun x =>
  if a ≤ x ∧ x < a + n then f (x - a) else m x

/-! ## Words -/

theorem byteOf_toNat (v i : Nat) : (byteOf v i).toNat = v / 256 ^ i % 256 := by
  simp [byteOf]

theorem write64_in {m : Mem} {a v x : Nat} (h : a ≤ x) (h' : x < a + 8) :
    write64 m a v x = byteOf v (x - a) := by
  simp [write64, h, h']

theorem write64_out {m : Mem} {a v x : Nat} (h : x < a ∨ a + 8 ≤ x) :
    write64 m a v x = m x := by
  unfold write64
  rw [if_neg (by omega)]

theorem read32_lt (m : Mem) (a : Nat) : read32 m a < 2 ^ 32 := by
  have h0 := (m a).toNat_lt
  have h1 := (m (a + 1)).toNat_lt
  have h2 := (m (a + 2)).toNat_lt
  have h3 := (m (a + 2 + 1)).toNat_lt
  unfold read32 read16
  omega

/-- A load depends on its eight bytes only. -/
theorem read64_congr {m m' : Mem} {a : Nat} (h : ∀ x, a ≤ x → x < a + 8 → m x = m' x) :
    read64 m a = read64 m' a := by
  unfold read64
  rw [h a (by omega) (by omega), h (a + 1) (by omega) (by omega), h (a + 2) (by omega) (by omega),
    h (a + 3) (by omega) (by omega), h (a + 4) (by omega) (by omega),
    h (a + 5) (by omega) (by omega), h (a + 6) (by omega) (by omega),
    h (a + 7) (by omega) (by omega)]

theorem read16_congr {m m' : Mem} {a : Nat} (h : ∀ x, a ≤ x → x < a + 2 → m x = m' x) :
    read16 m a = read16 m' a := by
  unfold read16
  rw [h a (by omega) (by omega), h (a + 1) (by omega) (by omega)]

theorem read32_congr {m m' : Mem} {a : Nat} (h : ∀ x, a ≤ x → x < a + 4 → m x = m' x) :
    read32 m a = read32 m' a := by
  unfold read32
  rw [read16_congr fun x h1 h2 => h x (by omega) (by omega),
    read16_congr fun x h1 h2 => h x (by omega) (by omega)]

theorem read64_zero {m : Mem} {a : Nat} (h : ∀ x, a ≤ x → x < a + 8 → m x = 0) : read64 m a = 0 := by
  have hz : read64 m a = read64 (fun _ => 0) a := read64_congr h
  rw [hz]
  rfl

@[simp] theorem read64_write64 (m : Mem) (a v : Nat) :
    read64 (write64 m a v) a = v % 2 ^ 64 := by
  have hb : ∀ i, i < 8 → (write64 m a v (a + i)).toNat = v / 256 ^ i % 256 := by
    intro i hi
    rw [write64_in (by omega) (by omega), byteOf_toNat]
    congr 3
    omega
  have h0 := hb 0 (by omega)
  simp only [Nat.add_zero, Nat.pow_zero, Nat.div_one] at h0
  unfold read64
  rw [h0, hb 1 (by omega), hb 2 (by omega), hb 3 (by omega), hb 4 (by omega), hb 5 (by omega),
    hb 6 (by omega), hb 7 (by omega)]
  norm_num
  omega

theorem read64_write64_of_lt {m : Mem} {a v : Nat} (h : v < 2 ^ 64) :
    read64 (write64 m a v) a = v := by
  rw [read64_write64, Nat.mod_eq_of_lt h]

theorem read64_write64_ne {m : Mem} {a b v : Nat} (h : b + 8 ≤ a ∨ a + 8 ≤ b) :
    read64 (write64 m a v) b = read64 m b :=
  read64_congr fun x _ _ => write64_out (by omega)

/-! ## Filling -/

theorem fill64_out {m : Mem} {a v x : Nat} :
    ∀ {n : Nat}, (x < a ∨ a + 8 * n ≤ x) → fill64 m a v n x = m x
  | 0, _ => rfl
  | n + 1, h => by
    simp only [fill64]
    rw [write64_out (by omega), fill64_out (by omega)]

theorem fill64_in {m : Mem} {a v x : Nat} :
    ∀ {n : Nat}, a ≤ x → x < a + 8 * n → fill64 m a v n x = byteOf v ((x - a) % 8)
  | 0, _, h => by omega
  | n + 1, hl, hu => by
    simp only [fill64]
    by_cases hx : x < a + 8 * n
    · rw [write64_out (by omega), fill64_in hl hx]
    · rw [write64_in (by omega) (by omega), show x - (a + 8 * n) = (x - a) % 8 by omega]

/-- A zero fill leaves zero bytes. -/
theorem fill64_zero {m : Mem} {a x n : Nat} (hl : a ≤ x) (hu : x < a + 8 * n) :
    fill64 m a 0 n x = 0 := by
  rw [fill64_in hl hu]
  simp [byteOf]

/-! ## Copying -/

theorem copyUp_out {m : Mem} {dest src x : Nat} :
    ∀ {n : Nat}, (x < dest ∨ dest + n ≤ x) → copyUp m dest src n x = m x
  | 0, _ => rfl
  | n + 1, h => by
    simp only [copyUp, writeByte]
    rw [if_neg (by omega), copyUp_out (by omega)]

/-- An upward copy is right when the destination does not start inside the source. -/
theorem copyUp_in {m : Mem} {dest src : Nat} :
    ∀ {n : Nat}, (dest ≤ src ∨ src + n ≤ dest) → ∀ i, i < n →
      copyUp m dest src n (dest + i) = m (src + i)
  | 0, _, i, hi => by omega
  | n + 1, hd, i, hi => by
    simp only [copyUp, writeByte]
    by_cases hin : i = n
    · subst hin
      rw [if_pos rfl, copyUp_out (by omega)]
    · rw [if_neg (by omega), copyUp_in (by omega) i (by omega)]

/-- The first byte goes first. -/
theorem copyUp_succ (m : Mem) (dest src n : Nat) :
    copyUp m dest src (n + 1) = copyUp (writeByte m dest (m src)) (dest + 1) (src + 1) n := by
  induction n with
  | zero => rfl
  | succ n ih =>
    have hd : dest + 1 + n = dest + (n + 1) := by omega
    have hs : src + 1 + n = src + (n + 1) := by omega
    rw [copyUp, ih]
    simp only [copyUp, hd, hs]

theorem copyDown_out {m : Mem} {dest src x n : Nat} (hx : x < dest ∨ dest + n ≤ x) :
    copyDown m dest src n x = m x := by
  induction n generalizing m with
  | zero => rfl
  | succ n ih =>
    simp only [copyDown]
    rw [ih (by omega), writeByte, if_neg (by omega)]

/-- A downward copy is right when the destination does not end inside the source. -/
theorem copyDown_in {m : Mem} {dest src n : Nat} (hd : src ≤ dest ∨ dest + n ≤ src) {i : Nat}
    (hi : i < n) : copyDown m dest src n (dest + i) = m (src + i) := by
  induction n generalizing m with
  | zero => omega
  | succ n ih =>
    simp only [copyDown]
    by_cases hin : i = n
    · subst hin
      rw [copyDown_out (by omega), writeByte, if_pos rfl]
    · rw [ih (by omega) (by omega), writeByte, if_neg (by omega)]

/-! ## Blits -/

theorem blit_in {m : Mem} {a n i : Nat} {f : Nat → UInt8} (hi : i < n) : blit m a f n (a + i) = f i := by
  unfold blit
  rw [if_pos (by omega), Nat.add_sub_cancel_left]

theorem blit_out {m : Mem} {a n x : Nat} {f : Nat → UInt8} (hx : x < a ∨ a + n ≤ x) :
    blit m a f n x = m x := by
  unfold blit
  rw [if_neg (by omega)]

theorem copyUp_eq_blit {m : Mem} {dest src n : Nat} (h : dest ≤ src ∨ src + n ≤ dest) :
    copyUp m dest src n = blit m dest (fun i => m (src + i)) n := by
  funext x
  by_cases hx : dest ≤ x ∧ x < dest + n
  · obtain ⟨i, rfl⟩ := Nat.exists_eq_add_of_le hx.1
    have hi : i < n := by omega
    rw [copyUp_in h i hi, blit_in hi]
  · rw [copyUp_out (by omega), blit_out (by omega)]

end Cynix.Base.Bytes
