import Cynix.Base.Bytes

/-! # Helpers of `lib/misc.k.h`

The rounding macros on 64-bit operands, and the three bitmap primitives on a
bitmap of bytes. Additions and products wrap; the modulus stays visible, since
several callers pass values next to `2 ^ 64`. -/
namespace Cynix.Lib.Misc
open Cynix.Base.Bytes

/-- `PAGE_SIZE` of `mm/generic.k.h`. -/
abbrev pageSize : Nat := 4096

/-- Unsigned 64-bit subtraction. -/
def sub64 (a b : Nat) : Nat := (a + 2 ^ 64 - b) % 2 ^ 64

def divRoundup (value div : Nat) : Nat := (value + (div - 1)) % 2 ^ 64 / div

def alignUp (value align : Nat) : Nat := divRoundup value align * align % 2 ^ 64

def alignDown (value align : Nat) : Nat := value / align * align

def bitTest (bitmap : Mem) (bit : Nat) : Bool := bitmap (bit / 8) &&& (1 <<< UInt8.ofNat (bit % 8)) != 0

def bitSet (bitmap : Mem) (bit : Nat) : Mem :=
  writeByte bitmap (bit / 8) (bitmap (bit / 8) ||| (1 <<< UInt8.ofNat (bit % 8)))

def bitReset (bitmap : Mem) (bit : Nat) : Mem :=
  writeByte bitmap (bit / 8) (bitmap (bit / 8) &&& ~~~(1 <<< UInt8.ofNat (bit % 8)))

/-! ## Rounding -/

theorem sub64_eq {a b : Nat} (h : b ≤ a) (ha : a < 2 ^ 64) : sub64 a b = a - b := by
  unfold sub64
  omega

theorem divRoundup_page {v : Nat} (h : v + 4095 < 2 ^ 64) :
    divRoundup v pageSize = (v + 4095) / 4096 := by
  unfold divRoundup pageSize
  omega

theorem divRoundup_page_lt (v : Nat) : divRoundup v pageSize < 2 ^ 52 := by
  unfold divRoundup pageSize
  omega

/-! ## Bits -/

theorem uint8_bit_toNat {k : Nat} (hk : k < 8) : ((1 : UInt8) <<< UInt8.ofNat k).toNat = 2 ^ k := by
  interval_cases k <;> rfl

/-- A bit of a byte, read through its mask. -/
theorem and_bit_ne_zero (b : UInt8) {k : Nat} (hk : k < 8) :
    (b &&& (1 <<< UInt8.ofNat k) != 0) = b.toNat.testBit k := by
  have hz : (b &&& (1 <<< UInt8.ofNat k) = 0) ↔ b.toNat &&& 2 ^ k = 0 := by
    rw [← UInt8.toNat_inj, UInt8.toNat_and, uint8_bit_toNat hk]
    rfl
  rw [Bool.eq_iff_iff, bne_iff_ne, Ne, hz, Nat.and_two_pow]
  cases b.toNat.testBit k <;> simp

theorem bitTest_eq_testBit (bitmap : Mem) (bit : Nat) :
    bitTest bitmap bit = (bitmap (bit / 8)).toNat.testBit (bit % 8) :=
  and_bit_ne_zero _ (Nat.mod_lt _ (by decide))

theorem or_bit_testBit (b : UInt8) {k j : Nat} (hk : k < 8) :
    (b ||| (1 <<< UInt8.ofNat k)).toNat.testBit j = (b.toNat.testBit j || decide (k = j)) := by
  rw [UInt8.toNat_or, uint8_bit_toNat hk, Nat.testBit_or, Nat.testBit_two_pow]

theorem and_not_bit_testBit (b : UInt8) {k j : Nat} (hk : k < 8) (hj : j < 8) :
    (b &&& ~~~(1 <<< UInt8.ofNat k)).toNat.testBit j = (b.toNat.testBit j && !decide (k = j)) := by
  have hn : (~~~((1 : UInt8) <<< UInt8.ofNat k)).toNat.testBit j = !decide (k = j) := by
    interval_cases k <;> interval_cases j <;> rfl
  rw [UInt8.toNat_and, Nat.testBit_and, hn]

/-- Setting a bit sets that bit and no other. -/
@[simp] theorem bitTest_bitSet (bitmap : Mem) (i j : Nat) :
    bitTest (bitSet bitmap i) j = (decide (i = j) || bitTest bitmap j) := by
  rw [bitTest_eq_testBit, bitTest_eq_testBit]
  unfold bitSet writeByte
  by_cases hb : j / 8 = i / 8
  · rw [if_pos hb, or_bit_testBit _ (Nat.mod_lt _ (by decide)), hb, Bool.or_comm]
    have : (i % 8 = j % 8) ↔ (i = j) := by omega
    simp only [this]
  · have : i ≠ j := by rintro rfl; exact hb rfl
    rw [if_neg hb, decide_eq_false this, Bool.false_or]

/-- Clearing a bit clears that bit and no other. -/
@[simp] theorem bitTest_bitReset (bitmap : Mem) (i j : Nat) :
    bitTest (bitReset bitmap i) j = (!decide (i = j) && bitTest bitmap j) := by
  rw [bitTest_eq_testBit, bitTest_eq_testBit]
  unfold bitReset writeByte
  by_cases hb : j / 8 = i / 8
  · rw [if_pos hb, and_not_bit_testBit _ (Nat.mod_lt _ (by decide)) (Nat.mod_lt _ (by decide)), hb,
      Bool.and_comm]
    have : (i % 8 = j % 8) ↔ (i = j) := by omega
    simp only [this]
  · have : i ≠ j := by rintro rfl; exact hb rfl
    rw [if_neg hb, decide_eq_false this, Bool.not_false, Bool.true_and]

/-! ## Masks -/

/-- The bits from `a` up to `b`. -/
theorem and_bits (x : Nat) {a b : Nat} (h : a ≤ b) : x &&& (2 ^ b - 2 ^ a) = x % 2 ^ b - x % 2 ^ a := by
  have hmask : 2 ^ b - 2 ^ a = (2 ^ (b - a) - 1) <<< a := by
    rw [Nat.shiftLeft_eq, Nat.sub_mul, ← Nat.pow_add, Nat.sub_add_cancel h, Nat.one_mul]
  have hcut : x % 2 ^ b - x % 2 ^ a = ((x % 2 ^ b) >>> a) <<< a := by
    have hmod : x % 2 ^ b % 2 ^ a = x % 2 ^ a := Nat.mod_mod_of_dvd x (Nat.pow_dvd_pow 2 h)
    rw [Nat.shiftRight_eq_div_pow, Nat.shiftLeft_eq, ← hmod, Nat.mul_comm]
    have := Nat.div_add_mod (x % 2 ^ b) (2 ^ a)
    omega
  rw [hmask, hcut]
  apply Nat.eq_of_testBit_eq
  intro i
  simp only [Nat.testBit_and, Nat.testBit_shiftLeft, Nat.testBit_two_pow_sub_one,
    Nat.testBit_shiftRight, Nat.testBit_mod_two_pow]
  by_cases hi : a ≤ i
  · rw [show a + (i - a) = i by omega]
    by_cases hb : i < b
    · simp [hi, hb, show i - a < b - a by omega]
    · simp [hi, hb, show ¬ i - a < b - a by omega]
  · simp [hi]

end Cynix.Lib.Misc
