import Cynix.Base.Bytes
import Cynix.Base.Lexicographic

/-! # The string routines (`lib/std-memory.asm`)

The instructions the routines use, the three routines as they are listed, and
what they leave in memory and in `rax`. A string instruction under a `rep`
prefix is one step of the listing, but it works a byte at a time: it reads
memory that it is itself overwriting. Arguments are in `rdi`, `rsi` and `rdx`. -/
namespace Cynix.Lib.StdMemory
open Cynix.Base.Bytes Cynix.Base.Lexicographic

abbrev Word := BitVec 64

inductive Reg where
  | rax | rcx | rdx | rsi | rdi
  deriving DecidableEq, Repr

inductive Label where
  | copyBackwards | equal | done
  deriving DecidableEq, Repr

structure Cpu where
  regs : Reg → Word
  cf : Bool
  zf : Bool
  df : Bool
  mem : Mem

inductive Instr where
  | mov (dst src : Reg)
  | cmp (a b : Reg)
  /-- `lea r, [r+rcx-1]`. -/
  | leaLast (r : Reg)
  | std
  | cld
  | repMovsb
  | repeCmpsb
  /-- `mov al, byte [r-1]`. -/
  | movAl (r : Reg)
  /-- `sub al, byte [r-1]`. -/
  | subAl (r : Reg)
  /-- `movsx rax, al`. -/
  | movsxRaxAl
  | xorEaxEax
  | label (l : Label)
  | jmp (l : Label)
  | ja (l : Label)
  | je (l : Label)
  | ret
  deriving DecidableEq

def Cpu.setReg (s : Cpu) (r : Reg) (w : Word) : Cpu := { s with regs := Function.update s.regs r w }

/-- The byte at an address. -/
def Cpu.byte (s : Cpu) (a : Word) : UInt8 := s.mem a.toNat

/-- A string instruction moves its pointers up, or down when the direction flag is set. -/
def Cpu.advance (s : Cpu) (w : Word) : Word := if s.df then w - 1 else w + 1

def movsb (s : Cpu) : Cpu :=
  { s with
    mem := writeByte s.mem (s.regs .rdi).toNat (s.byte (s.regs .rsi))
    regs := Function.update (Function.update s.regs .rsi (s.advance (s.regs .rsi)))
      .rdi (s.advance (s.regs .rdi)) }

/-- `cmpsb` subtracts the byte at `rdi` from the byte at `rsi`. -/
def cmpsb (s : Cpu) : Cpu :=
  { s with
    cf := s.byte (s.regs .rsi) < s.byte (s.regs .rdi)
    zf := s.byte (s.regs .rsi) = s.byte (s.regs .rdi)
    regs := Function.update (Function.update s.regs .rsi (s.advance (s.regs .rsi)))
      .rdi (s.advance (s.regs .rdi)) }

/-- `rep movsb` with `n` in `rcx`. -/
def repMovsb : Nat → Cpu → Cpu
  | 0, s => s
  | n + 1, s => repMovsb n ((movsb s).setReg .rcx (BitVec.ofNat 64 n))

/-- `repe cmpsb` with `n` in `rcx`: it goes on as long as the bytes are equal,
and with a count of 0 it leaves the flags as they are. -/
def repeCmpsb : Nat → Cpu → Cpu
  | 0, s => s
  | n + 1, s =>
    let t := (cmpsb s).setReg .rcx (BitVec.ofNat 64 n)
    if t.zf then repeCmpsb n t else t

/-- The low byte of `rax`. -/
def Cpu.al (s : Cpu) : BitVec 8 := (s.regs .rax).setWidth 8

def Cpu.setAl (s : Cpu) (b : BitVec 8) : Cpu :=
  s.setReg .rax (((s.regs .rax) >>> 8 <<< 8) ||| b.setWidth 64)

/-- One instruction that is not a jump. -/
def step (s : Cpu) : Instr → Cpu
  | .mov dst src => s.setReg dst (s.regs src)
  | .cmp a b => { s with cf := s.regs a < s.regs b, zf := s.regs a = s.regs b }
  | .leaLast r => s.setReg r (s.regs r + s.regs .rcx - 1)
  | .std => { s with df := true }
  | .cld => { s with df := false }
  | .repMovsb => repMovsb (s.regs .rcx).toNat s
  | .repeCmpsb => repeCmpsb (s.regs .rcx).toNat s
  | .movAl r => s.setAl (s.byte (s.regs r - 1)).toBitVec
  | .subAl r =>
    let b := (s.byte (s.regs r - 1)).toBitVec
    { s.setAl (s.al - b) with cf := s.al < b, zf := s.al = b }
  | .movsxRaxAl => s.setReg .rax (s.al.signExtend 64)
  | .xorEaxEax => { s.setReg .rax 0 with cf := false, zf := true }
  | _ => s

/-- Runs a listing whose jumps all go forward; `target` while one is being taken. -/
def exec : Option Label → List Instr → Cpu → Cpu
  | _, [], s => s
  | some l, i :: is, s => exec (if i = .label l then none else some l) is s
  | none, i :: is, s =>
    match i with
    | .ret => s
    | .jmp l => exec (some l) is s
    | .ja l => exec (if !s.cf && !s.zf then some l else none) is s
    | .je l => exec (if s.zf then some l else none) is s
    | i => exec none is (step s i)

def memcpy : List Instr := [.mov .rcx .rdx, .mov .rax .rdi, .repMovsb, .ret]

def memmove : List Instr :=
  [.mov .rcx .rdx, .mov .rax .rdi, .cmp .rdi .rsi, .ja .copyBackwards,
    .repMovsb, .jmp .done,
    .label .copyBackwards, .leaLast .rdi, .leaLast .rsi, .std, .repMovsb, .cld,
    .label .done, .ret]

def memcmp : List Instr :=
  [.mov .rcx .rdx, .repeCmpsb, .je .equal,
    .movAl .rdi, .subAl .rsi, .movsxRaxAl, .jmp .done,
    .label .equal, .xorEaxEax,
    .label .done, .ret]

/-- A call of a routine in the state at its entry. -/
def call (code : List Instr) (s : Cpu) : Cpu := exec none code s

/-- The returned `int`. -/
def Cpu.int (s : Cpu) : Int := ((s.regs .rax).setWidth 32).toInt

/-! ## Copying -/

variable {s : Cpu} {n : Nat}

theorem Cpu.advance_up (s : Cpu) (hdf : s.df = false) (w : Word) : s.advance w = w + 1 := by
  simp [Cpu.advance, hdf]

theorem Cpu.advance_down (s : Cpu) (hdf : s.df = true) (w : Word) : s.advance w = w - 1 := by
  simp [Cpu.advance, hdf]

theorem moved_rdi (s : Cpu) (w : Word) : ((movsb s).setReg .rcx w).regs .rdi = s.advance (s.regs .rdi) := rfl
theorem moved_rsi (s : Cpu) (w : Word) : ((movsb s).setReg .rcx w).regs .rsi = s.advance (s.regs .rsi) := rfl

/-- The state one byte later. -/
theorem repMovsb_succ (n : Nat) (s : Cpu) :
    repMovsb (n + 1) s = repMovsb n ((movsb s).setReg .rcx (BitVec.ofNat 64 n)) := rfl

/-- `rep movsb` touches neither `rax` nor the direction flag. -/
theorem repMovsb_frame : (repMovsb n s).regs .rax = s.regs .rax ∧ (repMovsb n s).df = s.df := by
  induction n generalizing s with
  | zero => exact ⟨rfl, rfl⟩
  | succ n ih =>
    rw [repMovsb_succ]
    obtain ⟨hrax, hdf⟩ := ih (s := (movsb s).setReg .rcx (BitVec.ofNat 64 n))
    exact ⟨hrax.trans rfl, hdf.trans rfl⟩

/-- With the direction flag clear, `rep movsb` is the upward copy. -/
theorem repMovsb_up (hdf : s.df = false) (hd : (s.regs .rdi).toNat + n ≤ 2 ^ 64)
    (hs : (s.regs .rsi).toNat + n ≤ 2 ^ 64) :
    (repMovsb n s).mem = copyUp s.mem (s.regs .rdi).toNat (s.regs .rsi).toNat n := by
  induction n generalizing s with
  | zero => rfl
  | succ n ih =>
    rw [repMovsb_succ, copyUp_succ]
    cases n with
    | zero => rfl
    | succ n =>
      have hdi : (s.advance (s.regs .rdi)).toNat = (s.regs .rdi).toNat + 1 := by
        rw [s.advance_up hdf]
        bv_omega
      have hsi : (s.advance (s.regs .rsi)).toNat = (s.regs .rsi).toNat + 1 := by
        rw [s.advance_up hdf]
        bv_omega
      have hnext := ih (s := (movsb s).setReg .rcx (BitVec.ofNat 64 (n + 1))) hdf
        (by rw [moved_rdi, hdi]; omega) (by rw [moved_rsi, hsi]; omega)
      rw [hnext, moved_rdi, moved_rsi, hdi, hsi]
      rfl

/-- With the direction flag set, it is the downward copy; the pointers are at the last byte. -/
theorem repMovsb_down {dest src : Nat} (hdf : s.df = true)
    (hd : n ≠ 0 → (s.regs .rdi).toNat + 1 = dest + n) (hs : n ≠ 0 → (s.regs .rsi).toNat + 1 = src + n) :
    (repMovsb n s).mem = copyDown s.mem dest src n := by
  induction n generalizing s with
  | zero => rfl
  | succ n ih =>
    have hd' := hd (Nat.succ_ne_zero n)
    have hs' := hs (Nat.succ_ne_zero n)
    have hdi : n ≠ 0 → (s.advance (s.regs .rdi)).toNat + 1 = dest + n := by
      rw [s.advance_down hdf]
      bv_omega
    have hsi : n ≠ 0 → (s.advance (s.regs .rsi)).toNat + 1 = src + n := by
      rw [s.advance_down hdf]
      bv_omega
    have hnext := ih (s := (movsb s).setReg .rcx (BitVec.ofNat 64 n)) hdf hdi hsi
    have hdn : (s.regs .rdi).toNat = dest + n := by omega
    have hsn : (s.regs .rsi).toNat = src + n := by omega
    rw [repMovsb_succ, hnext, copyDown, ← hdn, ← hsn]
    rfl

/-! ## `memcpy` and `memmove` -/

theorem call_memcpy : call memcpy s =
    repMovsb (s.regs .rdx).toNat ((s.setReg .rcx (s.regs .rdx)).setReg .rax (s.regs .rdi)) := rfl

/-- `memcpy` is the copy that `realloc` and `slab_realloc` are modelled with. -/
theorem memcpy_eq_copyUp (hdf : s.df = false)
    (hd : (s.regs .rdi).toNat + (s.regs .rdx).toNat ≤ 2 ^ 64)
    (hs : (s.regs .rsi).toNat + (s.regs .rdx).toNat ≤ 2 ^ 64) :
    (call memcpy s).mem = copyUp s.mem (s.regs .rdi).toNat (s.regs .rsi).toNat (s.regs .rdx).toNat ∧
      (call memcpy s).regs .rax = s.regs .rdi := by
  rw [call_memcpy]
  exact ⟨repMovsb_up hdf hd hs, repMovsb_frame.1⟩

/-- `memmove` after its comparison. -/
def compared (s : Cpu) : Cpu :=
  step ((s.setReg .rcx (s.regs .rdx)).setReg .rax (s.regs .rdi)) (.cmp .rdi .rsi)

/-- `memmove` with its pointers at the last bytes. -/
def atLast (s : Cpu) : Cpu :=
  step (step (step (compared s) (.leaLast .rdi)) (.leaLast .rsi)) .std

/-- The two ways through `memmove`. -/
theorem call_memmove : call memmove s =
    if s.regs .rsi < s.regs .rdi then { repMovsb (s.regs .rdx).toNat (atLast s) with df := false }
    else repMovsb (s.regs .rdx).toNat (compared s) := by
  have hja : (!(compared s).cf && !(compared s).zf) = decide (s.regs .rsi < s.regs .rdi) := by
    change (!decide (s.regs .rdi < s.regs .rsi) && !decide (s.regs .rdi = s.regs .rsi)) = _
    rw [Bool.eq_iff_iff]
    simp only [Bool.and_eq_true, Bool.not_eq_true', decide_eq_false_iff_not, decide_eq_true_eq]
    bv_omega
  change exec (if !(compared s).cf && !(compared s).zf then some .copyBackwards else none) _ (compared s) = _
  rw [hja]
  by_cases h : s.regs .rsi < s.regs .rdi
  · rw [if_pos h, decide_eq_true h]
    rfl
  · rw [if_neg h, decide_eq_false h]
    rfl

/-- **`memmove` is right under every overlap.** -/
theorem memmove_correct (s : Cpu) (hdf : s.df = false)
    (hd : (s.regs .rdi).toNat + (s.regs .rdx).toNat ≤ 2 ^ 64)
    (hs : (s.regs .rsi).toNat + (s.regs .rdx).toNat ≤ 2 ^ 64) :
    (∀ i < (s.regs .rdx).toNat,
      (call memmove s).mem ((s.regs .rdi).toNat + i) = s.mem ((s.regs .rsi).toNat + i)) ∧
    (∀ x, x < (s.regs .rdi).toNat ∨ (s.regs .rdi).toNat + (s.regs .rdx).toNat ≤ x →
      (call memmove s).mem x = s.mem x) ∧
    (call memmove s).regs .rax = s.regs .rdi ∧
    (call memmove s).df = false := by
  rw [call_memmove]
  by_cases h : s.regs .rsi < s.regs .rdi
  · -- the destination is above: the last byte goes first
    have hle : (s.regs .rsi).toNat ≤ (s.regs .rdi).toNat := by bv_omega
    have hdi : (s.regs .rdx).toNat ≠ 0 →
        (s.regs .rdi + s.regs .rdx - 1).toNat + 1 = (s.regs .rdi).toNat + (s.regs .rdx).toNat := by
      bv_omega
    have hsi : (s.regs .rdx).toNat ≠ 0 →
        (s.regs .rsi + s.regs .rdx - 1).toNat + 1 = (s.regs .rsi).toNat + (s.regs .rdx).toNat := by
      bv_omega
    have hmem : (repMovsb (s.regs .rdx).toNat (atLast s)).mem =
        copyDown s.mem (s.regs .rdi).toNat (s.regs .rsi).toNat (s.regs .rdx).toNat :=
      repMovsb_down rfl hdi hsi
    rw [if_pos h]
    simp only [hmem]
    refine ⟨?_, ?_, repMovsb_frame.1, trivial⟩
    · intro i hi
      exact copyDown_in (Or.inl hle) hi
    · intro x hx
      exact copyDown_out hx
  · have hle : (s.regs .rdi).toNat ≤ (s.regs .rsi).toNat := by bv_omega
    have hmem : (repMovsb (s.regs .rdx).toNat (compared s)).mem =
        copyUp s.mem (s.regs .rdi).toNat (s.regs .rsi).toNat (s.regs .rdx).toNat :=
      repMovsb_up hdf hd hs
    rw [if_neg h, hmem]
    refine ⟨?_, ?_, repMovsb_frame.1, repMovsb_frame.2.trans hdf⟩
    · intro i hi
      exact copyUp_in (Or.inl hle) i hi
    · intro x hx
      exact copyUp_out hx

/-- A call with these arguments and the direction flag clear. -/
def atEntry (rdi rsi rdx : Word) (zf : Bool) (mem : Mem) : Cpu where
  regs r := match r with
    | .rdi => rdi
    | .rsi => rsi
    | .rdx => rdx
    | _ => 0
  cf := false
  zf := zf
  df := false
  mem := mem

/-- Three bytes moved up by one, over themselves. -/
theorem memmove_correct_overlap :
    (call memmove (atEntry 0x1001 0x1000 3 false fun x => UInt8.ofNat x)).mem 0x1003 = 2 ∧
      (call memmove (atEntry 0x1001 0x1000 3 false fun x => UInt8.ofNat x)).df = false := by
  obtain ⟨hin, -, -, hdf⟩ :=
    memmove_correct (atEntry 0x1001 0x1000 3 false fun x => UInt8.ofNat x) rfl (by decide) (by decide)
  exact ⟨hin 2 (by decide), hdf⟩

/-! ## `memcmp` -/

/-- The bytes from `p` on, as `unsigned char`s. -/
def Cpu.chars (s : Cpu) (p : Word) (i : Nat) : Nat := (s.byte (p + BitVec.ofNat 64 i)).toNat

/-- The 8-bit difference that `memcmp` returns. -/
def diff (a b : UInt8) : Int := (a.toBitVec - b.toBitVec).toInt

/-- `repe cmpsb` after one byte. -/
def cmpNext (n : Nat) (s : Cpu) : Cpu := (cmpsb s).setReg .rcx (BitVec.ofNat 64 n)

theorem cmpNext_rdi (hdf : s.df = false) : (cmpNext n s).regs .rdi = s.regs .rdi + 1 := s.advance_up hdf _
theorem cmpNext_rsi (hdf : s.df = false) : (cmpNext n s).regs .rsi = s.regs .rsi + 1 := s.advance_up hdf _

theorem cmpNext_zf : (cmpNext n s).zf = decide (s.chars (s.regs .rdi) 0 = s.chars (s.regs .rsi) 0) := by
  change decide (s.byte (s.regs .rsi) = s.byte (s.regs .rdi)) = _
  unfold Cpu.chars
  rw [BitVec.add_zero, BitVec.add_zero, decide_eq_decide, UInt8.toNat_inj]
  exact eq_comm

theorem add_one_ofNat (p : Word) (i : Nat) : p + 1 + BitVec.ofNat 64 i = p + BitVec.ofNat 64 (i + 1) := by
  bv_omega

/-- The strings one byte further on. -/
theorem cmpNext_chars (p : Word) : (cmpNext n s).chars (p + 1) = fun i => s.chars p (i + 1) := by
  funext i
  unfold Cpu.chars
  rw [add_one_ofNat]
  rfl

/-- The calls on which the sign of `memcmp` is right: where nothing is to be
compared, the caller has left the zero flag set or the bytes before the strings
are equal, and the first difference fits in 8 signed bits. -/
def SignOk (s : Cpu) : Prop :=
  (s.regs .rdx = 0 → s.zf = true ∨ s.byte (s.regs .rdi - 1) = s.byte (s.regs .rsi - 1)) ∧
  ∀ k < (s.regs .rdx).toNat, Agree (s.chars (s.regs .rdi)) (s.chars (s.regs .rsi)) k →
    s.chars (s.regs .rdi) k ≤ s.chars (s.regs .rsi) k + 127 ∧
    s.chars (s.regs .rsi) k ≤ s.chars (s.regs .rdi) k + 128

/-- The result of `memcmp` is the order of the two strings. -/
def Lexicographic (s : Cpu) : Prop :=
  Compares (s.chars (s.regs .rdi)) (s.chars (s.regs .rsi)) (s.regs .rdx).toNat (call memcmp s).int

/-- What `repe cmpsb` has found in `n` bytes: they agree, or it stands behind the first difference. -/
def Stopped (n : Nat) (s t : Cpu) : Prop :=
  Agree (s.chars (s.regs .rdi)) (s.chars (s.regs .rsi)) n ∧ t.zf = (s.zf || n != 0) ∧
      t.regs .rdi = s.regs .rdi + BitVec.ofNat 64 n ∧ t.regs .rsi = s.regs .rsi + BitVec.ofNat 64 n ∨
    ∃ k, k < n ∧ Agree (s.chars (s.regs .rdi)) (s.chars (s.regs .rsi)) k ∧
      s.chars (s.regs .rdi) k ≠ s.chars (s.regs .rsi) k ∧ t.zf = false ∧
      t.regs .rdi = s.regs .rdi + BitVec.ofNat 64 (k + 1) ∧
      t.regs .rsi = s.regs .rsi + BitVec.ofNat 64 (k + 1)

theorem repeCmpsb_stopped (hdf : s.df = false) :
    (repeCmpsb n s).mem = s.mem ∧ Stopped n s (repeCmpsb n s) := by
  induction n generalizing s with
  | zero =>
    refine ⟨rfl, Or.inl ⟨fun i hi => absurd hi (Nat.not_lt_zero i), ?_, ?_, ?_⟩⟩
    · exact (Bool.or_false _).symm
    · exact (BitVec.add_zero _).symm
    · exact (BitVec.add_zero _).symm
  | succ n ih =>
    change ((if (cmpNext n s).zf then repeCmpsb n (cmpNext n s) else cmpNext n s).mem = s.mem) ∧
      Stopped (n + 1) s (if (cmpNext n s).zf then repeCmpsb n (cmpNext n s) else cmpNext n s)
    have hzf : (cmpNext n s).zf = _ := cmpNext_zf
    by_cases h0 : s.chars (s.regs .rdi) 0 = s.chars (s.regs .rsi) 0
    · rw [decide_eq_true h0] at hzf
      obtain ⟨hmem, hstop⟩ := ih (s := cmpNext n s) hdf
      rw [if_pos hzf]
      refine ⟨hmem.trans rfl, ?_⟩
      unfold Stopped at hstop ⊢
      rw [cmpNext_rdi hdf, cmpNext_rsi hdf, cmpNext_chars, cmpNext_chars, hzf] at hstop
      simp only [add_one_ofNat] at hstop
      rcases hstop with ⟨hag, hz, hdi, hsi⟩ | ⟨k, hk, hag, hne, hz, hdi, hsi⟩
      · exact Or.inl ⟨agree_succ.mpr ⟨h0, hag⟩, by simpa using hz, hdi, hsi⟩
      · exact Or.inr ⟨k + 1, by omega, agree_succ.mpr ⟨h0, hag⟩, hne, hz, hdi, hsi⟩
    · rw [decide_eq_false h0] at hzf
      rw [if_neg (by simp [hzf])]
      refine ⟨rfl, Or.inr ⟨0, Nat.succ_pos n, fun i hi => absurd hi (Nat.not_lt_zero i), h0, hzf, ?_, ?_⟩⟩
      · exact cmpNext_rdi hdf
      · exact cmpNext_rsi hdf

/-- The low byte of `rax` after a write to `al`. -/
theorem setAl_al (s : Cpu) (b : BitVec 8) : (s.setAl b).al = b := by
  change BitVec.setWidth 8 ((s.regs .rax >>> 8 <<< 8) ||| b.setWidth 64) = b
  apply BitVec.eq_of_getLsbD_eq
  intro i hi
  simp [hi]

/-- `movsx` and the truncation to an `int` keep the value. -/
theorem int_signExtend (b : BitVec 8) : ((b.signExtend 64).setWidth 32).toInt = b.toInt := by
  revert b
  decide +kernel

/-- The state after the string instruction of `memcmp`. -/
def scanned (s : Cpu) : Cpu := repeCmpsb (s.regs .rdx).toNat (s.setReg .rcx (s.regs .rdx))

theorem int_memcmp : (call memcmp s).int =
    if (scanned s).zf then 0
    else diff ((scanned s).byte ((scanned s).regs .rdi - 1)) ((scanned s).byte ((scanned s).regs .rsi - 1)) := by
  change Cpu.int (exec (if (scanned s).zf then some .equal else none) _ (scanned s)) = _
  cases hz : (scanned s).zf with
  | true => rfl
  | false =>
    change BitVec.toInt (BitVec.setWidth 32 (BitVec.signExtend 64 (Cpu.al (Cpu.setAl _ _)))) = _
    rw [setAl_al, int_signExtend]
    change BitVec.toInt (Cpu.al (Cpu.setAl _ _) - _) = _
    rw [setAl_al]
    rfl

/-- The sign of the 8-bit difference is right for bytes that are close. -/
theorem diff_spec (a b : UInt8) : (diff a b = 0 ↔ a = b) ∧
    (diff a b < 0 ↔ a.toNat < b.toNat ∧ b.toNat ≤ a.toNat + 128 ∨ b.toNat + 127 < a.toNat) := by
  have ha := a.toNat_lt
  have hb := b.toNat_lt
  unfold diff
  rw [BitVec.toInt_eq_toNat_cond, BitVec.toNat_sub, UInt8.toNat_toBitVec, UInt8.toNat_toBitVec,
    ← UInt8.toNat_inj]
  constructor
  · split <;> omega
  · split <;> omega

/-- A call that compares nothing returns what the flags and the bytes before the strings say. -/
theorem int_memcmp_empty (hn : s.regs .rdx = 0) : (call memcmp s).int =
    if s.zf then 0 else diff (s.byte (s.regs .rdi - 1)) (s.byte (s.regs .rsi - 1)) := by
  have hscan : scanned s = s.setReg .rcx (s.regs .rdx) := by
    unfold scanned
    rw [hn]
    rfl
  rw [int_memcmp, hscan]
  rfl

/-- On strings that agree the result is 0, and otherwise the first difference. -/
theorem int_memcmp_cases (hdf : s.df = false) (hn : s.regs .rdx ≠ 0) :
    Agree (s.chars (s.regs .rdi)) (s.chars (s.regs .rsi)) (s.regs .rdx).toNat ∧ (call memcmp s).int = 0 ∨
    ∃ k, k < (s.regs .rdx).toNat ∧ Agree (s.chars (s.regs .rdi)) (s.chars (s.regs .rsi)) k ∧
      s.chars (s.regs .rdi) k ≠ s.chars (s.regs .rsi) k ∧
      (call memcmp s).int = diff (s.byte (s.regs .rdi + BitVec.ofNat 64 k))
        (s.byte (s.regs .rsi + BitVec.ofNat 64 k)) := by
  have hlen : (s.regs .rdx).toNat ≠ 0 := fun h => hn (BitVec.eq_of_toNat_eq h)
  obtain ⟨hmem, hstop⟩ : (scanned s).mem = s.mem ∧
      Stopped (s.regs .rdx).toNat (s.setReg .rcx (s.regs .rdx)) (scanned s) := repeCmpsb_stopped hdf
  rw [int_memcmp]
  rcases hstop with ⟨hag, hz, -, -⟩ | ⟨k, hk, hag, hne, hz, hdi, hsi⟩
  · rw [hz, if_pos (by simp [hlen])]
    exact Or.inl ⟨hag, rfl⟩
  · have hp : ∀ p : Word, p + BitVec.ofNat 64 (k + 1) - 1 = p + BitVec.ofNat 64 k := by bv_omega
    rw [hz, if_neg (by simp), hdi, hsi, hp, hp]
    unfold Cpu.byte
    rw [hmem]
    exact Or.inr ⟨k, hk, hag, hne, rfl⟩

theorem lexicographic_iff (hdf : s.df = false) : Lexicographic s ↔ SignOk s := by
  unfold Lexicographic SignOk
  by_cases hn : s.regs .rdx = 0
  · have hlen : (s.regs .rdx).toNat = 0 := by rw [hn]; rfl
    rw [hlen, compares_of_agree (fun i hi => absurd hi (Nat.not_lt_zero i)), int_memcmp_empty hn]
    cases s.zf with
    | true => simp
    | false => simpa [hn] using (diff_spec _ _).1
  · rcases int_memcmp_cases hdf hn with ⟨hag, hint⟩ | ⟨k, hk, hag, hne, hint⟩
    · refine iff_of_true ((compares_of_agree hag).mpr hint) ⟨fun h => absurd h hn, ?_⟩
      intro k hk _
      have := hag k hk
      omega
    · have hneg := (diff_spec (s.byte (s.regs .rdi + BitVec.ofNat 64 k))
        (s.byte (s.regs .rsi + BitVec.ofNat 64 k))).2
      have hzero := (diff_spec (s.byte (s.regs .rdi + BitVec.ofNat 64 k))
        (s.byte (s.regs .rsi + BitVec.ofNat 64 k))).1
      rw [← UInt8.toNat_inj] at hzero
      rw [compares_of_first hk hag hne, hint]
      unfold Cpu.chars at hne hag ⊢
      constructor
      · intro h
        refine ⟨fun h => absurd h hn, ?_⟩
        intro j _ hj
        by_cases heq : (s.byte (s.regs .rdi + BitVec.ofNat 64 j)).toNat =
            (s.byte (s.regs .rsi + BitVec.ofNat 64 j)).toNat
        · omega
        · obtain rfl := first_unique hag hne hj heq
          omega
      · intro h
        have := h.2 k hk hag
        omega

/-- **The sign of `memcmp`** is that of the unsigned lexicographic order on
exactly these calls, and on them it is antisymmetric and transitive. -/
theorem memcmp_lexicographic_iff (s : Cpu) (hs : s.df = false) :
    (Lexicographic s ↔ SignOk s) ∧
    (∀ t : Cpu, t.df = false → SignOk s → SignOk t → t.mem = s.mem →
      t.regs .rdi = s.regs .rsi → t.regs .rsi = s.regs .rdi → t.regs .rdx = s.regs .rdx →
      (call memcmp t).int.sign = -(call memcmp s).int.sign) ∧
    (∀ t u : Cpu, t.df = false → u.df = false → SignOk s → SignOk t → SignOk u →
      t.mem = s.mem → u.mem = s.mem → t.regs .rdi = s.regs .rsi → u.regs .rdi = s.regs .rdi →
      u.regs .rsi = t.regs .rsi → t.regs .rdx = s.regs .rdx → u.regs .rdx = s.regs .rdx →
      (call memcmp s).int ≤ 0 → (call memcmp t).int ≤ 0 →
      (call memcmp u).int ≤ 0 ∧
      ((call memcmp s).int < 0 ∨ (call memcmp t).int < 0 → (call memcmp u).int < 0)) := by
  have hchars : ∀ {s t : Cpu}, t.mem = s.mem → t.chars = s.chars := by
    intro s t hm
    unfold Cpu.chars Cpu.byte
    rw [hm]
  refine ⟨lexicographic_iff hs, ?_, ?_⟩
  · intro t ht hoks hokt hm hdi hsi hdx
    have h := (lexicographic_iff hs).mpr hoks
    have h' := (lexicographic_iff ht).mpr hokt
    unfold Lexicographic at h h'
    rw [hdi, hsi, hdx, hchars hm] at h'
    exact h.antisymm h'
  · intro t u ht hu hoks hokt hoku hmt hmu hdit hdiu hsiu hdxt hdxu
    have h := (lexicographic_iff hs).mpr hoks
    have h' := (lexicographic_iff ht).mpr hokt
    have h'' := (lexicographic_iff hu).mpr hoku
    unfold Lexicographic at h h' h''
    rw [hdit, hdxt, hchars hmt] at h'
    rw [hdiu, hsiu, hdxu, hchars hmu] at h''
    exact h.trans h' h''

/-- The strings 01 and ff. -/
def oneAndFf : Mem := fun x => if x = 0x1000 then 0x01 else if x = 0x2000 then 0xff else 0

/-- The two strings on which the sign is right: 01 before 02. -/
theorem memcmp_lexicographic_iff_close :
    Lexicographic (atEntry 0x1000 0x2000 1 false fun x => if x = 0x1000 then 1 else 2) := by
  refine (memcmp_lexicographic_iff _ rfl).1.mpr ⟨by decide, ?_⟩
  intro k hk _
  obtain rfl : k = 0 := by
    change k < 1 at hk
    omega
  decide

/-- `ff` comes out before `01`, and comparing nothing finds a difference when
the zero flag was clear. -/
theorem memcmp_sign_wrong :
    ¬ Lexicographic (atEntry 0x2000 0x1000 1 false oneAndFf) ∧
    ¬ Lexicographic (atEntry 0x2001 0x1001 0 false oneAndFf) := by
  constructor
  · intro h
    have hpos := h.greater ⟨0, by decide, fun i hi => absurd hi (Nat.not_lt_zero i), by decide⟩
    exact absurd hpos (by decide)
  · intro h
    have hzero := h.equal fun i hi => absurd hi (Nat.not_lt_zero i)
    exact absurd hzero (by decide)

end Cynix.Lib.StdMemory
