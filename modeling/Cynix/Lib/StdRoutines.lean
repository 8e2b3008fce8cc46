import Cynix.Lib.StdMemory

/-! # `memset`, and `memcpy` beside `memmove` (`lib/std-memory.asm`)

`memset` keeps its first argument on the stack while it fills, so what it
returns depends on the fill leaving that slot alone. `memcpy` is the upward
copy of `memmove`, taken without looking at the pointers. -/
namespace Cynix.Lib.StdRoutines
open Cynix.Base.Bytes Cynix.Lib.StdMemory

/-! ## `memset` -/

/-- The CPU with its stack pointer. -/
structure Stacked where
  cpu : Cpu
  rsp : Word

inductive Instr where
  | push (r : Reg)
  | pop (r : Reg)
  | mov (dst src : Reg)
  | repStosb
  | ret
  deriving DecidableEq

def stosb (s : Cpu) : Cpu :=
  { s with
    mem := writeByte s.mem (s.regs .rdi).toNat ⟨s.al⟩
    regs := Function.update s.regs .rdi (s.advance (s.regs .rdi)) }

/-- `rep stosb` with `n` in `rcx`. -/
def repStosb : Nat → Cpu → Cpu
  | 0, s => s
  | n + 1, s => repStosb n ((stosb s).setReg .rcx (BitVec.ofNat 64 n))

def step (s : Stacked) : Instr → Stacked
  | .push r => ⟨{ s.cpu with mem := write64 s.cpu.mem (s.rsp - 8).toNat (s.cpu.regs r).toNat }, s.rsp - 8⟩
  | .pop r => ⟨s.cpu.setReg r (BitVec.ofNat 64 (read64 s.cpu.mem s.rsp.toNat)), s.rsp + 8⟩
  | .mov dst src => { s with cpu := s.cpu.setReg dst (s.cpu.regs src) }
  | .repStosb => { s with cpu := repStosb (s.cpu.regs .rcx).toNat s.cpu }
  | .ret => s

def exec : List Instr → Stacked → Stacked
  | [], s => s
  | .ret :: _, s => s
  | i :: is, s => exec is (step s i)

def memset : List Instr := [.push .rdi, .mov .rax .rsi, .mov .rcx .rdx, .repStosb, .pop .rax, .ret]

/-- A byte `n` times. -/
def fillBytes (m : Mem) (dest : Nat) (b : UInt8) : Nat → Mem
  | 0 => m
  | n + 1 => fillBytes (writeByte m dest b) (dest + 1) b n

theorem fillBytes_out {m : Mem} {dest x n : Nat} {b : UInt8} (hx : x < dest ∨ dest + n ≤ x) : fillBytes m dest b n x = m x := by
  induction n generalizing m dest with
  | zero => rfl
  | succ n ih => rw [fillBytes, ih (by omega), writeByte, if_neg (by omega)]

theorem fillBytes_in {m : Mem} {dest i n : Nat} {b : UInt8} (hi : i < n) : fillBytes m dest b n (dest + i) = b := by
  induction n generalizing m dest i with
  | zero => omega
  | succ n ih =>
    rw [fillBytes]
    cases i with
    | zero => rw [fillBytes_out (by omega), writeByte, if_pos (Nat.add_zero dest)]
    | succ i =>
      have heq : dest + (i + 1) = dest + 1 + i := by omega
      rw [heq, ih (by omega)]

variable {s : Cpu} {n : Nat}

theorem repStosb_succ (n : Nat) (s : Cpu) : repStosb (n + 1) s = repStosb n ((stosb s).setReg .rcx (BitVec.ofNat 64 n)) := rfl

/-- With the direction flag clear, `rep stosb` fills upwards; it changes no other register than `rdi` and `rcx`. -/
theorem repStosb_up (hdf : s.df = false) (hd : (s.regs .rdi).toNat + n ≤ 2 ^ 64) :
    (repStosb n s).mem = fillBytes s.mem (s.regs .rdi).toNat ⟨s.al⟩ n ∧ (repStosb n s).df = false := by
  induction n generalizing s with
  | zero => exact ⟨rfl, hdf⟩
  | succ n ih =>
    rw [repStosb_succ, fillBytes]
    cases n with
    | zero => exact ⟨rfl, hdf⟩
    | succ n =>
      have hdi : (s.advance (s.regs .rdi)).toNat = (s.regs .rdi).toNat + 1 := by
        rw [s.advance_up hdf]
        bv_omega
      have hnext := ih (s := (stosb s).setReg .rcx (BitVec.ofNat 64 (n + 1))) hdf
        (by change (s.advance (s.regs .rdi)).toNat + _ ≤ _; omega)
      refine ⟨?_, hnext.2⟩
      rw [hnext.1]
      change fillBytes _ (s.advance (s.regs .rdi)).toNat ⟨s.al⟩ (n + 1) = _
      rw [hdi]
      rfl

/-- **`memset` fills its range and nothing else.** For every state with the direction flag clear whose range does not
wrap around and does not meet the eight bytes below the stack pointer: the bytes of the range are the low byte of the
second argument, all others but those eight are as before, and the first argument comes back. -/
theorem memset_fills (s : Stacked) (hdf : s.cpu.df = false)
    (hd : (s.cpu.regs .rdi).toNat + (s.cpu.regs .rdx).toNat ≤ 2 ^ 64) (hsp : 8 ≤ s.rsp.toNat)
    (hslot : s.rsp.toNat ≤ (s.cpu.regs .rdi).toNat ∨
      (s.cpu.regs .rdi).toNat + (s.cpu.regs .rdx).toNat ≤ s.rsp.toNat - 8) :
    (∀ i, i < (s.cpu.regs .rdx).toNat → (exec memset s).cpu.mem ((s.cpu.regs .rdi).toNat + i) =
      ⟨(s.cpu.regs .rsi).setWidth 8⟩) ∧
    (∀ x, x < (s.cpu.regs .rdi).toNat ∨ (s.cpu.regs .rdi).toNat + (s.cpu.regs .rdx).toNat ≤ x →
      x < s.rsp.toNat - 8 ∨ s.rsp.toNat ≤ x → (exec memset s).cpu.mem x = s.cpu.mem x) ∧
    (exec memset s).cpu.regs .rax = s.cpu.regs .rdi ∧ (exec memset s).rsp = s.rsp ∧ (exec memset s).cpu.df = false := by
  have hlow : (s.rsp - 8).toNat = s.rsp.toNat - 8 := by bv_omega
  -- the CPU before the fill
  obtain ⟨t, ht⟩ : ∃ t : Cpu, t = (step (step (step s (.push .rdi)) (.mov .rax .rsi)) (.mov .rcx .rdx)).cpu := ⟨_, rfl⟩
  have hmem : t.mem = write64 s.cpu.mem (s.rsp.toNat - 8) (s.cpu.regs .rdi).toNat := by
    rw [ht, ← hlow]
    rfl
  have hrdi : t.regs .rdi = s.cpu.regs .rdi := by rw [ht]; rfl
  have hal : t.al = (s.cpu.regs .rsi).setWidth 8 := by rw [ht]; rfl
  obtain ⟨hfill, hdf'⟩ := repStosb_up (s := t) (n := (s.cpu.regs .rdx).toNat) (by rw [ht]; exact hdf) (by rw [hrdi]; exact hd)
  have hend : exec memset s = ⟨(repStosb (s.cpu.regs .rdx).toNat t).setReg .rax
      (BitVec.ofNat 64 (read64 (repStosb (s.cpu.regs .rdx).toNat t).mem (s.rsp - 8).toNat)), s.rsp - 8 + 8⟩ := by
    rw [ht]
    rfl
  have hout : (repStosb (s.cpu.regs .rdx).toNat t).mem = fillBytes (write64 s.cpu.mem (s.rsp.toNat - 8)
      (s.cpu.regs .rdi).toNat) (s.cpu.regs .rdi).toNat ⟨(s.cpu.regs .rsi).setWidth 8⟩ (s.cpu.regs .rdx).toNat := by
    rw [hfill, hmem, hrdi, hal]
  rw [hend]
  refine ⟨?_, ?_, ?_, ?_, hdf'⟩
  · intro i hi
    change (repStosb _ t).mem _ = _
    rw [hout]
    exact fillBytes_in hi
  · intro x hx hx'
    change (repStosb _ t).mem _ = _
    rw [hout, fillBytes_out hx, write64_out (by omega)]
  · change BitVec.ofNat 64 (read64 (repStosb _ t).mem _) = _
    have hread : read64 (repStosb (s.cpu.regs .rdx).toNat t).mem (s.rsp.toNat - 8) =
        read64 (write64 s.cpu.mem (s.rsp.toNat - 8) (s.cpu.regs .rdi).toNat) (s.rsp.toNat - 8) := by
      refine read64_congr ?_
      intro x h1 h2
      rw [hout, fillBytes_out (by omega)]
    rw [hlow, hread, read64_write64, Nat.mod_eq_of_lt (s.cpu.regs .rdi).isLt, BitVec.ofNat_toNat, BitVec.setWidth_eq]
  · bv_omega

theorem memset_fills_three :
    (exec memset ⟨atEntry 0x1000 0x1ff 3 false fun _ => 0, 0x2000⟩).cpu.mem 0x1002 = 0xff ∧
      (exec memset ⟨atEntry 0x1000 0x1ff 3 false fun _ => 0, 0x2000⟩).cpu.regs .rax = 0x1000 := by
  obtain ⟨hin, -, hrax, -⟩ := memset_fills ⟨atEntry 0x1000 0x1ff 3 false fun _ => 0, 0x2000⟩ rfl (by decide) (by decide)
    (.inr (by decide))
  exact ⟨hin 2 (by decide), hrax⟩

/-! ## `memcpy` beside `memmove` -/

/-- A byte that has been copied stays. -/
theorem copyUp_settled {m : Mem} {dest src i n : Nat} (hi : i < n) :
    copyUp m dest src n (dest + i) = copyUp m dest src (i + 1) (dest + i) := by
  induction n with
  | zero => omega
  | succ n ih =>
    by_cases heq : i = n
    · rw [heq]
    · rw [copyUp, writeByte, if_neg (by omega), ih (by omega)]

/-- Upwards over itself, the copy repeats its first bytes. -/
theorem copyUp_repeats {m : Mem} {src d n : Nat} (hd : 0 < d) (hn : d < n) :
    copyUp m (src + d) src n (src + d + d) = m src := by
  have hfirst : copyUp m (src + d) src d (src + d) = m src := copyUp_in (.inr le_rfl) 0 hd
  rw [copyUp_settled hn, copyUp, writeByte, if_pos rfl, hfirst]

theorem copyDown_eq_blit {m : Mem} {dest src n : Nat} (h : src ≤ dest ∨ dest + n ≤ src) :
    copyDown m dest src n = blit m dest (fun i => m (src + i)) n := by
  funext x
  by_cases hx : dest ≤ x ∧ x < dest + n
  · obtain ⟨i, rfl⟩ := Nat.exists_eq_add_of_le hx.1
    have hi : i < n := by omega
    rw [copyDown_in h hi, blit_in hi]
  · rw [copyDown_out (by omega), blit_out (by omega)]

theorem memmove_mem (hdf : s.df = false) (hd : (s.regs .rdi).toNat + (s.regs .rdx).toNat ≤ 2 ^ 64)
    (hs : (s.regs .rsi).toNat + (s.regs .rdx).toNat ≤ 2 ^ 64) :
    (call memmove s).mem = blit s.mem (s.regs .rdi).toNat (fun i => s.mem ((s.regs .rsi).toNat + i)) (s.regs .rdx).toNat := by
  rw [call_memmove]
  by_cases h : s.regs .rsi < s.regs .rdi
  · rw [if_pos h]
    have hdi : (s.regs .rdx).toNat ≠ 0 →
        (s.regs .rdi + s.regs .rdx - 1).toNat + 1 = (s.regs .rdi).toNat + (s.regs .rdx).toNat := by
      bv_omega
    have hsi : (s.regs .rdx).toNat ≠ 0 →
        (s.regs .rsi + s.regs .rdx - 1).toNat + 1 = (s.regs .rsi).toNat + (s.regs .rdx).toNat := by
      bv_omega
    have hmem : (repMovsb (s.regs .rdx).toNat (atLast s)).mem =
        copyDown s.mem (s.regs .rdi).toNat (s.regs .rsi).toNat (s.regs .rdx).toNat := repMovsb_down rfl hdi hsi
    exact hmem.trans (copyDown_eq_blit (.inl (by bv_omega)))
  · rw [if_neg h]
    have hmem : (repMovsb (s.regs .rdx).toNat (compared s)).mem =
        copyUp s.mem (s.regs .rdi).toNat (s.regs .rsi).toNat (s.regs .rdx).toNat := repMovsb_up hdf hd hs
    exact hmem.trans (copyUp_eq_blit (.inl (by bv_omega)))

/-- **When `memcpy` does for `memmove`.** For ranges that do not wrap around, `memcpy` leaves the memory that `memmove`
leaves, whatever was in it, exactly if the destination does not start inside the source after its first byte. -/
theorem memcpy_agrees_iff (dest src count : Word) (hd : dest.toNat + count.toNat ≤ 2 ^ 64)
    (hs : src.toNat + count.toNat ≤ 2 ^ 64) :
    (∀ s : Cpu, s.regs .rdi = dest → s.regs .rsi = src → s.regs .rdx = count → s.df = false →
      (call memcpy s).mem = (call memmove s).mem ∧ (call memcpy s).regs .rax = (call memmove s).regs .rax) ↔
    dest.toNat ≤ src.toNat ∨ src.toNat + count.toNat ≤ dest.toNat := by
  constructor
  · intro h
    by_contra hcon
    obtain ⟨hlt, hin⟩ : src.toNat < dest.toNat ∧ dest.toNat < src.toNat + count.toNat := by omega
    obtain ⟨d, hsd⟩ := Nat.exists_eq_add_of_lt hlt
    have hsd' : dest.toNat = src.toNat + (d + 1) := by omega
    -- only the first byte of the source is set
    have hsame := congrFun (h (atEntry dest src count false fun x => if x = src.toNat then 1 else 0) rfl rfl rfl rfl).1
      (src.toNat + (d + 1) + (d + 1))
    have hcpy := (memcpy_eq_copyUp (s := atEntry dest src count false fun x => if x = src.toNat then 1 else 0) rfl hd hs).1
    rw [hcpy, memmove_mem rfl hd hs] at hsame
    change copyUp _ dest.toNat src.toNat count.toNat _ = blit _ dest.toNat _ count.toNat _ at hsame
    rw [hsd', copyUp_repeats (by omega) (by omega), blit_in (by omega)] at hsame
    change (if src.toNat = src.toNat then (1 : UInt8) else 0) = if src.toNat + (d + 1) = src.toNat then 1 else 0 at hsame
    rw [if_pos rfl, if_neg (by omega)] at hsame
    cases hsame
  · rintro h s rfl rfl rfl hdf
    obtain ⟨hmem, hrax⟩ := memcpy_eq_copyUp hdf hd hs
    refine ⟨?_, ?_⟩
    · rw [hmem, memmove_mem hdf hd hs, copyUp_eq_blit h]
    · rw [hrax, call_memmove]
      split
      · exact (repMovsb_frame (s := atLast s)).1.symm
      · exact (repMovsb_frame (s := compared s)).1.symm

theorem memcpy_agrees_iff_up :
    (∀ s : Cpu, s.regs .rdi = 0x1000 → s.regs .rsi = 0x1001 → s.regs .rdx = 3 → s.df = false →
      (call memcpy s).mem = (call memmove s).mem ∧ (call memcpy s).regs .rax = (call memmove s).regs .rax) ↔
    (0x1000 : Word).toNat ≤ (0x1001 : Word).toNat ∨ (0x1001 : Word).toNat + (3 : Word).toNat ≤ (0x1000 : Word).toNat :=
  memcpy_agrees_iff 0x1000 0x1001 3 (by decide) (by decide)

end Cynix.Lib.StdRoutines
