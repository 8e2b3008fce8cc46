import Cynix.Base.Stack

/-! # The interrupt thunks (`sys/isr.S`)

The instructions the macro `THUNK` uses, what the processor does when it
delivers an interrupt, and the thunk of a vector up to its call and from the
return of the handler to `iretq`. -/
namespace Cynix.Sys.Isr
open Cynix.Base.Stack

inductive Reg where
  | rax | rbx | rcx | rdx | rsi | rdi | rbp | r8 | r9 | r10 | r11 | r12 | r13 | r14 | r15
  deriving DecidableEq, Repr

inductive Seg where
  | ds | es | ss
  deriving DecidableEq, Repr

abbrev Selector := BitVec 16

def gdtKernelDataSel : Word := 0x10
def gdtUserCodeSel : Word := 0x1b

/-- The processor while a thunk runs; `swaps` counts the `swapgs` executed. -/
structure Cpu where
  regs : Reg → Word
  rsp : Word
  segs : Seg → Selector
  zf : Bool
  df : Bool
  mem : Words
  swaps : Nat

inductive Instr where
  | pushImm (w : Word)
  | push (r : Reg)
  | pop (r : Reg)
  /-- `mov %seg, %r32`: the selector, zero-extended. -/
  | movFromSeg (sg : Seg) (r : Reg)
  /-- `mov %r32, %seg`: the low 16 bits. -/
  | movToSeg (r : Reg) (sg : Seg)
  | cld
  | movImm (w : Word) (r : Reg)
  | lea (addr : Word) (r : Reg)
  | add (src dst : Reg)
  | movRsp (r : Reg)
  | xorSelf (r : Reg)
  | addRsp (w : Word)
  /-- `cmpq $w, off(%rsp)`. -/
  | cmpq (w off : Word)
  /-- `jne 1f`. -/
  | jne
  /-- The local label `1:`. -/
  | label
  | swapgs
  deriving DecidableEq

def Cpu.setReg (s : Cpu) (r : Reg) (w : Word) : Cpu := { s with regs := Function.update s.regs r w }

def Cpu.pushWord (s : Cpu) (w : Word) : Cpu :=
  { s with rsp := s.rsp - 8, mem := Function.update s.mem (s.rsp - 8) w }

/-- One instruction that is not a jump. -/
def step (s : Cpu) : Instr → Cpu
  | .pushImm w => s.pushWord w
  | .push r => s.pushWord (s.regs r)
  | .pop r => { s.setReg r (s.mem s.rsp) with rsp := s.rsp + 8 }
  | .movFromSeg sg r => s.setReg r ((s.segs sg).setWidth 64)
  | .movToSeg r sg => { s with segs := Function.update s.segs sg ((s.regs r).setWidth 16) }
  | .cld => { s with df := false }
  | .movImm w r => s.setReg r w
  | .lea addr r => s.setReg r addr
  | .add src dst => { s.setReg dst (s.regs dst + s.regs src) with zf := s.regs dst + s.regs src == 0 }
  | .movRsp r => s.setReg r s.rsp
  | .xorSelf r => { s.setReg r 0 with zf := true }
  | .addRsp w => { s with rsp := s.rsp + w, zf := s.rsp + w == 0 }
  | .cmpq w off => { s with zf := s.mem (s.rsp + off) == w }
  | .jne => s
  | .label => s
  | .swapgs => { s with swaps := s.swaps + 1 }

/-- Runs code whose jumps all go forward to the next label; `seeking` while one is being taken. -/
def exec (seeking : Bool) : List Instr → Cpu → Cpu
  | [], s => s
  | i :: is, s =>
    if seeking then exec (i != .label) is s
    else if i = .jne then exec (!s.zf) is s
    else exec false is (step s i)

/-! ## The macro -/

/-- The vectors for which the macro leaves out `push $0`. -/
def noPad (n : Fin 256) : Bool :=
  n == 8 || n == 10 || n == 11 || n == 12 || n == 13 || n == 14 || n == 17 || n == 30

/-- The registers in the order they are pushed. -/
def saved : List Reg :=
  [.r15, .r14, .r13, .r12, .r11, .r10, .r9, .r8, .rbp, .rdi, .rsi, .rdx, .rcx, .rbx, .rax]

/-- The registers in the order they are popped. -/
def restored : List Reg :=
  [.rax, .rbx, .rcx, .rdx, .rsi, .rdi, .rbp, .r8, .r9, .r10, .r11, .r12, .r13, .r14, .r15]

/-- `swapgs` if the code segment at `off(%rsp)` is the user's. -/
def swapIfUser (off : Word) : List Instr := [.cmpq gdtUserCodeSel off, .jne, .swapgs, .label]

/-- The segment registers and the arguments of the call; `table` is the address
of `isr_handler_table`. -/
def enterKernel (table : Word) (n : Fin 256) : List Instr :=
  [.movFromSeg .es .rax, .push .rax, .movFromSeg .ds .rax, .push .rax,
    .cld,
    .movImm gdtKernelDataSel .rax, .movToSeg .rax .ds, .movToSeg .rax .es, .movToSeg .rax .ss,
    .movImm (BitVec.ofNat 64 n) .rdi, .movImm (BitVec.ofNat 64 (n * 8)) .rax, .lea table .rbx,
    .add .rax .rbx, .movRsp .rsi, .xorSelf .rbp]

/-- `isr_thunk_n` up to `call *(%rbx)`. -/
def thunkEntry (table : Word) (n : Fin 256) : List Instr :=
  (if noPad n then [] else [.pushImm 0]) ++
    (swapIfUser 16 ++ (saved.map .push ++ enterKernel table n))

/-- `isr_thunk_n` from the return of the handler up to `iretq`. -/
def thunkExit : List Instr :=
  [.pop .rax, .movToSeg .rax .ds, .pop .rax, .movToSeg .rax .es] ++
  (restored.map .pop ++ (.addRsp 8 :: swapIfUser 8))

/-! ## Delivery -/

/-- What is interrupted. -/
structure Interrupted where
  regs : Reg → Word
  segs : Seg → Selector
  cs : Selector
  rip : Word
  rflags : Word
  rsp : Word

/-- The vectors for which the processor pushes an error code. -/
def hasErrorCode (n : Fin 256) : Bool :=
  n == 8 || n == 10 || n == 11 || n == 12 || n == 13 || n == 14 || n == 17 || n == 21 || n == 29 ||
    n == 30

/-- The frame `iretq` takes, from its lowest word up. -/
def Interrupted.frame (st : Interrupted) : List Word :=
  [st.rip, st.cs.setWidth 64, st.rflags, st.rsp, (st.segs .ss).setWidth 64]

/-- The processor delivers vector `n` on the stack that starts at `base`;
`ss` is the stack segment it loads. -/
def deliver (n : Fin 256) (st : Interrupted) (err base : Word) (ss : Selector) (mem : Words) : Cpu :=
  let ws := (if hasErrorCode n then [err] else []) ++ st.frame
  { regs := st.regs
    rsp := base - BitVec.ofNat 64 (8 * ws.length)
    segs := Function.update st.segs .ss ss
    zf := st.rflags.getLsbD 6
    df := st.rflags.getLsbD 10
    mem := pushList mem base ws
    swaps := 0 }

/-- The words of the `struct cpu_ctx` that describes `st`, field by field. -/
def ctxWords (st : Interrupted) (err : Word) : List Word :=
  [(st.segs .ds).setWidth 64, (st.segs .es).setWidth 64, st.regs .rax, st.regs .rbx, st.regs .rcx,
    st.regs .rdx, st.regs .rsi, st.regs .rdi, st.regs .rbp, st.regs .r8, st.regs .r9, st.regs .r10,
    st.regs .r11, st.regs .r12, st.regs .r13, st.regs .r14, st.regs .r15, err, st.rip,
    st.cs.setWidth 64, st.rflags, st.rsp, (st.segs .ss).setWidth 64]

/-- The state at `call *(%rbx)`. -/
def atCall (table : Word) (n : Fin 256) (st : Interrupted) (err base : Word) (ss : Selector)
    (mem : Words) : Cpu :=
  exec false (thunkEntry table n) (deliver n st err base ss mem)

def user (st : Interrupted) : Nat := if st.cs.setWidth 64 = gdtUserCodeSel then 1 else 0

/-- The handler has returned and left the context structure at `s.rsp` as it
was. It may have changed every register but `rsp`, and all other memory. -/
structure Returned (s s' : Cpu) : Prop where
  rsp : s'.rsp = s.rsp
  swaps : s'.swaps = s.swaps
  ctx : ∀ i < 23, s'.mem (s.regs .rsi + BitVec.ofNat 64 (8 * i)) =
    s.mem (s.regs .rsi + BitVec.ofNat 64 (8 * i))

/-- The thunk hands its handler the interrupted state and puts it back. -/
structure SavesAndRestores (table : Word) (n : Fin 256) (st : Interrupted) (err base : Word)
    (ss : Selector) (mem : Words) : Prop where
  rdi : (atCall table n st err base ss mem).regs .rdi = BitVec.ofNat 64 n
  handler : (atCall table n st err base ss mem).regs .rbx = table + BitVec.ofNat 64 (8 * n)
  ctx : Holds (atCall table n st err base ss mem).mem ((atCall table n st err base ss mem).regs .rsi)
    (ctxWords st (if hasErrorCode n then err else 0))
  swapsIn : (atCall table n st err base ss mem).swaps = user st
  /-- `iretq` finds the hardware frame, whose first word is five below `base`. -/
  exit : ∀ s', Returned (atCall table n st err base ss mem) s' →
    (exec false thunkExit s').rsp = base - 40 ∧
    Holds (exec false thunkExit s').mem (base - 40) st.frame ∧
    (exec false thunkExit s').regs = st.regs ∧
    (exec false thunkExit s').segs .ds = st.segs .ds ∧
    (exec false thunkExit s').segs .es = st.segs .es ∧
    (exec false thunkExit s').swaps = user st + user st

/-! ## Straight-line code -/

variable {s : Cpu} {is js : List Instr} {ws vs : List Word}

theorem exec_append (h : Instr.jne ∉ is) : exec false (is ++ js) s = exec false js (exec false is s) := by
  induction is generalizing s with
  | nil => rfl
  | cons i is ih =>
    obtain ⟨hi, his⟩ := not_or.mp (mt List.mem_cons.mpr h)
    simp only [List.cons_append, exec, Bool.false_eq_true, if_false, Ne.symm hi]
    exact ih his

/-- The state after `swapIfUser`. -/
def swapped (off : Word) (s : Cpu) : Cpu :=
  { s with
    zf := s.mem (s.rsp + off) == gdtUserCodeSel
    swaps := s.swaps + if s.mem (s.rsp + off) = gdtUserCodeSel then 1 else 0 }

theorem exec_swapIfUser (off : Word) : exec false (swapIfUser off ++ is) s = exec false is (swapped off s) := by
  by_cases h : s.mem (s.rsp + off) = gdtUserCodeSel <;> simp [swapIfUser, exec, step, swapped, h]

/-- Pushing registers changes the stack only. -/
theorem exec_push (rs : List Reg) (hs : Holds s.mem s.rsp ws) (hl : rs.length + ws.length < 2 ^ 60) :
    Holds (exec false (rs.map .push) s).mem (exec false (rs.map .push) s).rsp
      ((rs.map s.regs).reverse ++ ws) ∧
    (exec false (rs.map .push) s).rsp = s.rsp - BitVec.ofNat 64 (8 * rs.length) ∧
    exec false (rs.map .push) s =
      { s with rsp := (exec false (rs.map .push) s).rsp, mem := (exec false (rs.map .push) s).mem } := by
  induction rs generalizing s ws with
  | nil => exact ⟨hs, by simp [exec], rfl⟩
  | cons r rs ih =>
    rw [List.length_cons] at hl
    have hp : Holds (s.pushWord (s.regs r)).mem (s.pushWord (s.regs r)).rsp (s.regs r :: ws) :=
      hs.push (by omega) _
    obtain ⟨h1, h2, h3⟩ := ih hp (by rw [List.length_cons]; omega)
    have he : exec false ((r :: rs).map .push) s = exec false (rs.map .push) (s.pushWord (s.regs r)) :=
      rfl
    rw [he]
    refine ⟨?_, ?_, h3⟩
    · simpa [Cpu.pushWord] using h1
    · rw [h2, List.length_cons]
      simp only [Cpu.pushWord]
      bv_omega

/-- Popping registers that were pushed with the values `f`. -/
theorem exec_pop (f : Reg → Word) {rs : List Reg} (hnd : rs.Nodup)
    (hs : Holds s.mem s.rsp (rs.map f ++ ws)) :
    (∀ r ∈ rs, (exec false (rs.map .pop) s).regs r = f r) ∧
    (∀ r ∉ rs, (exec false (rs.map .pop) s).regs r = s.regs r) ∧
    (exec false (rs.map .pop) s).rsp = s.rsp + BitVec.ofNat 64 (8 * rs.length) ∧
    exec false (rs.map .pop) s =
      { s with regs := (exec false (rs.map .pop) s).regs, rsp := (exec false (rs.map .pop) s).rsp } := by
  induction rs generalizing s with
  | nil => exact ⟨by simp, fun _ _ => rfl, by simp [exec], rfl⟩
  | cons r rs ih =>
    obtain ⟨hr, hnd⟩ := List.nodup_cons.mp hnd
    have ht : Holds (step s (.pop r)).mem (step s (.pop r)).rsp (rs.map f ++ ws) := hs.2
    obtain ⟨h1, h2, h3, h4⟩ := ih hnd ht
    have he : exec false ((r :: rs).map .pop) s = exec false (rs.map .pop) (step s (.pop r)) := rfl
    rw [he]
    refine ⟨?_, ?_, ?_, h4⟩
    · intro q hq
      rcases List.mem_cons.mp hq with rfl | hq
      · rw [h2 q hr]
        exact (Function.update_self ..).trans hs.1
      · exact h1 q hq
    · intro q hq
      obtain ⟨hqr, hq⟩ := not_or.mp (mt List.mem_cons.mpr hq)
      rw [h2 q hq]
      exact Function.update_of_ne hqr _ _
    · rw [h3, List.length_cons]
      simp only [step]
      bv_omega

/-! ## The two halves of a thunk -/

/-- The words the thunk pushes on top of `ws`. -/
def contextOf (s : Cpu) : List Word :=
  (s.segs .ds).setWidth 64 :: (s.segs .es).setWidth 64 :: (saved.map s.regs).reverse

/-- From the `cmpq` on, whatever lies on the stack. -/
theorem exec_save (table : Word) (n : Fin 256) (hs : Holds s.mem s.rsp ws) (hl : ws.length < 2 ^ 59)
    {t : Cpu} (ht : t = exec false (swapIfUser 16 ++ (saved.map .push ++ enterKernel table n)) s) :
    Holds t.mem t.rsp (contextOf s ++ ws) ∧ t.rsp = s.rsp - 136 ∧ t.regs .rsi = t.rsp ∧
    t.regs .rdi = BitVec.ofNat 64 n ∧ t.regs .rbx = table + BitVec.ofNat 64 (8 * n) ∧
    t.swaps = s.swaps + if s.mem (s.rsp + 16) = gdtUserCodeSel then 1 else 0 := by
  rw [exec_swapIfUser, exec_append (by decide)] at ht
  have hs' : Holds (swapped 16 s).mem (swapped 16 s).rsp ws := hs
  have hsaved : saved.length = 15 := rfl
  obtain ⟨h1, h2, h3⟩ := exec_push saved hs' (by omega)
  have hlen : ((saved.map (swapped 16 s).regs).reverse ++ ws).length = 15 + ws.length := by
    rw [List.length_append, List.length_reverse, List.length_map, hsaved]
  have hw := (h1.push (by omega) ((s.segs .es).setWidth 64)).push
    (by rw [List.length_cons]; omega) ((s.segs .ds).setWidth 64)
  generalize exec false (saved.map .push) (swapped 16 s) = u at *
  rw [h3] at ht
  subst ht
  refine ⟨hw, ?_, rfl, rfl, ?_, rfl⟩
  · change u.rsp - 8 - 8 = s.rsp - 136
    rw [h2, hsaved]
    change s.rsp - _ - 8 - 8 = s.rsp - 136
    bv_omega
  · change table + BitVec.ofNat 64 (n * 8) = _
    rw [Nat.mul_comm]

/-- The end of the thunk. -/
theorem exec_addRsp : exec false (.addRsp 8 :: swapIfUser 8) s =
    swapped 8 { s with rsp := s.rsp + 8, zf := s.rsp + 8 == 0 } := by
  have hswap : exec false (swapIfUser 8 ++ []) { s with rsp := s.rsp + 8, zf := s.rsp + 8 == 0 } = _ :=
    exec_swapIfUser 8
  rw [List.append_nil] at hswap
  exact hswap

/-- From the return of the handler on: two segment registers, the general
registers with the values `f`, and one more word are taken off the stack. -/
theorem exec_restore (f : Reg → Word) (d e : Selector) {err : Word}
    (hs : Holds s.mem s.rsp (d.setWidth 64 :: e.setWidth 64 :: (restored.map f ++ err :: ws)))
    {t : Cpu} (ht : t = exec false thunkExit s) :
    t.regs = f ∧ t.segs .ds = d ∧ t.segs .es = e ∧ t.rsp = s.rsp + 144 ∧ t.mem = s.mem ∧
    t.swaps = s.swaps + if s.mem (s.rsp + 152) = gdtUserCodeSel then 1 else 0 := by
  obtain ⟨hd, he, hr⟩ := hs
  -- the two selectors
  have hpop : exec false thunkExit s = exec false (restored.map .pop ++ (.addRsp 8 :: swapIfUser 8))
      { s with
        regs := Function.update (Function.update s.regs .rax (d.setWidth 64)) .rax (e.setWidth 64)
        rsp := s.rsp + 8 + 8
        segs := Function.update (Function.update s.segs .ds d) .es e } := by
    have he' : s.mem (s.rsp + 8#64) = e.setWidth 64 := he
    rw [thunkExit, exec_append (by decide)]
    simp [exec, step, Cpu.setReg, hd, he']
  rw [hpop, exec_append (by decide)] at ht
  obtain ⟨h1, -, h3, h4⟩ := exec_pop f (s := { s with
    regs := Function.update (Function.update s.regs .rax (d.setWidth 64)) .rax (e.setWidth 64)
    rsp := s.rsp + 8 + 8
    segs := Function.update (Function.update s.segs .ds d) .es e }) (show restored.Nodup by decide) hr
  generalize exec false (restored.map .pop) _ = u at *
  have hall : ∀ r : Reg, r ∈ restored := by
    intro r
    cases r <;> decide
  have hregs : u.regs = f := funext fun r => h1 r (hall r)
  have hrsp : u.rsp + 8 = s.rsp + 144 := by
    rw [h3, show restored.length = 15 from rfl]
    change s.rsp + 8 + 8 + _ + 8 = s.rsp + 144
    bv_omega
  rw [exec_addRsp, hrsp] at ht
  have hoff : s.rsp + 144 + 8 = s.rsp + 152 := by bv_omega
  subst ht
  rw [h4]
  refine ⟨hregs, rfl, rfl, rfl, rfl, ?_⟩
  simp only [swapped, hoff]

/-! ## The thunks -/

/-- The words on the stack at the `cmpq` of the entry. -/
def entryWords (n : Fin 256) (st : Interrupted) (err : Word) : List Word :=
  (if noPad n then [] else [0]) ++ ((if hasErrorCode n then [err] else []) ++ st.frame)

/-- The state at the `cmpq` of the entry. -/
def atCheck (n : Fin 256) (st : Interrupted) (err base : Word) (ss : Selector) (mem : Words) : Cpu :=
  exec false (if noPad n then [] else [.pushImm 0]) (deliver n st err base ss mem)

variable {table : Word} {n : Fin 256} {st : Interrupted} {err base : Word} {ss : Selector}
  {mem : Words}

theorem length_entryWords (n : Fin 256) (st : Interrupted) (err : Word) : (entryWords n st err).length ≤ 7 := by
  unfold entryWords Interrupted.frame
  split <;> split <;> simp

/-- The padding changes the stack only. -/
theorem atCheck_spec (n : Fin 256) (st : Interrupted) (err base : Word) (ss : Selector) (mem : Words) :
    Holds (atCheck n st err base ss mem).mem (atCheck n st err base ss mem).rsp
      (entryWords n st err) ∧
    (atCheck n st err base ss mem).rsp =
      base - BitVec.ofNat 64 (8 * (entryWords n st err).length) ∧
    (atCheck n st err base ss mem).regs = st.regs ∧
    (atCheck n st err base ss mem).segs .ds = st.segs .ds ∧
    (atCheck n st err base ss mem).segs .es = st.segs .es ∧
    (atCheck n st err base ss mem).swaps = 0 := by
  have hlen : ((if hasErrorCode n then [err] else []) ++ st.frame).length ≤ 6 := by
    unfold Interrupted.frame
    split <;> simp
  have hd := holds_pushList mem base ((if hasErrorCode n then [err] else []) ++ st.frame) (by omega)
  unfold atCheck entryWords
  cases noPad n with
  | true => exact ⟨by simpa [deliver, exec] using hd, by simp [deliver, exec], rfl, rfl, rfl, rfl⟩
  | false =>
    refine ⟨?_, ?_, rfl, rfl, rfl, rfl⟩
    · have := hd.push (by omega) 0
      simpa [deliver, exec, step, Cpu.pushWord] using this
    · simp only [deliver, exec, step, Cpu.pushWord, Bool.false_eq_true, if_false, reduceCtorEq,
        List.singleton_append, List.length_cons]
      bv_omega

theorem atCall_eq : atCall table n st err base ss mem =
    exec false (swapIfUser 16 ++ (saved.map .push ++ enterKernel table n))
      (atCheck n st err base ss mem) := by
  unfold atCall thunkEntry atCheck
  refine exec_append ?_
  cases noPad n <;> simp

/-- The stack at the call: the interrupted registers on top of what was there at the entry. -/
theorem atCall_spec (table : Word) (n : Fin 256) (st : Interrupted) (err base : Word) (ss : Selector)
    (mem : Words) :
    Holds (atCall table n st err base ss mem).mem (atCall table n st err base ss mem).rsp
      ((st.segs .ds).setWidth 64 :: (st.segs .es).setWidth 64 ::
        (restored.map st.regs ++ entryWords n st err)) ∧
    (atCall table n st err base ss mem).rsp =
      base - BitVec.ofNat 64 (8 * (entryWords n st err).length) - 136 ∧
    (atCall table n st err base ss mem).regs .rsi = (atCall table n st err base ss mem).rsp ∧
    (atCall table n st err base ss mem).regs .rdi = BitVec.ofNat 64 n ∧
    (atCall table n st err base ss mem).regs .rbx = table + BitVec.ofNat 64 (8 * n) ∧
    (atCall table n st err base ss mem).swaps =
      if (atCheck n st err base ss mem).mem ((atCheck n st err base ss mem).rsp + 16) =
        gdtUserCodeSel then 1 else 0 := by
  obtain ⟨h1, h2, h3, h4, h5, h6⟩ := atCheck_spec n st err base ss mem
  have hlen := length_entryWords n st err
  obtain ⟨g1, g2, g3, g4, g5, g6⟩ := exec_save table n h1 (by omega) atCall_eq
  have hctx : contextOf (atCheck n st err base ss mem) = (st.segs .ds).setWidth 64 ::
      (st.segs .es).setWidth 64 :: restored.map st.regs := by
    simp [contextOf, h3, h4, h5, saved, restored]
  rw [hctx] at g1
  rw [h2] at g2
  rw [h6, Nat.zero_add] at g6
  exact ⟨g1, g2, g3, g4, g5, g6⟩

/-- The macro pads exactly the vectors without an error code, but for two. -/
theorem noPad_eq_hasErrorCode_iff : ∀ n : Fin 256,
    noPad n = hasErrorCode n ↔ n ≠ 21 ∧ n ≠ 29 := by
  decide +kernel

theorem entryWords_eq (h : noPad n = hasErrorCode n) :
    entryWords n st err = (if hasErrorCode n then err else 0) :: st.frame := by
  unfold entryWords
  rw [h]
  cases hasErrorCode n <;> rfl

theorem entryWords_padded (h : noPad n ≠ hasErrorCode n) :
    entryWords n st err = 0 :: err :: st.frame := by
  have hboth : ∀ n : Fin 256, noPad n ≠ hasErrorCode n → noPad n = false ∧ hasErrorCode n = true := by
    decide +kernel
  obtain ⟨h1, h2⟩ := hboth n h
  simp [entryWords, h1, h2]

theorem savesAndRestores_of_eq (h : noPad n = hasErrorCode n) :
    SavesAndRestores table n st err base ss mem := by
  obtain ⟨hs, hrsp, hrsi, hrdi, hrbx, hswaps⟩ := atCall_spec table n st err base ss mem
  have hcheck := (atCheck_spec n st err base ss mem).1
  rw [entryWords_eq h] at hs hrsp hcheck
  have hbase : (atCall table n st err base ss mem).rsp + 144 = base - 40 := by
    rw [hrsp, List.length_cons, show st.frame.length = 5 from rfl]
    bv_omega
  -- the code segment is the third word at the entry
  have hcs : (atCheck n st err base ss mem).mem ((atCheck n st err base ss mem).rsp + 16) =
      st.cs.setWidth 64 := hcheck.get (i := 2) (by simp [Interrupted.frame])
  rw [hcs] at hswaps
  refine ⟨hrdi, hrbx, ?_, hswaps, ?_⟩
  · rw [hrsi]
    exact hs
  · intro s' hret
    have hs' : Holds s'.mem s'.rsp ((st.segs .ds).setWidth 64 :: (st.segs .es).setWidth 64 ::
        (restored.map st.regs ++ (if hasErrorCode n then err else 0) :: st.frame)) := by
      rw [hret.rsp]
      refine hs.congr fun i hi => ?_
      rw [← hrsi]
      exact hret.ctx i hi
    obtain ⟨g1, g2, g3, g4, g5, g6⟩ := exec_restore st.regs _ _ hs' rfl
    have hframe : Holds s'.mem (base - 40) st.frame := by
      rw [← hbase, ← hret.rsp]
      have happ : Holds s'.mem s'.rsp (((st.segs .ds).setWidth 64 :: (st.segs .es).setWidth 64 ::
          (restored.map st.regs ++ [if hasErrorCode n then err else 0])) ++ st.frame) := by
        simpa using hs'
      exact happ.append.2
    have hcs' : s'.mem (s'.rsp + 152) = st.cs.setWidth 64 :=
      hs'.get (i := 19) (by simp [restored, Interrupted.frame])
    refine ⟨?_, ?_, g1, g2, g3, ?_⟩
    · rw [g4, hret.rsp, hbase]
    · rw [g5]
      exact hframe
    · rw [g6, hcs', hret.swaps, hswaps]
      rfl

/-- With an error code below a padding word, `iretq` finds the stack one word too low. -/
theorem rsp_of_padded (h : noPad n ≠ hasErrorCode n) :
    (exec false thunkExit (atCall table n st err base ss mem)).rsp = base - 48 := by
  obtain ⟨hs, hrsp, -⟩ := atCall_spec table n st err base ss mem
  rw [entryWords_padded h] at hs hrsp
  obtain ⟨-, -, -, g4, -⟩ := exec_restore st.regs _ _ hs rfl
  rw [g4, hrsp, List.length_cons, List.length_cons, show st.frame.length = 5 from rfl]
  bv_omega

/-- **A thunk saves and restores exactly unless its vector is 21 or 29**, the
two with an error code that the macro pads all the same. -/
theorem thunk_saves_and_restores_iff (table : Word) (n : Fin 256) (st : Interrupted)
    (err base : Word) (ss : Selector) (mem : Words) :
    SavesAndRestores table n st err base ss mem ↔ n ≠ 21 ∧ n ≠ 29 := by
  rw [← noPad_eq_hasErrorCode_iff]
  constructor
  · intro h
    by_contra hne
    have hexit := (h.exit _ ⟨rfl, rfl, fun _ _ => rfl⟩).1
    rw [rsp_of_padded hne] at hexit
    bv_omega
  · exact savesAndRestores_of_eq

/-- User code at 0x400000 that fails a control-flow check. -/
def userAt : Interrupted := ⟨fun _ => 7, fun _ => 0x23, 0x1b, 0x400000, 0x202, 0x7000⟩

/-- A control-protection exception (vector 21) with error code 3: the handler
finds the error code 0 and the interrupted `rip` 3. -/
theorem control_protection_not_saved :
    ¬ SavesAndRestores 0x1000 21 userAt 3 0x8000 0 (fun _ => 0) := by
  intro h
  have herr := h.ctx.get (i := 17) (by decide)
  revert herr
  decide +kernel

end Cynix.Sys.Isr
