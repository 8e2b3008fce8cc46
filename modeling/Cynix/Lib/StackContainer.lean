import Cynix.Lib.AllocRuns

/-! # The stack container (`lib/stack.c`)

A stack of items of one size that grows down inside one heap block. The four
fields of `struct stack` are a record; `stack_new` also takes a heap block for
them, whose address it returns. Products and sums of sizes are 64 bits wide.
An item is the bytes its caller points to. -/
namespace Cynix.Lib.StackContainer
open Cynix.Base.Bytes Cynix.Base.Pages Cynix.Lib.Misc Cynix.Lib.Alloc

structure Stack where
  base : Nat
  top : Nat
  typeSize : Nat
  curOffset : Nat
  deriving Repr, DecidableEq

/-- `sizeof(struct stack)`. -/
abbrev stackSize : Nat := 32

variable {σ : Type} (A : PageAllocator σ) (hhdm : Nat)

/-- `stack_new`; `none` is the panic of one of the two allocations. -/
def stackNew (typeSize nmemb : Nat) (h : Heap σ) : Option (Nat × Stack × Heap σ) :=
  match alloc A hhdm stackSize h with
  | none => none
  | some (stack, h) =>
    let bytes := typeSize * nmemb % 2 ^ 64
    match alloc A hhdm bytes h with
    | none => none
    | some (base, h) => some (stack, ⟨base, base + bytes, typeSize, bytes⟩, h)

/-- `stack_push`; `none` is the panic "Stack push overflow". -/
def stackPush (stack : Stack) (item : Nat → UInt8) (mem : Mem) : Option (Stack × Mem) :=
  if stack.curOffset < stack.typeSize then none
  else
    let stack := { stack with curOffset := stack.curOffset - stack.typeSize }
    some (stack, blit mem (stack.base + stack.curOffset) item stack.typeSize)

/-- `stack_pop`; `none` is the panic "Stack pop underflow". -/
def stackPop (stack : Stack) (mem : Mem) : Option ((Nat → UInt8) × Stack) :=
  if stack.base + stack.curOffset = stack.top then none
  else
    some (fun i => mem (stack.base + stack.curOffset + i),
      { stack with curOffset := (stack.curOffset + stack.typeSize) % 2 ^ 64 })

/-! ## Room for pushes -/

/-- The stack takes `n` more pushes, whatever the items are, and every byte
they store lies in `own`. -/
def Accepts (own : Range) : Nat → Stack → Mem → Prop
  | 0, _, _ => True
  | n + 1, stack, mem => ∀ item, ∃ stack' mem', stackPush stack item mem = some (stack', mem') ∧
      (∀ i, i < stack'.typeSize → OwnsAt hhdm own (stack'.base + stack'.curOffset + i)) ∧
      Accepts own n stack' mem'

variable {hhdm : Nat} {own : Range} {stack stack' : Stack} {mem mem' : Mem} {item : Nat → UInt8}

theorem stackPush_some (h : stackPush stack item mem = some (stack', mem')) :
    stack.typeSize ≤ stack.curOffset ∧
      stack' = { stack with curOffset := stack.curOffset - stack.typeSize } ∧
      mem' = blit mem (stack'.base + stack'.curOffset) item stack.typeSize := by
  unfold stackPush at h
  split at h
  · cases h
  · rename_i hle
    simp only [Option.some.injEq, Prod.mk.injEq] at h
    obtain ⟨rfl, rfl⟩ := h
    exact ⟨Nat.le_of_not_lt hle, rfl, rfl⟩

/-- A stack takes no more items than its offset leaves room for. -/
theorem Accepts.room {n : Nat} (h : Accepts hhdm own n stack mem) :
    n * stack.typeSize ≤ stack.curOffset := by
  induction n generalizing stack mem with
  | zero => omega
  | succ n ih =>
    obtain ⟨stack', mem', hpush, -, hrest⟩ := h fun _ => 0
    obtain ⟨hle, hs, -⟩ := stackPush_some hpush
    have hn := ih hrest
    subst hs
    simp only at hn
    rw [Nat.succ_mul]
    omega

/-- Room below the offset is enough when the bytes up to the offset are owned. -/
theorem accepts_of_room {n : Nat} (hroom : n * stack.typeSize ≤ stack.curOffset)
    (hown : ∀ i, i < stack.curOffset → OwnsAt hhdm own (stack.base + i)) :
    Accepts hhdm own n stack mem := by
  induction n generalizing stack mem with
  | zero => trivial
  | succ n ih =>
    intro item
    rw [Nat.succ_mul] at hroom
    have hle : ¬ stack.curOffset < stack.typeSize := by omega
    refine ⟨_, _, if_neg hle, ?_, ?_⟩
    · intro i hi
      simp only at hi ⊢
      rw [Nat.add_assoc]
      exact hown _ (by omega)
    · apply ih
      · simp only
        omega
      · intro i hi
        exact hown i (by simp only at hi; omega)

/-- The first push stores its item right below the offset. -/
theorem Accepts.first {n : Nat} (h : Accepts hhdm own (n + 1) stack mem) (ht : 1 ≤ stack.typeSize) :
    OwnsAt hhdm own (stack.base + (stack.curOffset - stack.typeSize)) := by
  obtain ⟨stack', mem', hpush, hin, -⟩ := h fun _ => 0
  obtain ⟨-, rfl, -⟩ := stackPush_some hpush
  exact hin 0 ht

end Cynix.Lib.StackContainer
