import Cynix.Lib.AllocSizes

/-! # The stack container is a bounded stack

`stack_push` and `stack_pop` with the pointers their callers pass. A run is any
sequence of the two on a new stack, and between them anything that leaves the
storage alone; the list beside it has the items pushed and not yet popped, the
last one first. Both tests of the source are about `cur_offset`: that it is
short of the end by one item for each item on the stack ties them to the
number of items. -/
namespace Cynix.Lib.StackRuns
open Cynix.Base.Bytes Cynix.Base.Pages Cynix.Lib.Misc Cynix.Lib.Alloc Cynix.Lib.AllocSizes
open Cynix.Lib.StackContainer

/-! ## Calls -/

/-- `stack_push` of the item at an address. -/
def pushFrom (stack : Stack) (item : Nat) (mem : Mem) : Option (Stack × Mem) :=
  if stack.curOffset < stack.typeSize then none
  else
    let stack := { stack with curOffset := stack.curOffset - stack.typeSize }
    some (stack, copyUp mem (stack.base + stack.curOffset) item stack.typeSize)

/-- `stack_pop` into the buffer at an address. -/
def popTo (stack : Stack) (item : Nat) (mem : Mem) : Option (Stack × Mem) :=
  if stack.base + stack.curOffset = stack.top then none
  else
    let mem := copyUp mem item (stack.base + stack.curOffset) stack.typeSize
    some ({ stack with curOffset := (stack.curOffset + stack.typeSize) % 2 ^ 64 }, mem)

/-- The bytes of an item. -/
def bytesAt (mem : Mem) (a n : Nat) : List UInt8 := (List.range n).map fun i => mem (a + i)

/-- The address of the next item does not lie inside the one that is pushed. -/
def Readable (stack : Stack) (item : Nat) : Prop :=
  stack.base + (stack.curOffset - stack.typeSize) ≤ item ∨
    item + stack.typeSize ≤ stack.base + (stack.curOffset - stack.typeSize)

/-- The buffer is no part of the storage. -/
def Off (stack : Stack) (item : Nat) : Prop := item + stack.typeSize ≤ stack.base ∨ stack.top ≤ item

/-- A stack in memory, and the items it should have. -/
structure State where
  stack : Stack
  mem : Mem
  items : List (List UInt8)

inductive Step : State → State → Prop
  | push {s : State} {stack' : Stack} {mem' : Mem} (item : Nat) : Readable s.stack item →
      pushFrom s.stack item s.mem = some (stack', mem') →
      Step s ⟨stack', mem', bytesAt s.mem item s.stack.typeSize :: s.items⟩
  | pop {s : State} {stack' : Stack} {mem' : Mem} (item : Nat) : Off s.stack item →
      popTo s.stack item s.mem = some (stack', mem') → Step s ⟨stack', mem', s.items.tail⟩
  /-- Anything else leaves the storage alone. -/
  | others {s : State} {mem' : Mem} : (∀ x, s.stack.base ≤ x → x < s.stack.top → mem' x = s.mem x) →
      Step s { s with mem := mem' }

variable {stack stack' : Stack} {mem mem' : Mem} {item a n x : Nat}

/-- On pointers `stack_push` is what it is on bytes. -/
theorem pushFrom_eq (hr : Readable stack item) :
    pushFrom stack item mem = stackPush stack (fun i => mem (item + i)) mem := by
  unfold pushFrom stackPush
  simp only [copyUp_eq_blit hr]

/-- On pointers `stack_pop` is what it is on bytes, with a copy to the buffer. -/
theorem popTo_eq (hs : item ≤ stack.base + stack.curOffset ∨ stack.base + stack.curOffset + stack.typeSize ≤ item) :
    popTo stack item mem = (stackPop stack mem).map fun r => (r.2, blit mem item r.1 stack.typeSize) := by
  unfold popTo stackPop
  simp only [copyUp_eq_blit hs]
  split <;> rfl

/-! ## Bytes -/

theorem bytesAt_congr {a b : Nat} (h : ∀ i, i < n → mem' (b + i) = mem (a + i)) : bytesAt mem' b n = bytesAt mem a n :=
  List.map_congr_left fun i hi => h i (List.mem_range.mp hi)

theorem bytesAt_blit {f : Nat → UInt8} : bytesAt (blit mem a f n) a n = (List.range n).map f :=
  List.map_congr_left fun _ hi => blit_in (List.mem_range.mp hi)

/-- The items lie one after another from an address on. -/
def Stacked (mem : Mem) (n : Nat) : Nat → List (List UInt8) → Prop
  | _, [] => True
  | a, x :: l => bytesAt mem a n = x ∧ Stacked mem n (a + n) l

theorem Stacked.congr {l : List (List UInt8)} (h : Stacked mem n a l)
    (hm : ∀ x, a ≤ x → x < a + n * l.length → mem' x = mem x) : Stacked mem' n a l := by
  induction l generalizing a with
  | nil => trivial
  | cons item l ih =>
    obtain ⟨hitem, hrest⟩ := h
    rw [List.length_cons, Nat.mul_succ] at hm
    refine ⟨?_, ih hrest fun x h1 h2 => hm x (by omega) (by omega)⟩
    rw [← hitem]
    exact bytesAt_congr fun i hi => hm _ (by omega) (by omega)

/-! ## What a call does -/

/-- Where a push stores. -/
theorem pushFrom_stores (h : pushFrom stack item mem = some (stack', mem')) :
    stack.typeSize ≤ stack.curOffset ∧
      stack' = { stack with curOffset := stack.curOffset - stack.typeSize } ∧
      ∀ x, x < stack'.base + stack'.curOffset ∨ stack'.base + stack'.curOffset + stack.typeSize ≤ x →
        mem' x = mem x := by
  unfold pushFrom at h
  split at h
  · cases h
  · rename_i hle
    obtain ⟨rfl, rfl⟩ := Prod.mk.inj (Option.some.inj h)
    exact ⟨Nat.le_of_not_lt hle, rfl, fun x hx => copyUp_out hx⟩

theorem pushFrom_bytes (hr : Readable stack item) (h : pushFrom stack item mem = some (stack', mem')) :
    bytesAt mem' (stack'.base + stack'.curOffset) stack.typeSize = bytesAt mem item stack.typeSize := by
  rw [pushFrom_eq hr] at h
  obtain ⟨-, -, rfl⟩ := stackPush_some h
  exact bytesAt_blit

theorem pushFrom_eq_none_iff : pushFrom stack item mem = none ↔ stack.curOffset < stack.typeSize := by
  unfold pushFrom
  split
  · simp_all
  · simp_all

theorem popTo_some
    (hs : item ≤ stack.base + stack.curOffset ∨ stack.base + stack.curOffset + stack.typeSize ≤ item)
    (h : popTo stack item mem = some (stack', mem')) :
    stack.base + stack.curOffset ≠ stack.top ∧
      stack' = { stack with curOffset := (stack.curOffset + stack.typeSize) % 2 ^ 64 } ∧
      bytesAt mem' item stack.typeSize = bytesAt mem (stack.base + stack.curOffset) stack.typeSize ∧
      ∀ x, x < item ∨ item + stack.typeSize ≤ x → mem' x = mem x := by
  rw [popTo_eq hs] at h
  obtain ⟨⟨bytes, t⟩, hp, hr⟩ := Option.map_eq_some_iff.mp h
  obtain ⟨rfl, rfl⟩ := Prod.mk.inj hr
  unfold stackPop at hp
  split at hp
  · cases hp
  · rename_i hne
    obtain ⟨rfl, rfl⟩ := Prod.mk.inj (Option.some.inj hp)
    exact ⟨hne, rfl, bytesAt_blit, fun x hx => blit_out hx⟩

theorem popTo_eq_none_iff : popTo stack item mem = none ↔ stack.base + stack.curOffset = stack.top := by
  unfold popTo
  split
  · simp_all
  · simp_all

/-! ## Runs -/

/-- The storage of the stack, and how far it is filled. -/
structure Inv (start typeSize nmemb : Nat) (s : State) : Prop where
  base : s.stack.base = start
  top : s.stack.top = start + typeSize * nmemb
  size : s.stack.typeSize = typeSize
  offset : s.stack.curOffset + typeSize * s.items.length = typeSize * nmemb
  items : Stacked s.mem typeSize (start + s.stack.curOffset) s.items

variable {start typeSize nmemb : Nat} {s s' : State}

/-- A buffer off the storage does not overlap the item that is popped. -/
theorem Inv.off (hi : Inv start typeSize nmemb s) (ho : Off s.stack item) (hne : s.items ≠ []) :
    item ≤ s.stack.base + s.stack.curOffset ∨
      s.stack.base + s.stack.curOffset + s.stack.typeSize ≤ item := by
  obtain ⟨x, l, hl⟩ := List.exists_cons_of_ne_nil hne
  have hoff := hi.offset
  rw [hl, List.length_cons, Nat.mul_succ] at hoff
  have hbase := hi.base
  have hsize := hi.size
  have htop := hi.top
  unfold Off at ho
  omega

/-- The end of the storage is reached exactly by the empty stack. -/
theorem Inv.empty_iff (ht : 1 ≤ typeSize) (hi : Inv start typeSize nmemb s) :
    s.stack.base + s.stack.curOffset = s.stack.top ↔ s.items = [] := by
  have hoff := hi.offset
  rw [hi.base, hi.top]
  cases hl : s.items with
  | nil =>
    rw [hl, List.length_nil, Nat.mul_zero] at hoff
    exact iff_of_true (by omega) rfl
  | cons x l =>
    rw [hl, List.length_cons, Nat.mul_succ] at hoff
    exact iff_of_false (by omega) (by simp)

/-- What can be popped is there. -/
theorem Inv.ne_nil (ht : 1 ≤ typeSize) (hi : Inv start typeSize nmemb s)
    (h : popTo s.stack item s.mem = some (stack', mem')) : s.items ≠ [] := by
  intro hnil
  rw [popTo_eq_none_iff.mpr ((hi.empty_iff ht).mpr hnil)] at h
  cases h

/-- There is no room for an item exactly if there are as many as there may be. -/
theorem Inv.full_iff (ht : 1 ≤ typeSize) (hi : Inv start typeSize nmemb s) :
    s.stack.curOffset < s.stack.typeSize ↔ s.items.length = nmemb := by
  have hoff := hi.offset
  rw [hi.size]
  constructor
  · intro hlt
    by_contra hne
    have hle : s.items.length ≤ nmemb := by
      refine Nat.le_of_mul_le_mul_left ?_ ht
      omega
    have hmul : typeSize * (s.items.length + 1) ≤ typeSize * nmemb := Nat.mul_le_mul_left _ (by omega)
    rw [Nat.mul_succ] at hmul
    omega
  · intro hlen
    rw [hlen] at hoff
    omega

theorem Inv.push (hi : Inv start typeSize nmemb s) (hr : Readable s.stack item)
    (h : pushFrom s.stack item s.mem = some (stack', mem')) :
    Inv start typeSize nmemb ⟨stack', mem', bytesAt s.mem item s.stack.typeSize :: s.items⟩ := by
  have hbytes := pushFrom_bytes hr h
  obtain ⟨hle, rfl, hframe⟩ := pushFrom_stores h
  have hoff := hi.offset
  have hitems := hi.items
  simp only [hi.base, hi.size] at hle hbytes hframe ⊢
  refine ⟨rfl, hi.top, rfl, ?_, hbytes, ?_⟩
  · simp only [List.length_cons, Nat.mul_succ]
    omega
  · simp only
    rw [show start + (s.stack.curOffset - typeSize) + typeSize = start + s.stack.curOffset by omega]
    exact hitems.congr fun x h1 _ => hframe x (by omega)

theorem Inv.pop (ht : 1 ≤ typeSize) (hfit : typeSize * nmemb < 2 ^ 64) (hi : Inv start typeSize nmemb s)
    (ho : Off s.stack item) (h : popTo s.stack item s.mem = some (stack', mem')) :
    Inv start typeSize nmemb ⟨stack', mem', s.items.tail⟩ ∧
      ∃ l, s.items = bytesAt mem' item typeSize :: l := by
  have hne := hi.ne_nil ht h
  obtain ⟨-, rfl, hbytes, hframe⟩ := popTo_some (hi.off ho hne) h
  obtain ⟨x, l, hl⟩ := List.exists_cons_of_ne_nil hne
  have hoff := hi.offset
  have hitems := hi.items
  rw [hl] at hoff hitems
  rw [List.length_cons, Nat.mul_succ] at hoff
  obtain ⟨hx, hrest⟩ := hitems
  rw [hi.base, hi.size] at hbytes
  have hcur : (s.stack.curOffset + s.stack.typeSize) % 2 ^ 64 = s.stack.curOffset + typeSize := by
    rw [hi.size]
    exact Nat.mod_eq_of_lt (by omega)
  refine ⟨⟨hi.base, hi.top, hi.size, ?_, ?_⟩, l, ?_⟩
  · simp only [hcur, hl, List.tail_cons]
    omega
  · simp only [hcur, hl, List.tail_cons, ← Nat.add_assoc]
    refine hrest.congr fun y h1 h2 => hframe y ?_
    have htop := hi.top
    have hbase := hi.base
    unfold Off at ho
    omega
  · rw [hl, hbytes, hx]

theorem Inv.step (ht : 1 ≤ typeSize) (hfit : typeSize * nmemb < 2 ^ 64) (hi : Inv start typeSize nmemb s)
    (h : Step s s') : Inv start typeSize nmemb s' := by
  cases h with
  | push item hr h => exact hi.push hr h
  | pop item ho h => exact (hi.pop ht hfit ho h).1
  | others hm =>
    refine ⟨hi.base, hi.top, hi.size, hi.offset, hi.items.congr fun x h1 h2 => hm x ?_ ?_⟩
    · rw [hi.base]
      omega
    · have hoff := hi.offset
      rw [hi.top]
      omega

theorem Inv.run (ht : 1 ≤ typeSize) (hfit : typeSize * nmemb < 2 ^ 64) (hi : Inv start typeSize nmemb s)
    (h : Relation.ReflTransGen Step s s') : Inv start typeSize nmemb s' := by
  induction h with
  | refl => exact hi
  | tail _ hstep ih => exact ih.step ht hfit hstep

/-! ## What is promised -/

/-- A state in which the stack does what a bounded stack does. -/
structure LifoOk (typeSize nmemb : Nat) (s : State) : Prop where
  pushPanics : ∀ item, pushFrom s.stack item s.mem = none ↔ s.items.length = nmemb
  popPanics : ∀ item, popTo s.stack item s.mem = none ↔ s.items = []
  /-- The buffer gets the item that was pushed last. -/
  delivers : ∀ item stack' mem', Off s.stack item → popTo s.stack item s.mem = some (stack', mem') →
    s.items.head? = some (bytesAt mem' item typeSize)
  aligned : typeSize ∣ s.stack.curOffset
  bounded : s.stack.curOffset ≤ typeSize * nmemb
  /-- A push stores inside the storage, and a pop reads inside it. -/
  stores : ∀ item stack' mem', pushFrom s.stack item s.mem = some (stack', mem') →
    s.stack.base ≤ stack'.base + stack'.curOffset ∧
      stack'.base + stack'.curOffset + typeSize ≤ s.stack.top ∧
      ∀ x, x < stack'.base + stack'.curOffset ∨ stack'.base + stack'.curOffset + typeSize ≤ x → mem' x = s.mem x
  reads : s.items ≠ [] → s.stack.base ≤ s.stack.base + s.stack.curOffset ∧
    s.stack.base + s.stack.curOffset + typeSize ≤ s.stack.top
  /-- What is on the stack before a step and after it is not written. -/
  kept : ∀ s', Step s s' → ∀ x, s.stack.base + max s.stack.curOffset s'.stack.curOffset ≤ x →
    x < s.stack.top → s'.mem x = s.mem x

theorem Inv.kept (ht : 1 ≤ typeSize) (hi : Inv start typeSize nmemb s) (h : Step s s')
    (hx : s.stack.base + max s.stack.curOffset s'.stack.curOffset ≤ x) (hx' : x < s.stack.top) :
    s'.mem x = s.mem x := by
  cases h with
  | push item hr h =>
    obtain ⟨hle, rfl, hframe⟩ := pushFrom_stores h
    refine hframe x (Or.inr ?_)
    simp only at hx ⊢
    omega
  | pop item ho h =>
    obtain ⟨-, -, -, hframe⟩ := popTo_some (hi.off ho (hi.ne_nil ht h)) h
    refine hframe x ?_
    unfold Off at ho
    omega
  | others hm => exact hm x (by omega) hx'

theorem Inv.lifoOk (ht : 1 ≤ typeSize) (hfit : typeSize * nmemb < 2 ^ 64) (hi : Inv start typeSize nmemb s) :
    LifoOk typeSize nmemb s := by
  have hoff := hi.offset
  refine ⟨fun item => pushFrom_eq_none_iff.trans (hi.full_iff ht),
    fun item => popTo_eq_none_iff.trans (hi.empty_iff ht), ?_, ?_, by omega, ?_, ?_, ?_⟩
  · intro item stack' mem' ho h
    obtain ⟨-, l, hl⟩ := hi.pop ht hfit ho h
    rw [hl, List.head?_cons]
  · have hsum : typeSize ∣ s.stack.curOffset + typeSize * s.items.length := by
      rw [hoff]
      exact Nat.dvd_mul_right ..
    exact (Nat.dvd_add_left (Nat.dvd_mul_right ..)).mp hsum
  · intro item stack' mem' h
    obtain ⟨hle, rfl, hframe⟩ := pushFrom_stores h
    have hsize := hi.size
    simp only [hsize] at hle hframe ⊢
    refine ⟨Nat.le_add_right .., ?_, hframe⟩
    rw [hi.top, hi.base]
    omega
  · intro hne
    obtain ⟨x, l, hl⟩ := List.exists_cons_of_ne_nil hne
    rw [hl, List.length_cons, Nat.mul_succ] at hoff
    rw [hi.top, hi.base]
    omega
  · exact fun s' h x hx hx' => hi.kept ht h hx hx'

/-- The state that `stack_new` leaves. -/
theorem Inv.new {σ : Type} {A : PageAllocator σ} {hhdm ptr : Nat} {h h' : Heap σ} (hfit : typeSize * nmemb < 2 ^ 64)
    (hn : stackNew A hhdm typeSize nmemb h = some (ptr, stack, h')) :
    Inv stack.base typeSize nmemb ⟨stack, h'.mem, []⟩ := by
  obtain ⟨-, -, -, hsize, hcur, htop⟩ := stackNew_some hn
  rw [Nat.mod_eq_of_lt hfit] at hcur htop
  exact ⟨rfl, htop, hsize, hcur, trivial⟩

/-- **The stack container is a bounded stack** in every run on a new stack, whose storage is all
its own. -/
theorem stack_bounded_lifo {σ : Type} (A : PageAllocator σ) (hhdm typeSize nmemb : Nat) (ht : 1 ≤ typeSize)
    (hfit : typeSize * nmemb < 2 ^ 64 - 4096) (h h' : Heap σ) (ptr : Nat) (stack : Stack)
    (hn : stackNew A hhdm typeSize nmemb h = some (ptr, stack, h')) :
    Usable A hhdm h' stack.base (typeSize * nmemb) ∧ stack.top = stack.base + typeSize * nmemb ∧
      ∀ s, Relation.ReflTransGen Step ⟨stack, h'.mem, []⟩ s →
        s.stack.base = stack.base ∧ s.stack.top = stack.top ∧ LifoOk typeSize nmemb s := by
  have hfit' : typeSize * nmemb < 2 ^ 64 := by omega
  have hnew := Inv.new hfit' hn
  obtain ⟨h₁, -, hb, -⟩ := stackNew_some hn
  rw [Nat.mod_eq_of_lt hfit'] at hb
  refine ⟨(alloc_usable_iff hfit' hb).mpr (by omega), hnew.top, ?_⟩
  intro s hrun
  have hi := hnew.run ht hfit' hrun
  exact ⟨hi.base, hi.top.trans hnew.top.symm, hi.lifoOk ht hfit'⟩

theorem stack_bounded_lifo_push : ∃ ptr stack h' s,
    stackNew bump 0 8 2 ⟨[], fun _ => 0⟩ = some (ptr, stack, h') ∧
      Relation.ReflTransGen Step ⟨stack, h'.mem, []⟩ s ∧ s.items.length = 1 ∧ LifoOk 8 2 s := by
  have hsome : (stackNew bump 0 8 2 ⟨[], fun _ => 0⟩).isSome = true := by decide +kernel
  obtain ⟨⟨ptr, stack, h'⟩, hn⟩ := Option.isSome_iff_exists.mp hsome
  obtain ⟨-, htop, hrun⟩ := stack_bounded_lifo bump 0 8 2 (by decide) (by decide) _ h' ptr stack hn
  obtain ⟨-, -, hok⟩ := hrun _ .refl
  have hpush : pushFrom stack stack.top h'.mem ≠ none := by
    rw [Ne, hok.pushPanics]
    simp
  obtain ⟨⟨stack', mem'⟩, hp⟩ := Option.ne_none_iff_exists'.mp hpush
  have hreadable : Readable stack stack.top := by
    have hle : stack.curOffset ≤ 8 * 2 := hok.bounded
    left
    omega
  have hpushed : Step ⟨stack, h'.mem, []⟩ _ := .push stack.top hreadable hp
  have hstep := Relation.ReflTransGen.single hpushed
  exact ⟨ptr, stack, h', _, hn, hstep, rfl, (hrun _ hstep).2.2⟩

end Cynix.Lib.StackRuns
