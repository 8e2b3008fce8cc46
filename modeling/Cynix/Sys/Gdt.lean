import Cynix.Base.Sections

/-! # The descriptor table of all CPUs (`sys/gdt.c`)

One table serves every CPU. `gdt_reload` loads the segment registers from it
without a lock, while other CPUs, one after another, put their task state
segment into its last two slots and load their task register. The table's
stores are those of the fields of its descriptors. -/
namespace Cynix.Sys.Gdt
open Cynix.Base.Sections

/-- The fields of `struct gdt_descriptor`. -/
inductive Field where
  | limit
  | baseLow16
  | baseMid8
  | access
  | granularity
  | baseHigh8
  deriving DecidableEq

abbrev Descriptor := Field → Nat

def Descriptor.of (limit baseLow16 baseMid8 access granularity baseHigh8 : Nat) : Descriptor
  | .limit => limit
  | .baseLow16 => baseLow16
  | .baseMid8 => baseMid8
  | .access => access
  | .granularity => granularity
  | .baseHigh8 => baseHigh8

abbrev Table := Nat → Descriptor

def gdtMax : Nat := 7

def gdtKernelCodeSel : Nat := 0x08
def gdtKernelDataSel : Nat := 0x10
def gdtUserCodeSel : Nat := 0x1b
def gdtUserDataSel : Nat := 0x23
def gdtTssSel : Nat := 0x28

/-- The stores of `gdt_init`. -/
def gdtInit (gdt : Table) : Table
  | 0 => .of 0 0 0 0 0 0
  | 1 => .of 0 0 0 0b10011011 0b00100000 0
  | 2 => .of 0 0 0 0b10010011 0 0
  | 3 => .of 0 0 0 0b11111011 0b00100000 0
  | 4 => .of 0 0 0 0b11110011 0 0
  | i => gdt i

/-- `sizeof(gdt) - 1`, the limit that `gdt_reload` puts in the table register. -/
def gdtLimit : Nat := gdtMax * 8 - 1

/-! ## What the processor does with a descriptor -/

def Descriptor.bit (d : Descriptor) (f : Field) (k : Nat) : Bool := d f / 2 ^ k % 2 == 1

def Descriptor.dpl (d : Descriptor) : Nat := d .access / 32 % 4

inductive SegReg where
  | cs
  | ds
  | es
  | ss
  | fs
  | gs
  deriving DecidableEq

/-- The checks at privilege level 0: for `cs` those of a far return to 64-bit code. -/
def segOk (r : SegReg) (sel : Nat) (d : Descriptor) : Bool :=
  d.bit .access 7 && d.bit .access 4 && match r with
    | .cs => d.bit .access 3 && sel % 4 == 0 && (if d.bit .access 2 then d.dpl ≤ 0 else d.dpl == 0) &&
        d.bit .granularity 5 && !d.bit .granularity 6
    | .ss => !d.bit .access 3 && d.bit .access 1 && sel % 4 == 0 && d.dpl == 0
    | _ => if d.bit .access 3 then d.bit .access 1 && (d.bit .access 2 || sel % 4 ≤ d.dpl) else sel % 4 ≤ d.dpl

/-- A load of a segment register: `none` is a fault. The processor also stores the accessed bit where
it is clear; the second component says whether it does. -/
def loadSeg (gdt : Table) (r : SegReg) (sel : Nat) : Option (Descriptor × Bool) :=
  if sel / 8 * 8 + 7 ≤ gdtLimit && segOk r sel (gdt (sel / 8)) then
    some (gdt (sel / 8), !(gdt (sel / 8)).bit .access 0)
  else none

structure Tr where
  base : Nat
  limit : Nat
  deriving DecidableEq

/-- The base of a system descriptor, from its two slots. -/
def baseOf (lo hi : Descriptor) : Nat :=
  lo .baseLow16 + lo .baseMid8 * 2 ^ 16 + lo .baseHigh8 * 2 ^ 24 + hi .limit * 2 ^ 32 + hi .baseLow16 * 2 ^ 48

def limitOf (d : Descriptor) : Nat :=
  if d.bit .granularity 7 then (d .limit + d .granularity % 16 * 2 ^ 16) * 4096 + 4095
  else d .limit + d .granularity % 16 * 2 ^ 16

def put (gdt : Table) (i : Nat) (f : Field) (v : Nat) : Table :=
  Function.update gdt i (Function.update (gdt i) f v)

/-- `ltr`: the descriptor must be that of an available 64-bit task state segment, and the processor
marks it busy. -/
def ltr (gdt : Table) (sel : Nat) : Option (Tr × Table) :=
  let lo := gdt (sel / 8)
  let hi := gdt (sel / 8 + 1)
  if sel / 8 * 8 + 15 ≤ gdtLimit ∧ lo .access % 32 = 0b01001 ∧ lo.bit .access 7 = true ∧ hi .access % 32 = 0 then
    some (⟨baseOf lo hi, limitOf lo⟩, put gdt (sel / 8) .access (lo .access ||| 0b10))
  else none

/-! ## `gdt_load_tss` -/

def sizeofCpuTss : Nat := 104

/-- The stores to `gdt[5]` and `gdt[6]`. -/
def tssStores (tss : Nat) : List (Nat × Field × Nat) :=
  [(5, .limit, (sizeofCpuTss - 1) % 2 ^ 16), (5, .baseLow16, tss % 2 ^ 16), (5, .baseMid8, (tss >>> 16) % 2 ^ 8),
    (5, .access, 0b10001001), (5, .granularity, 0), (5, .baseHigh8, (tss >>> 24) % 2 ^ 8),
    (6, .limit, (tss >>> 32) % 2 ^ 16), (6, .baseLow16, (tss >>> 48) % 2 ^ 16), (6, .baseMid8, 0),
    (6, .access, 0), (6, .granularity, 0), (6, .baseHigh8, 0)]

inductive Local where
  | store (tss k : Nat)
  | ltr
  /-- `none` is a fault. -/
  | done (tr : Option Tr)

def step : Local → Table → Option (Local × Table)
  | .store tss k, gdt =>
    match (tssStores tss)[k]? with
    | some (i, f, v) => some (.store tss (k + 1), put gdt i f v)
    | none => some (.ltr, gdt)
  | .ltr, gdt =>
    match ltr gdt gdtTssSel with
    | some (tr, gdt) => some (.done (some tr), gdt)
    | none => some (.done none, gdt)
  | .done _, _ => none

/-- What `gdt_load_tss` does between `spinlock_acquire` and `spinlock_release`. -/
def machine : Machine Table Nat Local Tr where
  start tss := .store tss 0
  step := step
  result l := match l with
    | .done tr => tr
    | _ => none

def putAll (gdt : Table) (ws : List (Nat × Field × Nat)) : Table := ws.foldl (fun g w => put g w.1 w.2.1 w.2.2) gdt

def gdtLoadTss (tss : Nat) (gdt : Table) : Option Tr × Table :=
  match ltr (putAll gdt (tssStores tss)) gdtTssSel with
  | some (tr, gdt) => (some tr, gdt)
  | none => (none, putAll gdt (tssStores tss))

variable {gdt gdt' : Table} {tss : Nat}

theorem runs_store (gdt : Table) (tss k : Nat) :
    machine.Runs (.store tss k, gdt) (.ltr, putAll gdt ((tssStores tss).drop k)) := by
  obtain ⟨n, hn⟩ : ∃ n, n = (tssStores tss).length - k := ⟨_, rfl⟩
  induction n generalizing k gdt with
  | zero =>
    have hlen : (tssStores tss).length ≤ k := by omega
    rw [List.drop_of_length_le hlen]
    refine .single ?_
    simp only [machine, step, List.getElem?_eq_none hlen]
    rfl
  | succ n ih =>
    have hlt : k < (tssStores tss).length := by omega
    have hhead : step (.store tss k) gdt = some (.store tss (k + 1),
        put gdt ((tssStores tss)[k]).1 ((tssStores tss)[k]).2.1 ((tssStores tss)[k]).2.2) := by
      simp only [step, List.getElem?_eq_getElem hlt]
    rw [List.drop_eq_getElem_cons hlt]
    exact .head hhead (ih _ (k + 1) (by omega))

theorem implements : machine.Implements gdtLoadTss := by
  intro tss gdt
  have hstores : machine.Runs (.store tss 0, gdt) (.ltr, putAll gdt (tssStores tss)) := runs_store gdt tss 0
  unfold gdtLoadTss
  cases h : ltr (putAll gdt (tssStores tss)) gdtTssSel with
  | none =>
    refine ⟨.done none, hstores.tail ?_, rfl, rfl⟩
    simp [machine, step, h]
  | some r =>
    refine ⟨.done (some r.1), hstores.tail ?_, rfl, rfl⟩
    simp [machine, step, h]

/-- The two slots after the stores. -/
theorem putAll_slots (tss : Nat) (gdt : Table) :
    putAll gdt (tssStores tss) 5 =
      .of 103 (tss % 2 ^ 16) ((tss >>> 16) % 2 ^ 8) 0b10001001 0 ((tss >>> 24) % 2 ^ 8) ∧
    putAll gdt (tssStores tss) 6 = .of ((tss >>> 32) % 2 ^ 16) ((tss >>> 48) % 2 ^ 16) 0 0 0 0 := by
  constructor
  · funext f
    cases f <;> simp [putAll, tssStores, put, Descriptor.of, sizeofCpuTss]
  · funext f
    cases f <;> simp [putAll, tssStores, put, Descriptor.of]

theorem put_other {i j : Nat} (h : j ≠ i) (gdt : Table) (f : Field) (v : Nat) : put gdt i f v j = gdt j :=
  Function.update_of_ne h ..

/-- The address comes back from the five fields it is cut into. -/
theorem baseOf_slots (ht : tss < 2 ^ 64) (limit access granularity : Nat) :
    baseOf (.of limit (tss % 2 ^ 16) ((tss >>> 16) % 2 ^ 8) access granularity ((tss >>> 24) % 2 ^ 8))
      (.of ((tss >>> 32) % 2 ^ 16) ((tss >>> 48) % 2 ^ 16) 0 0 0 0) = tss := by
  simp only [baseOf, Descriptor.of, Nat.shiftRight_eq_div_pow]
  omega

/-- What the processor reads back, and what it leaves alone. -/
theorem gdtLoadTss_eq (ht : tss < 2 ^ 64) (gdt : Table) :
    ∃ gdt', gdtLoadTss tss gdt = (some ⟨tss, 103⟩, gdt') ∧ ∀ i, i < 5 → gdt' i = gdt i := by
  obtain ⟨h5, h6⟩ := putAll_slots tss gdt
  have hload : ltr (putAll gdt (tssStores tss)) gdtTssSel = some (⟨tss, 103⟩,
      put (putAll gdt (tssStores tss)) 5 .access (0b10001001 ||| 0b10)) := by
    unfold ltr
    have hlo : gdtTssSel / 8 = 5 := rfl
    simp only [hlo, h5, h6, baseOf_slots ht]
    simp [Descriptor.of, Descriptor.bit, limitOf, gdtLimit, gdtMax]
  unfold gdtLoadTss
  rw [hload]
  refine ⟨_, rfl, ?_⟩
  intro i hi
  rw [put_other (by omega)]
  simp only [putAll, tssStores, List.foldl_cons, List.foldl_nil]
  simp only [put_other (show i ≠ 5 by omega), put_other (show i ≠ 6 by omega)]

/-! ## Many CPUs -/

inductive Stage where
  | idle
  /-- In `gdt_reload`, before the load of this number. -/
  | reloading (k : Nat)
  /-- In `gdt_load_tss`. -/
  | loading
  /-- A load has faulted, or the processor has stored to the table without the lock. -/
  | bad
  deriving DecidableEq

/-- The loads of `gdt_reload`, in order: the far return first. -/
def reloads : List (SegReg × Nat) :=
  [(.cs, gdtKernelCodeSel), (.ds, gdtKernelDataSel), (.es, gdtKernelDataSel), (.ss, gdtKernelDataSel),
    (.fs, gdtUserDataSel), (.gs, gdtUserDataSel)]

structure Cpu where
  stage : Stage
  /-- What the processor keeps of the descriptor last loaded. -/
  seg : SegReg → Option Descriptor
  tr : Option Tr

abbrev World := Nat → Cpu

/-- One step of `gdt_reload`. -/
def Cpu.reload (gdt : Table) (cpu : Cpu) (k : Nat) : Cpu :=
  match reloads[k]? with
  | none => { cpu with stage := .idle }
  | some (r, sel) =>
    match loadSeg gdt r sel with
    | some (d, false) => { cpu with stage := .reloading (k + 1), seg := Function.update cpu.seg r (some d) }
    | _ => { cpu with stage := .bad }

inductive Quiet (gdt : Table) : World → World → Prop
  | call {w : World} {i : Nat} : (w i).stage = .idle →
      Quiet gdt w (Function.update w i { w i with stage := .reloading 0 })
  | load {w : World} {i k : Nat} : (w i).stage = .reloading k →
      Quiet gdt w (Function.update w i ((w i).reload gdt k))

inductive Invoke (tssOf : Nat → Nat) : Nat → Nat → World → World → Prop
  | loadTss {i : Nat} {w : World} : (w i).stage = .idle →
      Invoke tssOf i (tssOf i) w (Function.update w i { w i with stage := .loading })

inductive Resume : Nat → Nat → Tr → World → World → Prop
  | loadedTss {i tss : Nat} {tr : Tr} {w : World} :
      Resume i tss tr w (Function.update w i { w i with stage := .idle, tr := some tr })

/-- `tssOf` is the address of each CPU's own task state segment. -/
def client (tssOf : Nat → Nat) : Client Table World Nat Tr := ⟨Quiet, Invoke tssOf, Resume⟩

/-! ## The slots of `gdt_init` -/

theorem tssStores_slots {tss : Nat} {w : Nat × Field × Nat} (hw : w ∈ tssStores tss) : 5 ≤ w.1 := by
  simp only [tssStores, List.mem_cons, List.not_mem_nil, or_false] at hw
  rcases hw with rfl | rfl | rfl | rfl | rfl | rfl | rfl | rfl | rfl | rfl | rfl | rfl <;> simp

/-- No access of `gdt_load_tss` is to a slot of `gdt_init`. -/
theorem step_slots {l l' : Local} (h : step l gdt = some (l', gdt')) {i : Nat} (hi : i < 5) : gdt' i = gdt i := by
  cases l with
  | store tss k =>
    simp only [step] at h
    split at h
    · rename_i j f v hw
      cases h
      have hj : 5 ≤ j := tssStores_slots (List.mem_of_getElem? hw)
      exact put_other (by omega) ..
    · cases h
      rfl
  | ltr =>
    simp only [step] at h
    split at h
    · rename_i tr g hl
      cases h
      unfold ltr at hl
      dsimp only at hl
      split_ifs at hl
      cases hl
      exact put_other (show i ≠ 5 by omega) ..
    · cases h
      rfl
  | done tr => cases h

theorem reloads_slots {r : SegReg} {sel : Nat} (h : (r, sel) ∈ reloads) : sel / 8 < 5 := by
  simp only [reloads, List.mem_cons, Prod.mk.injEq, List.not_mem_nil, or_false] at h
  rcases h with ⟨-, rfl⟩ | ⟨-, rfl⟩ | ⟨-, rfl⟩ | ⟨-, rfl⟩ | ⟨-, rfl⟩ | ⟨-, rfl⟩ <;> decide

theorem reload_congr (h : ∀ i, i < 5 → gdt' i = gdt i) (cpu : Cpu) (k : Nat) : cpu.reload gdt' k = cpu.reload gdt k := by
  unfold Cpu.reload
  cases hk : reloads[k]? with
  | none => rfl
  | some w =>
    have hslot := h _ (reloads_slots (List.mem_of_getElem? hk))
    simp only [loadSeg, hslot]

theorem unseen (tssOf : Nat → Nat) : machine.Unseen (client tssOf) := by
  intro l gdt l' gdt' hs w w' hq
  cases hq with
  | call hi => exact .call hi
  | load hi =>
    rw [reload_congr fun i hi => step_slots hs hi]
    exact .load hi

theorem runs_slots {a b : Local × Table} (h : machine.Runs a b) {i : Nat} (hi : i < 5) : b.2 i = a.2 i := by
  induction h with
  | refl => rfl
  | tail _ hs ih => exact (step_slots hs hi).trans ih

/-- What `gdt_reload` leaves in each register. -/
def segOf : SegReg → Descriptor
  | .cs => .of 0 0 0 0b10011011 0b00100000 0
  | .fs => .of 0 0 0 0b11110011 0 0
  | .gs => .of 0 0 0 0b11110011 0 0
  | _ => .of 0 0 0 0b10010011 0 0

def Initial (gdt : Table) : Prop := ∀ i, i < 5 → gdt i = gdtInit gdt i

theorem gdtInit_slots (gdt gdt' : Table) {i : Nat} (hi : i < 5) : gdtInit gdt i = gdtInit gdt' i := by
  obtain rfl | rfl | rfl | rfl | rfl : i = 0 ∨ i = 1 ∨ i = 2 ∨ i = 3 ∨ i = 4 := by omega
  all_goals rfl

theorem Initial.congr (hg : Initial gdt) (h : ∀ i, i < 5 → gdt' i = gdt i) : Initial gdt' := by
  intro i hi
  rw [h i hi, hg i hi]
  exact gdtInit_slots _ _ hi

theorem initial_gdtInit (gdt : Table) : Initial (gdtInit gdt) := fun _ hi => gdtInit_slots _ _ hi

/-- Each load is accepted, and finds the accessed bit set. -/
theorem loadSeg_reloads (hg : Initial gdt) {r : SegReg} {sel : Nat} (h : (r, sel) ∈ reloads) :
    loadSeg gdt r sel = some (segOf r, false) := by
  have hslot := hg _ (reloads_slots h)
  unfold loadSeg
  rw [hslot]
  simp only [reloads, List.mem_cons, Prod.mk.injEq, List.not_mem_nil, or_false] at h
  rcases h with ⟨rfl, rfl⟩ | ⟨rfl, rfl⟩ | ⟨rfl, rfl⟩ | ⟨rfl, rfl⟩ | ⟨rfl, rfl⟩ | ⟨rfl, rfl⟩ <;>
    simp [gdtInit, gdtKernelCodeSel, gdtKernelDataSel, gdtUserDataSel, gdtLimit, gdtMax, segOk, segOf,
      Descriptor.bit, Descriptor.dpl, Descriptor.of]

/-! ## Runs -/

structure Cpu.Ok (tss : Nat) (cpu : Cpu) : Prop where
  good : cpu.stage ≠ .bad
  seg : ∀ r d, cpu.seg r = some d → d = segOf r
  tr : ∀ tr, cpu.tr = some tr → tr = ⟨tss, 103⟩

theorem Cpu.Ok.reload {cpu : Cpu} (hok : cpu.Ok tss) (hg : Initial gdt) (k : Nat) : (cpu.reload gdt k).Ok tss := by
  unfold Cpu.reload
  cases hk : reloads[k]? with
  | none => exact ⟨by simp, hok.seg, hok.tr⟩
  | some w =>
    simp only [loadSeg_reloads hg (List.mem_of_getElem? hk)]
    refine ⟨by simp, ?_, hok.tr⟩
    intro r d hr
    change Function.update cpu.seg w.1 _ r = some d at hr
    by_cases hrw : r = w.1
    · subst hrw
      rw [Function.update_self] at hr
      exact (Option.some.inj hr).symm
    · rw [Function.update_of_ne hrw] at hr
      exact hok.seg r d hr

structure Ok (tssOf : Nat → Nat) (t : Coarse Table Nat World) : Prop where
  initial : Initial t.data
  cpu : ∀ i, (t.client i).Ok (tssOf i)
  want : ∀ i tss, t.phase i = .want tss → tss = tssOf i
  alive : ∀ i tss, t.phase i ≠ .stuck tss

variable {tssOf : Nat → Nat} {t t' : Coarse Table Nat World}

theorem cpu_update {w : World} (hw : ∀ i, (w i).Ok (tssOf i)) {i : Nat} {cpu : Cpu} (hc : cpu.Ok (tssOf i)) (j : Nat) :
    (Function.update w i cpu j).Ok (tssOf j) := by
  by_cases hj : j = i
  · subst hj
    rwa [Function.update_self]
  · rw [Function.update_of_ne hj]
    exact hw j

theorem Ok.step (htss : ∀ i, tssOf i < 2 ^ 64) (hok : Ok tssOf t) (h : CoarseStep gdtLoadTss (client tssOf) t t') :
    Ok tssOf t' := by
  have hphase : ∀ {i : Nat} {p : Phase Nat Empty}, (∀ tss, p = .want tss → tss = tssOf i) → (∀ tss, p ≠ .stuck tss) →
      (∀ j tss, Function.update t.phase i p j = .want tss → tss = tssOf j) ∧
        ∀ j tss, Function.update t.phase i p j ≠ .stuck tss := by
    intro i p hw hs
    refine ⟨fun j tss => ?_, fun j tss => ?_⟩ <;> by_cases hj : j = i
    · subst hj
      rw [Function.update_self]
      exact hw tss
    · rw [Function.update_of_ne hj]
      exact hok.want j tss
    · subst hj
      rw [Function.update_self]
      exact hs tss
    · rw [Function.update_of_ne hj]
      exact hok.alive j tss
  cases h with
  | quiet hq =>
    refine ⟨hok.initial, ?_, hok.want, hok.alive⟩
    cases hq with
    | @call i hi => exact cpu_update hok.cpu ⟨by simp, (hok.cpu i).seg, (hok.cpu i).tr⟩
    | @load i k hi => exact cpu_update hok.cpu ((hok.cpu i).reload hok.initial k)
  | @invoke i op w _ hc =>
    cases hc with
    | loadTss hi =>
      obtain ⟨hw, hs⟩ := hphase (i := i) (p := .want (tssOf i)) (by simp) (by simp)
      exact ⟨hok.initial, cpu_update hok.cpu ⟨by simp, (hok.cpu i).seg, (hok.cpu i).tr⟩, hw, hs⟩
  | @run i tss tr gdt w hw hs hc =>
    obtain rfl := hok.want i tss hw
    obtain ⟨gdt', heq, hslots⟩ := gdtLoadTss_eq (htss i) t.data
    rw [heq] at hs
    cases hs
    cases hc with
    | loadedTss =>
      obtain ⟨hw, hs⟩ := hphase (i := i) (p := .out) (by simp) (by simp)
      refine ⟨hok.initial.congr hslots, cpu_update hok.cpu ⟨by simp, (hok.cpu i).seg, ?_⟩, hw, hs⟩
      intro tr htr
      exact (Option.some.inj htr).symm
  | @die i tss gdt hw hs =>
    obtain rfl := hok.want i tss hw
    obtain ⟨gdt', heq, -⟩ := gdtLoadTss_eq (htss i) t.data
    rw [heq] at hs
    cases hs

theorem Ok.run (htss : ∀ i, tssOf i < 2 ^ 64) (hok : Ok tssOf t)
    (h : Relation.ReflTransGen (CoarseStep gdtLoadTss (client tssOf)) t t') : Ok tssOf t' := by
  induction h with
  | refl => exact hok
  | tail _ hs ih => exact ih.step htss hs

/-- The machine after `gdt_init` has filled its table. -/
def boot (gdt : Table) : State Table Nat Local World := .start (fun _ => ⟨.idle, fun _ => none, none⟩) (gdtInit gdt)

/-- **Every CPU has its own task state segment and the kernel's segments.** Whatever the order of
`gdt_reload` and `gdt_load_tss` on the CPUs, store by store and load by load: no load faults, and none
makes the processor store to the table without the lock; the slots of `gdt_init` never change; a segment
register that was loaded holds its kernel descriptor; and a task register that was loaded holds the
address of its own CPU's segment, all 64 bits of it, with the limit of the whole structure. -/
theorem descriptors_are_own (gdt : Table) (tssOf : Nat → Nat) (htss : ∀ i, tssOf i < 2 ^ 64)
    (s : State Table Nat Local World) (h : Relation.ReflTransGen (Step machine (client tssOf)) (boot gdt) s) :
    (∀ i, (s.client i).stage ≠ .bad ∧ ∀ tss, s.phase i ≠ .stuck tss) ∧
    (∀ i, i < 5 → s.data i = gdtInit gdt i) ∧
    (∀ i r d, (s.client i).seg r = some d → d = segOf r) ∧
    ∀ i tr, (s.client i).tr = some tr → tr = ⟨tssOf i, 103⟩ := by
  obtain ⟨t, hrun, hm⟩ := simulates implements (unseen tssOf) (matches_start _ _) h
  have hstart : Ok tssOf (Coarse.start (fun _ => ⟨.idle, fun _ => none, none⟩) (gdtInit gdt)) :=
    ⟨initial_gdtInit gdt, fun i => ⟨by simp [Coarse.start], by simp [Coarse.start], by simp [Coarse.start]⟩,
      by simp [Coarse.start], by simp [Coarse.start]⟩
  have hok := hstart.run htss hrun
  have hslots : ∀ i, i < 5 → s.data i = t.data i := by
    intro i hi
    by_cases hin : ∃ j op l, s.phase j = .inside op l
    · obtain ⟨j, op, l, hj⟩ := hin
      exact runs_slots (hm.busy j op l hj) hi
    · rw [hm.idle fun j op l hj => hin ⟨j, op, l, hj⟩]
  refine ⟨fun i => ⟨hm.client ▸ (hok.cpu i).good, ?_⟩, ?_, fun i => hm.client ▸ (hok.cpu i).seg,
    fun i => hm.client ▸ (hok.cpu i).tr⟩
  · intro tss hs
    have := hm.phase i
    rw [hs] at this
    exact hok.alive i tss this.symm
  · intro i hi
    rw [hslots i hi, hok.initial i hi]
    exact gdtInit_slots _ _ hi

/-- Task state segments for 64 CPUs. -/
def someTss (i : Nat) : Nat := 0x1000 + i % 64 * 0x100

/-- CPU 0 is about to take the lock. -/
def asking (s : State Table Nat Local World) : State Table Nat Local World :=
  { s.at 0 (.want (someTss 0)) with client := Function.update s.client 0 { s.client 0 with stage := .loading } }

/-- CPU 0 loads its task register. -/
theorem descriptors_are_own_one : ∃ s, Relation.ReflTransGen (Step machine (client someTss))
      (boot fun _ => .of 0 0 0 0 0 0) s ∧ (∃ tr, (s.client 0).tr = some tr) ∧
    ∀ tr, (s.client 0).tr = some tr → tr = ⟨someTss 0, 103⟩ := by
  have htss : ∀ i, someTss i < 2 ^ 64 := by
    intro i
    unfold someTss
    omega
  have hcall : Step machine (client someTss) (boot fun _ => .of 0 0 0 0 0 0)
      (asking (boot fun _ => .of 0 0 0 0 0 0)) := .invoke rfl (.loadTss rfl)
  obtain ⟨gdt, hspec, -⟩ := gdtLoadTss_eq (htss 0) (asking (boot fun _ => .of 0 0 0 0 0 0)).data
  have hback : Resume 0 (someTss 0) ⟨someTss 0, 103⟩ (asking (boot fun _ => .of 0 0 0 0 0 0)).client _ := .loadedTss
  have hrun := undisturbed (C := client someTss) implements rfl rfl hspec hback
  have hreach := Relation.ReflTransGen.head hcall hrun
  exact ⟨_, hreach, ⟨_, rfl⟩, (descriptors_are_own _ someTss htss _ hreach).2.2.2 0⟩

end Cynix.Sys.Gdt
