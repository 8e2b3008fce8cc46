import Cynix.Base.Trace
import Cynix.Mm.KernelSpace

/-! # Mapped accesses

`vmm_map_span`, and what the kernel does to memory once it runs on its own page
tables: it maps spans, and it loads from and stores to the higher-half window.
An access is in order when a call of `vmm_map_page` has entered each of its
pages as present; `present_iff_walk` ties that to the page tables. -/
namespace Cynix.Mm.Access
open Cynix.Base.Bytes Cynix.Base.Pages Cynix.Base.Trace Cynix.Lib.Misc Cynix.Lib.Alloc
open Cynix.Mm.Vmm Cynix.Mm.VmmTables Cynix.Mm.VmmRuns Cynix.Mm.VmmInit Cynix.Mm.KernelSpace

/-- The calls of `vmm_map_page` that `vmm_map_span` makes. -/
def vmmMapSpan (virt phys len flags : Nat) : List Call :=
  let alignedPhysTop := alignUp ((phys + len) % 2 ^ 64) pageSize
  let alignedPhysBase := alignDown phys pageSize
  let alignedVirtBase := alignDown virt pageSize
  let alignedLength := sub64 alignedPhysTop alignedPhysBase
  spanCalls alignedVirtBase alignedPhysBase flags (alignedLength / pageSize)

inductive Event where
  | map (virt phys len flags : Nat)
  /-- A load, or a store of a value. -/
  | access (addr size : Nat) (store : Option Nat)
  | wrmsr (reg value : Nat)
  deriving DecidableEq

def Event.calls : Event → List Call
  | .map virt phys len flags => vmmMapSpan virt phys len flags
  | _ => []

def callsOf (l : List Event) : List Call := l.flatMap Event.calls

/-- One of the calls has entered the page of the address as present. -/
def Present (calls : List Call) (x : Nat) : Prop :=
  ∃ c ∈ calls, c.virt = x / 4096 * 4096 ∧ c.flags &&& vmmPtePresent ≠ 0

def Covers (calls : List Call) (addr size : Nat) : Prop :=
  ∀ x, addr ≤ x → x < addr + size → Present calls x

/-- An access needs its pages to be present; `init` are the calls that `vmm_init` has made. -/
def Allowed (init : List Call) (past : List Event) : Event → Prop
  | .access addr size _ => Covers (init ++ callsOf past) addr size
  | _ => True

variable {calls calls' init : List Call} {past : List Event} {addr size a n p len hhdm flags x : Nat}

theorem Present.mono (h : Present calls x) (hs : calls ⊆ calls') : Present calls' x := by
  obtain ⟨c, hc, hv⟩ := h
  exact ⟨c, hs hc, hv⟩

theorem Covers.mono (h : Covers calls addr size) (hs : calls ⊆ calls') : Covers calls' addr size :=
  fun x h1 h2 => (h x h1 h2).mono hs

theorem Covers.sub (h : Covers calls addr size) (h1 : addr ≤ a) (h2 : a + n ≤ addr + size) :
    Covers calls a n :=
  fun x h3 h4 => h x (by omega) (by omega)

/-- What is covered stays covered. -/
theorem Covers.later (h : Covers (init ++ callsOf past) addr size) (l : List Event) :
    Covers (init ++ callsOf (past ++ l)) addr size := by
  refine h.mono fun c hc => ?_
  unfold callsOf at *
  rw [List.flatMap_append, ← List.append_assoc]
  exact List.mem_append_left _ hc

/-! ## Spans -/

/-- The span lies in physical memory and in the window. -/
structure Window (hhdm p len : Nat) : Prop where
  phys : p + len ≤ 2 ^ 52
  virt : hhdm + p + len < 2 ^ 64

theorem Window.sub (hw : Window hhdm p len) (hn : n ≤ len) : Window hhdm p n := by
  obtain ⟨h1, h2⟩ := hw
  exact ⟨by omega, by omega⟩

theorem mem_vmmMapSpan (hh : hhdm % 4096 = 0) (hw : Window hhdm p len) {c : Call} :
    c ∈ vmmMapSpan (hhdm + p) p len flags ↔
      ∃ page, page % 4096 = 0 ∧ p / 4096 * 4096 ≤ page ∧ page < p + len ∧
        c = ⟨hhdm + page, page, flags⟩ := by
  obtain ⟨h1, h2⟩ := hw
  have htop : alignUp ((p + len) % 2 ^ 64) pageSize = roundUp (p + len) := by
    rw [Nat.mod_eq_of_lt (by omega), alignUp_eq (by omega)]
  have hlen : sub64 (roundUp (p + len)) (p / 4096 * 4096) = roundUp (p + len) - p / 4096 * 4096 := by
    apply sub64_eq <;> unfold roundUp <;> omega
  have hbase : (hhdm + p) / 4096 * 4096 = hhdm + p / 4096 * 4096 := by omega
  unfold vmmMapSpan
  simp only [htop, alignDown, show pageSize = 4096 from rfl, hlen, hbase, mem_spanCalls]
  unfold roundUp
  constructor
  · rintro ⟨k, hk, rfl⟩
    refine ⟨p / 4096 * 4096 + k * 4096, by omega, by omega, by omega, ?_⟩
    rw [Call.mk.injEq]
    exact ⟨by omega, by omega, rfl⟩
  · rintro ⟨page, h3, h4, h5, rfl⟩
    refine ⟨(page - p / 4096 * 4096) / 4096, by omega, ?_⟩
    rw [Call.mk.injEq]
    exact ⟨by omega, by omega, rfl⟩

/-- A mapped span is covered. -/
theorem covers_vmmMapSpan (hh : hhdm % 4096 = 0) (hw : Window hhdm p len)
    (hf : flags &&& vmmPtePresent ≠ 0) : Covers (vmmMapSpan (hhdm + p) p len flags) (hhdm + p) len := by
  intro x h1 h2
  refine ⟨⟨x / 4096 * 4096, x / 4096 * 4096 - hhdm, flags⟩, ?_, rfl, hf⟩
  rw [mem_vmmMapSpan hh hw]
  refine ⟨x / 4096 * 4096 - hhdm, by omega, by omega, by omega, ?_⟩
  rw [Call.mk.injEq]
  exact ⟨by omega, rfl, rfl⟩

/-! ## Computations that map -/

abbrev Span := Nat × Nat

def Event.isMap : Event → Bool
  | .map _ _ _ _ => true
  | _ => false

/-- The mapping of a span of the window. -/
def spanEvent (hhdm flags : Nat) (s : Span) : Event := .map (hhdm + s.1) s.1 s.2 flags

theorem callsOf_append (l l' : List Event) : callsOf (l ++ l') = callsOf l ++ callsOf l' :=
  List.flatMap_append

/-- Only the mappings count. -/
theorem callsOf_filter (l : List Event) : callsOf (l.filter Event.isMap) = callsOf l := by
  induction l with
  | nil => rfl
  | cons e l ih =>
    cases e with
    | map v p n f =>
      have hc : ∀ l', callsOf (.map v p n f :: l') = vmmMapSpan v p n f ++ callsOf l' := fun _ => rfl
      rw [List.filter_cons_of_pos rfl, hc, hc, ih]
    | access | wrmsr => exact ih

/-- Started after `past`, the computation makes only allowed accesses, maps
exactly these spans and returns `a`. -/
structure Does (hhdm flags : Nat) (init : List Call) (past : List Event) {α : Type}
    (x : Traced Event α) (a : α) (spans : List Span) : Prop where
  events : Guarded (Allowed init) past x.events
  maps : x.events.filter Event.isMap = spans.map (spanEvent hhdm flags)
  returns : x.outcome = .returns a

section
variable {α β : Type} {u : Traced Event α} {f : α → Traced Event β} {r : α} {t : β} {v w : List Span}

theorem Does.pure (r : α) : Does hhdm flags init past (pure r : Traced Event α) r [] :=
  ⟨guarded_nil, rfl, rfl⟩

theorem Does.bind (hu : Does hhdm flags init past u r v)
    (hf : Does hhdm flags init (past ++ u.events) (f r) t w) :
    Does hhdm flags init past (u >>= f) t (v ++ w) := by
  refine ⟨?_, ?_, ?_⟩
  · rw [bind_events hu.returns]
    exact guarded_append.mpr ⟨hu.events, hf.events⟩
  · rw [bind_events hu.returns, List.filter_append, hu.maps, hf.maps, List.map_append]
  · rw [bind_outcome hu.returns, hf.returns]

/-- A computation that only loads, and the rest. -/
theorem Does.bind_left (hu : Does hhdm flags init past u r [])
    (hf : Does hhdm flags init (past ++ u.events) (f r) t w) :
    Does hhdm flags init past (u >>= f) t w := hu.bind hf

theorem Does.access {addr size : Nat} {store : Option Nat}
    (h : Covers (init ++ callsOf past) addr size) (r : α) :
    Does hhdm flags init past (emit (.access addr size store) r) r [] :=
  ⟨guarded_cons.mpr ⟨h, guarded_nil⟩, rfl, rfl⟩

theorem Does.map (s : Span) (r : α) :
    Does hhdm flags init past (emit (spanEvent hhdm flags s) r) r [s] :=
  ⟨guarded_cons.mpr ⟨trivial, guarded_nil⟩, rfl, rfl⟩

theorem Does.safe {post : α → List Event → Prop} (h : Does hhdm flags init past u r v)
    (hp : post r (past ++ u.events)) : Safe (Allowed init) past u post := by
  refine ⟨h.events, fun a ha => ?_⟩
  obtain rfl := Outcome.returns.inj (h.returns.symm.trans ha)
  exact hp

theorem Does.calls_eq (h : Does hhdm flags init past u r v) :
    callsOf u.events = v.flatMap fun s => vmmMapSpan (hhdm + s.1) s.1 s.2 flags := by
  rw [← callsOf_filter, h.maps, callsOf, List.flatMap_map]
  rfl

/-- Afterwards the mapped spans are covered. -/
theorem Does.covers (h : Does hhdm flags init past u r v) (hh : hhdm % 4096 = 0)
    (hf : flags &&& vmmPtePresent ≠ 0) (hs : (p, len) ∈ v) (hw : Window hhdm p len) :
    Covers (init ++ callsOf (past ++ u.events)) (hhdm + p) len := by
  refine (covers_vmmMapSpan hh hw hf).mono fun c hc => ?_
  rw [callsOf_append, h.calls_eq]
  refine List.mem_append_right _ (List.mem_append_right _ ?_)
  exact List.mem_flatMap.mpr ⟨_, hs, hc⟩

end

/-! ## Computations that may stop -/

/-- Started after `past`, the computation makes only allowed accesses; it
returns exactly if `c` holds, with a value as `q` says, and has then mapped
exactly these spans. -/
structure Tries (hhdm flags : Nat) (init : List Call) (past : List Event) {α : Type}
    (x : Traced Event α) (c : Prop) (q : α → Prop) (spans : List Span) : Prop where
  fails : ¬ c → Guarded (Allowed init) past x.events ∧ ∀ a, x.outcome ≠ .returns a
  does : c → ∃ a, q a ∧ Does hhdm flags init past x a spans

section
variable {α β : Type} {u : Traced Event α} {f : α → Traced Event β} {r : α} {v w : List Span}
  {c c' : Prop} {q : α → Prop} {q' : β → Prop}

theorem Does.tries (h : Does hhdm flags init past u r v) (hc : c) (hq : q r) :
    Tries hhdm flags init past u c q v :=
  ⟨fun hn => absurd hc hn, fun _ => ⟨r, hq, h⟩⟩

theorem Tries.stop {reason : String} (hc : ¬ c) :
    Tries hhdm flags init past (stop reason : Traced Event α) c q v :=
  ⟨fun _ => ⟨guarded_nil, nofun⟩, fun h => absurd h hc⟩

theorem Tries.bind (hu : Tries hhdm flags init past u c q v)
    (hf : ∀ a, q a → Does hhdm flags init past u a v →
      Tries hhdm flags init (past ++ u.events) (f a) c' q' w) :
    Tries hhdm flags init past (u >>= f) (c ∧ c') q' (v ++ w) := by
  by_cases hc : c
  · obtain ⟨a, hq, ha⟩ := hu.does hc
    have hfa := hf a hq ha
    refine ⟨fun hn => ?_, fun ⟨_, hc'⟩ => ?_⟩
    · obtain ⟨hg, hr⟩ := hfa.fails fun h => hn ⟨hc, h⟩
      refine ⟨?_, ?_⟩
      · rw [bind_events ha.returns]
        exact guarded_append.mpr ⟨ha.events, hg⟩
      · rw [bind_outcome ha.returns]
        exact hr
    · obtain ⟨b, hq', hb⟩ := hfa.does hc'
      exact ⟨b, hq', ha.bind hb⟩
  · obtain ⟨hg, hr⟩ := hu.fails hc
    refine ⟨fun _ => ?_, fun ⟨h, _⟩ => absurd h hc⟩
    obtain ⟨he, hr'⟩ := bind_stuck f hr
    rw [he]
    exact ⟨hg, hr'⟩

/-- A computation that returns in any case, and the rest. -/
theorem Does.tries_bind (hu : Does hhdm flags init past u r v)
    (hf : Tries hhdm flags init (past ++ u.events) (f r) c q' w) :
    Tries hhdm flags init past (u >>= f) c q' (v ++ w) := by
  refine ⟨fun hn => ?_, fun hc => ?_⟩
  · obtain ⟨hg, hr⟩ := hf.fails hn
    rw [bind_events hu.returns, bind_outcome hu.returns]
    exact ⟨guarded_append.mpr ⟨hu.events, hg⟩, hr⟩
  · obtain ⟨b, hq, hb⟩ := hf.does hc
    exact ⟨b, hq, hu.bind hb⟩

/-- The condition may be put in other words. -/
theorem Tries.congr (h : Tries hhdm flags init past u c q v) (hc : c ↔ c') :
    Tries hhdm flags init past u c' q v :=
  ⟨fun hn => h.fails fun h => hn (hc.mp h), fun h' => h.does (hc.mpr h')⟩

end

/-! ## The page tables -/

variable {σ : Type} {A : PageAllocator σ} {b : BootInfo} {physicalBase virtualBase top : Nat}
  {h h' h'' : Heap σ}

theorem initCalls_present {mem : Mem} {c : Call}
    (hc : c ∈ initCalls b mem physicalBase virtualBase) : c.flags &&& vmmPtePresent ≠ 0 := by
  rcases mem_initCalls.mp hc with ⟨p, hp, hc⟩ | ⟨e, he, hc⟩
  · obtain ⟨k, -, rfl⟩ := mem_spanCalls.mp hc
    exact (segmentFlags_bits p).1
  · unfold entryCalls at hc
    split at hc
    · obtain ⟨k, -, rfl⟩ := mem_spanCalls.mp hc
      exact (entryFlags_bits e.type).1
    · cases hc

/-- **Present in the log is present in the page tables**: after `vmm_init` and further calls, the
processor's walk finds an entry for a page exactly if a call has entered it. -/
theorem present_iff_walk (hA : A.Below (2 ^ 52)) (hb : BootOk A b h.mem physicalBase virtualBase)
    (hi : vmmInit A b h = some (top, h'))
    (hcs : ∀ c ∈ calls, c.Ok b.la57 ∧ c.flags &&& vmmPtePresent ≠ 0)
    (hm : mapPages A b.hhdm b.la57 top calls h' = some h'')
    (hx : Canonical b.la57 (x / 4096 * 4096)) :
    (walk b.hhdm b.la57 h''.mem top (x / 4096 * 4096)).isSome ↔
      Present (initCalls b h.mem physicalBase virtualBase ++ calls) x := by
  obtain ⟨⟨T, hT⟩, hw⟩ := walk_vmmInit hA hb hi
  have hw' := (mapPages_tables hA hT (fun c hc => (hcs c hc).1.entered) hm).2 _ hx (Nat.mul_mod_left _ _)
  have hfound : ∀ c : Call, c.flags &&& vmmPtePresent ≠ 0 → c.found.isSome := by
    intro c hc
    simp [Call.found, hc]
  rw [hw', hw _ hx (Nat.mul_mod_left _ _)]
  constructor
  · intro hs
    cases hl : lastCall calls (x / 4096 * 4096) with
    | some c =>
      obtain ⟨hc, hv⟩ := lastCall_some hl
      exact ⟨c, List.mem_append_right _ hc, hv, (hcs c hc).2⟩
    | none =>
      simp only [hl] at hs
      cases hl' : lastCall (initCalls b h.mem physicalBase virtualBase) (x / 4096 * 4096) with
      | some c =>
        obtain ⟨hc, hv⟩ := lastCall_some hl'
        exact ⟨c, List.mem_append_left _ hc, hv, initCalls_present hc⟩
      | none => simp [hl'] at hs
  · rintro ⟨c, hc, hv, -⟩
    cases hl : lastCall calls (x / 4096 * 4096) with
    | some d => exact hfound d (hcs d (lastCall_some hl).1).2
    | none =>
      rcases List.mem_append.mp hc with hc | hc
      · obtain ⟨d, hd⟩ := lastCall_exists hc
        rw [hv] at hd
        simpa [hd] using hfound d (initCalls_present (lastCall_some hd).1)
      · obtain ⟨d, hd⟩ := lastCall_exists hc
        rw [hv, hl] at hd
        cases hd

end Cynix.Mm.Access
