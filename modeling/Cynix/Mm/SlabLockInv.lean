import Cynix.Base.Holdings
import Cynix.Mm.SlabLock

/-! # The invariant of the slab allocator on many CPUs

Three parts. `Locks`: who is inside a cache, and what its lock word says.
`Owners`: every slot is held by one party, and every byte the allocator
depends on belongs to one party. `Lists`: the free lists, and what each CPU
remembers between its steps. A step writes only to bytes of the party that
takes it, so what the others remember stays true (`Keeps`). -/
namespace Cynix.Mm.SlabLock
open Cynix.Base.Bytes Cynix.Base.Pages Cynix.Base.Linked Cynix.Base.Holdings Cynix.Lib.Misc
open Cynix.Mm.SlabLayout Cynix.Mm.Slab
open Cynix.Mm.SlabRep (PlatformOk)

variable {σ : Type} {P : Platform σ} {s s' : State σ} {fl fl' : Cache → List Nat}
  {i j : Nat} {pc pc' : Pc} {c d : Cache} {x : Nat}

@[simp] theorem State.goto_pc (s : State σ) (i : Nat) (pc : Pc) :
    (s.goto i pc).pc = Function.update s.pc i pc := rfl
@[simp] theorem State.goto_lock (s : State σ) (i : Nat) (pc : Pc) : (s.goto i pc).lock = s.lock := rfl
@[simp] theorem State.goto_firstFree (s : State σ) (i : Nat) (pc : Pc) :
    (s.goto i pc).firstFree = s.firstFree := rfl
@[simp] theorem State.goto_mem (s : State σ) (i : Nat) (pc : Pc) : (s.goto i pc).mem = s.mem := rfl
@[simp] theorem State.goto_pmm (s : State σ) (i : Nat) (pc : Pc) : (s.goto i pc).pmm = s.pmm := rfl
@[simp] theorem State.goto_regions (s : State σ) (i : Nat) (pc : Pc) :
    (s.goto i pc).regions = s.regions := rfl
@[simp] theorem State.goto_live (s : State σ) (i : Nat) (pc : Pc) : (s.goto i pc).live = s.live := rfl

/-! ## Locks -/

/-- From the assignment to `slab->lock` on, the CPU inside a cache has an open lock. -/
structure Locks (s : State σ) : Prop where
  exclusive : Exclusive s
  inside : ∀ i c, (s.pc i).inside = some c → s.lock c = !(s.pc i).refilling
  outside : ∀ c, (∀ i, (s.pc i).inside ≠ some c) → s.lock c = false

/-- The lock words and what `Pc.inside` and `Pc.refilling` say are all that `Locks` reads. -/
theorem Locks.of_eq (h : Locks s) (hin : ∀ i, (s'.pc i).inside = (s.pc i).inside)
    (hre : ∀ i, (s'.pc i).refilling = (s.pc i).refilling) (hl : s'.lock = s.lock) : Locks s' := by
  refine ⟨?_, ?_, ?_⟩
  · intro i j c hi hj
    rw [hin] at hi hj
    exact h.exclusive i j c hi hj
  · intro i c hi
    rw [hin] at hi
    rw [hl, hre]
    exact h.inside i c hi
  · intro c hc
    rw [hl]
    exact h.outside c fun i => hin i ▸ hc i

theorem Locks.stay (h : Locks s) (hpc : s'.pc = Function.update s.pc i pc')
    (hin : pc'.inside = (s.pc i).inside) (hre : pc'.refilling = (s.pc i).refilling)
    (hl : s'.lock = s.lock) : Locks s' := by
  refine h.of_eq (fun j => ?_) (fun j => ?_) hl <;> rw [hpc] <;> by_cases hj : j = i
  · subst hj; simpa using hin
  · rw [Function.update_of_ne hj]
  · subst hj; simpa using hre
  · rw [Function.update_of_ne hj]

/-- A free lock means that nobody is inside, but for a CPU that is refilling. -/
theorem Locks.nobody_inside (h : Locks s) (hl : s.lock c = false)
    (hc : ∀ j, (s.pc j).inside = some c → (s.pc j).refilling = false) :
    ∀ j, (s.pc j).inside ≠ some c := by
  intro j hj
  have hlock := h.inside j c hj
  rw [hl, hc j hj] at hlock
  cases hlock

theorem Locks.enter (h : Locks s) (hc : ∀ j, (s.pc j).inside ≠ some c)
    (hpc : s'.pc = Function.update s.pc i pc') (hout : (s.pc i).inside = none)
    (hin : pc'.inside = some c) (hre : pc'.refilling = false)
    (hl : s'.lock = Function.update s.lock c true) : Locks s' := by
  refine ⟨?_, ?_, ?_⟩
  · intro j k d hj hk
    rw [hpc] at hj hk
    by_cases hji : j = i <;> by_cases hki : k = i
    · rw [hji, hki]
    · subst hji
      rw [Function.update_self, hin] at hj
      rw [Function.update_of_ne hki, ← hj] at hk
      exact absurd hk (hc k)
    · subst hki
      rw [Function.update_self, hin] at hk
      rw [Function.update_of_ne hji, ← hk] at hj
      exact absurd hj (hc j)
    · rw [Function.update_of_ne hji] at hj
      rw [Function.update_of_ne hki] at hk
      exact h.exclusive j k d hj hk
  · intro j d hj
    rw [hpc] at hj ⊢
    rw [hl]
    by_cases hji : j = i
    · subst hji
      rw [Function.update_self, hin] at hj
      obtain rfl := Option.some.inj hj
      simp [hre]
    · rw [Function.update_of_ne hji] at hj ⊢
      rw [Function.update_of_ne fun he : d = c => hc j (he ▸ hj)]
      exact h.inside j d hj
  · intro d hd
    rw [hl]
    have hdc : d ≠ c := by
      rintro rfl
      exact hd i (by rw [hpc, Function.update_self, hin])
    rw [Function.update_of_ne hdc]
    refine h.outside d fun j => ?_
    by_cases hji : j = i
    · subst hji
      simp [hout]
    · have := hd j
      rwa [hpc, Function.update_of_ne hji] at this

/-- The one CPU inside a cache writes `false` to its lock: it leaves, or it is refilling from now on. -/
theorem Locks.open (h : Locks s) (hpc : s'.pc = Function.update s.pc i pc')
    (hin : (s.pc i).inside = some c)
    (hin' : pc'.inside = none ∨ pc'.inside = some c ∧ pc'.refilling = true)
    (hl : s'.lock = Function.update s.lock c false) : Locks s' := by
  have hle : ∀ j d, (s'.pc j).inside = some d → (s.pc j).inside = some d := by
    intro j d hj
    rw [hpc] at hj
    by_cases hji : j = i
    · subst hji
      rw [Function.update_self] at hj
      rcases hin' with he | ⟨he, -⟩
      · rw [he] at hj; cases hj
      · rw [he] at hj; rw [hin, hj]
    · rwa [Function.update_of_ne hji] at hj
  refine ⟨fun j k d hj hk => h.exclusive j k d (hle j d hj) (hle k d hk), ?_, ?_⟩
  · intro j d hj
    have hj' := hle j d hj
    rw [hl]
    by_cases hji : j = i
    · subst hji
      rw [hpc, Function.update_self] at hj ⊢
      rcases hin' with he | ⟨he, hre⟩
      · rw [he] at hj; cases hj
      · rw [he] at hj
        obtain rfl := Option.some.inj hj
        simp [hre]
    · have hdc : d ≠ c := fun he => hji (h.exclusive j i d hj' (he ▸ hin))
      rw [Function.update_of_ne hdc, hpc, Function.update_of_ne hji]
      exact h.inside j d hj'
  · intro d hd
    rw [hl]
    by_cases hdc : d = c
    · subst hdc; simp
    · rw [Function.update_of_ne hdc]
      refine h.outside d fun j hj => ?_
      by_cases hji : j = i
      · subst hji
        rw [hin] at hj
        exact hdc (Option.some.inj hj).symm
      · apply hd j
        rwa [hpc, Function.update_of_ne hji]

/-! ## Owners -/

inductive Who where
  | header
  | client
  | free (c : Cache)
  | cpu (i : Nat)

/-- The slots a party holds; `fl` are the free slots of each cache. -/
def held (s : State σ) (fl : Cache → List Nat) : Who → List Obj
  | .header => []
  | .client => s.live
  | .free c => (fl c).map fun p => ⟨p, c⟩
  | .cpu i => (s.pc i).hands

/-- The bytes of a party: its slots, the regions' headers, and the region a CPU is setting up. -/
inductive Owns (s : State σ) (fl : Cache → List Nat) : Who → Nat → Prop where
  | slot {w : Who} {o : Obj} {x : Nat} : o ∈ held s fl w → o.addr ≤ x →
      x < o.addr + entSize o.cache → Owns s fl w x
  | header {r : Region} {x : Nat} : r ∈ s.regions → r.1 ≤ x → x < r.1 + 8 → Owns s fl .header x
  | building {i r x : Nat} : (s.pc i).building = some r → r ≤ x → x < r + regionSize →
      Owns s fl (.cpu i) x

/-- The regions that are set up and those that are being set up. -/
structure Regions (P : Platform σ) (s : State σ) : Prop where
  ok : RegionsOk s.regions
  source : ∀ r, s.Uses r → ∃ block, (block, 64) ∈ P.pages.live s.pmm ∧ block < 2 ^ 64 ∧
    r = (block + P.hhdm) % 2 ^ 64
  fresh : ∀ i r, (s.pc i).building = some r →
    r % regionSize = 0 ∧ r + regionSize ≤ 2 ^ 64 ∧ r ∉ s.regions.map Prod.fst
  builder : ∀ i j r, (s.pc i).building = some r → (s.pc j).building = some r → i = j
  header : ∀ r ∈ s.regions, read64 s.mem r.1 = P.slabPtr r.2

structure Slots (s : State σ) (fl : Cache → List Nat) : Prop where
  sole : Sole (held s fl)
  slot : ∀ w, ∀ o ∈ held s fl w, Slot s.regions o.cache o.addr

variable {v w : Who} {o q : Obj} {m' : Mem}

/-- A slot's address tells the object. -/
theorem Slots.obj_eq (hr : Regions P s) (h : Slots s fl) (ho : o ∈ held s fl w)
    (hq : q ∈ held s fl v) (he : o.addr = q.addr) : o = q := by
  have hc : o.cache = q.cache :=
    SlabRep.slot_cache_unique hr.ok (h.slot w o ho) (he ▸ h.slot v q hq)
  cases o
  cases q
  simp_all

/-- A slot lies in a region that is set up, so outside every region that is being set up. -/
theorem Slots.apart_building (hr : Regions P s) (h : Slots s fl) (ho : o ∈ held s fl w) {r : Nat}
    (hb : (s.pc i).building = some r) :
    o.addr + entSize o.cache ≤ r ∨ r + regionSize ≤ o.addr := by
  have hs := h.slot w o ho
  obtain ⟨hal, -, hne⟩ := hr.fresh i r hb
  have hal' := hr.ok.aligned _ hs.region
  have hbase : o.addr - o.addr % regionSize ≠ r := fun he =>
    hne (List.mem_map.mpr ⟨_, hs.region, he⟩)
  have := hs.le
  have := hs.ge
  have := (entSize_facts o.cache).1
  simp only [regionSize] at *
  omega

/-- A region being set up is apart from every other region. -/
theorem Regions.apart_building (hr : Regions P s) {r r' : Nat} (hb : (s.pc i).building = some r)
    (hal' : r' % regionSize = 0) (hne : r ≠ r') : r + regionSize ≤ r' ∨ r' + regionSize ≤ r := by
  obtain ⟨hal, -, -⟩ := hr.fresh i r hb
  simp only [regionSize] at *
  omega

/-- Two regions being set up by two CPUs are apart. -/
theorem Regions.apart_builders (hr : Regions P s) {r r' : Nat} (hb : (s.pc i).building = some r)
    (hb' : (s.pc j).building = some r') (hij : i ≠ j) : r + regionSize ≤ r' ∨ r' + regionSize ≤ r := by
  refine hr.apart_building hb (hr.fresh j r' hb').1 ?_
  rintro rfl
  exact hij (hr.builder i j r hb hb')

theorem Regions.apart_header (hr : Regions P s) {r : Nat} (hb : (s.pc i).building = some r)
    {q : Region} (hq : q ∈ s.regions) : r + regionSize ≤ q.1 ∨ q.1 + regionSize ≤ r := by
  refine hr.apart_building hb (hr.ok.aligned q hq) ?_
  rintro rfl
  exact (hr.fresh i _ hb).2.2 (List.mem_map.mpr ⟨q, hq, rfl⟩)

/-- A byte has one owner. -/
theorem owns_unique (hr : Regions P s) (h : Slots s fl) (hv : Owns s fl v x) (hw : Owns s fl w x) :
    v = w := by
  have h8 := fun c => (entSize_facts c).1
  cases hv with
  | @slot _ o _ ho h1 h2 =>
    cases hw with
    | @slot _ q _ hq h3 h4 =>
      by_cases he : o.addr = q.addr
      · obtain rfl := h.obj_eq hr ho hq he
        exact h.sole.unique ho hq
      · have := (h.slot v o ho).apart hr.ok (h.slot w q hq) he
        omega
    | header hm h3 h4 =>
      have := (h.slot v o ho).apart_header hr.ok hm
      omega
    | building hb h3 h4 =>
      have := h.apart_building hr ho hb
      omega
  | header hm h1 h2 =>
    cases hw with
    | slot hq h3 h4 =>
      have := (h.slot w _ hq).apart_header hr.ok hm
      omega
    | header => rfl
    | building hb h3 h4 =>
      have := hr.apart_header hb hm
      simp only [regionSize] at *
      omega
  | @building i r _ hb h1 h2 =>
    cases hw with
    | slot hq h3 h4 =>
      have := h.apart_building hr hq hb
      omega
    | header hm h3 h4 =>
      have := hr.apart_header hb hm
      simp only [regionSize] at *
      omega
    | @building j r' _ hb' h3 h4 =>
      by_cases hij : i = j
      · rw [hij]
      · have := hr.apart_builders hb hb' hij
        omega

/-! ## Memory -/

/-- The new memory has changed no byte of any party but `w`. -/
def Keeps (s : State σ) (fl : Cache → List Nat) (w : Who) (m' : Mem) : Prop :=
  ∀ v, v ≠ w → ∀ x, Owns s fl v x → m' x = s.mem x

theorem Keeps.refl (s : State σ) (fl : Cache → List Nat) (w : Who) : Keeps s fl w s.mem :=
  fun _ _ _ _ => rfl

/-- A party that stores in its own bytes keeps those of the others. -/
theorem keeps_of_owns (hr : Regions P s) (h : Slots s fl)
    (hm : ∀ x, ¬ Owns s fl w x → m' x = s.mem x) : Keeps s fl w m' := by
  intro v hv x hx
  exact hm x fun hw => hv (owns_unique hr h hx hw)

/-- Stores inside one slot of the party. -/
theorem keeps_of_slot (hr : Regions P s) (h : Slots s fl) (ho : o ∈ held s fl w)
    (hm : ∀ x, x < o.addr ∨ o.addr + entSize o.cache ≤ x → m' x = s.mem x) : Keeps s fl w m' := by
  refine keeps_of_owns hr h fun x hx => hm x ?_
  by_contra hn
  exact hx (.slot ho (by omega) (by omega))

/-- A store in the region that the CPU is setting up. -/
theorem keeps_of_building (hr : Regions P s) (h : Slots s fl) {r a : Nat} (val : Nat)
    (hb : (s.pc i).building = some r) (h1 : r ≤ a) (h2 : a + 8 ≤ r + regionSize) :
    Keeps s fl (.cpu i) (write64 s.mem a val) := by
  refine keeps_of_owns hr h fun x hx => write64_out ?_
  by_contra hn
  exact hx (.building hb (by omega) (by omega))

/-- The first word of a slot of another party. -/
theorem Keeps.word (hk : Keeps s fl w m') (hv : v ≠ w) (ho : o ∈ held s fl v) :
    read64 m' o.addr = read64 s.mem o.addr := by
  have := (entSize_facts o.cache).1
  exact read64_congr fun x h1 h2 => hk v hv x (.slot ho h1 (by omega))

theorem mem_held_free {p : Nat} : (⟨p, d⟩ : Obj) ∈ held s fl (.free c) ↔ d = c ∧ p ∈ fl c := by
  simp only [held, List.mem_map, Obj.mk.injEq]
  constructor
  · rintro ⟨q, hq, rfl, rfl⟩
    exact ⟨rfl, hq⟩
  · rintro ⟨rfl, hp⟩
    exact ⟨p, hp, rfl, rfl⟩

/-- The link of a free slot. -/
theorem Keeps.link (hk : Keeps s fl w m') (hw : w ≠ .free c) {p : Nat} (hp : p ∈ fl c) :
    read64 m' p = read64 s.mem p :=
  hk.word (o := ⟨p, c⟩) hw.symm (mem_held_free.mpr ⟨rfl, hp⟩)

theorem Keeps.chain (hk : Keeps s fl w m') (hw : w ≠ .free c) {p : Nat}
    (h : Chain (read64 s.mem) p (fl c)) : Chain (read64 m') p (fl c) :=
  h.congr fun _ hq => hk.link hw hq

theorem Keeps.header (hk : Keeps s fl w m') (hw : w ≠ .header) {r : Region} (hr : r ∈ s.regions) :
    read64 m' r.1 = read64 s.mem r.1 :=
  read64_congr fun x h1 h2 => hk .header hw.symm x (.header hr h1 h2)

/-- A word of the region that another CPU is setting up. -/
theorem Keeps.building (hk : Keeps s fl w m') (hw : w ≠ .cpu i) {r a : Nat}
    (hb : (s.pc i).building = some r) (h1 : r ≤ a) (h2 : a + 8 ≤ r + regionSize) :
    read64 m' a = read64 s.mem a :=
  read64_congr fun x h3 h4 => hk (.cpu i) hw.symm x (.building hb (by omega) (by omega))

/-! ## What changes hands -/

theorem Regions.of_eq (h : Regions P s) (hb : ∀ i, (s'.pc i).building = (s.pc i).building)
    (hr : s'.regions = s.regions)
    (hp : ∀ block, s.Uses ((block + P.hhdm) % 2 ^ 64) → (block, 64) ∈ P.pages.live s.pmm →
      (block, 64) ∈ P.pages.live s'.pmm)
    (hm : ∀ r ∈ s.regions, read64 s'.mem r.1 = read64 s.mem r.1) : Regions P s' := by
  have hu : ∀ r, s'.Uses r ↔ s.Uses r := by
    intro r
    unfold State.Uses
    rw [hr]
    simp only [hb]
  refine ⟨hr ▸ h.ok, ?_, ?_, ?_, ?_⟩
  · intro r hur
    have hur := (hu r).mp hur
    obtain ⟨block, hlive, hlt, he⟩ := h.source r hur
    exact ⟨block, hp block (he ▸ hur) hlive, hlt, he⟩
  · intro i r hi
    rw [hb] at hi
    rw [hr]
    exact h.fresh i r hi
  · intro i j r hi hj
    rw [hb] at hi hj
    exact h.builder i j r hi hj
  · intro r hrm
    rw [hr] at hrm
    rw [hm r hrm, h.header r hrm]

theorem Regions.stay (h : Regions P s) (hpc : s'.pc = Function.update s.pc i pc')
    (hb : pc'.building = (s.pc i).building) (hr : s'.regions = s.regions) (hp : s'.pmm = s.pmm)
    (hk : Keeps s fl (.cpu i) s'.mem) : Regions P s' := by
  have hw : Who.cpu i ≠ .header := by simp
  refine h.of_eq (fun j => ?_) hr (fun block _ hl => hp ▸ hl) fun r hrm => hk.header hw hrm
  rw [hpc]
  by_cases hj : j = i
  · subst hj; simpa using hb
  · rw [Function.update_of_ne hj]

theorem held_cpu_ne (hpc : s'.pc = Function.update s.pc i pc') (hj : Who.cpu j ≠ .cpu i) :
    held s' fl' (.cpu j) = held s fl (.cpu j) := by
  have hji : j ≠ i := fun he => hj (congrArg Who.cpu he)
  simp only [held, hpc, Function.update_of_ne hji]

theorem held_free_ne {l : List Nat} (hd : Who.free d ≠ .free c) :
    held s' (Function.update fl c l) (.free d) = held s fl (.free d) := by
  have hdc : d ≠ c := fun he => hd (congrArg Who.free he)
  simp only [held, Function.update_of_ne hdc]

theorem Slots.perm (h : Slots s fl) (hp : ∀ w, (held s' fl' w).Perm (held s fl w))
    (hr : s'.regions = s.regions) : Slots s' fl' :=
  ⟨h.sole.perm hp, fun w o ho => hr ▸ h.slot w o ((hp w).mem_iff.mp ho)⟩

theorem Slots.stay (h : Slots s fl) (hpc : s'.pc = Function.update s.pc i pc')
    (hh : pc'.hands.Perm (s.pc i).hands) (hl : s'.live = s.live) (hr : s'.regions = s.regions) :
    Slots s' fl := by
  refine h.perm (fun w => ?_) hr
  cases w with
  | header => exact .refl _
  | client => simp only [held, hl, List.Perm.refl]
  | free c => exact .refl _
  | cpu j =>
    simp only [held, hpc]
    by_cases hj : j = i
    · subst hj; simpa using hh
    · rw [Function.update_of_ne hj]

theorem Slots.move (h : Slots s fl) (hm : Moves (held s fl) (held s' fl') o v w)
    (hr : s'.regions = s.regions) : Slots s' fl' := by
  refine ⟨h.sole.move hm, fun u q hq => ?_⟩
  rw [hr]
  rcases hm.held_before hq with hq | ⟨-, rfl⟩
  · exact h.slot u q hq
  · exact h.slot v q hm.mem_source

/-- A client gives an object to a CPU. -/
theorem Slots.give (h : Slots s fl) (hpc : s'.pc = Function.update s.pc i pc')
    (hh : pc'.hands = o :: (s.pc i).hands) {l₁ l₂ : List Obj} (hl : s.live = l₁ ++ o :: l₂)
    (hl' : s'.live = l₁ ++ l₂) (hr : s'.regions = s.regions) : Slots s' fl := by
  refine h.move (o := o) (v := .client) (w := .cpu i) ⟨nofun, ?_, ?_, ?_⟩ hr
  · simp only [held, hl, hl']
    exact List.perm_middle
  · simp [held, hpc, hh]
  · intro u hv hw
    cases u with
    | client => exact absurd rfl hv
    | header | free c => rfl
    | cpu j => exact held_cpu_ne hpc hw

/-- A CPU hands an object to a client. -/
theorem Slots.return (h : Slots s fl) (hpc : s'.pc = Function.update s.pc i pc')
    (hh : (s.pc i).hands = o :: pc'.hands) (hl : s'.live = o :: s.live)
    (hr : s'.regions = s.regions) : Slots s' fl := by
  refine h.move (o := o) (v := .cpu i) (w := .client) ⟨nofun, ?_, ?_, ?_⟩ hr
  · simp [held, hpc, hh]
  · simp [held, hl]
  · intro u hv hw
    cases u with
    | client => exact absurd rfl hw
    | header | free c => rfl
    | cpu j => exact held_cpu_ne hpc hv

/-- A CPU takes the first free slot of a cache. -/
theorem Slots.pop (h : Slots s fl) (hpc : s'.pc = Function.update s.pc i pc')
    (hh : pc'.hands = ⟨x, c⟩ :: (s.pc i).hands) {l : List Nat} (hl : fl c = x :: l)
    (hlive : s'.live = s.live) (hr : s'.regions = s.regions) :
    Slots s' (Function.update fl c l) := by
  refine h.move (o := ⟨x, c⟩) (v := .free c) (w := .cpu i) ⟨nofun, ?_, ?_, ?_⟩ hr
  · simp [held, hl]
  · simp [held, hpc, hh]
  · intro u hv hw
    cases u with
    | client => exact hlive
    | header => rfl
    | free d => exact held_free_ne hv
    | cpu j => exact held_cpu_ne hpc hw

/-- A CPU puts a slot in front of its cache's free list. -/
theorem Slots.push (h : Slots s fl) (hpc : s'.pc = Function.update s.pc i pc')
    (hh : (s.pc i).hands = o :: pc'.hands) (hlive : s'.live = s.live)
    (hr : s'.regions = s.regions) :
    Slots s' (Function.update fl o.cache (o.addr :: fl o.cache)) := by
  refine h.move (o := o) (v := .cpu i) (w := .free o.cache) ⟨nofun, ?_, ?_, ?_⟩ hr
  · simp [held, hpc, hh]
  · simp [held]
  · intro u hv hw
    cases u with
    | client => exact hlive
    | header => rfl
    | free d => exact held_free_ne hw
    | cpu j => exact held_cpu_ne hpc hv

end Cynix.Mm.SlabLock
