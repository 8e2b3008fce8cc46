import Cynix.Mm.SlabRep

/-! # Runs of the slab allocator

One call at a time, on any platform whose page allocator hands out aligned
blocks. The owners of live objects store inside the size they asked for; the
rest of the kernel uses other pages. -/
namespace Cynix.Mm.SlabRuns
open Cynix.Base.Bytes Cynix.Base.Pages Cynix.Base.Linked Cynix.Lib.Misc
open Cynix.Mm.SlabLayout Cynix.Mm.Slab Cynix.Mm.SlabRep

variable {σ : Type} {P : Platform σ} {s s' : SlabState σ} {fl : Cache → List Nat}
  {live l₁ l₂ : List Obj} {o : Obj} {c : Cache} {size newSize addr : Nat}

/-! ## The entry points keep the invariant -/

/-- An object of the chosen cache holds the size asked for. -/
theorem slabFor_le (h : slabFor size = some c) : size ≤ entSize c := by
  have hlt : size < 2 ^ (bsr size + 1) := Nat.lt_log2_self
  unfold slabFor at h
  generalize bsr size = k at *
  split at h <;> simp only [Option.some.injEq, reduceCtorEq] at h <;> subst h <;>
    exact hlt.le.trans (by decide)

/-- The object a successful request hands out, in front of the others. -/
def handed (size addr : Nat) (live : List Obj) : List Obj :=
  match slabFor size with
  | some c => ⟨addr, size, c⟩ :: live
  | none => live

theorem slabAlloc_inv (hP : PlatformOk P) (hi : Inv P s live fl)
    (h : slabAlloc P size s = some (addr, s')) :
    (addr = 0 ↔ slabFor size = none) ∧ ∃ fl', Inv P s' (handed size addr live) fl' := by
  unfold Slab.slabAlloc at h
  unfold handed
  cases hf : slabFor size with
  | none =>
    simp only [hf, Option.some.injEq, Prod.mk.injEq] at h
    obtain ⟨rfl, rfl⟩ := h
    exact ⟨by simp, fl, hi⟩
  | some c =>
    simp only [hf] at h
    obtain ⟨h0, hinv⟩ := hi.allocFrom hP (slabFor_le hf) h
    exact ⟨by simp [h0], hinv⟩

/-- The objects after `slab_realloc` of `o` among the others. -/
def reallocated (l₁ l₂ : List Obj) (o : Obj) (newSize addr : Nat) : List Obj :=
  if addr = 0 then l₁ ++ o :: l₂
  else if addr = o.addr then l₁ ++ { o with size := newSize } :: l₂
  else handed newSize addr (l₁ ++ l₂)

/-- Stores inside a live object keep the invariant. -/
theorem store_inv (hi : Inv P s live fl) (ho : o ∈ live) {m' : Mem}
    (hm : ∀ x, x < o.addr ∨ o.addr + entSize o.cache ≤ x → m' x = s.mem x) :
    Inv P { s with mem := m' } live fl :=
  ⟨hi.core.store ho hm, hi.sized⟩

/-- A live object may be given a smaller or larger size of its own entry. -/
theorem core_resize (hi : SlabCore P s fl (l₁ ++ o :: l₂)) (hn : newSize ≤ entSize o.cache) :
    SlabCore P s fl (l₁ ++ { o with size := newSize } :: l₂) := by
  refine ⟨hi.regions, hi.source, hi.header, hi.unlocked, hi.chain, ?_, ?_⟩
  · intro d
    have hsame : liveOf (l₁ ++ { o with size := newSize } :: l₂) d = liveOf (l₁ ++ o :: l₂) d := by
      unfold liveOf
      rw [List.filter_append, List.filter_append, List.filter_cons, List.filter_cons]
      by_cases hd : o.cache = d <;> simp [hd]
    rw [hsame]
    exact hi.slots d
  · intro q hq
    rcases List.mem_append.mp hq with hq | hq
    · exact hi.fits q (by simp [hq])
    · rcases List.mem_cons.mp hq with rfl | hq
      · exact hn
      · exact hi.fits q (by simp [hq])

/-- Two live objects have two addresses. -/
theorem addr_ne_of_core (hi : SlabCore P s fl live) :
    live.Pairwise fun o q => o.addr ≠ q.addr := by
  rw [List.pairwise_iff_forall_sublist]
  intro o q hsub he
  have ho : o ∈ live := hsub.subset (by simp)
  have hq : q ∈ live := hsub.subset (by simp)
  have hc : q.cache = o.cache :=
    slot_cache_unique hi.regions (hi.live_slot hq) (he ▸ hi.live_slot ho)
  have hsub' : [o.addr, q.addr].Sublist (liveOf live o.cache) := by
    have := (hsub.filter (·.cache = o.cache)).map Obj.addr
    simpa [liveOf, hc] using this
  have hnd := (hi.nodup o.cache).of_append_right.sublist hsub'
  simp [he] at hnd

theorem slabRealloc_inv (hP : PlatformOk P) (hi : Inv P s (l₁ ++ o :: l₂) fl)
    (h : slabRealloc P o.addr newSize s = some (addr, s')) :
    ∃ fl', Inv P s' (reallocated l₁ l₂ o newSize addr) fl' := by
  have h0 := (hi.core.live_slot (o := o) (by simp)).ne_zero
  have hfind := hi.core.lookup (o := o) (by simp)
  simp only [Slab.slabRealloc, h0, if_false, hfind, Option.bind_eq_bind, Option.bind_some,
    hi.sized o.cache] at h
  by_cases hgrow : entSize o.cache < newSize
  · simp only [hgrow, if_true] at h
    cases ha : Slab.slabAlloc P newSize s with
    | none => simp [ha] at h
    | some r =>
      obtain ⟨newAddr, t⟩ := r
      simp only [ha, Option.bind_some] at h
      obtain ⟨hz, fl₁, hi₁⟩ := slabAlloc_inv hP hi ha
      by_cases hn : newAddr = 0
      · simp only [hn, if_true, Option.some.injEq, Prod.mk.injEq] at h
        obtain ⟨rfl, rfl⟩ := h
        refine ⟨fl₁, ?_⟩
        simpa [reallocated, handed, hz.mp hn] using hi₁
      · simp only [hn, if_false, hi₁.sized o.cache] at h
        cases hfree : freeInSlab o.cache o.addr
            { t with mem := copyUp t.mem newAddr o.addr (entSize o.cache) } with
        | none => simp [hfree] at h
        | some u =>
          simp only [hfree, Option.bind_some, Option.some.injEq, Prod.mk.injEq] at h
          obtain ⟨rfl, rfl⟩ := h
          obtain ⟨j, hj⟩ := Option.ne_none_iff_exists'.mp fun he => hn (hz.mpr he)
          have hlist : handed newSize newAddr (l₁ ++ o :: l₂) =
              (⟨newAddr, newSize, j⟩ :: l₁) ++ o :: l₂ := by simp [handed, hj]
          rw [hlist] at hi₁
          -- the copy stays inside the new object, which is larger than the old entry
          have hsz := slabFor_le hj
          have hi₂ : Inv P { t with mem := copyUp t.mem newAddr o.addr (entSize o.cache) } _ _ :=
            store_inv hi₁ (o := ⟨newAddr, newSize, j⟩) (by simp)
              fun x hx => copyUp_out (by simp only at hx; omega)
          have hne : newAddr ≠ o.addr :=
            (List.pairwise_cons.mp (addr_ne_of_core hi₁.core)).1 o (by simp)
          obtain ⟨fl₂, hi₃⟩ := hi₂.freeObj hfree
          refine ⟨fl₂, ?_⟩
          simpa [reallocated, hn, hne, handed, hj] using hi₃
  · simp only [hgrow, if_false, Option.some.injEq, Prod.mk.injEq] at h
    obtain ⟨rfl, rfl⟩ := h
    refine ⟨fl, ?_⟩
    simp only [reallocated, h0, if_false, if_true]
    exact ⟨core_resize hi.core (by omega), hi.sized⟩

theorem slabFree_inv (hi : Inv P s (l₁ ++ o :: l₂) fl) (h : slabFree P o.addr s = some s') :
    ∃ fl', Inv P s' (l₁ ++ l₂) fl' := by
  have h0 := (hi.core.live_slot (o := o) (by simp)).ne_zero
  have hfind := hi.core.lookup (o := o) (by simp)
  simp only [Slab.slabFree, h0, if_false, hfind, Option.bind_eq_bind, Option.bind_some] at h
  exact hi.freeObj h

/-! ## Setting up -/

/-- The state before `slab_init`: the array `slabs` is zeroed. -/
def SlabState.boot (pmm : σ) (mem : Mem) : SlabState σ :=
  ⟨fun _ => ⟨false, 0, 0⟩, pmm, mem, []⟩

theorem boot_core (pmm : σ) (mem : Mem) : SlabCore P (SlabState.boot pmm mem) (fun _ => []) [] := by
  refine ⟨⟨?_, ?_, ?_⟩, ?_, ?_, fun _ => rfl, fun _ => rfl, ?_, ?_⟩ <;>
    simp [SlabState.boot, liveOf, slots]

/-- The caches still to be set up have no region; the others have their entry size. -/
theorem foldlM_createSlab (hP : PlatformOk P) {cs : List Cache} (hcs : cs.Nodup)
    (hi : SlabCore P s fl []) (hnil : ∀ c ∈ cs, fl c = [])
    (hsized : ∀ c, c ∉ cs → (s.slabs c).entSize = entSize c)
    (h : cs.foldlM (fun s c => createSlab P c (entSize c) s) s = some s') :
    ∃ fl', Inv P s' [] fl' := by
  induction cs generalizing s fl with
  | nil =>
    simp only [List.foldlM_nil, Option.pure_def, Option.some.injEq] at h
    subst h
    exact ⟨fl, hi, fun c => hsized c (by simp)⟩
  | cons c cs ih =>
    obtain ⟨hc, hcs⟩ := List.nodup_cons.mp hcs
    rw [List.foldlM_cons, Option.bind_eq_bind, Option.bind_eq_some_iff] at h
    obtain ⟨t, ht, h⟩ := h
    obtain ⟨region, -, hcore, -⟩ := hi.create hP (hnil c (by simp)) ht
    obtain ⟨block, pmm, -, -, -, hslabs, -⟩ := createSlab_some ht
    refine ih hcs hcore ?_ ?_ h
    · intro d hd
      rw [Function.update_of_ne fun he : d = c => hc (he ▸ hd)]
      exact hnil d (by simp [hd])
    · intro d hd
      rw [hslabs]
      by_cases hdc : d = c
      · subst hdc
        simp
      · rw [Function.update_of_ne hdc]
        exact hsized d (by simp [hdc, hd])

theorem slabInit_inv (hP : PlatformOk P) {pmm : σ} {mem : Mem}
    (h : slabInit P (SlabState.boot pmm mem) = some s) : ∃ fl, Inv P s [] fl :=
  foldlM_createSlab hP (List.nodup_finRange 12) (boot_core pmm mem) (fun _ _ => rfl)
    (fun c hc => absurd (List.mem_finRange c) hc) h

/-! ## Runs -/

structure Sys (σ : Type) where
  st : SlabState σ
  live : List Obj

inductive Step (P : Platform σ) : Sys σ → Sys σ → Prop where
  | alloc {s s' : SlabState σ} {live : List Obj} {size addr : Nat} : 1 ≤ size →
      slabAlloc P size s = some (addr, s') → Step P ⟨s, live⟩ ⟨s', handed size addr live⟩
  | reallocNull {s s' : SlabState σ} {live : List Obj} {size addr : Nat} : 1 ≤ size →
      slabRealloc P 0 size s = some (addr, s') → Step P ⟨s, live⟩ ⟨s', handed size addr live⟩
  | realloc {s s' : SlabState σ} {l₁ l₂ : List Obj} {o : Obj} {newSize addr : Nat} :
      slabRealloc P o.addr newSize s = some (addr, s') →
      Step P ⟨s, l₁ ++ o :: l₂⟩ ⟨s', reallocated l₁ l₂ o newSize addr⟩
  | free {s s' : SlabState σ} {l₁ l₂ : List Obj} {o : Obj} : slabFree P o.addr s = some s' →
      Step P ⟨s, l₁ ++ o :: l₂⟩ ⟨s', l₁ ++ l₂⟩
  | freeNull {s s' : SlabState σ} {live : List Obj} : slabFree P 0 s = some s' →
      Step P ⟨s, live⟩ ⟨s', live⟩
  /-- The owner of a live object stores a byte inside the size it asked for. -/
  | write {s : SlabState σ} {live : List Obj} {o : Obj} {i : Nat} {v : UInt8} : o ∈ live →
      i < o.size → Step P ⟨s, live⟩ ⟨{ s with mem := writeByte s.mem (o.addr + i) v }, live⟩
  /-- The rest of the kernel takes and gives back pages of its own and stores outside the regions. -/
  | other {s : SlabState σ} {live : List Obj} {pmm' : σ} {m' : Mem} :
      (∀ block, ((block + P.hhdm) % 2 ^ 64) ∈ s.regions.map Prod.fst →
        (block, 64) ∈ P.pages.live s.pmm → (block, 64) ∈ P.pages.live pmm') →
      (∀ r ∈ s.regions, ∀ x, r.1 ≤ x → x < r.1 + regionSize → m' x = s.mem x) →
      Step P ⟨s, live⟩ ⟨{ s with pmm := pmm', mem := m' }, live⟩

/-- Pages and memory of others do not matter. -/
theorem other_inv (hi : Inv P s live fl) {pmm' : σ} {m' : Mem}
    (hp : ∀ block, ((block + P.hhdm) % 2 ^ 64) ∈ s.regions.map Prod.fst →
      (block, 64) ∈ P.pages.live s.pmm → (block, 64) ∈ P.pages.live pmm')
    (hm : ∀ r ∈ s.regions, ∀ x, r.1 ≤ x → x < r.1 + regionSize → m' x = s.mem x) :
    Inv P { s with pmm := pmm', mem := m' } live fl := by
  have hcore : SlabCore P { s with mem := m' } fl live := hi.core.congr_mem ?_ ?_
  · refine ⟨⟨hcore.regions, ?_, hcore.header, hcore.unlocked, hcore.chain, hcore.slots,
      hcore.fits⟩, hi.sized⟩
    intro r hr
    obtain ⟨block, hb, hlt, he⟩ := hi.core.source r hr
    exact ⟨block, hp block (List.mem_map.mpr ⟨r, hr, he⟩) hb, hlt, he⟩
  · intro r hr
    refine read64_congr fun x h1 h2 => hm r hr x h1 ?_
    simp only [regionSize]
    omega
  · intro c q hq
    have hs := hi.core.free_slot hq
    have hge := hs.ge
    have hle := hs.le
    have := (entSize_facts c).1
    exact read64_congr fun x h1 h2 => hm _ hs.region x (by simp only; omega) (by simp only; omega)

theorem step_inv (hP : PlatformOk P) {t t' : Sys σ} (hi : Inv P t.st t.live fl)
    (hst : Step P t t') : ∃ fl', Inv P t'.st t'.live fl' := by
  cases hst with
  | alloc _ h => exact (slabAlloc_inv hP hi h).2
  | reallocNull _ h => exact (slabAlloc_inv hP hi (by simpa [slabRealloc] using h)).2
  | realloc h => exact slabRealloc_inv hP hi h
  | free h => exact slabFree_inv hi h
  | freeNull h =>
    simp only [slabFree, if_true, Option.some.injEq] at h
    subst h
    exact ⟨fl, hi⟩
  | @write s live o i v ho hlt =>
    have hfit := hi.core.fits o ho
    refine ⟨fl, store_inv hi ho fun x hx => ?_⟩
    unfold writeByte
    rw [if_neg (by omega)]
  | other hp hm => exact ⟨fl, other_inv hi hp hm⟩

theorem run_inv (hP : PlatformOk P) {t t' : Sys σ} (hi : Inv P t.st t.live fl)
    (hr : Relation.ReflTransGen (Step P) t t') : ∃ fl', Inv P t'.st t'.live fl' := by
  induction hr with
  | refl => exact ⟨fl, hi⟩
  | tail _ hst ih =>
    obtain ⟨fl', hi'⟩ := ih
    exact step_inv hP hi' hst

/-- The allocator's state as a client and a maintainer see it; `fl` are the free slots. -/
structure Represents (P : Platform σ) (t : Sys σ) (fl : Cache → List Nat) : Prop where
  sized : ∀ c, (t.st.slabs c).entSize = entSize c
  /-- The chain from `first_free` is finite and ends in `NULL` ... -/
  chain : ∀ c, Chain (read64 t.st.mem) (t.st.slabs c).firstFree (fl c)
  /-- ... and comes to no slot twice. -/
  distinct : ∀ c, (fl c).Nodup
  /-- A slot is an aligned entry of one region of its cache ... -/
  placed : ∀ c p, p ∈ fl c ++ liveOf t.live c → entSize c ∣ p ∧
    ∃ region, (region, c) ∈ t.st.regions ∧ region % regionSize = 0 ∧
      region + 8 ≤ p ∧ p + entSize c ≤ region + regionSize
  /-- ... and overlaps no region's header. -/
  clear : ∀ c p, p ∈ fl c ++ liveOf t.live c → ∀ r ∈ t.st.regions,
    r.1 + 8 ≤ p ∨ p + entSize c ≤ r.1
  freeOrLive : ∀ o ∈ t.live, ∀ c, o.addr ∉ fl c
  disjoint : t.live.Pairwise fun o q =>
    o.addr + entSize o.cache ≤ q.addr ∨ q.addr + entSize q.cache ≤ o.addr
  fits : ∀ o ∈ t.live, o.size ≤ entSize o.cache
  header : ∀ o ∈ t.live, P.slabAt (read64 t.st.mem (regionOf o.addr)) = some o.cache
  count : ∀ c, (fl c).length + (liveOf t.live c).length =
    (262144 / entSize c - 1) * (t.st.regions.filter (·.2 = c)).length

theorem represents_of_inv {t : Sys σ} (hi : Inv P t.st t.live fl) : Represents P t fl := by
  have hslot : ∀ c p, p ∈ fl c ++ liveOf t.live c → Slot t.st.regions c p := fun c p hp =>
    (mem_slots hi.core.regions).mp ((hi.core.slots c).mem_iff.mp hp)
  refine ⟨hi.sized, hi.core.chain, fun c => (hi.core.nodup c).of_append_left, ?_, ?_,
    fun o ho c => hi.core.live_not_free ho c, ?_, hi.core.fits, fun o ho => hi.core.lookup ho, ?_⟩
  · intro c p hp
    have hs := hslot c p hp
    have hge := hs.ge
    have := (entSize_facts c).1
    exact ⟨hs.aligned, _, hs.region, hi.core.regions.aligned _ hs.region, by omega, hs.le⟩
  · intro c p hp r hr
    exact (hslot c p hp).apart_header hi.core.regions hr
  · refine (addr_ne_of_core hi.core).imp_of_mem fun {o q} ho hq hne => ?_
    exact (hi.core.live_slot ho).apart hi.core.regions (hi.core.live_slot hq) hne
  · intro c
    rw [← List.length_append, (hi.core.slots c).length_eq, length_slots]

/-- **The slab allocator keeps its representation invariant in every run** that
starts with `slab_init`. -/
theorem slab_run_represents (P : Platform σ) (hP : PlatformOk P) (pmm : σ) (mem : Mem)
    (s : SlabState σ) (h : slabInit P (SlabState.boot pmm mem) = some s) (t : Sys σ)
    (hr : Relation.ReflTransGen (Step P) ⟨s, []⟩ t) : ∃ fl, Represents P t fl := by
  obtain ⟨fl, hi⟩ := slabInit_inv hP h
  obtain ⟨fl', hi'⟩ := run_inv hP hi hr
  exact ⟨fl', represents_of_inv hi'⟩

def smallPlatform : Platform (List Range) := ⟨bump, 0, 0xffffffff80000000⟩

theorem smallPlatform_ok : PlatformOk smallPlatform :=
  ⟨bump_aligned 64, by decide, by decide⟩

theorem slab_run_represents_one_object :
    ∃ (s : SlabState (List Range)) (t : Sys (List Range)),
      slabInit smallPlatform (SlabState.boot [] fun _ => 0) = some s ∧
      Relation.ReflTransGen (Step smallPlatform) ⟨s, []⟩ t ∧ t.live.length = 1 ∧
      ∃ fl, Represents smallPlatform t fl := by
  have hinit : (slabInit smallPlatform (SlabState.boot [] fun _ => 0)).isSome = true := by
    decide +kernel
  have hcall : ((slabInit smallPlatform (SlabState.boot [] fun _ => 0)).bind
      (slabAlloc smallPlatform 24)).isSome = true := by
    decide +kernel
  obtain ⟨s, hs⟩ := Option.isSome_iff_exists.mp hinit
  rw [hs, Option.bind_some] at hcall
  obtain ⟨⟨addr, s'⟩, ha⟩ := Option.isSome_iff_exists.mp hcall
  have hrun : Relation.ReflTransGen (Step smallPlatform) ⟨s, []⟩ ⟨s', handed 24 addr []⟩ :=
    .single (.alloc (by decide) ha)
  exact ⟨s, _, hs, hrun, rfl, slab_run_represents _ smallPlatform_ok _ _ s hs _ hrun⟩

end Cynix.Mm.SlabRuns
