import Cynix.Mm.SlabLockStep

/-! # Refilling a cache keeps the invariant

`create_slab` on one CPU among many: the region is fresh when the page
allocator returns it, only its CPU stores in it, and when the last link is
written its slots are the cache's free list. -/
namespace Cynix.Mm.SlabLock
open Cynix.Base.Bytes Cynix.Base.Pages Cynix.Base.Linked Cynix.Base.Holdings Cynix.Lib.Misc
open Cynix.Mm.SlabLayout Cynix.Mm.Slab
open Cynix.Mm.SlabRep (PlatformOk)

variable {σ : Type} {P : Platform σ} {s s' : State σ} {fl : Cache → List Nat}
  {i : Nat} {pc' : Pc} {c : Cache}

/-- The block that `pmm_alloc_nozero` returns makes a region that is in no use. -/
theorem Regions.fresh_block (hP : PlatformOk P) (h : Regions P s) {block : Nat} {pmm : σ}
    (hA : P.pages.alloc 64 s.pmm = some (block, pmm)) :
    ((block + P.hhdm) % 2 ^ 64) % regionSize = 0 ∧
      (block + P.hhdm) % 2 ^ 64 + regionSize ≤ 2 ^ 64 ∧ ¬ s.Uses ((block + P.hhdm) % 2 ^ 64) := by
  obtain ⟨hal, hfit, hnew⟩ := hP.new_region hA
  refine ⟨hal, hfit, ?_⟩
  intro hu
  obtain ⟨b, hb, hlt, he⟩ := h.source _ hu
  exact hnew b hb hlt he.symm

theorem Inv.refillPages (hP : PlatformOk P) (hi : Inv P s fl) {a : Req} {block : Nat} {pmm : σ}
    (hpc : s.pc i = .refillPages a) (hA : P.pages.alloc 64 s.pmm = some (block, pmm)) :
    Inv P { s.goto i (.refillFirst a ((block + P.hhdm) % 2 ^ 64)) with pmm := pmm } fl := by
  obtain ⟨hal, hfit, hnew⟩ := hi.regions.fresh_block hP hA
  have hlive := P.pages.alloc_live hA
  have hblock := P.pages.alloc_fits (by decide) hA
  generalize hr : (block + P.hhdm) % 2 ^ 64 = r at *
  have hin : (s.pc i).inside = some a.cache := by rw [hpc]; rfl
  refine ⟨hi.locks.stay (i := i) rfl (by rw [hpc]; rfl) (by rw [hpc]; rfl) rfl, ?_,
    hi.slots.stay (i := i) rfl (by rw [hpc]; exact .refl _) rfl rfl, ?_⟩
  · -- only CPU `i` builds the new region
    have hbuild : ∀ j q, (Function.update s.pc i (Pc.refillFirst a r) j).building = some q →
        j = i ∧ q = r ∨ j ≠ i ∧ (s.pc j).building = some q := by
      intro j q hj
      by_cases hji : j = i
      · subst hji
        rw [Function.update_self] at hj
        exact Or.inl ⟨rfl, (Option.some.inj hj).symm⟩
      · rw [Function.update_of_ne hji] at hj
        exact Or.inr ⟨hji, hj⟩
    refine ⟨hi.regions.ok, ?_, ?_, ?_, hi.regions.header⟩
    · intro q hq
      have hold : s.Uses q ∨ q = r := by
        rcases hq with hq | ⟨j, hj⟩
        · exact Or.inl (Or.inl hq)
        · rcases hbuild j q hj with ⟨-, he⟩ | ⟨-, hj⟩
          · exact Or.inr he
          · exact Or.inl (Or.inr ⟨j, hj⟩)
      simp only [hlive]
      rcases hold with hq | rfl
      · obtain ⟨b, hb, hlt, he⟩ := hi.regions.source q hq
        exact ⟨b, List.mem_cons_of_mem _ hb, hlt, he⟩
      · exact ⟨block, by simp, by omega, hr.symm⟩
    · intro j q hj
      rcases hbuild j q hj with ⟨-, rfl⟩ | ⟨-, hj⟩
      · exact ⟨hal, hfit, fun hm => hnew (Or.inl hm)⟩
      · exact hi.regions.fresh j q hj
    · intro j k q hj hk
      rcases hbuild j q hj with ⟨hji, hqr⟩ | ⟨-, hj'⟩
      · rcases hbuild k q hk with ⟨hki, -⟩ | ⟨-, hk'⟩
        · rw [hji, hki]
        · exact absurd (Or.inr ⟨k, hqr ▸ hk'⟩) hnew
      · rcases hbuild k q hk with ⟨-, hqr⟩ | ⟨-, hk'⟩
        · exact absurd (Or.inr ⟨j, hqr ▸ hj'⟩) hnew
        · exact hi.regions.builder j k q hj' hk'
  · refine Lists.step hi (i := i) rfl (Keeps.refl s fl _) (fun _ _ => ⟨rfl, rfl⟩) ?_ ?_ trivial
    · intro d hd hcr
      have hda : some a.cache = some d := hd.elim (fun h => hin.symm.trans h) id
      cases hcr hda
    · intro d hd _
      obtain rfl := Option.some.inj hd
      exact hi.lists.empty i _ hin (by rw [hpc]; rfl)

/-- The header: the list head is the region's first byte. -/
theorem Inv.refillHeader (hP : PlatformOk P) (hi : Inv P s fl) {a : Req} {r slabPtr : Nat}
    (hpc : s.pc i = .refillHeader a r slabPtr) :
    Inv P { s.goto i (.refillSkip a r) with mem := write64 s.mem slabPtr (P.slabPtr a.cache) } fl := by
  have hrec := hi.lists.recalls i
  rw [hpc] at hrec
  obtain ⟨hff, rfl⟩ := hrec
  have hk := keeps_of_building hi.regions hi.slots (i := i) (P.slabPtr a.cache) (a := slabPtr)
    (by rw [hpc]; rfl) le_rfl (by simp only [regionSize]; omega)
  refine Works.create ⟨hpc, rfl, rfl, rfl, rfl, .refl _, rfl⟩ hi rfl ⟨rfl, rfl, rfl⟩ ⟨rfl, rfl, rfl⟩
    (fun _ _ => rfl) hk ⟨hff, Nat.zero_le _, ?_, nofun⟩
  exact read64_write64_of_lt (SlabRep.Platform.slabPtr_lt hP a.cache)

theorem Inv.refillLink (hi : Inv P s fl) {a : Req} {r arr k : Nat}
    (hpc : s.pc i = .refillLink a r arr k) (hlt : k < slabMax a.cache) :
    Inv P { s.goto i (.refillLink a r arr (k + 1)) with
      mem := write64 s.mem (arr + 8 * (k * slabFact a.cache))
        (arr + 8 * ((k + 1) * slabFact a.cache)) } fl := by
  have hb : (s.pc i).building = some r := by rw [hpc]; rfl
  have hrec := hi.lists.recalls i
  rw [hpc] at hrec
  obtain ⟨hff, rfl, hlink⟩ := hrec
  have hin := cell_in_region (c := a.cache) hlt.le
  have hk := keeps_of_building hi.regions hi.slots
    (r + entSize a.cache + 8 * ((k + 1) * slabFact a.cache))
    (a := r + entSize a.cache + 8 * (k * slabFact a.cache)) hb (by omega) (by omega)
  exact Works.create ⟨hpc, rfl, rfl, rfl, rfl, .refl _, rfl⟩ hi rfl ⟨rfl, rfl, rfl⟩ ⟨rfl, rfl, rfl⟩
    (fun _ _ => rfl) hk ⟨hff, rfl, hlink.link hlt (hi.regions.fresh i r hb).2.1⟩

/-- The new region's slots are free. -/
theorem Slots.region (h : Slots s fl) {r : Nat} (hal : r % regionSize = 0)
    (hnew : r ∉ s.regions.map Prod.fst) (hc : fl c = [])
    (hpc : s'.pc = Function.update s.pc i pc') (hh : pc'.hands = (s.pc i).hands)
    (hl : s'.live = s.live) (hr : s'.regions = (r, c) :: s.regions) :
    Slots s' (Function.update fl c (regionSlots r c)) := by
  have h8 := (entSize_facts c).1
  have hrest : ∀ u, u ≠ Who.free c →
      held s' (Function.update fl c (regionSlots r c)) u = held s fl u := by
    intro u hu
    cases u with
    | header => rfl
    | client => exact hl
    | free d => exact held_free_ne hu
    | cpu j =>
      by_cases hji : j = i
      · subst hji
        simp only [held, hpc, Function.update_self, hh]
      · exact held_cpu_ne hpc fun he => hji (Who.cpu.inj he)
  have hfree : held s' (Function.update fl c (regionSlots r c)) (.free c) =
      (regionSlots r c).map fun p => ⟨p, c⟩ := by
    simp only [held, Function.update_self]
  have hnodup : ((regionSlots r c).map fun p => (⟨p, c⟩ : Obj)).Nodup := by
    refine (nodup_strided (by omega) _).map fun p q he => ?_
    exact congrArg Obj.addr he
  refine ⟨h.sole.add (w := .free c) hnodup ?_ ?_ hrest, ?_⟩
  · -- a slot held so far lies in an older region
    intro o ho u hu
    obtain ⟨p, hp, rfl⟩ := List.mem_map.mp ho
    have hs := h.slot u _ hu
    exact hnew (List.mem_map.mpr ⟨_, hs.region, ((mem_regionSlots hal).mp hp).1⟩)
  · rw [hfree]
    simp only [held, hc, List.map_nil, List.append_nil]
  · intro u o ho
    rw [hr]
    by_cases hu : u = .free c
    · subst hu
      rw [hfree] at ho
      obtain ⟨p, hp, rfl⟩ := List.mem_map.mp ho
      obtain ⟨he, ha, h0⟩ := (mem_regionSlots hal).mp hp
      exact ⟨by simp [he], ha, h0⟩
    · rw [hrest u hu] at ho
      have hs := h.slot u o ho
      exact ⟨List.mem_cons_of_mem _ hs.region, hs.aligned, hs.offset⟩

/-- A region that has been set up joins the others. -/
theorem Regions.finish (hr : Regions P s) {r : Nat} (hb : (s.pc i).building = some r)
    (hpc : s'.pc = Function.update s.pc i pc') (hpc' : pc'.building = none) (hpmm : s'.pmm = s.pmm)
    (hregions : s'.regions = (r, c) :: s.regions)
    (hheader : ∀ q ∈ (r, c) :: s.regions, read64 s'.mem q.1 = P.slabPtr q.2) : Regions P s' := by
  obtain ⟨hal, hfit, hnew⟩ := hr.fresh i r hb
  have hbuild : ∀ j q, (s'.pc j).building = some q → j ≠ i ∧ (s.pc j).building = some q := by
    intro j q hj
    rw [hpc] at hj
    by_cases hji : j = i
    · subst hji
      rw [Function.update_self, hpc'] at hj
      cases hj
    · rw [Function.update_of_ne hji] at hj
      exact ⟨hji, hj⟩
  refine ⟨hregions ▸ hr.ok.cons hal hfit hnew, ?_, ?_, ?_, hregions ▸ hheader⟩
  · intro q hq
    rw [hpmm]
    refine hr.source q ?_
    rcases hq with hq | ⟨j, hj⟩
    · rw [hregions] at hq
      rcases List.mem_cons.mp hq with rfl | hq
      · exact Or.inr ⟨i, hb⟩
      · exact Or.inl hq
    · exact Or.inr ⟨j, (hbuild j q hj).2⟩
  · intro j q hj
    obtain ⟨hji, hj'⟩ := hbuild j q hj
    obtain ⟨h1, h2, h3⟩ := hr.fresh j q hj'
    refine ⟨h1, h2, fun hm => ?_⟩
    rw [hregions] at hm
    rcases List.mem_cons.mp hm with hqr | hm
    · have hqr : q = r := hqr
      exact hji (hr.builder j i r (hqr ▸ hj') hb)
    · exact h3 hm
  · intro j n q hj hn
    exact hr.builder j n q (hbuild j q hj).2 (hbuild n q hn).2

/-- The end of `create_slab`. -/
theorem Inv.refillLast (hi : Inv P s fl) {a : Req} {r arr k : Nat}
    (hpc : s.pc i = .refillLink a r arr k) (hk : ¬ k < slabMax a.cache) :
    ∃ fl', Inv P { s.goto i (.allocRead a true) with
      mem := write64 s.mem (arr + 8 * (slabMax a.cache * slabFact a.cache)) 0
      regions := (r, a.cache) :: s.regions } fl' := by
  have hin : (s.pc i).inside = some a.cache := by rw [hpc]; rfl
  have hb : (s.pc i).building = some r := by rw [hpc]; rfl
  have hrec := hi.lists.recalls i
  rw [hpc] at hrec
  obtain ⟨hff, rfl, hlink⟩ := hrec
  obtain rfl : k = slabMax a.cache := by have := hlink.bound; omega
  obtain ⟨hhead, hchain⟩ := hlink.finish
  obtain ⟨hal, hfit, hnew⟩ := hi.regions.fresh i r hb
  have hnil := hi.lists.empty i _ hin (by rw [hpc]; rfl)
  have hkeep : Keeps s fl (.cpu i)
      (write64 s.mem (r + entSize a.cache + 8 * (slabMax a.cache * slabFact a.cache)) 0) := by
    have := cell_in_region (c := a.cache) le_rfl
    exact keeps_of_building hi.regions hi.slots 0 hb (by omega) (by omega)
  generalize write64 s.mem (r + entSize a.cache + 8 * (slabMax a.cache * slabFact a.cache)) 0 = m at *
  refine ⟨Function.update fl a.cache (regionSlots r a.cache),
    hi.locks.stay (i := i) rfl (by rw [hpc]; rfl) (by rw [hpc]; rfl) rfl, ?_,
    hi.slots.region (i := i) hal hnew hnil rfl (by rw [hpc]; rfl) rfl rfl, ?_⟩
  · refine hi.regions.finish hb rfl rfl rfl rfl ?_
    refine List.forall_mem_cons.mpr ⟨hhead, fun q hq => ?_⟩
    rw [← hi.regions.header q hq]
    exact hkeep.header nofun hq
  · rw [← hff] at hchain
    refine Lists.step hi (i := i) rfl hkeep ?_ ?_ nofun ?_
    · intro d hd
      have hda : d ≠ a.cache := by
        rintro rfl
        exact hd hin
      exact ⟨rfl, Function.update_of_ne hda ..⟩
    · intro d hd _
      obtain rfl : a.cache = d := Option.some.inj (hd.elim (fun h => hin.symm.trans h) id)
      simpa using hchain
    · obtain ⟨l, hl, -⟩ := hchain.pop (by have := (entSize_facts a.cache).1; omega)
      simp [Recalls, hl]

end Cynix.Mm.SlabLock
