import Cynix.Lib.Spinlock
import Cynix.Base.Finishing

/-! # The kernel's calls return

The entry points of `Cynix.Lib.Spinlock` on finitely many CPUs, each with a list
of calls to make. -/
namespace Cynix.Lib.SpinlockRuns
open Cynix.Base.Locking Cynix.Base.Progress Cynix.Base.Finishing Cynix.Lib.Spinlock

/-- The CPUs with their calls, each with the interrupt flag it is made with. -/
def startCalls (flag : Nat → Bool) (calls : Nat → List (Bool × Call)) : Crew Lock :=
  .start flag fun c => (calls c).map fun x => (x.1, x.2.prog)

/-- **The kernel's calls return.** CPUs make any calls in any interleaving, those that take a slab or the IDT lock
with interrupts off, and interrupts may stop a CPU wherever its flag is set. As long as some CPU
moves while one can, there comes a point after which every CPU has made its calls, was stopped, has halted
in a panic, or waits for a lock in a chain of CPUs that ends at one that has halted. If nobody panicked, every call
of every CPU that was not stopped has returned, and no lock is taken. -/
theorem calls_return (n : Nat) (flag : Nat → Bool) (calls : Nat → List (Bool × Call))
    (hcalls : ∀ c, ∀ x ∈ calls c, x.2.bare = true → x.1 = false) (r : Nat → Crew Lock)
    (h : Fair (Move n) Eq (startCalls flag calls) r) :
    ∃ N, ∀ m, N ≤ m → (∀ c, c < n → (r m).sys.parked c = true ∨ Finished (r m) c ∨ Halted (r m).sys c ∨
        ∃ d, d < n ∧ Halted (r m).sys d ∧ Relation.TransGen (WaitsFor (r m).sys) c d) ∧
      ((∀ c, c < n → ¬ Halted (r m).sys c) →
        (∀ c, c < n → (r m).sys.parked c = true ∨ Finished (r m) c) ∧ ∀ l, (r m).sys.word l = false) := by
  have hneutral : ∀ c, ∀ x ∈ (calls c).map (fun x => (x.1, x.2.prog)), Neutral rank x.2 x.1 [] := by
    intro c x hx
    obtain ⟨y, hy, rfl⟩ := List.mem_map.mp hx
    exact Allowed.neutral ⟨y.2, rfl, hcalls c y hy⟩
  obtain ⟨N, hN⟩ := settles hneutral h
  refine ⟨N, ?_⟩
  intro m hm
  obtain ⟨hall, hfree⟩ := hN m hm
  refine ⟨hall, ?_⟩
  intro hnone
  refine ⟨?_, hfree hnone⟩
  intro c hc
  rcases hall c hc with hp | hf | hh | ⟨d, hd, hh, -⟩
  · exact .inl hp
  · exact .inr hf
  · exact absurd hh (hnone c hc)
  · exact absurd hh (hnone d hd)

/-- One CPU prints with interrupts on, another one allocates with interrupts off. -/
def twoCalls (c : Nat) : List (Bool × Call) :=
  match c with
  | 0 => [(true, .printf), (true, .vmmMapPage 0)]
  | 1 => [(false, .slabAlloc 24)]
  | _ => []

theorem calls_return_two : ∃ r, Fair (Move 2) Eq (startCalls (fun _ => true) twoCalls) r ∧
    ∃ N, ∀ m, N ≤ m → (∀ c, c < 2 → ¬ Halted (r m).sys c) → ∀ l, (r m).sys.word l = false := by
  have hcalls : ∀ c, ∀ x ∈ twoCalls c, x.2.bare = true → x.1 = false := by
    intro c x hx
    match c with
    | 0 =>
      simp only [twoCalls, List.mem_cons, List.not_mem_nil, or_false] at hx
      rcases hx with rfl | rfl <;> intro hb <;> cases hb
    | 1 =>
      simp only [twoCalls, List.mem_cons, List.not_mem_nil, or_false] at hx
      subst hx
      intro _
      rfl
    | c + 2 => cases hx
  have hr : Fair (Move 2) Eq (startCalls (fun _ => true) twoCalls) _ := eager_fair (Move 2) _ id (fun _ => rfl)
  obtain ⟨N, hN⟩ := calls_return 2 _ twoCalls hcalls _ hr
  exact ⟨_, hr, N, fun m hm hnone => ((hN m hm).2 hnone).2⟩

end Cynix.Lib.SpinlockRuns
