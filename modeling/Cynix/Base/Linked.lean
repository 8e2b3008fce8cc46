import Mathlib

/-! # Lists threaded through cells

A list of cells in which each cell holds the address of the next and the last
holds the null address. The store is any function from cells to the addresses
they hold, so the same lemmas serve a byte memory and a memory of words. -/
namespace Cynix.Base.Linked

/-- The cells met from `p` on, in order, up to the null address. -/
def Chain (link : Nat → Nat) : Nat → List Nat → Prop
  | p, [] => p = 0
  | p, q :: l => p = q ∧ q ≠ 0 ∧ Chain link (link q) l

variable {link link' : Nat → Nat} {p q : Nat} {l : List Nat}

theorem Chain.congr (h : Chain link p l) (hl : ∀ x ∈ l, link' x = link x) : Chain link' p l := by
  induction l generalizing p with
  | nil => exact h
  | cons x l ih =>
    obtain ⟨he, h0, hc⟩ := h
    refine ⟨he, h0, ?_⟩
    rw [hl x (by simp)]
    exact ih hc fun y hy => hl y (by simp [hy])

theorem Chain.null (h : Chain link 0 l) : l = [] := by
  cases l with
  | nil => rfl
  | cons x l => exact absurd h.1.symm h.2.1

/-- A chain that does not start at the null address starts with its first cell. -/
theorem Chain.pop (h : Chain link p l) (hp : p ≠ 0) : ∃ l', l = p :: l' ∧ Chain link (link p) l' := by
  cases l with
  | nil => exact absurd h hp
  | cons x l =>
    obtain ⟨rfl, -, hc⟩ := h
    exact ⟨l, rfl, hc⟩

/-- A cell that takes the old head becomes the new head. -/
theorem Chain.push (h : Chain link p l) (hq : q ≠ 0) (hn : link' q = p)
    (hl : ∀ x ∈ l, link' x = link x) : Chain link' q (q :: l) :=
  ⟨rfl, hq, hn ▸ h.congr hl⟩

/-- Cells `first`, `first + stride`, ..., each linked to the next. -/
def strided (first stride : Nat) : Nat → List Nat
  | 0 => []
  | n + 1 => first :: strided (first + stride) stride n

theorem strided_eq_map (first stride : Nat) :
    ∀ n, strided first stride n = (List.range n).map fun k => first + stride * k
  | 0 => rfl
  | n + 1 => by
    rw [strided, strided_eq_map (first + stride) stride n, List.range_succ_eq_map]
    simp [Function.comp_def, Nat.mul_add, Nat.add_assoc, Nat.add_comm]

theorem mem_strided {first stride n x : Nat} :
    x ∈ strided first stride n ↔ ∃ k, k < n ∧ x = first + stride * k := by
  rw [strided_eq_map]
  simp [eq_comm]

@[simp] theorem length_strided (first stride n : Nat) : (strided first stride n).length = n := by
  simp [strided_eq_map]

theorem nodup_strided {first stride : Nat} (hs : 0 < stride) (n : Nat) :
    (strided first stride n).Nodup := by
  rw [strided_eq_map]
  refine List.nodup_range.map fun i j h => ?_
  exact Nat.eq_of_mul_eq_mul_left hs (Nat.add_left_cancel h)

theorem Chain.strided {stride : Nat} : ∀ {n first : Nat}, first ≠ 0 →
    (∀ k, k < n → link (first + stride * k) = first + stride * (k + 1)) →
    link (first + stride * n) = 0 → Chain link first (strided first stride (n + 1))
  | 0, first, h0, _, hl => ⟨rfl, h0, by simpa [Linked.strided, Chain] using hl⟩
  | n + 1, first, h0, hn, hl => by
    refine ⟨rfl, h0, ?_⟩
    have hfirst : link first = first + stride := by simpa using hn 0 (by omega)
    rw [hfirst]
    refine Chain.strided (by omega) ?_ ?_
    · intro k hk
      have := hn (k + 1) (by omega)
      rw [show first + stride + stride * k = first + stride * (k + 1) by ring,
        show first + stride + stride * (k + 1) = first + stride * (k + 1 + 1) by ring]
      exact this
    · rw [show first + stride + stride * n = first + stride * (n + 1) by ring]
      exact hl

end Cynix.Base.Linked
