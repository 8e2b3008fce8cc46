import Cynix.Base.Bytes

/-! # Allocators of page ranges

What a client of a page allocator may rely on. A range is its first byte
address and its number of pages; `live` is the list of the ranges handed out
and not given back, which an implementation may keep only in its specification.
The three laws are all a client gets: a new range is apart from every live one,
it becomes live, and giving back a live range takes exactly that one off. -/
namespace Cynix.Base.Pages

abbrev Range := Nat × Nat

/-- The address lies in the range, seen at the offset `off`. -/
def OwnsAt (off : Nat) (r : Range) (a : Nat) : Prop := off + r.1 ≤ a ∧ a < off + r.1 + r.2 * 4096

/-- Two ranges share no byte. -/
def Apart (r q : Range) : Prop := r.1 + r.2 * 4096 ≤ q.1 ∨ q.1 + q.2 * 4096 ≤ r.1

instance (r q : Range) : Decidable (Apart r q) := inferInstanceAs (Decidable (_ ∨ _))

theorem Apart.symm {r q : Range} (h : Apart r q) : Apart q r := Or.symm h

theorem Apart.not_ownsAt {off : Nat} {r q : Range} (h : Apart r q) {a : Nat} (ha : OwnsAt off r a) :
    ¬ OwnsAt off q a := by
  unfold Apart OwnsAt at *
  omega

structure PageAllocator (σ : Type) where
  alloc : Nat → σ → Option (Nat × σ)
  free : Nat → Nat → σ → σ
  live : σ → List Range
  alloc_live : ∀ {n s a s'}, alloc n s = some (a, s') → live s' = (a, n) :: live s
  alloc_apart : ∀ {n s a s'}, 1 ≤ n → alloc n s = some (a, s') → ∀ r ∈ live s, Apart (a, n) r
  alloc_page : ∀ {n s a s'}, 1 ≤ n → alloc n s = some (a, s') → a % 4096 = 0
  alloc_fits : ∀ {n s a s'}, 1 ≤ n → alloc n s = some (a, s') → a + n * 4096 < 2 ^ 64
  free_live : ∀ {n s a}, (a, n) ∈ live s → live (free a n s) = (live s).erase (a, n)

variable {σ : Type}

/-- Blocks of `n` pages start on a multiple of their size. -/
def PageAllocator.Aligned (A : PageAllocator σ) (n : Nat) : Prop :=
  ∀ s a s', A.alloc n s = some (a, s') → n * 4096 ∣ a

/-- All pages lie below `bound`. -/
def PageAllocator.Below (A : PageAllocator σ) (bound : Nat) : Prop :=
  ∀ n s a s', 1 ≤ n → A.alloc n s = some (a, s') → a + n * 4096 ≤ bound

/-- `room k s`: the allocator can hand out `k` more single pages, and none of them is page 0. -/
structure Supply (A : PageAllocator σ) (room : Nat → σ → Prop) : Prop where
  take : ∀ k s, room (k + 1) s → ∃ a s', A.alloc 1 s = some (a, s') ∧ room k s'
  less : ∀ k s, room (k + 1) s → room k s
  nonnull : ∀ s a s', A.alloc 1 s = some (a, s') → a ≠ 0

/-! ## A simple allocator

It keeps the list of what it has handed out and takes the first aligned block
above all of them, so the laws can be met. -/

/-- The first address above every range. -/
def top : List Range → Nat
  | [] => 0
  | r :: rs => max (r.1 + r.2 * 4096) (top rs)

theorem le_top {r : Range} {rs : List Range} (h : r ∈ rs) : r.1 + r.2 * 4096 ≤ top rs := by
  induction rs with
  | nil => cases h
  | cons q rs ih =>
    rcases List.mem_cons.mp h with rfl | h
    · exact le_max_left _ _
    · exact (ih h).trans (le_max_right _ _)

/-- The first multiple of `n` pages past the page that `top` lies in. -/
def bumpAddr (n : Nat) (rs : List Range) : Nat := (top rs / (n * 4096) + 1) * (n * 4096)

theorem top_le_bumpAddr {n : Nat} (hn : 1 ≤ n) (rs : List Range) : top rs ≤ bumpAddr n rs := by
  have := Nat.lt_div_mul_add (a := top rs) (b := n * 4096) (by omega)
  unfold bumpAddr
  rw [Nat.succ_mul]
  exact this.le

def bumpAlloc (n : Nat) (rs : List Range) : Option (Nat × List Range) :=
  if bumpAddr n rs + n * 4096 < 2 ^ 52 then some (bumpAddr n rs, (bumpAddr n rs, n) :: rs) else none

theorem bumpAlloc_some {n a : Nat} {rs rs' : List Range} (h : bumpAlloc n rs = some (a, rs')) :
    a = bumpAddr n rs ∧ a + n * 4096 < 2 ^ 52 ∧ rs' = (a, n) :: rs := by
  unfold bumpAlloc at h
  split at h
  · simp only [Option.some.injEq, Prod.mk.injEq] at h
    obtain ⟨rfl, rfl⟩ := h
    exact ⟨rfl, ‹_›, rfl⟩
  · cases h

def bump : PageAllocator (List Range) where
  alloc := bumpAlloc
  free a n rs := rs.erase (a, n)
  live rs := rs
  alloc_live h := (bumpAlloc_some h).2.2
  alloc_apart hn h r hr := by
    obtain ⟨rfl, -, -⟩ := bumpAlloc_some h
    exact Or.inr ((le_top hr).trans (top_le_bumpAddr hn _))
  alloc_page hn h := by
    obtain ⟨rfl, -, -⟩ := bumpAlloc_some h
    unfold bumpAddr
    rw [← Nat.mul_assoc, Nat.mul_mod_left]
  alloc_fits hn h := (bumpAlloc_some h).2.1.trans (by decide)
  free_live _ := rfl

theorem bump_alloc (n : Nat) (rs : List Range) : bump.alloc n rs = bumpAlloc n rs := rfl

theorem bump_aligned (n : Nat) : bump.Aligned n := by
  intro rs a rs' h
  obtain ⟨rfl, -, -⟩ := bumpAlloc_some h
  exact Nat.dvd_mul_left _ _

theorem bump_below : bump.Below (2 ^ 52) :=
  fun _ _ _ _ _ h => (bumpAlloc_some h).2.1.le

def bumpRoom (k : Nat) (rs : List Range) : Prop := top rs + k * 8192 < 2 ^ 51

theorem bumpRoom_succ {k : Nat} {rs : List Range} (h : bumpRoom (k + 1) rs) :
    top rs + k * 8192 + 8192 < 2 ^ 51 := by
  rwa [bumpRoom, Nat.succ_mul, ← Nat.add_assoc] at h

theorem bumpAddr_one (rs : List Range) : ∃ a, bumpAddr 1 rs = a ∧ top rs < a ∧ a ≤ top rs + 4096 := by
  refine ⟨_, rfl, ?_⟩
  unfold bumpAddr
  omega

theorem bump_supply : Supply bump bumpRoom where
  take k rs hr := by
    obtain ⟨a, ha, h1, h2⟩ := bumpAddr_one rs
    have hroom := bumpRoom_succ hr
    have hlt : a + 1 * 4096 < 2 ^ 52 := by omega
    have hsome : bump.alloc 1 rs = some (a, (a, 1) :: rs) := by
      rw [bump_alloc, bumpAlloc, ha, if_pos hlt]
    refine ⟨a, (a, 1) :: rs, hsome, ?_⟩
    have htop : max (a + 1 * 4096) (top rs) ≤ top rs + 8192 := by omega
    unfold bumpRoom
    simp only [top]
    omega
  less k rs hr := by
    have hroom := bumpRoom_succ hr
    unfold bumpRoom
    omega
  nonnull rs a rs' h := by
    obtain ⟨a', ha, h1, -⟩ := bumpAddr_one rs
    rw [bump_alloc] at h
    rw [(bumpAlloc_some h).1, ha]
    omega

end Cynix.Base.Pages
