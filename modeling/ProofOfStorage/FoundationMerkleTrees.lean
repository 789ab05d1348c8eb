import Mathlib.Data.Nat.Log
import Mathlib.Tactic.Ring
import Mathlib.Tactic.Common

/-! # Perfect binary hash trees in level order

The leaves come first, every level follows the one below it and the root is last. The
combining function is arbitrary; nothing is assumed of it for completeness.
-/
namespace FoundationMerkleTrees

variable {α : Type*} (node : α → α → α)

/-- The walk from a leaf to the root. The bits of the position choose the side. -/
def climb : α → ℕ → List α → α
  | x, _, [] => x
  | x, i, p :: path => climb (if i % 2 = 0 then node x p else node p x) (i / 2) path

def ordered (i : ℕ) (x p : α) : α × α := if i % 2 = 0 then (x, p) else (p, x)

def combined : α → ℕ → List α → List (α × α)
  | _, _, [] => []
  | x, i, p :: path => ordered i x p ::
      combined (node (ordered i x p).1 (ordered i x p).2) (i / 2) path

/-- The level-order table of a perfect tree with `2 ^ k` leaves. -/
structure LevelOrder (k : ℕ) where
  table : ℕ → α
  parent : ∀ i, i + 1 < 2 ^ k → table (2 ^ k + i) = node (table (2 * i)) (table (2 * i + 1))

variable {node} {k : ℕ}

theorem climb_cons (x p : α) (i : ℕ) (path : List α) : climb node x i (p :: path) =
    climb node (node (ordered i x p).1 (ordered i x p).2) (i / 2) path := by
  rw [climb, ordered]
  split <;> rfl

theorem ordered_inj {i : ℕ} {x y p q : α} (h : ordered i x p = ordered i y q) :
    x = y ∧ p = q := by
  unfold ordered at h
  split at h
  · exact Prod.mk.inj h
  · exact (Prod.mk.inj h).symm

/-- Two walks of equal length from one position that meet at the root were the same walk, or
they combined two different pairs to one value. -/
theorem climb_binding {x y : α} {i : ℕ} {path path' : List α} (hlen : path.length = path'.length)
    (h : climb node x i path = climb node y i path') :
    (x = y ∧ path = path') ∨ ∃ a ∈ combined node x i path, ∃ b ∈ combined node y i path',
      a ≠ b ∧ node a.1 a.2 = node b.1 b.2 := by
  induction path generalizing x y i path' with
  | nil =>
    obtain rfl := List.length_eq_zero_iff.mp hlen.symm
    exact .inl ⟨h, rfl⟩
  | cons p path ih =>
    cases path' with
    | nil => cases hlen
    | cons q path' =>
      rw [climb_cons, climb_cons] at h
      simp only [combined, List.mem_cons]
      rcases ih (Nat.succ.inj hlen) h with ⟨hnode, rfl⟩ | ⟨a, ha, b, hb, hclash⟩
      · -- The walks agree above this level, so this level decides.
        by_cases hpair : ordered i x p = ordered i y q
        · obtain ⟨hx, hp⟩ := ordered_inj hpair
          exact .inl ⟨hx, by rw [hp]⟩
        · exact .inr ⟨_, .inl rfl, _, .inl rfl, hpair, hnode⟩
      · exact .inr ⟨a, .inr ha, b, .inr hb, hclash⟩

theorem climb_append (x : α) (i : ℕ) (path path' : List α) :
    climb node x i (path ++ path') =
      climb node (climb node x i path) (i / 2 ^ path.length) path' := by
  induction path generalizing x i with
  | nil => simp [climb]
  | cons p path ih =>
    rw [List.cons_append, climb_cons, climb_cons, ih, Nat.div_div_eq_div_mul, List.length_cons,
      pow_succ']

def sibling (i : ℕ) : ℕ := if i % 2 = 0 then i + 1 else i - 1

namespace LevelOrder

def root (t : LevelOrder node k) : α := t.table (2 ^ (k + 1) - 2)

/-- Dropping the leaves leaves the level-order table of the tree above them. -/
def upper (t : LevelOrder node (k + 1)) : LevelOrder node k where
  table i := t.table (2 ^ (k + 1) + i)
  parent i hi := by
    have hk : 2 ^ (k + 1) = 2 * 2 ^ k := by ring
    have h := t.parent (2 ^ k + i) (by omega)
    rw [show 2 * (2 ^ k + i) = 2 ^ (k + 1) + 2 * i by omega] at h
    exact h

def path : {k : ℕ} → LevelOrder node k → ℕ → List α
  | 0, _, _ => []
  | _ + 1, t, i => t.table (sibling i) :: t.upper.path (i / 2)

@[simp] theorem upper_table (t : LevelOrder node (k + 1)) (i : ℕ) :
    t.upper.table i = t.table (2 ^ (k + 1) + i) := rfl

theorem upper_root (t : LevelOrder node (k + 1)) : t.upper.root = t.root := by
  have hk : 2 ^ (k + 2) = 2 ^ (k + 1) + 2 ^ (k + 1) := by ring
  have hp : 2 ≤ 2 ^ (k + 1) := Nat.le_self_pow (by omega) 2
  unfold root
  rw [upper_table]
  congr 1
  omega

@[simp] theorem length_path (t : LevelOrder node k) (i : ℕ) : (t.path i).length = k := by
  induction k generalizing i with
  | zero => rfl
  | succ k ih => simp [path, ih]

theorem combine_sibling (t : LevelOrder node (k + 1)) {i : ℕ} (hi : i < 2 ^ (k + 1)) :
    (if i % 2 = 0 then node (t.table i) (t.table (sibling i))
      else node (t.table (sibling i)) (t.table i)) = t.upper.table (i / 2) := by
  have hk : 2 ^ (k + 1) = 2 * 2 ^ k := by ring
  have h := t.parent (i / 2) (by omega)
  rw [upper_table, h]
  by_cases he : i % 2 = 0
  · rw [if_pos he, sibling, if_pos he, show 2 * (i / 2) = i by omega]
  · rw [if_neg he, sibling, if_neg he, show 2 * (i / 2) = i - 1 by omega,
      show i - 1 + 1 = i by omega]

theorem climb_path (t : LevelOrder node k) {i : ℕ} (hi : i < 2 ^ k) :
    climb node (t.table i) i (t.path i) = t.root := by
  induction k generalizing i with
  | zero =>
    have h0 : i = 0 := by simpa using hi
    subst h0
    rfl
  | succ k ih =>
    have hk : 2 ^ (k + 1) = 2 * 2 ^ k := by ring
    rw [path, climb, t.combine_sibling hi, ih t.upper (by omega), t.upper_root]

end LevelOrder

end FoundationMerkleTrees
