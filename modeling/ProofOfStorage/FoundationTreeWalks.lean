import ProofOfStorage.FoundationMerkleTrees

/-! # Walks of any length to the root of a tree

A walk that has fewer steps than the tree has levels starts at an inner node, and one that has more
passes through a leaf. Otherwise it combines some pair to the value of another pair of the tree.
-/
namespace FoundationTreeWalks

open FoundationMerkleTrees

variable {α : Type*} {node : α → α → α} {k : ℕ} {x : α} {i : ℕ} {path : List α}

theorem mod_two_pow_succ (i n : ℕ) : i % 2 ^ (n + 1) % 2 = i % 2 ∧
    i % 2 ^ (n + 1) / 2 = i / 2 % 2 ^ n := by
  constructor
  · exact Nat.mod_mod_of_dvd i (dvd_pow_self 2 n.succ_ne_zero)
  · rw [pow_succ', Nat.mod_mul_right_div_self]

theorem walk_mod (x : α) (i : ℕ) (path : List α) :
    climb node x (i % 2 ^ path.length) path = climb node x i path ∧
      combined node x (i % 2 ^ path.length) path = combined node x i path := by
  induction path generalizing x i with
  | nil => exact ⟨rfl, rfl⟩
  | cons p path ih =>
    obtain ⟨hbit, hrest⟩ := mod_two_pow_succ i path.length
    have hordered : ordered (i % 2 ^ (path.length + 1)) x p = ordered i x p := by
      unfold ordered
      rw [hbit]
    obtain ⟨hclimb, hcombined⟩ := ih (node (ordered i x p).1 (ordered i x p).2) (i / 2)
    constructor
    · rw [climb_cons, climb_cons, List.length_cons, hordered, hrest, hclimb]
    · rw [combined, combined, List.length_cons, hordered, hrest, hcombined]

theorem combined_append (x : α) (i : ℕ) (path path' : List α) :
    combined node x i (path ++ path') = combined node x i path ++
      combined node (climb node x i path) (i / 2 ^ path.length) path' := by
  induction path generalizing x i with
  | nil => simp [combined, climb]
  | cons p path ih =>
    rw [List.cons_append, combined, combined, ih, climb_cons, Nat.div_div_eq_div_mul,
      List.length_cons, pow_succ', List.cons_append]

theorem exists_last_pair (hne : path ≠ []) (x : α) (i : ℕ) :
    ∃ p ∈ combined node x i path, node p.1 p.2 = climb node x i path := by
  induction path generalizing x i with
  | nil => exact absurd rfl hne
  | cons p path ih =>
    rw [combined, climb_cons]
    by_cases hlast : path = []
    · subst hlast
      exact ⟨_, List.mem_cons_self, rfl⟩
    · obtain ⟨q, hq, hvalue⟩ := ih hlast (node (ordered i x p).1 (ordered i x p).2) (i / 2)
      exact ⟨q, List.mem_cons_of_mem _ hq, hvalue⟩

def children (t : LevelOrder node k) (j : ℕ) : α × α := (t.table (2 * j), t.table (2 * j + 1))

theorem node_children (t : LevelOrder node k) {j : ℕ} (hj : j + 1 < 2 ^ k) :
    node (children t j).1 (children t j).2 = t.table (2 ^ k + j) := (t.parent j hj).symm

theorem children_upper (t : LevelOrder node (k + 1)) (j : ℕ) :
    children t.upper j = children t (2 ^ k + j) := by
  have hk : 2 ^ (k + 1) = 2 * 2 ^ k := pow_succ' 2 k
  unfold children
  rw [LevelOrder.upper_table, LevelOrder.upper_table, hk, ← Nat.add_assoc, ← Nat.mul_add]

theorem combined_path (t : LevelOrder node k) (hi : i < 2 ^ k) {p : α × α}
    (hp : p ∈ combined node (t.table i) i (t.path i)) : ∃ j, j + 1 < 2 ^ k ∧ p = children t j := by
  induction k generalizing i with
  | zero => cases hp
  | succ k ih =>
    have hk : 2 ^ (k + 1) = 2 * 2 ^ k := pow_succ' 2 k
    have hpair : ordered i (t.table i) (t.table (sibling i)) = children t (i / 2) := by
      unfold ordered sibling children
      by_cases heven : i % 2 = 0
      · rw [if_pos heven, if_pos heven, show 2 * (i / 2) = i by omega]
      · rw [if_neg heven, if_neg heven, show 2 * (i / 2) = i - 1 by omega,
          show i - 1 + 1 = i by omega]
    rw [LevelOrder.path, combined, hpair, node_children t (by omega),
      ← LevelOrder.upper_table] at hp
    rcases List.mem_cons.mp hp with rfl | hp
    · exact ⟨i / 2, by omega, rfl⟩
    · obtain ⟨j, hj, rfl⟩ := ih t.upper (by omega) hp
      exact ⟨2 ^ k + j, by omega, children_upper t j⟩

section Raised

variable {l : ℕ}

/-- The tree above the level that is `j` levels above the leaves. -/
def raised : (j : ℕ) → LevelOrder node (l + j) → LevelOrder node l
  | 0, t => t
  | j + 1, t => raised j t.upper

theorem raised_root (j : ℕ) (t : LevelOrder node (l + j)) : (raised j t).root = t.root := by
  induction j with
  | zero => rfl
  | succ j ih => exact (ih t.upper).trans t.upper_root

theorem children_raised (j : ℕ) (t : LevelOrder node (l + j)) (hi : i + 1 < 2 ^ l) :
    ∃ i', i' + 1 < 2 ^ (l + j) ∧ children (raised j t) i = children t i' := by
  induction j with
  | zero => exact ⟨i, hi, rfl⟩
  | succ j ih =>
    obtain ⟨i', hi', heq⟩ := ih t.upper
    have hk : 2 ^ (l + (j + 1)) = 2 * 2 ^ (l + j) := pow_succ' 2 (l + j)
    exact ⟨2 ^ (l + j) + i', by omega, heq.trans (children_upper t i')⟩

theorem raised_leaf (j : ℕ) (t : LevelOrder node (l + (j + 1))) (hi : i < 2 ^ l) :
    ∃ i', i' + 1 < 2 ^ (l + (j + 1)) ∧
      (raised (j + 1) t).table i = node (children t i').1 (children t i').2 := by
  induction j with
  | zero =>
    have hk : 2 ^ (l + (0 + 1)) = 2 * 2 ^ l := pow_succ' 2 l
    exact ⟨i, by omega, (node_children t (by omega)).symm⟩
  | succ j ih =>
    obtain ⟨i', hi', heq⟩ := ih t.upper
    have hk : 2 ^ (l + (j + 1 + 1)) = 2 * 2 ^ (l + (j + 1)) := pow_succ' 2 (l + (j + 1))
    refine ⟨2 ^ (l + (j + 1)) + i', by omega, heq.trans ?_⟩
    rw [children_upper]

end Raised

/-- A pair of a walk has the value of another pair of the tree. -/
def Clashes (t : LevelOrder node k) (walk : List (α × α)) : Prop :=
  ∃ p ∈ walk, ∃ j, j + 1 < 2 ^ k ∧ p ≠ children t j ∧
    node p.1 p.2 = node (children t j).1 (children t j).2

theorem start_of_full_climb (t : LevelOrder node k) (hi : i < 2 ^ k) (hlen : path.length = k)
    (h : climb node x i path = t.root) :
    x = t.table i ∨ Clashes t (combined node x i path) := by
  have hlen' : path.length = (t.path i).length := hlen.trans (t.length_path i).symm
  rcases climb_binding hlen' (h.trans (t.climb_path hi).symm) with hsame | ⟨p, hp, q, hq, hne, heq⟩
  · exact .inl hsame.1
  · obtain ⟨j, hj, rfl⟩ := combined_path t hi hq
    exact .inr ⟨p, hp, j, hj, hne, heq⟩

/-- Where a walk to the root can start: at the leaf of its position, at an inner node, or below a
leaf. -/
theorem start_of_climb (t : LevelOrder node k) (hi : i < 2 ^ k) (h : climb node x i path = t.root) :
    x = t.table i ∨ (∃ j, j + 1 < 2 ^ k ∧ x = node (children t j).1 (children t j).2) ∨
      (∃ p ∈ combined node x i path, ∃ j < 2 ^ k, node p.1 p.2 = t.table j) ∨
      Clashes t (combined node x i path) := by
  rcases Nat.lt_trichotomy path.length k with hshort | hlen | hlong
  · obtain ⟨j, rfl⟩ := Nat.exists_eq_add_of_lt hshort
    have hpos : i % 2 ^ path.length < 2 ^ path.length := Nat.mod_lt _ (Nat.two_pow_pos _)
    obtain ⟨hclimb, hcombined⟩ : climb node x (i % 2 ^ path.length) path = climb node x i path ∧
        combined node x (i % 2 ^ path.length) path = combined node x i path := walk_mod x i path
    have hroot := (hclimb.trans h).trans (raised_root (j + 1) t).symm
    rcases start_of_full_climb (raised (j + 1) t) hpos rfl hroot with hleaf | ⟨p, hp, q, hq, hclash⟩
    · obtain ⟨i', hi', hinner⟩ := raised_leaf j t hpos
      exact .inr (.inl ⟨i', hi', hleaf.trans hinner⟩)
    · obtain ⟨q', hq', heq⟩ := children_raised (j + 1) t hq
      rw [hcombined] at hp
      rw [heq] at hclash
      exact .inr (.inr (.inr ⟨p, hp, q', hq', hclash⟩))
  · rcases start_of_full_climb t hi hlen h with hleaf | hclash
    · exact .inl hleaf
    · exact .inr (.inr (.inr hclash))
  · -- the last steps, as many as the tree has levels, start at what the first ones have reached
    obtain ⟨first, last, rfl, hlast⟩ : ∃ first last, path = first ++ last ∧ last.length = k := by
      refine ⟨path.take (path.length - k), path.drop (path.length - k), ?_, ?_⟩
      · exact (List.take_append_drop ..).symm
      · rw [List.length_drop]
        omega
    have hne : first ≠ [] := by
      rintro rfl
      rw [List.nil_append] at hlong
      omega
    have hpos : i / 2 ^ first.length < 2 ^ k := (Nat.div_le_self ..).trans_lt hi
    rw [climb_append] at h
    rw [combined_append]
    rcases start_of_full_climb t hpos hlast h with hleaf | ⟨p, hp, hclash⟩
    · obtain ⟨p, hp, hvalue⟩ : ∃ p ∈ combined node x i first,
          node p.1 p.2 = climb node x i first := exists_last_pair hne x i
      exact .inr (.inr (.inl ⟨p, List.mem_append_left _ hp, _, hpos, hvalue.trans hleaf⟩))
    · exact .inr (.inr (.inr ⟨p, List.mem_append_right _ hp, hclash⟩))

end FoundationTreeWalks
