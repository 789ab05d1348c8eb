import ProofOfStorage.FoundationSlices
import Mathlib.LinearAlgebra.Pi

/-! # Inner products and row combinations of flat matrices

Missing entries count as zero, so a product only depends on the entries that both lists have.
-/
namespace FoundationInnerProducts

open FoundationSlices

variable {F : Type} [CommSemiring F]

def dot (a b : List F) : F := ((a.zip b).map fun p => p.1 * p.2).sum

theorem foldl_zip_eq_dot (a b : List F) (s : F) :
    (a.zip b).foldl (fun acc p => acc + p.1 * p.2) s = s + dot a b := by
  unfold dot
  induction a.zip b generalizing s with
  | nil => simp
  | cons p ps ih => rw [List.foldl_cons, ih, List.map_cons, List.sum_cons, add_assoc]

theorem dot_eq_sum {n : ℕ} {a : List F} (b : List F) (ha : a.length ≤ n) :
    dot a b = ∑ i ∈ Finset.range n, a.getD i 0 * b.getD i 0 := by
  induction n generalizing a b with
  | zero =>
    have h0 : a = [] := List.length_eq_zero_iff.mp (by omega)
    simp [h0, dot]
  | succ n ih =>
    rw [Finset.sum_range_succ']
    cases a with
    | nil => simp [dot]
    | cons x a =>
      cases b with
      | nil => simp [dot]
      | cons y b =>
        have hlen : a.length ≤ n := by simpa using ha
        have hdot : dot (x :: a) (y :: b) = x * y + dot a b := by simp [dot]
        rw [hdot, ih b hlen, add_comm]
        simp

theorem dot_comm (a b : List F) : dot a b = dot b a := by
  rw [dot_eq_sum b (Nat.le_max_left a.length b.length),
    dot_eq_sum a (Nat.le_max_right a.length b.length)]
  exact Finset.sum_congr rfl fun i _ => mul_comm _ _

theorem dot_congr {b c : List F} (a : List F) (h : ∀ i, b.getD i 0 = c.getD i 0) :
    dot a b = dot a c := by
  rw [dot_eq_sum b le_rfl, dot_eq_sum c le_rfl]
  exact Finset.sum_congr rfl fun i _ => by rw [h]

/-- The combination of the rows of a flat matrix with the weights `t`. -/
def combine (n R : ℕ) (l t : List F) : List F :=
  (List.range n).map fun c => dot t (column n R l c)

@[simp] theorem length_combine (n R : ℕ) (l t : List F) : (combine n R l t).length = n := by
  simp [combine]

theorem getD_combine {n R c : ℕ} (hc : c < n) (l t : List F) :
    (combine n R l t).getD c 0 = dot t (column n R l c) := by
  simp [combine, hc]

theorem combine_congr {l l' : List F} (n R : ℕ) (t : List F)
    (h : ∀ i, l.getD i 0 = l'.getD i 0) : combine n R l t = combine n R l' t := by
  simp only [combine, column, h]

theorem dot_column {n R : ℕ} {t : List F} (ht : t.length = R) (l : List F) (c : ℕ) :
    dot t (column n R l c) = ∑ r ∈ Finset.range R, t.getD r 0 * l.getD (r * n + c) 0 := by
  rw [dot_eq_sum _ ht.le]
  apply Finset.sum_congr rfl
  intro r hr
  rw [getD_column (Finset.mem_range.mp hr)]

def addMultiple (a : F) : List F → List F → List F
  | x :: v, y :: row => (x + y * a) :: addMultiple a v row
  | v, _ => v

@[simp] theorem addMultiple_nil (a : F) (row : List F) : addMultiple a [] row = [] := by
  cases row <;> rfl

@[simp] theorem length_addMultiple (a : F) (v row : List F) :
    (addMultiple a v row).length = v.length := by
  fun_induction addMultiple a v row with
  | case1 x v y row ih => rw [List.length_cons, List.length_cons, ih]
  | case2 v row h => rfl

theorem getD_addMultiple {v : List F} {j : ℕ} (a : F) (row : List F) (hj : j < v.length) :
    (addMultiple a v row).getD j 0 = v.getD j 0 + row.getD j 0 * a := by
  fun_induction addMultiple a v row generalizing j with
  | case1 x v y row ih =>
    cases j with
    | zero => rfl
    | succ j => exact ih (Nat.lt_of_succ_lt_succ hj)
  | case2 v row h =>
    -- a pair of nonempty lists is the first case
    cases v with
    | nil => cases hj
    | cons x v =>
      cases row with
      | nil => rw [List.getD_nil, zero_mul, add_zero]
      | cons y row => exact (h x v y row rfl rfl).elim

def rowVec (n : ℕ) (l : List F) (r : ℕ) : Fin n → F := fun j => l.getD (r * n + j) 0

theorem combine_eq_ofFn {n R : ℕ} {t : List F} (ht : t.length = R) (l : List F) :
    combine n R l t = List.ofFn (∑ r ∈ Finset.range R, t.getD r 0 • rowVec n l r) := by
  apply List.ext_getElem (by simp)
  intro c hc hc'
  simp only [combine, List.getElem_map, List.getElem_range, List.getElem_ofFn,
    dot_column ht, Finset.sum_apply, Pi.smul_apply, smul_eq_mul, rowVec]

theorem ofFn_map_combine {n m R : ℕ} (L : (Fin n → F) →ₗ[F] (Fin m → F)) {l l' t : List F}
    (ht : t.length = R) (hrows : ∀ r < R, L (rowVec n l r) = rowVec m l' r) :
    List.ofFn (L (∑ r ∈ Finset.range R, t.getD r 0 • rowVec n l r)) = combine m R l' t := by
  rw [combine_eq_ofFn ht, map_sum]
  congr 1
  apply Finset.sum_congr rfl
  intro r hr
  rw [map_smul, hrows r (Finset.mem_range.mp hr)]

theorem dot_combine {n R : ℕ} {s t : List F} (ht : t.length = R) (hs : s.length = n)
    (l : List F) : dot s (combine n R l t) = ∑ r ∈ Finset.range R, ∑ c ∈ Finset.range n,
      t.getD r 0 * l.getD (r * n + c) 0 * s.getD c 0 := by
  rw [dot_eq_sum _ hs.le, Finset.sum_comm]
  apply Finset.sum_congr rfl
  intro c hc
  rw [getD_combine (Finset.mem_range.mp hc), dot_column ht, Finset.mul_sum]
  apply Finset.sum_congr rfl
  intro r _
  ring

end FoundationInnerProducts
