import Mathlib.Algebra.BigOperators.Intervals
import Mathlib.Algebra.BigOperators.Ring.Finset
import Mathlib.Data.List.GetD
import Mathlib.Tactic.Ring

/-! # Coefficient lists as polynomials

The lowest degree comes first. Coefficients past the end of a list are zero, so padding with
zeros does not change a value.
-/
namespace FoundationPolynomials

variable {F : Type*} [CommSemiring F]

def value (l : List F) (x : F) : F := ∑ i ∈ Finset.range l.length, l.getD i 0 * x ^ i

@[simp] theorem value_nil (x : F) : value [] x = 0 := rfl

theorem value_cons (a : F) (l : List F) (x : F) : value (a :: l) x = a + x * value l x := by
  rw [value, List.length_cons, Finset.sum_range_succ', value, Finset.mul_sum, add_comm]
  simp only [List.getD_cons_zero, pow_zero, mul_one, List.getD_cons_succ]
  congr 1
  apply Finset.sum_congr rfl
  intro i _
  ring

theorem foldl_running_power (l : List F) (x s p : F) :
    l.foldl (fun acc a => (acc.1 + a * acc.2, acc.2 * x)) (s, p) =
      (s + p * value l x, p * x ^ l.length) := by
  induction l generalizing s p with
  | nil => simp
  | cons a l ih =>
    rw [List.foldl_cons, ih, value_cons, List.length_cons, pow_succ]
    refine Prod.ext ?_ ?_ <;> ring

theorem value_append (l m : List F) (x : F) :
    value (l ++ m) x = value l x + x ^ l.length * value m x := by
  induction l with
  | nil => simp
  | cons a l ih =>
    rw [List.cons_append, value_cons, value_cons, ih, List.length_cons, pow_succ]
    ring

theorem value_eq_sum {n : ℕ} {l : List F} (h : l.length ≤ n) (x : F) :
    value l x = ∑ i ∈ Finset.range n, l.getD i 0 * x ^ i := by
  apply Finset.sum_subset (Finset.range_mono h)
  intro i _ hi
  rw [Finset.mem_range, not_lt] at hi
  rw [List.getD_eq_default _ _ hi, zero_mul]

theorem sum_range_mul (f : ℕ → F) (R n : ℕ) : ∑ i ∈ Finset.range (R * n), f i =
    ∑ r ∈ Finset.range R, ∑ c ∈ Finset.range n, f (r * n + c) := by
  induction R with
  | zero => simp
  | succ R ih => rw [Nat.add_mul, Nat.one_mul, Finset.sum_range_add, ih, Finset.sum_range_succ]

/-- Evaluation of a matrix of coefficients: powers of `x` along a row, powers of `y` across the
rows. -/
def matrixValue (R n : ℕ) (l : List F) (y x : F) : F :=
  ∑ r ∈ Finset.range R, ∑ c ∈ Finset.range n, y ^ r * l.getD (r * n + c) 0 * x ^ c

theorem value_rows {R n : ℕ} {l : List F} (h : l.length ≤ R * n) (x : F) :
    value l x = matrixValue R n l (x ^ n) x := by
  rw [value_eq_sum h, sum_range_mul]
  refine Finset.sum_congr rfl fun r _ => Finset.sum_congr rfl fun c _ => ?_
  ring

theorem matrixValue_of_le_one {R : ℕ} (hR : R ≤ 1) (n : ℕ) (l : List F) (y y' x : F) :
    matrixValue R n l y x = matrixValue R n l y' x := by
  apply Finset.sum_congr rfl
  intro r hr
  have hzero : r = 0 := by
    have hlt := Finset.mem_range.mp hr
    omega
  rw [hzero, pow_zero, pow_zero]

theorem matrixValue_exchange {F : Type*} [CommRing F] {R n r c : ℕ} (hr : r < R) (hc : c < n)
    {l m : List F} (h : ∀ i, i ≠ r * n + c → l.getD i 0 = m.getD i 0) (y x : F) :
    matrixValue R n l y x - matrixValue R n m y x =
      y ^ r * (l.getD (r * n + c) 0 - m.getD (r * n + c) 0) * x ^ c := by
  have hposition : ∀ {r' c'}, c' < n → r' * n + c' = r * n + c → r' = r ∧ c' = c := by
    intro r' c' hc' heq
    have hrow : r' = r := by
      have hdiv := congrArg (· / n) heq
      simp only [Nat.mul_comm _ n] at hdiv
      rwa [Nat.mul_add_div (by omega), Nat.mul_add_div (by omega), Nat.div_eq_of_lt hc',
        Nat.div_eq_of_lt hc] at hdiv
    subst hrow
    exact ⟨rfl, by omega⟩
  unfold matrixValue
  simp only [← Finset.sum_sub_distrib]
  rw [Finset.sum_eq_single_of_mem r (Finset.mem_range.mpr hr),
    Finset.sum_eq_single_of_mem c (Finset.mem_range.mpr hc)]
  · ring
  · intro c' hc' hne
    have hother := h (r * n + c') fun heq => hne (hposition (Finset.mem_range.mp hc') heq).2
    rw [hother, sub_self]
  · intro r' _ hne
    apply Finset.sum_eq_zero
    intro c' hc'
    have hother := h (r' * n + c') fun heq => hne (hposition (Finset.mem_range.mp hc') heq).1
    rw [hother, sub_self]

/-- With two rows, the powers across the rows count: two lists that differ in the first entry of
the second row cannot have the same values for different ones. -/
theorem powers_eq_of_matrixValue_eq {F : Type*} [CommRing F] [NoZeroDivisors F] {R n : ℕ}
    (hR : 1 < R) (hn : 0 < n) {l m : List F} (h : ∀ i, i ≠ n → l.getD i 0 = m.getD i 0)
    (hne : l.getD n 0 ≠ m.getD n 0) {y y' x : F}
    (hl : matrixValue R n l y x = matrixValue R n l y' x)
    (hm : matrixValue R n m y x = matrixValue R n m y' x) : y = y' := by
  have hexchange (z : F) := matrixValue_exchange hR hn (l := l) (m := m)
    (fun i hi => h i (by simpa using hi)) z x
  simp only [Nat.one_mul, Nat.add_zero, pow_one, pow_zero, mul_one] at hexchange
  have hy := hexchange y
  rw [hl, hm, hexchange y'] at hy
  exact (mul_right_cancel₀ (sub_ne_zero.mpr hne) hy).symm

end FoundationPolynomials
