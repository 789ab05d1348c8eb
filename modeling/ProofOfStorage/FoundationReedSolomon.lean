import ProofOfStorage.FoundationPolynomials
import Mathlib.Algebra.Polynomial.OfFn
import Mathlib.LinearAlgebra.Lagrange

/-! # Reed–Solomon codes

A message is a list of coefficients, and its codeword the values of the polynomial at distinct
points. As many values as there are coefficients give the message back.
-/
namespace FoundationReedSolomon

open FoundationPolynomials Polynomial

variable {F : Type*} [Field F]

open Classical in
noncomputable def polynomialOf (k : ℕ) (l : List F) : F[X] := ofFn k fun i => l.getD i 0

theorem degree_polynomialOf_lt (k : ℕ) (l : List F) : (polynomialOf k l).degree < k := by
  classical exact ofFn_degree_lt _

theorem coeff_polynomialOf {k i : ℕ} (hi : i < k) (l : List F) :
    (polynomialOf k l).coeff i = l.getD i 0 := by
  classical exact ofFn_coeff_eq_val_of_lt _ hi

theorem eval_polynomialOf {k : ℕ} {l : List F} (h : l.length ≤ k) (x : F) :
    (polynomialOf k l).eval x = value l x := by
  classical
  rw [value_eq_sum h, polynomialOf, ofFn_eq_sum_monomial, eval_finsetSum,
    Finset.sum_range fun i => l.getD i 0 * x ^ i]
  simp only [eval_monomial]

/-- The coefficients below `k` of the polynomial of least degree through the samples. -/
noncomputable def interpolate (k : ℕ) (samples : List (F × F)) : List F :=
  List.ofFn fun i : Fin k => (Lagrange.interpolate Finset.univ
    (fun j : Fin samples.length => samples[j].1) fun j => samples[j].2).coeff i

theorem length_interpolate (k : ℕ) (samples : List (F × F)) : (interpolate k samples).length = k :=
  List.length_ofFn

/-- Decoding: enough values at different points give the message back. -/
theorem interpolate_values {k : ℕ} {points message : List F} (hnodup : points.Nodup)
    (hk : k ≤ points.length) (hlen : message.length = k) :
    interpolate k (points.map fun x => (x, value message x)) = message := by
  set samples := points.map fun x => (x, value message x) with hsamples
  have hpoint (j : Fin samples.length) : samples[j].1 = points.get (j.cast (List.length_map _)) := by
    simp [samples]
  have hinj : Set.InjOn (fun j : Fin samples.length => samples[j].1)
      (Finset.univ : Finset (Fin samples.length)) := by
    intro i _ j _ hij
    simp only [hpoint] at hij
    exact Fin.cast_injective _ (hnodup.injective_get hij)
  have hdegree : (polynomialOf k message).degree <
      (Finset.univ : Finset (Fin samples.length)).card := by
    refine (degree_polynomialOf_lt k message).trans_le ?_
    rw [Finset.card_univ, Fintype.card_fin, hsamples, List.length_map]
    exact_mod_cast hk
  have hfound := Lagrange.eq_interpolate_of_eval_eq (fun j : Fin samples.length => samples[j].2)
    hinj hdegree fun j _ => by
      rw [eval_polynomialOf hlen.le]
      simp [samples]
  apply List.ext_getElem ((length_interpolate k samples).trans hlen.symm)
  intro i hi hi'
  simp only [interpolate, List.getElem_ofFn]
  rw [← hfound, coeff_polynomialOf (hlen ▸ hi')]
  exact List.getD_eq_getElem _ _ hi'

/-- Two messages that have the same values at as many points as they have coefficients. -/
theorem eq_of_values_eq {k : ℕ} {points l m : List F} (hnodup : points.Nodup)
    (hk : k ≤ points.length) (hl : l.length = k) (hm : m.length = k)
    (h : ∀ x ∈ points, value l x = value m x) : l = m := by
  have hsamples : (points.map fun x => (x, value l x)) = points.map fun x => (x, value m x) :=
    List.map_congr_left fun x hx => by rw [h x hx]
  rw [← interpolate_values hnodup hk hl, hsamples, interpolate_values hnodup hk hm]

end FoundationReedSolomon
