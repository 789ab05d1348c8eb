import ProofOfStorage.FoundationPolynomials
import Mathlib.Algebra.BigOperators.Fin
import Mathlib.Data.Matrix.Mul
import Mathlib.LinearAlgebra.Pi

/-! # Linear functions of lists

The arguments have one length and the values another. Such a function is a linear map of vectors.
-/
namespace FoundationLinearLists

open FoundationPolynomials

variable {F : Type*} [CommSemiring F]

def combination (c d : F) (x y : List F) : List F := x.zipWith (fun a b => c * a + d * b) y

structure Linear (n m : ℕ) (f : List F → List F) : Prop where
  length_eq : ∀ {x}, x.length = n → (f x).length = m
  map_combination : ∀ (c d : F) {x y}, x.length = n → y.length = n →
    f (combination c d x y) = combination c d (f x) (f y)

variable {n m k : ℕ} {f g : List F → List F} {x y : List F}

theorem length_combination (c d : F) (hx : x.length = n) (hy : y.length = n) :
    (combination c d x y).length = n := by
  rw [combination, List.length_zipWith, hx, hy, Nat.min_self]

theorem getD_combination (c d : F) (h : x.length = y.length) (i : ℕ) :
    (combination c d x y).getD i 0 = c * x.getD i 0 + d * y.getD i 0 := by
  by_cases hi : i < x.length
  · have hy : i < y.length := by omega
    have hlen : i < (combination c d x y).length := by rwa [length_combination c d rfl h.symm]
    rw [List.getD_eq_getElem _ _ hlen, List.getD_eq_getElem _ _ hi, List.getD_eq_getElem _ _ hy]
    exact List.getElem_zipWith
  · have hx : x.length ≤ i := by omega
    have hy : y.length ≤ i := by omega
    have hlen : (combination c d x y).length ≤ i := by rwa [length_combination c d rfl h.symm]
    rw [List.getD_eq_default _ _ hlen, List.getD_eq_default _ _ hx, List.getD_eq_default _ _ hy,
      mul_zero, mul_zero, add_zero]

theorem combination_append (c d : F) {x' y' : List F} (h : x.length = y.length) :
    combination c d (x ++ x') (y ++ y') = combination c d x y ++ combination c d x' y' :=
  List.zipWith_append h

theorem combination_ofFn (c d : F) (a b : Fin m → F) :
    combination c d (List.ofFn a) (List.ofFn b) = List.ofFn fun i => c * a i + d * b i := by
  apply List.ext_getElem (by simp [combination])
  intro i hi hi'
  simp [combination]

theorem Linear.id : Linear n n fun x : List F => x := by
  constructor
  · intro x hx
    exact hx
  · intro c d x y _ _
    rfl

theorem Linear.comp (hg : Linear m k g) (hf : Linear n m f) : Linear n k fun x => g (f x) := by
  constructor
  · intro x hx
    exact hg.length_eq (hf.length_eq hx)
  · intro c d x y hx hy
    rw [hf.map_combination c d hx hy]
    exact hg.map_combination c d (hf.length_eq hx) (hf.length_eq hy)

theorem Linear.append (hf : Linear n m f) (hg : Linear n k g) :
    Linear n (m + k) fun x => f x ++ g x := by
  constructor
  · intro x hx
    rw [List.length_append, hf.length_eq hx, hg.length_eq hx]
  · intro c d x y hx hy
    rw [hf.map_combination c d hx hy, hg.map_combination c d hx hy, combination_append]
    exact (hf.length_eq hx).trans (hf.length_eq hy).symm

theorem Linear.ofFn {φ : Fin m → List F → F} (h : ∀ i (c d : F) {x y : List F}, x.length = n →
      y.length = n → φ i (combination c d x y) = c * φ i x + d * φ i y) :
    Linear n m fun x => List.ofFn fun i => φ i x := by
  constructor
  · intro x _
    exact List.length_ofFn
  · intro c d x y hx hy
    rw [combination_ofFn]
    congr 1
    funext i
    exact h i c d hx hy

theorem Linear.mulVec (A : Matrix (Fin m) (Fin n) F) :
    Linear n m fun x => List.ofFn (A.mulVec fun j => x.getD j 0) := by
  apply Linear.ofFn
  intro i c d x y hx hy
  simp only [Matrix.mulVec, dotProduct, getD_combination c d (hx.trans hy.symm), Finset.mul_sum]
  rw [← Finset.sum_add_distrib]
  apply Finset.sum_congr rfl
  intro j _
  ring

theorem Linear.values (point : Fin m → F) :
    Linear n m fun x => List.ofFn fun i => value x (point i) := by
  apply Linear.ofFn
  intro i c d x y hx hy
  rw [value_eq_sum (length_combination c d hx hy).le, value_eq_sum hx.le, value_eq_sum hy.le,
    Finset.mul_sum, Finset.mul_sum, ← Finset.sum_add_distrib]
  apply Finset.sum_congr rfl
  intro j _
  rw [getD_combination c d (hx.trans hy.symm)]
  ring

theorem Linear.exists_linearMap (hf : Linear n m f) :
    ∃ L : (Fin n → F) →ₗ[F] (Fin m → F), ∀ x, f (List.ofFn x) = List.ofFn (L x) := by
  have hsum : ∀ (c d : F) (x y : Fin n → F) i, (f (List.ofFn fun j => c * x j + d * y j)).getD i 0 =
      c * (f (List.ofFn x)).getD i 0 + d * (f (List.ofFn y)).getD i 0 := by
    intro c d x y i
    have hlen := (hf.length_eq (List.length_ofFn (f := x))).trans
      (hf.length_eq (List.length_ofFn (f := y))).symm
    rw [← combination_ofFn, hf.map_combination c d List.length_ofFn List.length_ofFn,
      getD_combination c d hlen]
  refine ⟨{ toFun := fun x i => (f (List.ofFn x)).getD i 0, map_add' := ?_, map_smul' := ?_ }, ?_⟩
  · intro x y
    funext i
    have h := hsum 1 1 x y i
    simp only [one_mul] at h
    exact h
  · intro c x
    funext i
    have h := hsum c 0 x x i
    simp only [zero_mul, add_zero] at h
    exact h
  · intro x
    have hlen := hf.length_eq (List.length_ofFn (f := x))
    apply List.ext_getElem (by rw [hlen, List.length_ofFn])
    intro i hi hi'
    rw [List.getElem_ofFn]
    exact (List.getD_eq_getElem _ _ hi).symm

end FoundationLinearLists
