import ProofOfStorage.FoundationPolynomials
import ProofOfStorage.CommitmentCompleteness
import ProofOfStorage.OnlineEvaluation
import Mathlib.Tactic.LinearCombination

/-! # Evaluation through a commitment is polynomial evaluation

The transform is linear, so the product of the left vector with the encoded matrix encodes the
product with the coefficient matrix; decoding gives it back, followed by zeros.
-/
namespace OnlinePolynomials

open FoundationFaults FoundationSlices FoundationInnerProducts FoundationPolynomials
  CommitmentTypes CommitmentMerkle CommitmentProof CommitmentCompleteness OnlineColumns
  OnlineEvaluation

variable {D : Digest} {F ε : Type} [Field F]

theorem evaluateFieldPolynomialAtPoint_eq (fieldElements : List F) (point : F) :
    evaluateFieldPolynomialAtPoint fieldElements point = value fieldElements point := by
  rw [evaluateFieldPolynomialAtPoint, foldl_running_power, zero_add, one_mul]

theorem evaluateWithElevatedDegree_eq (fieldElements : List F) (point : F) (degreeOffset : ℕ) :
    evaluateFieldPolynomialAtPointWithElevatedDegree fieldElements point degreeOffset =
      point ^ degreeOffset * value fieldElements point := by
  rw [evaluateFieldPolynomialAtPointWithElevatedDegree, foldl_running_power, zero_add]

/-- What is assumed of the transforms: with a precomputation the transform of a slice is a
linear map, and the inverse transform takes it back. -/
structure FftLaws (fft : FieldFFT F) : Prop where
  linear : ∀ {len pc}, fft.precompFft len = .ok pc →
    ∃ L : (Fin (2 ^ fft.getLogLen pc) → F) →ₗ[F] (Fin (2 ^ fft.getLogLen pc) → F),
      ∀ x, fft.fftIoPc pc (List.ofFn x) = .ok (List.ofFn (L x))
  inverse : ∀ {len pc v w}, fft.precompFft len = .ok pc → fft.fftIoPc pc v = .ok w →
    fft.ifftOi w = .ok v

/-- The answer of the server, decoded, and the client's product with the right vector. -/
def evaluateThroughCommitment [FieldHash F] (fft : FieldFFT F) (commitment : LcCommit D F)
    (evaluationPoint : F) : Fallible fft.Err (List F × F) := do
  let (left, right) := formSideVectorsForPolynomialEvaluationFromPoint evaluationPoint
    commitment.nRows commitment.nPerRow
  let resultVector ← verifiablePolynomialEvaluation commitment left
  let decodedResultVector ← decodeRow fft resultVector
  return (decodedResultVector, vectorMultiply decodedResultVector right)

theorem ofFn_append_zeros {n m : ℕ} (hle : n ≤ m) (x : Fin n → F) :
    List.ofFn x ++ .replicate (m - n) 0 =
      List.ofFn (Function.ExtendByZero.linearMap F (Fin.castLE hle) x) := by
  apply List.ext_getElem (by simp [hle])
  intro i hi hi'
  rw [List.getElem_ofFn, Function.ExtendByZero.linearMap_apply]
  rcases Nat.lt_or_ge i n with hlt | hge
  · have hcast : (⟨i, by simpa using hi'⟩ : Fin m) = Fin.castLE hle ⟨i, hlt⟩ := rfl
    rw [List.getElem_append_left (by simpa using hlt), List.getElem_ofFn, hcast,
      (Fin.castLE_injective hle).extend_apply]
  · have hout : ¬∃ j, Fin.castLE hle j = ⟨i, by simpa using hi'⟩ := by
      rintro ⟨j, hj⟩
      have hval : (Fin.castLE hle j).val = i := congrArg Fin.val hj
      rw [Fin.val_castLE] at hval
      omega
    rw [List.getElem_append_right (by simpa using hge), List.getElem_replicate,
      Function.extend_apply' _ _ _ hout, Pi.zero_apply]

/-- With a precomputation the transform of a slice is a linear map. -/
def TransformsLinearly (fft : FieldFFT F) : Prop :=
  ∀ {len pc}, fft.precompFft len = .ok pc →
    ∃ L : (Fin (2 ^ fft.getLogLen pc) → F) →ₗ[F] (Fin (2 ^ fft.getLogLen pc) → F),
      ∀ x, fft.fftIoPc pc (List.ofFn x) = .ok (List.ofFn (L x))

theorem linearOnRows_of_linear {fft : FieldFFT F} (hfft : TransformsLinearly fft) {nPre nEnc : ℕ}
    {encoding : LcEncoding F fft.Err}
    (hencoding : (newFromDims fft nPre nEnc : Fallible ε _) = .ok encoding) :
    LinearOnRows encoding nPre nEnc := by
  obtain ⟨hlt, -, pc, hpc, rfl, rfl⟩ := newFromDims_eq_ok hencoding
  obtain ⟨L, hL⟩ := hfft hpc
  refine ⟨L ∘ₗ Function.ExtendByZero.linearMap F (Fin.castLE hlt.le), ?_⟩
  intro x
  rw [ofFn_append_zeros hlt.le, LinearMap.comp_apply, ← hL]
  rfl

theorem linearOnRows_of_laws {fft : FieldFFT F} (hfft : FftLaws fft) {nPre nEnc : ℕ}
    {encoding : LcEncoding F fft.Err}
    (hencoding : (newFromDims fft nPre nEnc : Fallible ε _) = .ok encoding) :
    LinearOnRows encoding nPre nEnc := linearOnRows_of_linear hfft.linear hencoding

theorem getD_powers {n i : ℕ} (hi : i < n) (x : F) :
    ((List.range n).map (x ^ ·)).getD i 0 = x ^ i := by
  simp [List.getD_eq_getElem?_getD, hi]

theorem dot_combine_powers {coefficients coeffs : List F}
    (hentries : ∀ i, coeffs.getD i 0 = coefficients.getD i 0) (nRows nPre : ℕ) (y x : F) :
    dot ((List.range nPre).map (x ^ ·))
      (combine nPre nRows coeffs ((List.range nRows).map (y ^ ·))) =
        matrixValue nRows nPre coefficients y x := by
  rw [dot_combine (by simp) (by simp)]
  refine Finset.sum_congr rfl fun r hr => Finset.sum_congr rfl fun c hc => ?_
  rw [hentries, getD_powers (Finset.mem_range.mp hr), getD_powers (Finset.mem_range.mp hc)]

variable [PrimeField F]

/-- The answer for any left vector, decoded, is the combination of the coefficient rows with zeros
behind it. -/
theorem decode_combination {fft : FieldFFT F} (hfft : FftLaws fft) {nPre nEnc : ℕ}
    {encoding : LcEncoding F fft.Err}
    (hencoding : (newFromDims fft nPre nEnc : Fallible ε _) = .ok encoding)
    {comm : LcCommit D F} (hc : Committed encoding comm) (hper : comm.nPerRow = nPre)
    (hcols : comm.nCols = nEnc) {left : List F} (hleft : left.length = comm.nRows) :
    ∃ result, (∀ {ε : Type}, (verifiablePolynomialEvaluation comm left : Fallible ε _) =
        .ok result) ∧
      decodeRow fft result = .ok (combine nPre comm.nRows comm.coeffs left ++
        .replicate (nEnc - nPre) 0) := by
  subst hper hcols
  have hlin := linearOnRows_of_laws hfft hencoding
  obtain ⟨-, -, pc, hpc, -, rfl⟩ := newFromDims_eq_ok hencoding
  obtain ⟨hcomm, -, -, -⟩ := checkComm_eq_ok.mp hc.check
  have htwo := hc.two_le
  have hle := hc.nPerRow_le
  have hencode := encode_combine hc hlin hleft
  rw [resize_of_le (by rw [length_combine]; exact hle), length_combine] at hencode
  exact ⟨_, verifiablePolynomialEvaluation_eq (by omega) hcomm left, hfft.inverse hpc hencode⟩

theorem decode_evaluation {fft : FieldFFT F} (hfft : FftLaws fft) {nPre nEnc : ℕ}
    {encoding : LcEncoding F fft.Err}
    (hencoding : (newFromDims fft nPre nEnc : Fallible ε _) = .ok encoding)
    {coefficients : List F} {comm : LcCommit D F} (hc : Committed encoding comm)
    (hper : comm.nPerRow = nPre) (hcols : comm.nCols = nEnc)
    (hentries : ∀ i, comm.coeffs.getD i 0 = coefficients.getD i 0) (y x : F) :
    ∃ result decoded,
      (∀ {ε : Type}, (verifiablePolynomialEvaluation comm ((List.range comm.nRows).map (y ^ ·)) :
        Fallible ε _) = .ok result) ∧
      decodeRow fft result = .ok decoded ∧
      vectorMultiply decoded ((List.range nPre).map (x ^ ·)) =
        matrixValue comm.nRows nPre coefficients y x ∧
      ∀ j, nPre ≤ j → decoded.getD j 0 = 0 := by
  set left : List F := (List.range comm.nRows).map (y ^ ·) with hleft
  obtain ⟨result, hresult, hdecoded⟩ := decode_combination hfft hencoding hc hper hcols
    (show left.length = comm.nRows by rw [hleft, List.length_map, List.length_range])
  refine ⟨result, _, hresult, hdecoded, ?_, fun j hj => ?_⟩
  · rw [vectorMultiply_eq_dot, dot_comm, dot_congr _ (getD_append_zeros _ _)]
    exact dot_combine_powers hentries comm.nRows nPre y x
  · rw [getD_append_zeros, List.getD_eq_default _ _ (by rwa [length_combine])]

/-- For all shapes of a commitment at once: the decoded answer is zero behind the row length, and
the client's product is the value of the polynomial. -/
theorem evaluation_through_commitment {fft : FieldFFT F} (hfft : FftLaws fft)
    {coefficients : List F} (hne : coefficients ≠ []) (x : F) :
    ∀ (nPre nEnc : ℕ) (encoding : LcEncoding F fft.Err), 0 < nPre → nEnc < 2 ^ 64 →
      (newFromDims fft nPre nEnc : Fallible (ProverError fft.Err) _) = .ok encoding →
      ∃ (comm : LcCommit D F) (decoded : List F), commit D coefficients encoding = .ok comm ∧
        comm.nPerRow = nPre ∧ evaluateThroughCommitment fft comm x =
          .ok (decoded, evaluateFieldPolynomialAtPoint coefficients x) ∧
        ∀ j, nPre ≤ j → decoded.getD j 0 = 0 := by
  intro nPre nEnc encoding hpre hword hencoding
  obtain ⟨comm, hcommit, hc, hrows, hper, hcols, hentries, -⟩ :=
    commit_ligero (D := D) hne hpre hword hencoding
  obtain ⟨result, decoded, hresult, hdecoded, hvalue, hzero⟩ :=
    decode_evaluation hfft hencoding hc hper hcols hentries (x ^ nPre) x
  have hlen : coefficients.length ≤ comm.nRows * nPre := by
    rw [hrows]
    exact le_divCeil_mul _ hpre
  refine ⟨comm, decoded, hcommit, hper, ?_, hzero⟩
  unfold evaluateThroughCommitment
  simp only [formSideVectors_eq, hper]
  rw [hresult, ok_bind, hdecoded, ok_bind, hvalue, ← value_rows hlen,
    evaluateFieldPolynomialAtPoint_eq]
  rfl

def butterfly : FieldFFT (ZMod 257) where
  Err := Unit
  Precomp := Unit
  flog2 := 8
  getLogLen _ := 1
  precompFft len := if len = 2 then .ok () else fail ()
  fftIoPc _ v := twoPoint.encode v
  ifftOi
    | [a, b] => .ok [(a + b) * (129 : ℕ), (a - b) * (129 : ℕ)]
    | _ => fail ()
  length_fftIoPc h := twoPoint.length_encode h
  length_ifftOi {v w} h := by
    rcases v with _ | ⟨a, _ | ⟨b, _ | ⟨c, v⟩⟩⟩ <;> simp [fail] at h
    subst h
    rfl
  fftIoPc_total {pc v} h := by
    obtain ⟨a, b, rfl⟩ := List.length_eq_two.mp h
    exact ⟨_, rfl⟩

theorem butterfly_laws : FftLaws butterfly := by
  refine ⟨fun {len pc} _ => ?_, fun {len pc v w} _ h => ?_⟩
  · show ∃ L : (Fin 2 → ZMod 257) →ₗ[ZMod 257] (Fin 2 → ZMod 257), ∀ x : Fin 2 → ZMod 257,
      twoPoint.encode (List.ofFn x) = .ok (List.ofFn (L x))
    refine ⟨⟨⟨fun x => ![x 0 + x 1, x 0 - x 1], fun x y => ?_⟩, fun c x => ?_⟩, fun x => ?_⟩
    · ext i
      fin_cases i <;> simp <;> ring
    · ext i
      fin_cases i <;> simp <;> ring
    · simp [twoPoint]
  · rcases v with _ | ⟨a, _ | ⟨b, _ | ⟨c, v⟩⟩⟩ <;> simp [fail, butterfly, twoPoint] at h
    subst h
    have hhalf : (2 * (129 : ℕ) : ZMod 257) = 1 := by decide
    have ha : (a + b + (a - b)) * (129 : ℕ) = a := by linear_combination a * hhalf
    have hb : (a + b - (a - b)) * (129 : ℕ) = b := by linear_combination b * hhalf
    show Except.ok [(a + b + (a - b)) * (129 : ℕ), (a + b - (a - b)) * (129 : ℕ)] = _
    rw [ha, hb]
    rfl

theorem evaluation_through_commitment_small : ∃ (encoding : LcEncoding (ZMod 257) Unit)
    (comm : LcCommit byteSum (ZMod 257)) (decoded : List (ZMod 257)),
    commit byteSum [3, 5, 7] encoding = .ok comm ∧
    evaluateThroughCommitment butterfly comm 2 = .ok (decoded, 41) ∧
    ∀ j, 1 ≤ j → decoded.getD j 0 = 0 := by
  have hne : ([3, 5, 7] : List (ZMod 257)) ≠ [] := by decide
  obtain ⟨comm, decoded, hcommit, -, hrun, hzero⟩ := evaluation_through_commitment (D := byteSum)
    butterfly_laws hne 2 1 2 _ (by decide) (by decide) rfl
  exact ⟨_, comm, decoded, hcommit, hrun, hzero⟩

end OnlinePolynomials
