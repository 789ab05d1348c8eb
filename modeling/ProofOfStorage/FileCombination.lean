import ProofOfStorage.FileHandlingRuns
import ProofOfStorage.OnlinePolynomials

/-! # Combining the rows of the file on disk

The handler reads the rows of its file one by one and adds the multiple of each to a result vector
that was only given a capacity. It has no entries, so there is nothing to add to.
-/
namespace FileCombination

open FoundationFaults FoundationRuns FoundationSlices FoundationInnerProducts
open CommitmentTypes CommitmentMerkle CommitmentProof OnlineColumns OnlineEvaluation
open OnlinePolynomials FileFields FileDigests FileRows FileHandling FileHandlingRuns

variable {D : Digest} {F Err : Type} [Field F] [DataField F]

/-- One round of the loop: the parallel `zip` ends with the shorter of the two vectors. -/
def combineRow (h : FileHandler D F Err) (leftVector resultVector : List F)
    (unencodedRowIndex : ℕ) : Fallible (FileError Err) (List F) := do
  let leftVectorRowCoefficient ← index leftVector unencodedRowIndex
  let unencodedRow ← getUnencodedRow h unencodedRowIndex
  return addMultiple leftVectorRowCoefficient resultVector (fromByteVec unencodedRow)

def combineRows (h : FileHandler D F Err) (leftVector resultVector : List F) :
    Fallible (FileError Err) (List F) :=
  (List.range h.rowsWritten).foldlM (combineRow h leftVector) resultVector

def leftMultiplyUnencodedMatrixByVector (h : FileHandler D F Err) (leftVector : List F) :
    Fallible (FileError Err) (List F) := do
  let expected := h.rowsWritten
  let received := leftVector.length
  ensure (received = expected)
    (.message s!"left_vector incorrect size, expected {expected} and received {received}")
  -- `Vec::with_capacity` reserves room for the entries and adds none
  combineRows h leftVector []

/-- Entry `j` is the sum of the `j`-th elements of the rows, each times its coefficient. -/
structure IsRowCombination (h : FileHandler D F Err) (b : List UInt8)
    (leftVector resultVector : List F) : Prop where
  length_eq : resultVector.length = h.preEncodedSize
  entry : ∀ j < h.preEncodedSize, resultVector.getD j 0 =
    ∑ i ∈ Finset.range h.rowsWritten, leftVector.getD i 0 *
      (fromByteVec (row (rowBytes F h.preEncodedSize) b i) : List F).getD j 0

def CombinesRows (h : FileHandler D F Err) (b : List UInt8) (leftVector : List F) : Prop :=
  ∃ resultVector, leftMultiplyUnencodedMatrixByVector h leftVector = .ok resultVector ∧
    IsRowCombination h b leftVector resultVector

section Loop

variable {h : FileHandler D F Err} {b : List UInt8} {leftVector : List F}

theorem combineRow_eq_ok (hd : Describes h b) (hleft : leftVector.length = h.rowsWritten)
    {i : ℕ} (hi : i < h.rowsWritten) (resultVector : List F) :
    combineRow h leftVector resultVector i = .ok (addMultiple (leftVector.getD i 0) resultVector
      (fromByteVec (row (rowBytes F h.preEncodedSize) b i))) := by
  have hlt : i < leftVector.length := by omega
  rw [combineRow, index_of_lt hlt, ok_bind, hd.getUnencodedRow hi, ok_bind,
    List.getD_eq_getElem _ _ hlt]
  rfl

theorem foldlM_combineRow (hd : Describes h b)
    (hleft : leftVector.length = h.rowsWritten) (start : List F) {n : ℕ} (hn : n ≤ h.rowsWritten) :
    ∃ resultVector, (List.range n).foldlM (combineRow h leftVector) start = .ok resultVector ∧
      resultVector.length = start.length ∧ ∀ j < start.length, resultVector.getD j 0 =
        start.getD j 0 + ∑ i ∈ Finset.range n, leftVector.getD i 0 *
          (fromByteVec (row (rowBytes F h.preEncodedSize) b i) : List F).getD j 0 := by
  induction n with
  | zero =>
    refine ⟨start, rfl, rfl, ?_⟩
    intro j _
    rw [Finset.sum_range_zero, add_zero]
  | succ n ih =>
    obtain ⟨resultVector, hrun, hlen, hentry⟩ := ih (Nat.le_of_succ_le hn)
    refine ⟨addMultiple (leftVector.getD n 0) resultVector
      (fromByteVec (row (rowBytes F h.preEncodedSize) b n)), ?_,
      (length_addMultiple _ _ _).trans hlen, fun j hj => ?_⟩
    · rw [List.range_succ, List.foldlM_append, hrun, ok_bind, List.foldlM_cons,
        combineRow_eq_ok hd hleft hn, ok_bind]
      rfl
    · rw [getD_addMultiple _ _ (hlen ▸ hj), hentry j hj, Finset.sum_range_succ, ← add_assoc,
        mul_comm (leftVector.getD n 0)]

theorem leftMultiply_eq_ok (hd : Describes h b)
    (hleft : leftVector.length = h.rowsWritten) :
    leftMultiplyUnencodedMatrixByVector h leftVector = .ok [] := by
  obtain ⟨resultVector, hrun, hlen, -⟩ := foldlM_combineRow hd hleft [] le_rfl
  have hnil : resultVector = [] := List.length_eq_zero_iff.mp hlen
  rw [leftMultiplyUnencodedMatrixByVector, ensure_of hleft, ok_bind, combineRows, hrun, hnil]

theorem not_combinesRows (hd : Describes h b)
    (hleft : leftVector.length = h.rowsWritten) : ¬CombinesRows h b leftVector := by
  rintro ⟨resultVector, hrun, hlen, -⟩
  rw [leftMultiply_eq_ok hd hleft] at hrun
  cases hrun
  have hpos := hd.sized.pos
  rw [List.length_nil] at hlen
  omega

theorem isRowCombination_iff (hd : Describes h b)
    (hleft : leftVector.length = h.rowsWritten) (resultVector : List F) :
    IsRowCombination h b leftVector resultVector ↔
      resultVector = combine h.preEncodedSize h.rowsWritten (fromByteVec b) leftVector := by
  have hsum : ∀ j < h.preEncodedSize,
      (combine h.preEncodedSize h.rowsWritten (fromByteVec b) leftVector).getD j 0 =
        ∑ i ∈ Finset.range h.rowsWritten, leftVector.getD i 0 *
          (fromByteVec (row (rowBytes F h.preEncodedSize) b i) : List F).getD j 0 := by
    intro j hj
    rw [getD_combine hj, dot_column hleft]
    apply Finset.sum_congr rfl
    intro i hi
    have hrow := hd.rowsWritten_eq ▸ Finset.mem_range.mp hi
    rw [fromByteVec_row hd.sized.pos hrow, getD_row hj]
  constructor
  · rintro ⟨hlen, hentry⟩
    apply List.ext_getElem (by rw [hlen, length_combine])
    intro j hj hj'
    rw [← List.getD_eq_getElem _ 0 hj, ← List.getD_eq_getElem _ 0 hj', hentry j (hlen ▸ hj),
      hsum j (hlen ▸ hj)]
  · rintro rfl
    exact ⟨length_combine .., hsum⟩

theorem combineRows_zeros (hd : Describes h b)
    (hleft : leftVector.length = h.rowsWritten) :
    combineRows h leftVector (.replicate h.preEncodedSize 0) =
      .ok (combine h.preEncodedSize h.rowsWritten (fromByteVec b) leftVector) := by
  obtain ⟨resultVector, hrun, hlen, hentry⟩ :=
    foldlM_combineRow hd hleft (.replicate h.preEncodedSize 0) le_rfl
  rw [List.length_replicate] at hlen hentry
  have hcombination : IsRowCombination h b leftVector resultVector := by
    refine ⟨hlen, ?_⟩
    intro j hj
    rw [hentry j hj, List.getD_replicate _ hj, zero_add]
  rw [combineRows, hrun, (isRowCombination_iff hd hleft _).mp hcombination]

/-- The result is empty for every file and every left vector of the right length, and never the
combination of the rows. -/
theorem leftMultiply_never_combines (ha : Agrees h b) (hleft : leftVector.length = h.rowsWritten) :
    leftMultiplyUnencodedMatrixByVector h leftVector = .ok [] ∧ ¬CombinesRows h b leftVector :=
  ⟨leftMultiply_eq_ok ha.describes hleft, not_combinesRows ha.describes hleft⟩

theorem leftMultiply_never_combines_small :
    ∃ h : FileHandler byteSum (ZMod 257) fermatFft.Err, Agrees h [7] ∧
      leftMultiplyUnencodedMatrixByVector h [4] = .ok [] ∧ ¬CombinesRows h [7] [4] := by
  obtain ⟨h, hpre, ha⟩ := exists_agrees [7]
  have hrows : h.rowsWritten = 1 := by
    rw [ha.describes.rowsWritten_eq, hpre]
    decide
  exact ⟨h, ha, leftMultiply_never_combines ha hrows.symm⟩

/-- Two rows of one element, `3 + 2 * 5`. -/
theorem two_rows_not_combined :
    ∃ h : FileHandler byteSum (ZMod 257) fermatFft.Err, Agrees h [3, 5] ∧
      IsRowCombination h [3, 5] [1, 2] [13] ∧
      leftMultiplyUnencodedMatrixByVector h [1, 2] = .ok [] ∧ ¬CombinesRows h [3, 5] [1, 2] := by
  obtain ⟨h, hpre, ha⟩ := exists_agrees [3, 5]
  have hrows : h.rowsWritten = 2 := by
    rw [ha.describes.rowsWritten_eq, hpre]
    decide
  have hsum : IsRowCombination h [3, 5] [1, 2] [13] := by
    have hleft : ([1, 2] : List (ZMod 257)).length = h.rowsWritten := hrows.symm
    rw [isRowCombination_iff ha.describes hleft, hpre, hrows]
    decide
  exact ⟨h, ha, hsum, leftMultiply_eq_ok ha.describes hrows.symm,
    not_combinesRows ha.describes hrows.symm⟩

end Loop

section Commitment

variable {fft : FieldFFT F} {h : FileHandler D F fft.Err} {b : List UInt8} {leftVector : List F}

/-- Started with zeros, the loop would compute what the coefficients of a commitment to the file
collapse to, and what the answer to an evaluation decodes to. -/
theorem combineRows_through_commitment {ε : Type} (hfft : FftLaws fft)
    (hd : Describes h b) (hne : b ≠ []) (hword : h.encodedSize < 2 ^ 64)
    (hencoding : (newFromDims fft h.preEncodedSize h.encodedSize : Fallible ε _) = .ok h.encoding)
    (hleft : leftVector.length = h.rowsWritten) :
    ∃ (comm : LcCommit D F) (combination result : List F),
      commit D (fromByteVec b) h.encoding = .ok comm ∧
      combineRows h leftVector (.replicate h.preEncodedSize 0) = .ok combination ∧
      (collapseColumns comm.coeffs leftVector (.replicate comm.nPerRow 0) comm.nPerRow 0 :
        Fallible ε _) = .ok combination ∧
      (verifiablePolynomialEvaluation comm leftVector : Fallible ε _) = .ok result ∧
      decodeRow fft result =
        .ok (combination ++ .replicate (h.encodedSize - h.preEncodedSize) 0) := by
  have hpos := hd.sized.pos
  have helements : (fromByteVec b : List F) ≠ [] := by
    intro hnil
    have hlen := congrArg List.length hnil
    rw [length_fromByteVec, List.length_nil] at hlen
    have hblen := List.length_pos_iff.mpr hne
    have hle := (divCeil_le_iff DataField.capacity_pos).mp hlen.le
    omega
  obtain ⟨comm, hcommit, hc, hrows, hper, hcols, hentries, -⟩ :=
    commit_ligero (D := D) helements hpos hword hencoding
  have hsame : comm.nRows = h.rowsWritten := by
    rw [hrows, length_fromByteVec, divCeil_divCeil _ DataField.capacity_pos hpos,
      hd.rowsWritten_eq]
    rfl
  have hleft' : leftVector.length = comm.nRows := hleft.trans hsame.symm
  obtain ⟨-, hcoeffs, -, -⟩ := checkComm_eq_ok.mp hc.check
  have hcombine : combine comm.nPerRow comm.nRows comm.coeffs leftVector =
      combine h.preEncodedSize h.rowsWritten (fromByteVec b) leftVector := by
    rw [combine_congr _ _ _ hentries, hper, hsame]
  obtain ⟨result, hresult, hdecoded⟩ := decode_combination hfft hencoding hc hper hcols hleft'
  rw [← hper, hcombine, hper] at hdecoded
  refine ⟨comm, _, result, hcommit, combineRows_zeros hd hleft, ?_, hresult, hdecoded⟩
  rw [collapseColumns_zeros hcoeffs hleft', hcombine]

end Commitment

end FileCombination
