import ProofOfStorage.CommitmentProof

/-! # Collapsing rows

Evaluation with the outer tensor adds up the rows of the coefficient matrix. The recursion
over column ranges and the serial loop over whole rows compute the same combination. -/
namespace CommitmentCollapse

open FoundationFaults FoundationSlices FoundationInnerProducts CommitmentTypes CommitmentProof

variable {D : Digest} {F Err : Type} [Field F]

def evalOuter (comm : LcCommit D F) (tensor : List F) : Fallible (ProverError Err) (List F) := do
  ensure (tensor.length = comm.nRows) .outerTensor
  let poly := List.replicate comm.nPerRow 0
  collapseColumns comm.coeffs tensor poly comm.nPerRow 0

def evalOuterSer (comm : LcCommit D F) (tensor : List F) :
    Fallible (ProverError Err) (List F) := do
  ensure (tensor.length = comm.nRows) .outerTensor
  let poly := List.replicate comm.nPerRow 0
  tensor.zipIdx.foldlM (fun poly tv =>
    poly.zipIdx.mapM fun vc => do
      let entry := tv.2 * comm.nPerRow + vc.2
      return vc.1 + (← index comm.coeffs entry) * tv.1) poly

section Slices

variable {ε : Type} {coeffs tensor poly : List F} {nRows nPerRow offset : ℕ}

omit [Field F] in
theorem entry_lt (hcoeffs : coeffs.length = nRows * nPerRow) (htensor : tensor.length ≤ nRows)
    (hslice : offset + poly.length ≤ nPerRow) :
    ∀ r < tensor.length, ∀ c < poly.length, r * nPerRow + offset + c < coeffs.length := by
  intro r hr c hc
  have h := flat_lt (show r < nRows by omega) (show offset + c < nPerRow by omega)
  omega

theorem exists_collapse (hcoeffs : coeffs.length = nRows * nPerRow)
    (htensor : tensor.length ≤ nRows) (hslice : offset + poly.length ≤ nPerRow) :
    ∃ out, (collapseColumns coeffs tensor poly nPerRow offset : Fallible ε (List F)) = .ok out ∧
      out.length = poly.length ∧ ∀ c < poly.length, out.getD c 0 = poly.getD c 0 +
        ∑ r ∈ Finset.range tensor.length,
          tensor.getD r 0 * coeffs.getD (r * nPerRow + offset + c) 0 := by
  refine ⟨_, collapseColumns_eq (entry_lt hcoeffs htensor hslice), by simp, ?_⟩
  intro c hc
  simp [hc, mul_comm]

/-- Whatever the width of the range, the recursion ends as the loop over the rows does. -/
theorem collapseColumns_eq_rows (hcoeffs : coeffs.length = nRows * nPerRow)
    (htensor : tensor.length ≤ nRows) (hslice : offset + poly.length ≤ nPerRow) :
    (collapseColumns coeffs tensor poly nPerRow offset : Fallible ε (List F)) =
      tensor.zipIdx.foldlM (fun poly tv =>
        poly.zipIdx.mapM fun vc => do
          let entry := tv.2 * nPerRow + offset + vc.2
          return vc.1 + (← index coeffs entry) * tv.1) poly := by
  have hentry := entry_lt hcoeffs htensor hslice
  rw [collapseColumns_eq hentry, collapseRows_eq hentry]

theorem collapseColumns_slice {n : ℕ} (hcoeffs : coeffs.length = nRows * nPerRow)
    (htensor : tensor.length = nRows) (hslice : offset + n ≤ nPerRow) :
    (collapseColumns coeffs tensor (.replicate n 0) nPerRow offset : Fallible ε (List F)) =
      .ok (((combine nPerRow nRows coeffs tensor).drop offset).take n) := by
  have hwidth : offset + (List.replicate n (0 : F)).length ≤ nPerRow := by simpa using hslice
  obtain ⟨out, hrun, hlength, hentries⟩ := exists_collapse (ε := ε) hcoeffs htensor.le hwidth
  rw [List.length_replicate] at hlength hentries
  rw [hrun]
  apply congrArg Except.ok
  apply List.ext_getElem (by simp [hlength]; omega)
  intro c hc _
  have hlt : c < n := by omega
  have hcol : offset + c < nPerRow := by omega
  have hvalue : out[c] = ∑ r ∈ Finset.range nRows,
      tensor.getD r 0 * coeffs.getD (r * nPerRow + (offset + c)) 0 := by
    have h := hentries c hlt
    rw [List.getD_eq_getElem _ _ hc, htensor] at h
    simpa [hlt, Nat.add_assoc] using h
  simp only [List.getElem_take, List.getElem_drop]
  rw [hvalue, ← dot_column htensor, ← getD_combine hcol, List.getD_eq_getElem]

end Slices

section Evaluation

variable {comm : LcCommit D F} {tensor : List F}

theorem evalOuter_eq_evalOuterSer (hcoeffs : comm.coeffs.length = comm.nRows * comm.nPerRow) :
    evalOuter comm tensor = (evalOuterSer comm tensor : Fallible (ProverError Err) _) := by
  unfold evalOuter evalOuterSer
  by_cases htensor : tensor.length = comm.nRows
  · rw [ensure_of htensor, ok_bind, ok_bind]
    exact collapseColumns_eq_rows hcoeffs htensor.le (by simp)
  · simp [ensure, fail, htensor]

theorem evalOuterSer_eq (hcoeffs : comm.coeffs.length = comm.nRows * comm.nPerRow)
    (htensor : tensor.length = comm.nRows) :
    (evalOuterSer comm tensor : Fallible (ProverError Err) (List F)) =
      .ok (combine comm.nPerRow comm.nRows comm.coeffs tensor) := by
  rw [← evalOuter_eq_evalOuterSer hcoeffs, evalOuter, ensure_of htensor, ok_bind]
  exact collapseColumns_zeros hcoeffs htensor

end Evaluation

/-- The recursion over column ranges computes the matrix product, at every width, offset
and number of rows; on a whole commitment it is the serial loop. -/
theorem collapse_is_matrix_product (D : Digest) (Err ε : Type) (coeffs tensor poly : List F)
    (nRows nPerRow offset : ℕ) (hcoeffs : coeffs.length = nRows * nPerRow)
    (htensor : tensor.length ≤ nRows) (hslice : offset + poly.length ≤ nPerRow) :
    (∃ out, (collapseColumns coeffs tensor poly nPerRow offset : Fallible ε (List F)) = .ok out ∧
      out.length = poly.length ∧ ∀ c < poly.length, out.getD c 0 = poly.getD c 0 +
        ∑ r ∈ Finset.range tensor.length,
          tensor.getD r 0 * coeffs.getD (r * nPerRow + offset + c) 0) ∧
    ∀ comm : LcCommit D F, comm.coeffs = coeffs → comm.nRows = nRows → comm.nPerRow = nPerRow →
      evalOuter comm tensor = (evalOuterSer comm tensor :
        Fallible (ProverError Err) (List F)) ∧
      (tensor.length = nRows → ∃ whole,
        (evalOuterSer comm tensor : Fallible (ProverError Err) (List F)) = .ok whole ∧
        (collapseColumns coeffs tensor (.replicate poly.length 0) nPerRow offset :
          Fallible ε (List F)) = .ok ((whole.drop offset).take poly.length)) := by
  refine ⟨exists_collapse hcoeffs htensor hslice, ?_⟩
  rintro comm rfl rfl rfl
  refine ⟨evalOuter_eq_evalOuterSer hcoeffs, ?_⟩
  intro hall
  exact ⟨_, evalOuterSer_eq hcoeffs hall, collapseColumns_slice hcoeffs hall hslice⟩

theorem collapse_is_matrix_product_wide :
    ∃ out : List (ZMod 257), (collapseColumns ((List.range 82).map Nat.cast) [2, 5]
        (List.replicate 40 7) 41 1 : Fallible Empty (List (ZMod 257))) = .ok out ∧
      out.length = 40 ∧ out.getD 39 0 = 7 + (2 * 40 + 5 * 81) := by
  obtain ⟨⟨out, hrun, hlength, hentries⟩, -⟩ := collapse_is_matrix_product byteSum Empty
    Empty ((List.range 82).map (Nat.cast : ℕ → ZMod 257)) [2, 5] (.replicate 40 7) 2 41 1
    (by simp) (by simp) (by simp)
  have hentry := hentries 39 (by simp)
  exact ⟨out, hrun, by simpa using hlength, by simpa [Finset.sum_range_succ] using hentry⟩

end CommitmentCollapse
