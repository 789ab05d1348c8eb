import ProofOfStorage.FileFields
import ProofOfStorage.OnlineCodewords

/-! # Getting a file back from its columns

As many columns of the encoded file as its rows had entries give all rows back, so they hold the
whole file. Two files with the same columns differ at most in zeros at the end.
-/
namespace FileRetrieval

open FoundationFaults FoundationSlices FoundationPolynomials FoundationReedSolomon
open CommitmentTypes CommitmentProof OnlineColumns OnlineCodewords FileFields DataField

variable {F Err : Type} [Field F]

noncomputable def recoverRow (points : List F) (nPre : ℕ) (columns : List (ℕ × List F)) (r : ℕ) :
    List F := interpolate nPre (columns.map fun s => (points.getD s.1 0, s.2.getD r 0))

/-- The bytes of a file of known size, from some columns of its matrix. -/
noncomputable def recoverFile [DataField F] (points : List F) (nPre size : ℕ)
    (columns : List (ℕ × List F)) : List UInt8 :=
  convertFieldElementsVecToByteVec ((List.range (columns.headD (0, [])).2.length).flatMap
    (recoverRow points nPre columns)) size

section Rows

variable {encoding : LcEncoding F Err} {points fieldData m : List F} {nRows nPre nEnc : ℕ}
  {requested : List ℕ}

theorem length_paddedRow (nPre : ℕ) (fieldData : List F) (r : ℕ) :
    (paddedRow nPre nPre fieldData r).length = nPre := by
  have hle := length_row_le nPre fieldData r
  rw [paddedRow, List.length_append, List.length_replicate]
  omega

theorem getD_column_of_matrix (hencodes : EncodesAt encoding nEnc points)
    (hmatrix : EncodedMatrix encoding fieldData nRows nPre nEnc m) (hle : nPre ≤ nEnc) {c r : ℕ}
    (hc : c < nEnc) (hr : r < nRows) : (column nEnc nRows m c).getD r 0 =
      value (paddedRow nPre nPre fieldData r) (points.getD c 0) := by
  have hrow := length_row_le nPre fieldData r
  rw [getD_column hr, ← getD_row hc, hencodes.entry (by omega) (hmatrix.rows r hr) hc, paddedRow,
    value_append_zeros]

theorem recoverRow_eq (hencodes : EncodesAt encoding nEnc points)
    (hmatrix : EncodedMatrix encoding fieldData nRows nPre nEnc m) (hle : nPre ≤ nEnc)
    (hnodup : requested.Nodup) (hinside : ∀ c ∈ requested, c < nEnc)
    (henough : nPre ≤ requested.length) {r : ℕ} (hr : r < nRows) :
    recoverRow points nPre (requested.map fun c => (c, column nEnc nRows m c)) r =
      paddedRow nPre nPre fieldData r := by
  have hsamples : ((requested.map fun c => (c, column nEnc nRows m c)).map fun s =>
      (points.getD s.1 0, s.2.getD r 0)) = (requested.map fun c => points.getD c 0).map fun x =>
        (x, value (paddedRow nPre nPre fieldData r) x) := by
    rw [List.map_map, List.map_map]
    apply List.map_congr_left
    intro c hc
    exact Prod.ext rfl (getD_column_of_matrix hencodes hmatrix hle (hinside c hc) hr)
  have hpoints : (requested.map fun c => points.getD c 0).Nodup := by
    refine hnodup.map_on fun c hc d hd heq => ?_
    have hc := (hinside c hc).trans_eq hencodes.length_eq.symm
    have hd := (hinside d hd).trans_eq hencodes.length_eq.symm
    rw [List.getD_eq_getElem _ _ hc, List.getD_eq_getElem _ _ hd] at heq
    exact (hencodes.nodup.getElem_inj_iff).mp heq
  rw [recoverRow, hsamples]
  exact interpolate_values hpoints (by rwa [List.length_map]) (length_paddedRow ..)

theorem flatMap_paddedRow (hpre : 0 < nPre) (fieldData : List F) :
    (List.range (divCeil fieldData.length nPre)).flatMap (paddedRow nPre nPre fieldData) =
      fieldData ++ .replicate (divCeil fieldData.length nPre * nPre - fieldData.length) 0 := by
  have hge := le_divCeil_mul fieldData.length hpre
  have hrows : ∀ row ∈ (List.range (divCeil fieldData.length nPre)).map
      (paddedRow nPre nPre fieldData), row.length = nPre := by
    intro row hrow
    obtain ⟨r, -, rfl⟩ := List.mem_map.mp hrow
    exact length_paddedRow ..
  have hlen := length_flatten_rows hrows
  rw [List.length_map, List.length_range] at hlen
  rw [List.flatMap_def]
  apply ext_getD 0
  · rw [hlen, List.length_append, List.length_replicate, Nat.add_sub_cancel' hge]
  intro i
  rw [getD_append_zeros]
  refine getD_of_paddedRows hlen hge (fun r hr => ?_) i
  rw [row_flatten hrows (by rwa [List.length_map, List.length_range])]
  simp [hr]

end Rows

section Files

variable [DataField F] {encoding : LcEncoding F Err} {points m : List F} {nPre nEnc : ℕ}
  {requested : List ℕ} {file file' : List UInt8}

theorem recoverFile_eq (hencodes : EncodesAt encoding nEnc points) (hpre : 0 < nPre)
    (hmatrix : EncodedMatrix encoding (convertByteVecToFieldElementsVec file)
      (divCeil (convertByteVecToFieldElementsVec file : List F).length nPre) nPre nEnc m)
    (hle : nPre ≤ nEnc) (hnodup : requested.Nodup) (hinside : ∀ c ∈ requested, c < nEnc)
    (henough : nPre ≤ requested.length) :
    recoverFile points nPre file.length (requested.map fun c => (c, column nEnc
      (divCeil (convertByteVecToFieldElementsVec file : List F).length nPre) m c)) = file := by
  set data : List F := convertByteVecToFieldElementsVec file with hdata
  have hcount : ((requested.map fun c => (c, column nEnc (divCeil data.length nPre) m c)).headD
      (0, [])).2.length = divCeil data.length nPre := by
    obtain ⟨c, rest, rfl⟩ := List.exists_cons_of_length_pos (hpre.trans_le henough)
    exact length_column ..
  have hrows : (List.range (divCeil data.length nPre)).flatMap (recoverRow points nPre
      (requested.map fun c => (c, column nEnc (divCeil data.length nPre) m c))) =
        (List.range (divCeil data.length nPre)).flatMap (paddedRow nPre nPre data) := by
    refine List.flatMap_congr fun r hr => ?_
    exact recoverRow_eq hencodes hmatrix hle hnodup hinside henough (List.mem_range.mp hr)
  rw [recoverFile, hcount, hrows, flatMap_paddedRow hpre, convertFieldElementsVecToByteVec,
    fieldVecToByteVec_append, hdata, convertByteVecToFieldElementsVec, fieldVecToByteVec_eq,
    List.append_assoc]
  exact List.take_left' rfl

theorem getD_eq_of_elements_eq
    (h : ∀ i, (convertByteVecToFieldElementsVec file : List F).getD i 0 =
      (convertByteVecToFieldElementsVec file').getD i 0) (i : ℕ) :
    file.getD i 0 = file'.getD i 0 := by
  have hpadded : (fromByteVec (file ++ .replicate file'.length 0) : List F) =
      fromByteVec (file' ++ .replicate file.length 0) := by
    apply ext_getD 0
    · rw [length_fromByteVec, length_fromByteVec, List.length_append, List.length_append,
        List.length_replicate, List.length_replicate, Nat.add_comm]
    · intro i
      rw [fromByteVec_append_zeros, fromByteVec_append_zeros, getD_append_zeros, getD_append_zeros]
      exact h i
  have hsame := fromByteVec_injective (by simp [Nat.add_comm]) hpadded
  rw [← getD_append_zeros file file'.length i, hsame, getD_append_zeros]

/-- Enough columns in common leave no room for another file. -/
theorem same_file_of_columns (hencodes : EncodesAt encoding nEnc points) (hpre : 0 < nPre)
    {m' : List F} (hmatrix : EncodedMatrix encoding (convertByteVecToFieldElementsVec file)
      (divCeil (convertByteVecToFieldElementsVec file : List F).length nPre) nPre nEnc m)
    (hmatrix' : EncodedMatrix encoding (convertByteVecToFieldElementsVec file')
      (divCeil (convertByteVecToFieldElementsVec file' : List F).length nPre) nPre nEnc m')
    (hle : nPre ≤ nEnc) (hnodup : requested.Nodup) (hinside : ∀ c ∈ requested, c < nEnc)
    (henough : nPre ≤ requested.length) (hcolumns : ∀ c ∈ requested,
      column nEnc (divCeil (convertByteVecToFieldElementsVec file : List F).length nPre) m c =
        column nEnc (divCeil (convertByteVecToFieldElementsVec file' : List F).length nPre) m' c)
    (i : ℕ) : file.getD i 0 = file'.getD i 0 := by
  refine getD_eq_of_elements_eq (F := F) (fun j => ?_) i
  set data : List F := convertByteVecToFieldElementsVec file
  set data' : List F := convertByteVecToFieldElementsVec file'
  obtain ⟨c, hc⟩ := List.exists_mem_of_length_pos (hpre.trans_le henough)
  have hrows : divCeil data.length nPre = divCeil data'.length nPre := by
    have hlen := congrArg List.length (hcolumns c hc)
    rwa [length_column, length_column] at hlen
  have hsamples : (requested.map fun c => (c, column nEnc (divCeil data.length nPre) m c)) =
      requested.map fun c => (c, column nEnc (divCeil data'.length nPre) m' c) :=
    List.map_congr_left fun c hc => by rw [hcolumns c hc]
  have hflat : (List.range (divCeil data.length nPre)).flatMap (paddedRow nPre nPre data) =
      (List.range (divCeil data'.length nPre)).flatMap (paddedRow nPre nPre data') := by
    rw [hrows]
    refine List.flatMap_congr fun r hr => ?_
    have hr := List.mem_range.mp hr
    rw [← recoverRow_eq hencodes hmatrix hle hnodup hinside henough (hrows ▸ hr), hsamples,
      recoverRow_eq hencodes hmatrix' hle hnodup hinside henough hr]
  rw [flatMap_paddedRow hpre, flatMap_paddedRow hpre] at hflat
  rw [← getD_append_zeros data _ j, hflat, getD_append_zeros]

end Files

end FileRetrieval
