import ProofOfStorage.NetworkVersions
import ProofOfStorage.OnlinePolynomials
import ProofOfStorage.FileRows

/-! # The evaluations that the server returns

A left vector for rows of the encoded length spreads the coefficients of a file over more degrees
than they have. The evaluations for a reshape, an append and an edit use the length of the rows
before the encoding.
-/
namespace NetworkEvaluations

open FoundationFaults FoundationSlices FoundationPolynomials
open CommitmentTypes CommitmentProof OnlineColumns OnlineEvaluation OnlinePolynomials
open FileFields FileRows DataField NetworkMessages NetworkServer NetworkVersions

variable {D : Digest} {F Err : Type} [Field F] [DataField F]

/-- A result vector, decoded and multiplied with the powers of the point, gives the value of the
polynomial of a file. -/
def EvaluatesFile (env : Environment F) (nPerRow : ℕ) (file : List UInt8) (x : F)
    (result : List F) : Prop :=
  ∃ decoded, decodeRow env.fft result = .ok decoded ∧
    vectorMultiply decoded ((List.range nPerRow).map (x ^ ·)) =
      evaluateFieldPolynomialAtPoint (convertByteVecToFieldElementsVec file) x

def resultVectors : ServerMessages D F Err → List (List F)
  | .polynomialEvaluation evaluationResult => [evaluationResult]
  | .reshapeEvaluation _ originalResultVector _ newResultVector _ =>
    [originalResultVector, newResultVector]
  | .appendEvaluation originalResultVector _ newResultVector _ _ =>
    [originalResultVector, newResultVector]
  | .editEvaluation originalResultVector _ newResultVector _ _ =>
    [originalResultVector, newResultVector]
  | _ => []

def EvaluatesFiles (env : Environment F) (stored : List (FileMetadata D × List UInt8)) (x : F)
    (response : ServerMessages D F env.fft.Err) : Prop :=
  List.Forall₂ (fun s result => EvaluatesFile env s.1.numColumns s.2 x result) stored
    (resultVectors response)

/-- The shape in a record is one that the encoding admits. -/
structure ValidShape (env : Environment F) (fileMetadata : FileMetadata D) : Prop where
  columns_pos : 1 ≤ fileMetadata.numColumns
  word : fileMetadata.numEncodedColumns < 2 ^ 64
  encoding : ∃ encoding, (newFromDims env.fft fileMetadata.numColumns
    fileMetadata.numEncodedColumns : Fallible (ConversionError env.fft.Err) _) = .ok encoding

/-- The elements of a file in rows: powers of `x` along a row, powers of `y` across the rows. -/
def valueByRows (pre : ℕ) (file : List UInt8) (y x : F) : F :=
  matrixValue (divCeil file.length (rowBytes F pre)) pre (convertByteVecToFieldElementsVec file) y x

section Vectors

variable {env : Environment F} {file : List UInt8} {pre enc : ℕ} {comm : LcCommit D F}

theorem rows_of_file (hpre : 1 ≤ pre) (file : List UInt8) :
    divCeil (convertByteVecToFieldElementsVec file : List F).length pre =
      divCeil file.length (rowBytes F pre) := by
  rw [convertByteVecToFieldElementsVec, length_fromByteVec, divCeil_divCeil _ capacity_pos hpre,
    rowBytes]

theorem evaluate_eq_valueByRows (hpre : 1 ≤ pre) (file : List UInt8) (x : F) :
    evaluateFieldPolynomialAtPoint (convertByteVecToFieldElementsVec file) x =
      valueByRows pre file (x ^ pre) x := by
  rw [evaluateFieldPolynomialAtPoint_eq, valueByRows, ← rows_of_file hpre]
  exact value_rows (le_divCeil_mul _ hpre) x

theorem evaluation_of_commitOf (hfft : FftLaws env.fft)
    (h : commitOf env D (convertByteVecToFieldElementsVec file) pre enc = .ok comm) (stride : ℕ)
    (x : F) : ∃ result decoded,
      (∀ {ε : Type}, (verifiablePolynomialEvaluation comm
        (formSideVectorsForPolynomialEvaluationFromPoint x comm.nRows stride).1 : Fallible ε _) =
          .ok result) ∧
      decodeRow env.fft result = .ok decoded ∧
      vectorMultiply decoded ((List.range pre).map (x ^ ·)) =
        valueByRows pre file (x ^ stride) x := by
  obtain ⟨hpre, hrows, hper, hcols⟩ := shape_of_commitOf h
  obtain ⟨-, -, encoding, hencoding, hcommit⟩ := commitOf_eq_ok.mp h
  obtain ⟨hcommitted, hentries⟩ := commit_eq_ok hcommit
  obtain ⟨result, decoded, hresult, hdecoded, hvalue, -⟩ :=
    decode_evaluation hfft hencoding hcommitted hper hcols hentries (x ^ stride) x
  refine ⟨result, decoded, ?_, hdecoded, ?_⟩
  · intro ε
    rw [formSideVectors_eq]
    exact hresult
  · rw [hvalue, valueByRows, hrows, rows_of_file hpre]

theorem evaluateCommit_evaluatesFile (hfft : FftLaws env.fft)
    (h : commitOf env D (convertByteVecToFieldElementsVec file) pre enc = .ok comm) {x : F}
    {columns : List ℕ} {out : List F × List (LcColumn D F)}
    (hout : evaluateCommit env comm x columns = .ok out) : EvaluatesFile env pre file x out.1 := by
  obtain ⟨hpre, -, hper, -⟩ := shape_of_commitOf h
  obtain ⟨result, decoded, hresult, hdecoded, hvalue⟩ := evaluation_of_commitOf hfft h pre x
  unfold evaluateCommit at hout
  rw [hper] at hout
  obtain ⟨result', hresult', hout⟩ := bind_eq_ok.mp hout
  obtain ⟨opened, -, hout⟩ := bind_eq_ok.mp hout
  obtain rfl := Except.ok.inj hout
  obtain rfl := Except.ok.inj (hresult.symm.trans hresult')
  exact ⟨decoded, hdecoded, hvalue.trans (evaluate_eq_valueByRows hpre file x).symm⟩

end Vectors

section Handlers

variable {env : Environment F} {old new fileMetadata : FileMetadata D} {t t' : Server D}
  {file oldFile newFile : List UInt8} {x : F} {columns : List ℕ}
  {response : ServerMessages D F env.fft.Err}

theorem reshape_evaluatesFiles (hfft : FftLaws env.fft) (hfile : t.disk old.idUlid = some file)
    {original expanded : List ℕ}
    (h : (handleClientRequestReshapeEvaluation env old new x original expanded).run t =
      .ok response t') : EvaluatesFiles env [(old, file), (new, file)] x response := by
  unfold handleClientRequestReshapeEvaluation at h
  iterate 2 obtain ⟨_, -, h⟩ := run_lift_bind_ok.mp h
  obtain ⟨file', hfile', h⟩ := run_read_bind_ok.mp h
  obtain rfl := Option.some.inj (hfile.symm.trans hfile')
  obtain ⟨oldCommit, holdCommit, h⟩ := run_lift_bind_ok.mp h
  obtain ⟨newCommit, hnewCommit, h⟩ := run_lift_bind_ok.mp h
  obtain ⟨oldOut, holdOut, h⟩ := run_lift_bind_ok.mp h
  obtain ⟨newOut, hnewOut, h⟩ := run_lift_bind_ok.mp h
  obtain rfl := (run_pure_ok.mp h).1
  exact .cons (evaluateCommit_evaluatesFile hfft holdCommit holdOut)
    (.cons (evaluateCommit_evaluatesFile hfft hnewCommit hnewOut) .nil)

theorem appendOrEdit_evaluatesFiles (hfft : FftLaws env.fft)
    (hold : t.disk old.idUlid = some oldFile) (hnew : t.disk new.idUlid = some newFile)
    {range : Option (ℕ × ℕ)}
    (h : (handleClientAppendOrEditEvalRequest env old new x columns range).run t =
      .ok response t') : EvaluatesFiles env [(old, oldFile), (new, newFile)] x response := by
  unfold handleClientAppendOrEditEvalRequest at h
  iterate 2 obtain ⟨_, -, h⟩ := run_lift_bind_ok.mp h
  obtain ⟨oldFile', hold', h⟩ := run_read_bind_ok.mp h
  obtain rfl := Option.some.inj (hold.symm.trans hold')
  obtain ⟨newFile', hnew', h⟩ := run_read_bind_ok.mp h
  obtain rfl := Option.some.inj (hnew.symm.trans hnew')
  obtain ⟨oldCommit, holdCommit, h⟩ := run_lift_bind_ok.mp h
  obtain ⟨newCommit, hnewCommit, h⟩ := run_lift_bind_ok.mp h
  obtain ⟨oldOut, holdOut, h⟩ := run_lift_bind_ok.mp h
  obtain ⟨newOut, hnewOut, h⟩ := run_lift_bind_ok.mp h
  have hevaluates : List.Forall₂ (fun (s : FileMetadata D × List UInt8) result =>
        EvaluatesFile env s.1.numColumns s.2 x result)
      [(old, oldFile), (new, newFile)] [oldOut.1, newOut.1] :=
    .cons (evaluateCommit_evaluatesFile hfft holdCommit holdOut)
      (.cons (evaluateCommit_evaluatesFile hfft hnewCommit hnewOut) .nil)
  cases range with
  | none =>
    obtain ⟨row, -, h⟩ := run_lift_bind_ok.mp h
    obtain rfl := (run_pure_ok.mp h).1
    exact hevaluates
  | some range =>
    obtain ⟨rows, -, h⟩ := run_lift_bind_ok.mp h
    obtain rfl := (run_pure_ok.mp h).1
    exact hevaluates

/-- The powers across the rows are those of the encoded length. -/
theorem polynomialEvaluation_eq_valueByRows (hfft : FftLaws env.fft)
    (hfile : t.disk fileMetadata.idUlid = some file)
    (h : (handleClientRequestPolynomialEvaluation env fileMetadata x).run t = .ok response t') :
    1 ≤ fileMetadata.numColumns ∧ ∃ result decoded, resultVectors response = [result] ∧
      decodeRow env.fft result = .ok decoded ∧
      vectorMultiply decoded ((List.range fileMetadata.numColumns).map (x ^ ·)) =
        valueByRows fileMetadata.numColumns file (x ^ fileMetadata.numEncodedColumns) x := by
  unfold handleClientRequestPolynomialEvaluation at h
  obtain ⟨_, -, h⟩ := run_lift_bind_ok.mp h
  obtain ⟨file', hfile', h⟩ := run_read_bind_ok.mp h
  obtain rfl := Option.some.inj (hfile.symm.trans hfile')
  obtain ⟨commit, hcommit, h⟩ := run_lift_bind_ok.mp h
  obtain ⟨hpre, -, -, hcols⟩ := shape_of_commitOf hcommit
  obtain ⟨result, decoded, hresult, hdecoded, hvalue⟩ :=
    evaluation_of_commitOf hfft hcommit fileMetadata.numEncodedColumns x
  rw [hcols] at h
  obtain ⟨result', hresult', h⟩ := run_lift_bind_ok.mp h
  obtain rfl := (run_pure_ok.mp h).1
  obtain rfl := Except.ok.inj (hresult.symm.trans hresult')
  exact ⟨hpre, result, decoded, rfl, hdecoded, hvalue⟩

theorem polynomialEvaluation_total (hfft : FftLaws env.fft) (hshape : ValidShape env fileMetadata)
    (hfile : t.disk fileMetadata.idUlid = some file) (hne : file ≠ []) (x : F) :
    ∃ response, (handleClientRequestPolynomialEvaluation env fileMetadata x).run t =
      .ok response t := by
  obtain ⟨encoding, hencoding⟩ := hshape.encoding
  have helements : (convertByteVecToFieldElementsVec file : List F) ≠ [] := by
    rw [convertByteVecToFieldElementsVec, fromByteVec_cons hne]
    exact List.cons_ne_nil _ _
  obtain ⟨comm, hcomm, -⟩ :=
    commit_ligero (D := D) helements hshape.columns_pos hshape.word hencoding
  have hcommit := commitOf_eq_ok.mpr ⟨helements, hshape.columns_pos, encoding, hencoding, hcomm⟩
  obtain ⟨-, -, -, hcols⟩ := shape_of_commitOf hcommit
  obtain ⟨result, -, hresult, -⟩ :=
    evaluation_of_commitOf hfft hcommit fileMetadata.numEncodedColumns x
  refine ⟨.polynomialEvaluation result, run_lift_bind_ok.mpr ⟨(), rfl, ?_⟩⟩
  refine run_read_bind_ok.mpr ⟨file, hfile, run_lift_bind_ok.mpr ⟨comm, hcommit, ?_⟩⟩
  rw [hcols]
  exact run_lift_bind_ok.mpr ⟨result, hresult, rfl⟩

end Handlers

section Exactness

variable {env : Environment F} {fileMetadata : FileMetadata D} {t t' : Server D}
  {file : List UInt8} {x : F} {response : ServerMessages D F env.fft.Err}

theorem polynomialEvaluation_evaluates_iff (hfft : FftLaws env.fft)
    (hfile : t.disk fileMetadata.idUlid = some file)
    (h : (handleClientRequestPolynomialEvaluation env fileMetadata x).run t = .ok response t') :
    EvaluatesFiles env [(fileMetadata, file)] x response ↔
      valueByRows fileMetadata.numColumns file (x ^ fileMetadata.numEncodedColumns) x =
        valueByRows fileMetadata.numColumns file (x ^ fileMetadata.numColumns) x := by
  obtain ⟨hpre, result, decoded, hresult, hdecoded, hvalue⟩ :=
    polynomialEvaluation_eq_valueByRows hfft hfile h
  rw [← hvalue, ← evaluate_eq_valueByRows hpre]
  constructor
  · intro hevaluates
    rw [EvaluatesFiles, hresult] at hevaluates
    rcases hevaluates with _ | ⟨⟨decoded', hdecoded', hproduct⟩, -⟩
    obtain rfl := Except.ok.inj (hdecoded.symm.trans hdecoded')
    exact hproduct
  · intro hproduct
    rw [EvaluatesFiles, hresult]
    exact .cons ⟨decoded, hdecoded, hproduct⟩ .nil

/-- All answers to requests for the evaluation of files of one length are right. -/
def EvaluationsRight (env : Environment F) (fileMetadata : FileMetadata D) (len : ℕ) (x : F) :
    Prop :=
  ∀ (file : List UInt8) (t t' : Server D) (response : ServerMessages D F env.fft.Err),
    file.length = len → t.disk fileMetadata.idUlid = some file →
    (handleClientRequestPolynomialEvaluation env fileMetadata x).run t = .ok response t' →
    EvaluatesFiles env [(fileMetadata, file)] x response

def startingSecondRow (F : Type) [Field F] [DataField F] (pre k : ℕ) (byte : UInt8) :
    List UInt8 :=
  .replicate (rowBytes F pre) 0 ++ byte :: .replicate k 0

theorem fromByteVec_startingSecondRow (pre k : ℕ) : ∃ before after : List F,
    before.length = pre ∧ ∀ byte, ∃ e,
      fromByteVec (startingSecondRow F pre k byte) = before ++ e :: after := by
  refine ⟨fromByteVec (.replicate (rowBytes F pre) 0),
    fromByteVec ((List.replicate k 0).drop (dataByteCapacity F - 1)), ?_, fun byte => ?_⟩
  · rw [length_fromByteVec, List.length_replicate, rowBytes, divCeil_mul _ capacity_pos]
  · have hdvd : dataByteCapacity F ∣ (List.replicate (rowBytes F pre) (0 : UInt8)).length := by
      rw [List.length_replicate]
      exact Nat.dvd_mul_left _ _
    have hdrop (l : List UInt8) : (byte :: l).drop (dataByteCapacity F) =
        l.drop (dataByteCapacity F - 1) := by
      rw [List.drop_cons capacity_pos]
    rw [startingSecondRow, fromByteVec_append hdvd, fromByteVec_cons (List.cons_ne_nil _ _), hdrop]
    exact ⟨_, rfl⟩

/-- Two files that differ in the byte that starts the second row tell the strides apart. -/
theorem powers_eq_of_evaluationsRight {len : ℕ} (hfft : FftLaws env.fft)
    (hshape : ValidShape env fileMetadata)
    (hrows : rowBytes F fileMetadata.numColumns < len)
    (h : EvaluationsRight env fileMetadata len x) :
    x ^ fileMetadata.numEncodedColumns = x ^ fileMetadata.numColumns := by
  have hpre := hshape.columns_pos
  set file := startingSecondRow F fileMetadata.numColumns
    (len - rowBytes F fileMetadata.numColumns - 1) with hfile
  have hlen (byte : UInt8) : (file byte).length = len := by
    rw [hfile, startingSecondRow, List.length_append, List.length_cons, List.length_replicate,
      List.length_replicate]
    omega
  have hvalues (byte : UInt8) :
      valueByRows fileMetadata.numColumns (file byte) (x ^ fileMetadata.numEncodedColumns) x =
        valueByRows fileMetadata.numColumns (file byte) (x ^ fileMetadata.numColumns) x := by
    have hne : file byte ≠ [] := List.ne_nil_of_length_pos (by rw [hlen]; omega)
    let t : Server D := ⟨fun _ => some (file byte), fun _ => none, 0⟩
    obtain ⟨response, hrun⟩ := polynomialEvaluation_total (t := t) hfft hshape rfl hne x
    exact (polynomialEvaluation_evaluates_iff hfft rfl hrun).mp
      (h (file byte) t t response (hlen byte) rfl hrun)
  have htwo : 1 < divCeil len (rowBytes F fileMetadata.numColumns) := by
    rw [lt_divCeil_iff (rowBytes_pos hpre), Nat.one_mul]
    exact hrows
  obtain ⟨before, after, hbefore, helements⟩ := fromByteVec_startingSecondRow (F := F)
    fileMetadata.numColumns (len - rowBytes F fileMetadata.numColumns - 1)
  obtain ⟨e, he⟩ := helements 0
  obtain ⟨e', he'⟩ := helements 1
  have hdiffer : e ≠ e' := by
    rintro rfl
    have hequal := fromByteVec_injective ((hlen 0).trans (hlen 1).symm) (he.trans he'.symm)
    simp [hfile, startingSecondRow] at hequal
  have hzero := hvalues 0
  have hone := hvalues 1
  simp only [valueByRows, hlen, convertByteVecToFieldElementsVec] at hzero hone
  rw [hfile, he] at hzero
  rw [hfile, he'] at hone
  refine powers_eq_of_matrixValue_eq htwo hpre (fun i hi => ?_) ?_ hzero hone
  · exact getD_append_cons_of_ne (hbefore ▸ hi) after e e' 0
  · rw [← hbefore, getD_append_cons, getD_append_cons]
    exact hdiffer

/-- The evaluations for a reshape, an append and an edit are of the files' polynomials. The other
evaluation is so for every file of a length exactly when one row holds the file or the point has
the same power for both row lengths. -/
theorem evaluations_of_files (hfft : FftLaws env.fft) :
    (∀ (old new : FileMetadata D) (file : List UInt8) (x : F) (original expanded : List ℕ)
      (t t' : Server D) (response : ServerMessages D F env.fft.Err),
      t.disk old.idUlid = some file →
      (handleClientRequestReshapeEvaluation env old new x original expanded).run t =
        .ok response t' →
      EvaluatesFiles env [(old, file), (new, file)] x response) ∧
    (∀ (old new : FileMetadata D) (oldFile newFile : List UInt8) (x : F) (columns : List ℕ)
      (range : Option (ℕ × ℕ)) (t t' : Server D) (response : ServerMessages D F env.fft.Err),
      t.disk old.idUlid = some oldFile → t.disk new.idUlid = some newFile →
      (handleClientAppendOrEditEvalRequest env old new x columns range).run t = .ok response t' →
      EvaluatesFiles env [(old, oldFile), (new, newFile)] x response) ∧
    ∀ (fileMetadata : FileMetadata D) (len : ℕ) (x : F), ValidShape env fileMetadata →
      (EvaluationsRight env fileMetadata len x ↔ len ≤ rowBytes F fileMetadata.numColumns ∨
        x ^ fileMetadata.numEncodedColumns = x ^ fileMetadata.numColumns) := by
  refine ⟨?_, ?_, ?_⟩
  · intro old new file x original expanded t t' response hfile hrun
    exact reshape_evaluatesFiles hfft hfile hrun
  · intro old new oldFile newFile x columns range t t' response hold hnew hrun
    exact appendOrEdit_evaluatesFiles hfft hold hnew hrun
  intro fileMetadata len x hshape
  constructor
  · intro h
    rcases Nat.lt_or_ge (rowBytes F fileMetadata.numColumns) len with hrows | hrow
    · exact .inr (powers_eq_of_evaluationsRight hfft hshape hrows h)
    · exact .inl hrow
  · intro h file t t' response hlen hfile hrun
    apply (polynomialEvaluation_evaluates_iff hfft hfile hrun).mpr
    rcases h with hrow | hpowers
    · refine matrixValue_of_le_one ?_ ..
      rw [divCeil_le_iff (rowBytes_pos hshape.columns_pos), Nat.one_mul, hlen]
      exact hrow
    · rw [hpowers]

def butterflyEnvironment : Environment (ZMod 257) := { fermatEnvironment with fft := butterfly }

theorem validShape_butterfly (numRows filesizeInBytes : ℕ) (root : UInt8) :
    ValidShape butterflyEnvironment (firstUpload numRows 1 2 filesizeInBytes root) where
  columns_pos := le_rfl
  word := show 2 < 2 ^ 64 by decide
  encoding := ⟨_, rfl⟩

theorem evaluations_of_short_files :
    EvaluationsRight butterflyEnvironment (firstUpload 1 1 2 1 1) 1 2 ∧
      ¬EvaluationsRight butterflyEnvironment (firstUpload 2 1 2 2 2) 2 2 := by
  have hfft : FftLaws butterflyEnvironment.fft := butterfly_laws
  obtain ⟨-, -, hiff⟩ := evaluations_of_files (D := byteSum) hfft
  constructor
  · exact (hiff _ 1 2 (validShape_butterfly 1 1 1)).mpr (.inl (by decide))
  · rw [hiff _ 2 2 (validShape_butterfly 2 2 2)]
    decide

/-- The bytes 0 and 1 have the value 2 at the point 2. -/
theorem two_rows_misvalued : Stored (holding (firstUpload 2 1 2 2 2) [0, 1])
      (firstUpload 2 1 2 2 2) [0, 1] ∧ ∃ response, (handleClientRequestPolynomialEvaluation
    butterflyEnvironment (firstUpload 2 1 2 2 2) 2).run (holding (firstUpload 2 1 2 2 2) [0, 1]) =
      .ok response (holding (firstUpload 2 1 2 2 2) [0, 1]) ∧
    ¬EvaluatesFiles butterflyEnvironment [(firstUpload 2 1 2 2 2, [0, 1])] 2 response := by
  have hstored := stored_holding (firstUpload 2 1 2 2 2) [0, 1]
  have hfft : FftLaws butterflyEnvironment.fft := butterfly_laws
  obtain ⟨response, hrun⟩ :=
    polynomialEvaluation_total hfft (validShape_butterfly 2 2 2) hstored.disk (by decide) 2
  refine ⟨hstored, response, hrun, ?_⟩
  rw [polynomialEvaluation_evaluates_iff hfft hstored.disk hrun]
  decide +kernel

end Exactness

end NetworkEvaluations
