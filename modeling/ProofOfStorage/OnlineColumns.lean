import ProofOfStorage.CommitmentProof

/-! # Checking a stored file by some of its columns

The client encodes its own copy of the file, hashes the columns it asks for and compares them
with the columns the server sends. The field's Fourier transform comes from another crate.
-/
namespace OnlineColumns

open FoundationFaults FoundationSlices CommitmentTypes CommitmentMerkle CommitmentProof

variable {D : Digest} {F : Type} [Field F] [PrimeField F]

/-- The transforms work in place on a slice. One with a precomputation fails only on a slice of
another length. -/
structure FieldFFT (F : Type) where
  Err : Type
  Precomp : Type
  flog2 : ℕ
  getLogLen : Precomp → ℕ
  precompFft : ℕ → Fallible Err Precomp
  fftIoPc : Precomp → List F → Fallible Err (List F)
  ifftOi : List F → Fallible Err (List F)
  length_fftIoPc : ∀ {pc v w}, fftIoPc pc v = .ok w → w.length = v.length
  length_ifftOi : ∀ {v w}, ifftOi v = .ok w → w.length = v.length
  fftIoPc_total : ∀ {pc v}, v.length = 2 ^ getLogLen pc → ∃ w, fftIoPc pc v = .ok w

def bitReverse : ℕ → ℕ → ℕ
  | 0, _ => 0
  | k + 1, j => j % 2 * 2 ^ k + bitReverse k (j / 2)

/-- The `2 ^ k`-th roots of unity modulo the Fermat prime 257, squares of each other. -/
def fermatRoot (k : ℕ) : ZMod 257 := [1, 256, 241, 64, 249, 136, 81, 9, 3].getD k 0

/-- The transform: the values at the powers of a root of unity, in bit-reversed order. -/
def fermatFft : FieldFFT (ZMod 257) where
  Err := Unit
  Precomp := ℕ
  flog2 := 8
  getLogLen k := k
  precompFft len := if isPowerOfTwo len ∧ len ≤ 256 then .ok (log2 len) else fail ()
  fftIoPc k v :=
    if v.length = 2 ^ k then .ok ((List.range v.length).map fun j =>
      ((List.range v.length).map fun i => v.getD i 0 * fermatRoot k ^ (i * bitReverse k j)).sum)
    else fail ()
  ifftOi v :=
    let k := log2 v.length
    if v.length = 2 ^ k then .ok ((List.range v.length).map fun i =>
      (257 - 2 ^ (8 - k) : ℕ) * ((List.range v.length).map fun j =>
        v.getD j 0 * fermatRoot k ^ ((v.length - i) * bitReverse k j)).sum)
    else fail ()
  length_fftIoPc {pc v w} h := by
    split at h
    · rw [← Except.ok.inj h, List.length_map, List.length_range]
    · cases h
  length_ifftOi {v w} h := by
    simp only at h
    split at h
    · rw [← Except.ok.inj h, List.length_map, List.length_range]
    · cases h
  fftIoPc_total h := ⟨_, if_pos h⟩

section Ligero

variable (fft : FieldFFT F)

/-- Panics unless the logarithm of the length is below that of the field. -/
def nDegreeTests {ε : Type} (lambda len flog2 : ℕ) : Fallible ε ℕ := do
  let den ← checkedSub flog2 (log2 len)
  assert (den ≠ 0)
  return (lambda + den - 1) / den

/-- `ceil(-128 / log2((1 + 1/2) / 2))`, the openings for rate one half. -/
def nColOpens : ℕ := 309

def ligeroDimsOk (nPerRow nCols : ℕ) : Bool := nPerRow < nCols && isPowerOfTwo nCols

/-- The label macro does not substitute inside its string literals. Where the number of tests
panics, which ends every proof and every check, it stands at zero. -/
def ligeroEncoding (nPerRow nCols : ℕ) (pc : fft.Precomp) : LcEncoding F fft.Err where
  labelDT := "$l//DT".toUTF8.toList
  labelPR := "$l//PR".toUTF8.toList
  labelPE := "$l//PE".toUTF8.toList
  labelCO := "$l//CO".toUTF8.toList
  encode := fft.fftIoPc pc
  length_encode := fft.length_fftIoPc
  getDims len := ((len + nPerRow - 1) / nPerRow, nPerRow, nCols)
  dimsOk n m := ligeroDimsOk n m && m == 2 ^ fft.getLogLen pc && n == nPerRow && m == nCols
  getNColOpens := nColOpens
  getNDegreeTests := (nDegreeTests 128 nCols fft.flog2 : Fallible Empty ℕ).toOption.getD 0

def newFromDims {ε : Type} (nPerRow nCols : ℕ) : Fallible ε (LcEncoding F fft.Err) := do
  assert (ligeroDimsOk nPerRow nCols = true)
  let pc ← unwrap (fft.precompFft nCols)
  assert (nCols = 2 ^ fft.getLogLen pc)
  return ligeroEncoding fft nPerRow nCols pc

end Ligero

def dimsOk (numPreEncodedColumns numEncodedColumns : ℕ) : Bool :=
  let encColPower2 := isPowerOfTwo numEncodedColumns
  let bigEnough := 1 ≤ numPreEncodedColumns && 2 ≤ numEncodedColumns
  let rhoGreaterThan1 := 2 * numPreEncodedColumns ≤ numEncodedColumns
  encColPower2 && bigEnough && rhoGreaterThan1

inductive CommitRequestType where
  | commit
  | leaves (requestedLeaves : List ℕ)
  | columnsWithPath (requestedColumns : List ℕ)
  | columnsWithoutPath (requestedColumns : List ℕ)

inductive CommitDimensions where
  | specified (numPreEncodedColumns numEncodedColumns : ℕ)
  | square

inductive CommitOrLeavesOutput (D : Digest) (F : Type) where
  | commit (comm : LcCommit D F)
  | leaves (digests : List D.Output)
  | columnsWithPath (columns : List (LcColumn D F))
  | columnsWithoutPath (columns : List (List F))

inductive ConversionError (Err : Type) where
  | message (text : String)
  | prover (e : ProverError Err)
  | fft (e : Err)

/-- `x & (x - 1) == 0`, which panics at zero. -/
def isPowerOfTwoBits {ε : Type} (x : ℕ) : Fallible ε Bool := do
  return x &&& (← checkedSub x 1) == 0

section Conversion

variable (fft : FieldFFT F)

/-- The two column counts; `sqrtCeil` is the square root in single precision, rounded up. -/
def matrixDimensions (sqrtCeil : ℕ → ℕ) (dataLen : ℕ) :
    CommitDimensions → Fallible (ConversionError fft.Err) (ℕ × ℕ)
  | .specified numPreEncodedColumns numEncodedColumns => do
    ensure (numPreEncodedColumns ≥ 1) (.message
      s!"Number of pre-encoded columns must be greater than 0, instead got {numPreEncodedColumns}")
    ensure (numEncodedColumns ≥ 2) (.message
      s!"Number of pencoded columns must be greater than 0, instead got {numEncodedColumns}")
    ensure (isPowerOfTwo numEncodedColumns = true) (.message
      s!"Number of encoded columns must be a power of 2, instead got ratio of {numPreEncodedColumns}/{numEncodedColumns}")
    ensure (numEncodedColumns > numPreEncodedColumns) (.message
      "Number of encoded columns must be greater than the number of columns")
    return (numPreEncodedColumns, numEncodedColumns)
  | .square => do
    let dataMinWidth := sqrtCeil dataLen
    let numPreEncodedColumns :=
      if ← isPowerOfTwoBits dataMinWidth then dataMinWidth else nextPowerOfTwo dataMinWidth
    return (numPreEncodedColumns, nextPowerOfTwo (numPreEncodedColumns + 1))

def encodedCoefs {Err : Type} (encoding : LcEncoding F Err) (fieldData : List F)
    (numMatrixRows numPreEncodedColumns numEncodedColumns : ℕ) :
    Fallible (ConversionError Err) (List F) := do
  let coeffsWithPadding ← zipChunks numPreEncodedColumns numPreEncodedColumns copyFromSlice
    (.replicate (numMatrixRows * numPreEncodedColumns) 0) fieldData
  zipChunks numEncodedColumns numPreEncodedColumns
    (fun r c => do mapErr .fft (encoding.encode (← copyFromSlice r c)))
    (.replicate (numMatrixRows * numEncodedColumns) 0) coeffsWithPadding

def convertFileDataToCommit (D : Digest) (sqrtCeil : ℕ → ℕ) (fieldData : List F)
    (whatToExtract : CommitRequestType) (dimensions : CommitDimensions) :
    Fallible (ConversionError fft.Err) (CommitOrLeavesOutput D F) := do
  let dataLen := fieldData.length
  ensure (dataLen > 0) (.message "Cannot convert empty file to commit")
  let (numPreEncodedColumns, numEncodedColumns) ← matrixDimensions fft sqrtCeil dataLen dimensions
  let numMatrixRows := divCeil dataLen numPreEncodedColumns
  let encoding ← newFromDims fft numPreEncodedColumns numEncodedColumns
  match whatToExtract with
  | .commit => return .commit (← mapErr .prover (commit D fieldData encoding))
  | .leaves requestedLeaves =>
    let coefs ← encodedCoefs encoding fieldData numMatrixRows numPreEncodedColumns numEncodedColumns
    let digests ← (List.range numMatrixRows).foldlM
      (fun digests row => feedRow coefs
        (requestedLeaves.map fun columnIndex => row * numEncodedColumns + columnIndex) digests)
      (List.replicate requestedLeaves.length (Hasher.newColumn : Hasher D))
    return .leaves (digests.map Hasher.finalize)
  | .columnsWithoutPath requestedColumns =>
    let coefs ← encodedCoefs encoding fieldData numMatrixRows numPreEncodedColumns numEncodedColumns
    let columns ← (List.range numMatrixRows).foldlM
      (fun columns row => (columns.zip requestedColumns).mapM fun p => do
        return p.1 ++ [← index coefs (row * numEncodedColumns + p.2)])
      (List.replicate requestedColumns.length [])
    return .columnsWithoutPath columns
  | .columnsWithPath requestedColumns =>
    let commit ← mapErr .prover (commit D fieldData encoding)
    return .columnsWithPath (← requestedColumns.mapM fun columnIndex =>
      unwrap (openColumn commit columnIndex : Fallible (ProverError fft.Err) _))

end Conversion

def hashFieldVecToDigest (D : Digest) (column : List F) : D.Output :=
  (column.foldl (fun hasher e => digestUpdate e hasher) (Hasher.newColumn : Hasher D)).finalize

def hashColumnToDigest (column : LcColumn D F) : D.Output := hashFieldVecToDigest D column.col

/-- Columns that fail to open stop the server. -/
def serverRetreiveColumns {ε : Type} (comm : LcCommit D F) (requestedColumns : List ℕ) :
    Fallible ε (List (LcColumn D F)) :=
  requestedColumns.mapM fun columnIndex =>
    unwrap (openColumn comm columnIndex : Fallible (ProverError Empty) _)

section Verification

variable {Err : Type}

def clientOnlineVerifyColumnPaths (commitmentRoot : LcRoot D) (requestedColumns : List ℕ)
    (receivedColumns : List (LcColumn D F)) : Fallible (VerifierError Err) Unit := do
  ensure (receivedColumns.length = requestedColumns.length) .columnEval
  (requestedColumns.zip receivedColumns).forM fun p =>
    ensure (verifyColumnPath p.2 p.1 commitmentRoot.root = true) .columnEval

def clientOnlineVerifyColumnPathsWithoutFullColumns (commitmentRoot : LcRoot D)
    (requestedColumns : List ℕ) (receivedColumnsDigests : List D.Output)
    (receivedColumnPaths : List (List D.Output)) : Fallible (VerifierError Err) Unit := do
  ensure (receivedColumnPaths.length = requestedColumns.length) .columnEval
  ((requestedColumns.zip receivedColumnPaths).zip receivedColumnsDigests).forM fun p =>
    ensure (walkPath p.2 p.1.1 p.1.2 = commitmentRoot.root) .columnEval

def clientOnlineVerifyColumnLeaves (locallyDerivedColumnLeaves : List D.Output)
    (requestedColumns : List ℕ) (receivedColumnLeaves : List D.Output) :
    Fallible (VerifierError Err) Unit := do
  ensure (locallyDerivedColumnLeaves.length = requestedColumns.length ∧
    receivedColumnLeaves.length = requestedColumns.length) .numColOpens
  let leavesOk := (locallyDerivedColumnLeaves.zip receivedColumnLeaves).all fun p => p.1 == p.2
  ensure (leavesOk = true) .numColOpens

def clientVerifyCommitment (commitmentRoot : LcRoot D)
    (locallyDerivedColumnLeaves : List D.Output) (requestedColumns : List ℕ)
    (receivedColumns : List (LcColumn D F)) (requiredColumnsForSoundness : ℕ) :
    Fallible (VerifierError Err) Unit := do
  ensure (locallyDerivedColumnLeaves.length ≤ requiredColumnsForSoundness ∧
    requestedColumns.length ≤ requiredColumnsForSoundness ∧
    receivedColumns.length ≤ requiredColumnsForSoundness) .numColOpens
  let receivedColumnsLeaves := receivedColumns.map hashColumnToDigest
  clientOnlineVerifyColumnLeaves locallyDerivedColumnLeaves requestedColumns receivedColumnsLeaves
  clientOnlineVerifyColumnPaths commitmentRoot requestedColumns receivedColumns

def clientVerifyCommitmentWithoutFullColumns (commitmentRoot : LcRoot D)
    (locallyDerivedColumnLeaves : List D.Output) (requestedColumns : List ℕ)
    (receivedColumnDigests : List D.Output) (receivedColumnPaths : List (List D.Output))
    (requiredColumnsForSoundness : ℕ) : Fallible (VerifierError Err) Unit := do
  ensure (locallyDerivedColumnLeaves.length ≤ requiredColumnsForSoundness ∧
    requestedColumns.length ≤ requiredColumnsForSoundness ∧
    receivedColumnDigests.length ≤ requiredColumnsForSoundness) .numColOpens
  clientOnlineVerifyColumnLeaves locallyDerivedColumnLeaves requestedColumns receivedColumnDigests
  clientOnlineVerifyColumnPathsWithoutFullColumns commitmentRoot requestedColumns
    receivedColumnDigests receivedColumnPaths

end Verification

/-- The matrix of a file: row `r` is the encoding of the file's zero-padded row. -/
structure EncodedMatrix {Err : Type} (encoding : LcEncoding F Err) (fieldData : List F)
    (nRows nPre nEnc : ℕ) (m : List F) : Prop where
  length_eq : m.length = nRows * nEnc
  rows : ∀ r < nRows, encoding.encode (paddedRow nPre nEnc fieldData r) = .ok (row nEnc m r)

omit [PrimeField F] in
theorem encodedCoefs_eq_ok {Err : Type} {encoding : LcEncoding F Err} {fieldData m : List F}
    {nRows nPre nEnc : ℕ} (hrows : divCeil fieldData.length nPre = nRows)
    (h : encodedCoefs encoding fieldData nRows nPre nEnc = .ok m) :
    EncodedMatrix encoding fieldData nRows nPre nEnc m := by
  unfold encodedCoefs at h
  obtain ⟨coeffs, hcoeffs, hcomm⟩ := bind_eq_ok.mp h
  obtain ⟨hlen, hpad⟩ := copyRows_eq_ok hrows hcoeffs
  obtain ⟨hlenM, henc⟩ := encodeRows_eq_ok hlen hcomm
  refine ⟨hlenM, ?_⟩
  intro r hr
  obtain ⟨hle, hrun⟩ := henc r hr
  have hpads : row nPre coeffs r ++ List.replicate (nEnc - nPre) 0 =
      paddedRow nPre nEnc fieldData r := by
    rw [hpad r hr, paddedRow, paddedRow, List.append_assoc, List.replicate_append_replicate,
      length_row]
    congr 2
    omega
  rwa [hpads] at hrun

omit [PrimeField F] in
theorem EncodedMatrix.unique {Err : Type} {encoding : LcEncoding F Err} {fieldData m m' : List F}
    {nRows nPre nEnc : ℕ} (h : EncodedMatrix encoding fieldData nRows nPre nEnc m)
    (h' : EncodedMatrix encoding fieldData nRows nPre nEnc m') : m = m' := by
  apply flat_ext 0 h.length_eq h'.length_eq
  intro r c hr hc
  have hrow : row nEnc m r = row nEnc m' r :=
    Except.ok.inj ((h.rows r hr).symm.trans (h'.rows r hr))
  rw [← getD_row hc, ← getD_row hc, hrow]

section Encodings

omit [Field F] [PrimeField F]

theorem nDegreeTests_eq_ok {ε : Type} {lambda len flog2 nd : ℕ} :
    (nDegreeTests lambda len flog2 : Fallible ε ℕ) = .ok nd ↔
      log2 len < flog2 ∧ nd = divCeil lambda (flog2 - log2 len) := by
  constructor
  · intro h
    obtain ⟨den, hden, h⟩ := bind_eq_ok.mp h
    obtain ⟨_, hpos, h⟩ := bind_eq_ok.mp h
    obtain ⟨-, rfl⟩ := checkedSub_eq_ok.mp hden
    have hpos := assert_eq_ok.mp hpos
    exact ⟨by omega, (Except.ok.inj h).symm⟩
  · rintro ⟨hlt, rfl⟩
    refine bind_eq_ok.mpr ⟨_, checkedSub_of hlt.le, ?_⟩
    exact bind_eq_ok.mpr ⟨(), assert_of (Nat.sub_ne_zero_of_lt hlt), rfl⟩

theorem newFromDims_eq_ok {ε : Type} {fft : FieldFFT F} {pre enc : ℕ}
    {encoding : LcEncoding F fft.Err}
    (h : (newFromDims fft pre enc : Fallible ε _) = .ok encoding) :
    pre < enc ∧ isPowerOfTwo enc = true ∧ ∃ pc, fft.precompFft enc = .ok pc ∧
      enc = 2 ^ fft.getLogLen pc ∧ encoding = ligeroEncoding fft pre enc pc := by
  obtain ⟨_, hdims, h⟩ := bind_eq_ok.mp h
  obtain ⟨pc, hpc, h⟩ := bind_eq_ok.mp h
  obtain ⟨_, hlen, h⟩ := bind_eq_ok.mp h
  have hdims := assert_eq_ok.mp hdims
  simp only [ligeroDimsOk, Bool.and_eq_true, decide_eq_true_eq] at hdims
  exact ⟨hdims.1, hdims.2, pc, unwrap_eq_ok.mp hpc, assert_eq_ok.mp hlen, (Except.ok.inj h).symm⟩

theorem matrixDimensions_specified_eq_ok {fft : FieldFFT F} {sqrtCeil : ℕ → ℕ}
    {dataLen pre enc : ℕ} {dimensions : ℕ × ℕ} :
    matrixDimensions fft sqrtCeil dataLen (.specified pre enc) = .ok dimensions ↔
      1 ≤ pre ∧ 2 ≤ enc ∧ isPowerOfTwo enc = true ∧ pre < enc ∧ dimensions = (pre, enc) := by
  constructor
  · intro h
    obtain ⟨_, hpre, h⟩ := bind_eq_ok.mp h
    obtain ⟨_, henc, h⟩ := bind_eq_ok.mp h
    obtain ⟨_, hpow, h⟩ := bind_eq_ok.mp h
    obtain ⟨_, hlt, h⟩ := bind_eq_ok.mp h
    exact ⟨ensure_eq_ok.mp hpre, ensure_eq_ok.mp henc, ensure_eq_ok.mp hpow, ensure_eq_ok.mp hlt,
      (Except.ok.inj h).symm⟩
  · rintro ⟨hpre, henc, hpow, hlt, rfl⟩
    refine bind_eq_ok.mpr ⟨(), ensure_eq_ok.mpr hpre, ?_⟩
    refine bind_eq_ok.mpr ⟨(), ensure_eq_ok.mpr henc, ?_⟩
    refine bind_eq_ok.mpr ⟨(), ensure_eq_ok.mpr hpow, ?_⟩
    exact bind_eq_ok.mpr ⟨(), ensure_eq_ok.mpr hlt, rfl⟩

theorem le_of_isPowerOfTwo {v : ℕ} (hpow : isPowerOfTwo v = true) (hword : v < 2 ^ 64) :
    v ≤ 2 ^ 63 := by
  have hv : v = 2 ^ Nat.clog 2 v := beq_iff_eq.mp hpow
  rw [hv] at hword ⊢
  exact Nat.pow_le_pow_right (by decide)
    (Nat.le_of_lt_succ ((Nat.pow_lt_pow_iff_right (by decide)).mp hword))

end Encodings

theorem commit_ligero {ε : Type} {fft : FieldFFT F} {fieldData : List F} {nPre nEnc : ℕ}
    {encoding : LcEncoding F fft.Err} (hdata : fieldData ≠ []) (hpre : 0 < nPre)
    (hword : nEnc < 2 ^ 64)
    (hencoding : (newFromDims fft nPre nEnc : Fallible ε _) = .ok encoding) :
    ∃ comm : LcCommit D F, commit D fieldData encoding = .ok comm ∧ Committed encoding comm ∧
      comm.nRows = divCeil fieldData.length nPre ∧ comm.nPerRow = nPre ∧ comm.nCols = nEnc ∧
      (∀ i, comm.coeffs.getD i 0 = fieldData.getD i 0) ∧
      EncodedMatrix encoding fieldData (divCeil fieldData.length nPre) nPre nEnc comm.comm := by
  obtain ⟨hlt, hpow, pc, -, hlen, rfl⟩ := newFromDims_eq_ok hencoding
  have hpos : 0 < fieldData.length := List.length_pos_iff.mpr hdata
  have hge := le_divCeil_mul fieldData.length hpre
  have hrowpos : 0 < divCeil fieldData.length nPre := (lt_divCeil_iff hpre).mpr (by omega)
  have hfill : (divCeil fieldData.length nPre - 1) * nPre < fieldData.length :=
    (lt_divCeil_iff hpre).mp (by omega)
  have hdims : (ligeroEncoding fft nPre nEnc pc).dimsOk nPre nEnc = true := by
    simp [ligeroEncoding, ligeroDimsOk, hlt, hpow, ← hlen]
  obtain ⟨comm, hcommit, hrows, hper, hcols⟩ := commit_total (D := D)
    (ligeroEncoding fft nPre nEnc pc) fieldData rfl hge hfill hdims hlt.le (by omega)
    (le_of_isPowerOfTwo hpow hword) fun v hv => fft.fftIoPc_total (hv.trans hlen)
  obtain ⟨hcommitted, hentries⟩ := commit_eq_ok hcommit
  obtain ⟨hcomm, hcoeffs, -, -⟩ := checkComm_eq_ok.mp hcommitted.check
  refine ⟨comm, hcommit, hcommitted, hrows, hper, hcols, hentries, ?_, fun r hr => ?_⟩
  · rw [hcomm, hcols, hrows]
    rfl
  · have hrow := hcommitted.rows r (hrows ▸ hr)
    rw [hper, hcols] at hrow
    rw [hper, hrows] at hcoeffs
    rwa [row_append_zeros hcoeffs hr hlt.le hentries] at hrow

section Leaves

variable {fft : FieldFFT F} {sqrtCeil : ℕ → ℕ} {fieldData : List F} {requested : List ℕ}
  {dimensions : CommitDimensions} {nPre nEnc : ℕ}

theorem convert_leaves_eq_ok {out : CommitOrLeavesOutput D F}
    (hdims : matrixDimensions fft sqrtCeil fieldData.length dimensions = .ok (nPre, nEnc))
    (hrequested : ∀ c ∈ requested, c < nEnc)
    (h : convertFileDataToCommit fft D sqrtCeil fieldData (.leaves requested) dimensions =
      .ok out) :
    ∃ encoding m, (newFromDims fft nPre nEnc : Fallible (ConversionError fft.Err) _) =
        .ok encoding ∧
      EncodedMatrix encoding fieldData (divCeil fieldData.length nPre) nPre nEnc m ∧
      out = .leaves (requested.map fun c =>
        columnLeaf D (column nEnc (divCeil fieldData.length nPre) m c)) := by
  unfold convertFileDataToCommit at h
  obtain ⟨_, -, h⟩ := bind_eq_ok.mp h
  rw [hdims, ok_bind] at h
  obtain ⟨encoding, hencoding, h⟩ := bind_eq_ok.mp h
  obtain ⟨m, hm, h⟩ := bind_eq_ok.mp h
  have hmatrix := encodedCoefs_eq_ok rfl hm
  rw [feedRows_eq requested (fun r hr c hc => by
    rw [hmatrix.length_eq]
    exact flat_lt hr (hrequested c hc)), ok_bind] at h
  refine ⟨encoding, m, hencoding, hmatrix, ?_⟩
  rw [← Except.ok.inj h]
  simp [columnLeaf, Hasher.finalize]

end Leaves

section Soundness

variable {Err : Type} {root : LcRoot D} {leaves : List D.Output} {requested : List ℕ}
  {received : List (LcColumn D F)} {required : ℕ}

omit [Field F] in
theorem hashColumnToDigest_eq (column : LcColumn D F) :
    hashColumnToDigest column = columnLeaf D column.col := by
  unfold hashColumnToDigest hashFieldVecToDigest
  rw [finalize_foldl_newColumn]

omit [Field F] in
theorem clientOnlineVerifyColumnPaths_eq_ok {u : Unit} :
    (clientOnlineVerifyColumnPaths root requested received : Fallible (VerifierError Err) Unit) =
      .ok u ↔ received.length = requested.length ∧
        ∀ p ∈ requested.zip received, verifyColumnPath p.2 p.1 root.root = true := by
  unfold clientOnlineVerifyColumnPaths
  simp only [bind_eq_ok, forM_eq_ok, ensure_eq_ok, exists_const]

theorem clientOnlineVerifyColumnLeaves_eq_ok {receivedLeaves : List D.Output} {u : Unit} :
    (clientOnlineVerifyColumnLeaves leaves requested receivedLeaves :
      Fallible (VerifierError Err) Unit) = .ok u ↔
      leaves.length = requested.length ∧ receivedLeaves = leaves := by
  unfold clientOnlineVerifyColumnLeaves
  simp only [bind_eq_ok, ensure_eq_ok]
  constructor
  · rintro ⟨_, ⟨hleaves, hreceived⟩, hall⟩
    refine ⟨hleaves, List.ext_getElem (by omega) fun i hi hi' => ?_⟩
    have hmem : (leaves[i], receivedLeaves[i]) ∈ leaves.zip receivedLeaves := by
      have hi' : i < (leaves.zip receivedLeaves).length := by rw [List.length_zip]; omega
      rw [← List.getElem_zip (h := hi')]
      exact List.getElem_mem hi'
    exact (beq_iff_eq.mp (List.all_eq_true.mp hall _ hmem)).symm
  · rintro ⟨hlen, rfl⟩
    refine ⟨(), ⟨hlen, hlen⟩, List.all_eq_true.mpr fun p hp => ?_⟩
    rw [List.zip_eq_zipWith, List.zipWith_self] at hp
    obtain ⟨l, -, rfl⟩ := List.mem_map.mp hp
    exact beq_self_eq_true l

omit [Field F] in
theorem clientVerifyCommitment_eq_ok :
    (clientVerifyCommitment root leaves requested received required :
      Fallible (VerifierError Err) Unit) = .ok () ↔
      (leaves.length ≤ required ∧ requested.length ≤ required ∧ received.length ≤ required) ∧
      (leaves.length = requested.length ∧
        received.map (fun column => columnLeaf D column.col) = leaves) ∧
      received.length = requested.length ∧
        ∀ p ∈ requested.zip received, verifyColumnPath p.2 p.1 root.root = true := by
  unfold clientVerifyCommitment
  simp only [bind_eq_ok, ensure_eq_ok, clientOnlineVerifyColumnPaths_eq_ok,
    clientOnlineVerifyColumnLeaves_eq_ok, exists_const, funext hashColumnToDigest_eq]

/-- Either two columns are the same or their byte strings are a collision of the hash. -/
theorem columnLeaf_eq {col col' : List F} (h : columnLeaf D col = columnLeaf D col') :
    col = col' ∨ (columnPreimage D col ≠ columnPreimage D col' ∧
      D.hash (columnPreimage D col) = D.hash (columnPreimage D col')) := by
  by_cases heq : columnPreimage D col = columnPreimage D col'
  · exact .inl (columnPreimage_injective heq)
  · exact .inr ⟨heq, h⟩

/-- Storage soundness: columns that the client accepts are the columns of its own file. -/
theorem storage_sound {fft : FieldFFT F} {sqrtCeil : ℕ → ℕ} {fieldData : List F}
    {dimensions : CommitDimensions} {nPre nEnc : ℕ}
    (hdims : matrixDimensions fft sqrtCeil fieldData.length dimensions = .ok (nPre, nEnc))
    (hrequested : ∀ c ∈ requested, c < nEnc)
    (hlocal : convertFileDataToCommit fft D sqrtCeil fieldData (.leaves requested) dimensions =
      .ok (.leaves leaves))
    (hverify : (clientVerifyCommitment root leaves requested received required :
      Fallible (VerifierError Err) Unit) = .ok ()) :
    ∃ encoding m, (newFromDims fft nPre nEnc : Fallible (ConversionError fft.Err) _) =
        .ok encoding ∧
      EncodedMatrix encoding fieldData (divCeil fieldData.length nPre) nPre nEnc m ∧
      received.length = requested.length ∧
      ∀ (k c : ℕ) (sent : LcColumn D F), requested[k]? = some c → received[k]? = some sent →
        let col := column nEnc (divCeil fieldData.length nPre) m c
        sent.col = col ∨ (columnPreimage D sent.col ≠ columnPreimage D col ∧
          D.hash (columnPreimage D sent.col) = D.hash (columnPreimage D col)) := by
  obtain ⟨encoding, m, hencoding, hmatrix, hleaves⟩ := convert_leaves_eq_ok hdims hrequested hlocal
  obtain ⟨-, ⟨-, hsame⟩, hlen, -⟩ := clientVerifyCommitment_eq_ok.mp hverify
  refine ⟨encoding, m, hencoding, hmatrix, hlen, fun k c sent hc hsent => columnLeaf_eq ?_⟩
  have hmaps := hsame.trans (CommitOrLeavesOutput.leaves.inj hleaves)
  have hk := congrArg (fun l => l[k]?) hmaps
  simpa [hc, hsent] using hk

theorem storage_sound_small : ∃ m sent : List (ZMod 257), sent = [3, 5, 7] ∧
    (sent = column 2 3 m 1 ∨ (columnPreimage byteSum sent ≠
      columnPreimage byteSum (column 2 3 m 1) ∧ byteSum.hash (columnPreimage byteSum sent) =
        byteSum.hash (columnPreimage byteSum (column 2 3 m 1)))) := by
  have hdims : matrixDimensions fermatFft Nat.sqrt 3 (.specified 1 2) = .ok (1, 2) := rfl
  have hlocal : convertFileDataToCommit fermatFft byteSum Nat.sqrt [3, 5, 7] (.leaves [1, 0])
      (.specified 1 2) = .ok (.leaves [#v[15], #v[15]]) := rfl
  have hverify : (clientVerifyCommitment (D := byteSum) (F := ZMod 257) ⟨#v[30]⟩
      [#v[15], #v[15]] [1, 0] [⟨[3, 5, 7], [#v[15]]⟩, ⟨[3, 5, 7], [#v[15]]⟩] 2 :
      Fallible (VerifierError Unit) Unit) = .ok () := rfl
  obtain ⟨encoding, m, -, -, -, hcols⟩ := storage_sound hdims (by decide) hlocal hverify
  exact ⟨m, _, rfl, hcols 0 1 _ rfl rfl⟩

end Soundness

end OnlineColumns
