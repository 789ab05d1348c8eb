import ProofOfStorage.CommitmentCompleteness
import ProofOfStorage.CommitmentOpenings
import ProofOfStorage.OnlineColumns

/-! # What the checks of a storage proof accept

An honest server is accepted. The number of columns is bounded from above only, and the shape
of an opening is not looked at.
-/
namespace OnlineChecks

open FoundationFaults FoundationSlices FoundationMerkleTrees CommitmentTypes CommitmentMerkle
  CommitmentProof CommitmentCompleteness CommitmentOpenings OnlineColumns

variable {D : Digest} {F Err : Type} [Field F] [PrimeField F]

section Honest

variable {fft : FieldFFT F} {fieldData : List F} {nPre nEnc : ℕ} {dimensions : CommitDimensions}
  {sqrtCeil : ℕ → ℕ}

omit [Field F] [PrimeField F] in
theorem matrixDimensions_pos (hsqrt : ∀ n, 0 < n → 0 < sqrtCeil n) {dataLen : ℕ}
    (hlen : 0 < dataLen)
    (h : matrixDimensions fft sqrtCeil dataLen dimensions = .ok (nPre, nEnc)) : 0 < nPre := by
  cases dimensions with
  | specified pre enc =>
    obtain ⟨hpre, -, -, -, hdims⟩ := matrixDimensions_specified_eq_ok.mp h
    obtain ⟨rfl, -⟩ := Prod.mk.inj hdims
    exact hpre
  | square =>
    obtain ⟨_, -, h⟩ := bind_eq_ok.mp h
    obtain ⟨rfl, -⟩ := Prod.mk.inj (Except.ok.inj h)
    split
    · exact hsqrt _ hlen
    · exact Nat.two_pow_pos _

omit [PrimeField F] in
theorem encodedCoefs_total {ε : Type} {encoding : LcEncoding F fft.Err} (hpre : 0 < nPre)
    (hencoding : (newFromDims fft nPre nEnc : Fallible ε _) = .ok encoding) (fieldData : List F) :
    ∃ m, encodedCoefs encoding fieldData (divCeil fieldData.length nPre) nPre nEnc = .ok m := by
  obtain ⟨hlt, -, pc, -, hlen, rfl⟩ := newFromDims_eq_ok hencoding
  obtain ⟨coeffs, hcoeffs⟩ :=
    copyRows_total (ε := ConversionError fft.Err) (l := fieldData) hpre rfl
  obtain ⟨hlcoeffs, -⟩ := copyRows_eq_ok rfl hcoeffs
  have hencode : ∀ v : List F, v.length = nEnc →
      ∃ w, (ligeroEncoding fft nPre nEnc pc).encode v = .ok w :=
    fun v hv => fft.fftIoPc_total (hv.trans hlen)
  obtain ⟨m, hm⟩ := encodeRows_total (f := ConversionError.fft) hpre hlt.le hlcoeffs hencode
  exact ⟨m, by rw [encodedCoefs, hcoeffs, ok_bind, hm]⟩

theorem convert_eq {encoding : LcEncoding F fft.Err} (hdata : fieldData ≠ [])
    (hdims : matrixDimensions fft sqrtCeil fieldData.length dimensions = .ok (nPre, nEnc))
    (hencoding : (newFromDims fft nPre nEnc : Fallible (ConversionError fft.Err) _) =
      .ok encoding) :
    (convertFileDataToCommit fft D sqrtCeil fieldData .commit dimensions =
      CommitOrLeavesOutput.commit <$> mapErr .prover (commit D fieldData encoding)) ∧
    (∀ requested, convertFileDataToCommit fft D sqrtCeil fieldData (.columnsWithPath requested)
      dimensions = do
        let comm ← mapErr .prover (commit D fieldData encoding)
        return .columnsWithPath (← requested.mapM fun columnIndex =>
          unwrap (openColumn comm columnIndex : Fallible (ProverError fft.Err) _))) ∧
    (∀ requested, convertFileDataToCommit fft D sqrtCeil fieldData (.leaves requested) dimensions =
      do
        let nRows := divCeil fieldData.length nPre
        let coefs ← encodedCoefs encoding fieldData nRows nPre nEnc
        let digests ← (List.range nRows).foldlM (fun digests row => feedRow coefs
            (requested.map fun columnIndex => row * nEnc + columnIndex) digests)
          (List.replicate requested.length (Hasher.newColumn : Hasher D))
        return .leaves (digests.map Hasher.finalize)) ∧
    ∀ requested, convertFileDataToCommit fft D sqrtCeil fieldData (.columnsWithoutPath requested)
      dimensions = do
        let nRows := divCeil fieldData.length nPre
        let coefs ← encodedCoefs encoding fieldData nRows nPre nEnc
        let columns ← (List.range nRows).foldlM (fun columns row =>
            (columns.zip requested).mapM fun p => do
              return p.1 ++ [← index coefs (row * nEnc + p.2)])
          (List.replicate requested.length [])
        return .columnsWithoutPath columns := by
  have hpos : fieldData.length > 0 := List.length_pos_iff.mpr hdata
  simp only [convertFileDataToCommit, ensure_of hpos, hdims, hencoding, ok_bind, implies_true,
    and_true]
  rfl

omit [PrimeField F] in
theorem collectColumns_eq {ε : Type} {m : List F} {nRows : ℕ} (requested : List ℕ)
    (hinside : ∀ r < nRows, ∀ c ∈ requested, r * nEnc + c < m.length) :
    ((List.range nRows).foldlM (fun columns row => (columns.zip requested).mapM fun p => do
        return p.1 ++ [← index m (row * nEnc + p.2)])
      (List.replicate requested.length []) : Fallible ε _) =
      .ok (requested.map (column nEnc nRows m)) := by
  induction nRows with
  | zero =>
    have hnone : List.replicate requested.length [] = requested.map (column nEnc 0 m) :=
      List.map_const'.symm
    rw [hnone]
    rfl
  | succ n ih =>
    have hrow : ((requested.map (column nEnc n m)).zip requested).mapM (fun p => do
        return p.1 ++ [← index m (n * nEnc + p.2)]) =
        (.ok (requested.map fun c => column nEnc n m c ++ [m.getD (n * nEnc + c) 0]) :
          Fallible ε _) := by
      apply mapM_zip_extend (f := fun c => index m (n * nEnc + c))
      intro c hc
      have hlt := hinside n (Nat.lt_succ_self n) c hc
      rw [index_of_lt hlt, List.getD_eq_getElem _ _ hlt]
    rw [List.range_succ, List.foldlM_append, ih fun r hr => hinside r (by omega), ok_bind,
      List.foldlM_cons, hrow, ok_bind, List.foldlM_nil, pure_eq_ok]
    congr 1
    apply List.map_congr_left
    intro c _
    rw [column, column, List.range_succ, List.map_append]
    rfl

theorem honestColumns_accepted {encoding : LcEncoding F fft.Err} {comm : LcCommit D F}
    (hc : Committed encoding comm) {requested : List ℕ}
    (hrequested : ∀ c ∈ requested, c < comm.nCols) {required : ℕ}
    (hrequired : requested.length ≤ required) :
    (clientVerifyCommitment ⟨hc.merkleized.tree.levelOrder.root⟩
      (requested.map fun c => columnLeaf D (column comm.nCols comm.nRows comm.comm c)) requested
      (requested.map (honestColumn hc)) required : Fallible (VerifierError Err) Unit) =
        .ok () := by
  refine clientVerifyCommitment_eq_ok.mpr
    ⟨⟨?_, hrequired, ?_⟩, ⟨?_, ?_⟩, ?_, verifyPaths_honest hc hrequested⟩
  · rwa [List.length_map]
  · rwa [List.length_map]
  · rw [List.length_map]
  · rw [List.map_map]
    rfl
  · rw [List.length_map]

/-- What the conversion returns for each kind of request. -/
theorem convert_outputs (hsqrt : ∀ n, 0 < n → 0 < sqrtCeil n) (hdata : fieldData ≠ [])
    (hdims : matrixDimensions fft sqrtCeil fieldData.length dimensions = .ok (nPre, nEnc))
    {encoding : LcEncoding F fft.Err} (hword : nEnc < 2 ^ 64)
    (hencoding : (newFromDims fft nPre nEnc : Fallible (ConversionError fft.Err) _) =
      .ok encoding) :
    ∃ (comm : LcCommit D F) (hc : Committed encoding comm), comm.nCols = nEnc ∧
      convertFileDataToCommit fft D sqrtCeil fieldData .commit dimensions = .ok (.commit comm) ∧
      ∀ requested : List ℕ, (∀ c ∈ requested, c < nEnc) →
        convertFileDataToCommit fft D sqrtCeil fieldData (.leaves requested) dimensions =
          .ok (.leaves (requested.map fun c =>
            columnLeaf D (column comm.nCols comm.nRows comm.comm c))) ∧
        convertFileDataToCommit fft D sqrtCeil fieldData (.columnsWithPath requested) dimensions =
          .ok (.columnsWithPath (requested.map (honestColumn hc))) ∧
        convertFileDataToCommit fft D sqrtCeil fieldData (.columnsWithoutPath requested)
          dimensions = .ok (.columnsWithoutPath
            (requested.map (column comm.nCols comm.nRows comm.comm))) := by
  have hpos : 0 < fieldData.length := List.length_pos_iff.mpr hdata
  have hpre := matrixDimensions_pos hsqrt hpos hdims
  obtain ⟨comm, hcommit, hc, hrows, -, rfl, -, hmatrix⟩ :=
    commit_ligero (D := D) hdata hpre hword hencoding
  obtain ⟨hcomm, -, -, -⟩ := checkComm_eq_ok.mp hc.check
  obtain ⟨m, hm⟩ := encodedCoefs_total hpre hencoding fieldData
  -- The local matrix is the committed one.
  obtain rfl : m = comm.comm := (encodedCoefs_eq_ok rfl hm).unique hmatrix
  rw [← hrows] at hm
  obtain ⟨hconvert, hconvertColumns, hconvertLeaves, hconvertValues⟩ :=
    convert_eq (D := D) hdata hdims hencoding
  rw [← hrows] at hconvertLeaves hconvertValues
  refine ⟨comm, hc, rfl, ?_, ?_⟩
  · rw [hconvert, hcommit]
    rfl
  intro requested hrequested
  have hopen : (requested.mapM fun columnIndex =>
      unwrap (openColumn comm columnIndex : Fallible (ProverError fft.Err) _) :
        Fallible (ConversionError fft.Err) _) = .ok (requested.map (honestColumn hc)) :=
    mapM_of_forall fun c hmem =>
      unwrap_eq_ok.mpr (openColumn_eq hc.merkleized hcomm (hrequested c hmem))
  have hinside : ∀ r < comm.nRows, ∀ c ∈ requested, r * comm.nCols + c < comm.comm.length := by
    intro r hr c hmem
    rw [hcomm]
    exact flat_lt hr (hrequested c hmem)
  refine ⟨?_, ?_, ?_⟩
  · rw [hconvertLeaves]
    simp only [hm, ok_bind, feedRows_eq requested hinside, pure_eq_ok, List.map_map]
    rfl
  · rw [hconvertColumns, hcommit]
    simp only [mapErr, ok_bind, hopen, pure_eq_ok]
  · rw [hconvertValues]
    simp only [hm, ok_bind, collectColumns_eq requested hinside]
    rfl

/-- An honest server passes: the commitment, the local leaves and the openings of one file
fit together for every list of requested columns. -/
theorem honest_server_passes (hsqrt : ∀ n, 0 < n → 0 < sqrtCeil n) (hdata : fieldData ≠ [])
    (hdims : matrixDimensions fft sqrtCeil fieldData.length dimensions = .ok (nPre, nEnc))
    {encoding : LcEncoding F fft.Err} (hword : nEnc < 2 ^ 64)
    (hencoding : (newFromDims fft nPre nEnc : Fallible (ConversionError fft.Err) _) = .ok encoding)
    {requested : List ℕ} (hrequested : ∀ c ∈ requested, c < nEnc) {required : ℕ}
    (hrequired : requested.length ≤ required) :
    ∃ (comm : LcCommit D F) (root : LcRoot D) (leaves : List D.Output)
      (columns : List (LcColumn D F)),
      convertFileDataToCommit fft D sqrtCeil fieldData .commit dimensions = .ok (.commit comm) ∧
      (getRoot comm : Fallible (ProverError fft.Err) _) = .ok root ∧
      convertFileDataToCommit fft D sqrtCeil fieldData (.leaves requested) dimensions =
        .ok (.leaves leaves) ∧
      convertFileDataToCommit fft D sqrtCeil fieldData (.columnsWithPath requested) dimensions =
        .ok (.columnsWithPath columns) ∧
      (clientVerifyCommitment root leaves requested columns required :
        Fallible (VerifierError Err) Unit) = .ok () := by
  obtain ⟨comm, hc, rfl, hcommit, houtputs⟩ :=
    convert_outputs (D := D) hsqrt hdata hdims hword hencoding
  obtain ⟨hleaves, hcolumns, -⟩ := houtputs requested hrequested
  exact ⟨comm, _, _, _, hcommit, getRoot_eq hc, hleaves, hcolumns,
    honestColumns_accepted hc hrequested hrequired⟩

theorem honest_server_passes_small : ∃ (comm : LcCommit byteSum (ZMod 257))
    (root : LcRoot byteSum) (leaves : List byteSum.Output)
    (columns : List (LcColumn byteSum (ZMod 257))),
    convertFileDataToCommit fermatFft byteSum Nat.sqrt [3, 5, 7] .commit (.specified 1 2) =
      .ok (.commit comm) ∧
    (getRoot comm : Fallible (ProverError Unit) _) = .ok root ∧
    convertFileDataToCommit fermatFft byteSum Nat.sqrt [3, 5, 7] (.leaves [1, 0, 1])
      (.specified 1 2) = .ok (.leaves leaves) ∧
    convertFileDataToCommit fermatFft byteSum Nat.sqrt [3, 5, 7] (.columnsWithPath [1, 0, 1])
      (.specified 1 2) = .ok (.columnsWithPath columns) ∧
    (clientVerifyCommitment root leaves [1, 0, 1] columns 3 :
      Fallible (VerifierError Unit) Unit) = .ok () :=
  honest_server_passes (fun _ => Nat.sqrt_pos.mpr) (by decide) rfl (by decide)
    rfl (by decide) (by decide)

end Honest

section Bounds

variable (root : LcRoot D) (leaves : List D.Output) (requested : List ℕ) (required : ℕ)

/-- At least `required` columns were requested, were received and agree with the local leaf and
with the root. -/
structure EnoughColumns (received : List (LcColumn D F)) : Prop where
  requested_le : required ≤ requested.length
  received_le : required ≤ received.length
  compared : ∀ k < required, ∃ c column, requested[k]? = some c ∧ received[k]? = some column ∧
    leaves[k]? = some (columnLeaf D column.col) ∧ verifyColumnPath column c root.root = true

structure EnoughDigests (digests : List D.Output) (paths : List (List D.Output)) : Prop where
  requested_le : required ≤ requested.length
  received_le : required ≤ digests.length ∧ required ≤ paths.length
  compared : ∀ k < required, ∃ c digest path, requested[k]? = some c ∧
    digests[k]? = some digest ∧ paths[k]? = some path ∧ leaves[k]? = some digest ∧
    walkPath digest c path = root.root

variable {root leaves requested required}

theorem clientVerifyCommitmentWithoutFullColumns_eq_ok {digests : List D.Output}
    {paths : List (List D.Output)} :
    (clientVerifyCommitmentWithoutFullColumns root leaves requested digests paths required :
      Fallible (VerifierError Err) Unit) = .ok () ↔
      (leaves.length ≤ required ∧ requested.length ≤ required ∧ digests.length ≤ required) ∧
      (leaves.length = requested.length ∧ digests = leaves) ∧ paths.length = requested.length ∧
        ∀ p ∈ (requested.zip paths).zip digests, walkPath p.2 p.1.1 p.1.2 = root.root := by
  unfold clientVerifyCommitmentWithoutFullColumns clientOnlineVerifyColumnPathsWithoutFullColumns
  simp only [bind_eq_ok, ensure_eq_ok, clientOnlineVerifyColumnLeaves_eq_ok, forM_eq_ok,
    exists_const]

omit [Field F] in
theorem enoughColumns_of_ok {received : List (LcColumn D F)} (hle : required ≤ requested.length)
    (h : (clientVerifyCommitment root leaves requested received required :
      Fallible (VerifierError Err) Unit) = .ok ()) :
    EnoughColumns root leaves requested required received := by
  obtain ⟨-, ⟨-, rfl⟩, hlen, hpaths⟩ := clientVerifyCommitment_eq_ok.mp h
  refine ⟨hle, by omega, ?_⟩
  intro k hk
  have hc : requested[k]? = some requested[k] := List.getElem?_eq_getElem (by omega)
  have hcolumn : received[k]? = some received[k] := List.getElem?_eq_getElem (by omega)
  refine ⟨_, _, hc, hcolumn, ?_, hpaths (requested[k], received[k]) ?_⟩
  · rw [List.getElem?_map, hcolumn, Option.map_some]
  · exact List.mem_of_getElem? (i := k) (List.getElem?_zip_eq_some.mpr ⟨hc, hcolumn⟩)

theorem enoughDigests_of_ok {digests : List D.Output} {paths : List (List D.Output)}
    (hle : required ≤ requested.length)
    (h : (clientVerifyCommitmentWithoutFullColumns root leaves requested digests paths required :
      Fallible (VerifierError Err) Unit) = .ok ()) :
    EnoughDigests root leaves requested required digests paths := by
  obtain ⟨-, ⟨hleaves, rfl⟩, hlen, hpaths⟩ := clientVerifyCommitmentWithoutFullColumns_eq_ok.mp h
  refine ⟨hle, ⟨by omega, by omega⟩, ?_⟩
  intro k hk
  have hc : requested[k]? = some requested[k] := List.getElem?_eq_getElem (by omega)
  have hdigest : digests[k]? = some digests[k] := List.getElem?_eq_getElem (by omega)
  have hpath : paths[k]? = some paths[k] := List.getElem?_eq_getElem (by omega)
  refine ⟨_, _, _, hc, hdigest, hpath, hdigest,
    hpaths ((requested[k], paths[k]), digests[k]) (List.mem_of_getElem? (i := k) ?_)⟩
  exact List.getElem?_zip_eq_some.mpr ⟨List.getElem?_zip_eq_some.mpr ⟨hc, hpath⟩, hdigest⟩

/-- Any list of column numbers is answered by empty columns, when it is not too long. -/
theorem accepts_empty_columns (D : Digest) (F Err : Type) [Field F] [PrimeField F]
    {requested : List ℕ} {required : ℕ} (hle : requested.length ≤ required) :
    (clientVerifyCommitment ⟨columnLeaf D ([] : List F)⟩
      (.replicate requested.length (columnLeaf D ([] : List F))) requested
      (.replicate requested.length (⟨[], []⟩ : LcColumn D F)) required :
        Fallible (VerifierError Err) Unit) = .ok () ∧
    (clientVerifyCommitmentWithoutFullColumns ⟨columnLeaf D ([] : List F)⟩
      (.replicate requested.length (columnLeaf D ([] : List F))) requested
      (.replicate requested.length (columnLeaf D ([] : List F)))
      (.replicate requested.length []) required : Fallible (VerifierError Err) Unit) = .ok () := by
  constructor
  · refine clientVerifyCommitment_eq_ok.mpr ⟨?_, ⟨?_, ?_⟩, ?_, fun p hp => ?_⟩
    · simpa using hle
    · rw [List.length_replicate]
    · rw [List.map_replicate]
    · rw [List.length_replicate]
    · rw [List.eq_of_mem_replicate (List.of_mem_zip hp).2]
      exact verifyColumnPath_iff.mpr rfl
  · refine clientVerifyCommitmentWithoutFullColumns_eq_ok.mpr ⟨?_, ⟨?_, rfl⟩, ?_, fun p hp => ?_⟩
    · simpa using hle
    · rw [List.length_replicate]
    · rw [List.length_replicate]
    · obtain ⟨hpair, hdigest⟩ := List.of_mem_zip hp
      rw [List.eq_of_mem_replicate (List.of_mem_zip hpair).2, List.eq_of_mem_replicate hdigest]
      rfl

/-- An accepted answer has enough columns exactly when enough columns were asked for: the check
itself rejects only requests that are too long. -/
theorem enough_columns_iff (D : Digest) (F Err : Type) [Field F] [PrimeField F]
    (requested : List ℕ) (required : ℕ) :
    ((∀ (root : LcRoot D) (leaves : List D.Output) (received : List (LcColumn D F)),
      (clientVerifyCommitment root leaves requested received required :
        Fallible (VerifierError Err) Unit) = .ok () →
      EnoughColumns root leaves requested required received) ↔ required ≤ requested.length) ∧
    ((∀ (root : LcRoot D) (leaves digests : List D.Output) (paths : List (List D.Output)),
      (clientVerifyCommitmentWithoutFullColumns root leaves requested digests paths required :
        Fallible (VerifierError Err) Unit) = .ok () →
      EnoughDigests root leaves requested required digests paths) ↔
        required ≤ requested.length) := by
  refine ⟨⟨fun hall => ?_, fun hle _ _ _ => enoughColumns_of_ok hle⟩,
    fun hall => ?_, fun hle _ _ _ _ => enoughDigests_of_ok hle⟩
  · by_contra hshort
    exact hshort (hall _ _ _ (accepts_empty_columns D F Err (by omega)).1).requested_le
  · by_contra hshort
    exact hshort (hall _ _ _ _ (accepts_empty_columns D F Err (by omega)).2).requested_le

/-- Two columns are required, none is requested, and both verifiers accept. -/
theorem no_columns_accepted :
    ¬ ((clientVerifyCommitment (D := byteSum) (F := ZMod 257) ⟨#v[9]⟩ [] [] [] 2 :
        Fallible (VerifierError Unit) Unit) = .ok () →
      EnoughColumns (D := byteSum) (F := ZMod 257) ⟨#v[9]⟩ [] [] 2 []) ∧
    ¬ ((clientVerifyCommitmentWithoutFullColumns (D := byteSum) ⟨#v[9]⟩ [] [] [] [] 2 :
        Fallible (VerifierError Unit) Unit) = .ok () →
      EnoughDigests (D := byteSum) ⟨#v[9]⟩ [] [] 2 [] []) :=
  ⟨fun h => absurd (h rfl).requested_le (by decide),
    fun h => absurd (h rfl).requested_le (by decide)⟩

end Bounds

section Shapes

variable [DecidableEq F]

/-- In this setting of the verifier every proof that it accepts has the committed shape. -/
def AcceptsShaped (D : Digest) (C : Challenges F) (enc : LcEncoding F Err) (outer inner : List F)
    (tr : C.Transcript) : Prop :=
  ∀ (root : D.Output) (proof : LcEvalProof D F) (v : F) (tr' : C.Transcript),
    (verify C enc root outer inner proof).run tr = .ok v tr' → Shaped outer proof

/-- Every column accepted for `requested` has the path length of a tree over `nEnc` columns. -/
def PathsShaped (D : Digest) (F Err : Type) [PrimeField F] (requested : List ℕ) (nEnc : ℕ) :
    Prop :=
  ∀ (root : LcRoot D) (received : List (LcColumn D F)),
    (clientOnlineVerifyColumnPaths root requested received : Fallible (VerifierError Err) Unit) =
      .ok () → ∀ column ∈ received, column.path.length = log2 nEnc

theorem acceptsShaped_iff {C : Challenges F} {enc : LcEncoding F Err} {outer inner : List F}
    {tr : C.Transcript} : AcceptsShaped D C enc outer inner tr ↔
      ∀ (root : D.Output) (proof : LcEvalProof D F) (v : F) (tr' : C.Transcript),
        (verify C enc root outer inner proof).run tr ≠ .ok v tr' := by
  constructor
  · intro hshaped root proof v tr' hok
    obtain ⟨root', proof', hok', hbad⟩ := exists_misshapen hok
    exact hbad (hshaped root' proof' v tr' hok')
  · intro hnone root proof v tr' hok
    exact absurd hok (hnone root proof v tr')

omit [Field F] [DecidableEq F] in
/-- Some length other than the right one makes a path that leads to one root from everywhere. -/
theorem pathsShaped_iff {requested : List ℕ} {nEnc : ℕ} :
    PathsShaped D F Err requested nEnc ↔ requested = [] := by
  constructor
  · intro hshaped
    by_contra hne
    have hpos := List.length_pos_iff.mpr hne
    set leaf := columnLeaf D ([] : List F) with hleaf
    obtain ⟨path, hlen, root, hroot⟩ : ∃ path : List D.Output, path.length ≠ log2 nEnc ∧
        ∃ root, ∀ c, climb (hashPair D) leaf c path = root := by
      by_cases hzero : log2 nEnc = 0
      · refine ⟨[leaf], by rw [hzero]; exact one_ne_zero, hashPair D leaf leaf, ?_⟩
        intro c
        rw [climb, climb, ite_self]
      · exact ⟨[], fun h => hzero h.symm, leaf, fun c => rfl⟩
    have hok : (clientOnlineVerifyColumnPaths ⟨root⟩ requested
        (.replicate requested.length (⟨[], path⟩ : LcColumn D F)) :
          Fallible (VerifierError Err) Unit) = .ok () := by
      refine clientOnlineVerifyColumnPaths_eq_ok.mpr ⟨List.length_replicate, ?_⟩
      intro p hp
      rw [List.eq_of_mem_replicate (List.of_mem_zip hp).2]
      exact verifyColumnPath_iff.mpr (hroot p.1)
    exact hlen (hshaped _ _ hok _ (List.mem_replicate.mpr ⟨hpos.ne', rfl⟩))
  · rintro rfl root received hok column hmem
    have hlen := (clientOnlineVerifyColumnPaths_eq_ok.mp hok).1
    rw [List.length_eq_zero_iff.mp hlen] at hmem
    cases hmem

/-- The shape of accepted openings is only right where nothing is opened: the evaluation verifier
must accept no proof at all, and the column check must be asked for no column. A code that
encodes zeros as zeros is accepted whenever it opens columns of a matrix that fits. -/
theorem accepted_shape_iff (D : Digest) (C : Challenges F) (enc : LcEncoding F Err)
    (outer inner : List F) (tr : C.Transcript) (requested : List ℕ) (nEnc : ℕ) :
    (AcceptsShaped D C enc outer inner tr ↔
      ∀ (root : D.Output) (proof : LcEvalProof D F) (v : F) (tr' : C.Transcript),
        (verify C enc root outer inner proof).run tr ≠ .ok v tr') ∧
    (EncodesZeros enc inner.length → (AcceptsShaped D C enc outer inner tr ↔
      enc.getNColOpens = 0 ∨ ∀ nCols, 0 < nCols → enc.dimsOk inner.length nCols = false)) ∧
    (PathsShaped D F Err requested nEnc ↔ requested = []) := by
  refine ⟨acceptsShaped_iff, fun hzeros => acceptsShaped_iff.trans ⟨fun hnone => ?_, ?_⟩,
    pathsShaped_iff⟩
  · by_contra hopen
    push Not at hopen
    obtain ⟨hopens, nCols, hpos, hdims⟩ := hopen
    obtain ⟨root, proof, v, tr', hok⟩ := exists_accepted (D := D) C outer inner tr hzeros hopens
      hpos (Bool.not_eq_false _ ▸ hdims)
    exact hnone root proof v tr' hok
  · rintro hclosed root proof v tr' hok
    obtain ⟨⟨-, hopens⟩, -, hinner, hdims, hpos, -⟩ := verify_eq_ok.mp hok
    rcases hclosed with h0 | hnone
    · exact hopens h0
    · rw [← hinner, hnone _ hpos] at hdims
      cases hdims

def twoOpenings : LcEncoding (ZMod 257) Unit := { twoPoint with getNColOpens := 2 }

/-- A second column of three entries beside one row, and the root of a commitment presented as
one of its columns. -/
theorem misshapen_accepted :
    ¬ AcceptsShaped byteSum counting twoOpenings [0] [0] (0 : ℕ) ∧
    (∃ comm : LcCommit byteSum (ZMod 257), convertFileDataToCommit fermatFft byteSum Nat.sqrt
        [3, 5, 7] .commit (.specified 1 2) = .ok (.commit comm) ∧
      (getRoot comm : Fallible (ProverError Unit) _) = .ok ⟨#v[30]⟩) ∧
    ¬ ((clientOnlineVerifyColumnPaths (D := byteSum) (F := ZMod 257) ⟨#v[30]⟩ [1] [⟨[30], []⟩] :
        Fallible (VerifierError Unit) Unit) = .ok () →
      ∀ column ∈ [(⟨[30], []⟩ : LcColumn byteSum (ZMod 257))], column.path.length = log2 2) := by
  have hroot : ∀ out : Fallible (ConversionError Unit) (CommitOrLeavesOutput byteSum (ZMod 257)),
      (match out with | .ok (.commit comm) => comm.hashes.getLast? == some #v[30] | _ => false) =
        true → ∃ comm, out = .ok (.commit comm) ∧
          (getRoot comm : Fallible (ProverError Unit) _) = .ok ⟨#v[30]⟩ := by
    rintro (_ | _ | _ | _ | _) hout <;> try cases hout
    exact ⟨_, rfl, by rw [getRoot, beq_iff_eq.mp hout]⟩
  refine ⟨fun h => ?_, hroot _ (by decide +kernel), fun h => ?_⟩
  · have hshaped := h #v[0] ⟨2, [0], [[0]], [⟨[0], []⟩, ⟨[0, 0, 0], []⟩]⟩ 0 (4 : ℕ) rfl
    exact absurd (hshaped ⟨[0, 0, 0], []⟩ (by simp)).1 (by decide)
  · exact absurd (h rfl _ (List.mem_singleton.mpr rfl)) (by decide)

end Shapes

end OnlineChecks
