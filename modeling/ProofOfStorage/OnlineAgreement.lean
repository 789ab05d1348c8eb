import ProofOfStorage.OnlineChecks

/-! # Two ways to the same answer

The conversion of a file computes the same matrix for every kind of request, and the client's check
of full columns is its check of their digests.
-/
namespace OnlineAgreement

open FoundationFaults FoundationSlices CommitmentTypes CommitmentMerkle CommitmentProof
  CommitmentCompleteness OnlineColumns OnlineChecks

variable {D : Digest} {F Err : Type} [Field F] [PrimeField F]

section Conversion

variable {fft : FieldFFT F} {fieldData : List F} {nPre nEnc : ℕ} {dimensions : CommitDimensions}
  {sqrtCeil : ℕ → ℕ}

structure SameColumn (comm : LcCommit D F) (leaves : List D.Output) (opened : List (LcColumn D F))
    (values : List (List F)) (k c : ℕ) : Prop where
  leaf : ∃ leaf, leaves[k]? = some leaf ∧ comm.hashes[c]? = some leaf ∧
    (values[k]?.map (hashFieldVecToDigest D)) = some leaf
  col : opened[k]?.map LcColumn.col = values[k]?
  column : values[k]? = some (column comm.nCols comm.nRows comm.comm c)

/-- The four outputs of the conversion describe one matrix. -/
theorem outputs_agree (hsqrt : ∀ n, 0 < n → 0 < sqrtCeil n) (hdata : fieldData ≠ [])
    (hdims : matrixDimensions fft sqrtCeil fieldData.length dimensions = .ok (nPre, nEnc))
    {encoding : LcEncoding F fft.Err} (hword : nEnc < 2 ^ 64)
    (hencoding : (newFromDims fft nPre nEnc : Fallible (ConversionError fft.Err) _) = .ok encoding)
    {requested : List ℕ} (hrequested : ∀ c ∈ requested, c < nEnc) :
    ∃ (comm : LcCommit D F) (leaves : List D.Output) (opened : List (LcColumn D F))
      (values : List (List F)),
      convertFileDataToCommit fft D sqrtCeil fieldData .commit dimensions = .ok (.commit comm) ∧
      convertFileDataToCommit fft D sqrtCeil fieldData (.leaves requested) dimensions =
        .ok (.leaves leaves) ∧
      convertFileDataToCommit fft D sqrtCeil fieldData (.columnsWithPath requested) dimensions =
        .ok (.columnsWithPath opened) ∧
      convertFileDataToCommit fft D sqrtCeil fieldData (.columnsWithoutPath requested) dimensions =
        .ok (.columnsWithoutPath values) ∧
      leaves.length = requested.length ∧ opened.length = requested.length ∧
      values.length = requested.length ∧
      ∀ k c, requested[k]? = some c → SameColumn comm leaves opened values k c := by
  obtain ⟨comm, hc, rfl, hcommit, houtputs⟩ :=
    convert_outputs (D := D) hsqrt hdata hdims hword hencoding
  obtain ⟨hleaves, hopened, hvalues⟩ := houtputs requested hrequested
  refine ⟨comm, _, _, _, hcommit, hleaves, hopened, hvalues, List.length_map _, List.length_map _,
    List.length_map _, ?_⟩
  intro k c hk
  have hlt : c < comm.nCols := hrequested c (List.mem_of_getElem? hk)
  refine ⟨⟨columnLeaf D (column comm.nCols comm.nRows comm.comm c), ?_, ?_, ?_⟩, ?_, ?_⟩
  · rw [List.getElem?_map, hk, Option.map_some]
  · exact hc.merkleized.getElem?_hashes hlt
  · rw [List.getElem?_map, hk, Option.map_some, Option.map_some, hashFieldVecToDigest,
      finalize_foldl_newColumn]
  · rw [List.getElem?_map, List.getElem?_map, hk, Option.map_some, Option.map_some, Option.map_some,
      honestColumn]
  · rw [List.getElem?_map, hk, Option.map_some]

theorem outputs_agree_small : ∃ (comm : LcCommit byteSum (ZMod 257))
    (leaves : List byteSum.Output) (opened : List (LcColumn byteSum (ZMod 257)))
    (values : List (List (ZMod 257))),
    convertFileDataToCommit fermatFft byteSum Nat.sqrt [3, 5, 7] .commit (.specified 2 4) =
      .ok (.commit comm) ∧
    convertFileDataToCommit fermatFft byteSum Nat.sqrt [3, 5, 7] (.leaves [3, 1, 3])
      (.specified 2 4) = .ok (.leaves leaves) ∧
    convertFileDataToCommit fermatFft byteSum Nat.sqrt [3, 5, 7] (.columnsWithPath [3, 1, 3])
      (.specified 2 4) = .ok (.columnsWithPath opened) ∧
    convertFileDataToCommit fermatFft byteSum Nat.sqrt [3, 5, 7] (.columnsWithoutPath [3, 1, 3])
      (.specified 2 4) = .ok (.columnsWithoutPath values) ∧
    SameColumn comm leaves opened values 0 3 ∧ SameColumn comm leaves opened values 2 3 := by
  have hdata : ([3, 5, 7] : List (ZMod 257)) ≠ [] := List.cons_ne_nil _ _
  have hdims : matrixDimensions fermatFft Nat.sqrt 3 (.specified 2 4) = .ok (2, 4) := rfl
  have hrequested : ∀ c ∈ [3, 1, 3], c < 4 := by decide
  obtain ⟨comm, leaves, opened, values, hcommit, hleaves, hopened, hvalues, -, -, -, hsame⟩ :=
    outputs_agree (D := byteSum) (fun _ => Nat.sqrt_pos.mpr) hdata hdims (by decide) rfl
      hrequested
  exact ⟨comm, leaves, opened, values, hcommit, hleaves, hopened, hvalues, hsame 0 3 rfl,
    hsame 2 3 rfl⟩

end Conversion

section Verification

def finalizeReset (digest : Hasher D) : D.Output × Hasher D := (digest.finalize, .new)

/-- The inner loop of the check without full columns, which keeps its hasher. -/
def walkPathWith : Hasher D → D.Output → ℕ → List D.Output → D.Output × Hasher D
  | digest, hash, _, [] => (hash, digest)
  | digest, hash, col, p :: path =>
    let (hash, digest) := finalizeReset <|
      if col % 2 = 0 then (digest.update hash.toList).update p.toList
      else (digest.update p.toList).update hash.toList
    walkPathWith digest hash (col / 2) path

def verifyPathsWith (root : D.Output) :
    Hasher D → List ((ℕ × List D.Output) × D.Output) → Fallible (VerifierError Err) Unit
  | _, [] => return ()
  | digest, p :: rest => do
    let (hash, digest) := walkPathWith digest p.2 p.1.1 p.1.2
    ensure (hash = root) .columnEval
    verifyPathsWith root digest rest

theorem walkPathWith_new (hash : D.Output) (col : ℕ) (path : List D.Output) :
    walkPathWith .new hash col path = (walkPath hash col path, .new) := by
  induction path generalizing hash col with
  | nil => rfl
  | cons p path ih =>
    by_cases hside : col % 2 = 0
    · simp only [walkPathWith, finalizeReset, if_pos hside, ih, walkPath, List.foldl_cons]
      rfl
    · simp only [walkPathWith, finalizeReset, if_neg hside, ih, walkPath, List.foldl_cons]
      rfl

/-- One hasher that is reset after every pair serves all paths. -/
theorem verifyPathsWith_new (root : D.Output) (paths : List ((ℕ × List D.Output) × D.Output)) :
    (verifyPathsWith root .new paths : Fallible (VerifierError Err) Unit) =
      paths.forM fun p => ensure (walkPath p.2 p.1.1 p.1.2 = root) .columnEval := by
  induction paths with
  | nil => rfl
  | cons p rest ih =>
    rw [verifyPathsWith, walkPathWith_new]
    exact congrArg _ (funext fun _ => ih)

theorem verifyColumnPaths_withHasher (root : LcRoot D) (requested : List ℕ)
    (digests : List D.Output) (paths : List (List D.Output)) :
    (clientOnlineVerifyColumnPathsWithoutFullColumns root requested digests paths :
      Fallible (VerifierError Err) Unit) = (do
        ensure (paths.length = requested.length) .columnEval
        verifyPathsWith root.root .new ((requested.zip paths).zip digests)) := by
  rw [clientOnlineVerifyColumnPathsWithoutFullColumns, verifyPathsWith_new]

omit [Field F] in
theorem verifyColumnPaths_eq (root : LcRoot D) (requested : List ℕ)
    (received : List (LcColumn D F)) :
    (clientOnlineVerifyColumnPathsWithoutFullColumns root requested
      (received.map hashColumnToDigest) (received.map LcColumn.path) :
        Fallible (VerifierError Err) Unit) =
      clientOnlineVerifyColumnPaths root requested received := by
  have hzip : (requested.zip (received.map LcColumn.path)).zip (received.map hashColumnToDigest) =
      (requested.zip received).map fun p => ((p.1, p.2.path), hashColumnToDigest p.2) := by
    induction requested generalizing received with
    | nil => rfl
    | cons c requested ih =>
      cases received with
      | nil => rfl
      | cons column received =>
        rw [List.map_cons, List.map_cons, List.zip_cons_cons, List.zip_cons_cons, ih received]
        rfl
  have hcheck : ∀ p : ℕ × LcColumn D F,
      (ensure (walkPath (hashColumnToDigest p.2) p.1 p.2.path = root.root) .columnEval :
        Fallible (VerifierError Err) Unit) =
      ensure (verifyColumnPath p.2 p.1 root.root = true) .columnEval := by
    intro p
    have hiff : walkPath (hashColumnToDigest p.2) p.1 p.2.path = root.root ↔
        verifyColumnPath p.2 p.1 root.root = true := by
      rw [hashColumnToDigest_eq, verifyColumnPath_iff, walkPath_eq_climb]
    unfold ensure
    by_cases hpath : walkPath (hashColumnToDigest p.2) p.1 p.2.path = root.root
    · rw [if_pos hpath, if_pos (hiff.mp hpath)]
    · rw [if_neg hpath, if_neg fun hverify => hpath (hiff.mpr hverify)]
  unfold clientOnlineVerifyColumnPathsWithoutFullColumns clientOnlineVerifyColumnPaths
  rw [hzip, List.forM_eq_forM, List.forM_eq_forM, List.forM_map, List.length_map]
  simp only [hcheck]

omit [Field F] in
/-- The check of full columns and the check of their digests and paths return the same result. -/
theorem verify_columns_eq_verify_digests (root : LcRoot D) (leaves : List D.Output)
    (requested : List ℕ) (received : List (LcColumn D F)) (required : ℕ) :
    (clientVerifyCommitment root leaves requested received required :
      Fallible (VerifierError Err) Unit) =
      clientVerifyCommitmentWithoutFullColumns root leaves requested
        (received.map hashColumnToDigest) (received.map LcColumn.path) required := by
  unfold clientVerifyCommitment clientVerifyCommitmentWithoutFullColumns
  rw [List.length_map, verifyColumnPaths_eq]

end Verification

end OnlineAgreement
