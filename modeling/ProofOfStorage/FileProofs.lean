import ProofOfStorage.FileColumns
import ProofOfStorage.FileContents
import ProofOfStorage.FileStreams
import ProofOfStorage.OnlineChecks

/-! # Proofs from the stored files

The digests and the columns that a handler reads from disk are those of the commitment to the whole
file in memory, so a proof from disk is accepted.
-/
namespace FileProofs

open FoundationFaults FoundationRuns FoundationSlices FoundationPositionalFiles CommitmentTypes
open CommitmentMerkle CommitmentProof CommitmentCompleteness OnlineColumns OnlineChecks FileFields
open FileDigests FileRows FileWriter FileStreams FileHandling FileRecords FileColumns
open FilePersistence FilePersistenceRuns FileContents

variable {D : Digest} {F : Type} [Field F]

section Dimensions

variable {ε ε' : Type} {fft : FieldFFT F} {pre enc : ℕ} {encoding : LcEncoding F fft.Err}

omit [Field F] in
theorem newFromDims_lift (h : (newFromDims fft pre enc : Fallible ε _) = .ok encoding) :
    (newFromDims fft pre enc : Fallible ε' _) = .ok encoding := by
  obtain ⟨hlt, hpow, pc, hpc, hlen, rfl⟩ := newFromDims_eq_ok h
  have hdims : ligeroDimsOk pre enc = true := by simp [ligeroDimsOk, hlt, hpow]
  have hprecomp : (unwrap (fft.precompFft enc) : Fallible ε' _) = .ok pc := unwrap_eq_ok.mpr hpc
  rw [newFromDims, assert_of hdims, ok_bind, hprecomp, ok_bind, assert_of hlen, ok_bind]
  rfl

end Dimensions

section Handlers

variable [DataField F] {fft : FieldFFT F} {c : Contents} {h : FileHandler D F fft.Err}

/-- The tree of a handler is the one that the commitment to its bytes hashes. -/
theorem merkleTree_of_holds (hh : Holds fft c h) {comm : LcCommit D F}
    (hleaves : comm.hashes.take c.encodedSize = columnLeaves D c.encodedSize
      ((chunks c.preEncodedSize (fromByteVec c.bytes)).map
        (elementsCodeword h.encoding c.encodedSize)))
    (htree : (MerkleTree.new (comm.hashes.take c.encodedSize) : Fallible (FileError fft.Err) _) =
      .ok ⟨comm.hashes, c.encodedSize⟩) : h.merkleTree = ⟨comm.hashes, c.encodedSize⟩ := by
  have hpos := hh.agrees.describes.sized.pos
  rw [hh.preEncodedSize_eq] at hpos
  have hstored := hh.agrees.tree
  rw [rowsOf, hh.preEncodedSize_eq, hh.encodedSize_eq, encodedRows_eq hpos, ← hleaves, htree]
    at hstored
  exact (Except.ok.inj hstored).symm

theorem path_congr {k k' : ℕ} {hashes hashes' : List D.Output} (htree : HashTree k hashes)
    (htree' : HashTree k' hashes') (hk : k = k') (hsame : hashes = hashes') (i : ℕ) :
    htree.levelOrder.path i = htree'.levelOrder.path i := by
  subst hk hsame
  rfl

theorem readFullColumns_of_holds (hh : Holds fft c h) {comm : LcCommit D F}
    (hc : Committed h.encoding comm) (hcols : comm.nCols = c.encodedSize)
    (hrows : comm.nRows = divCeil (fromByteVec c.bytes : List F).length c.preEncodedSize)
    (hmatrix : EncodedMatrix h.encoding (fromByteVec c.bytes)
      (divCeil (fromByteVec c.bytes : List F).length c.preEncodedSize) c.preEncodedSize
      c.encodedSize comm.comm)
    (htree : h.merkleTree = ⟨comm.hashes, c.encodedSize⟩) {requested : List ℕ}
    (hrequested : ∀ i ∈ requested, i < c.encodedSize) :
    readOnlyDigests h (.only requested) = .ok (requested.map fun i =>
      columnLeaf D (column comm.nCols comm.nRows comm.comm i)) ∧
    readFullColumns h (.only requested) = .ok (requested.map (honestColumn hc)) := by
  have hpos := hh.agrees.describes.sized.pos
  rw [hh.preEncodedSize_eq] at hpos
  obtain ⟨k, hsize, hwidth, hhash, -⟩ := hashTree_of_agrees hh.agrees
  have hk : k = Nat.clog 2 comm.nCols := by
    rw [hcols, ← hh.encodedSize_eq, hsize, Nat.clog_pow 2 _ Nat.one_lt_two]
  have hdigests : h.merkleTree.digests = comm.hashes := by rw [htree]
  have hin : ∀ i ∈ columnIndices h (.only requested), i < h.encodedSize := by
    rw [hh.encodedSize_eq]
    exact hrequested
  have hcolumn : ∀ i ∈ requested, columnOf (rowsOf h c.bytes) i =
      column comm.nCols comm.nRows comm.comm i := by
    intro i hmem
    rw [rowsOf, hh.preEncodedSize_eq, hh.encodedSize_eq, encodedRows_eq hpos,
      columnOf_codewords hmatrix (hrequested i hmem), hcols, hrows]
  constructor
  · rw [readOnlyDigests_eq hh.agrees hin]
    refine congrArg Except.ok (List.map_congr_left ?_)
    intro i hmem
    rw [hcolumn i hmem]
  · refine mapM_of_forall ?_
    intro i hmem
    rw [internalOpenColumn_eq hh.agrees hwidth hhash hsize (hin i hmem), hcolumn i hmem,
      path_congr hhash hc.merkleized.tree hk hdigests i]
    rfl

/-- What is read from disk is what the whole file gives in memory, and a client with the file
accepts it. -/
def ProvesContents (fft : FieldFFT F) (sqrtCeil : ℕ → ℕ) (c : Contents)
    (h : FileHandler D F fft.Err) : Prop :=
  ∀ requested : List ℕ, (∀ i ∈ requested, i < c.encodedSize) →
    ∃ (comm : LcCommit D F) (root : LcRoot D) (leaves : List D.Output)
      (columns : List (LcColumn D F)),
      convertFileDataToCommit fft D sqrtCeil (convertByteVecToFieldElementsVec c.bytes) .commit
        (.specified c.preEncodedSize c.encodedSize) = .ok (.commit comm) ∧
      (getRoot comm : Fallible (ProverError fft.Err) _) = .ok root ∧
      getCommitRoot h = .ok root ∧
      convertFileDataToCommit fft D sqrtCeil (convertByteVecToFieldElementsVec c.bytes)
        (.leaves requested) (.specified c.preEncodedSize c.encodedSize) = .ok (.leaves leaves) ∧
      readOnlyDigests h (.only requested) = .ok leaves ∧
      convertFileDataToCommit fft D sqrtCeil (convertByteVecToFieldElementsVec c.bytes)
        (.columnsWithPath requested) (.specified c.preEncodedSize c.encodedSize) =
          .ok (.columnsWithPath columns) ∧
      readFullColumns h (.only requested) = .ok columns ∧
      ∀ required, requested.length ≤ required →
        (clientVerifyCommitment root leaves requested columns required :
          Fallible (VerifierError fft.Err) Unit) = .ok ()

theorem proves_of_holds (hh : Holds fft c h) (sqrtCeil : ℕ → ℕ) (hbytes : c.bytes ≠ [])
    (hword : c.encodedSize < 2 ^ 64) : ProvesContents fft sqrtCeil c h := by
  intro requested hrequested
  have hsized := hh.agrees.describes.sized
  rw [hh.preEncodedSize_eq, hh.encodedSize_eq] at hsized
  have hdata : (fromByteVec c.bytes : List F) ≠ [] := fromByteVec_ne_nil hbytes
  have hencoding : (newFromDims fft c.preEncodedSize c.encodedSize :
      Fallible (ConversionError fft.Err) _) = .ok h.encoding := newFromDims_lift hh.encoding
  have hdims : matrixDimensions fft Nat.sqrt (fromByteVec c.bytes : List F).length
      (.specified c.preEncodedSize c.encodedSize) = .ok (c.preEncodedSize, c.encodedSize) :=
    matrixDimensions_specified_eq_ok.mpr
      ⟨hsized.pos, Nat.lt_of_le_of_lt hsized.pos hsized.lt, hsized.pow, hsized.lt, rfl⟩
  -- The commitment to the whole file, and its digests.
  obtain ⟨comm, hcommit, hc, hrows, -, hcols, -, hmatrix⟩ :=
    commit_ligero (D := D) hdata hsized.pos hword hh.encoding
  obtain ⟨_, root, hcommit', hgetRoot, hleaves, htree, hroot⟩ :=
    commit_digests (D := D) hdata hsized.pos hword hh.encoding
  obtain rfl := Except.ok.inj (hcommit.symm.trans hcommit')
  obtain rfl : hc.merkleized.tree.levelOrder.root = root :=
    LcRoot.mk.inj (Except.ok.inj ((getRoot_eq hc).symm.trans hgetRoot))
  have hstored := merkleTree_of_holds hh hleaves htree
  obtain ⟨hread, hopened⟩ :=
    readFullColumns_of_holds hh hc hcols hrows hmatrix hstored hrequested
  -- The conversion in memory works on the same commitment.
  obtain ⟨comm', hc', -, hconvert, houtputs⟩ := convert_outputs (D := D)
    (fun _ => Nat.sqrt_pos.mpr) hdata hdims hword hencoding
  obtain rfl : comm' = comm := by
    rw [(convert_eq hdata hdims hencoding).1, hcommit] at hconvert
    exact (CommitOrLeavesOutput.commit.inj (Except.ok.inj hconvert)).symm
  obtain ⟨hleaves', hcolumns', -⟩ := houtputs requested hrequested
  refine ⟨comm', ⟨hc'.merkleized.tree.levelOrder.root⟩, _, _, hconvert, ?_, ?_, hleaves', hread,
    hcolumns', hopened, ?_⟩
  · exact getRoot_eq hc
  · rw [getCommitRoot, getMerkleTree, ok_bind, hstored, hroot]
    rfl
  · intro required hrequired
    exact honestColumns_accepted hc (hcols.symm ▸ hrequested) hrequired

/-- From its creation on and after any updates that lose no rows, the digests and the columns on
disk prove the bytes that the updates have made, whichever columns are requested. -/
theorem stored_proofs_accepted {reader : MetadataReader} {ulid : Ulid} {pre enc : ℕ}
    {stored stored' : Files} {fileHandle : Option (Option (List UInt8))}
    (hcreated : (createFromUnencodedFile fft reader D ulid fileHandle pre enc).run stored =
      .ok h stored') {updates : List FileUpdate} {outs : List Unit} {h' : FileHandler D F fft.Err}
    (hrun : (runUpdates fft updates).run h = .ok outs h') (sqrtCeil : ℕ → ℕ) :
    ∃ b, unencodedSource stored fileHandle = some b ∧
      (AllKeepRows F ⟨pre, enc, b⟩ updates → (applyUpdates ⟨pre, enc, b⟩ updates).bytes ≠ [] →
        (applyUpdates ⟨pre, enc, b⟩ updates).encodedSize < 2 ^ 64 →
        ProvesContents fft sqrtCeil (applyUpdates ⟨pre, enc, b⟩ updates) h') := by
  obtain ⟨b, hsource, hh⟩ := ensures_createFromUnencodedFile_holds h stored' hcreated
  refine ⟨b, hsource, ?_⟩
  intro hkept hbytes hword
  obtain ⟨-, hh'⟩ : AllAllowed fft ⟨pre, enc, b⟩ updates ∧
      Holds fft (applyUpdates ⟨pre, enc, b⟩ updates) h' := hh.updates hkept outs h' hrun
  exact proves_of_holds hh' sqrtCeil hbytes hword

end Handlers

theorem stored_proofs_accepted_mixed :
    ∃ h stored, (createFromUnencodedFile fermatFft metadataReader byteSum 1 none 1 2).run
      ⟨some [1, 2, 3], none, none, none⟩ = .ok h stored ∧
    ∃ outs h', (runUpdates fermatFft mixedUpdates).run h = .ok outs h' ∧
      ProvesContents fermatFft Nat.sqrt ⟨1, 4, [9, 2, 3, 4, 5, 6]⟩ h' := by
  have hcreate : Runs (createFromUnencodedFile fermatFft metadataReader byteSum 1 none 1 2)
      ⟨some [1, 2, 3], none, none, none⟩ fun _ _ => True := by
    decide +kernel
  obtain ⟨h, stored, hcreated, -⟩ := hcreate
  obtain ⟨b, hsource, hh⟩ := ensures_createFromUnencodedFile_holds h stored hcreated
  obtain rfl := Option.some.inj hsource
  obtain ⟨outs, h', hrun⟩ := hh.updates_total mixedUpdates_keep mixedUpdates_allowed
  obtain ⟨b, hsource, hproves⟩ := stored_proofs_accepted hcreated hrun Nat.sqrt
  obtain rfl := Option.some.inj hsource
  exact ⟨h, stored, hcreated, outs, h', hrun,
    hproves mixedUpdates_keep (by decide) (by decide)⟩

end FileProofs
