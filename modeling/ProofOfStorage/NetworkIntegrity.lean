import ProofOfStorage.FileRetrieval
import ProofOfStorage.NetworkDownloads
import ProofOfStorage.NetworkEvaluations
import ProofOfStorage.OnlineSoundness

/-! # What a server has to hold

Whatever a server answers, a file that a download keeps is the one under the root in the metadata,
and columns that are accepted as a proof hold the whole file, as long as as many columns are drawn
as a row has entries. The other way out is a clash of two hashes.
-/
namespace NetworkIntegrity

open FoundationFaults FoundationSlices FoundationInnerProducts FoundationPolynomials
open FoundationInteraction
open CommitmentTypes CommitmentMerkle CommitmentProof CommitmentCompleteness CommitmentBinding
open OnlineColumns
open OnlineEvaluation OnlinePolynomials OnlineCodewords OnlineSoundness FileFields FileRetrieval
open NetworkMessages NetworkServer NetworkVersions NetworkEvaluations NetworkDownloads

variable {D : Digest} {F σ : Type} [Field F] [DataField F]

/-- What is assumed of the draws: as many different columns as there are, up to a number. -/
structure Draws (env : Environment F) : Prop where
  nodup : ∀ count max, (env.columnIndicies count max).Nodup
  lt : ∀ count max, ∀ c ∈ env.columnIndicies count max, c < max
  length_eq : ∀ count max, (env.columnIndicies count max).length = min count max

def FileColumn (env : Environment F) (m : FileMetadata D) (file : List UInt8) (c : ℕ)
    (col : List F) : Prop :=
  ∃ encoding matrix, (newFromDims env.fft m.numColumns m.numEncodedColumns :
      Fallible (ConversionError env.fft.Err) _) = .ok encoding ∧
    EncodedMatrix encoding (convertByteVecToFieldElementsVec file)
      (divCeil (convertByteVecToFieldElementsVec file : List F).length m.numColumns) m.numColumns
      m.numEncodedColumns matrix ∧
    col = column m.numEncodedColumns
      (divCeil (convertByteVecToFieldElementsVec file : List F).length m.numColumns) matrix c

section Accepted

variable {env : Environment F} {m : FileMetadata D} {file : List UInt8}
  {received : List (LcColumn D F)}

/-- Accepted columns have the hashes of the file's columns and paths to the root. -/
theorem Accepted.columns (h : Accepted env m file received) (hdraws : Draws env) :
    1 ≤ m.numColumns ∧ received.length = (columnsFromFixedSeed env m).length ∧
    ∃ encoding matrix, (newFromDims env.fft m.numColumns m.numEncodedColumns :
        Fallible (ConversionError env.fft.Err) _) = .ok encoding ∧
      EncodedMatrix encoding (convertByteVecToFieldElementsVec file)
        (divCeil (convertByteVecToFieldElementsVec file : List F).length m.numColumns)
        m.numColumns m.numEncodedColumns matrix ∧
      ∀ p ∈ (columnsFromFixedSeed env m).zip received,
        columnLeaf D p.2.col = columnLeaf D (column m.numEncodedColumns
          (divCeil (convertByteVecToFieldElementsVec file : List F).length m.numColumns) matrix
            p.1) ∧ verifyColumnPath p.2 p.1 m.root.root = true := by
  obtain ⟨leaves, hleaves, hverified⟩ := h
  have hdims : 1 ≤ m.numColumns ∧ matrixDimensions env.fft env.sqrtCeil
      (convertByteVecToFieldElementsVec file : List F).length
      (.specified m.numColumns m.numEncodedColumns) = .ok (m.numColumns, m.numEncodedColumns) := by
    unfold convertFileDataToCommit at hleaves
    obtain ⟨_, -, hleaves⟩ := bind_eq_ok.mp hleaves
    obtain ⟨dims, hdims, -⟩ := bind_eq_ok.mp hleaves
    obtain ⟨hpre, -, -, -, rfl⟩ := matrixDimensions_specified_eq_ok.mp hdims
    exact ⟨hpre, hdims⟩
  obtain ⟨encoding, matrix, hencoding, hmatrix, hout⟩ :=
    convert_leaves_eq_ok hdims.2 (hdraws.lt _ _) hleaves
  obtain ⟨-, ⟨-, hsame⟩, hlen, hpaths⟩ := clientVerifyCommitment_eq_ok.mp hverified
  refine ⟨hdims.1, hlen, encoding, matrix, hencoding, hmatrix, fun p hp => ⟨?_, hpaths p hp⟩⟩
  have hmaps : _ = (columnsFromFixedSeed env m).map _ :=
    hsame.trans (CommitOrLeavesOutput.leaves.inj hout)
  obtain ⟨k, hk⟩ := List.mem_iff_getElem?.mp hp
  obtain ⟨hc, hr⟩ := List.getElem?_zip_eq_some.mp hk
  have hentry := congrArg (fun l => l[k]?) hmaps
  rw [List.getElem?_map, List.getElem?_map, hr, hc] at hentry
  exact Option.some.inj hentry

theorem enough_drawn (hdraws : Draws env) (henough : m.numColumns ≤ getPosSoudnessNCols env m)
    (hlt : m.numColumns < m.numEncodedColumns) :
    m.numColumns ≤ (columnsFromFixedSeed env m).length := by
  rw [columnsFromFixedSeed, hdraws.length_eq]
  exact le_min henough hlt.le

end Accepted

theorem encodedMatrix_of_commit {fft : FieldFFT F} {nPre nEnc : ℕ} {ε : Type}
    {encoding : LcEncoding F fft.Err} {elements : List F} {commit : LcCommit D F}
    (hencoding : (newFromDims fft nPre nEnc : Fallible ε _) = .ok encoding)
    (hcommit : CommitmentProof.commit D elements encoding = .ok commit) :
    EncodedMatrix encoding elements (divCeil elements.length nPre) nPre nEnc commit.comm := by
  obtain ⟨hlt, -, pc, -, -, rfl⟩ := newFromDims_eq_ok hencoding
  obtain ⟨hcommitted, hentries⟩ := commit_eq_ok hcommit
  obtain ⟨hrows, hcols⟩ := Prod.mk.inj (getDims_of_commit hcommit)
  obtain ⟨hper, henc⟩ := Prod.mk.inj hcols
  obtain ⟨hcomm, hcoeffs, -, -⟩ := checkComm_eq_ok.mp hcommitted.check
  change divCeil elements.length nPre = commit.nRows at hrows
  change nPre = commit.nPerRow at hper
  change nEnc = commit.nCols at henc
  rw [hrows]
  refine ⟨by rw [hcomm, henc], fun r hr => ?_⟩
  have hrow := hcommitted.rows r hr
  rw [← hper, ← henc] at hrow
  rw [← hper] at hcoeffs
  rwa [row_append_zeros hcoeffs hr hlt.le hentries] at hrow

/-- A file that was kept is the committed one up to zeros at its end, or two hashes clash. -/
def Genuine (env : Environment F) (m : FileMetadata D) (commit : LcCommit D F)
    (file written : List UInt8) (received : List (LcColumn D F)) : Prop :=
  (∀ i, written.getD i 0 = file.getD i 0) ∨
    ∃ p ∈ (columnsFromFixedSeed env m).zip received, ∃ own, FileColumn env m written p.1 own ∧
      Clash (hashedFor ⟨own, p.2.path⟩ p.1) (committedFor commit)

theorem draws_fermat : Draws fermatEnvironment where
  nodup _ _ := List.nodup_range.sublist (List.take_sublist _ _)
  lt _ _ _ hc := List.mem_range.mp (List.mem_of_mem_take hc)
  length_eq count max := by
    show ((List.range max).take count).length = min count max
    rw [List.length_take, List.length_range]

theorem draws_butterfly : Draws butterflyEnvironment :=
  ⟨draws_fermat.nodup, draws_fermat.lt, draws_fermat.length_eq⟩

def twoColumns : List (LcColumn byteSum (ZMod 257)) :=
  .replicate 2 ⟨convertByteVecToFieldElementsVec [1, 2], [.replicate 1 3]⟩

theorem committed_two_bytes : ∃ commit, commitOf butterflyEnvironment byteSum
      (convertByteVecToFieldElementsVec [1, 2]) 1 2 = .ok commit ∧
    (getRoot commit : Fallible (ServerError butterflyEnvironment.fft.Err) _) = .ok ⟨#v[6]⟩ := by
  have hroot : (commitOf butterflyEnvironment byteSum (convertByteVecToFieldElementsVec [1, 2]) 1 2
    >>= getRoot).toOption.map (fun root => root.root.toList) = some [6] := by decide +kernel
  cases hrun : (commitOf butterflyEnvironment byteSum (convertByteVecToFieldElementsVec [1, 2]) 1 2
      >>= getRoot) with
  | error e =>
    rw [hrun] at hroot
    cases hroot
  | ok root =>
    rw [hrun] at hroot
    obtain ⟨commit, hcommit, hget⟩ := bind_eq_ok.mp hrun
    have hsix : root.root = #v[6] := Vector.toList_inj.mp (Option.some.inj hroot)
    exact ⟨commit, hcommit, hget.trans (congrArg Except.ok (congrArg LcRoot.mk hsix))⟩

/-- The powers by which a request for an evaluation combines the rows. -/
def evaluationPowers (env : Environment F) (m : FileMetadata D) : List F :=
  (List.range m.numRows).map ((env.evaluationPoint ^ m.numEncodedColumns) ^ ·)

/-- Retrievability: the columns of an accepted proof give the client's file back. -/
theorem proof_yields_file (env : Environment F) (points : ℕ → List F)
    (hfft : EvaluatesAt env.fft points) (hdraws : Draws env) (m : FileMetadata D)
    (henough : m.numColumns ≤ getPosSoudnessNCols env m) (files : Files) (s : σ)
    (replies : List (Option (ServerMessages D F env.fft.Err)))
    (h : (replay (requestProof env files m : Flow D F env.fft.Err σ Unit) s replies).result =
      .ok ()) :
    ∃ file received, files m.filename = some file ∧
      replies.head? = some (some (.columns received)) ∧
      (recoverFile (points m.numEncodedColumns) m.numColumns file.length
          ((columnsFromFixedSeed env m).zip (received.map LcColumn.col)) = file ∨
        ∃ p ∈ (columnsFromFixedSeed env m).zip received, ∃ own, FileColumn env m file p.1 own ∧
          Clash (D := D) [.column p.2.col] [.column own]) := by
  obtain ⟨file, received, hfile, hhead, haccepted⟩ := requestProof_result h
  refine ⟨file, received, hfile, hhead, ?_⟩
  obtain ⟨hpre, hlen, encoding, matrix, hencoding, hmatrix, hcolumns⟩ :=
    Accepted.columns haccepted hdraws
  obtain ⟨hlt, -⟩ := newFromDims_eq_ok hencoding
  set own := column m.numEncodedColumns
    (divCeil (convertByteVecToFieldElementsVec file : List F).length m.numColumns) matrix
  by_cases hclash : ∃ p ∈ (columnsFromFixedSeed env m).zip received, p.2.col ≠ own p.1
  · obtain ⟨p, hp, hne⟩ := hclash
    refine .inr ⟨p, hp, own p.1, ⟨encoding, matrix, hencoding, hmatrix, rfl⟩, ?_⟩
    exact ⟨_, List.mem_singleton_self _, _, List.mem_singleton_self _,
      fun heq => hne (Hashed.column.inj heq), (hcolumns p hp).1⟩
  · push Not at hclash
    have hsame : received.map LcColumn.col = (columnsFromFixedSeed env m).map own := by
      refine List.ext_getElem (by simp [hlen]) fun k hk hk' => ?_
      rw [List.length_map] at hk hk'
      rw [List.getElem_map, List.getElem_map]
      exact hclash ((columnsFromFixedSeed env m)[k], received[k]) (List.mem_of_getElem?
        (List.getElem?_zip_eq_some.mpr
          ⟨List.getElem?_eq_getElem hk', List.getElem?_eq_getElem hk⟩))
    rw [hsame, ← List.map_prod_left_eq_zip]
    exact .inl (recoverFile_eq (encodesAt_of_newFromDims hfft hencoding) hpre hmatrix hlt.le
      (hdraws.nodup _ _) (hdraws.lt _ _) (enough_drawn hdraws henough hlt))

theorem proof_yields_file_two : ∃ file received, some [1, 2] = some file ∧
    [some (.columns twoColumns)].head? = some (some (.columns received :
      ServerMessages byteSum (ZMod 257) Unit)) ∧
    (recoverFile signs 1 file.length ((columnsFromFixedSeed butterflyEnvironment
        (firstUpload 2 1 2 2 6)).zip (received.map LcColumn.col)) = file ∨
      ∃ p ∈ (columnsFromFixedSeed butterflyEnvironment (firstUpload 2 1 2 2 6)).zip received,
        ∃ own, FileColumn butterflyEnvironment (firstUpload 2 1 2 2 6) file p.1 own ∧
          Clash (D := byteSum) [.column p.2.col] [.column own]) := by
  obtain ⟨⟨⟩, hrun⟩ : ∃ u, (replay (requestProof butterflyEnvironment (fun _ => some [1, 2])
    (firstUpload 2 1 2 2 6) : Flow byteSum (ZMod 257) Unit Unit Unit) ()
      [some (.columns twoColumns)]).result = .ok u := exists_ok_of_isSome (by decide +kernel)
  exact proof_yields_file butterflyEnvironment (fun _ => signs) butterfly_evaluatesAt
    draws_butterfly (firstUpload 2 1 2 2 6) (by decide) (fun _ => some [1, 2]) ()
    [some (.columns twoColumns)] hrun

end NetworkIntegrity
