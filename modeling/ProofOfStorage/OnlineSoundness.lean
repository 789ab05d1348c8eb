import ProofOfStorage.CommitmentBinding
import ProofOfStorage.OnlineCodewords
import ProofOfStorage.OnlinePolynomials

/-! # What an accepted evaluation proof says

The columns are drawn after the evaluated row is fixed. Against the root of a commitment, a wrong
row is only accepted when all of them are among the few columns where it agrees with the right one.
-/
namespace OnlineSoundness

open FoundationFaults FoundationSlices FoundationInnerProducts FoundationPolynomials
open CommitmentTypes CommitmentMerkle CommitmentProof CommitmentCompleteness CommitmentOpenings
open CommitmentBinding OnlineColumns OnlineCodewords OnlinePolynomials

variable {D : Digest} {F ε : Type} [Field F] [PrimeField F]

section Commitments

variable {fft : FieldFFT F} {points : ℕ → List F} {nPre nEnc : ℕ} {coefficients : List F}
  {encoding : LcEncoding F fft.Err} {comm : LcCommit D F} {root : LcRoot D}

theorem committed_of_newFromDims {δ : Type}
    (hencoding : (newFromDims fft nPre nEnc : Fallible ε _) = .ok encoding)
    (hcommit : commit D coefficients encoding = .ok comm)
    (hroot : (getRoot comm : Fallible δ _) = .ok root) :
    ∃ hc : Committed encoding comm, root.root = hc.merkleized.tree.levelOrder.root ∧
      comm.nPerRow = nPre ∧ comm.nCols = nEnc ∧ isPowerOfTwo comm.nCols = true := by
  obtain ⟨-, hpow, pc, -, -, rfl⟩ := newFromDims_eq_ok hencoding
  obtain ⟨hc, -⟩ := commit_eq_ok hcommit
  obtain ⟨-, hcols⟩ := Prod.mk.inj (getDims_of_commit hcommit)
  obtain ⟨hper, henc⟩ := Prod.mk.inj hcols
  rw [getRoot_eq hc] at hroot
  obtain rfl := Except.ok.inj hroot
  exact ⟨hc, rfl, hper.symm, henc.symm, henc ▸ hpow⟩

theorem dot_committed_column (hfft : EvaluatesAt fft points)
    (hencoding : (newFromDims fft nPre nEnc : Fallible ε _) = .ok encoding)
    (hc : Committed encoding comm) (hper : comm.nPerRow = nPre) (hcols : comm.nCols = nEnc)
    {outer : List F} (houter : outer.length = comm.nRows) {c : ℕ} (hlt : c < nEnc) :
    dot outer (column nEnc comm.nRows comm.comm c) =
      value (combine nPre comm.nRows comm.coeffs outer) ((points nEnc).getD c 0) := by
  subst hper hcols
  have hencodes := encodesAt_of_newFromDims hfft hencoding
  have hle := hc.nPerRow_le
  have hrun := encode_combine hc (hencodes.linearOnRows hle) houter
  rw [resize_of_le (by rw [length_combine]; exact hle)] at hrun
  rw [← getD_combine hlt, hencodes.entry (by rw [length_combine]; omega) hrun hlt]

end Commitments

section Verifier

variable [DecidableEq F] {fft : FieldFFT F} {points : ℕ → List F} {nPre nEnc : ℕ}
  {coefficients : List F} {encoding : LcEncoding F fft.Err} {comm : LcCommit D F}
  {C : Challenges F} {outer inner : List F} {proof : LcEvalProof D F} {tr tr' : C.Transcript} {v : F}

def drawnAfter (C : Challenges F) (encoding : LcEncoding F fft.Err) (nEnc : ℕ)
    (proof : LcEvalProof D F) (tr₁ : C.Transcript) : List ℕ :=
  (columnsAt C encoding nEnc (transcriptUpdates C encoding.labelPE proof.pEval tr₁)).1

/-- What the verifier has checked of the evaluated row and the columns. -/
theorem checked_of_accepted {root : D.Output}
    (hencoding : (newFromDims fft nPre nEnc : Fallible ε _) = .ok encoding)
    (h : (verify C encoding root outer inner proof).run tr = .ok v tr') :
    v = dot inner proof.pEval ∧ proof.pEval.length = nPre ∧ ∃ (tr₁ : C.Transcript) (word : List F),
      (drawnAfter C encoding nEnc proof tr₁).length = proof.columns.length ∧
      (∀ c ∈ drawnAfter C encoding nEnc proof tr₁, c < nEnc) ∧
      (∃ first, proof.columns[0]? = some first ∧ outer.length = first.col.length) ∧
      encoding.encode (proof.pEval ++ .replicate (nEnc - nPre) 0) = .ok word ∧
      ∀ p ∈ (drawnAfter C encoding nEnc proof tr₁).zip proof.columns,
        word[p.1]? = some (dot outer p.2.col) ∧ verifyColumnPath p.2 p.1 root = true := by
  obtain ⟨hlt, -, pc, -, -, hligero⟩ := newFromDims_eq_ok hencoding
  obtain ⟨⟨hopens, -⟩, hfirst, -, hdims, hpos, tests, tr₁, word, -, hword, hchecks, rfl, -⟩ :=
    verify_eq_ok.mp h
  obtain ⟨hperRow, hnCols⟩ : proof.getNPerRow = nPre ∧ proof.getNCols = nEnc := by
    rw [hligero] at hdims
    simp only [ligeroEncoding, Bool.and_eq_true, beq_iff_eq] at hdims
    exact ⟨hdims.1.2, hdims.2⟩
  have hlen : proof.pEval.length = nPre := hperRow
  rw [hnCols] at hpos hchecks hword
  rw [resize_of_le (by omega), hlen] at hword
  refine ⟨rfl, hlen, tr₁, word, ?_, columnsAt_lt C hpos _, hfirst, hword, fun p hp => ?_⟩
  · exact (length_columnsAt ..).trans hopens
  · exact (verifyColumn_eq_ok.mp (hchecks p hp)).2

end Verifier

end OnlineSoundness
