import ProofOfStorage.CommitmentProof

/-! # What the degree tests establish

The verifier never compares the length of a random combination with the row length, so a
combination that is too long is encoded like any other word.
-/
namespace CommitmentLowDegree

open FoundationFaults FoundationInnerProducts FoundationMerkleTrees CommitmentTypes
  CommitmentMerkle CommitmentProof

variable {D : Digest} {F Err : Type} [Field F]

def overlong (nPerRow n : ℕ) : List F :=
  if n ≤ nPerRow then .replicate n 0 else .replicate (n - 1) 0 ++ [1]

theorem length_overlong (nPerRow n : ℕ) : (overlong nPerRow n : List F).length = n := by
  unfold overlong
  split
  · rw [List.length_replicate]
  · rw [List.length_append, List.length_replicate, List.length_singleton]
    omega

theorem getD_overlong {nPerRow n : ℕ} (h : nPerRow < n) :
    (overlong nPerRow n : List F).getD (n - 1) 0 = 1 := by
  rw [overlong, if_neg (by omega), List.getD_append_right _ _ _ _ (by simp)]
  simp

/-- Challenges that count their calls and draw prescribed tensors and always column zero. -/
def prescribed (tensor : ℕ → F) : Challenges F where
  Transcript := ℕ
  Seed := ℕ
  appendMessage tr _ _ := tr
  challengeBytes tr _ := (tr, tr + 1)
  randomField key _ := tensor key
  sampleUniform _ _ _ := 0
  sampleUniform_lt h _ _ := h

def calls (tensor : ℕ → F) (n : ℕ) : (prescribed tensor).Transcript := n

variable [FieldHash F] [DecidableEq F]

/-- Degree test `i` used the encoding of a row: the combination that was sent has no entry
past the row length, and the codeword encodes a message of at most that length. -/
def RowEncoded (enc : LcEncoding F Err) (proof : LcEvalProof D F)
    (tests : List (List F × List F)) (i : ℕ) : Prop :=
  ∃ pRandom test, proof.pRandomVec[i]? = some pRandom ∧ tests[i]? = some test ∧
    (∀ j, proof.getNPerRow ≤ j → pRandom.getD j 0 = 0) ∧
    ∃ message : List F, message.length ≤ proof.getNPerRow ∧
      enc.encode (resize proof.getNCols message) = .ok test.2

/-- If the verifier accepts, every codeword of its degree tests encodes a row. -/
def DegreeTestsSound (C : Challenges F) (enc : LcEncoding F Err) (root : D.Output)
    (outer inner : List F) (proof : LcEvalProof D F) (tr : C.Transcript) : Prop :=
  ∀ v tr', (verify C enc root outer inner proof).run tr = .ok v tr' →
    ∀ tests tr₁, (forEach (List.range enc.getNDegreeTests)
      (verifyDegreeTest C enc proof outer.length proof.getNCols)).run tr = .ok tests tr₁ →
    ∀ i < enc.getNDegreeTests, RowEncoded enc proof tests i

omit [DecidableEq F] in
theorem verifyDegreeTest_eq_ok {C : Challenges F} {enc : LcEncoding F Err}
    {proof : LcEvalProof D F} {nRows nCols i : ℕ} {tr tr' : C.Transcript} {test : List F × List F}
    (h : (verifyDegreeTest C enc proof nRows nCols i).run tr = .ok test tr') :
    ∃ pRandom, proof.pRandomVec[i]? = some pRandom ∧
      enc.encode (resize nCols pRandom) = .ok test.2 := by
  unfold verifyDegreeTest at h
  obtain ⟨_, _, -, h⟩ := run_bind_ok.mp h
  obtain ⟨pRandom, _, hindex, h⟩ := run_bind_ok.mp h
  obtain ⟨codeword, _, hencode, h⟩ := run_bind_ok.mp h
  obtain ⟨_, _, -, h⟩ := run_bind_ok.mp h
  obtain ⟨rfl, -⟩ := run_pure_ok.mp h
  exact ⟨pRandom, index_eq_ok.mp (run_lift_ok.mp hindex).1,
    mapErr_eq_ok.mp (run_lift_ok.mp hencode).1⟩

omit [DecidableEq F] in
theorem rowEncoded_of_length_le {C : Challenges F} {enc : LcEncoding F Err}
    {proof : LcEvalProof D F} {nRows n i : ℕ} {tr tr₁ : C.Transcript}
    {tests : List (List F × List F)}
    (hrun : (forEach (List.range n)
      (verifyDegreeTest C enc proof nRows proof.getNCols)).run tr = .ok tests tr₁)
    (hi : i < n) (hlen : (proof.pRandomVec.getD i []).length ≤ proof.getNPerRow) :
    RowEncoded enc proof tests i := by
  obtain ⟨-, st, -, -, hstep⟩ := run_forEach_range.mp hrun
  obtain ⟨test, htest, hround⟩ := hstep i hi
  obtain ⟨pRandom, hget, hencode⟩ := verifyDegreeTest_eq_ok hround
  rw [List.getD_eq_getElem?_getD, hget] at hlen
  exact ⟨pRandom, test, hget, htest, fun j hj => List.getD_eq_default _ _ (le_trans hlen hj),
    pRandom, hlen, hencode⟩

def overlongProof (D : Digest) (enc : LcEncoding F Err) (nPerRow nCols : ℕ) (lens : List ℕ) :
    LcEvalProof D F :=
  ⟨nCols, .replicate nPerRow 0, lens.map (overlong nPerRow), .replicate enc.getNColOpens ⟨[1], []⟩⟩

section Overlong

variable {enc : LcEncoding F Err} {nPerRow nCols : ℕ} {lens : List ℕ} {words : List (List F)}

omit [Field F] [DecidableEq F] in
theorem transcriptUpdates_prescribed (tensor : ℕ → F) (label : List UInt8) (coeffs : List F)
    (tr : (prescribed tensor).Transcript) :
    transcriptUpdates (prescribed tensor) label coeffs tr = tr := by
  unfold transcriptUpdates
  induction coeffs with
  | nil => rfl
  | cons x coeffs ih => exact ih

omit [DecidableEq F] in
theorem run_degreeTests_overlong {tensor : ℕ → F}
    (htensor : tensor = fun i => (words.getD i []).getD 0 0)
    (hlens : enc.getNDegreeTests ≤ lens.length) (hwords : ∀ i < enc.getNDegreeTests,
      enc.encode (resize nCols (overlong nPerRow (lens.getD i 0))) = .ok (words.getD i [])) :
    (forEach (List.range enc.getNDegreeTests) (verifyDegreeTest (prescribed tensor) enc
      (overlongProof D enc nPerRow nCols lens) 1 nCols)).run (calls tensor 0) =
      .ok ((List.range enc.getNDegreeTests).map fun i =>
        ([(words.getD i []).getD 0 0], words.getD i [])) (calls tensor enc.getNDegreeTests) := by
  refine run_forEach_range.mpr ⟨by simp, calls tensor, rfl, rfl, fun i hi =>
    ⟨_, by rw [List.getElem?_map, List.getElem?_range hi]; rfl, ?_⟩⟩
  have hvec : (overlongProof D enc nPerRow nCols lens).pRandomVec[i]? =
      some (overlong nPerRow (lens.getD i 0)) := by
    rw [overlongProof, List.getElem?_map, List.getElem?_eq_getElem (by omega),
      List.getD_eq_getElem _ _ (by omega)]
    rfl
  have hdrawn : tensorAt (prescribed tensor) enc 1 (calls tensor i) =
      ([(words.getD i []).getD 0 0], calls tensor (i + 1)) := by
    rw [htensor]
    rfl
  unfold verifyDegreeTest
  rw [run_bind_of_ok (run_drawTensor _ _ _), hdrawn,
    run_bind_of_ok (run_lift_of_ok (index_eq_ok.mpr hvec)),
    run_bind_of_ok (run_lift_of_ok (mapErr_eq_ok.mpr (hwords i hi))),
    run_bind_of_ok (EStateM.run_modify ..), transcriptUpdates_prescribed]
  rfl

omit [FieldHash F] [DecidableEq F] in
theorem head_codeword (hcols : 0 < nCols) {v w : List F}
    (h : enc.encode (resize nCols v) = .ok w) : w[0]? = some (dot [w.getD 0 0] [1]) := by
  have hlen := enc.length_encode h
  rw [resize, List.length_append, List.length_take, List.length_replicate] at hlen
  have hpos : 0 < w.length := by omega
  rw [List.getElem?_eq_getElem hpos, List.getD_eq_getElem _ _ hpos]
  simp [dot]

theorem run_verify_overlong {tensor : ℕ → F}
    (htensor : tensor = fun i => (words.getD i []).getD 0 0)
    (hdims : enc.dimsOk nPerRow nCols = true) (hcols : 0 < nCols)
    (hopens : 0 < enc.getNColOpens) (hlens : enc.getNDegreeTests ≤ lens.length)
    (hwords : ∀ i < enc.getNDegreeTests,
      enc.encode (resize nCols (overlong nPerRow (lens.getD i 0))) = .ok (words.getD i []))
    {evalWord : List F} (heval : enc.encode (resize nCols (.replicate nPerRow 0)) = .ok evalWord) :
    (verify (prescribed tensor) enc (columnLeaf D [(1 : F)]) [evalWord.getD 0 0]
      (.replicate nPerRow 0) (overlongProof D enc nPerRow nCols lens)).run (calls tensor 0) =
      .ok (dot (.replicate nPerRow 0) (.replicate nPerRow 0))
        (calls tensor (enc.getNDegreeTests + 1)) := by
  set proof := overlongProof D enc nPerRow nCols lens with hproof
  have hopened : proof.columns = .replicate enc.getNColOpens ⟨[1], []⟩ := rfl
  have hfirst : proof.columns[0]? = some ⟨[1], []⟩ := by
    rw [hopened, List.getElem?_replicate, if_pos hopens]
  have hper : proof.getNPerRow = nPerRow := List.length_replicate
  have hncols : proof.getNCols = nCols := rfl
  have hpEval : proof.pEval = .replicate nPerRow 0 := rfl
  have hdrawn : columnsAt (prescribed tensor) enc nCols (calls tensor enc.getNDegreeTests) =
      ((List.range enc.getNColOpens).map fun _ => 0, calls tensor (enc.getNDegreeTests + 1)) := rfl
  have hcolumns : ∀ p ∈ ((List.range enc.getNColOpens).map fun _ => 0).zip proof.columns,
      verifyColumn (columnLeaf D [(1 : F)]) [evalWord.getD 0 0]
        ((List.range enc.getNDegreeTests).map fun i =>
          ([(words.getD i []).getD 0 0], words.getD i [])) evalWord p.1 p.2 =
            (.ok () : Fallible (VerifierError Err) Unit) := by
    rintro ⟨c, column⟩ hp
    obtain ⟨hc, hcolumn⟩ := List.of_mem_zip hp
    obtain ⟨_, -, rfl⟩ := List.mem_map.mp hc
    obtain rfl := List.eq_of_mem_replicate hcolumn
    refine verifyColumn_eq_ok.mpr ⟨fun test htest => ?_, head_codeword hcols heval,
      verifyColumnPath_iff.mpr rfl⟩
    obtain ⟨i, hi, rfl⟩ := List.mem_map.mp htest
    exact head_codeword hcols (hwords i (List.mem_range.mp hi))
  unfold verify
  rw [run_bind_of_ok (run_lift_of_ok (ensure_of
      ⟨by rw [hopened, List.length_replicate], hopens.ne'⟩ _)),
    run_bind_of_ok (run_lift_of_ok (index_eq_ok.mpr hfirst))]
  simp only [hper, hncols, hpEval, List.length_singleton]
  rw [run_bind_of_ok (run_lift_of_ok (ensure_of List.length_replicate _)),
    run_bind_of_ok (run_lift_of_ok (ensure_of trivial _)),
    run_bind_of_ok (run_lift_of_ok (ensure_of hdims _)),
    run_bind_of_ok (run_degreeTests_overlong htensor hlens hwords),
    run_bind_of_ok (EStateM.run_modify ..),
    transcriptUpdates_prescribed, run_bind_of_ok (run_drawColumns _ hcols _), hdrawn,
    run_bind_of_ok (run_lift_of_ok (mapErr_eq_ok.mpr heval)),
    run_bind_of_ok (run_lift_of_ok ((forM_eq_ok (u := ())).mpr hcolumns)),
    foldl_zip_eq_dot, zero_add]
  rfl

end Overlong

/-- For every usable encoding and row length: the degree tests of accepted proofs encode rows,
for all proofs with combinations of the lengths `lens`, exactly when no length that a test
reads exceeds the row length. -/
theorem degreeTests_sound_iff (D : Digest) (enc : LcEncoding F Err) {nPerRow nCols : ℕ}
    (lens : List ℕ) (hdims : enc.dimsOk nPerRow nCols = true) (hcols : 0 < nCols)
    (hopens : 0 < enc.getNColOpens) (hlens : enc.getNDegreeTests ≤ lens.length)
    (hencode : ∀ v : List F, v.length = nCols → ∃ w, enc.encode v = .ok w) :
    (∀ (C : Challenges F) (root : D.Output) (outer inner : List F) (proof : LcEvalProof D F)
      (tr : C.Transcript), proof.getNCols = nCols → proof.getNPerRow = nPerRow →
      proof.pRandomVec.map List.length = lens → DegreeTestsSound C enc root outer inner proof tr) ↔
    ∀ i < enc.getNDegreeTests, lens.getD i 0 ≤ nPerRow := by
  have hresize : ∀ v : List F, (resize nCols v).length = nCols := fun v => by
    rw [resize, List.length_append, List.length_take, List.length_replicate]
    omega
  constructor
  · intro hall i hi
    by_contra hlong
    obtain ⟨words, -, hwords⟩ := FoundationSlices.exists_rows (R := enc.getNDegreeTests)
      fun i _ => hencode (resize nCols (overlong nPerRow (lens.getD i 0))) (hresize _)
    obtain ⟨evalWord, heval⟩ := hencode (resize nCols (.replicate nPerRow 0)) (hresize _)
    have hrun := run_verify_overlong (D := D) rfl hdims hcols hopens hlens hwords heval
    have hshape : (overlongProof D enc nPerRow nCols lens).pRandomVec.map List.length = lens := by
      rw [overlongProof, List.map_map]
      exact (List.map_congr_left fun n _ => length_overlong nPerRow n).trans (List.map_id' lens)
    obtain ⟨pRandom, _, hget, -, hzero, -⟩ := hall _ _ _ _
      (overlongProof D enc nPerRow nCols lens) _ rfl List.length_replicate hshape _ _ hrun _ _
      (run_degreeTests_overlong rfl hlens hwords) i hi
    have hi' : i < lens.length := by omega
    rw [overlongProof, List.getElem?_map, List.getElem?_eq_getElem hi'] at hget
    obtain rfl := Option.some.inj hget
    rw [List.getD_eq_getElem _ _ hi'] at hlong
    have hlast := hzero (lens[i] - 1) (by
      rw [LcEvalProof.getNPerRow, overlongProof, List.length_replicate]
      omega)
    rw [getD_overlong (by omega)] at hlast
    exact one_ne_zero hlast
  · rintro hle C root outer inner proof tr rfl rfl rfl v tr' - tests tr₁ hrun i hi
    refine rowEncoded_of_length_le hrun hi ?_
    have hlen := hle i hi
    have hi' : i < proof.pRandomVec.length := by simpa using lt_of_lt_of_le hi hlens
    rw [List.getD_eq_getElem _ _ (by simpa using hi'), List.getElem_map] at hlen
    rwa [List.getD_eq_getElem _ _ hi']

theorem twoPoint_lengths_unsound : ¬ ∀ (C : Challenges (ZMod 257)) (root : byteSum.Output)
    (outer inner : List (ZMod 257)) (proof : LcEvalProof byteSum (ZMod 257)) (tr : C.Transcript),
    proof.getNCols = 2 → proof.getNPerRow = 1 → proof.pRandomVec.map List.length = [2] →
    DegreeTestsSound C twoPoint root outer inner proof tr := by
  intro h
  have hle := (degreeTests_sound_iff byteSum twoPoint [2] rfl (by decide) (by decide) (by decide)
    (by
      rintro (_ | ⟨a, _ | ⟨b, _ | ⟨c, v⟩⟩⟩) hv <;> simp at hv
      exact ⟨_, rfl⟩)).mp h 0 (by decide)
  exact absurd hle (by decide)

/-- An accepted proof whose combination `[1, 2]` is longer than a row: its codeword `[3, -1]`
encodes no row. -/
theorem overlong_accepted : ¬ DegreeTestsSound counting twoPoint (D := byteSum) #v[1] [0] [0]
    ⟨2, [0], [[1, 2]], [⟨[256], []⟩]⟩ (1 : ℕ) := by
  intro h
  obtain ⟨_, _, hget, -, hzero, -⟩ := h 0 (6 : ℕ) rfl [([1], [3, 256])] (4 : ℕ) rfl 0 (by decide)
  obtain rfl := Option.some.inj hget
  exact absurd (hzero 1 le_rfl) (by decide)

end CommitmentLowDegree
