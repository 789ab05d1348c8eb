import ProofOfStorage.CommitmentProof

/-! # Honest proofs verify

Prover and verifier run over the same transcript. Each round of one is matched with the
round of the other that reads the same challenges and appends the same messages.
-/
namespace CommitmentCompleteness

open FoundationFaults FoundationSlices FoundationInnerProducts CommitmentTypes CommitmentMerkle
  CommitmentProof

variable {D : Digest} {F Err : Type} [Field F]

/-- On zero-padded rows, `encode` is a linear map. -/
def LinearOnRows (enc : LcEncoding F Err) (nPerRow nCols : ℕ) : Prop :=
  ∃ L : (Fin nPerRow → F) →ₗ[F] (Fin nCols → F), ∀ x : Fin nPerRow → F,
    enc.encode (List.ofFn x ++ .replicate (nCols - nPerRow) 0) = .ok (List.ofFn (L x))

theorem row_eq_ofFn {n R r : ℕ} {l : List F} (hl : l.length = R * n) (hr : r < R) :
    row n l r = List.ofFn (rowVec n l r) := by
  apply List.ext_getElem (by rw [length_row_of_le hl hr, List.length_ofFn])
  intro c hc _
  have hc' : c < n := by rwa [length_row_of_le hl hr] at hc
  rw [List.getElem_ofFn, rowVec, ← getD_row hc' l r 0, List.getD_eq_getElem _ _ hc]

theorem resize_of_le {n : ℕ} {v : List F} (h : v.length ≤ n) :
    resize n v = v ++ .replicate (n - v.length) 0 := by
  rw [resize, List.take_of_length_le h]

theorem twoPoint_linear : LinearOnRows (twoPoint (F := F)) 1 2 := by
  refine ⟨LinearMap.pi fun _ => LinearMap.proj 0, ?_⟩
  intro x
  simp [twoPoint]

section Honest

variable {enc : LcEncoding F Err} {comm : LcCommit D F} [FieldHash F]

theorem encode_combine (hc : Committed enc comm) (hlin : LinearOnRows enc comm.nPerRow comm.nCols)
    {tensor : List F} (ht : tensor.length = comm.nRows) :
    enc.encode (resize comm.nCols (combine comm.nPerRow comm.nRows comm.coeffs tensor)) =
      .ok (combine comm.nCols comm.nRows comm.comm tensor) := by
  obtain ⟨L, hL⟩ := hlin
  obtain ⟨hcomm, hcoeffs, -, -⟩ := checkComm_eq_ok.mp hc.check
  have hrows : ∀ r < comm.nRows,
      L (rowVec comm.nPerRow comm.coeffs r) = rowVec comm.nCols comm.comm r := by
    intro r hr
    have hrun := hc.rows r hr
    rw [row_eq_ofFn hcoeffs hr, row_eq_ofFn hcomm hr, hL] at hrun
    exact List.ofFn_injective (Except.ok.inj hrun)
  rw [resize_of_le (by rw [length_combine]; exact hc.nPerRow_le), length_combine,
    combine_eq_ofFn ht, hL, ofFn_map_combine L ht hrows]

end Honest

section Runs

variable (C : Challenges F) {enc : LcEncoding F Err} {comm : LcCommit D F} [FieldHash F]

def afterDegreeTest (enc : LcEncoding F Err) (comm : LcCommit D F) (tr : C.Transcript) :
    List F × C.Transcript :=
  let drawn := tensorAt C enc comm.nRows tr
  let pRandom := combine comm.nPerRow comm.nRows comm.coeffs drawn.1
  (pRandom, transcriptUpdates C enc.labelPR pRandom drawn.2)

theorem run_proveDegreeTest (hc : Committed enc comm) (tr : C.Transcript) :
    (proveDegreeTest C enc comm).run tr =
      .ok (afterDegreeTest C enc comm tr).1 (afterDegreeTest C enc comm tr).2 := by
  obtain ⟨-, hcoeffs, -, -⟩ := checkComm_eq_ok.mp hc.check
  unfold proveDegreeTest
  rw [run_bind_of_ok (run_drawTensor C _ tr)]
  rw [run_bind_of_ok (run_lift_of_ok (collapseColumns_zeros hcoeffs (length_tensorAt C _ tr)))]
  rfl

theorem run_verifyDegreeTest (hc : Committed enc comm)
    (hlin : LinearOnRows enc comm.nPerRow comm.nCols) {proof : LcEvalProof D F} {i : ℕ}
    {tr : C.Transcript} (hi : proof.pRandomVec[i]? = some (afterDegreeTest C enc comm tr).1) :
    (verifyDegreeTest C enc proof comm.nRows comm.nCols i).run tr =
      .ok ((tensorAt C enc comm.nRows tr).1,
          combine comm.nCols comm.nRows comm.comm (tensorAt C enc comm.nRows tr).1)
        (afterDegreeTest C enc comm tr).2 := by
  have henc : enc.encode (resize comm.nCols (afterDegreeTest C enc comm tr).1) = .ok _ :=
    encode_combine hc hlin (length_tensorAt C comm.nRows tr)
  exact run_verifyDegreeTest_of hi henc tr

theorem run_degreeTests (hc : Committed enc comm)
    (hlin : LinearOnRows enc comm.nPerRow comm.nCols) (proof : LcEvalProof D F) {n : ℕ}
    {tr tr' : C.Transcript} (hprove : (forEach (List.range n) fun _ =>
      proveDegreeTest C enc comm).run tr = .ok proof.pRandomVec tr') :
    ∃ tests, (forEach (List.range n) (verifyDegreeTest C enc proof comm.nRows comm.nCols)).run tr =
      .ok tests tr' ∧ ∀ test ∈ tests, test.1.length = comm.nRows ∧
        test.2 = combine comm.nCols comm.nRows comm.comm test.1 := by
  obtain ⟨-, st, h0, hn, hstep⟩ := run_forEach_range.mp hprove
  refine ⟨(List.range n).map fun i => ((tensorAt C enc comm.nRows (st i)).1,
    combine comm.nCols comm.nRows comm.comm (tensorAt C enc comm.nRows (st i)).1),
    run_forEach_range.mpr ⟨by simp, st, h0, hn, fun i hi => ?_⟩, ?_⟩
  · obtain ⟨p, hp, hrun⟩ := hstep i hi
    rw [run_proveDegreeTest C hc] at hrun
    obtain ⟨rfl, hnext⟩ := EStateM.Result.ok.inj hrun
    refine ⟨_, by rw [List.getElem?_map, List.getElem?_range hi]; rfl, ?_⟩
    rw [run_verifyDegreeTest C hc hlin hp, hnext]
  · intro test htest
    obtain ⟨i, -, rfl⟩ := List.mem_map.mp htest
    exact ⟨length_tensorAt C _ _, rfl⟩

end Runs

section Columns

variable {enc : LcEncoding F Err} {comm : LcCommit D F} [DecidableEq F]

variable [FieldHash F]

def honestColumn (hc : Committed enc comm) (c : ℕ) : LcColumn D F :=
  ⟨column comm.nCols comm.nRows comm.comm c, hc.merkleized.tree.levelOrder.path c⟩

omit [DecidableEq F] in
theorem getRoot_eq {ε : Type} (hc : Committed enc comm) :
    (getRoot comm : Fallible ε _) = .ok ⟨hc.merkleized.tree.levelOrder.root⟩ := by
  rw [getRoot, hc.merkleized.tree.getLast?_eq]

omit [DecidableEq F] in
theorem verifyPaths_honest (hc : Committed enc comm) {cols : List ℕ}
    (hcols : ∀ c ∈ cols, c < comm.nCols) :
    ∀ p ∈ cols.zip (cols.map (honestColumn hc)),
      verifyColumnPath p.2 p.1 hc.merkleized.tree.levelOrder.root = true := by
  rw [forall_mem_zip_map]
  intro c hmem
  exact hc.merkleized.verify_opening (hcols c hmem)

theorem verifyColumn_honest (hc : Committed enc comm) (outer : List F) {c : ℕ}
    {tests : List (List F × List F)} (hcol : c < comm.nCols)
    (htests : ∀ test ∈ tests, test.2 = combine comm.nCols comm.nRows comm.comm test.1) :
    (verifyColumn hc.merkleized.tree.levelOrder.root outer tests
      (combine comm.nCols comm.nRows comm.comm outer) c (honestColumn hc c) :
        Fallible (VerifierError Err) Unit) = .ok () := by
  have hentry : ∀ tensor : List F, (combine comm.nCols comm.nRows comm.comm tensor)[c]? =
      some (dot tensor (honestColumn hc c).col) := by
    intro tensor
    have hlt : c < (combine comm.nCols comm.nRows comm.comm tensor).length := by simpa using hcol
    rw [List.getElem?_eq_getElem hlt, ← List.getD_eq_getElem _ 0 hlt, getD_combine hcol,
      honestColumn]
  refine verifyColumn_eq_ok.mpr ⟨fun test htest => ?_, hentry outer,
    hc.merkleized.verify_opening hcol⟩
  rw [htests test htest, hentry]

theorem verifyColumns_honest (hc : Committed enc comm) (outer : List F) {cols : List ℕ}
    {tests : List (List F × List F)} (hcols : ∀ c ∈ cols, c < comm.nCols)
    (htests : ∀ test ∈ tests, test.2 = combine comm.nCols comm.nRows comm.comm test.1) :
    ((cols.zip (cols.map (honestColumn hc))).forM fun p =>
      verifyColumn hc.merkleized.tree.levelOrder.root outer tests
        (combine comm.nCols comm.nRows comm.comm outer) p.1 p.2 :
          Fallible (VerifierError Err) Unit) = .ok () := by
  rw [forM_eq_ok, forall_mem_zip_map]
  intro c hmem
  exact verifyColumn_honest hc outer (hcols c hmem) htests

end Columns

section Queries

variable (C : Challenges F) {enc : LcEncoding F Err} {comm : LcCommit D F} [FieldHash F]

/-- The honest proof for `outer`, given the combinations sent in the degree tests and the
transcript after them. -/
def honestProof (hc : Committed enc comm) (outer : List F) (pRandomVec : List (List F))
    (tr : C.Transcript) : LcEvalProof D F × C.Transcript :=
  let pEval := combine comm.nPerRow comm.nRows comm.coeffs outer
  let opened := columnsAt C enc comm.nCols (transcriptUpdates C enc.labelPE pEval tr)
  (⟨comm.nCols, pEval, pRandomVec, opened.1.map (honestColumn hc)⟩, opened.2)

theorem run_prove (hc : Committed enc comm) {outer : List F} (houter : outer.length = comm.nRows)
    {tr tr₁ : C.Transcript} {pRandomVec : List (List F)}
    (htests :
      (forEach (List.range enc.getNDegreeTests) fun _ => proveDegreeTest C enc comm).run tr =
      .ok pRandomVec tr₁) :
    (prove C enc comm outer).run tr =
      .ok (honestProof C hc outer pRandomVec tr₁).1 (honestProof C hc outer pRandomVec tr₁).2 := by
  obtain ⟨hcomm, hcoeffs, -, -⟩ := checkComm_eq_ok.mp hc.check
  have hpos : 0 < comm.nCols := by have := hc.two_le; omega
  have hopen : ∀ {cols : List ℕ}, (∀ c ∈ cols, c < comm.nCols) →
      (cols.mapM (openColumn comm) : Fallible (ProverError Err) _) =
        .ok (cols.map (honestColumn hc)) := fun hcols =>
    mapM_of_forall fun c hcol => openColumn_eq hc.merkleized hcomm (hcols c hcol)
  unfold prove
  rw [run_bind_of_ok (run_lift_of_ok hc.check),
    run_bind_of_ok (run_lift_of_ok (ensure_of houter _)), run_bind_of_ok htests,
    run_bind_of_ok (run_lift_of_ok (collapseColumns_zeros hcoeffs houter)),
    run_bind_of_ok (EStateM.run_modify ..), run_bind_of_ok (run_drawColumns C hpos _),
    run_bind_of_ok (run_lift_of_ok (hopen (columnsAt_lt C hpos _)))]
  rfl

variable [DecidableEq F]

theorem run_verify (hc : Committed enc comm) (hlin : LinearOnRows enc comm.nPerRow comm.nCols)
    (hopens : 0 < enc.getNColOpens) {outer inner : List F} (houter : outer.length = comm.nRows)
    (hinner : inner.length = comm.nPerRow) {tr tr₁ : C.Transcript} {pRandomVec : List (List F)}
    (htests :
      (forEach (List.range enc.getNDegreeTests) fun _ => proveDegreeTest C enc comm).run tr =
      .ok pRandomVec tr₁) :
    (verify C enc hc.merkleized.tree.levelOrder.root outer inner
      (honestProof C hc outer pRandomVec tr₁).1).run tr =
      .ok (dot inner (combine comm.nPerRow comm.nRows comm.coeffs outer))
        (honestProof C hc outer pRandomVec tr₁).2 := by
  obtain ⟨-, -, -, hdims⟩ := checkComm_eq_ok.mp hc.check
  have hpos : 0 < comm.nCols := by have := hc.two_le; omega
  set proof := (honestProof C hc outer pRandomVec tr₁).1 with hproof
  have hcols : proof.columns.length = enc.getNColOpens := by
    simp [hproof, honestProof]
  have hfirst : ∃ c, proof.columns[0]? = some (honestColumn hc c) := by
    rw [hproof, honestProof, List.getElem?_map, List.getElem?_eq_getElem (by simpa using hopens)]
    exact ⟨_, rfl⟩
  obtain ⟨c₀, hfirst⟩ := hfirst
  have hrows : (honestColumn hc c₀).col.length = comm.nRows := length_column ..
  have hper : proof.getNPerRow = comm.nPerRow := length_combine ..
  have hncols : proof.getNCols = comm.nCols := rfl
  have heval : proof.pEval = combine comm.nPerRow comm.nRows comm.coeffs outer := rfl
  have hopened : proof.columns = ((columnsAt C enc comm.nCols (transcriptUpdates C enc.labelPE
    (combine comm.nPerRow comm.nRows comm.coeffs outer) tr₁)).1).map (honestColumn hc) := rfl
  obtain ⟨tests, hverify, hall⟩ := run_degreeTests C hc hlin proof htests
  unfold verify
  rw [run_bind_of_ok (run_lift_of_ok (ensure_of ⟨hcols.symm, hopens.ne'⟩ _)),
    run_bind_of_ok (run_lift_of_ok (index_eq_ok.mpr hfirst))]
  simp only [hrows, hper, hncols, heval, hopened]
  rw [run_bind_of_ok (run_lift_of_ok (ensure_of hinner _)),
    run_bind_of_ok (run_lift_of_ok (ensure_of houter _)),
    run_bind_of_ok (run_lift_of_ok (ensure_of hdims _)), run_bind_of_ok hverify,
    run_bind_of_ok (EStateM.run_modify ..), run_bind_of_ok (run_drawColumns C hpos _),
    run_bind_of_ok (run_lift_of_ok (mapErr_eq_ok.mpr (encode_combine hc hlin houter))),
    run_bind_of_ok (run_lift_of_ok (verifyColumns_honest hc outer (columnsAt_lt C hpos _)
      fun test htest => (hall test htest).2)), foldl_zip_eq_dot, zero_add]
  rfl

/-- Completeness for one query: prover and verifier finish, on the same transcript. -/
theorem prove_verify (hc : Committed enc comm) (hlin : LinearOnRows enc comm.nPerRow comm.nCols)
    (hopens : 0 < enc.getNColOpens) {outer inner : List F} (houter : outer.length = comm.nRows)
    (hinner : inner.length = comm.nPerRow) (tr : C.Transcript) :
    ∃ proof tr', (prove C enc comm outer).run tr = .ok proof tr' ∧
      (verify C enc hc.merkleized.tree.levelOrder.root outer inner proof).run tr =
        .ok (∑ i ∈ Finset.range comm.nRows, ∑ j ∈ Finset.range comm.nPerRow,
          outer.getD i 0 * comm.coeffs.getD (i * comm.nPerRow + j) 0 * inner.getD j 0) tr' := by
  obtain ⟨ps, tr₁, htests⟩ : ∃ ps tr₁, (forEach (List.range enc.getNDegreeTests) fun _ =>
      proveDegreeTest C enc comm).run tr = .ok ps tr₁ :=
    forEach_total (fun _ _ s => ⟨_, _, run_proveDegreeTest C hc s⟩) tr
  refine ⟨_, _, run_prove C hc houter htests, ?_⟩
  rw [run_verify C hc hlin hopens houter hinner htests, dot_combine houter hinner]

/-- A query of a session: what happens to the transcript before it, and its two tensors. -/
structure Query (C : Challenges F) where
  before : C.Transcript → C.Transcript
  outer : List F
  inner : List F

def proveQuery (enc : LcEncoding F Err) (comm : LcCommit D F) (q : Query C) :
    Stateful (ProverError Err) C.Transcript (LcEvalProof D F) := do
  modify q.before
  prove C enc comm q.outer

def verifyQuery (enc : LcEncoding F Err) (root : D.Output) (q : Query C × LcEvalProof D F) :
    Stateful (VerifierError Err) C.Transcript F := do
  modify q.1.before
  verify C enc root q.1.outer q.1.inner q.2

def Query.value {C : Challenges F} (q : Query C) (nRows nPerRow : ℕ) (coeffs : List F) : F :=
  ∑ i ∈ Finset.range nRows, ∑ j ∈ Finset.range nPerRow,
    q.outer.getD i 0 * coeffs.getD (i * nPerRow + j) 0 * q.inner.getD j 0

theorem prove_verify_session (hc : Committed enc comm)
    (hlin : LinearOnRows enc comm.nPerRow comm.nCols) (hopens : 0 < enc.getNColOpens)
    {queries : List (Query C)}
    (hqueries : ∀ q ∈ queries, q.outer.length = comm.nRows ∧ q.inner.length = comm.nPerRow)
    (tr : C.Transcript) :
    ∃ proofs tr', (forEach queries (proveQuery C enc comm)).run tr = .ok proofs tr' ∧
      proofs.length = queries.length ∧
      (forEach (queries.zip proofs)
        (verifyQuery C enc hc.merkleized.tree.levelOrder.root)).run tr =
        .ok (queries.map fun q => q.value comm.nRows comm.nPerRow comm.coeffs) tr' := by
  unfold forEach
  induction queries generalizing tr with
  | nil => exact ⟨[], tr, rfl, rfl, rfl⟩
  | cons q queries ih =>
    obtain ⟨houter, hinner⟩ := hqueries q (by simp)
    obtain ⟨proof, tr₁, hprove, hverify⟩ :=
      prove_verify C hc hlin hopens houter hinner (q.before tr)
    obtain ⟨proofs, tr₂, hproves, hlen, hverifies⟩ := ih (fun p hp => hqueries p (by simp [hp])) tr₁
    have hstep : (proveQuery C enc comm q).run tr = .ok proof tr₁ := by
      rw [proveQuery, run_bind_of_ok (EStateM.run_modify ..), hprove]
    have hcheck : (verifyQuery C enc hc.merkleized.tree.levelOrder.root (q, proof)).run tr =
        .ok (q.value comm.nRows comm.nPerRow comm.coeffs) tr₁ := by
      rw [verifyQuery, run_bind_of_ok (EStateM.run_modify ..), hverify, Query.value]
    refine ⟨proof :: proofs, tr₂, ?_, by simp [hlen], ?_⟩
    · rw [List.mapM_cons, run_bind_of_ok hstep, run_bind_of_ok hproves, EStateM.run_pure]
    · rw [List.zip_cons_cons, List.mapM_cons, run_bind_of_ok hcheck, run_bind_of_ok hverifies,
        EStateM.run_pure, List.map_cons]

/-- Completeness: on a committed vector every honest proof verifies, with the value of the
polynomial as the result, and both sides leave the transcript in one state; so do sessions of
any length. -/
theorem commitment_complete {coeffs : List F} (hcommit : commit D coeffs enc = .ok comm)
    (hlin : LinearOnRows enc comm.nPerRow comm.nCols) (hopens : 0 < enc.getNColOpens) :
    ∃ root, (getRoot comm : Fallible (ProverError Err) _) = .ok root ∧
      (∀ outer inner : List F, outer.length = comm.nRows → inner.length = comm.nPerRow →
        ∀ tr : C.Transcript, ∃ proof tr', (prove C enc comm outer).run tr = .ok proof tr' ∧
          (verify C enc root.root outer inner proof).run tr =
            .ok (∑ i ∈ Finset.range comm.nRows, ∑ j ∈ Finset.range comm.nPerRow,
              outer.getD i 0 * coeffs.getD (i * comm.nPerRow + j) 0 * inner.getD j 0) tr') ∧
      ∀ queries : List (Query C),
        (∀ q ∈ queries, q.outer.length = comm.nRows ∧ q.inner.length = comm.nPerRow) →
        ∀ tr : C.Transcript, ∃ proofs tr', proofs.length = queries.length ∧
          (forEach queries (proveQuery C enc comm)).run tr = .ok proofs tr' ∧
          (forEach (queries.zip proofs) (verifyQuery C enc root.root)).run tr =
            .ok (queries.map fun q => q.value comm.nRows comm.nPerRow coeffs) tr' := by
  obtain ⟨hc, hentries⟩ := commit_eq_ok hcommit
  refine ⟨_, getRoot_eq hc, fun outer inner houter hinner tr => ?_, fun queries hqueries tr => ?_⟩
  · simpa only [hentries] using prove_verify C hc hlin hopens houter hinner tr
  · obtain ⟨proofs, tr', hprove, hlen, hverify⟩ :=
      prove_verify_session C hc hlin hopens hqueries tr
    refine ⟨proofs, tr', hlen, hprove, ?_⟩
    simpa only [Query.value, hentries] using hverify

theorem twoPoint_complete : ∃ comm : LcCommit byteSum (ZMod 257),
    commit byteSum [3, 5, 7] twoPoint = .ok comm ∧
    ∃ root, (getRoot comm : Fallible (ProverError Unit) _) = .ok root ∧ ∃ proof tr',
      (prove counting twoPoint comm [1, 2, 4]).run (0 : ℕ) = .ok proof tr' ∧
      (verify counting twoPoint root.root [1, 2, 4] [2] proof).run (0 : ℕ) = .ok 82 tr' := by
  obtain ⟨comm, hcommit, hrows, hper, hcols⟩ := commit_total (D := byteSum) (F := ZMod 257)
    twoPoint [3, 5, 7] rfl (by decide) (by decide) rfl (by decide) (by decide) (by decide) (by
      rintro (_ | ⟨a, _ | ⟨b, _ | ⟨c, v⟩⟩⟩) hv <;> simp at hv
      exact ⟨_, rfl⟩)
  obtain ⟨root, hroot, hquery, -⟩ := commitment_complete counting hcommit
    (by rw [hper, hcols]; exact twoPoint_linear) (by decide)
  obtain ⟨proof, tr', hprove, hverify⟩ := hquery [1, 2, 4] [2] (by rw [hrows]; rfl)
    (by rw [hper]; rfl) (0 : ℕ)
  refine ⟨comm, hcommit, root, hroot, proof, tr', hprove, ?_⟩
  rw [hverify, hrows, hper]
  congr 1

end Queries

end CommitmentCompleteness
