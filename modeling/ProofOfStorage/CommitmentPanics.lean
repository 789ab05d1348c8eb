import ProofOfStorage.CommitmentProof
import ProofOfStorage.FoundationPanics

/-! # When the verifier panics

The number of columns and the three dimensions of a proof are checked up front, the number of its
random combinations is not.
-/
namespace CommitmentPanics

open FoundationFaults FoundationPanics FoundationSlices CommitmentTypes CommitmentMerkle
  CommitmentProof

variable {D : Digest} {F Err : Type} [Field F] [FieldHash F] [DecidableEq F] {C : Challenges F}
  {enc : LcEncoding F Err} {root : D.Output} {outer inner : List F} {proof : LcEvalProof D F}

structure Accepting (enc : LcEncoding F Err) : Prop where
  lt : ∀ {nPerRow nCols}, enc.dimsOk nPerRow nCols = true → nPerRow < nCols
  total : ∀ {nPerRow nCols v}, enc.dimsOk nPerRow nCols = true → v.length = nCols →
    ∃ w, enc.encode v = .ok w

structure PassesChecks (enc : LcEncoding F Err) (outer inner : List F) (proof : LcEvalProof D F) :
    Prop where
  opens : enc.getNColOpens = proof.columns.length ∧ enc.getNColOpens ≠ 0
  outer : ∃ first, proof.columns[0]? = some first ∧ outer.length = first.col.length
  inner : inner.length = proof.getNPerRow
  dims : enc.dimsOk proof.getNPerRow proof.getNCols = true

section DegreeTests

variable {nRows nCols : ℕ}

omit [DecidableEq F] in
theorem verifyDegreeTest_total
    (hencode : ∀ v : List F, v.length = nCols → ∃ w, enc.encode v = .ok w) {i : ℕ}
    (hi : i < proof.pRandomVec.length) (tr : C.Transcript) :
    ∃ test tr', (verifyDegreeTest C enc proof nRows nCols i).run tr = .ok test tr' := by
  obtain ⟨word, hword⟩ := hencode (resize nCols proof.pRandomVec[i]) (length_resize ..)
  exact ⟨_, _, run_verifyDegreeTest_of (List.getElem?_eq_getElem hi) hword tr⟩

omit [DecidableEq F] in
theorem verifyDegreeTest_panics {i : ℕ} (hi : proof.pRandomVec.length ≤ i) (tr : C.Transcript) :
    Panics (verifyDegreeTest C enc proof nRows nCols i) tr := by
  unfold verifyDegreeTest
  rw [panics_bind_of_ok (run_drawTensor C _ tr), panics_lift_bind]
  exact .inl (index_eq_panic.mpr hi)

omit [DecidableEq F] in
theorem degreeTests_panic_iff
    (hencode : ∀ v : List F, v.length = nCols → ∃ w, enc.encode v = .ok w) (n : ℕ)
    (tr : C.Transcript) :
    Panics (forEach (List.range n) (verifyDegreeTest C enc proof nRows nCols)) tr ↔
      proof.pRandomVec.length < n := by
  constructor
  · intro hpanics
    by_contra henough
    have htotal : ∀ i ∈ List.range n, ∀ tr, ∃ test tr',
        (verifyDegreeTest C enc proof nRows nCols i).run tr = .ok test tr' := by
      intro i hi
      exact verifyDegreeTest_total hencode
        (Nat.lt_of_lt_of_le (List.mem_range.mp hi) (Nat.le_of_not_lt henough))
    obtain ⟨tests, tr', hrun⟩ := forEach_total htotal tr
    exact not_panics_of_ok hrun hpanics
  · intro hshort
    obtain ⟨k, rfl⟩ := Nat.exists_eq_add_of_lt hshort
    have hrange : List.range (proof.pRandomVec.length + k + 1) =
        List.range proof.pRandomVec.length ++ proof.pRandomVec.length ::
          (List.range k).map fun j => proof.pRandomVec.length + (j + 1) := by
      rw [Nat.add_assoc, List.range_add, List.range_succ_eq_map, List.map_cons, List.map_map]
      rfl
    rw [hrange]
    refine panics_forEach ?_ (verifyDegreeTest_panics le_rfl)
    intro i hi
    exact verifyDegreeTest_total hencode (List.mem_range.mp hi)

omit [DecidableEq F] in
theorem length_of_degreeTests {n : ℕ} {tr tr' : C.Transcript} {tests : List (List F × List F)}
    (h : (forEach (List.range n) (verifyDegreeTest C enc proof nRows nCols)).run tr =
      .ok tests tr') : ∀ test ∈ tests, test.2.length = nCols := by
  obtain ⟨hlen, st, -, -, hstep⟩ := run_forEach_range.mp h
  intro test hmem
  obtain ⟨i, hi, rfl⟩ := List.getElem_of_mem hmem
  obtain ⟨test, htest, hrun⟩ := hstep i (hlen ▸ hi)
  obtain rfl := Option.some.inj ((List.getElem?_eq_getElem hi).symm.trans htest)
  exact length_of_verifyDegreeTest hrun

end DegreeTests

theorem verifyColumn_ne_panic {tests : List (List F × List F)} {pEvalFft : List F} {c : ℕ}
    {column : LcColumn D F} (htests : ∀ test ∈ tests, c < test.2.length)
    (heval : c < pEvalFft.length) :
    (verifyColumn root outer tests pEvalFft c column : Fallible (VerifierError Err) Unit) ≠
      .error .panic := by
  have hrand : (tests.foldlM (fun rand test => do
      return rand && verifyColumnValue column test.1 (← index test.2 c)) true :
        Fallible (VerifierError Err) Bool) ≠ .error .panic := by
    refine foldlM_ne_panic fun rand test htest => ?_
    rw [index_of_lt (htests test htest)]
    exact nofun
  unfold verifyColumn
  rw [index_of_lt heval]
  simp only [Ne, bind_eq_panic, ensure_ne_panic, ok_bind, hrand, false_or, not_exists, not_and,
    not_false_eq_true, and_false, implies_true]

/-- Past its checks the verifier panics in the degree tests or not at all. -/
theorem verify_panics_iff (henc : Accepting enc) (tr : C.Transcript) :
    Panics (verify C enc root outer inner proof) tr ↔
      PassesChecks enc outer inner proof ∧ proof.pRandomVec.length < enc.getNDegreeTests := by
  unfold verify
  constructor
  · intro h
    obtain ⟨hopens, h⟩ := panics_ensure_bind.mp h
    rcases panics_lift_bind.mp h with hpanic | ⟨first, hfirst, h⟩
    · have := index_eq_panic.mp hpanic
      omega
    obtain ⟨hinner, h⟩ := panics_ensure_bind.mp h
    obtain ⟨houter, h⟩ := panics_ensure_bind.mp h
    obtain ⟨hdims, h⟩ := panics_ensure_bind.mp h
    refine ⟨⟨hopens, ⟨first, index_eq_ok.mp hfirst, houter⟩, hinner, hdims⟩, ?_⟩
    have hencode : ∀ v : List F, v.length = proof.getNCols → ∃ w, enc.encode v = .ok w :=
      fun v hv => henc.total hdims hv
    rcases panics_bind.mp h with htests | ⟨tests, tr₁, htests, h⟩
    · exact (degreeTests_panic_iff hencode _ _).mp htests
    -- Behind the degree tests every index is below the number of columns.
    exfalso
    have hpos : 0 < proof.getNCols := Nat.zero_lt_of_lt (henc.lt hdims)
    rw [panics_bind_of_ok (EStateM.run_modify ..),
      panics_bind_of_ok (run_drawColumns C hpos _)] at h
    rcases panics_lift_bind.mp h with hpanic | ⟨pEvalFft, hword, h⟩
    · obtain ⟨word, hword⟩ := hencode (resize proof.getNCols proof.pEval) (length_resize ..)
      rw [mapErr_eq_panic, hword] at hpanic
      cases hpanic
    have hlen : pEvalFft.length = proof.getNCols :=
      (enc.length_encode (mapErr_eq_ok.mp hword)).trans (length_resize ..)
    rcases panics_lift_bind.mp h with hpanic | ⟨_, -, h⟩
    · refine forM_ne_panic ?_ hpanic
      rintro ⟨c, column⟩ hmem
      have hc : c < proof.getNCols := columnsAt_lt C hpos _ c (List.of_mem_zip hmem).1
      refine verifyColumn_ne_panic ?_ (hlen ▸ hc)
      intro test htest
      rwa [length_of_degreeTests htests test htest]
    · exact not_panics_of_ok (EStateM.run_pure ..) h
  · rintro ⟨⟨hopens, ⟨first, hfirst, houter⟩, hinner, hdims⟩, hshort⟩
    have htests : Panics (forEach (List.range enc.getNDegreeTests)
        (verifyDegreeTest C enc proof first.col.length proof.getNCols)) tr :=
      (degreeTests_panic_iff (fun v hv => henc.total hdims hv) _ _).mpr hshort
    refine panics_ensure_bind.mpr ⟨hopens, ?_⟩
    rw [panics_bind_of_ok (run_lift_of_ok (index_eq_ok.mpr hfirst))]
    refine panics_ensure_bind.mpr ⟨hinner, panics_ensure_bind.mpr ⟨houter, ?_⟩⟩
    exact panics_ensure_bind.mpr ⟨hdims, panics_bind.mpr (.inl htests)⟩

/-- The verifier returns a value or an error exactly when every degree test finds a combination,
or when an earlier check refuses the proof. -/
theorem verify_returns_iff (henc : Accepting enc) (root : D.Output) (outer inner : List F)
    (proof : LcEvalProof D F) (tr : C.Transcript) :
    ((∃ v tr', (verify C enc root outer inner proof).run tr = .ok v tr') ∨
      ∃ e tr', (verify C enc root outer inner proof).run tr = .error (.error e) tr') ↔
      (PassesChecks enc outer inner proof → enc.getNDegreeTests ≤ proof.pRandomVec.length) := by
  rw [← not_panics_iff, verify_panics_iff henc, not_and, Nat.not_lt]

omit [FieldHash F] [DecidableEq F] in
theorem accepting_twoPoint : Accepting (twoPoint (F := F)) := by
  have hdims : ∀ {nPerRow nCols : ℕ}, (twoPoint (F := F)).dimsOk nPerRow nCols = true →
      nPerRow = 1 ∧ nCols = 2 := by
    intro nPerRow nCols h
    simpa [twoPoint] using h
  constructor
  · intro nPerRow nCols h
    obtain ⟨rfl, rfl⟩ := hdims h
    decide
  · intro nPerRow nCols v h hv
    obtain ⟨rfl, rfl⟩ := hdims h
    obtain ⟨a, b, rfl⟩ := List.length_eq_two.mp hv
    exact ⟨_, rfl⟩

theorem verify_returns_small :
    (∃ v tr', (verify counting (D := byteSum) twoPoint #v[0] [0] [0]
      ⟨2, [0], [[0]], [⟨[0], []⟩]⟩).run (0 : ℕ) = .ok v tr') ∨
    ∃ e tr', (verify counting (D := byteSum) twoPoint #v[0] [0] [0]
      ⟨2, [0], [[0]], [⟨[0], []⟩]⟩).run (0 : ℕ) = .error (.error e) tr' :=
  (verify_returns_iff accepting_twoPoint _ _ _ _ _).mpr fun _ => le_rfl

/-- The same proof without its combination is not refused. -/
theorem missing_combination_panics : Accepting (twoPoint (F := ZMod 257)) ∧
    (verify counting (D := byteSum) twoPoint #v[0] [0] [0] ⟨2, [0], [], [⟨[0], []⟩]⟩).run (0 : ℕ) =
      .error .panic (1 : ℕ) :=
  ⟨accepting_twoPoint, rfl⟩

end CommitmentPanics
