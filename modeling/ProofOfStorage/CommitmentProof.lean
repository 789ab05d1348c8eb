import ProofOfStorage.CommitmentMerkle
import ProofOfStorage.FoundationInnerProducts

/-! # Committing, proving and verifying evaluations

The proof shows that the committed rows have low degree and that the polynomial has the
claimed value. Parallel loops run in order here; their bodies touch disjoint data.
-/
namespace CommitmentProof

open FoundationFaults FoundationSlices FoundationInnerProducts CommitmentTypes CommitmentMerkle

variable {D : Digest} {F Err : Type}

def checkComm (comm : LcCommit D F) (enc : LcEncoding F Err) :
    Fallible (ProverError Err) Unit :=
  let commSz := comm.comm.length ≠ comm.nRows * comm.nCols
  let coeffSz := comm.coeffs.length ≠ comm.nRows * comm.nPerRow
  let hashlen := comm.hashes.length ≠ 2 * nextPowerOfTwo comm.nCols - 1
  let dims := enc.dimsOk comm.nPerRow comm.nCols = false
  if commSz ∨ coeffSz ∨ hashlen ∨ dims then fail .commit else .ok ()

theorem checkComm_eq_ok {enc : LcEncoding F Err} {comm : LcCommit D F} :
    checkComm comm enc = .ok () ↔ comm.comm.length = comm.nRows * comm.nCols ∧
      comm.coeffs.length = comm.nRows * comm.nPerRow ∧
      comm.hashes.length = 2 * nextPowerOfTwo comm.nCols - 1 ∧
      enc.dimsOk comm.nPerRow comm.nCols = true := by
  simp only [checkComm, fail]
  split
  · rename_i hbad
    refine ⟨nofun, fun ⟨hcomm, hcoeffs, hhashes, hdims⟩ => ?_⟩
    simp [hcomm, hcoeffs, hhashes, hdims] at hbad
  · rename_i hgood
    simpa [not_or] using hgood

def getRoot {ε : Type} (comm : LcCommit D F) : Fallible ε (LcRoot D) :=
  match comm.hashes.getLast? with
  | some root => .ok ⟨root⟩
  | none => panicked

section Draws

variable (C : Challenges F) (enc : LcEncoding F Err)

def transcriptUpdates [FieldHash F] (label : List UInt8) (coeffs : List F) (tr : C.Transcript) :
    C.Transcript :=
  coeffs.foldl (fun tr x => C.appendMessage tr label (FieldHash.toHashRepr x)) tr

def drawTensor {ε : Type} (nRows : ℕ) : Stateful ε C.Transcript (List F) := do
  let key ← modifyGet fun tr => C.challengeBytes tr enc.labelDT
  return (List.range nRows).map (C.randomField key)

/-- The column numbers to open; a uniform distribution over an empty range panics. -/
def drawColumns {ε : Type} (nCols : ℕ) : Stateful ε C.Transcript (List ℕ) := do
  let key ← modifyGet fun tr => C.challengeBytes tr enc.labelCO
  lift (assert (0 < nCols))
  return (List.range enc.getNColOpens).map (C.sampleUniform nCols key)

variable {ε : Type} {enc}

def tensorAt (enc : LcEncoding F Err) (nRows : ℕ) (tr : C.Transcript) : List F × C.Transcript :=
  ((List.range nRows).map (C.randomField (C.challengeBytes tr enc.labelDT).1),
    (C.challengeBytes tr enc.labelDT).2)

def columnsAt (enc : LcEncoding F Err) (nCols : ℕ) (tr : C.Transcript) :
    List ℕ × C.Transcript :=
  ((List.range enc.getNColOpens).map (C.sampleUniform nCols (C.challengeBytes tr enc.labelCO).1),
    (C.challengeBytes tr enc.labelCO).2)

@[simp] theorem length_tensorAt (nRows : ℕ) (tr : C.Transcript) :
    (tensorAt C enc nRows tr).1.length = nRows := by simp [tensorAt]

@[simp] theorem length_columnsAt (nCols : ℕ) (tr : C.Transcript) :
    (columnsAt C enc nCols tr).1.length = enc.getNColOpens := by simp [columnsAt]

theorem columnsAt_lt {nCols : ℕ} (h : 0 < nCols) (tr : C.Transcript) :
    ∀ c ∈ (columnsAt C enc nCols tr).1, c < nCols := by
  intro c hc
  obtain ⟨k, -, rfl⟩ := List.mem_map.mp hc
  exact C.sampleUniform_lt h _ _

theorem run_drawTensor (nRows : ℕ) (tr : C.Transcript) :
    (drawTensor C enc nRows : Stateful ε _ _).run tr =
      .ok (tensorAt C enc nRows tr).1 (tensorAt C enc nRows tr).2 := rfl

theorem run_drawColumns {nCols : ℕ} (h : 0 < nCols) (tr : C.Transcript) :
    (drawColumns C enc nCols : Stateful ε _ _).run tr =
      .ok (columnsAt C enc nCols tr).1 (columnsAt C enc nCols tr).2 := by
  unfold drawColumns
  rw [run_bind_of_ok (EStateM.run_modifyGet ..), run_bind_of_ok (run_lift_of_ok (assert_of h))]
  rfl

end Draws

variable [Field F]

def commit [FieldHash F] (D : Digest) (coeffsIn : List F) (enc : LcEncoding F Err) :
    Fallible (ProverError Err) (LcCommit D F) := do
  let (nRows, nPerRow, nCols) := enc.getDims coeffsIn.length
  assert (nRows * nPerRow ≥ coeffsIn.length)
  assert ((nRows - 1) * nPerRow < coeffsIn.length)
  assert (enc.dimsOk nPerRow nCols = true)
  let coeffs ← zipChunks nPerRow nPerRow copyFromSlice (.replicate (nRows * nPerRow) 0) coeffsIn
  let comm ← zipChunks nCols nPerRow
    (fun r c => do mapErr .encode (enc.encode (← copyFromSlice r c)))
    (.replicate (nRows * nCols) 0) coeffs
  ensure (nCols ≤ 2 ^ 63) .tooBig
  let ret : LcCommit D F :=
    { comm, coeffs, nRows, nCols, nPerRow,
      hashes := .replicate (2 * nextPowerOfTwo nCols - 1) D.defaultOutput }
  checkComm ret enc
  merkleize ret

/-- The base case adds row after row to `poly`; a wide `poly` is split in halves. -/
def collapseColumns {ε : Type} (coeffs tensor poly : List F) (nPerRow offset : ℕ) :
    Fallible ε (List F) :=
  if _h : poly.length ≤ 2 ^ logMinNcols then
    tensor.zipIdx.foldlM (fun poly tv =>
      poly.zipIdx.mapM fun vc => do
        let entry := tv.2 * nPerRow + offset + vc.2
        return vc.1 + (← index coeffs entry) * tv.1) poly
  else do
    let halfCols := poly.length / 2
    let lo ← collapseColumns coeffs tensor (poly.take halfCols) nPerRow offset
    let hi ← collapseColumns coeffs tensor (poly.drop halfCols) nPerRow (offset + halfCols)
    return lo ++ hi
termination_by poly.length
decreasing_by
  all_goals simp only [List.length_take, List.length_drop, logMinNcols] at _h ⊢; omega

def resize (n : ℕ) (v : List F) : List F := v.take n ++ List.replicate (n - v.length) 0

def verifyColumnValue [DecidableEq F] (column : LcColumn D F) (tensor : List F) (polyEval : F) :
    Bool :=
  polyEval == (tensor.zip column.col).foldl (fun a p => a + p.1 * p.2) 0

section Transcripts

variable (C : Challenges F) (enc : LcEncoding F Err)

variable [FieldHash F]

def proveDegreeTest (comm : LcCommit D F) : Stateful (ProverError Err) C.Transcript (List F) := do
  let randTensor ← drawTensor C enc comm.nRows
  let zeros := List.replicate comm.nPerRow 0
  let pRandom ← lift (collapseColumns comm.coeffs randTensor zeros comm.nPerRow 0)
  modify (transcriptUpdates C enc.labelPR pRandom)
  return pRandom

def prove (comm : LcCommit D F) (outerTensor : List F) :
    Stateful (ProverError Err) C.Transcript (LcEvalProof D F) := do
  lift (checkComm comm enc)
  lift (ensure (outerTensor.length = comm.nRows) .outerTensor)
  let pRandomVec ← forEach (List.range enc.getNDegreeTests) fun _ => proveDegreeTest C enc comm
  let zeros := List.replicate comm.nPerRow 0
  let pEval ← lift (collapseColumns comm.coeffs outerTensor zeros comm.nPerRow 0)
  modify (transcriptUpdates C enc.labelPE pEval)
  let colsToOpen ← drawColumns C enc comm.nCols
  let columns ← lift (colsToOpen.mapM (openColumn comm))
  return ⟨comm.nCols, pEval, pRandomVec, columns⟩

def verifyDegreeTest (proof : LcEvalProof D F) (nRows nCols i : ℕ) :
    Stateful (VerifierError Err) C.Transcript (List F × List F) := do
  let randTensor ← drawTensor C enc nRows
  let pRandom ← lift (index proof.pRandomVec i)
  let tmp ← lift (mapErr .encode (enc.encode (resize nCols pRandom)))
  modify (transcriptUpdates C enc.labelPR pRandom)
  return (randTensor, tmp)

variable [DecidableEq F]

def verifyColumn (root : D.Output) (outerTensor : List F) (tests : List (List F × List F))
    (pEvalFft : List F) (colNum : ℕ) (column : LcColumn D F) :
    Fallible (VerifierError Err) Unit := do
  let rand ← tests.foldlM (fun rand test => do
    return rand && verifyColumnValue column test.1 (← index test.2 colNum)) true
  let eval := verifyColumnValue column outerTensor (← index pEvalFft colNum)
  let path := verifyColumnPath column colNum root
  ensure (rand = true) .columnDegree
  ensure (eval = true) .columnEval
  ensure (path = true) .columnPath

def verify (root : D.Output) (outerTensor innerTensor : List F) (proof : LcEvalProof D F) :
    Stateful (VerifierError Err) C.Transcript F := do
  let nColOpens := enc.getNColOpens
  lift (ensure (nColOpens = proof.columns.length ∧ nColOpens ≠ 0) .numColOpens)
  let first ← lift (index proof.columns 0)
  let nRows := first.col.length
  let nCols := proof.getNCols
  let nPerRow := proof.getNPerRow
  lift (ensure (innerTensor.length = nPerRow) .innerTensor)
  lift (ensure (outerTensor.length = nRows) .outerTensor)
  lift (ensure (enc.dimsOk nPerRow nCols = true) .encodingDims)
  let tests ← forEach (List.range enc.getNDegreeTests) (verifyDegreeTest C enc proof nRows nCols)
  modify (transcriptUpdates C enc.labelPE proof.pEval)
  let colsToOpen ← drawColumns C enc nCols
  let pEvalFft ← lift (mapErr .encode (enc.encode (resize nCols proof.pEval)))
  lift ((colsToOpen.zip proof.columns).forM fun p =>
    verifyColumn root outerTensor tests pEvalFft p.1 p.2)
  return (innerTensor.zip proof.pEval).foldl (fun a p => a + p.1 * p.2) 0

end Transcripts

section DegreeTests

variable {C : Challenges F} {enc : LcEncoding F Err} [FieldHash F] {proof : LcEvalProof D F}
  {nRows nCols i : ℕ}

omit [FieldHash F] in
@[simp] theorem length_resize (n : ℕ) (v : List F) : (resize n v).length = n := by
  rw [resize, List.length_append, List.length_take, List.length_replicate]
  omega

theorem run_verifyDegreeTest_of {pRandom word : List F}
    (hvec : proof.pRandomVec[i]? = some pRandom)
    (hword : enc.encode (resize nCols pRandom) = .ok word) (tr : C.Transcript) :
    (verifyDegreeTest C enc proof nRows nCols i).run tr = .ok ((tensorAt C enc nRows tr).1, word)
      (transcriptUpdates C enc.labelPR pRandom (tensorAt C enc nRows tr).2) := by
  unfold verifyDegreeTest
  rw [run_bind_of_ok (run_drawTensor C _ tr),
    run_bind_of_ok (run_lift_of_ok (index_eq_ok.mpr hvec)),
    run_bind_of_ok (run_lift_of_ok (mapErr_eq_ok.mpr hword))]
  rfl

theorem length_of_verifyDegreeTest {test : List F × List F} {tr tr' : C.Transcript}
    (h : (verifyDegreeTest C enc proof nRows nCols i).run tr = .ok test tr') :
    test.2.length = nCols := by
  obtain ⟨randTensor, tr₁, -, h⟩ := run_bind_ok.mp h
  obtain ⟨pRandom, -, h⟩ := run_lift_bind_ok.mp h
  obtain ⟨word, hword, h⟩ := run_lift_bind_ok.mp h
  obtain ⟨_, _, -, h⟩ := run_bind_ok.mp h
  obtain ⟨rfl, -⟩ := run_pure_ok.mp h
  exact (enc.length_encode (mapErr_eq_ok.mp hword)).trans (length_resize ..)

end DegreeTests

section ColumnChecks

variable [DecidableEq F] {column : LcColumn D F}

theorem verifyColumnValue_iff {tensor : List F} {v : F} :
    verifyColumnValue column tensor v = true ↔ v = dot tensor column.col := by
  rw [verifyColumnValue, foldl_zip_eq_dot, zero_add, beq_iff_eq]

theorem foldlM_verifyColumnValue {ε : Type} {tests : List (List F × List F)} {c : ℕ} {b : Bool} :
    (tests.foldlM (fun rand test => do
      return rand && verifyColumnValue column test.1 (← index test.2 c)) b : Fallible ε Bool) =
        .ok true ↔ b = true ∧ ∀ test ∈ tests, test.2[c]? = some (dot test.1 column.col) := by
  induction tests generalizing b with
  | nil => simp
  | cons test tests ih =>
    simp only [List.foldlM_cons, bind_eq_ok, index_eq_ok, pure_eq_ok, Except.ok.injEq,
      List.forall_mem_cons]
    constructor
    · rintro ⟨_, ⟨v, hv, rfl⟩, hrun⟩
      obtain ⟨hb, hall⟩ := ih.mp hrun
      obtain ⟨hb, hvalue⟩ := Bool.and_eq_true_iff.mp hb
      exact ⟨hb, by rw [hv, verifyColumnValue_iff.mp hvalue], hall⟩
    · rintro ⟨hb, hv, hall⟩
      exact ⟨_, ⟨_, hv, rfl⟩, ih.mpr ⟨Bool.and_eq_true_iff.mpr
        ⟨hb, verifyColumnValue_iff.mpr rfl⟩, hall⟩⟩

theorem verifyColumn_eq_ok [FieldHash F] {root : D.Output} {outer pEvalFft : List F}
    {tests : List (List F × List F)} {c : ℕ} :
    (verifyColumn root outer tests pEvalFft c column : Fallible (VerifierError Err) Unit) =
        .ok () ↔
      (∀ test ∈ tests, test.2[c]? = some (dot test.1 column.col)) ∧
      pEvalFft[c]? = some (dot outer column.col) ∧ verifyColumnPath column c root = true := by
  simp only [verifyColumn, bind_eq_ok, index_eq_ok, ensure_eq_ok]
  constructor
  · rintro ⟨rand, hrand, v, hv, _, rfl, _, heval, hpath⟩
    exact ⟨(foldlM_verifyColumnValue.mp hrand).2, by rw [hv, verifyColumnValue_iff.mp heval],
      hpath⟩
  · rintro ⟨htests, heval, hpath⟩
    exact ⟨true, foldlM_verifyColumnValue.mpr ⟨rfl, htests⟩, _, heval, (), rfl, (),
      verifyColumnValue_iff.mpr rfl, hpath⟩

end ColumnChecks

section Collapse

variable {ε : Type} {coeffs : List F} {nPerRow offset : ℕ}

theorem collapseRow_eq {poly : List F} {r : ℕ} (t : F)
    (h : ∀ c < poly.length, r * nPerRow + offset + c < coeffs.length) :
    (poly.zipIdx.mapM fun vc => do
      let entry := r * nPerRow + offset + vc.2
      return vc.1 + (← index coeffs entry) * t : Fallible ε (List F)) =
      .ok ((List.range poly.length).map fun c =>
        poly.getD c 0 + coeffs.getD (r * nPerRow + offset + c) 0 * t) := by
  rw [mapM_of_forall (g := fun vc => vc.1 + coeffs.getD (r * nPerRow + offset + vc.2) 0 * t)]
  · congr 1
    apply List.ext_getElem (by simp)
    intro c hc hc'
    have hc : c < poly.length := by simpa using hc
    simp [hc]
  · intro vc hvc
    have hlt := h vc.2 (by simpa using List.snd_lt_of_mem_zipIdx hvc)
    simp only [index_of_lt hlt, List.getD_eq_getElem _ _ hlt, ok_bind, pure_eq_ok]

theorem collapseRows_eq {tensor poly : List F}
    (h : ∀ r < tensor.length, ∀ c < poly.length, r * nPerRow + offset + c < coeffs.length) :
    (tensor.zipIdx.foldlM (fun poly tv =>
      poly.zipIdx.mapM fun vc => do
        let entry := tv.2 * nPerRow + offset + vc.2
        return vc.1 + (← index coeffs entry) * tv.1) poly : Fallible ε (List F)) =
      .ok ((List.range poly.length).map fun c => poly.getD c 0 +
        ∑ r ∈ Finset.range tensor.length,
          coeffs.getD (r * nPerRow + offset + c) 0 * tensor.getD r 0) := by
  induction tensor using List.reverseRecOn with
  | nil =>
    refine congrArg Except.ok (List.ext_getElem (by simp) fun c hc _ => ?_)
    simp [hc]
  | append_singleton tensor t ih =>
    rw [List.zipIdx_append, List.foldlM_append,
      ih fun r hr => h r (by rw [List.length_append]; omega)]
    simp only [ok_bind, List.zipIdx_singleton, List.foldlM_cons, List.foldlM_nil, Nat.zero_add,
      bind_pure]
    rw [collapseRow_eq t (by simpa using h tensor.length (by simp))]
    refine congrArg Except.ok (List.ext_getElem (by simp) fun c hc _ => ?_)
    have hc : c < poly.length := by simpa using hc
    have hinit : ∀ r ∈ Finset.range tensor.length,
        (tensor ++ [t]).getD r 0 = tensor.getD r 0 := fun r hr =>
      List.getD_append _ _ _ _ (Finset.mem_range.mp hr)
    have hlast : (tensor ++ [t]).getD tensor.length 0 = t := by simp
    simp only [List.length_append, List.length_singleton, Finset.sum_range_succ, hlast,
      List.getElem_map, List.getElem_range, List.length_map, List.length_range,
      ← add_assoc]
    rw [Finset.sum_congr rfl fun r hr => by rw [hinit r hr]]
    simp [hc]

theorem collapseColumns_eq {tensor poly : List F}
    (h : ∀ r < tensor.length, ∀ c < poly.length, r * nPerRow + offset + c < coeffs.length) :
    (collapseColumns coeffs tensor poly nPerRow offset : Fallible ε (List F)) =
      .ok ((List.range poly.length).map fun c => poly.getD c 0 +
        ∑ r ∈ Finset.range tensor.length,
          coeffs.getD (r * nPerRow + offset + c) 0 * tensor.getD r 0) := by
  induction hn : poly.length using Nat.strong_induction_on generalizing poly offset with
  | h n ih =>
    rw [collapseColumns]
    by_cases hsmall : poly.length ≤ 2 ^ logMinNcols
    · rw [dif_pos hsmall, collapseRows_eq h, hn]
    · rw [dif_neg hsmall]
      have hbig : 32 < poly.length := by simpa [logMinNcols] using hsmall
      have hlo := @ih (poly.length / 2) (by omega) offset (poly.take (poly.length / 2))
        (fun r hr c hc => h r hr c (by rw [List.length_take] at hc; omega))
        (by rw [List.length_take]; omega)
      have hhi := @ih (poly.length - poly.length / 2) (by omega) (offset + poly.length / 2)
        (poly.drop (poly.length / 2))
        (fun r hr c hc => by
          have := h r hr (poly.length / 2 + c) (by rw [List.length_drop] at hc; omega)
          omega)
        (by rw [List.length_drop])
      simp only [hlo, hhi, ok_bind, pure_eq_ok, ← hn]
      conv_rhs => rw [range_halves]
      simp only [List.map_append, List.map_map]
      congr 2
      · apply List.map_congr_left
        intro c hc
        rw [List.getD_eq_getElem?_getD, List.getElem?_take_of_lt (List.mem_range.mp hc),
          ← List.getD_eq_getElem?_getD]
      · apply List.map_congr_left
        intro c _
        simp only [List.getD_eq_getElem?_getD, List.getElem?_drop, Function.comp_apply,
          Nat.add_assoc]

theorem collapseColumns_zeros {nRows : ℕ} {tensor : List F}
    (hcoeffs : coeffs.length = nRows * nPerRow) (ht : tensor.length = nRows) :
    (collapseColumns coeffs tensor (.replicate nPerRow 0) nPerRow 0 : Fallible ε (List F)) =
      .ok (combine nPerRow nRows coeffs tensor) := by
  rw [collapseColumns_eq fun r hr c hc => by
    rw [hcoeffs, Nat.add_zero]
    exact flat_lt (ht ▸ hr) (by simpa using hc)]
  refine congrArg Except.ok ?_
  rw [combine, List.length_replicate]
  apply List.map_congr_left
  intro c hc
  have hzero : (List.replicate nPerRow (0 : F)).getD c 0 = 0 := by
    simp [List.mem_range.mp hc]
  rw [hzero, zero_add, dot_column ht, ht]
  apply Finset.sum_congr rfl
  intro r _
  rw [Nat.add_zero, mul_comm]

end Collapse

/-- What a successful commitment holds: every row of `comm` encodes the padded row of
`coeffs`, and the hashes are the tree over the columns. -/
structure Committed [FieldHash F] (enc : LcEncoding F Err) (comm : LcCommit D F) : Prop where
  check : checkComm comm enc = .ok ()
  two_le : 2 ≤ comm.nCols
  nPerRow_le : comm.nPerRow ≤ comm.nCols
  rows : ∀ r < comm.nRows,
    enc.encode (row comm.nPerRow comm.coeffs r ++ .replicate (comm.nCols - comm.nPerRow) 0) =
      .ok (row comm.nCols comm.comm r)
  merkleized : Merkleized comm

section Commit

variable {enc : LcEncoding F Err}

theorem copyRows_eq_ok {ε : Type} {n R : ℕ} {l coeffs : List F} (hl : divCeil l.length n = R)
    (h : (zipChunks n n copyFromSlice (.replicate (R * n) 0) l : Fallible ε _) = .ok coeffs) :
    coeffs.length = R * n ∧ ∀ r < R, row n coeffs r = paddedRow n n l r := by
  obtain ⟨hlen, hrows⟩ := zipChunks_zeros_eq_ok hl length_copyFromSlice h
  exact ⟨hlen, fun r hr => (copyFromSlice_replicate.mp (hrows r hr)).2⟩

theorem copyRows_total {ε : Type} {n R : ℕ} {l : List F} (hn : 0 < n)
    (hl : divCeil l.length n = R) :
    ∃ coeffs, (zipChunks n n copyFromSlice (.replicate (R * n) 0) l : Fallible ε _) =
      .ok coeffs :=
  zipChunks_zeros_total hn hn hl fun r _ =>
    ⟨_, copyFromSlice_replicate.mpr ⟨by rw [length_row]; omega, rfl⟩⟩

theorem encodeRows_eq_ok {ε : Type} {f : Err → ε} {n nCols R : ℕ} {coeffs comm : List F}
    (hcoeffs : coeffs.length = R * n)
    (h : zipChunks nCols n (fun r c => do mapErr f (enc.encode (← copyFromSlice r c)))
      (.replicate (R * nCols) 0) coeffs = .ok comm) :
    comm.length = R * nCols ∧ ∀ r < R, n ≤ nCols ∧
      enc.encode (row n coeffs r ++ .replicate (nCols - n) 0) = .ok (row nCols comm r) := by
  have hn : 0 < n := (zipChunks_pos h).2
  obtain ⟨hlen, hrows⟩ := zipChunks_zeros_eq_ok (by rw [hcoeffs, divCeil_mul _ hn])
    (fun hrun => by
      obtain ⟨w, hcopy, hencode⟩ := bind_eq_ok.mp hrun
      rw [enc.length_encode (mapErr_eq_ok.mp hencode), length_copyFromSlice hcopy]) h
  refine ⟨hlen, ?_⟩
  intro r hr
  obtain ⟨w, hcopy, hencode⟩ := bind_eq_ok.mp (hrows r hr)
  rw [copyFromSlice_replicate, length_row_of_le hcoeffs hr] at hcopy
  exact ⟨hcopy.1, hcopy.2 ▸ mapErr_eq_ok.mp hencode⟩

theorem encodeRows_total {ε : Type} {f : Err → ε} {n nCols R : ℕ} {coeffs : List F}
    (hn : 0 < n) (hle : n ≤ nCols) (hcoeffs : coeffs.length = R * n)
    (henc : ∀ v : List F, v.length = nCols → ∃ w, enc.encode v = .ok w) :
    ∃ comm, zipChunks nCols n (fun r c => do mapErr f (enc.encode (← copyFromSlice r c)))
      (.replicate (R * nCols) 0) coeffs = .ok comm := by
  apply zipChunks_zeros_total (by omega) hn (by rw [hcoeffs, divCeil_mul _ hn])
  intro r hr
  have hrow := length_row_of_le hcoeffs hr
  have hcopy : (copyFromSlice (.replicate nCols 0) (row n coeffs r) : Fallible ε _) =
      .ok (row n coeffs r ++ .replicate (nCols - (row n coeffs r).length) 0) :=
    copyFromSlice_replicate.mpr ⟨by omega, rfl⟩
  obtain ⟨w, hencode⟩ := henc (row n coeffs r ++ .replicate (nCols - (row n coeffs r).length) 0)
    (by rw [List.length_append, List.length_replicate]; omega)
  exact ⟨w, by rw [hcopy, ok_bind, hencode]; rfl⟩

variable [FieldHash F]

theorem commit_eq_ok {coeffsIn : List F} {comm : LcCommit D F}
    (h : commit D coeffsIn enc = .ok comm) :
    Committed enc comm ∧ ∀ i, comm.coeffs.getD i 0 = coeffsIn.getD i 0 := by
  unfold commit at h
  generalize enc.getDims coeffsIn.length = dims at h
  obtain ⟨nRows, nPerRow, nCols⟩ := dims
  simp only [bind_eq_ok, assert_eq_ok, ensure_eq_ok] at h
  obtain ⟨_, hge, _, hlt, _, hdims, coeffs, hcoeffs, rows, hcomm, _, -, _, hcheck, hhash⟩ := h
  have hpos : 0 < nPerRow := (zipChunks_pos hcoeffs).1
  -- The input fills the first rows of the zeroed matrix, up to a short last row.
  have hcount : divCeil coeffsIn.length nPerRow = nRows :=
    divCeil_unique hpos hge fun j hj => lt_of_le_of_lt
      (Nat.mul_le_mul_right _ (by omega)) hlt
  obtain ⟨hlcoeffs, hpad⟩ := copyRows_eq_ok hcount hcoeffs
  obtain ⟨hlcomm, hrows⟩ := encodeRows_eq_ok hlcoeffs hcomm
  obtain ⟨-, -, hlhashes, -⟩ := checkComm_eq_ok.mp hcheck
  obtain ⟨htwo, hashes, rfl, hmerkle⟩ := merkleize_eq_ok hlcomm hlhashes hhash
  have hrowpos : 0 < nRows := Nat.pos_of_ne_zero fun h0 => by
    rw [h0, Nat.zero_mul] at hge
    omega
  refine ⟨⟨?_, htwo, (hrows 0 hrowpos).1, fun r hr => (hrows r hr).2, hmerkle⟩,
    getD_of_paddedRows hlcoeffs hge hpad⟩
  refine checkComm_eq_ok.mpr ⟨hlcomm, hlcoeffs, ?_, hdims⟩
  have hlen : hashes.length + 1 = 2 ^ (Nat.clog 2 nCols + 1) := hmerkle.tree.length_eq
  rw [pow_succ] at hlen
  show hashes.length = 2 * 2 ^ Nat.clog 2 nCols - 1
  omega

theorem getDims_of_commit {coeffsIn : List F} {comm : LcCommit D F}
    (h : commit D coeffsIn enc = .ok comm) :
    enc.getDims coeffsIn.length = (comm.nRows, comm.nPerRow, comm.nCols) := by
  unfold commit at h
  generalize enc.getDims coeffsIn.length = dims at h ⊢
  obtain ⟨nRows, nPerRow, nCols⟩ := dims
  simp only [bind_eq_ok, assert_eq_ok, ensure_eq_ok] at h
  obtain ⟨_, -, _, -, _, -, coeffs, -, rows, -, _, -, _, -, hhash⟩ := h
  unfold merkleize at hhash
  obtain ⟨_, -, hhash⟩ := bind_eq_ok.mp hhash
  obtain ⟨_, -, hhash⟩ := bind_eq_ok.mp hhash
  obtain ⟨_, -, hhash⟩ := bind_eq_ok.mp hhash
  obtain ⟨_, -, hhash⟩ := bind_eq_ok.mp hhash
  obtain rfl := Except.ok.inj hhash
  rfl

theorem commit_total (enc : LcEncoding F Err) (coeffsIn : List F) {nRows nPerRow nCols : ℕ}
    (hget : enc.getDims coeffsIn.length = (nRows, nPerRow, nCols))
    (hge : nRows * nPerRow ≥ coeffsIn.length) (hlt : (nRows - 1) * nPerRow < coeffsIn.length)
    (hdims : enc.dimsOk nPerRow nCols = true) (hle : nPerRow ≤ nCols) (htwo : 2 ≤ nCols)
    (hbig : nCols ≤ 2 ^ 63) (henc : ∀ v : List F, v.length = nCols → ∃ w, enc.encode v = .ok w) :
    ∃ comm, commit D coeffsIn enc = .ok comm ∧ comm.nRows = nRows ∧ comm.nPerRow = nPerRow ∧
      comm.nCols = nCols := by
  have hpos : 0 < nPerRow := Nat.pos_of_ne_zero fun h0 => by
    rw [h0, Nat.mul_zero] at hge hlt
    omega
  have hcount : divCeil coeffsIn.length nPerRow = nRows :=
    divCeil_unique hpos hge fun j hj => lt_of_le_of_lt (Nat.mul_le_mul_right _ (by omega)) hlt
  obtain ⟨coeffs, hcoeffs⟩ := copyRows_total (ε := ProverError Err) hpos hcount
  obtain ⟨hlcoeffs, -⟩ := copyRows_eq_ok hcount hcoeffs
  obtain ⟨rows, hcomm⟩ := encodeRows_total (f := ProverError.encode) hpos hle hlcoeffs henc
  obtain ⟨hlcomm, -⟩ := encodeRows_eq_ok hlcoeffs hcomm
  obtain ⟨hashes, hhash, -⟩ := merkleize_eq (ε := ProverError Err)
    { comm := rows, coeffs, nRows, nCols, nPerRow,
      hashes := .replicate (2 * nextPowerOfTwo nCols - 1) D.defaultOutput }
    htwo hlcomm (by rw [List.length_replicate])
  have hrun : commit D coeffsIn enc = .ok ⟨rows, coeffs, nRows, nCols, nPerRow, hashes⟩ := by
    unfold commit
    simp only [hget, assert_of hge, assert_of hlt, assert_of hdims, hcoeffs, hcomm,
      ensure_of hbig, ok_bind]
    rw [checkComm_eq_ok.mpr ⟨hlcomm, hlcoeffs, List.length_replicate, hdims⟩, ok_bind, hhash]
  exact ⟨_, hrun, rfl, rfl, rfl⟩

end Commit

end CommitmentProof
