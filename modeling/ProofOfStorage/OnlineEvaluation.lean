import ProofOfStorage.OnlineColumns
import Mathlib.Data.List.Sort

/-! # Evaluating a stored file as a polynomial

The server multiplies the encoded matrix by a left vector; the client compares the product of
that vector with the columns it holds. The comparison walks the result in index order.
-/
namespace OnlineEvaluation

open FoundationFaults FoundationSlices FoundationInnerProducts CommitmentTypes CommitmentMerkle
  CommitmentProof OnlineColumns

variable {D : Digest} {F Err ε : Type} [Field F]

def vectorMultiply (a b : List F) : F := ((a.zip b).map fun p => p.1 * p.2).sum

/-- The coefficients are those of `x ^ degreeOffset` and of the powers after it. -/
def evaluateFieldPolynomialAtPointWithElevatedDegree (fieldElements : List F) (point : F)
    (degreeOffset : ℕ) : F :=
  (fieldElements.foldl (fun s fieldElement => (s.1 + fieldElement * s.2, s.2 * point))
    (0, point ^ degreeOffset)).1

def evaluateFieldPolynomialAtPoint (fieldElements : List F) (point : F) : F :=
  (fieldElements.foldl (fun s fieldElement => (s.1 + fieldElement * s.2, s.2 * point)) (0, 1)).1

/-- The entries are pushed to the columns in turn. -/
def pushEntries (nCols : ℕ) (comm : List F) : Fallible ε (List (List F)) :=
  comm.zipIdx.foldlM (fun columns p => do
    let column ← index columns (p.2 % nCols)
    return columns.set (p.2 % nCols) (column ++ [p.1])) (List.replicate nCols [])

def verifiablePolynomialEvaluation (commitment : LcCommit D F) (leftEvaluationColumn : List F) :
    Fallible ε (List F) := do
  let commitAsColumns ← pushEntries commitment.nCols commitment.comm
  return commitAsColumns.map (vectorMultiply leftEvaluationColumn)

section Verification

variable [DecidableEq F]

def verifyProperPartialPolynomialEvaluation (leftEvaluationColumn evaluationResultVector : List F)
    (requestedColumnsIndices : List ℕ) (receivedColumns : List (LcColumn D F)) :
    Fallible (VerifierError Err) Unit := do
  let resultValuesThatMatchColumnIndices :=
    (evaluationResultVector.zipIdx.filter fun p => requestedColumnsIndices.contains p.2).map
      Prod.fst
  (receivedColumns.zip resultValuesThatMatchColumnIndices).forM fun p =>
    ensure (vectorMultiply leftEvaluationColumn p.1.col = p.2) .columnEval

/-- The undefined result vector of the source is read as the one that was given. -/
def verifiableFullPolynomialEvaluation (leftEvaluationColumn rightEvaluationColumn
    receivedResultVector : List F) (requestedColumnIndices : List ℕ)
    (receivedColumns : List (LcColumn D F)) : Fallible (VerifierError Err) F := do
  let result := vectorMultiply receivedResultVector rightEvaluationColumn
  verifyProperPartialPolynomialEvaluation leftEvaluationColumn receivedResultVector
    requestedColumnIndices receivedColumns
  return result

end Verification

/-- `[1, x, x ^ 2, ..]` on the right and the powers of `x ^ n` on the left, as running products. -/
def formSideVectorsForPolynomialEvaluationFromPoint (evaluationPoint : F) (nRows nCols : ℕ) :
    List F × List F :=
  let right := (List.range nCols).foldl
    (fun s _ => (s.1 ++ [s.2], s.2 * evaluationPoint)) (([] : List F), 1)
  let left := (List.range nRows).foldl (fun s _ => (s.1 ++ [s.2], s.2 * right.2)) (([] : List F), 1)
  (left.1, right.1)

def verifyFullPolynomialEvaluationWrapperWithSingleEvalPoint [DecidableEq F] (evaluationPoint : F)
    (receivedResultVector : List F) (nRows nCols : ℕ) (requestedColumnIndices : List ℕ)
    (receivedColumns : List (LcColumn D F)) : Fallible (VerifierError Err) F :=
  let (leftEvalColumn, rightEvalColumn) :=
    formSideVectorsForPolynomialEvaluationFromPoint evaluationPoint nRows nCols
  verifiableFullPolynomialEvaluation leftEvalColumn rightEvalColumn receivedResultVector
    requestedColumnIndices receivedColumns

def decodeRow (fft : FieldFFT F) (row : List F) : Fallible fft.Err (List F) := fft.ifftOi row

theorem vectorMultiply_eq_dot (a b : List F) : vectorMultiply a b = dot a b := rfl

theorem foldl_running_products (x : F) (n : ℕ) :
    (List.range n).foldl (fun s _ => (s.1 ++ [s.2], s.2 * x)) (([] : List F), 1) =
      ((List.range n).map (x ^ ·), x ^ n) := by
  induction n with
  | zero => simp
  | succ n ih => simp [List.range_succ, ih, pow_succ]

theorem formSideVectors_eq (evaluationPoint : F) (nRows nCols : ℕ) :
    formSideVectorsForPolynomialEvaluationFromPoint evaluationPoint nRows nCols =
      ((List.range nRows).map ((evaluationPoint ^ nCols) ^ ·),
        (List.range nCols).map (evaluationPoint ^ ·)) := by
  simp only [formSideVectorsForPolynomialEvaluationFromPoint, foldl_running_products]

section Push

def pushed (nCols k c : ℕ) : ℕ := k / nCols + if c < k % nCols then 1 else 0

theorem pushed_succ {nCols k c : ℕ} (hc : c < nCols) :
    pushed nCols (k + 1) c = pushed nCols k c + if c = k % nCols then 1 else 0 := by
  have hpos : 0 < nCols := by omega
  have hmod := Nat.mod_lt k hpos
  have hdiv := Nat.mod_add_div k nCols
  unfold pushed
  rcases Nat.lt_or_ge (k % nCols + 1) nCols with hsame | hwrap
  · have hnext : (k + 1) / nCols = k / nCols ∧ (k + 1) % nCols = k % nCols + 1 :=
      (Nat.div_mod_unique hpos).mpr ⟨by omega, hsame⟩
    rw [hnext.1, hnext.2]
    split <;> split <;> split <;> omega
  · have hnext : (k + 1) / nCols = k / nCols + 1 ∧ (k + 1) % nCols = 0 :=
      (Nat.div_mod_unique hpos).mpr ⟨by rw [Nat.mul_add]; omega, hpos⟩
    rw [hnext.1, hnext.2]
    split <;> split <;> split <;> omega

theorem pushed_at {nCols : ℕ} (k : ℕ) : pushed nCols k (k % nCols) * nCols + k % nCols = k := by
  have hdiv := Nat.div_add_mod' k nCols
  rwa [pushed, if_neg (lt_irrefl _), Nat.add_zero]

theorem flat_lt_of_lt_pushed {nCols k c r : ℕ} (hc : c < nCols) (hr : r < pushed nCols k c) :
    r * nCols + c < k := by
  have hdiv := Nat.div_add_mod' k nCols
  unfold pushed at hr
  rcases Nat.lt_or_ge r (k / nCols) with hlt | hge
  · have := flat_lt (n := nCols) hlt hc
    omega
  · split at hr
    · obtain rfl : r = k / nCols := by omega
      omega
    · omega

theorem pushed_mul {nCols R c : ℕ} (hc : c < nCols) : pushed nCols (R * nCols) c = R := by
  rw [pushed, Nat.mul_div_cancel _ (by omega), Nat.mul_mod_left, if_neg (Nat.not_lt_zero c),
    Nat.add_zero]

def pushedColumn (nCols : ℕ) (comm : List F) (c : ℕ) : List F :=
  (List.range (pushed nCols comm.length c)).map fun r => comm.getD (r * nCols + c) 0

theorem pushedColumn_append {nCols c : ℕ} (hc : c < nCols) (comm : List F) (x : F) :
    pushedColumn nCols (comm ++ [x]) c =
      pushedColumn nCols comm c ++ if c = comm.length % nCols then [x] else [] := by
  have hold : ∀ r ∈ List.range (pushed nCols comm.length c),
      (comm ++ [x]).getD (r * nCols + c) 0 = comm.getD (r * nCols + c) 0 := fun r hr =>
    List.getD_append _ _ _ _ (flat_lt_of_lt_pushed hc (List.mem_range.mp hr))
  unfold pushedColumn
  rw [List.length_append, List.length_singleton, pushed_succ hc]
  by_cases hat : c = comm.length % nCols
  · rw [if_pos hat, if_pos hat]
    have hlast : (comm ++ [x]).getD (pushed nCols comm.length c * nCols + c) 0 = x := by
      rw [hat, pushed_at]
      simp
    rw [List.range_succ, List.map_append, List.map_congr_left hold, List.map_singleton, hlast]
  · rw [if_neg hat, if_neg hat, Nat.add_zero, List.map_congr_left hold, List.append_nil]

theorem pushEntries_eq {nCols : ℕ} (hn : 0 < nCols) (comm : List F) :
    (pushEntries nCols comm : Fallible ε _) =
      .ok ((List.range nCols).map (pushedColumn nCols comm)) := by
  unfold pushEntries
  induction comm using List.reverseRecOn with
  | nil =>
    refine congrArg Except.ok (List.ext_getElem (by simp) fun c hc _ => ?_)
    simp [pushedColumn, pushed]
  | append_singleton comm x ih =>
    have hmod := Nat.mod_lt comm.length hn
    rw [List.zipIdx_append, List.foldlM_append, ih]
    simp only [ok_bind, List.zipIdx_singleton, List.foldlM_cons, List.foldlM_nil, Nat.zero_add,
      bind_pure]
    rw [index_of_lt (by simpa using hmod), ok_bind]
    refine congrArg Except.ok (List.ext_getElem (by simp) fun c hc hc' => ?_)
    have hc : c < nCols := by simpa using hc'
    simp only [List.getElem_set, List.getElem_map, List.getElem_range, pushedColumn_append hc]
    by_cases hat : comm.length % nCols = c
    · rw [if_pos hat, if_pos hat.symm, hat]
    · rw [if_neg hat, if_neg (Ne.symm hat), List.append_nil]

theorem verifiablePolynomialEvaluation_eq {comm : LcCommit D F} (hn : 0 < comm.nCols)
    (hcomm : comm.comm.length = comm.nRows * comm.nCols) (left : List F) :
    (verifiablePolynomialEvaluation comm left : Fallible ε _) =
      .ok (combine comm.nCols comm.nRows comm.comm left) := by
  unfold verifiablePolynomialEvaluation
  rw [pushEntries_eq hn, ok_bind, pure_eq_ok, List.map_map]
  refine congrArg Except.ok (List.map_congr_left fun c hc => ?_)
  have hc : c < comm.nCols := List.mem_range.mp hc
  rw [Function.comp_apply, vectorMultiply_eq_dot, pushedColumn, hcomm, pushed_mul hc, column]

end Push

section Checks

variable [DecidableEq F]

/-- The indices whose values the check looks at, in the order it visits them. -/
def visited (requested : List ℕ) (N : ℕ) : List ℕ :=
  (List.range N).filter fun i => requested.contains i

theorem mem_visited {requested : List ℕ} {N i : ℕ} :
    i ∈ visited requested N ↔ i < N ∧ i ∈ requested := by
  simp [visited]

theorem visited_sorted (requested : List ℕ) (N : ℕ) : (visited requested N).SortedLT :=
  (List.pairwise_lt_range.filter _).sortedLT

theorem visited_perm {requested : List ℕ} {N : ℕ} (h : ∀ i ∈ requested, i < N)
    (hnodup : requested.Nodup) : (visited requested N).Perm requested := by
  apply (List.perm_ext_iff_of_nodup (visited_sorted requested N).nodup hnodup).mpr
  intro i
  rw [mem_visited]
  exact ⟨fun hi => hi.2, fun hi => ⟨h i hi, hi⟩⟩

/-- A request that is in strictly ascending order is visited as it is, and no other is. -/
theorem visited_eq_iff {requested : List ℕ} {N : ℕ} (h : ∀ i ∈ requested, i < N) :
    visited requested N = requested ↔ requested.SortedLT := by
  refine ⟨fun he => he ▸ visited_sorted requested N, ?_⟩
  intro hs
  exact List.Perm.eq_of_sortedLE (visited_sorted requested N).sortedLE hs.sortedLE
    (visited_perm h hs.nodup)

omit [DecidableEq F] in
theorem matching_eq (requested : List ℕ) (result : List F) :
    (result.zipIdx.filter fun p => requested.contains p.2).map Prod.fst =
      (visited requested result.length).map fun i => result.getD i 0 := by
  have hzip : result.zipIdx = (List.range result.length).map fun i => (result.getD i 0, i) := by
    apply List.ext_getElem (by simp)
    intro i hi _
    have hi : i < result.length := by simpa using hi
    simp [hi]
  rw [hzip, List.filter_map, List.map_map]
  rfl

theorem verifyProperPartial_eq_ok {left result : List F} {requested : List ℕ}
    {received : List (LcColumn D F)} {u : Unit} :
    (verifyProperPartialPolynomialEvaluation left result requested received :
      Fallible (VerifierError Err) Unit) = .ok u ↔
      ∀ p ∈ received.zip (visited requested result.length),
        dot left p.1.col = result.getD p.2 0 := by
  unfold verifyProperPartialPolynomialEvaluation
  simp only [matching_eq, forM_eq_ok, ensure_eq_ok, List.zip_map_right, List.forall_mem_map,
    Prod.map_fst, Prod.map_snd, id]
  rfl

theorem verifyFull_eq_ok {evaluationPoint value : F} {result : List F} {nRows nCols : ℕ}
    {requested : List ℕ} {received : List (LcColumn D F)} :
    (verifyFullPolynomialEvaluationWrapperWithSingleEvalPoint evaluationPoint result nRows nCols
      requested received : Fallible (VerifierError Err) F) = .ok value ↔
      (∀ p ∈ received.zip (visited requested result.length),
        dot ((List.range nRows).map ((evaluationPoint ^ nCols) ^ ·)) p.1.col =
          result.getD p.2 0) ∧
      dot result ((List.range nCols).map (evaluationPoint ^ ·)) = value := by
  unfold verifyFullPolynomialEvaluationWrapperWithSingleEvalPoint verifiableFullPolynomialEvaluation
  simp only [formSideVectors_eq, bind_eq_ok, verifyProperPartial_eq_ok, pure_eq_ok,
    Except.ok.injEq, exists_const, vectorMultiply_eq_dot]

theorem length_visited_le (requested : List ℕ) (N : ℕ) :
    (visited requested N).length ≤ requested.length :=
  ((visited_sorted requested N).nodup.subperm fun _ hi => (mem_visited.mp hi).2).length_le

theorem exists_visited_ne {requested : List ℕ} {N : ℕ} (h : ∀ i ∈ requested, i < N)
    (hunsorted : ¬ requested.SortedLT) :
    ∃ (k c : ℕ), requested[k]? = some c ∧ (visited requested N)[k]? ≠ some c := by
  have hne : visited requested N ≠ requested := fun he => hunsorted ((visited_eq_iff h).mp he)
  by_contra hall
  push Not at hall
  refine hne (List.ext_getElem? fun k => ?_)
  rcases hk : requested[k]? with _ | c
  · have hlen := length_visited_le requested N
    have hout := List.getElem?_eq_none_iff.mp hk
    exact List.getElem?_eq_none (by omega)
  · exact hall k c hk

/-- An accepted answer has one column per requested index, and every column has the value that
the result vector holds at its index. -/
def PartialEvaluationSound (Err : Type) (left result : List F) (requested : List ℕ)
    (received : List (LcColumn D F)) : Prop :=
  (verifyProperPartialPolynomialEvaluation left result requested received :
    Fallible (VerifierError Err) Unit) = .ok () →
  received.length = requested.length ∧ ∀ (k c : ℕ) (column : LcColumn D F),
    requested[k]? = some c → received[k]? = some column →
      vectorMultiply left column.col = result.getD c 0

def misplacedColumns (D : Digest) (S : List ℕ) (v : ℕ → F) (k n : ℕ) : List (LcColumn D F) :=
  (List.range n).map fun j => ⟨[if j = k then 1 else (S[j]?.map v).getD 0], []⟩

/-- The check is sound for all requests in ascending order answered by as many columns, and
for no other request or number of columns. -/
theorem partialEvaluation_sound_iff (D : Digest) (F Err : Type) [Field F] [DecidableEq F]
    {N : ℕ} {requested : List ℕ} (hrequested : ∀ i ∈ requested, i < N) (n : ℕ) :
    (∀ (left result : List F) (received : List (LcColumn D F)), result.length = N →
      received.length = n → PartialEvaluationSound Err left result requested received) ↔
    n = requested.length ∧ requested.SortedLT := by
  constructor
  · intro hall
    have hlen : n = requested.length := by
      have hsound := hall [] (.replicate N 0) (.replicate n ⟨[], []⟩) (by simp) (by simp)
      simpa using (hsound (verifyProperPartial_eq_ok.mpr fun p _ => by
        rw [getD_replicate_zero]; rfl)).1
    refine ⟨hlen, ?_⟩
    by_contra hunsorted
    obtain ⟨k, c, hc, hne⟩ := exists_visited_ne hrequested hunsorted
    have hk := (List.getElem?_eq_some_iff.mp hc).1
    have hcN := hrequested c (List.mem_of_getElem? hc)
    set S := visited requested N with hS
    -- The value is one where position `k` is compared and zero where it should be.
    let v : ℕ → F := fun i => if S[k]? = some i then 1 else 0
    have hsound := hall [1] ((List.range N).map v) (misplacedColumns D S v k n) (by simp)
      (by simp [misplacedColumns])
    have hok : (verifyProperPartialPolynomialEvaluation [1] ((List.range N).map v) requested
        (misplacedColumns D S v k n) : Fallible (VerifierError Err) Unit) = .ok () := by
      apply verifyProperPartial_eq_ok.mpr
      intro p hp
      rw [List.length_map, List.length_range, ← hS] at hp
      obtain ⟨j, hj, rfl⟩ := List.getElem_of_mem hp
      rw [List.length_zip] at hj
      have hjS : j < S.length := by omega
      have hjN : S[j] < N := (mem_visited.mp (List.getElem_mem hjS)).1
      have hvalue : ((List.range N).map v).getD S[j] 0 = v S[j] := by simp [hjN]
      simp only [List.getElem_zip, misplacedColumns, List.getElem_map, List.getElem_range, hvalue,
        List.getElem?_eq_getElem hjS]
      by_cases hjk : j = k
      · subst hjk
        simp [dot, v, List.getElem?_eq_getElem hjS]
      · simp [dot, hjk]
    have hcolumn : (misplacedColumns D S v k n)[k]? = some ⟨[1], []⟩ := by
      simp [misplacedColumns, hlen, hk]
    have hvalue := (hsound hok).2 k c _ hc hcolumn
    have hzero : ((List.range N).map v).getD c 0 = 0 := by simp [hcN, v, hne]
    rw [hzero] at hvalue
    simp [vectorMultiply] at hvalue
  · rintro ⟨rfl, hsorted⟩ left result received rfl hlen hok
    refine ⟨hlen, ?_⟩
    intro k c column hc hcolumn
    have hvisited := (visited_eq_iff hrequested).mpr hsorted
    refine verifyProperPartial_eq_ok.mp hok (column, c) ?_
    rw [hvisited]
    exact List.mem_of_getElem? (i := k) (by rw [List.getElem?_zip_eq_some]; exact ⟨hcolumn, hc⟩)

theorem request_two_zero : ¬ ∀ (left result : List (ZMod 257))
    (received : List (LcColumn byteSum (ZMod 257))), result.length = 3 → received.length = 2 →
      PartialEvaluationSound Unit left result [2, 0] received := fun hall =>
  absurd ((partialEvaluation_sound_iff byteSum (ZMod 257) Unit (by decide) 2).mp hall).2 (by decide)

/-- The column for index 2 is compared with the value at index 0, and the other way round. -/
theorem partialEvaluation_swapped : ¬ PartialEvaluationSound (D := byteSum) (F := ZMod 257) Unit
    [1] [5, 6, 7] [2, 0] [⟨[5], []⟩, ⟨[7], []⟩] := fun hsound =>
  absurd ((hsound rfl).2 0 2 _ rfl rfl) (by decide)

end Checks

section Honest

variable [DecidableEq F] [FieldHash F]

/-- The check on the answer of an honest server: its result vector and its columns. -/
def checkHonestServer (comm : LcCommit D F) (left : List F) (requested : List ℕ) :
    Fallible (VerifierError Err) Unit := do
  let result ← verifiablePolynomialEvaluation comm left
  let columns ← serverRetreiveColumns comm requested
  verifyProperPartialPolynomialEvaluation left result requested columns

omit [DecidableEq F] in
theorem serverRetreiveColumns_eq {comm : LcCommit D F} (h : Merkleized comm)
    (hcomm : comm.comm.length = comm.nRows * comm.nCols) {requested : List ℕ}
    (hrequested : ∀ c ∈ requested, c < comm.nCols) :
    (serverRetreiveColumns comm requested : Fallible ε _) = .ok (requested.map fun c =>
      ⟨column comm.nCols comm.nRows comm.comm c, h.tree.levelOrder.path c⟩) :=
  mapM_of_forall fun c hc => unwrap_eq_ok.mpr (openColumn_eq h hcomm (hrequested c hc))

theorem checkHonestServer_eq_ok {comm : LcCommit D F} (h : Merkleized comm) (hn : 0 < comm.nCols)
    (hcomm : comm.comm.length = comm.nRows * comm.nCols) {left : List F} {requested : List ℕ}
    (hrequested : ∀ c ∈ requested, c < comm.nCols) {u : Unit} :
    (checkHonestServer comm left requested : Fallible (VerifierError Err) Unit) = .ok u ↔
      ∀ p ∈ requested.zip (visited requested comm.nCols),
        dot left (column comm.nCols comm.nRows comm.comm p.1) =
          dot left (column comm.nCols comm.nRows comm.comm p.2) := by
  unfold checkHonestServer
  rw [verifiablePolynomialEvaluation_eq hn hcomm, ok_bind,
    serverRetreiveColumns_eq h hcomm hrequested, ok_bind, verifyProperPartial_eq_ok,
    length_combine, List.zip_map_left, List.forall_mem_map]
  apply forall₂_congr
  intro p hp
  have hlt := (mem_visited.mp (List.of_mem_zip hp).2).1
  rw [Prod.map_snd, id, getD_combine hlt]
  rfl

def identityEncoding (F Err : Type) (R n : ℕ) : LcEncoding F Err where
  labelDT := []
  labelPR := []
  labelPE := []
  labelCO := []
  encode v := .ok v
  length_encode h := by rw [Except.ok.inj h]
  getDims _ := (R, n, n)
  dimsOk _ _ := true
  getNColOpens := 1
  getNDegreeTests := 1

theorem exists_commit_unit (D : Digest) (F Err : Type) [Field F] [FieldHash F] {R n : ℕ}
    (c : ℕ) (hR : 0 < R) (htwo : 2 ≤ n) (hn : n ≤ 2 ^ 63) :
    ∃ (coeffs : List F) (comm : LcCommit D F),
      commit D coeffs (identityEncoding F Err R n) = .ok comm ∧ comm.nRows = R ∧ comm.nCols = n ∧
      ∀ i < n, comm.comm.getD i 0 = if i = c then 1 else 0 := by
  have hpos : 0 < R * n := Nat.mul_pos hR (by omega)
  have hlast : (R - 1) * n < R * n := Nat.mul_lt_mul_of_pos_right (by omega) (by omega)
  obtain ⟨comm, hcommit, hrows, hper, hcols⟩ := commit_total (D := D) (identityEncoding F Err R n)
    ((List.range (R * n)).map fun i => if i = c then (1 : F) else 0) rfl (by simp)
    (by simpa using hlast) rfl le_rfl htwo hn
    fun v _ => ⟨v, rfl⟩
  obtain ⟨hcommitted, hentries⟩ := commit_eq_ok hcommit
  refine ⟨_, comm, hcommit, hrows, hcols, ?_⟩
  intro i hi
  have hrow := hcommitted.rows 0 (by omega)
  rw [hper, hcols, Nat.sub_self, List.replicate_zero, List.append_nil] at hrow
  have hfirst := Except.ok.inj hrow
  have hget := congrArg (fun l => l.getD i 0) hfirst
  simp only [getD_row hi, Nat.zero_mul, Nat.zero_add] at hget
  have hlt : i < R * n := lt_of_lt_of_le hi (Nat.le_mul_of_pos_left n hR)
  rw [← hget, hentries]
  simp [hlt]

omit [DecidableEq F] [FieldHash F] in
theorem dot_first_column {comm : LcCommit D F} {R : ℕ} (hR : 0 < R) (hrows : comm.nRows = R)
    (c : ℕ) : dot (1 :: .replicate (R - 1) 0) (column comm.nCols comm.nRows comm.comm c) =
      comm.comm.getD c 0 := by
  rw [dot_column (by rw [List.length_cons, List.length_replicate]; omega), hrows,
    Finset.sum_eq_single_of_mem 0 (Finset.mem_range.mpr hR)]
  · simp
  · intro r _ hr
    obtain ⟨r, rfl⟩ := Nat.exists_eq_succ_of_ne_zero hr
    rw [List.getD_cons_succ, getD_replicate_zero, zero_mul]

end Honest

end OnlineEvaluation
