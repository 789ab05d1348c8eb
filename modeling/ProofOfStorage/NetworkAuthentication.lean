import ProofOfStorage.NetworkUpdates
import Mathlib.Data.List.Forall2

/-! # Which columns an update is accepted on

The three updates compare columns with result vectors, but no column with a root. A server that
answers with no columns at all has every update accepted that can be accepted in any way.
-/
namespace NetworkAuthentication

open FoundationFaults FoundationSlices FoundationInnerProducts FoundationInteraction
open CommitmentTypes CommitmentMerkle OnlineColumns OnlineEvaluation FileFields DataField
open NetworkMessages NetworkClient NetworkUpdates

variable {D : Digest} {F Err α : Type} [Field F] [DataField F] [DecidableEq F]

inductive Update where
  | reshape (newPreEncodedColumns newEncodedColumns : ℕ)
  | change (c : Change)

def Update.run (env : Environment F) (fileMetadata : FileMetadata D) :
    Update → Client D F Err (FileMetadata D)
  | reshape newPreEncodedColumns newEncodedColumns =>
    reshapeFile env fileMetadata newPreEncodedColumns newEncodedColumns
  | change c => c.run env fileMetadata

def Update.requestedNew (env : Environment F) (fileMetadata newFileMetadata : FileMetadata D) :
    Update → List ℕ
  | reshape .. => columnsFromFixedSeed env newFileMetadata
  | change _ => columnsFromFixedSeed env fileMetadata

def columnsOf : ServerMessages D F Err → Option (List (LcColumn D F) × List (LcColumn D F))
  | .reshapeEvaluation _ _ originalColumns _ newColumns => some (originalColumns, newColumns)
  | .appendEvaluation _ originalColumns _ newColumns _ => some (originalColumns, newColumns)
  | .editEvaluation _ originalColumns _ newColumns _ => some (originalColumns, newColumns)
  | _ => none

/-- One column for each requested index, and every column opens the root there. -/
def ColumnsAuthentic (root : LcRoot D) (requested : List ℕ) (columns : List (LcColumn D F)) :
    Prop :=
  List.Forall₂ (fun c column => verifyColumnPath column c root.root = true) requested columns

/-- The first reply names the new version, the second one holds authentic columns of both. -/
def Authenticated (env : Environment F) (fileMetadata : FileMetadata D) (update : Update)
    (replies : List (Option (ServerMessages D F Err))) : Prop :=
  ∃ newFileMetadata transmission originalColumns newColumns,
    replies[0]? = some (some (.compactCommit newFileMetadata)) ∧
    replies[1]? = some (some transmission) ∧
    columnsOf transmission = some (originalColumns, newColumns) ∧
    ColumnsAuthentic fileMetadata.root (columnsFromFixedSeed env fileMetadata) originalColumns ∧
    ColumnsAuthentic newFileMetadata.root
      (update.requestedNew env fileMetadata newFileMetadata) newColumns

/-- The program sends an acceptance when it receives these replies. -/
def Accepts (p : Client D F Err α) (records : Records D)
    (replies : List (Option (ServerMessages D F Err))) : Prop :=
  ∃ q ∈ (replay p records replies).sent, answered q = some true

instance decidableAccepts (p : Client D F Err α) (records : Records D)
    (replies : List (Option (ServerMessages D F Err))) : Decidable (Accepts p records replies) :=
  inferInstanceAs (Decidable (∃ q ∈ (replay p records replies).sent, answered q = some true))

/-- Whatever the server replies, an update is accepted only on authentic columns. -/
def AcceptsOnlyAuthentic (env : Environment F) (fileMetadata : FileMetadata D)
    (update : Update) : Prop :=
  ∀ (records : Records D) (replies : List (Option (ServerMessages D F env.fft.Err))),
    Accepts (update.run env fileMetadata) records replies →
      Authenticated env fileMetadata update replies

/-- No replies make the client accept: the bounds of the edit are wrong, or the file has no
columns and the update divides by their number or expects a difference other than zero. -/
def NeverAcceptable (env : Environment F) (fileMetadata : FileMetadata D) : Update → Prop
  | .reshape .. => False
  | .change (.append dataToAppend) => fileMetadata.numColumns = 0 ∧
    (fileMetadata.filesizeInBytes % (env.capacity / 8) ≠ 0 ∨
      evaluateFieldPolynomialAtPointWithElevatedDegree
        (convertByteVecToFieldElementsVec dataToAppend) env.evaluationPoint
        (fileMetadata.filesizeInBytes / (env.capacity / 8)) ≠ 0)
  | .change (.edit dataToAppend start) =>
    ¬EditInBounds fileMetadata dataToAppend start ∨ fileMetadata.numColumns = 0

section Refusals

omit [Field F] [DataField F] [DecidableEq F] in
theorem not_accepts {p : Client D F Err α} (h : Sends (fun q => answered q ≠ some true) p)
    (records : Records D) (replies : List (Option (ServerMessages D F Err))) :
    ¬Accepts p records replies := by
  rintro ⟨q, hq, haccepts⟩
  exact h.mem hq haccepts

variable {env : Environment F} {fileMetadata edited : FileMetadata D}

theorem verifyEvaluation_no_columns (hcols : fileMetadata.numColumns = 0) {result : List F}
    {requested : List ℕ} {columns : List (LcColumn D F)} {value : F}
    (h : (verifyEvaluation env fileMetadata result requested columns :
      Fallible (VerifierError Err) F) = .ok value) : value = 0 := by
  have hvalue := (verifyFull_eq_ok.mp h).2
  rw [hcols] at hvalue
  simpa [dot] using hvalue.symm

theorem sends_judgeAppend_no_columns {dataToAppend : List UInt8}
    (h : NeverAcceptable env fileMetadata (.change (.append dataToAppend))) :
    Sends (fun q => answered q ≠ some true)
      (judgeAppend env fileMetadata dataToAppend edited : Client D F Err _) := by
  obtain ⟨hcols, hstuck⟩ := h
  have hrefuse (text : String) : Sends (fun q => answered q ≠ some true)
      (refuse (.editOrAppendResponse fileMetadata edited false) text : Client D F Err
        (FileMetadata D)) := ⟨fun h => absurd h (by simp [answered]), trivial⟩
  unfold judgeAppend
  split
  · exact hrefuse _
  rename_i hsame
  split
  · exact hrefuse _
  apply Sends.bind (sends_request (fun h => by cases h) _ _)
  intro evaluations
  dsimp only
  split
  · rename_i oldResults newResults hold hnew
    have hcols' : edited.numColumns = 0 := by
      rw [← hcols]
      exact (not_ne_iff.mp fun hne => hsame (.inl hne)).symm
    obtain rfl := verifyEvaluation_no_columns hcols hold
    obtain rfl := verifyEvaluation_no_columns hcols' hnew
    unfold completedCoefficient
    dsimp only
    split
    · -- the position is taken modulo the number of columns
      rw [hcols]
      exact trivial
    · rename_i hoffset
      have hvalue := hstuck.resolve_left hoffset
      rw [pure_bind]
      dsimp only
      rw [if_pos (by simpa using hvalue.symm)]
      exact hrefuse _
  · exact hrefuse _

theorem sends_judgeEdit_no_columns (hcols : fileMetadata.numColumns = 0)
    (dataToAppend : List UInt8) (start : ℕ) :
    Sends (fun q => answered q ≠ some true)
      (judgeEdit env fileMetadata dataToAppend start edited : Client D F Err _) := by
  unfold judgeEdit
  iterate 6 refine Sends.bind (sends_checked _) fun _ => ?_
  -- the first edited row is counted by dividing by the number of columns
  rw [hcols]
  exact trivial

theorem neverAcceptable_not_accepts {update : Update}
    (h : NeverAcceptable env fileMetadata update) (records : Records D)
    (replies : List (Option (ServerMessages D F Err))) :
    ¬Accepts (update.run env fileMetadata) records replies := by
  cases update with
  | reshape => exact h.elim
  | change c =>
    cases c with
    | append dataToAppend =>
      exact not_accepts (Sends.bind (sends_request (fun h => by cases h) _ _) fun _ =>
        sends_judgeAppend_no_columns h) records replies
    | edit dataToAppend start =>
      refine not_accepts ?_ records replies
      change Sends _ (editFile env fileMetadata dataToAppend start)
      by_cases hbounds : EditInBounds fileMetadata dataToAppend start
      · rw [editFile_of_inBounds hbounds]
        exact Sends.bind (sends_request (fun h => by cases h) _ _) fun _ =>
          sends_judgeEdit_no_columns (h.resolve_left (not_not_intro hbounds)) _ _
      · obtain ⟨text, hbail⟩ := editFile_of_not_inBounds Err env hbounds
        rw [hbail]
        exact sends_bail text

end Refusals

section Forgeries

omit [Field F] [DataField F] [DecidableEq F] in
theorem Accepts.request {β : Type} {message : ClientMessages D F} {failed : String}
    {select : ServerMessages D F Err → Option α} {transmission : ServerMessages D F Err}
    {content : α} {f : α → Client D F Err β} {records : Records D}
    {replies : List (Option (ServerMessages D F Err))}
    (hselect : select transmission = some content)
    (h : Accepts (f content) records replies) :
    Accepts (request message failed select >>= f) records (some transmission :: replies) := by
  obtain ⟨q, hq, haccepts⟩ := h
  refine ⟨q, ?_, haccepts⟩
  rw [replay_request hselect]
  exact List.mem_cons_of_mem _ hq

omit [Field F] [DataField F] [DecidableEq F] in
theorem accepts_answer {message : ClientMessages D F} (h : answered message = some true)
    (p : Client D F Err α) (records : Records D)
    (replies : List (Option (ServerMessages D F Err))) :
    Accepts (sendMessage message >>= fun _ => p) records replies :=
  ⟨message, List.mem_cons_self .., h⟩

def forgedColumns (D : Digest) (F : Type) (requested : List ℕ) : List (LcColumn D F) :=
  if requested = [] then [⟨[], []⟩] else []

omit [DecidableEq F] in
theorem forgedColumns_not_authentic (root : LcRoot D) (requested : List ℕ) :
    ¬ColumnsAuthentic root requested (forgedColumns D F requested) := by
  intro h
  have hlen := h.length_eq
  by_cases hnil : requested = []
  · rw [forgedColumns, if_pos hnil, hnil] at hlen
    cases hlen
  · rw [forgedColumns, if_neg hnil] at hlen
    exact hnil (List.eq_nil_of_length_eq_zero hlen)

variable {env : Environment F} {fileMetadata : FileMetadata D}

/-- Without columns every value can be claimed; only a file without columns has none but zero. -/
theorem exists_forged_evaluation (Err : Type) (env : Environment F) (fileMetadata : FileMetadata D)
    {value : F} (h : fileMetadata.numColumns = 0 → value = 0) (requested : List ℕ) :
    ∃ result, (verifyEvaluation env fileMetadata result requested (forgedColumns D F requested) :
      Fallible (VerifierError Err) F) = .ok value := by
  have hunchecked (result : List F) : (forgedColumns D F requested).zip
      (visited requested result.length) = [] := by
    by_cases hnil : requested = []
    · rw [hnil]
      simp [visited]
    · rw [forgedColumns, if_neg hnil]
      exact List.zip_nil_left
  have hverify (result : List F) : (verifyEvaluation env fileMetadata result requested
      (forgedColumns D F requested) : Fallible (VerifierError Err) F) = .ok value ↔
        dot result ((List.range fileMetadata.numColumns).map (env.evaluationPoint ^ ·)) =
          value := by
    unfold verifyEvaluation
    rw [verifyFull_eq_ok, hunchecked]
    simp
  by_cases hcols : fileMetadata.numColumns = 0
  · exact ⟨[], (hverify _).mpr (h hcols).symm⟩
  · obtain ⟨n, hn⟩ := Nat.exists_eq_succ_of_ne_zero hcols
    refine ⟨[value], (hverify _).mpr ?_⟩
    simp [hn, dot, List.range_succ_eq_map]

/-- Two replies make the client accept, and the columns of the old version are forged. -/
def ForgeryAccepted (env : Environment F) (fileMetadata : FileMetadata D) (update : Update)
    (records : Records D) : Prop :=
  ∃ (new : FileMetadata D) (transmission : ServerMessages D F env.fft.Err)
    (newColumns : List (LcColumn D F)),
    columnsOf transmission =
      some (forgedColumns D F (columnsFromFixedSeed env fileMetadata), newColumns) ∧
    Accepts (update.run env fileMetadata) records [some (.compactCommit new), some transmission]

theorem reshape_forged (newPreEncodedColumns newEncodedColumns : ℕ) (records : Records D) :
    ForgeryAccepted env fileMetadata (.reshape newPreEncodedColumns newEncodedColumns)
      records := by
  let new : FileMetadata D := { fileMetadata with
    numColumns := newPreEncodedColumns
    numEncodedColumns := newEncodedColumns }
  obtain ⟨oldResult, hold⟩ := exists_forged_evaluation env.fft.Err env fileMetadata
    (fun _ => @rfl F 0) (columnsFromFixedSeed env fileMetadata)
  obtain ⟨newResult, hnew⟩ := exists_forged_evaluation env.fft.Err env new
    (fun _ => @rfl F 0) (columnsFromFixedSeed env new)
  refine ⟨new, .reshapeEvaluation 0 oldResult _ newResult
    (forgedColumns D F (columnsFromFixedSeed env new)), _, rfl, ?_⟩
  change Accepts (reshapeFile env fileMetadata newPreEncodedColumns newEncodedColumns) _ _
  unfold reshapeFile
  refine Accepts.request rfl ?_
  rw [if_neg (by simp [new])]
  refine Accepts.request rfl ?_
  dsimp only
  rw [hold, hnew]
  dsimp only
  rw [if_neg (not_not_intro rfl)]
  exact accepts_answer rfl _ _ _

omit [DecidableEq F] in
theorem completedCoefficient_zeros (Err : Type) (appended : FileMetadata D)
    (h : fileMetadata.filesizeInBytes % (env.capacity / 8) ≠ 0 → fileMetadata.numColumns ≠ 0) :
    ∃ completed, (completedCoefficient env fileMetadata appended
        (List.replicate fileMetadata.numColumns 0) : Client D F Err _) = pure completed ∧
      (fileMetadata.filesizeInBytes % (env.capacity / 8) = 0 → completed = (0, [])) := by
  unfold completedCoefficient
  dsimp only
  by_cases hoffset : fileMetadata.filesizeInBytes % (env.capacity / 8) ≠ 0
  · rw [if_pos hoffset]
    have hcols := Nat.pos_of_ne_zero (h hoffset)
    have hcap : fileMetadata.filesizeInBytes % (env.capacity / 8) ≤ dataByteCapacity F := by
      rw [env.capacity_div]
      exact (Nat.mod_lt _ capacity_pos).le
    rw [remainder, assert_of hcols.ne', ok_bind, pure_eq_ok, checked_ok, pure_bind,
      index_of_lt (by simpa using Nat.mod_lt _ hcols), checked_ok, pure_bind,
      if_neg (not_not_intro (length_convert_convert (Nat.pos_of_ne_zero hoffset) hcap))]
    exact ⟨_, rfl, fun hzero => absurd hzero hoffset⟩
  · rw [if_neg hoffset]
    exact ⟨_, rfl, fun _ => rfl⟩

theorem append_forged {dataToAppend : List UInt8}
    (h : ¬NeverAcceptable env fileMetadata (.change (.append dataToAppend)))
    (records : Records D) :
    ForgeryAccepted env fileMetadata (.change (.append dataToAppend)) records := by
  let new : FileMetadata D := { fileMetadata with
    filesizeInBytes := fileMetadata.filesizeInBytes + dataToAppend.length }
  have hoffset : fileMetadata.filesizeInBytes % (env.capacity / 8) ≠ 0 →
      fileMetadata.numColumns ≠ 0 := fun hoffset hcols => h ⟨hcols, .inl hoffset⟩
  obtain ⟨completed, hcompleted, hwhole⟩ := completedCoefficient_zeros env.fft.Err new hoffset
  let difference := completed.1 + evaluateFieldPolynomialAtPointWithElevatedDegree
    (convertByteVecToFieldElementsVec (completed.2 ++ dataToAppend)) env.evaluationPoint
    (fileMetadata.filesizeInBytes / (env.capacity / 8))
  have hdifference : new.numColumns = 0 → difference = 0 := by
    intro hcols
    by_contra hne
    refine h ⟨hcols, ?_⟩
    by_cases hzero : fileMetadata.filesizeInBytes % (env.capacity / 8) = 0
    · refine .inr fun hvalue => hne ?_
      simpa [difference, hwhole hzero] using hvalue
    · exact .inl hzero
  obtain ⟨oldResult, hold⟩ := exists_forged_evaluation env.fft.Err env fileMetadata
    (fun _ => @rfl F 0) (columnsFromFixedSeed env fileMetadata)
  obtain ⟨newResult, hnew⟩ := exists_forged_evaluation env.fft.Err env new hdifference
    (columnsFromFixedSeed env fileMetadata)
  refine ⟨new, .appendEvaluation oldResult _ newResult
    (forgedColumns D F (columnsFromFixedSeed env fileMetadata))
    (List.replicate fileMetadata.numColumns 0), _, rfl, ?_⟩
  change Accepts (appendToFile env fileMetadata dataToAppend) _ _
  unfold appendToFile
  refine Accepts.request rfl ?_
  unfold judgeAppend
  rw [if_neg (by simp [new]), if_neg (by simp [new])]
  refine Accepts.request rfl ?_
  dsimp only
  rw [hold, hnew]
  dsimp only
  rw [hcompleted, pure_bind]
  rw [if_neg (not_not_intro (zero_add difference).symm)]
  exact accepts_answer rfl _ _ _

theorem expectedEditDifference_returns (Err : Type) {dataToAppend rows : List UInt8} {start : ℕ}
    (firstEditedRow : ℕ) (hcols : fileMetadata.numColumns ≠ 0)
    (hroom : start % (env.capacity / 8 * fileMetadata.numColumns) + dataToAppend.length ≤
      rows.length)
    (hchanged : rows.take (start % (env.capacity / 8 * fileMetadata.numColumns)) ++ dataToAppend ++
      rows.drop (start % (env.capacity / 8 * fileMetadata.numColumns) + dataToAppend.length) ≠
        rows) :
    ∃ difference, (expectedEditDifference env fileMetadata dataToAppend start firstEditedRow rows :
      Client D F Err F) = pure difference := by
  have hrow : env.capacity / 8 * fileMetadata.numColumns ≠ 0 := by
    rw [env.capacity_div]
    exact mul_ne_zero capacity_pos.ne' hcols
  unfold expectedEditDifference
  rw [remainder, assert_of hrow, ok_bind, pure_eq_ok, checked_ok, pure_bind, spliceBytes,
    assert_of hroom, ok_bind, pure_eq_ok, checked_ok, pure_bind]
  generalize hedited : rows.take _ ++ dataToAppend ++ rows.drop _ = edited at hchanged ⊢
  have hlen : edited.length = rows.length := by
    rw [← hedited]
    simp only [List.length_append, List.length_take, List.length_drop]
    omega
  have hcount : (convertByteVecToFieldElementsVec rows : List F).length =
      (convertByteVecToFieldElementsVec edited : List F).length := by
    simp only [convertByteVecToFieldElementsVec, length_fromByteVec, hlen]
  have hdiffer : (convertByteVecToFieldElementsVec edited : List F) ≠
      convertByteVecToFieldElementsVec rows :=
    fun hsame => hchanged (fromByteVec_injective hlen hsame)
  rw [ensureThat_bind, if_pos hlen]
  dsimp only
  rw [ensureThat_bind, if_pos hcount, ensureThat_bind, if_pos hdiffer]
  exact ⟨_, rfl⟩

theorem exists_other_output (h : 0 < D.outputSize) (root : D.Output) : ∃ other, other ≠ root := by
  by_cases hzero : root = Vector.replicate D.outputSize 0
  · refine ⟨Vector.replicate D.outputSize 1, ?_⟩
    intro hone
    have hbyte := congrArg (fun output : D.Output => output[0]) (hone.trans hzero)
    simp at hbyte
  · exact ⟨_, Ne.symm hzero⟩

theorem splice_ne_replicate {byte other : UInt8} (hne : other ≠ byte) (rest : List UInt8)
    {n offset : ℕ} (hoffset : offset < n) :
    (List.replicate n other).take offset ++ byte :: rest ++
      (List.replicate n other).drop (offset + (byte :: rest).length) ≠ List.replicate n other := by
  intro hsame
  have hat := congrArg (fun bytes : List UInt8 => bytes[offset]?) hsame
  simp [hoffset, Nat.min_eq_left hoffset.le] at hat
  exact hne hat.symm

theorem exists_rows_to_edit (Err : Type) (env : Environment F) {dataToAppend : List UInt8}
    (hdata : dataToAppend ≠ []) (hcols : fileMetadata.numColumns ≠ 0) (start firstEditedRow : ℕ) :
    ∃ rows difference, dataToAppend.length ≤ rows.length ∧
      rows.length % (env.capacity / 8 * fileMetadata.numColumns) = 0 ∧
      (expectedEditDifference env fileMetadata dataToAppend start firstEditedRow rows :
        Client D F Err F) = pure difference := by
  obtain ⟨byte, rest, rfl⟩ := List.exists_cons_of_ne_nil hdata
  obtain ⟨other, hother⟩ : ∃ other : UInt8, other ≠ byte := by
    by_cases hzero : byte = 0
    · exact ⟨1, by rw [hzero]; decide⟩
    · exact ⟨0, Ne.symm hzero⟩
  have hrow : 0 < env.capacity / 8 * fileMetadata.numColumns := by
    rw [env.capacity_div]
    exact Nat.mul_pos capacity_pos (Nat.pos_of_ne_zero hcols)
  have hmod := Nat.mod_lt start hrow
  let rows := List.replicate
    (env.capacity / 8 * fileMetadata.numColumns * ((byte :: rest).length + 1)) other
  have hlen : rows.length = env.capacity / 8 * fileMetadata.numColumns * (byte :: rest).length +
      env.capacity / 8 * fileMetadata.numColumns := List.length_replicate
  have hroom : (byte :: rest).length ≤
      env.capacity / 8 * fileMetadata.numColumns * (byte :: rest).length :=
    Nat.le_mul_of_pos_left _ hrow
  obtain ⟨difference, hdifference⟩ := expectedEditDifference_returns Err firstEditedRow hcols
    (by rw [hlen]; omega) (splice_ne_replicate hother rest
      (hmod.trans_le (Nat.le_mul_of_pos_right _ (Nat.succ_pos (byte :: rest).length))))
  refine ⟨rows, difference, by rw [hlen]; omega, ?_, hdifference⟩
  simp [rows]

theorem accepts_judgeEdit {dataToAppend rows : List UInt8} {start : ℕ} {root : D.Output}
    {oldResult newResult : List F} {difference : F} {oldColumns newColumns : List (LcColumn D F)}
    (hcols : fileMetadata.numColumns ≠ 0) (hroot : root ≠ fileMetadata.root.root)
    (hlen : dataToAppend.length ≤ rows.length)
    (hwhole : rows.length % (env.capacity / 8 * fileMetadata.numColumns) = 0)
    (hdifference : (expectedEditDifference env fileMetadata dataToAppend start
      (start / fileMetadata.numColumns / (env.capacity / 8)) rows : Client D F Err F) =
        pure difference)
    (hold : (verifyEvaluation env fileMetadata oldResult (columnsFromFixedSeed env fileMetadata)
      oldColumns : Fallible (VerifierError Err) F) = .ok 0)
    (hnew : (verifyEvaluation env { fileMetadata with root := ⟨root⟩ } newResult
      (columnsFromFixedSeed env fileMetadata) newColumns : Fallible (VerifierError Err) F) =
        .ok difference) (records : Records D) :
    Accepts (judgeEdit env fileMetadata dataToAppend start
      { fileMetadata with root := ⟨root⟩ } : Client D F Err _) records
      [some (.editEvaluation oldResult oldColumns newResult newColumns rows)] := by
  have hrow : env.capacity / 8 * fileMetadata.numColumns ≠ 0 := by
    rw [env.capacity_div]
    exact mul_ne_zero capacity_pos.ne' hcols
  unfold judgeEdit
  iterate 5 rw [ensureThat_bind, if_pos rfl]
  rw [ensureThat_bind, if_pos hroot]
  dsimp only
  iterate 2 rw [divide, assert_of hcols, ok_bind, pure_eq_ok, checked_ok, pure_bind]
  refine Accepts.request rfl ?_
  rw [ensureThat_bind, if_pos hlen, remainder, assert_of hrow, ok_bind, pure_eq_ok, checked_ok,
    pure_bind, ensureThat_bind, if_pos hwhole]
  dsimp only
  rw [hold, hnew]
  dsimp only
  rw [hdifference, pure_bind, ensureThat_bind, if_pos (zero_add difference)]
  exact accepts_answer rfl _ _ _

theorem edit_forged (hsize : 0 < D.outputSize) {dataToAppend : List UInt8} {start : ℕ}
    (h : ¬NeverAcceptable env fileMetadata (.change (.edit dataToAppend start)))
    (records : Records D) :
    ForgeryAccepted env fileMetadata (.change (.edit dataToAppend start)) records := by
  obtain ⟨hbounds, hcols⟩ : EditInBounds fileMetadata dataToAppend start ∧
      fileMetadata.numColumns ≠ 0 := by
    simpa [NeverAcceptable] using h
  obtain ⟨root, hroot⟩ := exists_other_output hsize fileMetadata.root.root
  obtain ⟨rows, difference, hlen, hwhole, hdifference⟩ := exists_rows_to_edit env.fft.Err env
    hbounds.2 hcols start (start / fileMetadata.numColumns / (env.capacity / 8))
  obtain ⟨oldResult, hold⟩ := exists_forged_evaluation env.fft.Err env fileMetadata
    (fun _ => @rfl F 0) (columnsFromFixedSeed env fileMetadata)
  obtain ⟨newResult, hnew⟩ := exists_forged_evaluation env.fft.Err env
    { fileMetadata with root := ⟨root⟩ } (fun hnone => (absurd hnone hcols : difference = 0))
    (columnsFromFixedSeed env fileMetadata)
  refine ⟨{ fileMetadata with root := ⟨root⟩ }, .editEvaluation oldResult _ newResult
    (forgedColumns D F (columnsFromFixedSeed env fileMetadata)) rows, _, rfl, ?_⟩
  change Accepts (editFile env fileMetadata dataToAppend start) _ _
  rw [editFile_of_inBounds hbounds]
  exact Accepts.request rfl
    (accepts_judgeEdit hcols hroot hlen hwhole hdifference hold hnew records)

theorem forgery_accepted (hsize : 0 < D.outputSize) {update : Update}
    (h : ¬NeverAcceptable env fileMetadata update) (records : Records D) :
    ForgeryAccepted env fileMetadata update records := by
  cases update with
  | reshape newPre newEncoded => exact reshape_forged newPre newEncoded records
  | change c =>
    cases c with
    | append dataToAppend => exact append_forged h records
    | edit dataToAppend start => exact edit_forged hsize h records

end Forgeries

/-- Columns are authenticated by the updates that no server can have accepted, and by no other. -/
theorem acceptsOnlyAuthentic_iff (hsize : 0 < D.outputSize) (env : Environment F)
    (fileMetadata : FileMetadata D) (update : Update) :
    AcceptsOnlyAuthentic env fileMetadata update ↔ NeverAcceptable env fileMetadata update := by
  constructor
  · intro hall
    by_contra hacceptable
    obtain ⟨new, transmission, newColumns, hcolumns, haccepts⟩ :=
      forgery_accepted hsize hacceptable fun _ => none
    obtain ⟨new', transmission', original, newColumns', -, hsecond, hreceived, hauthentic, -⟩ :=
      hall _ _ haccepts
    obtain rfl : transmission = transmission' := by simpa using hsecond
    obtain ⟨rfl, -⟩ := Prod.mk.inj (Option.some.inj (hcolumns.symm.trans hreceived))
    exact forgedColumns_not_authentic _ _ hauthentic
  · intro hnever records replies haccepts
    exact absurd haccepts (neverAcceptable_not_accepts hnever records replies)

theorem edit_not_authentic : ¬AcceptsOnlyAuthentic fermatEnvironment
    (⟨1, "file", 2, 1, 2, 2, ⟨none, "", 0⟩, ⟨#v[6]⟩⟩ : FileMetadata byteSum)
    (.change (.edit [5] 0)) := by
  intro hall
  have hnever := (acceptsOnlyAuthentic_iff (by decide) _ _ _).mp hall
  rcases hnever with hbounds | hcols
  · exact hbounds ⟨by decide, by decide⟩
  · cases hcols

/-- Two empty result vectors and no columns, where two columns of each version are requested. -/
theorem reshape_without_columns_accepted : ¬AcceptsOnlyAuthentic fermatEnvironment
    (⟨1, "file", 2, 1, 2, 2, ⟨none, "", 0⟩, ⟨#v[6]⟩⟩ : FileMetadata byteSum)
    (.reshape 2 4) := by
  intro hall
  obtain ⟨new, transmission, original, newColumns, -, hsecond, hreceived, hauthentic, -⟩ :=
    hall (fun _ => none)
      [some (.compactCommit ⟨2, "file", 1, 2, 4, 2, ⟨none, "", 0⟩, ⟨#v[0]⟩⟩),
        some (.reshapeEvaluation 0 [] [] [] [])] (by decide +kernel)
  obtain rfl := Option.some.inj (Option.some.inj hsecond)
  obtain ⟨rfl, -⟩ := Prod.mk.inj (Option.some.inj hreceived)
  exact absurd hauthentic.length_eq (by decide)

end NetworkAuthentication
