import ProofOfStorage.NetworkMessages
import Mathlib.Logic.Function.Basic

/-! # The client's updates of a stored file

A reshape, an append and an edit each ask for a new version of the file, ask for evaluations of
both versions, and answer whether the new version is accepted. The client keeps the metadata of
its files in a database of its own.
-/
namespace NetworkClient

open FoundationFaults FoundationSlices FoundationInteraction
open CommitmentTypes OnlineColumns OnlineEvaluation FileFields FileWriter NetworkMessages

inductive ClientError (D : Digest) (F Err : Type) where
  | message (text : String)
  | server (text : String) (error : ServerError Err)
  | unknownResponse (transmission : ServerMessages D F Err)
  | database

abbrev Records (D : Digest) := Ulid → Option (FileMetadata D)

abbrev Client (D : Digest) (F Err : Type) :=
  Interaction (ClientMessages D F) (ServerMessages D F Err) (Records D) (ClientError D F Err)

variable {D : Digest} {F Err α : Type}

section Steps

def checked (x : Fallible (ClientError D F Err) α) : Client D F Err α := .done x

def bail (text : String) : Client D F Err α := checked (fail (.message text))

def ensureThat (p : Prop) [Decidable p] (text : String) : Client D F Err Unit :=
  checked (ensure p (.message text))

def sendMessage (m : ClientMessages D F) : Client D F Err Unit := .send m (pure ())

def replied (failed : String) (select : ServerMessages D F Err → Option α) :
    Option (ServerMessages D F Err) → Client D F Err α
  | none => bail "Failed to receive message from server"
  | some transmission =>
    match select transmission with
    | some content => pure content
    | none =>
      match transmission with
      | .errorResponse error => checked (fail (.server failed error))
      | _ => checked (fail (.unknownResponse transmission))

def receiveReply (failed : String) (select : ServerMessages D F Err → Option α) :
    Client D F Err α := .receive (replied failed select)

def request (message : ClientMessages D F) (failed : String)
    (select : ServerMessages D F Err → Option α) : Client D F Err α := do
  sendMessage message
  receiveReply failed select

def refuse (response : ClientMessages D F) (text : String) : Client D F Err α := do
  sendMessage response
  bail text

def divide {ε : Type} (a b : ℕ) : Fallible ε ℕ := do
  assert (b ≠ 0)
  return a / b

def remainder {ε : Type} (a b : ℕ) : Fallible ε ℕ := do
  assert (b ≠ 0)
  return a % b

/-- `Vec::splice` with as many bytes as it removes. -/
def spliceBytes {ε : Type} (bytes : List UInt8) (start : ℕ) (replacement : List UInt8) :
    Fallible ε (List UInt8) := do
  assert (start + replacement.length ≤ bytes.length)
  return bytes.take start ++ replacement ++ bytes.drop (start + replacement.length)

/-- The new record is written before the old one is deleted. -/
def replaceRecord (new old : FileMetadata D) (mustExist : Bool) :
    Stateful (ClientError D F Err) (Records D) Unit := do
  lift (ensure (((← get) new.idUlid).isNone = true) .database)
  modify fun records => Function.update records new.idUlid (some new)
  let deleteResult := (← get) old.idUlid
  modify fun records => Function.update records old.idUlid none
  lift (assert (mustExist = true → deleteResult.isSome = true))

end Steps

section StepRules

variable {P : ClientMessages D F → Prop} {β : Type}

@[simp] theorem checked_ok (a : α) : (checked (.ok a) : Client D F Err α) = pure a := rfl

theorem ensureThat_bind {p : Prop} [Decidable p] {text : String} {f : Unit → Client D F Err β} :
    ensureThat p text >>= f = if p then f () else bail text := by
  unfold ensureThat ensure
  split <;> rfl

theorem sends_checked (x : Fallible (ClientError D F Err) α) : Sends P (checked x) := trivial

theorem sends_bail (text : String) : Sends P (bail text : Client D F Err α) := trivial

theorem sends_receiveReply (failed : String) (select : ServerMessages D F Err → Option α) :
    Sends P (receiveReply failed select) := by
  intro reply
  cases reply with
  | none => exact trivial
  | some transmission =>
    unfold replied
    dsimp only
    cases select transmission with
    | some content => exact trivial
    | none => cases transmission <;> exact trivial

theorem sends_request {message : ClientMessages D F} (h : P message) (failed : String)
    (select : ServerMessages D F Err → Option α) : Sends P (request message failed select) :=
  ⟨h, sends_receiveReply failed select⟩

theorem converse_request {τ : Type} {serve : Peer (ClientMessages D F) (ServerMessages D F Err) τ}
    {message q : ClientMessages D F} {failed : String} {select : ServerMessages D F Err → Option α}
    {f : α → Client D F Err β} {records : Records D} {t : τ}
    (hq : q ∈ (converse serve (request message failed select >>= f) records t []).sent)
    (hne : q ≠ message) :
    ∃ transmission content, (serve message t).1 = some transmission ∧
      select transmission = some content ∧
      converse serve (request message failed select >>= f) records t [] =
        (converse serve (f content) records (serve message t).2 []).prepend message
          (some transmission) := by
  have hrun : converse serve (request message failed select >>= f) records t [] =
      (converse serve (replied failed select (serve message t).1 >>= f) records
        (serve message t).2 []).prepend message (serve message t).1 := rfl
  rw [hrun] at hq ⊢
  replace hq := (List.mem_cons.mp hq).resolve_left hne
  cases hanswer : (serve message t).1 with
  | none =>
    rw [hanswer] at hq
    cases hq
  | some transmission =>
    rw [hanswer] at hq
    unfold replied at hq ⊢
    dsimp only at hq ⊢
    cases hselect : select transmission with
    | none =>
      rw [hselect] at hq
      cases transmission <;> cases hq
    | some content => exact ⟨transmission, content, rfl, hselect, rfl⟩

theorem replay_request {message : ClientMessages D F} {failed : String}
    {select : ServerMessages D F Err → Option α} {transmission : ServerMessages D F Err}
    {content : α} (h : select transmission = some content) (f : α → Client D F Err β)
    (records : Records D) (replies : List (Option (ServerMessages D F Err))) :
    (replay (request message failed select >>= f) records (some transmission :: replies)).sent =
      message :: (replay (f content) records replies).sent := by
  have hrun : (replay (request message failed select >>= f) records
      (some transmission :: replies)).sent = message ::
        (replay (replied failed select (some transmission) >>= f) records replies).sent := rfl
  rw [hrun]
  unfold replied
  simp only [h]
  rfl

end StepRules

def compactCommit : ServerMessages D F Err → Option (FileMetadata D)
  | .compactCommit fileMetadata => some fileMetadata
  | _ => none

structure Evaluations (D : Digest) (F β : Type) where
  originalResultVector : List F
  originalColumns : List (LcColumn D F)
  newResultVector : List F
  newColumns : List (LcColumn D F)
  other : β

def reshapeEvaluation : ServerMessages D F Err → Option (Evaluations D F F)
  | .reshapeEvaluation expectedResult originalResultVector originalColumns newResultVector
      newColumns =>
    some ⟨originalResultVector, originalColumns, newResultVector, newColumns, expectedResult⟩
  | _ => none

def appendEvaluation : ServerMessages D F Err → Option (Evaluations D F (List F))
  | .appendEvaluation originalResultVector originalColumns newResultVector newColumns
      editedUnencodedRow =>
    some ⟨originalResultVector, originalColumns, newResultVector, newColumns, editedUnencodedRow⟩
  | _ => none

def editEvaluation : ServerMessages D F Err → Option (Evaluations D F (List UInt8))
  | .editEvaluation originalResultVector originalColumns newResultVector newColumns
      originalUnencodedRows =>
    some ⟨originalResultVector, originalColumns, newResultVector, newColumns,
      originalUnencodedRows⟩
  | _ => none

variable [Field F] [DataField F] [DecidableEq F] (env : Environment F)

def verifyEvaluation (fileMetadata : FileMetadata D) (resultVector : List F)
    (requestedColumns : List ℕ) (columns : List (LcColumn D F)) :
    Fallible (VerifierError Err) F :=
  verifyFullPolynomialEvaluationWrapperWithSingleEvalPoint env.evaluationPoint resultVector
    fileMetadata.numRows fileMetadata.numColumns requestedColumns columns

def reshapeFile (fileMetadata : FileMetadata D) (newPreEncodedColumns newEncodedColumns : ℕ) :
    Client D F Err (FileMetadata D) := do
  let newFileMetadata ← request
    (.requestFileReshape fileMetadata newPreEncodedColumns newEncodedColumns)
    "File reshape failed: " compactCommit
  if newFileMetadata.numEncodedColumns ≠ newEncodedColumns ∨
      newFileMetadata.numColumns ≠ newPreEncodedColumns then
    refuse (.reshapeResponse newFileMetadata fileMetadata false)
      "Failed to reshape file: requested dimensions not met"
  else
    let requestedOriginalColumns := columnsFromFixedSeed env fileMetadata
    let requestedNewColumns := columnsFromFixedSeed env newFileMetadata
    let evaluations ← request (.requestReshapeEvaluation fileMetadata newFileMetadata
      env.evaluationPoint requestedOriginalColumns requestedNewColumns)
      "File reshape failed: " reshapeEvaluation
    let oldResults : Fallible (VerifierError Err) F := verifyEvaluation env fileMetadata
      evaluations.originalResultVector requestedOriginalColumns evaluations.originalColumns
    let newResults : Fallible (VerifierError Err) F := verifyEvaluation env newFileMetadata
      evaluations.newResultVector requestedNewColumns evaluations.newColumns
    match oldResults, newResults with
    | .ok oldResults, .ok newResults =>
      if oldResults ≠ newResults then
        refuse (.reshapeResponse newFileMetadata fileMetadata false)
          "polynomial evaluations mismatched between versions."
      else
        sendMessage (.reshapeResponse newFileMetadata fileMetadata true)
        .perform (replaceRecord newFileMetadata fileMetadata true) (pure ())
        return newFileMetadata
    | _, _ =>
      refuse (.reshapeResponse newFileMetadata fileMetadata false)
        "failed_to_verify_polynomial_evaluation"

/-- What the old end of the file contributes: the coefficient that the appended bytes complete,
taken away, and its bytes. -/
def completedCoefficient (fileMetadata appendedFileMetadata : FileMetadata D)
    (editedUnencodedRow : List F) : Client D F Err (F × List UInt8) := do
  let originalPolynomialDegree := fileMetadata.filesizeInBytes / (env.capacity / 8)
  let byteOffset := fileMetadata.filesizeInBytes % (env.capacity / 8)
  if byteOffset ≠ 0 then
    let position ← checked (remainder originalPolynomialDegree fileMetadata.numColumns)
    let changedCoefficient ← checked (index editedUnencodedRow position)
    let originalCoefficientBytes :=
      convertFieldElementsVecToByteVec [changedCoefficient] byteOffset
    let originalCoefficient : List F := convertByteVecToFieldElementsVec originalCoefficientBytes
    if originalCoefficient.length ≠ 1 then
      refuse (.editOrAppendResponse fileMetadata appendedFileMetadata false)
        "Expected only one changed coefficient"
    else
      return (0 - evaluateFieldPolynomialAtPointWithElevatedDegree originalCoefficient
        env.evaluationPoint originalPolynomialDegree, originalCoefficientBytes)
  else
    return (0, [])

def judgeAppend (fileMetadata : FileMetadata D) (dataToAppend : List UInt8)
    (appendedFileMetadata : FileMetadata D) : Client D F Err (FileMetadata D) := do
  if fileMetadata.numColumns ≠ appendedFileMetadata.numColumns ∨
      fileMetadata.numEncodedColumns ≠ appendedFileMetadata.numEncodedColumns then
    refuse (.editOrAppendResponse fileMetadata appendedFileMetadata false)
      "File append failed: Size of new commit is invalid"
  else if appendedFileMetadata.filesizeInBytes ≠
      fileMetadata.filesizeInBytes + dataToAppend.length then
    refuse (.editOrAppendResponse fileMetadata appendedFileMetadata false)
      "File append failed: Insufficient bytes on new commit"
  else
    let requestedColumns := columnsFromFixedSeed env fileMetadata
    let evaluations ← request (.requestAppendEvaluation fileMetadata appendedFileMetadata
      env.evaluationPoint requestedColumns) "File append failed on server end: " appendEvaluation
    let oldResults : Fallible (VerifierError Err) F := verifyEvaluation env fileMetadata
      evaluations.originalResultVector requestedColumns evaluations.originalColumns
    let newResults : Fallible (VerifierError Err) F := verifyEvaluation env appendedFileMetadata
      evaluations.newResultVector requestedColumns evaluations.newColumns
    match oldResults, newResults with
    | .ok oldResults, .ok newResults =>
      let originalPolynomialDegree := fileMetadata.filesizeInBytes / (env.capacity / 8)
      let completed ← completedCoefficient env fileMetadata appendedFileMetadata evaluations.other
      let coefficientDifference : List F :=
        convertByteVecToFieldElementsVec (completed.2 ++ dataToAppend)
      let expectedDifference := completed.1 + evaluateFieldPolynomialAtPointWithElevatedDegree
        coefficientDifference env.evaluationPoint originalPolynomialDegree
      if newResults ≠ oldResults + expectedDifference then
        refuse (.editOrAppendResponse fileMetadata appendedFileMetadata false)
          "File append failed: new results did not match expected results"
      else
        sendMessage (.editOrAppendResponse fileMetadata appendedFileMetadata true)
        .perform (replaceRecord appendedFileMetadata fileMetadata false) (pure ())
        return appendedFileMetadata
    | _, _ =>
      refuse (.editOrAppendResponse fileMetadata appendedFileMetadata false)
        "File append failed: verification failed"

def appendToFile (fileMetadata : FileMetadata D) (dataToAppend : List UInt8) :
    Client D F Err (FileMetadata D) := do
  let appendedFileMetadata ← request (.appendToFile fileMetadata dataToAppend)
    "File append failed on server end: " compactCommit
  judgeAppend env fileMetadata dataToAppend appendedFileMetadata

def expectedEditDifference (fileMetadata : FileMetadata D) (dataToAppend : List UInt8)
    (editStartLocation firstEditedRow : ℕ) (editedUnencodedRows : List UInt8) :
    Client D F Err F := do
  let startByteOffset ← checked (remainder editStartLocation
    (env.capacity / 8 * fileMetadata.numColumns))
  let expectedEditedBytes ← checked (spliceBytes editedUnencodedRows startByteOffset dataToAppend)
  ensureThat (expectedEditedBytes.length = editedUnencodedRows.length)
    "coefficient bytes unexpectedly changed upon replacement"
  let originalCoefficients : List F := convertByteVecToFieldElementsVec editedUnencodedRows
  let newCoefficients : List F := convertByteVecToFieldElementsVec expectedEditedBytes
  ensureThat (originalCoefficients.length = newCoefficients.length)
    "num coefficients unexpectedly have different lenghts"
  ensureThat (newCoefficients ≠ originalCoefficients) "no data was edited"
  let changedRowStartDegree := firstEditedRow * fileMetadata.numColumns
  return evaluateFieldPolynomialAtPointWithElevatedDegree newCoefficients env.evaluationPoint
      changedRowStartDegree -
    evaluateFieldPolynomialAtPointWithElevatedDegree originalCoefficients env.evaluationPoint
      changedRowStartDegree

/-- The rest of `edit_file`, from the metadata of the new version on. Only evaluations that do
not verify are answered; the other failures leave the server without an answer. -/
def judgeEdit (fileMetadata : FileMetadata D) (dataToAppend : List UInt8) (editStartLocation : ℕ)
    (editedFileMetadata : FileMetadata D) : Client D F Err (FileMetadata D) := do
  ensureThat (editedFileMetadata.filesizeInBytes = fileMetadata.filesizeInBytes)
    "file unexpectedly changed shape on edit"
  ensureThat (editedFileMetadata.filename = fileMetadata.filename)
    "file unexpectedly changed name on edit"
  ensureThat (editedFileMetadata.numRows = fileMetadata.numRows)
    "file unexpectedly changed number of rows on edit"
  ensureThat (editedFileMetadata.numColumns = fileMetadata.numColumns)
    "file unexpectedly changed number of columns on edit"
  ensureThat (editedFileMetadata.numEncodedColumns = fileMetadata.numEncodedColumns)
    "file unexpectedly changed number of encoded columns on edit"
  ensureThat (editedFileMetadata.root.root ≠ fileMetadata.root.root)
    "Server sent back the same root, probability of this is nil"
  let requestedColumns := columnsFromFixedSeed env fileMetadata
  let firstEditedRow :=
    (← checked (divide editStartLocation fileMetadata.numColumns)) / (env.capacity / 8)
  let lastEditedRow := (← checked (divide (editStartLocation + dataToAppend.length)
    fileMetadata.numColumns)) / (env.capacity / 8)
  let evaluations ← request (.requestEditEvaluation fileMetadata editedFileMetadata
    env.evaluationPoint requestedColumns (firstEditedRow, lastEditedRow))
    "File append failed on server end: " editEvaluation
  ensureThat (evaluations.other.length ≥ dataToAppend.length)
    "server sent insufficient data to verify polynomial"
  let leftOver ← checked (remainder evaluations.other.length
    (env.capacity / 8 * fileMetadata.numColumns))
  ensureThat (leftOver = 0) "server did not send an entire row"
  let oldResults : Fallible (VerifierError Err) F := verifyEvaluation env fileMetadata
    evaluations.originalResultVector requestedColumns evaluations.originalColumns
  let newResults : Fallible (VerifierError Err) F := verifyEvaluation env editedFileMetadata
    evaluations.newResultVector requestedColumns evaluations.newColumns
  match oldResults, newResults with
  | .ok oldResults, .ok newResults =>
    let expectedDifference ← expectedEditDifference env fileMetadata dataToAppend
      editStartLocation firstEditedRow evaluations.other
    ensureThat (oldResults + expectedDifference = newResults)
      "file append failed: verification failed"
    sendMessage (.editOrAppendResponse fileMetadata editedFileMetadata true)
    .perform (replaceRecord editedFileMetadata fileMetadata false) (pure ())
    return editedFileMetadata
  | _, _ =>
    refuse (.editOrAppendResponse fileMetadata editedFileMetadata false)
      "File append failed: verification failed"

def editFile (fileMetadata : FileMetadata D) (dataToAppend : List UInt8)
    (editStartLocation : ℕ) : Client D F Err (FileMetadata D) := do
  ensureThat (dataToAppend.length + editStartLocation ≤ fileMetadata.filesizeInBytes)
    "Edited data location will end out of bounds"
  ensureThat (dataToAppend.length ≠ 0) "there must be a non-zero edit"
  let editedFileMetadata ← request (.editFileBytes fileMetadata editStartLocation dataToAppend)
    "File append failed on server end: " compactCommit
  judgeEdit env fileMetadata dataToAppend editStartLocation editedFileMetadata

end NetworkClient
