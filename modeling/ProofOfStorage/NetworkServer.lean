import ProofOfStorage.NetworkMessages
import Mathlib.Logic.Function.Basic

/-! # The server

Its state is a disk and a database, both indexed by the identifier of a file. An error that a
handler returns is sent to the client; what the handler did before it stays done.
-/
namespace NetworkServer

open FoundationFaults FoundationSlices FoundationPositionalFiles FoundationInteraction
open CommitmentTypes CommitmentProof OnlineColumns OnlineEvaluation FileFields FileWriter
open NetworkMessages

structure Server (D : Digest) where
  disk : Ulid → Option (List UInt8)
  database : Ulid → Option (FileMetadata D)
  ulidsMade : ℕ

variable {D : Digest} {F Err : Type} [Field F] [DataField F]

abbrev Serving (D : Digest) (Err : Type) := Stateful (ServerError Err) (Server D)

section Storage

def read (id : Ulid) : Serving D Err (List UInt8) := do
  match (← get).disk id with
  | some file => return file
  | none => lift (fail .io)

def write (id : Ulid) (file : List UInt8) : Serving D Err Unit :=
  modify fun t => { t with disk := Function.update t.disk id (some file) }

def removeFile (id : Ulid) : Serving D Err Unit := do
  let _ ← read id
  modify fun t => { t with disk := Function.update t.disk id none }

/-- A file that is renamed to its own name stays where it is. -/
def rename (source target : Ulid) : Serving D Err Unit := do
  let file ← read source
  modify fun t =>
    { t with disk := Function.update (Function.update t.disk source none) target (some file) }

/-- A record that exists already cannot be created. -/
def create (fileMetadata : FileMetadata D) : Serving D Err Unit := do
  lift (ensure (((← get).database fileMetadata.idUlid).isNone = true) .database)
  modify fun t =>
    { t with database := Function.update t.database fileMetadata.idUlid (some fileMetadata) }

/-- A record that does not exist is deleted without an error. -/
def delete (id : Ulid) : Serving D Err (Option (FileMetadata D)) := do
  let t ← get
  modify fun t => { t with database := Function.update t.database id none }
  return t.database id

def newUlid (env : Environment F) : Serving D Err Ulid := do
  let t ← get
  modify fun t => { t with ulidsMade := t.ulidsMade + 1 }
  return env.ulidNew t.ulidsMade

theorem run_read (id : Ulid) (t : Server D) : (read id : Serving D Err _).run t =
    match t.disk id with
    | some file => .ok file t
    | none => .error (.error .io) t := by
  change (match t.disk id with
    | some file => (pure file : Serving D Err _)
    | none => lift (fail .io)).run t = _
  cases t.disk id <;> rfl

theorem run_read_bind_ok {β : Type} {id : Ulid} {t t' : Server D} {f : List UInt8 → Serving D Err β}
    {b : β} : (read id >>= f).run t = .ok b t' ↔
      ∃ file, t.disk id = some file ∧ (f file).run t = .ok b t' := by
  rw [EStateM.run_bind, run_read]
  cases t.disk id <;> simp

theorem run_removeFile (id : Ulid) (t : Server D) : (removeFile id : Serving D Err _).run t =
    match t.disk id with
    | some _ => .ok () { t with disk := Function.update t.disk id none }
    | none => .error (.error .io) t := by
  rw [removeFile, EStateM.run_bind, run_read]
  cases t.disk id <;> rfl

theorem run_rename (source target : Ulid) (t : Server D) :
    (rename source target : Serving D Err _).run t =
    match t.disk source with
    | some file => .ok () { t with
        disk := Function.update (Function.update t.disk source none) target (some file) }
    | none => .error (.error .io) t := by
  rw [rename, EStateM.run_bind, run_read]
  cases t.disk source <;> rfl

theorem run_delete (id : Ulid) (t : Server D) : (delete id : Serving D Err _).run t =
    .ok (t.database id) { t with database := Function.update t.database id none } := rfl

theorem run_create (fileMetadata : FileMetadata D) (t : Server D) :
    (create fileMetadata : Serving D Err _).run t =
    match t.database fileMetadata.idUlid with
    | some _ => .error (.error .database) t
    | none => .ok () { t with
        database := Function.update t.database fileMetadata.idUlid (some fileMetadata) } := by
  change (lift (ensure ((t.database fileMetadata.idUlid).isNone = true) .database) >>= fun _ =>
    (modify fun t => { t with
      database := Function.update t.database fileMetadata.idUlid (some fileMetadata) } :
        Serving D Err _)).run t = _
  cases t.database fileMetadata.idUlid <;> rfl

theorem run_write_bind {β : Type} (id : Ulid) (file : List UInt8) (f : Unit → Serving D Err β)
    (t : Server D) : (write id file >>= f).run t =
      (f ()).run { t with disk := Function.update t.disk id (some file) } := rfl

theorem run_newUlid_bind {β : Type} (env : Environment F) (f : Ulid → Serving D Err β)
    (t : Server D) : (newUlid env >>= f).run t =
      (f (env.ulidNew t.ulidsMade)).run { t with ulidsMade := t.ulidsMade + 1 } := rfl

end Storage

/-- Accepts everything. -/
def checkFileMetadata (_ : FileMetadata D) : Fallible (ServerError Err) Unit := .ok ()

section Handlers

variable (env : Environment F)

def commitOf (D : Digest) (encodedFileData : List F)
    (numPreEncodedColumns numEncodedColumns : ℕ) :
    Fallible (ServerError env.fft.Err) (LcCommit D F) := do
  match ← mapErr .conversion (convertFileDataToCommit env.fft D env.sqrtCeil encodedFileData
    .commit (.specified numPreEncodedColumns numEncodedColumns)) with
  | .commit commit => return commit
  | _ => fail (.message "Unexpected failure to convert file to commitment")

theorem commitOf_eq_ok {env : Environment F} {elements : List F} {pre enc : ℕ}
    {comm : LcCommit D F} : commitOf env D elements pre enc = .ok comm ↔
      elements ≠ [] ∧ 1 ≤ pre ∧ ∃ encoding,
        (newFromDims env.fft pre enc : Fallible (ConversionError env.fft.Err) _) = .ok encoding ∧
        commit D elements encoding = .ok comm := by
  constructor
  · intro h
    obtain ⟨out, hout, h⟩ := bind_eq_ok.mp h
    have hout := mapErr_eq_ok.mp hout
    unfold convertFileDataToCommit at hout
    obtain ⟨_, hlen, hout⟩ := bind_eq_ok.mp hout
    obtain ⟨dims, hdims, hout⟩ := bind_eq_ok.mp hout
    obtain ⟨hpre, -, -, -, rfl⟩ := matrixDimensions_specified_eq_ok.mp hdims
    obtain ⟨encoding, hencoding, hout⟩ := bind_eq_ok.mp hout
    obtain ⟨comm', hcomm, hout⟩ := bind_eq_ok.mp hout
    obtain rfl := Except.ok.inj hout
    obtain rfl := Except.ok.inj h
    exact ⟨List.length_pos_iff.mp (ensure_eq_ok.mp hlen), hpre, encoding, hencoding,
      mapErr_eq_ok.mp hcomm⟩
  · rintro ⟨hne, hpre, encoding, hencoding, hcomm⟩
    obtain ⟨hlt, hpow, -⟩ := newFromDims_eq_ok hencoding
    refine bind_eq_ok.mpr ⟨.commit comm, mapErr_eq_ok.mpr ?_, rfl⟩
    refine bind_eq_ok.mpr ⟨(), ensure_eq_ok.mpr (List.length_pos_iff.mpr hne), ?_⟩
    refine bind_eq_ok.mpr ⟨(pre, enc), ?_, ?_⟩
    · exact matrixDimensions_specified_eq_ok.mpr ⟨hpre, by omega, hpow, hlt, rfl⟩
    · refine bind_eq_ok.mpr ⟨encoding, hencoding, ?_⟩
      exact bind_eq_ok.mpr ⟨comm, mapErr_eq_ok.mpr hcomm, rfl⟩

theorem shape_of_commitOf {env : Environment F} {elements : List F} {pre enc : ℕ}
    {comm : LcCommit D F} (h : commitOf env D elements pre enc = .ok comm) :
    1 ≤ pre ∧ comm.nRows = divCeil elements.length pre ∧ comm.nPerRow = pre ∧
      comm.nCols = enc := by
  obtain ⟨-, hpre, encoding, hencoding, hcomm⟩ := commitOf_eq_ok.mp h
  obtain ⟨-, -, pc, -, -, rfl⟩ := newFromDims_eq_ok hencoding
  obtain ⟨hrows, hcols⟩ := Prod.mk.inj (getDims_of_commit hcomm)
  obtain ⟨hper, henc⟩ := Prod.mk.inj hcols
  exact ⟨hpre, hrows.symm, hper.symm, henc.symm⟩

def evaluateCommit (commit : LcCommit D F) (evaluationPoint : F) (columnsToExpand : List ℕ) :
    Fallible (ServerError env.fft.Err) (List F × List (LcColumn D F)) := do
  let (evaluationLeftVector, _) :=
    formSideVectorsForPolynomialEvaluationFromPoint evaluationPoint commit.nRows commit.nPerRow
  let resultVector ← verifiablePolynomialEvaluation commit evaluationLeftVector
  let columns ← serverRetreiveColumns commit columnsToExpand
  return (resultVector, columns)

def handleClientUploadNewFile (filename : String) (fileData : List UInt8)
    (preEncodedColumns encodedColumns : ℕ) :
    Serving D env.fft.Err (ServerMessages D F env.fft.Err) := do
  lift (ensure (dimsOk preEncodedColumns encodedColumns = true)
    (.message "Invalid rows or columns"))
  let commit ← lift (commitOf env D (convertByteVecToFieldElementsVec fileData)
    preEncodedColumns encodedColumns)
  let newUploadId ← newUlid env
  write newUploadId fileData
  let root ← lift (getRoot commit)
  let fileMetadata : FileMetadata D := {
    idUlid := newUploadId
    filename
    numRows := commit.nRows
    numColumns := preEncodedColumns
    numEncodedColumns := encodedColumns
    filesizeInBytes := fileData.length
    storedServer := ⟨none, "", 0⟩
    root }
  create fileMetadata
  return .compactCommit fileMetadata

def handleClientRequestFile (fileMetadata : FileMetadata D) :
    Serving D env.fft.Err (ServerMessages D F env.fft.Err) := do
  lift (checkFileMetadata fileMetadata)
  return .file (← read fileMetadata.idUlid)

/-- The rows are counted as before the edit, also when it makes the file longer. -/
def handleClientEditFileBytes (fileMetadata : FileMetadata D) (startByte : ℕ)
    (newFileData : List UInt8) : Serving D env.fft.Err (ServerMessages D F env.fft.Err) := do
  lift (checkFileMetadata fileMetadata)
  let newId ← newUlid env
  let oldFile ← read fileMetadata.idUlid
  write newId oldFile
  let newFile ← read newId
  write newId (writeAt newFile startByte newFileData)
  let newFileData ← read newId
  let updatedCommit ← lift (commitOf env D (convertByteVecToFieldElementsVec newFileData)
    fileMetadata.numColumns fileMetadata.numEncodedColumns)
  let root ← lift (getRoot updatedCommit)
  let updatedFileMetadata := { fileMetadata with
    idUlid := newId
    root
    filesizeInBytes := newFileData.length }
  create updatedFileMetadata
  return .compactCommit updatedFileMetadata

def handleClientAppendToFile (fileMetadata : FileMetadata D) (fileDataToAppend : List UInt8) :
    Serving D env.fft.Err (ServerMessages D F env.fft.Err) := do
  lift (checkFileMetadata fileMetadata)
  let newId ← newUlid env
  let oldFileData ← read fileMetadata.idUlid
  let newFileData := oldFileData ++ fileDataToAppend
  write newId newFileData
  let updatedCommit ← lift (commitOf env D (convertByteVecToFieldElementsVec newFileData)
    fileMetadata.numColumns fileMetadata.numEncodedColumns)
  let root ← lift (getRoot updatedCommit)
  let updatedFileMetadata := { fileMetadata with
    idUlid := newId
    root
    numRows := updatedCommit.nRows
    filesizeInBytes := newFileData.length }
  create updatedFileMetadata
  return .compactCommit updatedFileMetadata

def handleClientRequestProof (fileMetadata : FileMetadata D) (requestedColumns : List ℕ) :
    Serving D env.fft.Err (ServerMessages D F env.fft.Err) := do
  lift (checkFileMetadata fileMetadata)
  let fileData ← read fileMetadata.idUlid
  match ← lift (mapErr .conversion (convertFileDataToCommit env.fft D env.sqrtCeil
    (convertByteVecToFieldElementsVec fileData) (.columnsWithPath requestedColumns)
    (.specified fileMetadata.numColumns fileMetadata.numEncodedColumns))) with
  | .columnsWithPath columns => return .columns columns
  | _ => lift (fail (.message "Unexpected failure to convert file to columns"))

/-- The left vector is formed for the number of encoded columns. -/
def handleClientRequestPolynomialEvaluation (fileMetadata : FileMetadata D)
    (evaluationPoint : F) : Serving D env.fft.Err (ServerMessages D F env.fft.Err) := do
  lift (checkFileMetadata fileMetadata)
  let fileData ← read fileMetadata.idUlid
  let commit ← lift (commitOf env D (convertByteVecToFieldElementsVec fileData)
    fileMetadata.numColumns fileMetadata.numEncodedColumns)
  let (evaluationLeftVector, _) :=
    formSideVectorsForPolynomialEvaluationFromPoint evaluationPoint commit.nRows commit.nCols
  let resultVector ← lift (verifiablePolynomialEvaluation commit evaluationLeftVector)
  return .polynomialEvaluation resultVector

/-- A file that is not on the disk is the one reason why it cannot be removed. -/
def handleClientDeleteFile (fileMetadata : FileMetadata D) :
    Serving D env.fft.Err (ServerMessages D F env.fft.Err) := do
  lift (checkFileMetadata fileMetadata)
  let dbDeleteResult ← delete fileMetadata.idUlid
  let onDisk := ((← get).disk fileMetadata.idUlid).isSome
  modify fun t => { t with disk := Function.update t.disk fileMetadata.idUlid none }
  let returnString := if onDisk then "" else
    "error deleting file: No such file or directory (os error 2); "
  let returnString := if dbDeleteResult.isSome then returnString else
    (if returnString.isEmpty then returnString else returnString ++ "; ") ++
      "error deleting file metadata from local database"
  lift (ensure (returnString.isEmpty = true) (.message returnString))
  return .fileDeleted fileMetadata.filename

/-- No file and no record are made for the new shape. -/
def handleClientRequestFileReshape (fileMetadata : FileMetadata D)
    (newPreEncodedColumns newEncodedColumns : ℕ) :
    Serving D env.fft.Err (ServerMessages D F env.fft.Err) := do
  lift (checkFileMetadata fileMetadata)
  let fileData ← read fileMetadata.idUlid
  let updatedCommit ← lift (commitOf env D (convertByteVecToFieldElementsVec fileData)
    newPreEncodedColumns newEncodedColumns)
  let newId ← newUlid env
  let root ← lift (getRoot updatedCommit)
  return .compactCommit { fileMetadata with
    idUlid := newId
    numRows := updatedCommit.nRows
    numColumns := newPreEncodedColumns
    numEncodedColumns := newEncodedColumns
    root }

def handleClientRequestReshapeEvaluation (oldFileMetadata newFileMetadata : FileMetadata D)
    (evaluationPoint : F) (columnsToExpandOriginal columnsToExpandNew : List ℕ) :
    Serving D env.fft.Err (ServerMessages D F env.fft.Err) := do
  lift (checkFileMetadata oldFileMetadata)
  lift (checkFileMetadata newFileMetadata)
  let fileData ← read oldFileMetadata.idUlid
  let fieldedFileData : List F := convertByteVecToFieldElementsVec fileData
  let oldCommit ← lift (commitOf env D fieldedFileData oldFileMetadata.numColumns
    oldFileMetadata.numEncodedColumns)
  let newCommit ← lift (commitOf env D fieldedFileData newFileMetadata.numColumns
    newFileMetadata.numEncodedColumns)
  let old ← lift (evaluateCommit env oldCommit evaluationPoint columnsToExpandOriginal)
  let new ← lift (evaluateCommit env newCommit evaluationPoint columnsToExpandNew)
  let expectedEval := evaluateFieldPolynomialAtPoint fieldedFileData evaluationPoint
  return .reshapeEvaluation expectedEval old.1 old.2 new.1 new.2

/-- The record of the old metadata is deleted on both answers. -/
def handleClientReshapeResponse (oldFileMetadata newFileMetadata : FileMetadata D)
    (accepted : Bool) : Serving D env.fft.Err (ServerMessages D F env.fft.Err) := do
  lift (checkFileMetadata oldFileMetadata)
  lift (checkFileMetadata newFileMetadata)
  if accepted = true then
    rename oldFileMetadata.idUlid newFileMetadata.idUlid
    let _ ← delete oldFileMetadata.idUlid
    return .compactCommit newFileMetadata
  else
    let _ ← delete oldFileMetadata.idUlid
    return .compactCommit oldFileMetadata

/-- The row that an append shows: up to the end of the last old row, or up to an index that
divides bytes by the capacity in bits. -/
def appendedRow (oldFileMetadata newFileMetadata : FileMetadata D)
    (fieldedNewFileData : List F) : Fallible (ServerError env.fft.Err) (List F) := do
  let startOfEditedRow := (← checkedSub oldFileMetadata.numRows 1) * oldFileMetadata.numColumns
  let endOfEditedRow ← if oldFileMetadata.numRows < newFileMetadata.numRows then
      checkedSub (oldFileMetadata.numRows * oldFileMetadata.numColumns) 1
    else
      pure (divCeil newFileMetadata.filesizeInBytes env.capacity)
  slice fieldedNewFileData startOfEditedRow (endOfEditedRow + 1)

/-- The rows that an edit shows; their end is at most the length of the file. -/
def originalRows (oldFileMetadata : FileMetadata D) (oldFileData : List UInt8)
    (start finish : ℕ) : Fallible (ServerError env.fft.Err) (List UInt8) := do
  let startOfEditedRowInBytes := start * oldFileMetadata.numColumns * (env.capacity / 8)
  let endOfOriginalRowInBytes ←
    checkedSub ((finish + 1) * oldFileMetadata.numColumns * (env.capacity / 8)) 1
  let endOfOriginalRowInBytes := min endOfOriginalRowInBytes oldFileData.length
  slice oldFileData startOfEditedRowInBytes (endOfOriginalRowInBytes + 1)

def handleClientAppendOrEditEvalRequest (oldFileMetadata newFileMetadata : FileMetadata D)
    (evaluationPoint : F) (columnsToExpand : List ℕ)
    (requestedUnencodedRowRangeInclusiveForEdits : Option (ℕ × ℕ)) :
    Serving D env.fft.Err (ServerMessages D F env.fft.Err) := do
  lift (checkFileMetadata oldFileMetadata)
  lift (checkFileMetadata newFileMetadata)
  let oldFileData ← read oldFileMetadata.idUlid
  let newFileData ← read newFileMetadata.idUlid
  let fieldedOldFileData : List F := convertByteVecToFieldElementsVec oldFileData
  let fieldedNewFileData : List F := convertByteVecToFieldElementsVec newFileData
  let oldCommit ← lift (commitOf env D fieldedOldFileData oldFileMetadata.numColumns
    oldFileMetadata.numEncodedColumns)
  let newCommit ← lift (commitOf env D fieldedNewFileData newFileMetadata.numColumns
    newFileMetadata.numEncodedColumns)
  let old ← lift (evaluateCommit env oldCommit evaluationPoint columnsToExpand)
  let new ← lift (evaluateCommit env newCommit evaluationPoint columnsToExpand)
  match requestedUnencodedRowRangeInclusiveForEdits with
  | none =>
    let editedUnencodedRow ← lift (appendedRow env oldFileMetadata newFileMetadata
      fieldedNewFileData)
    return .appendEvaluation old.1 old.2 new.1 new.2 editedUnencodedRow
  | some (start, finish) =>
    let originalUnencodedRows ← lift (originalRows env oldFileMetadata oldFileData start finish)
    return .editEvaluation old.1 old.2 new.1 new.2 originalUnencodedRows

def handleClientAppendOrEditResponse (oldFileMetadata newFileMetadata : FileMetadata D)
    (accepted : Bool) : Serving D env.fft.Err (ServerMessages D F env.fft.Err) := do
  lift (checkFileMetadata oldFileMetadata)
  lift (checkFileMetadata newFileMetadata)
  if accepted = true then
    rename oldFileMetadata.idUlid newFileMetadata.idUlid
    let _ ← delete oldFileMetadata.idUlid
    removeFile oldFileMetadata.idUlid
    return .compactCommit newFileMetadata
  else
    let _ ← delete oldFileMetadata.idUlid
    removeFile newFileMetadata.idUlid
    return .compactCommit oldFileMetadata

def handleClientMessage :
    ClientMessages D F → Serving D env.fft.Err (ServerMessages D F env.fft.Err)
  | .uploadNewFile filename file columns encodedColumns =>
    handleClientUploadNewFile env filename file columns encodedColumns
  | .requestFile fileMetadata => handleClientRequestFile env fileMetadata
  | .editFileBytes fileMetadata startByte file =>
    handleClientEditFileBytes env fileMetadata startByte file
  | .appendToFile fileMetadata appendData =>
    handleClientAppendToFile env fileMetadata appendData
  | .requestProof fileMetadata columnsToVerify =>
    handleClientRequestProof env fileMetadata columnsToVerify
  | .requestPolynomialEvaluation fileMetadata evaluationPoint =>
    handleClientRequestPolynomialEvaluation env fileMetadata evaluationPoint
  | .requestFileReshape fileMetadata newPreEncodedColumns newEncodedColumns =>
    handleClientRequestFileReshape env fileMetadata newPreEncodedColumns newEncodedColumns
  | .requestReshapeEvaluation old new evaluationPoint original expanded =>
    handleClientRequestReshapeEvaluation env old new evaluationPoint original expanded
  | .reshapeResponse new old accepted => handleClientReshapeResponse env old new accepted
  | .requestAppendEvaluation old new evaluationPoint columnsToExpand =>
    handleClientAppendOrEditEvalRequest env old new evaluationPoint columnsToExpand none
  | .requestEditEvaluation old new evaluationPoint columnsToExpand range =>
    handleClientAppendOrEditEvalRequest env old new evaluationPoint columnsToExpand (some range)
  | .editOrAppendResponse new old accepted => handleClientAppendOrEditResponse env old new accepted
  | .deleteFile fileMetadata => handleClientDeleteFile env fileMetadata
  | .clientKeepAlive => return .serverKeepAlive

/-- One round of `handle_client_loop`. A panic ends the connection without an answer. -/
def serve : Peer (ClientMessages D F) (ServerMessages D F env.fft.Err) (Server D) := fun m t =>
  match (handleClientMessage env m).run t with
  | .ok response t' => (some response, t')
  | .error (.error error) t' => (some (.errorResponse error), t')
  | .error .panic t' => (none, t')

theorem run_of_serve {env : Environment F} {message : ClientMessages D F} {t : Server D}
    {response : ServerMessages D F env.fft.Err} (h : (serve env message t).1 = some response)
    (hne : ∀ error, response ≠ .errorResponse error) :
    ∃ t', (handleClientMessage env message).run t = .ok response t' ∧
      (serve env message t).2 = t' := by
  unfold serve at h ⊢
  cases hrun : (handleClientMessage env message).run t with
  | ok answer t' =>
    rw [hrun] at h
    exact ⟨t', congrArg (EStateM.Result.ok · t') (Option.some.inj h), rfl⟩
  | error fault t' =>
    rw [hrun] at h
    cases fault with
    | error error => exact absurd (Option.some.inj h).symm (hne error)
    | panic => cases h

section Responses

variable {env} {new old : FileMetadata D} {t : Server D}

/-- A rejection removes the file that the message names as the new one. -/
theorem serve_rejection (env : Environment F) (new old : FileMetadata D) (t : Server D) :
    (serve env (.editOrAppendResponse new old false) t).2.disk new.idUlid = none := by
  have hrun : (handleClientMessage env (.editOrAppendResponse new old false)).run t =
      (removeFile new.idUlid >>= fun _ => pure (.compactCommit old)).run
        { t with database := Function.update t.database old.idUlid none } := rfl
  rw [EStateM.run_bind, run_removeFile] at hrun
  unfold serve
  cases hfile : t.disk new.idUlid with
  | none =>
    simp only [hfile] at hrun
    rw [hrun]
    exact hfile
  | some file =>
    simp only [hfile] at hrun
    rw [hrun]
    exact Function.update_self ..

/-- An acceptance that succeeds deletes the record that the message names as the old one. -/
theorem serve_acceptance {reply : FileMetadata D}
    (h : (serve env (.editOrAppendResponse new old true) t).1 = some (.compactCommit reply)) :
    (serve env (.editOrAppendResponse new old true) t).2.database old.idUlid = none := by
  have hrun : (handleClientMessage env (.editOrAppendResponse new old true)).run t =
      (rename old.idUlid new.idUlid >>= fun _ => delete old.idUlid >>= fun _ =>
        removeFile old.idUlid >>= fun _ => pure (.compactCommit new)).run t := rfl
  rw [EStateM.run_bind, run_rename] at hrun
  unfold serve at h ⊢
  cases hfile : t.disk old.idUlid with
  | none =>
    simp only [hfile] at hrun
    rw [hrun] at h
    cases h
  | some file =>
    simp only [hfile] at hrun
    rw [EStateM.run_bind, run_delete] at hrun
    simp only at hrun
    rw [EStateM.run_bind, run_removeFile] at hrun
    -- the file was renamed away, so it is there to be removed only under its own name
    cases hkept : Function.update (Function.update t.disk old.idUlid none) new.idUlid (some file)
        old.idUlid with
    | none =>
      simp only [hkept] at hrun
      rw [hrun] at h
      cases h
    | some kept =>
      simp only [hkept] at hrun
      rw [hrun]
      exact Function.update_self ..

end Responses

end Handlers

end NetworkServer
