import ProofOfStorage.FoundationInterleaving
import ProofOfStorage.NetworkServer

/-! # The connections of a server

Each connection has its messages handled one after another, at the same time as the other
connections have theirs. Every access to the disk or to a database is one step; what happens between
two accesses needs nothing that is shared.
-/
namespace NetworkConnections

open FoundationFaults FoundationSlices FoundationPositionalFiles FoundationRuns
open FoundationProcesses FoundationInterleaving
open CommitmentTypes CommitmentMerkle CommitmentProof OnlineColumns OnlineEvaluation
open FileFields FileWriter NetworkMessages NetworkServer

structure User where
  idString : String
  hashedPassword : String

/-- A user is looked for in the table `users` and created in the table `user`. Each connection has
the identifiers of the files that it sends in chunks. -/
structure Store (ι : Type) (D : Digest) extends Server D where
  users : String → Option User
  user : String → Option User
  openFiles : ι → Ulid → Bool

inductive ConnectionMessages (D : Digest) (F : Type) where
  | files (message : ClientMessages D F)
  | newUser (username password : String)
  | userLogin (username password : String)
  | startUploadNewFileByChunks (filename : String) (columns encodedColumns totalFileSize : ℕ)
  | uploadFileChunk (fileUlid : Ulid) (chunk : List UInt8) (lastChunk : Bool)
  | requestFileRow (fileMetadata : FileMetadata D) (row : ℕ)
  | requestEncodedColumn (fileMetadata : FileMetadata D) (row : ℕ)

inductive ConnectionReplies (D : Digest) (F Err : Type) where
  | files (message : ServerMessages D F Err)
  | userLoginResponse (success : Bool)
  | uploadingFileChunkIdentifier (fileUlid : Ulid)
  | fileRow (row : List UInt8)

/-- A message, with the identifier that `Ulid::new` will give to its handler. -/
structure Request (D : Digest) (F : Type) where
  fresh : Ulid
  message : ConnectionMessages D F

variable {ι : Type} {D : Digest} {F Err α : Type}

section Outcomes

variable {ε : Type} {r : Fallible ε (ConnectionReplies D F Err)}

def replyOf : Fallible ε (ConnectionReplies D F Err) → Option (ServerMessages D F Err)
  | .ok (.files message) => some message
  | _ => none

def recordOf : Fallible ε (ConnectionReplies D F Err) → Option (FileMetadata D)
  | .ok (.files (.compactCommit m)) => some m
  | _ => none

theorem replyOf_eq_some {message : ServerMessages D F Err} :
    replyOf r = some message ↔ r = .ok (.files message) := by
  fun_cases replyOf r <;> simp_all

theorem recordOf_eq_some {m : FileMetadata D} :
    recordOf r = some m ↔ r = .ok (.files (.compactCommit m)) := by
  fun_cases recordOf r <;> simp_all

end Outcomes

section Names

def named : ClientMessages D F → List Ulid
  | .uploadNewFile .. => []
  | .requestFile m => [m.idUlid]
  | .editFileBytes m .. => [m.idUlid]
  | .appendToFile m _ => [m.idUlid]
  | .requestProof m _ => [m.idUlid]
  | .requestPolynomialEvaluation m _ => [m.idUlid]
  | .requestFileReshape m .. => [m.idUlid]
  | .requestReshapeEvaluation old new .. => [old.idUlid, new.idUlid]
  | .reshapeResponse new old _ => [old.idUlid, new.idUlid]
  | .requestAppendEvaluation old new .. => [old.idUlid, new.idUlid]
  | .requestEditEvaluation old new .. => [old.idUlid, new.idUlid]
  | .editOrAppendResponse new old _ => [old.idUlid, new.idUlid]
  | .deleteFile m => [m.idUlid]
  | .clientKeepAlive => []

def ConnectionMessages.named : ConnectionMessages D F → List Ulid
  | .files message => NetworkConnections.named message
  | .uploadFileChunk fileUlid .. => [fileUlid]
  | .requestFileRow m _ => [m.idUlid]
  | .requestEncodedColumn m _ => [m.idUlid]
  | _ => []

/-- The identifiers whose file or record the handler of a message may move or take away. -/
def targets : ClientMessages D F → List Ulid
  | .reshapeResponse new old accepted => if accepted then [old.idUlid, new.idUlid] else [old.idUlid]
  | .editOrAppendResponse new old _ => [old.idUlid, new.idUlid]
  | .deleteFile m => [m.idUlid]
  | _ => []

def ConnectionMessages.targets : ConnectionMessages D F → List Ulid
  | .files message => NetworkConnections.targets message
  | _ => []

/-- The identifiers whose file the answer to a reshape, an edit or an append may move or remove. -/
def answered : ClientMessages D F → List Ulid
  | .reshapeResponse new old accepted => if accepted then [old.idUlid, new.idUlid] else []
  | .editOrAppendResponse new old _ => [old.idUlid, new.idUlid]
  | _ => []

def ConnectionMessages.answered : ConnectionMessages D F → List Ulid
  | .files message => NetworkConnections.answered message
  | _ => []

end Names

abbrev Handling (D : Digest) (Err : Type) := Process (Server D) (ServerError Err)

section Access

/-- Only the number of identifiers that were made is kept. -/
def drawUlid : Serving D Err Unit := modify fun t => { t with ulidsMade := t.ulidsMade + 1 }

def patch (id : Ulid) (startByte : ℕ) (bytes : List UInt8) : Serving D Err Unit := do
  let file ← read id
  write id (writeAt file startByte bytes)

def removeIfThere (id : Ulid) : Serving D Err Bool := do
  let onDisk := ((← get).disk id).isSome
  modify fun t => { t with disk := Function.update t.disk id none }
  return onDisk

/-- Open a file to be written, which keeps what it holds. -/
def openForWriting (id : Ulid) : Serving D Err Unit :=
  modify fun t => { t with disk := Function.update t.disk id (some ((t.disk id).getD [])) }

end Access

section Handlers

variable [Field F] [DataField F] (env : Environment F) (fresh : Ulid)

def handleClientUploadNewFile (filename : String) (fileData : List UInt8)
    (preEncodedColumns encodedColumns : ℕ) :
    Handling D env.fft.Err (ServerMessages D F env.fft.Err) := do
  .done (ensure (dimsOk preEncodedColumns encodedColumns = true)
    (.message "Invalid rows or columns"))
  let commit ← .done (commitOf env D (convertByteVecToFieldElementsVec fileData)
    preEncodedColumns encodedColumns)
  atomic drawUlid
  atomic (write fresh fileData)
  let root ← .done (getRoot commit)
  let fileMetadata : FileMetadata D := {
    idUlid := fresh
    filename
    numRows := commit.nRows
    numColumns := preEncodedColumns
    numEncodedColumns := encodedColumns
    filesizeInBytes := fileData.length
    storedServer := ⟨none, "", 0⟩
    root }
  atomic (create fileMetadata)
  return .compactCommit fileMetadata

def handleClientEditFileBytes (fileMetadata : FileMetadata D) (startByte : ℕ)
    (newFileData : List UInt8) : Handling D env.fft.Err (ServerMessages D F env.fft.Err) := do
  .done (checkFileMetadata fileMetadata)
  atomic drawUlid
  let oldFile ← atomic (read fileMetadata.idUlid)
  atomic (write fresh oldFile)
  atomic (patch fresh startByte newFileData)
  let newFileData ← atomic (read fresh)
  let updatedCommit ← .done (commitOf env D (convertByteVecToFieldElementsVec newFileData)
    fileMetadata.numColumns fileMetadata.numEncodedColumns)
  let root ← .done (getRoot updatedCommit)
  let updatedFileMetadata := { fileMetadata with
    idUlid := fresh
    root
    filesizeInBytes := newFileData.length }
  atomic (create updatedFileMetadata)
  return .compactCommit updatedFileMetadata

def handleClientAppendToFile (fileMetadata : FileMetadata D) (fileDataToAppend : List UInt8) :
    Handling D env.fft.Err (ServerMessages D F env.fft.Err) := do
  .done (checkFileMetadata fileMetadata)
  atomic drawUlid
  let oldFileData ← atomic (read fileMetadata.idUlid)
  let newFileData := oldFileData ++ fileDataToAppend
  atomic (write fresh newFileData)
  let updatedCommit ← .done (commitOf env D (convertByteVecToFieldElementsVec newFileData)
    fileMetadata.numColumns fileMetadata.numEncodedColumns)
  let root ← .done (getRoot updatedCommit)
  let updatedFileMetadata := { fileMetadata with
    idUlid := fresh
    root
    numRows := updatedCommit.nRows
    filesizeInBytes := newFileData.length }
  atomic (create updatedFileMetadata)
  return .compactCommit updatedFileMetadata

def handleClientDeleteFile (fileMetadata : FileMetadata D) :
    Handling D env.fft.Err (ServerMessages D F env.fft.Err) := do
  .done (checkFileMetadata fileMetadata)
  let dbDeleteResult ← atomic (delete fileMetadata.idUlid)
  let onDisk ← atomic (removeIfThere fileMetadata.idUlid)
  let returnString := if onDisk then "" else
    "error deleting file: No such file or directory (os error 2); "
  let returnString := if dbDeleteResult.isSome then returnString else
    (if returnString.isEmpty then returnString else returnString ++ "; ") ++
      "error deleting file metadata from local database"
  .done (ensure (returnString.isEmpty = true) (.message returnString))
  return .fileDeleted fileMetadata.filename

def handleClientRequestFileReshape (fileMetadata : FileMetadata D)
    (newPreEncodedColumns newEncodedColumns : ℕ) :
    Handling D env.fft.Err (ServerMessages D F env.fft.Err) := do
  .done (checkFileMetadata fileMetadata)
  let fileData ← atomic (read fileMetadata.idUlid)
  let updatedCommit ← .done (commitOf env D (convertByteVecToFieldElementsVec fileData)
    newPreEncodedColumns newEncodedColumns)
  atomic drawUlid
  let root ← .done (getRoot updatedCommit)
  return .compactCommit { fileMetadata with
    idUlid := fresh
    numRows := updatedCommit.nRows
    numColumns := newPreEncodedColumns
    numEncodedColumns := newEncodedColumns
    root }

def handleClientReshapeResponse (oldFileMetadata newFileMetadata : FileMetadata D)
    (accepted : Bool) : Handling D env.fft.Err (ServerMessages D F env.fft.Err) := do
  .done (checkFileMetadata oldFileMetadata)
  .done (checkFileMetadata newFileMetadata)
  if accepted = true then
    atomic (rename oldFileMetadata.idUlid newFileMetadata.idUlid)
    let _ ← atomic (delete oldFileMetadata.idUlid)
    return .compactCommit newFileMetadata
  else
    let _ ← atomic (delete oldFileMetadata.idUlid)
    return .compactCommit oldFileMetadata

def handleClientAppendOrEditEvalRequest (oldFileMetadata newFileMetadata : FileMetadata D)
    (evaluationPoint : F) (columnsToExpand : List ℕ)
    (requestedUnencodedRowRangeInclusiveForEdits : Option (ℕ × ℕ)) :
    Handling D env.fft.Err (ServerMessages D F env.fft.Err) := do
  .done (checkFileMetadata oldFileMetadata)
  .done (checkFileMetadata newFileMetadata)
  let oldFileData ← atomic (read oldFileMetadata.idUlid)
  let newFileData ← atomic (read newFileMetadata.idUlid)
  let fieldedOldFileData : List F := convertByteVecToFieldElementsVec oldFileData
  let fieldedNewFileData : List F := convertByteVecToFieldElementsVec newFileData
  let oldCommit ← .done (commitOf env D fieldedOldFileData oldFileMetadata.numColumns
    oldFileMetadata.numEncodedColumns)
  let newCommit ← .done (commitOf env D fieldedNewFileData newFileMetadata.numColumns
    newFileMetadata.numEncodedColumns)
  let old ← .done (evaluateCommit env oldCommit evaluationPoint columnsToExpand)
  let new ← .done (evaluateCommit env newCommit evaluationPoint columnsToExpand)
  match requestedUnencodedRowRangeInclusiveForEdits with
  | none =>
    let editedUnencodedRow ← .done (appendedRow env oldFileMetadata newFileMetadata
      fieldedNewFileData)
    return .appendEvaluation old.1 old.2 new.1 new.2 editedUnencodedRow
  | some (start, finish) =>
    let originalUnencodedRows ← .done (originalRows env oldFileMetadata oldFileData start finish)
    return .editEvaluation old.1 old.2 new.1 new.2 originalUnencodedRows

def handleClientAppendOrEditResponse (oldFileMetadata newFileMetadata : FileMetadata D)
    (accepted : Bool) : Handling D env.fft.Err (ServerMessages D F env.fft.Err) := do
  .done (checkFileMetadata oldFileMetadata)
  .done (checkFileMetadata newFileMetadata)
  if accepted = true then
    atomic (rename oldFileMetadata.idUlid newFileMetadata.idUlid)
    let _ ← atomic (delete oldFileMetadata.idUlid)
    atomic (removeFile oldFileMetadata.idUlid)
    return .compactCommit newFileMetadata
  else
    let _ ← atomic (delete oldFileMetadata.idUlid)
    atomic (removeFile newFileMetadata.idUlid)
    return .compactCommit oldFileMetadata

/-- A handler with one access to what is shared is one step. -/
def handleFiles : ClientMessages D F → Handling D env.fft.Err (ServerMessages D F env.fft.Err)
  | .uploadNewFile filename file columns encodedColumns =>
    handleClientUploadNewFile env fresh filename file columns encodedColumns
  | .requestFile fileMetadata => atomic (handleClientRequestFile env fileMetadata)
  | .editFileBytes fileMetadata startByte file =>
    handleClientEditFileBytes env fresh fileMetadata startByte file
  | .appendToFile fileMetadata appendData =>
    handleClientAppendToFile env fresh fileMetadata appendData
  | .requestProof fileMetadata columnsToVerify =>
    atomic (handleClientRequestProof env fileMetadata columnsToVerify)
  | .requestPolynomialEvaluation fileMetadata evaluationPoint =>
    atomic (handleClientRequestPolynomialEvaluation env fileMetadata evaluationPoint)
  | .requestFileReshape fileMetadata newPreEncodedColumns newEncodedColumns =>
    handleClientRequestFileReshape env fresh fileMetadata newPreEncodedColumns newEncodedColumns
  | .requestReshapeEvaluation old new evaluationPoint original expanded =>
    atomic (handleClientRequestReshapeEvaluation env old new evaluationPoint original expanded)
  | .reshapeResponse new old accepted => handleClientReshapeResponse env old new accepted
  | .requestAppendEvaluation old new evaluationPoint columnsToExpand =>
    handleClientAppendOrEditEvalRequest env old new evaluationPoint columnsToExpand none
  | .requestEditEvaluation old new evaluationPoint columnsToExpand range =>
    handleClientAppendOrEditEvalRequest env old new evaluationPoint columnsToExpand (some range)
  | .editOrAppendResponse new old accepted => handleClientAppendOrEditResponse env old new accepted
  | .deleteFile fileMetadata => handleClientDeleteFile env fileMetadata
  | .clientKeepAlive => return .serverKeepAlive

end Handlers

section Connections

def onServer (p : Handling D Err α) : Process (Store ι D) (ServerError Err) α :=
  onPart Store.toServer (fun s t => { s with toServer := t }) p

def hexDigit (n : ℕ) : Char := "0123456789abcdef".toList.getD n '0'

def hexString (D : Digest) (hash : D.Output) : String :=
  String.ofList (hash.toList.flatMap fun byte =>
    [hexDigit (byte.toNat / 16), hexDigit (byte.toNat % 16)])

def hashPassword (D : Digest) (password : String) : String :=
  hexString D (D.hash password.toUTF8.toList)

/-- A record that exists already cannot be created. -/
def createUser (username : String) (newUser : User) :
    Stateful (ServerError Err) (Store ι D) Unit := do
  lift (ensure (((← get).user username).isNone = true) .database)
  modify fun s => { s with user := Function.update s.user username (some newUser) }

theorem run_createUser (username : String) (newUser : User) (s : Store ι D) :
    (createUser username newUser : Stateful (ServerError Err) _ _).run s =
    match s.user username with
    | some _ => .error (.error .database) s
    | none => .ok () { s with user := Function.update s.user username (some newUser) } := by
  change (lift (ensure ((s.user username).isNone = true) .database) >>= fun _ =>
    (modify fun s => { s with user := Function.update s.user username (some newUser) } :
      Stateful (ServerError Err) (Store ι D) Unit)).run s = _
  cases s.user username <;> rfl

/-- The name is looked for in one table and taken in another. -/
def handleClientNewUser (username password : String) :
    Process (Store ι D) (ServerError Err) (ConnectionReplies D F Err) := do
  let newUser : User := ⟨username, hashPassword D password⟩
  let found ← atomic (do return (← get).users username)
  .done (ensure (found.isNone = true) (.message "Username already taken"))
  atomic (createUser username newUser)
  return .userLoginResponse true

def handleClientUserLogin (username password : String) :
    Process (Store ι D) (ServerError Err) (ConnectionReplies D F Err) := do
  let found ← atomic (do return (← get).users username)
  match found with
  | none => .done (fail (.message "user not found"))
  | some user =>
    .done (ensure (user.hashedPassword = hashPassword D password) (.message "Incorrect password"))
    return .userLoginResponse true

variable [DecidableEq ι]

/-- The row is read by futures that nothing waits for, so it stays empty. -/
def handleClientRequestFileRow (fileMetadata : FileMetadata D) (_row : ℕ) :
    Process (Store ι D) (ServerError Err) (ConnectionReplies D F Err) := do
  .done (checkFileMetadata fileMetadata)
  let _ ← onServer (atomic (read fileMetadata.idUlid))
  return .fileRow []

/-- Unimplemented. -/
def handleClientRequestEncodedColumn (fileMetadata : FileMetadata D) (_row : ℕ) :
    Process (Store ι D) (ServerError Err) (ConnectionReplies D F Err) := do
  .done (checkFileMetadata fileMetadata)
  .done panicked

/-- What comes after the look-up is still to be written. -/
def handleClientUploadFileChunk (i : ι) (fileUlid : Ulid) (_chunk : List UInt8)
    (_lastChunk : Bool) : Process (Store ι D) (ServerError Err) (ConnectionReplies D F Err) := do
  let isOpen ← atomic (do return (← get).openFiles i fileUlid)
  .done (ensure (isOpen = true)
    (.message "File does not exist, start an chunked upload first before uploading chunks"))
  .done panicked

variable [Field F] [DataField F] (env : Environment F)

def handleClientStartUploadFileByChunks (i : ι) (fresh : Ulid) (_filename : String)
    (preEncodedColumns encodedColumns _totalSize : ℕ) :
    Process (Store ι D) (ServerError env.fft.Err) (ConnectionReplies D F env.fft.Err) := do
  onServer (atomic drawUlid)
  onServer (atomic (openForWriting fresh))
  let _ ← .done (newFromDims env.fft preEncodedColumns encodedColumns)
  atomic (modify fun s => { s with
    openFiles := Function.update s.openFiles i (Function.update (s.openFiles i) fresh true) })
  return .uploadingFileChunkIdentifier fresh

/-- One round of `handle_client_loop` for the connection `i`. -/
def handle (i : ι) (request : Request D F) :
    Process (Store ι D) (ServerError env.fft.Err) (ConnectionReplies D F env.fft.Err) :=
  match request.message with
  | .files message => do return .files (← onServer (handleFiles env request.fresh message))
  | .newUser username password => handleClientNewUser username password
  | .userLogin username password => handleClientUserLogin username password
  | .startUploadNewFileByChunks filename columns encodedColumns totalFileSize =>
    handleClientStartUploadFileByChunks env i request.fresh filename columns encodedColumns
      totalFileSize
  | .uploadFileChunk fileUlid chunk lastChunk =>
    handleClientUploadFileChunk i fileUlid chunk lastChunk
  | .requestFileRow fileMetadata row => handleClientRequestFileRow fileMetadata row
  | .requestEncodedColumn fileMetadata row => handleClientRequestEncodedColumn fileMetadata row

abbrev Connections (ι : Type) (D : Digest) (env : Environment F) :=
  System ι (Request D F) (ConnectionReplies D F env.fft.Err) (Store ι D)
    (ServerError env.fft.Err)

/-- A panic has ended the connection for good. An identifier is new when it is drawn: nothing is
stored under it and nobody has named it. Nobody names it either before its handler has ended. -/
structure Admits (env : Environment F) (s : Connections ι D env) (i : ι) (request : Request D F) :
    Prop where
  alive : ∀ q, (i, q, .error .panic) ∉ s.finished
  disk : s.shared.disk request.fresh = none
  database : s.shared.database request.fresh = none
  undrawn : ∀ x ∈ s.received, x.2.fresh ≠ request.fresh
  unnamed : ∀ x ∈ s.received, request.fresh ∉ x.2.message.named
  notOwn : request.fresh ∉ request.message.named
  unguessed : ∀ j q p, s.inProgress j = some (q, p) → q.fresh ∉ request.message.named

abbrev Serves (env : Environment F) : Connections ι D env → Connections ι D env → Prop :=
  Reaches (handle env) (Admits env)

end Connections

end NetworkConnections
