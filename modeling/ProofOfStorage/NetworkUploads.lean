import ProofOfStorage.FoundationNumerals
import ProofOfStorage.NetworkClient

/-! # Uploading a file

The client chooses the shape of the matrix, sends the file and asks for columns of it. The columns
are compared with those it works out itself and opened against the root in the server's reply.
-/
namespace NetworkUploads

open FoundationFaults FoundationSlices FoundationNumerals FoundationInteraction
open CommitmentTypes CommitmentMerkle OnlineColumns FileFields NetworkMessages NetworkClient

inductive UploadError (Err : Type) where
  | message (text : String)
  | server (text : String) (error : ServerError Err)
  | io
  | conversion (error : ConversionError Err)
  | verification (text : String) (error : VerifierError Err)
  | database

abbrev Upload (D : Digest) (F Err : Type) :=
  Interaction (ClientMessages D F) (ServerMessages D F Err) (Records D) (UploadError Err)

variable {D : Digest} {F Err α : Type}

section Steps

def uploadChecked (x : Fallible (UploadError Err) α) : Upload D F Err α := .done x

def uploadReplied (failed : String) (select : ServerMessages D F Err → Option α) :
    Option (ServerMessages D F Err) → Upload D F Err α
  | none => uploadChecked (fail (.message "Failed to receive message from server"))
  | some transmission =>
    match select transmission with
    | some content => pure content
    | none =>
      match transmission with
      | .errorResponse error => uploadChecked (fail (.server failed error))
      | _ => uploadChecked (fail (.message "Unknown server response"))

def uploadRequest (message : ClientMessages D F) (failed : String)
    (select : ServerMessages D F Err → Option α) : Upload D F Err α :=
  .send message (.receive (uploadReplied failed select))

def columnsReply : ServerMessages D F Err → Option (List (LcColumn D F))
  | .columns columns => some columns
  | _ => none

def createRecord (fileMetadata : FileMetadata D) :
    Stateful (UploadError Err) (Records D) Unit := do
  lift (ensure (((← get) fileMetadata.idUlid).isNone = true) .database)
  modify fun records => Function.update records fileMetadata.idUlid (some fileMetadata)

end Steps

section Address

def digits : List Char := "0123456789".toList

/-- `str::parse::<u16>`: one plus sign may come first. -/
def parsePort (text : List Char) : Option UInt16 :=
  let text := if text.head? = some '+' then text.tail else text
  if text ≠ [] ∧ text.all digits.contains ∧ value digits text < 2 ^ 16 then
    some (UInt16.ofNat (value digits text))
  else none

def serverPortOf (serverIp : String) : UInt16 :=
  ((serverIp.toList.splitOn ':')[1]?.bind parsePort).getD 0

end Address

variable [Field F] [DataField F] (env : Environment F)

def getAspectRatioDefaultFromFileLen {ε : Type} (fileLen : ℕ) : Fallible ε (ℕ × ℕ × ℕ) := do
  let dataMinWidth := env.sqrtCeil (divCeil fileLen (writtenBytesWidth F))
  let numPreEncodedColumns :=
    if ← isPowerOfTwoBits dataMinWidth then dataMinWidth else nextPowerOfTwo dataMinWidth
  let numEncodedMatrixColumns := nextPowerOfTwo (numPreEncodedColumns + 1)
  return (numPreEncodedColumns, numEncodedMatrixColumns,
    env.posSoundnessNCols numPreEncodedColumns numEncodedMatrixColumns)

def uploadDimensions (fileLen : ℕ) :
    Option ℕ → Option ℕ → Fallible (UploadError env.fft.Err) (ℕ × ℕ × ℕ)
  | some numPreEncodedColumns, some numEncodedColumns => do
    ensure (numPreEncodedColumns ≥ 1 ∧ numEncodedColumns ≥ 2)
      (.message "Number of columns and encoded columns must be greater than 0")
    ensure (isPowerOfTwo numEncodedColumns = true)
      (.message "Number of encoded columns must be a power of 2")
    ensure (numEncodedColumns > numPreEncodedColumns)
      (.message "Number of encoded columns must be greater than the number of columns")
    return (numPreEncodedColumns, numEncodedColumns,
      env.posSoundnessNCols numPreEncodedColumns numEncodedColumns)
  | some cols, none => do
    ensure (cols ≥ 1) (.message "Number of columns must be greater than 0")
    let roundedCols := nextPowerOfTwo cols
    let encCols := nextPowerOfTwo (roundedCols + 1)
    return (cols, encCols, env.posSoundnessNCols cols encCols)
  | none, some encCols => do
    ensure (encCols ≥ 2) (.message "Number of encoded columns must be greater than 2")
    ensure (isPowerOfTwo encCols = true)
      (.message "Number of encoded columns must be a power of 2")
    let cols := encCols / 2
    return (cols, encCols, env.posSoundnessNCols cols encCols)
  | none, none => getAspectRatioDefaultFromFileLen env fileLen

def locallyDerivedLeaves (D : Digest) (fieldFileData : List F) (colsToVerify : List ℕ)
    (numPreEncodedColumns numEncodedColumns : ℕ) :
    Fallible (UploadError env.fft.Err) (List D.Output) := do
  match ← mapErr .conversion (convertFileDataToCommit env.fft D env.sqrtCeil fieldFileData
    (.leaves colsToVerify) (.specified numPreEncodedColumns numEncodedColumns)) with
  | .leaves leaves => return leaves
  | _ => fail (.message "Failed to convert file data to leaves")

def verifyUpload (colsToVerify : List ℕ) (leaves : List D.Output) (serverIp : String)
    (fileMetadata : FileMetadata D) : Upload D F env.fft.Err (FileMetadata D) := do
  let fileMetadata := { fileMetadata with
    storedServer := { fileMetadata.storedServer with serverPort := serverPortOf serverIp } }
  let receivedColumns ← uploadRequest (.requestProof fileMetadata colsToVerify)
    "Proof request failed: " columnsReply
  uploadChecked (mapErr (.verification "Failed to verify columns: ")
    (clientVerifyCommitment fileMetadata.root leaves colsToVerify receivedColumns
      (getPosSoudnessNCols env fileMetadata)))
  .perform (createRecord fileMetadata) (pure ())
  return fileMetadata

def uploadFile (files : String → Option (List UInt8)) (fileName : String)
    (numPreEncodedColumns numEncodedColumns : Option ℕ) (serverIp : String) :
    Upload D F env.fft.Err (FileMetadata D) := do
  let fileData ← uploadChecked (match files fileName with
    | some fileData => .ok fileData
    | none => fail .io)
  let dimensions ← uploadChecked
    (uploadDimensions env fileData.length numPreEncodedColumns numEncodedColumns)
  let (numPreEncodedColumns, numEncodedColumns, requiredColumnsToTest) := dimensions
  let colsToVerify := env.columnIndicies requiredColumnsToTest numEncodedColumns
  let leaves ← uploadChecked (locallyDerivedLeaves env D
    (convertByteVecToFieldElementsVec fileData) colsToVerify numPreEncodedColumns
      numEncodedColumns)
  let fileMetadata ← uploadRequest
    (.uploadNewFile fileName fileData numPreEncodedColumns numEncodedColumns)
    "File upload failed: " compactCommit
  verifyUpload env colsToVerify leaves serverIp fileMetadata

end NetworkUploads
