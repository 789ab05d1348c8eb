import ProofOfStorage.FileWriter
import ProofOfStorage.FoundationInteraction
import ProofOfStorage.OnlineEvaluation

/-! # Messages between a client and a server

The messages that manage stored files. Logins, uploads in chunks, single rows and encoded columns
are left out.
-/
namespace NetworkMessages

open CommitmentTypes OnlineColumns FileFields FileWriter

structure ServerHost where
  serverName : Option String
  serverIp : String
  serverPort : UInt16

structure FileMetadata (D : Digest) where
  idUlid : Ulid
  filename : String
  numRows : ℕ
  numColumns : ℕ
  numEncodedColumns : ℕ
  filesizeInBytes : ℕ
  storedServer : ServerHost
  root : LcRoot D

inductive ClientMessages (D : Digest) (F : Type) where
  | uploadNewFile (filename : String) (file : List UInt8) (columns encodedColumns : ℕ)
  | requestFile (fileMetadata : FileMetadata D)
  | editFileBytes (fileMetadata : FileMetadata D) (startByte : ℕ) (replacementBytes : List UInt8)
  | appendToFile (fileMetadata : FileMetadata D) (appendData : List UInt8)
  | requestProof (fileMetadata : FileMetadata D) (columnsToVerify : List ℕ)
  | requestPolynomialEvaluation (fileMetadata : FileMetadata D) (evaluationPoint : F)
  | requestFileReshape (fileMetadata : FileMetadata D)
      (newPreEncodedColumns newEncodedColumns : ℕ)
  | requestReshapeEvaluation (oldFileMetadata newFileMetadata : FileMetadata D)
      (evaluationPoint : F) (columnsToExpandOriginal columnsToExpandNew : List ℕ)
  | reshapeResponse (newFileMetadata oldFileMetadata : FileMetadata D) (accepted : Bool)
  | requestAppendEvaluation (oldFileMetadata newFileMetadata : FileMetadata D)
      (evaluationPoint : F) (columnsToExpand : List ℕ)
  | requestEditEvaluation (oldFileMetadata newFileMetadata : FileMetadata D)
      (evaluationPoint : F) (columnsToExpand : List ℕ)
      (requestedUnencodedRowRangeInclusive : ℕ × ℕ)
  | editOrAppendResponse (newFileMetadata oldFileMetadata : FileMetadata D) (accepted : Bool)
  | deleteFile (fileMetadata : FileMetadata D)
  | clientKeepAlive

inductive ServerError (Err : Type) where
  | message (text : String)
  | conversion (e : ConversionError Err)
  | io
  | database

/-- An error response carries the text of an error. -/
inductive ServerMessages (D : Digest) (F Err : Type) where
  | compactCommit (fileMetadata : FileMetadata D)
  | columns (columns : List (LcColumn D F))
  | file (file : List UInt8)
  | polynomialEvaluation (evaluationResult : List F)
  | reshapeEvaluation (expectedResult : F) (originalResultVector : List F)
      (originalColumns : List (LcColumn D F)) (newResultVector : List F)
      (newColumns : List (LcColumn D F))
  | appendEvaluation (originalResultVector : List F) (originalColumns : List (LcColumn D F))
      (newResultVector : List F) (newColumns : List (LcColumn D F)) (editedUnencodedRow : List F)
  | editEvaluation (originalResultVector : List F) (originalColumns : List (LcColumn D F))
      (newResultVector : List F) (newColumns : List (LcColumn D F))
      (originalUnencodedRows : List UInt8)
  | serverKeepAlive
  | fileDeleted (filename : String)
  | errorResponse (error : ServerError Err)

/-- What both ends take from other crates: the transform of the field, its capacity in bits,
results of floating-point computations, the draws from the fixed seed and new identifiers. -/
structure Environment (F : Type) [Field F] [DataField F] where
  fft : FieldFFT F
  capacity : ℕ
  capacity_div : capacity / 8 = DataField.dataByteCapacity F
  sqrtCeil : ℕ → ℕ
  posSoundnessNCols : ℕ → ℕ → ℕ
  evaluationPoint : F
  columnIndicies : ℕ → ℕ → List ℕ
  ulidNew : ℕ → Ulid

variable {D : Digest} {F : Type} [Field F] [DataField F]

def getPosSoudnessNCols (env : Environment F) (fileMetadata : FileMetadata D) : ℕ :=
  env.posSoundnessNCols fileMetadata.numColumns fileMetadata.numEncodedColumns

def columnsFromFixedSeed (env : Environment F) (fileMetadata : FileMetadata D) : List ℕ :=
  env.columnIndicies (getPosSoudnessNCols env fileMetadata) fileMetadata.numEncodedColumns

/-- The field modulo 257 with one byte in an element, and the identifiers 1, 2 and so on. -/
def fermatEnvironment : Environment (ZMod 257) where
  fft := fermatFft
  capacity := 8
  capacity_div := rfl
  sqrtCeil := Nat.sqrt
  posSoundnessNCols _ numEncodedColumns := numEncodedColumns
  evaluationPoint := Nat.cast 3
  columnIndicies count max := (List.range max).take count
  ulidNew ulidsMade := BitVec.ofNat 128 (ulidsMade + 1)

end NetworkMessages
