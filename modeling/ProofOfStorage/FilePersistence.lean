import ProofOfStorage.FileHandlingRuns
import ProofOfStorage.FileRecords
import ProofOfStorage.FileWriterRuns

/-! # Stored files: created, opened again and reshaped

The four paths of a handler name four files. Creating and reshaping convert the file anew and
replace the metadata and the tree; opening reads both back.
-/
namespace FilePersistence

open FoundationFaults FoundationRuns FoundationSlices FoundationPositionalFiles
open CommitmentTypes CommitmentMerkle OnlineColumns FileFields FileDigests FileRows
open FileWriter FileWriterRuns FileReader FileHandling FileHandlingRuns FileRecords

/-- What the paths name; `none` when there is no such file. -/
structure Files where
  unencoded : Option (List UInt8)
  encoded : Option (List UInt8)
  merkleTree : Option (List UInt8)
  metadata : Option (List UInt8)

variable {D : Digest} {F Err : Type} [Field F] [DataField F]

def files (h : FileHandler D F Err) : Files :=
  ⟨h.unencodedFile, some h.encodedFileReadWriter.fileToRead, h.merkleTreeFile, h.metadataFile⟩

def withFiles (h : FileHandler D F Err) (files : Files) : FileHandler D F Err :=
  { h with
    unencodedFile := files.unencoded
    encodedFileReadWriter :=
      { h.encodedFileReadWriter with fileToRead := files.encoded.getD [] }
    merkleTreeFile := files.merkleTree
    metadataFile := files.metadata }

def openWithContext (context : String) : Option (List UInt8) → Fallible (FileError Err) (List UInt8)
  | some file => .ok file
  | none => fail (.message context)

def readFromFile (reader : MetadataReader) (file : List UInt8) :
    Fallible (FileError Err) EncodedFileMetadata :=
  match reader.fromStr file with
  | some metadata => .ok metadata
  | none => fail .io

def encodeFile (bufferSize : ℕ) (file : List UInt8) :
    Writing D F Err (EncodedFileMetadata × MerkleTree D) := do
  let _ ← forEach (chunks bufferSize file) pushBytes
  finalizeToMerkleTree

/-- A writer at work on the encoded file. What it has written stays when it fails. -/
def writing {α : Type} (w : EncodedFileWriter D F Err) (x : Writing D F Err α) :
    Stateful (FileError Err) Files α :=
  zoom (fun _ => w) (fun files w => { files with encoded := some w.fileToWriteTo }) x

variable (fft : FieldFFT F)

def convertUnencodedFile (D : Digest) (unencodedFile : List UInt8)
    (targetDigestFile targetMetadataFile : Bool) (numPreEncodedColumns numEncodedColumns : ℕ) :
    Stateful (FileError fft.Err) Files (EncodedFileMetadata × MerkleTree D) := do
  lift (ensure (numPreEncodedColumns ≥ 1) (.message (
    s!"Number of pre-encoded columns must be greater than 0, instead got {numPreEncodedColumns}")))
  lift (ensure (numEncodedColumns ≥ 2) (.message (
    s!"Number of pencoded columns must be greater than 0, instead got {numEncodedColumns}")))
  lift (ensure (isPowerOfTwo numEncodedColumns = true) (.message (
    "Number of encoded columns must be a power of 2, instead got ratio of " ++
      s!"{numPreEncodedColumns}/{numEncodedColumns}")))
  lift (ensure (numEncodedColumns > numPreEncodedColumns) (.message
    "Number of encoded columns must be greater than the number of columns"))
  modify fun files => { files with encoded := some [] }
  let encodedWriter ← lift (new fft D numPreEncodedColumns numEncodedColumns
    unencodedFile.length [])
  let (metadata, tree) ← writing encodedWriter (encodeFile (2 ^ 15) unencodedFile)
  lift (assert (unencodedFile.length = metadata.bytesOfData))
  lift (assert (divCeil unencodedFile.length
    (DataField.dataByteCapacity F * numPreEncodedColumns) = metadata.rowsWritten))
  if targetMetadataFile = true then
    modify fun files => { files with metadata := some (toJson metadata) }
  if targetDigestFile = true then
    modify fun files => { files with merkleTree := some tree.toBytes }
  return (metadata, tree)

def newAttachToExistingFiles (reader : MetadataReader) (D : Digest) (ulid : Ulid) (files : Files) :
    Fallible (FileError fft.Err) (FileHandler D F fft.Err) := do
  let metadataFile ← openWithContext "could not open metadata file" files.metadata
  let metadata ← readFromFile reader metadataFile
  ensure (metadata.ulid = ulid) (.message "supplied metadata file ulid does not match!")
  let unencodedFile ← openWithContext "couldn't open unencoded file!" files.unencoded
  let encodedFile ← openFile files.encoded
  let encodedFileReader ← newLigero fft encodedFile metadata.preEncodedSize metadata.encodedSize
    metadata.rowsWritten metadata.rowCapacity
  let merkleBytes ← openFile files.merkleTree
  let merkleTree ← MerkleTree.fromBytes D merkleBytes
  let encoding ← newFromDims fft metadata.preEncodedSize metadata.encodedSize
  return {
    fileUlid := ulid
    preEncodedSize := metadata.preEncodedSize
    encodedSize := metadata.encodedSize
    rowsWritten := metadata.rowsWritten
    rowCapacity := metadata.rowCapacity
    totalDataBytes := metadata.bytesOfData
    encoding := encoding
    unencodedFile := some unencodedFile
    encodedFileReadWriter := encodedFileReader
    merkleTree := merkleTree
    merkleTreeFile := some merkleBytes
    metadataFile := some metadataFile }

/-- A file at another path, when one is given, is moved to the path of the identifier. -/
def moveInPlace : Option (Option (List UInt8)) → Stateful (FileError Err) Files Unit
  | none => pure ()
  | some fileHandle => do
    let file ← lift (openFile fileHandle)
    modify fun files => { files with unencoded := some file }

def createFromUnencodedFile (reader : MetadataReader) (D : Digest) (ulid : Ulid)
    (fileHandleIfNotAlreadyUlid : Option (Option (List UInt8)))
    (preEncodedSize encodedSize : ℕ) :
    Stateful (FileError fft.Err) Files (FileHandler D F fft.Err) := do
  lift (ensure (isPowerOfTwo encodedSize = true)
    (.message "encoded file size must be a power of two!"))
  moveInPlace fileHandleIfNotAlreadyUlid
  let unencodedFile ← lift (openFile (← get).unencoded)
  let _ ← convertUnencodedFile fft D unencodedFile true true preEncodedSize encodedSize
  let metadataFile ← lift (openFile (← get).metadata)
  let encodedMetadata ← lift (readFromFile reader metadataFile)
  modify fun files => { files with
    metadata := some (writeAt metadataFile 0 (toJson { encodedMetadata with ulid := ulid })) }
  lift (newAttachToExistingFiles fft reader D ulid (← get))

/-- The count of the bytes stays as it is. -/
def reshape (newPreEncodedColumns newEncodedColumns : ℕ) :
    Handling D F fft.Err (EncodedFileMetadata × MerkleTree D) := do
  let unencodedFile := (← get).unencodedFile.getD []
  modify fun h => { h with unencodedFile := some unencodedFile }
  let (newMetadata, newTree) ← zoom files withFiles
    (convertUnencodedFile fft D unencodedFile true true newPreEncodedColumns newEncodedColumns)
  modify fun h => { h with
    preEncodedSize := newPreEncodedColumns
    encodedSize := newEncodedColumns
    rowsWritten := newMetadata.rowsWritten
    rowCapacity := newMetadata.rowCapacity }
  let encoding ← lift (newFromDims fft newPreEncodedColumns newEncodedColumns)
  modify fun h => { h with encoding := encoding }
  let encodedFileReader ← lift (newLigero fft (← get).encodedFileReadWriter.fileToRead
    newPreEncodedColumns newEncodedColumns newMetadata.rowsWritten newMetadata.rowCapacity)
  modify fun h => { h with
    encodedFileReadWriter := encodedFileReader
    merkleTree := newTree }
  return (newMetadata, newTree)

def reencodeUnencodedFile : Handling D F fft.Err Unit := do
  let h ← get
  let rawFile ← lift (openFile h.unencodedFile)
  modify fun h => { h with
    totalDataBytes := rawFile.length
    encodedFileReadWriter := { h.encodedFileReadWriter with fileToRead := [] } }
  let newEncodedFileWriter ← lift (new fft D h.preEncodedSize h.encodedSize rawFile.length [])
  let (metadata, tree) ← zoom files withFiles (writing newEncodedFileWriter
    (encodeFile (DataField.dataByteCapacity F * h.preEncodedSize) rawFile))
  writeTree tree
  modify fun h => { h with
    preEncodedSize := metadata.preEncodedSize
    encodedSize := metadata.encodedSize
    totalDataBytes := metadata.bytesOfData
    rowCapacity := metadata.rowCapacity
    rowsWritten := metadata.rowsWritten }
  writeMetadata toJson
  let h ← get
  let newEncodedFileReader ← lift (newLigero fft h.encodedFileReadWriter.fileToRead
    h.preEncodedSize h.encodedSize h.rowsWritten h.rowCapacity)
  modify fun h => { h with
    encodedFileReadWriter := newEncodedFileReader
    merkleTree := tree }

variable {fft} {ulid : Ulid} {pre enc : ℕ} {b : List UInt8}

def IsTree (Err : Type) (n : ℕ) (tree : MerkleTree D) : Prop :=
  ∃ leaves, leaves.length = n ∧ (MerkleTree.new leaves : Fallible (FileError Err) _) = .ok tree

omit [Field F] [DataField F] in
theorem IsTree.writeAt_toBytes {n : ℕ} {tree tree' : MerkleTree D} (ht : IsTree Err n tree)
    (ht' : IsTree Err n tree') : writeAt tree.toBytes 0 tree'.toBytes = tree'.toBytes := by
  obtain ⟨leaves, hleaves, hnew⟩ := ht
  obtain ⟨leaves', hleaves', hnew'⟩ := ht'
  apply writeAt_zero_of_le
  rw [MerkleTree.length_toBytes, MerkleTree.length_toBytes, (MerkleTree.len_new hnew).1,
    (MerkleTree.len_new hnew').1, hleaves, hleaves']

/-- The rows that a finished writer counts for `n` bytes in rows of `rowBytes`. -/
def countedRows (rowBytes n : ℕ) : ℕ :=
  if rowBytes ∣ n then flushedRows (divCeil n rowBytes) (divCeil n rowBytes)
  else divCeil n rowBytes

/-- Rows are lost when the last one is full and the buffers of 1024 rows do not come out even. -/
theorem countedRows_eq (rowBytes n : ℕ) : countedRows rowBytes n =
    if rowBytes ∣ n ∧ 1024 < divCeil n rowBytes then divCeil n rowBytes / 1024 * 1024
    else divCeil n rowBytes := by
  unfold countedRows flushedRows
  by_cases hdvd : rowBytes ∣ n
  · rcases Nat.lt_or_ge 1024 (divCeil n rowBytes) with hmany | hfew
    · rw [if_pos hdvd, if_pos ⟨hdvd, hmany⟩, Nat.min_eq_left (by omega),
        show 2 ^ 10 = 1024 from rfl]
    · rw [if_pos hdvd, if_neg fun h => absurd h.2 (by omega), Nat.min_eq_right (by omega)]
      rcases Nat.eq_zero_or_pos (divCeil n rowBytes) with hzero | hpos
      · rw [hzero]
      · rw [Nat.div_self hpos, Nat.one_mul]
  · rw [if_neg hdvd, if_neg fun h => hdvd h.1]

theorem countedRows_le (rowBytes n : ℕ) : countedRows rowBytes n ≤ divCeil n rowBytes := by
  rw [countedRows_eq]
  split
  · exact Nat.div_mul_le_self _ _
  · exact le_rfl

theorem encoding_of_new {originalFileSize : ℕ} {w : EncodedFileWriter D F fft.Err}
    {targetFile : List UInt8} (h : new fft D pre enc originalFileSize targetFile = .ok w) :
    ∃ encoding, (newFromDims fft pre enc : Fallible (FileError fft.Err) _) = .ok encoding := by
  obtain ⟨_, -, h⟩ := bind_eq_ok.mp h
  obtain ⟨_, -, h⟩ := bind_eq_ok.mp h
  obtain ⟨_, -, h⟩ := bind_eq_ok.mp h
  obtain ⟨encoding, hencoding, -⟩ := bind_eq_ok.mp h
  exact ⟨encoding, hencoding⟩

theorem runs_encodeFile_tree {n : ℕ} (hn : 0 < n) {targetFile : List UInt8}
    {w : EncodedFileWriter D F fft.Err} (h : new fft D pre enc b.length targetFile = .ok w) :
    Runs (encodeFile n b) w fun result _ =>
      result.1 = ⟨0, pre, enc, countedRows (rowBytes F pre) b.length,
        divCeil b.length (rowBytes F pre) * 2, b.length⟩ ∧
      (MerkleTree.new (columnLeaves D enc (encodedRows w.encoding pre enc b)) :
        Fallible (FileError fft.Err) _) = .ok result.2 := by
  obtain ⟨hs, hsettled⟩ := settled_new h
  have hfeed : Runs (forEach (chunks n b) pushBytes) w fun _ w' =>
      Settled w.encoding pre enc b ((chunks n b).flatMap id) w' := by
    apply hsettled.forEach (by rw [List.flatMap_id, flatten_chunks hn])
    intro bytes _ s w' hpart hsettled'
    exact hsettled'.pushBytes hs hpart
  rw [List.flatMap_id, flatten_chunks hn] at hfeed
  unfold encodeFile
  rw [runs_bind]
  refine hfeed.mono ?_
  intro _ w₁ hsettled₁
  exact hsettled₁.finalizeToMerkleTree (n := 0) hs (List.append_nil b).symm

theorem runs_encodeFile {n : ℕ} (hn : 0 < n) {targetFile : List UInt8}
    {w : EncodedFileWriter D F fft.Err} (h : new fft D pre enc b.length targetFile = .ok w) :
    Runs (encodeFile n b) w fun result _ =>
      result.1 = ⟨0, pre, enc, countedRows (rowBytes F pre) b.length,
        divCeil b.length (rowBytes F pre) * 2, b.length⟩ ∧ IsTree fft.Err enc result.2 := by
  refine (runs_encodeFile_tree hn h).mono ?_
  rintro result _ ⟨hmetadata, htree⟩
  exact ⟨hmetadata, _, length_columnLeaves _ _, htree⟩

theorem ensures_convertUnencodedFile {digest metadata : Bool} {files : Files} :
    Ensures (convertUnencodedFile fft D b digest metadata pre enc) files fun result files' =>
      (∃ encoding, (newFromDims fft pre enc : Fallible (FileError fft.Err) _) = .ok encoding) ∧
      result.1 = ⟨0, pre, enc, divCeil b.length (rowBytes F pre),
        divCeil b.length (rowBytes F pre) * 2, b.length⟩ ∧
      IsTree fft.Err enc result.2 ∧ ∃ encoded, files' = { files with
        encoded := encoded
        metadata := if metadata = true then some (toJson result.1) else files.metadata
        merkleTree := if digest = true then some result.2.toBytes else files.merkleTree } := by
  unfold convertUnencodedFile writing
  simp only [ensures_bind, ensures_lift, ensures_modify, ensures_zoom]
  intro _ _ _ _ _ _ _ _ w hnew
  refine (runs_encodeFile (F := F) (n := 2 ^ 15) (by decide) hnew).ensures.mono ?_
  rintro ⟨written, tree⟩ w' ⟨hmetadata, htree⟩ _ - _ hrows
  have hcounted := assert_eq_ok.mp hrows
  change written = _ at hmetadata
  rw [hmetadata, Nat.mul_comm] at hcounted
  change divCeil _ (rowBytes F pre) = countedRows _ _ at hcounted
  rw [← hcounted] at hmetadata
  have hencoding := encoding_of_new hnew
  cases digest <;> cases metadata <;>
    simp only [ensures_bind, ensures_modify, if_true, Bool.false_eq_true, if_false,
      ensures_pure] <;>
    exact ⟨hencoding, hmetadata, htree, _, rfl⟩

theorem runs_convertUnencodedFile {encoding : LcEncoding F fft.Err} (hpos : 0 < pre)
    (hencoding : (newFromDims fft pre enc : Fallible (FileError fft.Err) _) = .ok encoding)
    (hcounted : countedRows (rowBytes F pre) b.length = divCeil b.length (rowBytes F pre))
    (digest metadata : Bool) (files : Files) :
    Runs (convertUnencodedFile fft D b digest metadata pre enc) files fun result _ =>
      result.1 = ⟨0, pre, enc, divCeil b.length (rowBytes F pre),
        divCeil b.length (rowBytes F pre) * 2, b.length⟩ ∧
      (MerkleTree.new (columnLeaves D enc (encodedRows encoding pre enc b)) :
        Fallible (FileError fft.Err) _) = .ok result.2 := by
  obtain ⟨hlt, hpow, -⟩ := newFromDims_eq_ok hencoding
  obtain ⟨w, hnew, hw⟩ := exists_new (D := D) hpos hencoding b.length []
  have hencode := runs_encodeFile_tree (F := F) (n := 2 ^ 15) (by decide) hnew
  rw [hw] at hencode
  have hwidth : DataField.dataByteCapacity F * pre = rowBytes F pre := Nat.mul_comm _ _
  unfold convertUnencodedFile writing
  simp only [runs_bind, runs_lift, runs_modify, runs_zoom, ensure_eq_ok, exists_const]
  refine ⟨hpos, by omega, hpow, hlt, w, hnew, hencode.mono ?_⟩
  rintro ⟨written, tree⟩ w' ⟨hmetadata, htree⟩
  change written = _ at hmetadata
  rw [hcounted] at hmetadata
  subst hmetadata
  rw [hwidth]
  cases digest <;> cases metadata <;>
    simp only [runs_bind, assert_eq_ok, exists_const, runs_pure, runs_modify, if_true,
      Bool.false_eq_true, if_false, true_and, htree]

omit [Field F] [DataField F] in
theorem openFile_eq_ok {file : Option (List UInt8)} {content : List UInt8} :
    (openFile file : Fallible (FileError Err) _) = .ok content ↔ file = some content := by
  cases file <;> simp [openFile, fail]

theorem openWithContext_eq_ok {context : String} {file : Option (List UInt8)}
    {content : List UInt8} :
    (openWithContext context file : Fallible (FileError Err) _) = .ok content ↔
      file = some content := by
  cases file <;> simp [openWithContext, fail]

variable {reader : MetadataReader}

theorem readFromFile_eq_ok {file : List UInt8} {metadata : EncodedFileMetadata} :
    (readFromFile reader file : Fallible (FileError Err) _) = .ok metadata ↔
      reader.fromStr file = some metadata := by
  unfold readFromFile
  cases reader.fromStr file <;> simp [fail]

omit [Field F] [DataField F] in
theorem newLigero_of_encoding {encoding : LcEncoding F fft.Err}
    (h : (newFromDims fft pre enc : Fallible (FileError fft.Err) _) = .ok encoding)
    (file : List UInt8) (rows capacity : ℕ) :
    newLigero fft file pre enc rows capacity = .ok ⟨encoding, file, pre, enc, rows, capacity⟩ := by
  rw [newLigero, h]
  rfl

omit [Field F] [DataField F] in
theorem newAttachToExistingFiles_eq_ok {files : Files} {h : FileHandler D F fft.Err} :
    newAttachToExistingFiles fft reader D ulid files = .ok h ↔
      ∃ metadataFile, files.metadata = some metadataFile ∧
      ∃ metadata, reader.fromStr metadataFile = some metadata ∧ metadata.ulid = ulid ∧
      ∃ unencodedFile, files.unencoded = some unencodedFile ∧
      ∃ encodedFile, files.encoded = some encodedFile ∧
      ∃ encodedFileReader, newLigero fft encodedFile metadata.preEncodedSize metadata.encodedSize
        metadata.rowsWritten metadata.rowCapacity = .ok encodedFileReader ∧
      ∃ merkleBytes, files.merkleTree = some merkleBytes ∧
      ∃ merkleTree, (MerkleTree.fromBytes D merkleBytes : Fallible (FileError fft.Err) _) =
        .ok merkleTree ∧
      ∃ encoding, (newFromDims fft metadata.preEncodedSize metadata.encodedSize :
        Fallible (FileError fft.Err) _) = .ok encoding ∧
      (⟨ulid, metadata.preEncodedSize, metadata.encodedSize, metadata.rowsWritten,
        metadata.rowCapacity, metadata.bytesOfData, encoding, some unencodedFile,
        encodedFileReader, merkleTree, some merkleBytes, some metadataFile⟩ :
        FileHandler D F fft.Err) = h := by
  simp only [newAttachToExistingFiles, bind_eq_ok, openWithContext_eq_ok, readFromFile_eq_ok,
    openFile_eq_ok, ensure_eq_ok, exists_const, pure_eq_ok, Except.ok.injEq]

end FilePersistence
