import ProofOfStorage.FilePersistence

/-! # What stays on disk while a file handler runs

A handler can be opened again as long as its metadata and its tree are on disk as it knows them.
Two of its five calls can break that.
-/
namespace FilePersistenceRuns

open FoundationFaults FoundationRuns FoundationSlices FoundationPositionalFiles
open CommitmentTypes CommitmentMerkle OnlineColumns FileFields FileDigests FileRows
open FileWriter FileWriterRuns FileReader FileHandling FileHandlingRuns FileRecords
open FilePersistence

variable {D : Digest} {F Err : Type} [Field F] [DataField F]

section Frames

variable {h : FileHandler D F Err}

omit [Field F] [DataField F] in
theorem ensures_onReader {α : Type} (x : Reading F Err α) :
    Ensures (onReader x) h fun _ h' => ∃ r, h' = { h with encodedFileReadWriter := r } := by
  unfold onReader
  rw [ensures_zoom]
  intro _ r _
  exact ⟨r, rfl⟩

theorem ensures_reencodeRow (t : ℕ) :
    Ensures (reencodeRow t) h fun _ h' => ∃ r, h' = { h with encodedFileReadWriter := r } := by
  unfold reencodeRow
  simp only [ensures_bind, ensures_get, ensures_lift]
  intros
  exact ensures_onReader _

theorem ensures_reencodeEditedRow (t : ℕ) :
    Ensures (reencodeEditedRow t) h fun _ h' =>
      ∃ r, h' = { h with encodedFileReadWriter := r } := by
  unfold reencodeEditedRow
  simp only [ensures_bind, ensures_get]
  exact ensures_onReader _

omit [Field F] [DataField F] in
theorem ensures_rows {body : ℕ → Handling D F Err Unit} (ts : List ℕ)
    (hbody : ∀ t h', Ensures (body t) h' fun _ h'' =>
      ∃ r, h'' = { h' with encodedFileReadWriter := r }) :
    Ensures (forEach ts body) h fun _ h' => ∃ r, h' = { h with encodedFileReadWriter := r } := by
  refine ensures_forEach (fun h' => ∃ r, h' = { h with encodedFileReadWriter := r }) ?_
    ⟨h.encodedFileReadWriter, rfl⟩
  rintro t _ ⟨r, rfl⟩
  refine (hbody t _).mono ?_
  rintro _ _ ⟨r', rfl⟩
  exact ⟨r', rfl⟩

omit [Field F] [DataField F] in
theorem ensures_writeTree {tree : MerkleTree D} :
    Ensures (writeTree tree) h fun _ h' => tree.len = h.encodedSize * 2 - 1 ∧
      h' = { h with
        merkleTreeFile := some (writeAt (h.merkleTreeFile.getD []) 0 tree.toBytes) } := by
  unfold writeTree
  simp only [ensures_bind, ensures_get, ensures_lift, ensures_modify, ensure_eq_ok]
  intro _ hlen
  exact ⟨hlen, trivial⟩

theorem isTree_of_len {leaves : List D.Output} {tree : MerkleTree D} {n : ℕ}
    (htree : (MerkleTree.new leaves : Fallible (FileError Err) _) = .ok tree)
    (hlen : tree.len = n * 2 - 1) : IsTree Err n tree := by
  obtain ⟨_, -, h⟩ := bind_eq_ok.mp htree
  obtain ⟨_, htwo, -⟩ := bind_eq_ok.mp h
  have htwo := ensure_eq_ok.mp htwo
  have hlen' := (MerkleTree.len_new htree).1
  exact ⟨leaves, by omega, htree⟩

theorem ensures_recalculateMerkleTree :
    Ensures recalculateMerkleTree h fun tree h' => IsTree Err h.encodedSize tree ∧
      h' = { h with
        merkleTree := tree
        merkleTreeFile := some (writeAt (h.merkleTreeFile.getD []) 0 tree.toBytes) } := by
  unfold recalculateMerkleTree
  simp only [ensures_bind, ensures_get, ensures_lift, ensures_modify, ensures_pure]
  intro tree htree
  obtain ⟨leaves, -, hnew⟩ := bind_eq_ok.mp htree
  refine ensures_writeTree.mono ?_
  rintro _ _ ⟨hlen, rfl⟩
  exact ⟨isTree_of_len hnew hlen, rfl⟩

theorem ensures_editBytes {start : ℕ} {bytes : List UInt8} :
    Ensures (editBytes start bytes) h fun _ h' =>
      start + bytes.length ≤ h.totalDataBytes ∧ ∃ r tree, IsTree Err h.encodedSize tree ∧
      h' = { h with
        unencodedFile := some (writeAt (h.unencodedFile.getD []) start bytes)
        encodedFileReadWriter := r
        merkleTree := tree
        merkleTreeFile := some (writeAt (h.merkleTreeFile.getD []) 0 tree.toBytes) } := by
  unfold editBytes
  simp only [ensures_bind, ensures_get, ensures_lift, ensures_modify, ensures_pure, ensure_eq_ok]
  intro _ _ _ hle
  refine (ensures_rows _ fun t h' => ensures_reencodeEditedRow t).mono ?_
  rintro _ _ ⟨r, rfl⟩
  refine ensures_recalculateMerkleTree.mono ?_
  rintro tree _ ⟨htree, rfl⟩
  exact ⟨hle, r, tree, htree, rfl⟩

theorem ensures_makeRoom (endRow : ℕ) : Ensures (makeRoom endRow) h fun _ h' =>
    ∃ r, h' = { h with
      rowCapacity := if endRow > h.rowCapacity then endRow * 2 else h.rowCapacity
      encodedFileReadWriter := r } := by
  unfold makeRoom
  rw [ensures_bind, ensures_get]
  by_cases hgrow : endRow > h.rowCapacity
  · rw [if_pos hgrow, if_pos hgrow]
    simp only [ensures_bind, ensures_modify]
    refine (ensures_onReader _).mono ?_
    rintro _ _ ⟨r, rfl⟩
    exact ⟨r, rfl⟩
  · rw [if_neg hgrow, if_neg hgrow, ensures_pure]
    exact ⟨_, rfl⟩

theorem ensures_appendBytes {bytes : List UInt8} :
    Ensures (appendBytes toJson bytes) h fun _ h' => ∃ b, h.unencodedFile = some b ∧
      ∃ file, h.metadataFile = some file ∧ ∃ r tree h₁, IsTree Err h.encodedSize tree ∧
      h₁ = { h with
        rowsWritten := divCeil (h.totalDataBytes + bytes.length) (rowBytes F h.preEncodedSize)
        rowCapacity :=
          if divCeil (h.totalDataBytes + bytes.length) (rowBytes F h.preEncodedSize) >
            h.rowCapacity then
            divCeil (h.totalDataBytes + bytes.length) (rowBytes F h.preEncodedSize) * 2
          else h.rowCapacity
        totalDataBytes := h.totalDataBytes + bytes.length
        unencodedFile := some (b ++ bytes)
        encodedFileReadWriter := r
        merkleTree := tree
        merkleTreeFile := some (writeAt (h.merkleTreeFile.getD []) 0 tree.toBytes) } ∧
      h' = { h₁ with
        metadataFile := some (writeAt file 0 (toJson (getEncodedMetadata h₁))) } := by
  unfold appendBytes appendRows writeMetadata
  simp only [ensures_bind, ensures_get, ensures_lift, ensures_modify, ensures_pure]
  intro b hopen
  refine (ensures_makeRoom _).mono ?_
  rintro _ _ ⟨r, rfl⟩
  refine (ensures_rows _ fun t h' => ensures_reencodeRow t).mono ?_
  rintro _ _ ⟨r', rfl⟩
  refine ensures_recalculateMerkleTree.mono ?_
  rintro tree _ ⟨htree, rfl⟩ file hfile
  exact ⟨b, openFile_eq_ok.mp hopen, file, openFile_eq_ok.mp hfile, r', tree, _, htree, rfl, rfl⟩

variable {fft : FieldFFT F} {h : FileHandler D F fft.Err}

theorem ensures_reencodeUnencodedFile : Ensures (reencodeUnencodedFile fft) h fun _ h' =>
    ∃ b, h.unencodedFile = some b ∧ ∃ file, h.metadataFile = some file ∧
      ∃ tree r r' h₁, IsTree fft.Err h.encodedSize tree ∧
      h₁ = { h with
        rowsWritten := countedRows (rowBytes F h.preEncodedSize) b.length
        rowCapacity := divCeil b.length (rowBytes F h.preEncodedSize) * 2
        totalDataBytes := b.length
        encodedFileReadWriter := r
        merkleTreeFile := some (writeAt (h.merkleTreeFile.getD []) 0 tree.toBytes) } ∧
      h' = { h₁ with
        encodedFileReadWriter := r'
        merkleTree := tree
        metadataFile := some (writeAt file 0 (toJson (getEncodedMetadata h₁))) } := by
  unfold reencodeUnencodedFile writing writeMetadata
  simp only [ensures_bind, ensures_get, ensures_lift, ensures_modify, ensures_zoom]
  intro b hopen w hnew
  have hpos : 0 < DataField.dataByteCapacity F * h.preEncodedSize :=
    Nat.mul_pos DataField.capacity_pos (settled_new hnew).1.pos
  refine (runs_encodeFile hpos hnew).ensures.mono ?_
  rintro ⟨_, tree⟩ w' ⟨rfl, htree⟩
  refine ensures_writeTree.mono ?_
  rintro _ _ ⟨-, rfl⟩ file hfile reader -
  exact ⟨b, openFile_eq_ok.mp hopen, file, openFile_eq_ok.mp hfile, tree, _, reader, _, htree,
    rfl, rfl⟩

/-- The metadata of the conversion stays, without the identifier. -/
theorem ensures_reshape {pre enc : ℕ} : Ensures (reshape fft pre enc) h fun _ h' =>
    (∃ encoding, (newFromDims fft pre enc : Fallible (FileError fft.Err) _) = .ok encoding) ∧
      ∃ b, b = h.unencodedFile.getD [] ∧ ∃ tree r encoding, IsTree fft.Err enc tree ∧
      h' = { h with
        preEncodedSize := pre
        encodedSize := enc
        rowsWritten := divCeil b.length (rowBytes F pre)
        rowCapacity := divCeil b.length (rowBytes F pre) * 2
        encoding := encoding
        unencodedFile := some b
        encodedFileReadWriter := r
        merkleTree := tree
        merkleTreeFile := some tree.toBytes
        metadataFile := some (toJson ⟨0, pre, enc, divCeil b.length (rowBytes F pre),
          divCeil b.length (rowBytes F pre) * 2, b.length⟩) } := by
  unfold reshape
  simp only [ensures_bind, ensures_get, ensures_lift, ensures_modify, ensures_zoom, ensures_pure]
  refine ensures_convertUnencodedFile.mono ?_
  rintro ⟨_, tree⟩ _ ⟨hencoding, rfl, htree, encoded, rfl⟩ encoding - reader -
  exact ⟨hencoding, _, rfl, tree, reader, encoding, htree, rfl⟩

end Frames

/-- A call on a file handler that changes it or its files. -/
inductive FileUpdate where
  | handler (call : HandlerCall)
  | reencodeUnencodedFile
  | reshape (newPreEncodedColumns newEncodedColumns : ℕ)

variable {fft : FieldFFT F}

def FileUpdate.run (fft : FieldFFT F) : FileUpdate → Handling D F fft.Err Unit
  | .handler call => do
    let _ ← call.run toJson
  | .reencodeUnencodedFile => FilePersistence.reencodeUnencodedFile fft
  | .reshape newPreEncodedColumns newEncodedColumns => do
    let _ ← FilePersistence.reshape fft newPreEncodedColumns newEncodedColumns

/-- A handler opened from the files has the counters and the tree of this one. -/
def Reattaches (fft : FieldFFT F) (reader : MetadataReader) (ulid : Ulid)
    (h : FileHandler D F fft.Err) : Prop :=
  ∃ h', newAttachToExistingFiles fft reader D ulid (files h) = .ok h' ∧
    h'.preEncodedSize = h.preEncodedSize ∧ h'.encodedSize = h.encodedSize ∧
    h'.rowsWritten = h.rowsWritten ∧ h'.rowCapacity = h.rowCapacity ∧
    h'.totalDataBytes = h.totalDataBytes ∧ h'.merkleTree = h.merkleTree

/-- The call leaves a metadata file that belongs to the handler: a reshape does so when the
identifier is zero, and encoding the file anew unless rows are lost and the counters print
shorter than before. -/
def FileUpdate.KeepsRecord (h : FileHandler D F Err) : FileUpdate → Prop
  | .handler _ => True
  | .reencodeUnencodedFile =>
    let rows := divCeil h.totalDataBytes (rowBytes F h.preEncodedSize)
    ¬(rowBytes F h.preEncodedSize ∣ h.totalDataBytes ∧ 1024 < rows ∧
      (usizeToJson (rows / 1024 * 1024)).length + (usizeToJson (rows * 2)).length <
        (usizeToJson h.rowsWritten).length + (usizeToJson h.rowCapacity).length)
  | .reshape .. => h.fileUlid = 0

/-- The files hold what the handler knows. -/
structure Persisted (fft : FieldFFT F) (ulid : Ulid) (h : FileHandler D F fft.Err) : Prop where
  fileUlid : h.fileUlid = ulid
  outputSize : D.outputSize ≠ 0
  encoding : ∃ encoding, (newFromDims fft h.preEncodedSize h.encodedSize :
    Fallible (FileError fft.Err) _) = .ok encoding
  unencoded : ∃ b, h.unencodedFile = some b ∧ b.length = h.totalDataBytes
  rows_le : h.rowsWritten ≤ divCeil h.totalDataBytes (rowBytes F h.preEncodedSize)
  capacity_le : h.rowCapacity ≤ divCeil h.totalDataBytes (rowBytes F h.preEncodedSize) * 2
  tree : IsTree fft.Err h.encodedSize h.merkleTree
  merkleTreeFile : h.merkleTreeFile = some h.merkleTree.toBytes
  metadataFile : h.metadataFile = some (toJson (getEncodedMetadata h))

section Steps

variable {reader : MetadataReader} {ulid : Ulid} {h h' : FileHandler D F fft.Err}

theorem writeAt_toJson {metadata metadata' : EncodedFileMetadata}
    (hle : printedDigits metadata ≤ printedDigits metadata') :
    writeAt (toJson metadata) 0 (toJson metadata') = toJson metadata' :=
  writeAt_zero_of_le (length_toJson_le_iff.mpr hle)

theorem writeAt_toJson_ulid (metadata : EncodedFileMetadata) (ulid : Ulid) :
    writeAt (toJson metadata) 0 (toJson { metadata with ulid := ulid }) =
      toJson { metadata with ulid := ulid } := writeAt_toJson (le_refl (printedDigits metadata))

theorem Persisted.reattaches (hp : Persisted fft ulid h) : Reattaches fft reader ulid h := by
  obtain ⟨encoding, hencoding⟩ := hp.encoding
  obtain ⟨b, hb, -⟩ := hp.unencoded
  obtain ⟨leaves, -, hnew⟩ := hp.tree
  refine ⟨_, newAttachToExistingFiles_eq_ok.mpr ⟨_, hp.metadataFile, getEncodedMetadata h,
    reader.fromStr_toJson _, hp.fileUlid, b, hb, _, rfl, _, newLigero_of_encoding hencoding _ _ _,
    _, hp.merkleTreeFile, h.merkleTree, MerkleTree.fromBytes_toBytes hp.outputSize hnew, encoding,
    hencoding, rfl⟩, rfl, rfl, rfl, rfl, rfl, rfl⟩

omit [Field F] [DataField F] in
theorem Reattaches.metadata (hr : Reattaches fft reader ulid h) : ∃ file metadata,
    h.metadataFile = some file ∧ reader.fromStr file = some metadata ∧ metadata.ulid = ulid := by
  obtain ⟨h', hattach, -⟩ := hr
  obtain ⟨file, hfile, metadata, hmetadata, hulid, -⟩ := newAttachToExistingFiles_eq_ok.mp hattach
  exact ⟨file, metadata, hfile, hmetadata, hulid⟩

theorem Persisted.length_unencoded (hp : Persisted fft ulid h) {b : List UInt8}
    (hb : h.unencodedFile = some b) : b.length = h.totalDataBytes := by
  obtain ⟨b', hb', hlen⟩ := hp.unencoded
  obtain rfl : b' = b := Option.some.inj (hb'.symm.trans hb)
  exact hlen

theorem Persisted.editBytes (hp : Persisted fft ulid h) (start : ℕ) (bytes : List UInt8) :
    Ensures (editBytes start bytes) h fun _ h' => Persisted fft ulid h' := by
  obtain ⟨b, hb, hlen⟩ := hp.unencoded
  refine ensures_editBytes.mono ?_
  rintro _ _ ⟨hle, r, tree, htree, rfl⟩
  refine { hp with
    unencoded := ⟨_, rfl, ?_⟩, tree := htree, merkleTreeFile := ?_
    metadataFile := hp.metadataFile }
  · rw [hb, Option.getD_some, length_writeAt_of_le (by omega), hlen]
  · rw [hp.merkleTreeFile, Option.getD_some, hp.tree.writeAt_toBytes htree]

theorem Persisted.appendBytes (hp : Persisted fft ulid h) (bytes : List UInt8) :
    Ensures (appendBytes toJson bytes) h fun _ h' => Persisted fft ulid h' := by
  have hmore : divCeil h.totalDataBytes (rowBytes F h.preEncodedSize) ≤
      divCeil (h.totalDataBytes + bytes.length) (rowBytes F h.preEncodedSize) :=
    Nat.div_le_div_right (by omega)
  have hrows := hp.rows_le
  have hcapacity := hp.capacity_le
  refine ensures_appendBytes.mono ?_
  rintro _ _ ⟨b, hb, file, hfile, r, tree, h₁, htree, hh₁, rfl⟩
  have hlen := hp.length_unencoded hb
  obtain rfl : toJson (getEncodedMetadata h) = file :=
    Option.some.inj (hp.metadataFile.symm.trans hfile)
  have hroom : h.rowCapacity ≤ h₁.rowCapacity ∧ h₁.rowCapacity ≤
      divCeil (h.totalDataBytes + bytes.length) (rowBytes F h.preEncodedSize) * 2 := by
    rw [hh₁]
    dsimp only
    split <;> omega
  have hprinted : printedDigits (getEncodedMetadata h) ≤ printedDigits (getEncodedMetadata h₁) := by
    have hrows₁ : h.rowsWritten ≤ h₁.rowsWritten := by
      rw [hh₁]
      exact hrows.trans hmore
    rw [hh₁] at hroom hrows₁ ⊢
    exact printedDigits_le rfl rfl (Nat.add_le_add (length_usizeToJson_le hrows₁)
      (length_usizeToJson_le hroom.1)) (Nat.le_add_right _ _)
  rw [writeAt_toJson hprinted]
  subst hh₁
  refine { hp with
    unencoded := ⟨_, rfl, ?_⟩, rows_le := le_rfl, capacity_le := hroom.2, tree := htree
    merkleTreeFile := ?_, metadataFile := rfl }
  · rw [List.length_append, hlen]
  · rw [hp.merkleTreeFile, Option.getD_some, hp.tree.writeAt_toBytes htree]

theorem Persisted.keepsRecord_reencode_iff (hp : Persisted fft ulid h) :
    FileUpdate.reencodeUnencodedFile.KeepsRecord h ↔
      (usizeToJson h.rowsWritten).length + (usizeToJson h.rowCapacity).length ≤
        (usizeToJson (countedRows (rowBytes F h.preEncodedSize) h.totalDataBytes)).length +
          (usizeToJson
            (divCeil h.totalDataBytes (rowBytes F h.preEncodedSize) * 2)).length := by
  unfold FileUpdate.KeepsRecord
  rw [countedRows_eq]
  by_cases hlost : rowBytes F h.preEncodedSize ∣ h.totalDataBytes ∧
      1024 < divCeil h.totalDataBytes (rowBytes F h.preEncodedSize)
  · rw [if_pos hlost]
    constructor
    · intro hkeeps
      exact Nat.le_of_not_lt fun hshort => hkeeps ⟨hlost.1, hlost.2, hshort⟩
    · rintro hle ⟨-, -, hshort⟩
      omega
  · rw [if_neg hlost]
    refine iff_of_true (fun hshort => hlost ⟨hshort.1, hshort.2.1⟩) (Nat.add_le_add ?_ ?_)
    · exact length_usizeToJson_le hp.rows_le
    · exact length_usizeToJson_le hp.capacity_le

omit [Field F] [DataField F] in
/-- A record that prints shorter than the one under it cannot be read: what stood behind it
stays. -/
theorem not_reattaches_of_stale {metadata metadata' : EncodedFileMetadata}
    (hshort : printedDigits metadata' < printedDigits metadata)
    (hfile : h.metadataFile = some (writeAt (toJson metadata) 0 (toJson metadata'))) :
    ¬Reattaches fft reader ulid h := by
  intro hr
  obtain ⟨file, record, hfile', hread, -⟩ := hr.metadata
  obtain rfl := Option.some.inj (hfile.symm.trans hfile')
  have hlength : (toJson metadata').length < (toJson metadata).length := by
    rw [← Nat.not_le, length_toJson_le_iff, Nat.not_le]
    exact hshort
  rw [writeAt_zero, reader.fromStr_stale hlength] at hread
  cases hread

/-- Encoding the file anew breaks the record when it prints shorter counters. -/
theorem Persisted.reencodeUnencodedFile (hp : Persisted fft ulid h) :
    Ensures (reencodeUnencodedFile fft) h fun _ h' =>
      (FileUpdate.reencodeUnencodedFile.KeepsRecord h → Persisted fft ulid h') ∧
      (¬FileUpdate.reencodeUnencodedFile.KeepsRecord h → ¬Reattaches fft reader ulid h') := by
  refine ensures_reencodeUnencodedFile.mono ?_
  rintro _ _ ⟨b, hb, file, hfile, tree, r, r', h₁, htree, hh₁, rfl⟩
  have hlen := hp.length_unencoded hb
  obtain rfl : toJson (getEncodedMetadata h) = file :=
    Option.some.inj (hp.metadataFile.symm.trans hfile)
  rw [hlen] at hh₁
  rw [hp.keepsRecord_reencode_iff]
  constructor
  · intro hle
    have hprinted : printedDigits (getEncodedMetadata h) ≤
        printedDigits (getEncodedMetadata h₁) := by
      rw [hh₁]
      exact printedDigits_le rfl rfl hle le_rfl
    rw [writeAt_toJson hprinted]
    subst hh₁
    refine { hp with
      unencoded := ⟨_, hb, hlen⟩, rows_le := countedRows_le _ _, capacity_le := le_rfl
      tree := htree, merkleTreeFile := ?_, metadataFile := rfl }
    rw [hp.merkleTreeFile, Option.getD_some, hp.tree.writeAt_toBytes htree]
  · intro hshort
    have hprinted : printedDigits (getEncodedMetadata h₁) <
        printedDigits (getEncodedMetadata h) := by
      rw [hh₁]
      unfold printedDigits getEncodedMetadata
      dsimp only
      omega
    exact not_reattaches_of_stale hprinted rfl

/-- A reshape leaves the identifier zero in the metadata. -/
theorem Persisted.reshape (hp : Persisted fft ulid h) (pre enc : ℕ) :
    Ensures (reshape fft pre enc) h fun _ h' =>
      ((FileUpdate.reshape pre enc).KeepsRecord h → Persisted fft ulid h') ∧
      (¬(FileUpdate.reshape pre enc).KeepsRecord h → ¬Reattaches fft reader ulid h') := by
  refine ensures_reshape.mono ?_
  rintro _ _ ⟨hencoding, b, hb, tree, r, encoding, htree, rfl⟩
  obtain ⟨b', hb', hlen⟩ := hp.unencoded
  rw [hb', Option.getD_some] at hb
  subst hb
  constructor
  · intro hzero
    change h.fileUlid = 0 at hzero
    refine {
      fileUlid := hp.fileUlid, outputSize := hp.outputSize, encoding := hencoding
      unencoded := ⟨_, rfl, hlen⟩, rows_le := ?_, capacity_le := ?_, tree := htree
      merkleTreeFile := rfl, metadataFile := ?_ }
    · rw [hlen]
    · rw [hlen]
    · rw [getEncodedMetadata, hzero, hlen]
  · intro hnonzero hr
    obtain ⟨file, metadata, hfile, hread, hulid⟩ := hr.metadata
    obtain rfl := Option.some.inj hfile
    rw [reader.fromStr_toJson] at hread
    obtain rfl := Option.some.inj hread
    exact hnonzero (hp.fileUlid.trans hulid.symm)

/-- A call that succeeds leaves a handler that can be opened again exactly when it keeps the
record. -/
theorem Persisted.update (hp : Persisted fft ulid h) (update : FileUpdate) :
    Ensures (update.run fft) h fun _ h' =>
      (update.KeepsRecord h → Persisted fft ulid h') ∧
      (¬update.KeepsRecord h → ¬Reattaches fft reader ulid h') := by
  cases update with
  | handler call =>
    have hcall : Ensures (call.run toJson) h fun _ h' => Persisted fft ulid h' := by
      cases call with
      | editBytes start bytes =>
        simp only [HandlerCall.run, ensures_bind, ensures_pure]
        exact hp.editBytes start bytes
      | appendBytes bytes =>
        simp only [HandlerCall.run, ensures_bind, ensures_pure]
        exact hp.appendBytes bytes
      | reencodeRow rowIndex =>
        simp only [HandlerCall.run, ensures_bind, ensures_pure]
        refine (ensures_reencodeRow rowIndex).mono ?_
        rintro _ _ ⟨r, rfl⟩
        exact { hp with metadataFile := hp.metadataFile }
    simp only [FileUpdate.run, ensures_bind, ensures_pure]
    refine hcall.mono fun _ h' hp' => ⟨fun _ => hp', ?_⟩
    intro hbreaks
    exact absurd trivial hbreaks
  | reencodeUnencodedFile => exact hp.reencodeUnencodedFile
  | reshape pre enc =>
    simp only [FileUpdate.run, ensures_bind, ensures_pure]
    exact hp.reshape pre enc

theorem ensures_createFromUnencodedFile {pre enc : ℕ} {stored : Files}
    {fileHandle : Option (Option (List UInt8))} :
    Ensures (createFromUnencodedFile fft reader D ulid fileHandle pre enc) stored
      fun h _ => Persisted fft ulid h := by
  unfold createFromUnencodedFile
  simp only [ensures_bind, ensures_get, ensures_lift, ensures_modify]
  intro _ _ _ stored' _ b hb
  refine ensures_convertUnencodedFile.mono ?_
  rintro ⟨_, tree⟩ _ ⟨-, rfl, htree, encoded, rfl⟩ file hfile metadata hmetadata h hattach
  obtain rfl := Option.some.inj (openFile_eq_ok.mp hfile)
  rw [readFromFile_eq_ok, reader.fromStr_toJson] at hmetadata
  obtain rfl := Option.some.inj hmetadata
  dsimp only at hattach
  rw [writeAt_toJson_ulid] at hattach
  obtain ⟨file, hfile, metadata, hread, hulid, b', hb', encodedFile, -, r, -, merkleBytes, hmerkle,
    tree', hfrom, encoding, hencoding, rfl⟩ := newAttachToExistingFiles_eq_ok.mp hattach
  obtain rfl := Option.some.inj hfile
  obtain rfl := Option.some.inj hmerkle
  rw [reader.fromStr_toJson] at hread
  obtain rfl := Option.some.inj hread
  obtain rfl : b = b' := Option.some.inj ((openFile_eq_ok.mp hb).symm.trans hb')
  have hsize := MerkleTree.outputSize_of_fromBytes hfrom
  obtain rfl : tree = tree' := by
    obtain ⟨leaves, -, hnew⟩ := htree
    exact Except.ok.inj ((MerkleTree.fromBytes_toBytes hsize hnew).symm.trans hfrom)
  exact ⟨rfl, hsize, ⟨encoding, hencoding⟩, ⟨b, rfl, rfl⟩, le_rfl, le_rfl, htree, rfl, rfl⟩

end Steps

/-- `P` holds before the calls and after each of them, as long as they succeed. -/
def Throughout (P : FileHandler D F fft.Err → Prop) :
    List FileUpdate → FileHandler D F fft.Err → Prop
  | [], h => P h
  | update :: updates, h =>
    P h ∧ Ensures (update.run fft) h fun _ h' => Throughout P updates h'

/-- Every call that succeeds leaves a metadata file that belongs to the handler. -/
def AllKeepRecord : List FileUpdate → FileHandler D F fft.Err → Prop
  | [], _ => True
  | update :: updates, h =>
    Ensures (update.run fft) h fun _ h' => update.KeepsRecord h ∧ AllKeepRecord updates h'

section Runs

variable {reader : MetadataReader} {ulid : Ulid} {h : FileHandler D F fft.Err}

theorem Persisted.throughout_iff (hp : Persisted fft ulid h) (updates : List FileUpdate) :
    Throughout (Reattaches fft reader ulid) updates h ↔ AllKeepRecord updates h := by
  induction updates generalizing h with
  | nil => exact iff_of_true hp.reattaches trivial
  | cons update updates ih =>
    constructor
    · rintro ⟨-, hrest⟩ a h' hrun
      obtain ⟨hkeeps, hbreaks⟩ := hp.update update a h' hrun
      have hrest' := hrest a h' hrun
      by_cases hrecord : update.KeepsRecord h
      · exact ⟨hrecord, (ih (hkeeps hrecord)).mp hrest'⟩
      · refine absurd ?_ (hbreaks hrecord)
        cases updates with
        | nil => exact hrest'
        | cons => exact hrest'.1
    · intro hall
      refine ⟨hp.reattaches, ?_⟩
      intro a h' hrun
      obtain ⟨hrecord, hrest⟩ := hall a h' hrun
      obtain ⟨hkeeps, -⟩ : (update.KeepsRecord h → Persisted fft ulid h') ∧
          (¬update.KeepsRecord h → ¬Reattaches fft reader ulid h') := hp.update update a h' hrun
      exact (ih (hkeeps hrecord)).mpr hrest

/-- From its creation on a handler can be opened again after every call, exactly when no call
prints a record that is not its own over the metadata. -/
theorem reattaches_throughout_iff {pre enc : ℕ} {stored stored' : Files}
    {fileHandle : Option (Option (List UInt8))}
    (hcreated : (createFromUnencodedFile fft reader D ulid fileHandle pre enc).run stored =
      .ok h stored') (updates : List FileUpdate) :
    Throughout (Reattaches fft reader ulid) updates h ↔ AllKeepRecord updates h :=
  (ensures_createFromUnencodedFile h stored' hcreated).throughout_iff updates

end Runs

instance decidableKeepsRecord (h : FileHandler D F Err) (update : FileUpdate) :
    Decidable (update.KeepsRecord h) :=
  match update with
  | .handler _ => inferInstanceAs (Decidable True)
  | .reencodeUnencodedFile => inferInstanceAs (Decidable (¬_))
  | .reshape .. => inferInstanceAs (Decidable (_ = _))

instance decidableAllKeepRecord : ∀ (updates : List FileUpdate) (h : FileHandler D F fft.Err),
    Decidable (AllKeepRecord updates h)
  | [], _ => inferInstanceAs (Decidable True)
  | update :: updates, h =>
    have (h' : FileHandler D F fft.Err) : Decidable (AllKeepRecord updates h') :=
      decidableAllKeepRecord updates h'
    inferInstanceAs (Decidable (Ensures (update.run fft) h fun _ h' =>
      update.KeepsRecord h ∧ AllKeepRecord updates h'))

def smallUpdates : List FileUpdate :=
  [.handler (.appendBytes [4]), .handler (.editBytes 0 [9]), .handler (.reencodeRow 0),
    .reencodeUnencodedFile, .handler (.appendBytes [5, 6])]

theorem small_file_reattaches :
    Runs (createFromUnencodedFile fermatFft metadataReader byteSum 1 none 1 2)
      ⟨some [1, 2, 3], none, none, none⟩ fun h _ =>
        Throughout (Reattaches fermatFft metadataReader 1) smallUpdates h ∧
        Runs (forEach smallUpdates (FileUpdate.run fermatFft)) h fun _ _ => True := by
  have hkeeps : Runs (createFromUnencodedFile fermatFft metadataReader byteSum 1 none 1 2)
      ⟨some [1, 2, 3], none, none, none⟩ fun h _ => AllKeepRecord smallUpdates h ∧
        Runs (forEach smallUpdates (FileUpdate.run fermatFft)) h fun _ _ => True := by
    decide +kernel
  obtain ⟨h, stored, hcreated, hkeeps, hruns⟩ := hkeeps
  exact ⟨h, stored, hcreated, (reattaches_throughout_iff hcreated _).mpr hkeeps, hruns⟩

/-- The same file cannot be opened again once it has been reshaped. -/
theorem reshaped_file_not_reattached :
    Runs (createFromUnencodedFile fermatFft metadataReader byteSum 1 none 1 2)
      ⟨some [1, 2, 3], none, none, none⟩ fun h _ =>
        Runs (reshape fermatFft 1 4) h fun _ h' => ¬Reattaches fermatFft metadataReader 1 h' := by
  have hruns : Runs (createFromUnencodedFile fermatFft metadataReader byteSum 1 none 1 2)
      ⟨some [1, 2, 3], none, none, none⟩ fun h _ =>
        h.fileUlid ≠ 0 ∧ Runs (reshape fermatFft 1 4) h fun _ _ => True := by
    decide +kernel
  obtain ⟨h, stored, hcreated, hulid, result, h', hreshape, -⟩ := hruns
  have hpersisted := ensures_createFromUnencodedFile h stored hcreated
  exact ⟨h, stored, hcreated, result, h', hreshape,
    (hpersisted.reshape 1 4 result h' hreshape).2 hulid⟩

end FilePersistenceRuns
