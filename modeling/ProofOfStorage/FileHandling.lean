import ProofOfStorage.FileReader
import ProofOfStorage.FileWriter

/-! # A stored file and its encoding, kept in step

The handler keeps the file, the encoded file, the Merkle tree of its columns and the counters of
both. A path that names no file is `none`. JSON comes from another crate.
-/
namespace FileHandling

open FoundationFaults FoundationRuns FoundationSlices FoundationPositionalFiles
open CommitmentTypes CommitmentMerkle OnlineColumns FileFields FileDigests FileRows
open FileWriter FileReader

structure FileHandler (D : Digest) (F Err : Type) where
  fileUlid : Ulid
  preEncodedSize : ℕ
  encodedSize : ℕ
  rowsWritten : ℕ
  rowCapacity : ℕ
  totalDataBytes : ℕ
  encoding : LcEncoding F Err
  unencodedFile : Option (List UInt8)
  encodedFileReadWriter : EncodedFileReader F Err
  merkleTree : MerkleTree D
  merkleTreeFile : Option (List UInt8)
  metadataFile : Option (List UInt8)

variable {D : Digest} {F Err : Type} [Field F] [DataField F]

abbrev Handling (D : Digest) (F Err : Type) := Stateful (FileError Err) (FileHandler D F Err)

def onReader {α : Type} (x : Reading F Err α) : Handling D F Err α :=
  zoom FileHandler.encodedFileReadWriter (fun h r => { h with encodedFileReadWriter := r }) x

def openFile : Option (List UInt8) → Fallible (FileError Err) (List UInt8)
  | some file => .ok file
  | none => fail .io

def getEncodedMetadata (h : FileHandler D F Err) : EncodedFileMetadata where
  ulid := h.fileUlid
  preEncodedSize := h.preEncodedSize
  encodedSize := h.encodedSize
  rowsWritten := h.rowsWritten
  rowCapacity := h.rowCapacity
  bytesOfData := h.totalDataBytes

def getUnencodedBytes (h : FileHandler D F Err) (byteStart byteEnd : ℕ) :
    Fallible (FileError Err) (List UInt8) := do
  let unencodedFile ← openFile h.unencodedFile
  assert (byteStart ≤ byteEnd)
  readExactAt unencodedFile byteStart (byteEnd - byteStart) .io

def getUnencodedRow (h : FileHandler D F Err) (rowIndex : ℕ) :
    Fallible (FileError Err) (List UInt8) := do
  ensure (rowIndex < h.rowsWritten) (.message "row_index out of bounds")
  let startByte := rowIndex * h.preEncodedSize * DataField.dataByteCapacity F
  let endByte := (rowIndex + 1) * h.preEncodedSize * DataField.dataByteCapacity F
  let endByte := if endByte > h.totalDataBytes then h.totalDataBytes else endByte
  let unencodedBytes ← getUnencodedBytes h startByte endByte
  assert (unencodedBytes.length = h.preEncodedSize * DataField.dataByteCapacity F ∨
    rowIndex = h.rowsWritten - 1 ∧
      unencodedBytes.length < h.preEncodedSize * DataField.dataByteCapacity F)
  return unencodedBytes

def reencodeRow (rowIndex : ℕ) : Handling D F Err Unit := do
  let h ← get
  lift (ensure (rowIndex < h.rowsWritten) (.message "cannot reencode a row that is out of bounds"))
  let decodedRow ← lift (getUnencodedRow h rowIndex)
  let rowToEncode : List F := fromByteVec decodedRow
  lift (assert (rowToEncode.length = h.preEncodedSize ∨
    rowToEncode.length < h.preEncodedSize ∧ rowIndex = h.rowsWritten - 1))
  let rowToEncode := rowToEncode ++ .replicate (h.encodedSize - rowToEncode.length) 0
  lift (assert (rowToEncode.length = h.encodedSize))
  let encodedRow ← lift (mapErr .encode (h.encoding.encode rowToEncode))
  lift (assert (encodedRow.length = h.encodedSize))
  onReader (replaceEncodedRow rowIndex encodedRow)

/-- The file is written from its start and not cut off. -/
def writeTree (tree : MerkleTree D) : Handling D F Err Unit := do
  let h ← get
  lift (ensure (tree.len = h.encodedSize * 2 - 1)
    (.message "this Merkle tree is the incorrect size"))
  modify fun h =>
    { h with merkleTreeFile := some (writeAt (h.merkleTreeFile.getD []) 0 tree.toBytes) }

def recalculateMerkleTree : Handling D F Err (MerkleTree D) := do
  let h ← get
  let tree ← lift (processFileToMerkleTree D h.encodedFileReadWriter)
  modify fun h => { h with merkleTree := tree }
  writeTree tree
  return tree

def writeMetadata (json : EncodedFileMetadata → List UInt8) : Handling D F Err Unit := do
  let h ← get
  let metadataFile ← lift (openFile h.metadataFile)
  modify fun h => { h with
    metadataFile := some (writeAt metadataFile 0 (json (getEncodedMetadata h))) }

/-- One round of the loop of `editBytes`: a last row that is cut short is filled with zeros. -/
def reencodeEditedRow (row : ℕ) : Handling D F Err Unit := do
  let h ← get
  let unencodedRowBuff := readInto (h.unencodedFile.getD [])
    (row * h.preEncodedSize * DataField.dataByteCapacity F)
    (.replicate (h.preEncodedSize * DataField.dataByteCapacity F) 0)
  onReader (replaceRowWithDecodedBytes row unencodedRowBuff)

def editBytes (byteStart : ℕ) (unencodedBytesToAdd : List UInt8) :
    Handling D F Err (List UInt8 × MerkleTree D) := do
  let h ← get
  lift (ensure (h.unencodedFile.isSome = true) (.message "no unencoded file found!"))
  lift (ensure (byteStart + unencodedBytesToAdd.length ≤ h.totalDataBytes)
    (.message "can't edit more bytes than there are in the file!"))
  let originalBytes := readInto (h.unencodedFile.getD []) byteStart
    (.replicate unencodedBytesToAdd.length 0)
  modify fun h => { h with
    unencodedFile := some (writeAt (h.unencodedFile.getD []) byteStart unencodedBytesToAdd) }
  let startRow := byteStart / (h.preEncodedSize * DataField.dataByteCapacity F)
  let endRow := divCeil (byteStart + unencodedBytesToAdd.length)
    (h.preEncodedSize * DataField.dataByteCapacity F)
  let _ ← forEach (List.range' startRow (endRow - startRow)) reencodeEditedRow
  let newTree ← recalculateMerkleTree
  return (originalBytes, newTree)

def makeRoom (endRow : ℕ) : Handling D F Err Unit := do
  let h ← get
  if endRow > h.rowCapacity then
    onReader (setNewCapacity (endRow * 2))
    modify fun h => { h with rowCapacity := endRow * 2 }

def appendRows (bytesToAdd : List UInt8) : Handling D F Err (MerkleTree D) := do
  let h ← get
  let unencodedFile ← lift (openFile h.unencodedFile)
  modify fun h => { h with unencodedFile := some (unencodedFile ++ bytesToAdd) }
  let startRow := h.totalDataBytes / (h.preEncodedSize * DataField.dataByteCapacity F)
  let endRow := divCeil (h.totalDataBytes + bytesToAdd.length)
    (h.preEncodedSize * DataField.dataByteCapacity F)
  makeRoom endRow
  modify fun h => { h with
    totalDataBytes := h.totalDataBytes + bytesToAdd.length
    rowsWritten := endRow }
  let _ ← forEach (List.range' startRow (endRow - startRow)) reencodeRow
  recalculateMerkleTree

def appendBytes (json : EncodedFileMetadata → List UInt8) (bytesToAdd : List UInt8) :
    Handling D F Err (MerkleTree D) := do
  let newTree ← appendRows bytesToAdd
  writeMetadata json
  return newTree

def accumulateRow (h : FileHandler D F Err) (s : ColumnDigestAccumulator D × ℕ)
    (bytes : List UInt8) : Fallible (FileError Err) (ColumnDigestAccumulator D × ℕ) := do
  let rowToEncode ← copyFromSlice (.replicate h.encodedSize 0) (fromByteVec bytes : List F)
  let encodedRow ← mapErr .encode (h.encoding.encode rowToEncode)
  let digestAccumulator ← s.1.update encodedRow
  return (digestAccumulator, s.2 + bytes.length)

/-- Each read of the loop fills the buffer or ends the file, so the reads are the chunks. -/
def verifyAllFilesAgree (h : FileHandler D F Err) : Fallible (FileError Err) Unit := do
  let recalculatedEncodedTree ← processFileToMerkleTree D h.encodedFileReadWriter
  ensure (recalculatedEncodedTree.eq h.merkleTree = true)
    (.condition "recalculated_encoded_tree == self.merkle_tree")
  let unencodedFile ← openFile h.unencodedFile
  let (digestAccumulator, totalBytesRead) ←
    (chunks (DataField.dataByteCapacity F * h.preEncodedSize) unencodedFile).foldlM
      (accumulateRow h) (.new h.encodedSize .all, 0)
  ensure (totalBytesRead = h.totalDataBytes)
    (.condition "total_bytes_read == self.total_data_bytes")
  let recalculatedUnencodedTree ← digestAccumulator.finalizeToMerkleTree
  ensure (recalculatedUnencodedTree.eq h.merkleTree = true)
    (.condition "recalculated_unencoded_tree == self.merkle_tree")

/-- The handler's counters and its copy of the file describe `b`. -/
structure Describes (h : FileHandler D F Err) (b : List UInt8) : Prop where
  sized : Sized h.encoding h.preEncodedSize h.encodedSize
  unencoded : h.unencodedFile = some b
  totalDataBytes_eq : h.totalDataBytes = b.length
  rowsWritten_eq : h.rowsWritten = divCeil b.length (rowBytes F h.preEncodedSize)

def rowsOf (h : FileHandler D F Err) (b : List UInt8) : List (List F) :=
  encodedRows h.encoding h.preEncodedSize h.encodedSize b

structure Encodes (h : FileHandler D F Err) (rows : List (List F)) : Prop where
  stores : Stores h.preEncodedSize h.encodedSize rows h.encodedFileReadWriter
  encoding_eq : h.encodedFileReadWriter.encoding = h.encoding
  rowCapacity_eq : h.encodedFileReadWriter.rowCapacity = h.rowCapacity

/-- The files agree: the encoded file holds the encoding of each row of the file, the tree is the
tree of its columns, and both sets of counters fit. -/
structure Agrees (h : FileHandler D F Err) (b : List UInt8) : Prop where
  describes : Describes h b
  encodes : Encodes h (rowsOf h b)
  tree : (MerkleTree.new (columnLeaves D h.encodedSize (rowsOf h b)) : Fallible (FileError Err) _) =
    .ok h.merkleTree

section Steps

variable {h : FileHandler D F Err} {b : List UInt8} {rows : List (List F)} {t : ℕ}

theorem length_rowsOf (h : FileHandler D F Err) (b : List UInt8) :
    (rowsOf h b).length = divCeil b.length (rowBytes F h.preEncodedSize) := length_encodedRows ..

theorem Describes.row_full_or_last (hd : Describes h b) (ht : t < h.rowsWritten) :
    (row (rowBytes F h.preEncodedSize) b t).length = rowBytes F h.preEncodedSize ∨
      t = h.rowsWritten - 1 ∧
        (row (rowBytes F h.preEncodedSize) b t).length < rowBytes F h.preEncodedSize := by
  have hrb := rowBytes_pos (F := F) hd.sized.pos
  have hrowsWritten := hd.rowsWritten_eq
  have hlen := length_row (rowBytes F h.preEncodedSize) b t
  have hlt : t * rowBytes F h.preEncodedSize < b.length := by
    rw [← lt_divCeil_iff hrb, ← hrowsWritten]
    exact ht
  by_cases hshort :
      (row (rowBytes F h.preEncodedSize) b t).length < rowBytes F h.preEncodedSize
  · have hrows : divCeil b.length (rowBytes F h.preEncodedSize) ≤ t + 1 := by
      rw [divCeil_le_iff hrb, Nat.add_mul, Nat.one_mul]
      omega
    exact .inr ⟨by omega, hshort⟩
  · exact .inl (by omega)

theorem Describes.getUnencodedRow (hd : Describes h b) (ht : t < h.rowsWritten) :
    getUnencodedRow h t = .ok (row (rowBytes F h.preEncodedSize) b t) := by
  have hrb := rowBytes_pos (F := F) hd.sized.pos
  have hstart : t * h.preEncodedSize * DataField.dataByteCapacity F =
      t * rowBytes F h.preEncodedSize := Nat.mul_assoc _ _ _
  have hend : (t + 1) * h.preEncodedSize * DataField.dataByteCapacity F =
      t * rowBytes F h.preEncodedSize + rowBytes F h.preEncodedSize := by
    rw [Nat.mul_assoc, Nat.add_mul, Nat.one_mul]
    rfl
  have hlt : t * rowBytes F h.preEncodedSize < b.length := by
    rw [← lt_divCeil_iff hrb, ← hd.rowsWritten_eq]
    exact ht
  have hlen := length_row (rowBytes F h.preEncodedSize) b t
  have hspan : (if t * rowBytes F h.preEncodedSize + rowBytes F h.preEncodedSize > b.length then
      b.length else t * rowBytes F h.preEncodedSize + rowBytes F h.preEncodedSize) =
      t * rowBytes F h.preEncodedSize + (row (rowBytes F h.preEncodedSize) b t).length := by
    rw [hlen]
    split <;> omega
  have hread : readAt b (t * rowBytes F h.preEncodedSize)
      (row (rowBytes F h.preEncodedSize) b t).length =
      row (rowBytes F h.preEncodedSize) b t := by
    rw [readAt, row, List.length_take, ← List.take_eq_take_min]
  have hbytes : getUnencodedBytes h (t * rowBytes F h.preEncodedSize)
      (t * rowBytes F h.preEncodedSize + (row (rowBytes F h.preEncodedSize) b t).length) =
      .ok (row (rowBytes F h.preEncodedSize) b t) := by
    rw [getUnencodedBytes, hd.unencoded, openFile, ok_bind, assert_of (Nat.le_add_right _ _),
      ok_bind, Nat.add_sub_cancel_left, readExactAt, ensure_of (by rw [hread]), hread]
    rfl
  unfold FileHandling.getUnencodedRow
  simp only [ensure_of ht, ok_bind, hstart, hend, hd.totalDataBytes_eq, hspan, hbytes]
  exact bind_eq_ok.mpr ⟨(), assert_eq_ok.mpr (hd.row_full_or_last ht), rfl⟩

omit [Field F] [DataField F] in
theorem runs_onReader {α : Type} {x : Reading F Err α} {Q : α → FileHandler D F Err → Prop} :
    Runs (onReader x) h Q ↔ Runs x h.encodedFileReadWriter fun a r =>
      Q a { h with encodedFileReadWriter := r } := runs_zoom

theorem Describes.reencodeRow (hd : Describes h b) (he : Encodes h rows) (ht : t < h.rowsWritten)
    (hle : t ≤ rows.length) (hcap : t < h.rowCapacity) :
    Runs (reencodeRow t) h fun _ h' =>
      Encodes h' (putRow rows t (codeword h.encoding h.encodedSize
        (row (rowBytes F h.preEncodedSize) b t))) ∧
      h' = { h with encodedFileReadWriter := h'.encodedFileReadWriter } := by
  have hbytes : (row (rowBytes F h.preEncodedSize) b t).length ≤ rowBytes F h.preEncodedSize :=
    length_row_le _ _ _
  have helements : (fromByteVec (row (rowBytes F h.preEncodedSize) b t) : List F).length =
      h.preEncodedSize ∨ (fromByteVec (row (rowBytes F h.preEncodedSize) b t) : List F).length <
      h.preEncodedSize ∧ t = h.rowsWritten - 1 := by
    have hfew := length_fromByteVec_le hbytes
    rcases hd.row_full_or_last ht with hfull | ⟨hlast, -⟩
    · exact .inl (length_fromByteVec_full hfull)
    · rcases Nat.lt_or_eq_of_le hfew with hlt | heq
      · exact .inr ⟨hlt, hlast⟩
      · exact .inl heq
  have hput := he.stores.replaceEncodedRow hle (he.rowCapacity_eq ▸ hcap)
    (hd.sized.length_codeword hbytes)
  unfold FileHandling.reencodeRow
  simp only [runs_bind, runs_get, runs_lift, ensure_eq_ok, assert_eq_ok, exists_const,
    hd.getUnencodedRow ht, mapErr_eq_ok, runs_onReader]
  refine ⟨ht, _, rfl, helements, length_paddedElements hd.sized.lt hbytes, _,
    hd.sized.encode_paddedElements hbytes, hd.sized.length_codeword hbytes, ?_⟩
  refine hput.mono ?_
  rintro _ r ⟨hstores, hencoding, hcapacity⟩
  exact ⟨⟨hstores, hencoding.trans he.encoding_eq, hcapacity.trans he.rowCapacity_eq⟩, trivial⟩

theorem Describes.reencodeEditedRow (hd : Describes h b) (he : Encodes h rows)
    (hle : t ≤ rows.length) (hcap : t < h.rowCapacity) :
    Runs (reencodeEditedRow t) h fun _ h' =>
      Encodes h' (putRow rows t (codeword h.encoding h.encodedSize
        (row (rowBytes F h.preEncodedSize) b t))) ∧
      h' = { h with encodedFileReadWriter := h'.encodedFileReadWriter } := by
  have hlen : (row (rowBytes F h.preEncodedSize) b t).length ≤ rowBytes F h.preEncodedSize :=
    length_row_le _ _ _
  have hbuffer : readInto b (t * h.preEncodedSize * DataField.dataByteCapacity F)
      (.replicate (h.preEncodedSize * DataField.dataByteCapacity F) 0) =
      row (rowBytes F h.preEncodedSize) b t ++ .replicate (rowBytes F h.preEncodedSize -
        (row (rowBytes F h.preEncodedSize) b t).length) 0 := by
    rw [readInto, List.length_replicate, List.drop_replicate, Nat.mul_assoc]
    rfl
  have hfilled : (row (rowBytes F h.preEncodedSize) b t ++ List.replicate
      (rowBytes F h.preEncodedSize - (row (rowBytes F h.preEncodedSize) b t).length)
      0).length ≤ rowBytes F h.preEncodedSize := by
    rw [List.length_append, List.length_replicate]
    omega
  have hput := he.stores.replaceRowWithDecodedBytes hle (he.rowCapacity_eq ▸ hcap) hfilled
  rw [he.encoding_eq, codeword_append_zeros hd.sized.lt (by omega)] at hput
  unfold FileHandling.reencodeEditedRow
  simp only [runs_bind, runs_get, hd.unencoded, Option.getD_some, hbuffer, runs_onReader]
  refine hput.mono ?_
  rintro _ r ⟨hstores, hencoding, hcapacity⟩
  exact ⟨⟨hstores, hencoding, hcapacity.trans he.rowCapacity_eq⟩, trivial⟩

def mixed (old new : List (List F)) (t : ℕ) : List (List F) := new.take t ++ old.drop t

omit [Field F] [DataField F] in
theorem putRow_mixed {old new : List (List F)} {row : List F} (hrow : new[t]? = some row) :
    putRow (mixed old new t) t row = mixed old new (t + 1) := by
  have hlen : (new.take t).length = t := by
    rw [List.length_take]
    have := (List.getElem?_eq_some_iff.mp hrow).1
    omega
  have htake : (new.take t ++ old.drop t).take t = new.take t := List.take_left' hlen
  have hdrop : (new.take t ++ old.drop t).drop (t + 1) = old.drop (t + 1) := by
    rw [← List.drop_drop, List.drop_left' hlen, List.drop_drop]
  rw [putRow, mixed, htake, hdrop, mixed, List.take_add_one, hrow]
  simp

/-- A loop over consecutive rows that replaces each of them replaces all of them. -/
theorem runs_replaceRows {body : ℕ → Handling D F Err Unit} {old new : List (List F)} {s n : ℕ}
    (hbody : ∀ t h', t < s + n → h' = { h with encodedFileReadWriter := h'.encodedFileReadWriter } →
      Encodes h' (mixed old new t) → Runs (body t) h' fun _ h'' =>
        Encodes h'' (mixed old new (t + 1)) ∧
        h'' = { h' with encodedFileReadWriter := h''.encodedFileReadWriter })
    (he : Encodes h (mixed old new s)) :
    Runs (forEach (List.range' s n) body) h fun _ h' => Encodes h' (mixed old new (s + n)) ∧
      h' = { h with encodedFileReadWriter := h'.encodedFileReadWriter } := by
  have hloop : Runs (forEach (List.range' s n) body) h fun _ h' =>
      Encodes h' (mixed old new (s + (List.range' s n).length)) ∧
      h' = { h with encodedFileReadWriter := h'.encodedFileReadWriter } := by
    refine runs_forEach (fun seen h' => Encodes h' (mixed old new (s + seen.length)) ∧
      h' = { h with encodedFileReadWriter := h'.encodedFileReadWriter }) ?_ ⟨he, rfl⟩
    rintro seen t h' hprefix ⟨he', hframe⟩
    obtain ⟨hlt, rfl⟩ := range'_prefix hprefix
    refine (hbody _ h' (by omega) hframe he').mono ?_
    rintro _ h'' ⟨he'', hframe'⟩
    rw [List.length_append, List.length_singleton, ← Nat.add_assoc]
    refine ⟨he'', ?_⟩
    rw [hframe', hframe]
  rw [List.length_range'] at hloop
  exact hloop

theorem Encodes.recalculateMerkleTree (he : Encodes h rows) :
    Runs recalculateMerkleTree h fun tree h' =>
      (MerkleTree.new (columnLeaves D h.encodedSize rows) : Fallible (FileError Err) _) = .ok tree ∧
      h' = { h with merkleTree := tree, merkleTreeFile := h'.merkleTreeFile } := by
  have hs := he.stores.sized
  have hwidth : (columnLeaves D h.encodedSize rows).length = h.encodedSize :=
    length_columnLeaves _ _
  obtain ⟨nodes, k, -, -, htree⟩ := @MerkleTree.new_eq Err D (columnLeaves D h.encodedSize rows)
    (hwidth.symm ▸ hs.pow) (by have := hs.pos; have := hs.lt; omega)
  have hlen := (MerkleTree.len_new htree).1
  unfold FileHandling.recalculateMerkleTree writeTree
  simp only [runs_bind, runs_get, runs_lift, runs_modify, runs_pure, ensure_eq_ok, exists_const,
    he.stores.processFileToMerkleTree]
  exact ⟨_, htree, by rw [hlen, hwidth], htree, trivial⟩

end Steps

end FileHandling
