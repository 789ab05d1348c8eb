import ProofOfStorage.FileRows
import ProofOfStorage.FoundationRuns

/-! # Writing an encoded file row by row

Bytes wait until they fill a row. Encoded rows wait in one buffer for each column until the
buffers are written to the file. Every positional write transfers all its bytes.
-/
namespace FileWriter

open FoundationFaults FoundationRuns FoundationSlices FoundationPositionalFiles
open CommitmentTypes CommitmentMerkle OnlineColumns FileFields FileDigests FileRows

abbrev Ulid := BitVec 128

structure EncodedFileMetadata where
  ulid : Ulid
  preEncodedSize : ℕ
  encodedSize : ℕ
  rowsWritten : ℕ
  rowCapacity : ℕ
  bytesOfData : ℕ
  deriving DecidableEq, Repr

structure EncodedFileWriter (D : Digest) (F Err : Type) where
  encoding : LcEncoding F Err
  columnDigestAccumulator : ColumnDigestAccumulator D
  incomingByteBuffer : List UInt8
  outgoingFieldBufferSize : ℕ
  outgoingFieldBuffer : List (List F)
  bytesReceived : ℕ
  bytesWritten : ℕ
  rowsProcessed : ℕ
  rowsWritten : ℕ
  fileToWriteTo : List UInt8
  preEncodedSize : ℕ
  encodedSize : ℕ
  rowCapacity : ℕ

variable {D : Digest} {F Err : Type} [Field F] [DataField F]

abbrev Writing (D : Digest) (F Err : Type) :=
  Stateful (FileError Err) (EncodedFileWriter D F Err)

def getEncodedFileMetadata (w : EncodedFileWriter D F Err) : EncodedFileMetadata where
  ulid := 0
  preEncodedSize := w.preEncodedSize
  encodedSize := w.encodedSize
  rowsWritten := w.rowsWritten
  rowCapacity := w.rowCapacity
  bytesOfData := w.bytesReceived

def new (fft : FieldFFT F) (D : Digest)
    (numPreEncodedColumns numEncodedColumns originalFileSize : ℕ) (targetFile : List UInt8) :
    Fallible (FileError fft.Err) (EncodedFileWriter D F fft.Err) := do
  assert (isPowerOfTwo numEncodedColumns = true)
  assert (numPreEncodedColumns < numEncodedColumns)
  assert (0 < numPreEncodedColumns)
  let encoding ← newFromDims fft numPreEncodedColumns numEncodedColumns
  let numRows := divCeil (divCeil originalFileSize (DataField.dataByteCapacity F))
    numPreEncodedColumns
  let rowCapacity := numRows * 2
  let perColumnBufferSize := min (2 ^ 10) numRows
  return {
    encoding := encoding
    columnDigestAccumulator := .new numEncodedColumns .all
    incomingByteBuffer := []
    outgoingFieldBufferSize := perColumnBufferSize
    outgoingFieldBuffer := .replicate numEncodedColumns []
    bytesReceived := 0
    bytesWritten := 0
    rowsProcessed := 0
    rowsWritten := 0
    fileToWriteTo := setLen targetFile (rowCapacity * numEncodedColumns * writtenBytesWidth F)
    preEncodedSize := numPreEncodedColumns
    encodedSize := numEncodedColumns
    rowCapacity := rowCapacity }

def encodeCurrentRow : Writing D F Err (List F) := do
  let w ← get
  let drainTarget := min (w.preEncodedSize * DataField.dataByteCapacity F)
    w.incomingByteBuffer.length
  let bytesToEncode := w.incomingByteBuffer.take drainTarget
  modify fun w => { w with
    bytesWritten := w.bytesWritten + drainTarget
    incomingByteBuffer := w.incomingByteBuffer.drop drainTarget }
  let taken : List F := FieldGeneratorIter.collect (drainTarget + 1) (.new bytesToEncode)
  lift (assert (taken.isEmpty = false))
  lift (assert (taken.length ≤ w.preEncodedSize))
  let rowToEncode := taken ++ .replicate (w.encodedSize - taken.length) 0
  lift (assert (rowToEncode.length = w.encodedSize))
  let encodedRow ← lift (unwrap (w.encoding.encode rowToEncode))
  lift (assert (encodedRow.length = w.encodedSize))
  return encodedRow

/-- One round of the loop of `setNewCapacity`, on the file and the buffer. A short read leaves the
end of the buffer as the round before left it. -/
def moveColumn (oldColumnLength newColumnLength : ℕ) (writeOutPad : List UInt8)
    (s : List UInt8 × List UInt8) (row : ℕ) : List UInt8 × List UInt8 :=
  let readInBuffer := readInto s.1 (row * oldColumnLength) s.2
  let file := writeAt s.1 (row * newColumnLength) readInBuffer
  (writeAt file (row * newColumnLength + oldColumnLength) writeOutPad, readInBuffer)

/-- The loop counts rows although it moves columns, goes upwards, and the capacity on record
stays. -/
def setNewCapacity (newCapacity : ℕ) : Writing D F Err Unit := do
  let w ← get
  lift (ensure (newCapacity ≥ w.rowsWritten) (.message
    "Cannot set capacity to fewer than rows are written. That would be destructive!"))
  modify fun w => { w with
    fileToWriteTo := setLen w.fileToWriteTo (newCapacity * w.encodedSize * writtenBytesWidth F) }
  let w ← get
  let oldColumnLength := w.rowCapacity * writtenBytesWidth F
  let newColumnLength := newCapacity * writtenBytesWidth F
  let padLength ← lift (checkedSub newColumnLength oldColumnLength)
  let moved := (List.range w.rowsWritten).foldl
    (moveColumn oldColumnLength newColumnLength (.replicate padLength 0))
    (w.fileToWriteTo, .replicate oldColumnLength 0)
  modify fun w => { w with fileToWriteTo := moved.1 }

def pushColumns (buffers : List (List F)) (row : List F) : List (List F) :=
  List.zipWith (fun columnBuffer element => columnBuffer ++ [element]) buffers row ++
    buffers.drop row.length

/-- The parallel writes of the columns go to disjoint ranges, so they are made in order. -/
def bufferedWriteRow (encodedRow : List F) (finalize : Bool) : Writing D F Err Unit := do
  modify fun w =>
    { w with outgoingFieldBuffer := pushColumns w.outgoingFieldBuffer encodedRow }
  let w ← get
  let first ← lift (index w.outgoingFieldBuffer 0)
  let currentBufSize := first.length
  if currentBufSize < w.outgoingFieldBufferSize ∧ currentBufSize + w.rowsWritten < w.rowCapacity ∧
      finalize = false then
    return ()
  let writeLocation := w.rowsWritten * writtenBytesWidth F
  let columnLengthInBytes := w.rowCapacity * writtenBytesWidth F
  modify fun w => { w with
    fileToWriteTo := writeAll w.fileToWriteTo w.outgoingFieldBuffer.length
      (fun rowIndex => writeLocation + columnLengthInBytes * rowIndex)
      (fun rowIndex => fieldVecToRawBytes (w.outgoingFieldBuffer.getD rowIndex []))
    outgoingFieldBuffer := w.outgoingFieldBuffer.map fun _ => []
    rowsWritten := w.rowsWritten + currentBufSize }
  let w ← get
  lift (assert (w.rowsWritten ≤ w.rowCapacity))
  if w.rowsWritten = w.rowCapacity then
    setNewCapacity (w.rowCapacity * 2)

def processCurrentRow (finalize : Bool) : Writing D F Err Unit := do
  let encodedRow ← encodeCurrentRow
  let w ← get
  let acc ← lift (w.columnDigestAccumulator.update encodedRow)
  modify fun w => { w with columnDigestAccumulator := acc }
  bufferedWriteRow encodedRow finalize
  modify fun w => { w with rowsProcessed := w.rowsProcessed + 1 }

/-- Every round takes a row of bytes away, so the bytes waiting bound the rounds. -/
def processFullRows : Writing D F Err Unit := do
  let w ← get
  repeatWhile (fun w => w.incomingByteBuffer.length ≥
      w.preEncodedSize * DataField.dataByteCapacity F)
    (processCurrentRow false) (w.incomingByteBuffer.length + 1)

def pushBytes (bytes : List UInt8) : Writing D F Err Unit := do
  modify fun w => { w with
    bytesReceived := w.bytesReceived + bytes.length
    incomingByteBuffer := w.incomingByteBuffer ++ bytes }
  processFullRows

def consumeByteIterator (bytes : List UInt8) : Writing D F Err Unit := do
  let _ ← forEach bytes fun byte => do
    modify fun w => { w with
      incomingByteBuffer := w.incomingByteBuffer ++ [byte]
      bytesReceived := w.bytesReceived + 1 }
    processFullRows

def processRest : Writing D F Err Unit := do
  let w ← get
  repeatWhile (fun w => !w.incomingByteBuffer.isEmpty) (processCurrentRow true)
    (w.incomingByteBuffer.length + 1)
  let w ← get
  lift (assert (w.incomingByteBuffer.isEmpty = true))

def finalizeToColumnDigest : Writing D F Err (EncodedFileMetadata × List D.Output) := do
  processRest
  let w ← get
  return (getEncodedFileMetadata w, w.columnDigestAccumulator.getColumnDigests)

def finalizeToCommit : Writing D F Err (EncodedFileMetadata × D.Output) := do
  processRest
  let w ← get
  let commit ← lift w.columnDigestAccumulator.finalizeToCommit
  return (getEncodedFileMetadata w, commit)

def finalizeToMerkleTree : Writing D F Err (EncodedFileMetadata × MerkleTree D) := do
  processRest
  let w ← get
  let tree ← lift w.columnDigestAccumulator.finalizeToMerkleTree
  return (getEncodedFileMetadata w, tree)

/-- The rows are stored in the file up to `rowsWritten` and wait in the column buffers from there
on. -/
structure Buffers (enc : ℕ) (rows : List (List F)) (w : EncodedFileWriter D F Err) : Prop where
  written_le : w.rowsWritten ≤ rows.length
  waiting : w.outgoingFieldBuffer = (List.range enc).map (columnOf (rows.drop w.rowsWritten))
  stored : HoldsRows reprBytes (writtenBytesWidth F) w.rowCapacity enc w.fileToWriteTo
    (rows.take w.rowsWritten)

omit [DataField F] in
theorem pushColumns_columnOf {enc : ℕ} {rows : List (List F)} {row : List F}
    (h : row.length = enc) : pushColumns ((List.range enc).map (columnOf rows)) row =
      (List.range enc).map (columnOf (rows ++ [row])) := by
  have hdrop : ((List.range enc).map (columnOf rows)).drop row.length = [] :=
    List.drop_eq_nil_of_le (by simp [h])
  rw [pushColumns, hdrop, List.append_nil, List.zipWith_comm, zipWith_map_range h _ _ 0]
  apply List.map_congr_left
  intro c _
  rw [columnOf_concat]

/-- Writing every column buffer behind the stored rows stores the waiting rows too. -/
theorem holdsRows_flush {enc cap m : ℕ} {file : List UInt8} {rows : List (List F)}
    (h : HoldsRows reprBytes (writtenBytesWidth F) cap enc file (rows.take m))
    (hm : m ≤ rows.length) (hcap : rows.length ≤ cap) :
    HoldsRows reprBytes (writtenBytesWidth F) cap enc (writeAll file enc
      (fun c => m * writtenBytesWidth F + cap * writtenBytesWidth F * c) fun c =>
        fieldVecToRawBytes (((List.range enc).map (columnOf (rows.drop m))).getD c [])) rows := by
  have hblock : HoldsRows reprBytes (writtenBytesWidth F) cap enc (writeAll file enc
      (fun c => cellOffset (writtenBytesWidth F) cap c m)
      fun c => (columnOf (rows.drop m) c).flatMap reprBytes) rows := by
    refine HoldsRows.writeBlock length_reprBytes h hcap ?_ ?_ ?_
    · rw [List.length_drop]
      omega
    · intro j _
      exact (List.getElem?_drop).symm
    · intro r hr hout
      rw [List.length_drop] at hout
      exact (List.getElem?_take_of_lt (by omega)).symm
  have hwrites : ∀ c < enc, fieldVecToRawBytes
      (((List.range enc).map (columnOf (rows.drop m))).getD c []) =
      (columnOf (rows.drop m) c).flatMap reprBytes := by
    intro c hc
    rw [List.getD_eq_getElem?_getD, List.getElem?_map, List.getElem?_range hc, Option.map_some,
      Option.getD_some, fieldVecToRawBytes]
  rw [writeAll_congr (fun c _ => ?_) hwrites]
  · exact hblock
  · rw [cellOffset]
    ring

/-- The rows whose buffers are written by this call: all of them or none. -/
def flushes (w : EncodedFileWriter D F Err) (n : ℕ) (finalize : Bool) : Prop :=
  w.outgoingFieldBufferSize ≤ n - w.rowsWritten ∨ finalize = true

instance (w : EncodedFileWriter D F Err) (n : ℕ) (finalize : Bool) :
    Decidable (flushes w n finalize) := inferInstanceAs (Decidable (_ ∨ _))

theorem Buffers.pushColumns_eq {enc : ℕ} {rows : List (List F)} {row : List F}
    {w : EncodedFileWriter D F Err} (h : Buffers enc rows w) (hrow : row.length = enc) :
    pushColumns w.outgoingFieldBuffer row =
      (List.range enc).map (columnOf ((rows ++ [row]).drop w.rowsWritten)) := by
  rw [h.waiting, pushColumns_columnOf hrow, List.drop_append_of_le_length h.written_le]

theorem Buffers.push {enc : ℕ} {rows : List (List F)} {row : List F}
    {w : EncodedFileWriter D F Err} (h : Buffers enc rows w) (hrow : row.length = enc) :
    Buffers enc (rows ++ [row])
      { w with outgoingFieldBuffer := pushColumns w.outgoingFieldBuffer row } := by
  have hle := h.written_le
  refine ⟨?_, h.pushColumns_eq hrow, ?_⟩
  · rw [List.length_append]
    exact Nat.le_add_right_of_le hle
  · change HoldsRows _ _ _ _ _ ((rows ++ [row]).take w.rowsWritten)
    rw [List.take_append_of_le_length hle]
    exact h.stored

theorem Buffers.first_pushed {enc : ℕ} {rows : List (List F)} {row : List F}
    {w : EncodedFileWriter D F Err} (h : Buffers enc rows w) (henc : 0 < enc)
    (hrow : row.length = enc) :
    ∃ first, (index (pushColumns w.outgoingFieldBuffer row) 0 : Fallible (FileError Err) _) =
      .ok first ∧ first.length = rows.length + 1 - w.rowsWritten := by
  refine ⟨columnOf ((rows ++ [row]).drop w.rowsWritten) 0, ?_, ?_⟩
  · rw [index_eq_ok, h.pushColumns_eq hrow, List.getElem?_map, List.getElem?_range henc, Option.map_some]
  · rw [columnOf, List.length_map, List.length_drop, List.length_append, List.length_singleton]

theorem Buffers.flush {enc n : ℕ} {rows : List (List F)} {w : EncodedFileWriter D F Err}
    (h : Buffers enc rows w) (hcap : rows.length ≤ w.rowCapacity) (hn : n = rows.length) :
    Buffers enc rows { w with
      fileToWriteTo := writeAll w.fileToWriteTo w.outgoingFieldBuffer.length
        (fun c => w.rowsWritten * writtenBytesWidth F + w.rowCapacity * writtenBytesWidth F * c)
        (fun c => fieldVecToRawBytes (w.outgoingFieldBuffer.getD c []))
      outgoingFieldBuffer := w.outgoingFieldBuffer.map fun _ => []
      rowsWritten := n } := by
  subst hn
  refine ⟨le_rfl, ?_, ?_⟩
  · change w.outgoingFieldBuffer.map (fun _ => []) = (List.range enc).map (columnOf (rows.drop _))
    rw [h.waiting, List.drop_length, List.map_map]
    rfl
  · change HoldsRows _ _ _ _ _ (rows.take rows.length)
    rw [h.waiting, List.take_length, List.length_map, List.length_range]
    exact holdsRows_flush h.stored h.written_le hcap

theorem Buffers.bufferedWriteRow {enc : ℕ} {rows : List (List F)} {row : List F}
    {finalize : Bool} {w : EncodedFileWriter D F Err} (h : Buffers enc rows w)
    (henc : 0 < enc) (hrow : row.length = enc) (hcap : rows.length + 1 < w.rowCapacity) :
    Runs (bufferedWriteRow row finalize) w fun _ w' => Buffers enc (rows ++ [row]) w' ∧
      w' = { w with
        outgoingFieldBuffer := w'.outgoingFieldBuffer
        fileToWriteTo := w'.fileToWriteTo
        rowsWritten := if flushes w (rows.length + 1) finalize then rows.length + 1
          else w.rowsWritten } := by
  have hle := h.written_le
  have hpushed := h.push hrow
  obtain ⟨first, hfirst, hcount⟩ := h.first_pushed henc hrow
  unfold FileWriter.bufferedWriteRow
  simp only [runs_bind, runs_modify, runs_get, runs_lift]
  refine ⟨_, hfirst, ?_⟩
  rw [hcount]
  by_cases hflush : flushes w (rows.length + 1) finalize
  · -- the buffers go to the file
    have hcond : ¬(rows.length + 1 - w.rowsWritten < w.outgoingFieldBufferSize ∧
        rows.length + 1 - w.rowsWritten + w.rowsWritten < w.rowCapacity ∧ finalize = false) := by
      rintro ⟨hsmall, -, hfin⟩
      rcases hflush with hfull | hfin'
      · omega
      · rw [hfin] at hfin'
        cases hfin'
    have hall : w.rowsWritten + (rows.length + 1 - w.rowsWritten) = rows.length + 1 := by omega
    have hlen : (rows ++ [row]).length = rows.length + 1 := by
      rw [List.length_append, List.length_singleton]
    rw [if_neg hcond]
    simp only [runs_bind, runs_modify, runs_get, runs_lift, assert_eq_ok, hall, if_neg hcap.ne,
      runs_pure, if_pos hflush]
    exact ⟨(), hcap.le, hpushed.flush (hlen ▸ hcap.le) hlen.symm, trivial⟩
  · -- the row waits
    have hcond : rows.length + 1 - w.rowsWritten < w.outgoingFieldBufferSize ∧
        rows.length + 1 - w.rowsWritten + w.rowsWritten < w.rowCapacity ∧ finalize = false := by
      obtain ⟨hsmall, hfin⟩ := not_or.mp hflush
      exact ⟨by omega, by omega, Bool.eq_false_iff.mpr hfin⟩
    rw [if_pos hcond, runs_pure, if_neg hflush]
    exact ⟨hpushed, rfl⟩

theorem encodeCurrentRow_runs {pre enc : ℕ} {w : EncodedFileWriter D F Err} {bytes : List UInt8}
    (hs : Sized w.encoding pre enc) (hpre : w.preEncodedSize = pre) (henc : w.encodedSize = enc)
    (hbytes : w.incomingByteBuffer.take (rowBytes F pre) = bytes) (hne : bytes ≠ []) :
    Runs encodeCurrentRow w fun encodedRow w' => encodedRow = codeword w.encoding enc bytes ∧
      w' = { w with
        bytesWritten := w.bytesWritten + bytes.length
        incomingByteBuffer := w.incomingByteBuffer.drop (rowBytes F pre) } := by
  have hle : bytes.length ≤ rowBytes F pre := by
    rw [← hbytes, List.length_take]
    exact Nat.min_le_left _ _
  have htarget : min (pre * DataField.dataByteCapacity F) w.incomingByteBuffer.length =
      bytes.length := by rw [← hbytes, List.length_take, rowBytes]
  have htake : w.incomingByteBuffer.take bytes.length = bytes := by
    rw [← hbytes, List.length_take, ← List.take_eq_take_min]
  have hdrop : w.incomingByteBuffer.drop bytes.length =
      w.incomingByteBuffer.drop (rowBytes F pre) := by
    rw [← htarget, rowBytes]
    rcases Nat.le_total (pre * DataField.dataByteCapacity F) w.incomingByteBuffer.length with h | h
    · rw [Nat.min_eq_left h]
    · rw [Nat.min_eq_right h, List.drop_length, List.drop_eq_nil_of_le h]
  have htaken : FieldGeneratorIter.collect (bytes.length + 1) (.new bytes) =
      (fromByteVec bytes : List F) := FieldGeneratorIter.collect_new _ _ (Nat.lt_succ_self _)
  have hsome : (fromByteVec bytes : List F).isEmpty = false := by
    rw [List.isEmpty_eq_false_iff, ← List.length_pos_iff, length_fromByteVec,
      lt_divCeil_iff DataField.capacity_pos, Nat.zero_mul]
    exact List.length_pos_iff.mpr hne
  have hencode := hs.encode_paddedElements hle
  unfold encodeCurrentRow
  simp only [runs_bind, runs_get, runs_modify, runs_lift, runs_pure, hpre, henc, htarget, htake,
    hdrop, htaken, assert_eq_ok, exists_const, unwrap_eq_ok]
  exact ⟨hsome, length_fromByteVec_le hle, length_paddedElements hs.lt hle, _, hencode,
    hs.length_codeword hle, rfl, trivial⟩

end FileWriter
