import ProofOfStorage.FileRows
import ProofOfStorage.FoundationRuns

/-! # Reading an encoded file and rewriting it in place

A read that must be exact fails at the end of the file; other positional reads and writes
transfer every byte that exists.
-/
namespace FileReader

open FoundationFaults FoundationRuns FoundationSlices FoundationPositionalFiles
open CommitmentTypes CommitmentMerkle OnlineColumns FileFields FileDigests FileRows

structure EncodedFileReader (F Err : Type) where
  encoding : LcEncoding F Err
  fileToRead : List UInt8
  preEncodedSize : ℕ
  encodedSize : ℕ
  rowsWritten : ℕ
  rowCapacity : ℕ

variable {D : Digest} {F Err : Type} [Field F] [DataField F]

abbrev Reading (F Err : Type) := Stateful (FileError Err) (EncodedFileReader F Err)

def newLigero (fft : FieldFFT F) (fileToRead : List UInt8)
    (preEncodedSize encodedSize rowsWritten rowCapacity : ℕ) :
    Fallible (FileError fft.Err) (EncodedFileReader F fft.Err) := do
  let encoding ← newFromDims fft preEncodedSize encodedSize
  return ⟨encoding, fileToRead, preEncodedSize, encodedSize, rowsWritten, rowCapacity⟩

def getEncodedRow (r : EncodedFileReader F Err) (targetRow : ℕ) :
    Fallible (FileError Err) (List F) := do
  let rowStartByte := targetRow * writtenBytesWidth F
  let bytesPerRow := r.rowCapacity * writtenBytesWidth F
  let encodedRowBytes ← (List.range r.encodedSize).mapM fun i =>
    readExactAt r.fileToRead (rowStartByte + i * bytesPerRow) (writtenBytesWidth F) .io
  let encodedRow ← rawBytesToFieldVec encodedRowBytes.flatten
  ensure (encodedRow.length = r.encodedSize)
    (.condition "encoded_row.len() == self.encoded_size")
  return encodedRow

/-- The parallel writes go to disjoint cells, so they are made in order. -/
def replaceEncodedRow (targetRow : ℕ) (encodedRowToWrite : List F) : Reading F Err Unit := do
  let r ← get
  lift (ensure (targetRow ≤ r.rowsWritten) (.message "target row index is out of bounds"))
  lift (assert (encodedRowToWrite.length = r.encodedSize))
  let rowBytes := fieldVecToRawBytes encodedRowToWrite
  lift (assert (rowBytes.length = r.encodedSize * writtenBytesWidth F))
  let columnLengthInBytes := r.rowCapacity * writtenBytesWidth F
  let filePointer := targetRow * writtenBytesWidth F
  let cells := chunks (writtenBytesWidth F) rowBytes
  modify fun r => { r with
    fileToRead := writeAll r.fileToRead cells.length
      (fun index => filePointer + index * columnLengthInBytes) (fun index => cells.getD index []) }
  if targetRow = r.rowsWritten then
    modify fun r => { r with rowsWritten := r.rowsWritten + 1 }

def getEncodedColumnWithoutPath (r : EncodedFileReader F Err) (targetCol : ℕ) :
    Fallible (FileError Err) (List F) := do
  let startByte := targetCol * r.rowCapacity * writtenBytesWidth F
  let columnBytes ← readExactAt r.fileToRead startByte (r.rowsWritten * writtenBytesWidth F) .io
  rawBytesToFieldVec columnBytes

def processFileToMerkleTree (D : Digest) (r : EncodedFileReader F Err) :
    Fallible (FileError Err) (MerkleTree D) := do
  let columnDigests ← (List.range r.encodedSize).mapM fun i => do
    let column ← getEncodedColumnWithoutPath r i
    return (column.foldl (fun digest element => digestUpdate element digest)
      (Hasher.newColumn : Hasher D)).finalize
  MerkleTree.new columnDigests

/-- Columns move to higher places, the last one first. The end of the buffer stays zero. -/
def setNewCapacity (newRowCapacity : ℕ) : Reading F Err Unit := do
  let r ← get
  lift (ensure (newRowCapacity ≥ r.rowsWritten) (.message
    "Cannot set capacity to fewer than rows are written. That would be destructive!"))
  modify fun r => { r with
    fileToRead := setLen r.fileToRead (newRowCapacity * r.encodedSize * writtenBytesWidth F) }
  let oldColumnLength := r.rowCapacity * writtenBytesWidth F
  let newColumnLength := newRowCapacity * writtenBytesWidth F
  let _ ← (List.range r.encodedSize).reverse.foldlM (fun columnBuffer row => do
      lift (assert (oldColumnLength ≤ columnBuffer.length))
      let r ← get
      let bytes ← lift (readExactAt r.fileToRead (row * oldColumnLength) oldColumnLength .io)
      let columnBuffer := bytes ++ columnBuffer.drop oldColumnLength
      modify fun r =>
        { r with fileToRead := writeAt r.fileToRead (row * newColumnLength) columnBuffer }
      return columnBuffer)
    (List.replicate newColumnLength 0)
  modify fun r => { r with rowCapacity := newRowCapacity }

def replaceRowWithDecodedBytes (rowIndex : ℕ) (newUnencodedRow : List UInt8) :
    Reading F Err Unit := do
  let r ← get
  let rowToEncode : List F := fromByteVec newUnencodedRow
  lift (assert (rowToEncode.length ≤ r.encodedSize))
  let encodedRow ← lift (mapErr .encode (r.encoding.encode
    (rowToEncode ++ .replicate (r.encodedSize - rowToEncode.length) 0)))
  replaceEncodedRow rowIndex encodedRow

/-- The file holds exactly these rows in the transposed layout, whatever the encoding is. -/
structure LaidOut (rows : List (List F)) (r : EncodedFileReader F Err) : Prop where
  rowsWritten_eq : r.rowsWritten = rows.length
  capacity : rows.length ≤ r.rowCapacity
  stored : HoldsRows reprBytes (writtenBytesWidth F) r.rowCapacity r.encodedSize r.fileToRead rows

structure Stores (pre enc : ℕ) (rows : List (List F)) (r : EncodedFileReader F Err) : Prop where
  sized : Sized r.encoding pre enc
  preEncodedSize_eq : r.preEncodedSize = pre
  encodedSize_eq : r.encodedSize = enc
  rowsWritten_eq : r.rowsWritten = rows.length
  capacity : rows.length ≤ r.rowCapacity
  stored : HoldsRows reprBytes (writtenBytesWidth F) r.rowCapacity enc r.fileToRead rows

section Stores

variable {pre enc : ℕ} {rows : List (List F)} {r : EncodedFileReader F Err}

theorem Stores.laidOut (h : Stores pre enc rows r) : LaidOut rows r :=
  ⟨h.rowsWritten_eq, h.capacity, h.encodedSize_eq.symm ▸ h.stored⟩

theorem readExactAt_column {file : List UInt8} {cap n c : ℕ} {rows : List (List F)}
    (h : HoldsRows reprBytes (writtenBytesWidth F) cap n file rows) (hc : c < n) :
    (readExactAt file (c * cap * writtenBytesWidth F) (rows.length * writtenBytesWidth F) .io :
      Fallible (FileError Err) _) = .ok (fieldVecToRawBytes (columnOf rows c)) := by
  have hcol := h.column length_reprBytes hc
  unfold cellOffset at hcol
  rw [Nat.add_zero] at hcol
  refine hcol.readExactAt_eq ?_ _
  rw [length_flatMap_repr length_reprBytes, columnOf, List.length_map]

theorem LaidOut.getEncodedColumnWithoutPath (h : LaidOut rows r) {c : ℕ} (hc : c < r.encodedSize) :
    getEncodedColumnWithoutPath r c = .ok (columnOf rows c) := by
  rw [FileReader.getEncodedColumnWithoutPath, h.rowsWritten_eq, readExactAt_column h.stored hc,
    ok_bind, rawBytesToFieldVec_fieldVecToRawBytes]

theorem Stores.getEncodedColumnWithoutPath (h : Stores pre enc rows r) {c : ℕ} (hc : c < enc) :
    getEncodedColumnWithoutPath r c = .ok (columnOf rows c) :=
  h.laidOut.getEncodedColumnWithoutPath (h.encodedSize_eq.symm ▸ hc)

theorem Stores.processFileToMerkleTree (h : Stores pre enc rows r) :
    processFileToMerkleTree D r = MerkleTree.new (columnLeaves D enc rows) := by
  unfold FileReader.processFileToMerkleTree
  rw [h.encodedSize_eq, mapM_of_forall (g := fun c => columnLeaf D (columnOf rows c))]
  · rfl
  · intro c hc
    rw [h.getEncodedColumnWithoutPath (List.mem_range.mp hc), ok_bind, finalize_foldl_newColumn]
    rfl

/-- The rows after one of them has been replaced or, right behind the last one, added. -/
def putRow (rows : List (List F)) (t : ℕ) (row : List F) : List (List F) :=
  rows.take t ++ row :: rows.drop (t + 1)

omit [DataField F] [Field F] in
theorem length_putRow {t : ℕ} (row : List F) (ht : t ≤ rows.length) :
    (putRow rows t row).length = if t = rows.length then rows.length + 1 else rows.length := by
  rw [putRow, List.length_append, List.length_take, List.length_cons, List.length_drop]
  split <;> omega

omit [DataField F] [Field F] in
theorem getElem?_putRow {t r : ℕ} (row : List F) (ht : t ≤ rows.length)
    (hr : r < (putRow rows t row).length) :
    (putRow rows t row)[r]? = if r = t then some row else rows[r]? := by
  have hlen : (rows.take t).length = t := by rw [List.length_take]; omega
  rw [putRow]
  rcases lt_trichotomy r t with hlt | heq | hgt
  · rw [List.getElem?_append_left (by omega), List.getElem?_take_of_lt hlt, if_neg (by omega)]
  · subst heq
    rw [List.getElem?_append_right (by omega), hlen, Nat.sub_self, List.getElem?_cons_zero,
      if_pos rfl]
  · obtain ⟨k, rfl⟩ := Nat.exists_eq_add_of_lt hgt
    have hidx : t + k + 1 - (rows.take t).length = k + 1 := by omega
    rw [List.getElem?_append_right (by omega), hidx, List.getElem?_cons_succ, List.getElem?_drop,
      if_neg (by omega)]
    congr 1
    omega

omit [DataField F] [Field F] in
theorem getElem?_putRow_self {t : ℕ} (row : List F) (ht : t ≤ rows.length) :
    (putRow rows t row)[t]? = some row := by
  have hlt : t < (putRow rows t row).length := by
    rw [length_putRow row ht]
    split <;> omega
  rw [getElem?_putRow row ht hlt, if_pos rfl]

omit [DataField F] [Field F] in
theorem getElem?_putRow_of_ne {t i : ℕ} (row : List F) (ht : t ≤ rows.length)
    (hi : i < rows.length) (hne : i ≠ t) : (putRow rows t row)[i]? = rows[i]? := by
  have hlt : i < (putRow rows t row).length := by
    rw [length_putRow row ht]
    split <;> omega
  rw [getElem?_putRow row ht hlt, if_neg hne]

theorem length_fieldVecToRawBytes (row : List F) :
    (fieldVecToRawBytes row).length = row.length * writtenBytesWidth F := by
  rw [fieldVecToRawBytes, length_flatMap_repr length_reprBytes]

theorem LaidOut.length_putRow_le (h : LaidOut rows r) {t : ℕ} (row : List F)
    (ht : t ≤ rows.length) (hcap : t < r.rowCapacity) :
    (putRow rows t row).length ≤ r.rowCapacity := by
  have hrows := h.capacity
  rw [length_putRow row ht]
  split <;> omega

theorem LaidOut.holdsRows_putRow (h : LaidOut rows r) {t : ℕ} {row : List F}
    (ht : t ≤ rows.length) (hcap : t < r.rowCapacity) (hrow : row.length = r.encodedSize) :
    HoldsRows reprBytes (writtenBytesWidth F) r.rowCapacity r.encodedSize
      (writeAll r.fileToRead (chunks (writtenBytesWidth F) (fieldVecToRawBytes row)).length
        (fun index => t * writtenBytesWidth F + index * (r.rowCapacity * writtenBytesWidth F))
        fun index => (chunks (writtenBytesWidth F) (fieldVecToRawBytes row)).getD index [])
      (putRow rows t row) := by
  have hcells : chunks (writtenBytesWidth F) (fieldVecToRawBytes row) = row.map reprBytes :=
    chunks_flatMap writtenBytesWidth_pos length_reprBytes row
  have hwrite : HoldsRows reprBytes (writtenBytesWidth F) r.rowCapacity r.encodedSize
      (writeAll r.fileToRead r.encodedSize
        (fun c => cellOffset (writtenBytesWidth F) r.rowCapacity c t)
        fun c => (columnOf [row] c).flatMap reprBytes) (putRow rows t row) := by
    refine h.stored.writeBlock length_reprBytes (h.length_putRow_le row ht hcap) ?_ ?_ ?_
    · exact hcap
    · intro j hj
      obtain rfl : j = 0 := by simpa using hj
      rw [Nat.add_zero, getElem?_putRow_self row ht]
      rfl
    · intro i hi hout
      have hne : i ≠ t := by
        rw [List.length_singleton] at hout
        omega
      rw [getElem?_putRow row ht hi, if_neg hne]
  rw [hcells, List.length_map, hrow, writeAll_congr (fun c _ => ?_) fun c hc => ?_]
  · exact hwrite
  · rw [cellOffset]
    ring
  · have hcr : c < row.length := by omega
    rw [List.getD_eq_getElem?_getD, List.getElem?_map, List.getElem?_eq_getElem hcr, columnOf,
      List.map_singleton, List.flatMap_singleton, List.getD_eq_getElem _ _ hcr]
    rfl

theorem LaidOut.replaceEncodedRow (h : LaidOut rows r) {t : ℕ} {row : List F}
    (ht : t ≤ rows.length) (hcap : t < r.rowCapacity) (hrow : row.length = r.encodedSize) :
    Runs (replaceEncodedRow t row) r fun _ r' => LaidOut (putRow rows t row) r' ∧
      r' = { r with fileToRead := r'.fileToRead, rowsWritten := r'.rowsWritten } := by
  have hlen := length_putRow row ht
  have hle := h.length_putRow_le row ht hcap
  have hblock := h.holdsRows_putRow ht hcap hrow
  have hbytes : (fieldVecToRawBytes row).length = r.encodedSize * writtenBytesWidth F := by
    rw [length_fieldVecToRawBytes, hrow]
  unfold FileReader.replaceEncodedRow
  simp only [runs_bind, runs_get, runs_lift, ensure_eq_ok, assert_eq_ok, exists_const, runs_modify,
    h.rowsWritten_eq]
  refine ⟨ht, hrow, hbytes, ?_⟩
  by_cases hlast : t = rows.length
  · rw [if_pos hlast, runs_modify]
    rw [if_pos hlast] at hlen
    exact ⟨⟨hlen.symm, hle, hblock⟩, rfl⟩
  · rw [if_neg hlast, runs_pure]
    rw [if_neg hlast] at hlen
    exact ⟨⟨hlen.symm, hle, hblock⟩, rfl⟩

theorem Stores.of_laidOut {rows' : List (List F)} {r' : EncodedFileReader F Err}
    (h : Stores pre enc rows r) (hlaid : LaidOut rows' r') (hencoding : r'.encoding = r.encoding)
    (hpre : r'.preEncodedSize = r.preEncodedSize) (henc : r'.encodedSize = r.encodedSize) :
    Stores pre enc rows' r' := by
  have hsize : r'.encodedSize = enc := henc.trans h.encodedSize_eq
  exact ⟨hencoding ▸ h.sized, hpre.trans h.preEncodedSize_eq, hsize, hlaid.rowsWritten_eq,
    hlaid.capacity, hsize ▸ hlaid.stored⟩

theorem Stores.replaceEncodedRow (h : Stores pre enc rows r) {t : ℕ} {row : List F}
    (ht : t ≤ rows.length) (hcap : t < r.rowCapacity) (hrow : row.length = enc) :
    Runs (replaceEncodedRow t row) r fun _ r' => Stores pre enc (putRow rows t row) r' ∧
      r'.encoding = r.encoding ∧ r'.rowCapacity = r.rowCapacity := by
  refine (h.laidOut.replaceEncodedRow ht hcap (hrow.trans h.encodedSize_eq.symm)).mono ?_
  rintro _ r' ⟨hlaid, hframe⟩
  refine ⟨h.of_laidOut hlaid ?_ ?_ ?_, ?_, ?_⟩ <;> rw [hframe]

theorem Stores.replaceRowWithDecodedBytes (h : Stores pre enc rows r) {t : ℕ}
    {bytes : List UInt8} (ht : t ≤ rows.length) (hcap : t < r.rowCapacity)
    (hbytes : bytes.length ≤ rowBytes F pre) :
    Runs (replaceRowWithDecodedBytes t bytes) r fun _ r' =>
      Stores pre enc (putRow rows t (codeword r.encoding enc bytes)) r' ∧
      r'.encoding = r.encoding ∧ r'.rowCapacity = r.rowCapacity := by
  have hle := length_fromByteVec_le hbytes
  have hlt := h.sized.lt
  unfold FileReader.replaceRowWithDecodedBytes
  simp only [runs_bind, runs_get, runs_lift, assert_eq_ok, exists_const, mapErr_eq_ok,
    h.encodedSize_eq]
  exact ⟨by omega, _, h.sized.encode_paddedElements hbytes,
    h.replaceEncodedRow ht hcap (h.sized.length_codeword hbytes)⟩

theorem LaidOut.getEncodedRow (h : LaidOut rows r) {t : ℕ} {row : List F}
    (ht : rows[t]? = some row) : getEncodedRow r t =
      .ok ((List.range r.encodedSize).map fun c => row.getD c 0) := by
  have hread : ∀ i ∈ List.range r.encodedSize, (readExactAt r.fileToRead
      (t * writtenBytesWidth F + i * (r.rowCapacity * writtenBytesWidth F)) (writtenBytesWidth F)
      .io : Fallible (FileError Err) _) = .ok (reprBytes (row.getD i 0)) := by
    intro i hi
    have hcell := h.stored t row ht i (List.mem_range.mp hi)
    have hoff : t * writtenBytesWidth F + i * (r.rowCapacity * writtenBytesWidth F) =
        cellOffset (writtenBytesWidth F) r.rowCapacity i t := by
      rw [cellOffset]
      ring
    rw [hoff]
    exact hcell.readExactAt_eq (length_reprBytes _) _
  have hbytes : ((List.range r.encodedSize).map fun i => reprBytes (row.getD i 0)).flatten =
      fieldVecToRawBytes ((List.range r.encodedSize).map fun c => row.getD c 0) := by
    rw [fieldVecToRawBytes, List.flatMap_def, List.map_map]
    rfl
  unfold FileReader.getEncodedRow
  dsimp only
  rw [mapM_of_forall hread, ok_bind, hbytes,
    rawBytesToFieldVec_fieldVecToRawBytes, ok_bind, ensure_of (by simp)]
  rfl

omit [DataField F] in
theorem map_getD_range (row : List F) :
    (List.range row.length).map (fun c => row.getD c 0) = row := by
  apply List.ext_getElem (by simp)
  intro c hc hc'
  rw [List.getElem_map, List.getElem_range, List.getD_eq_getElem _ _ hc']

theorem Stores.getEncodedRow (h : Stores pre enc rows r) {t : ℕ} {row : List F}
    (ht : rows[t]? = some row) (hrow : row.length = enc) : getEncodedRow r t = .ok row := by
  rw [h.laidOut.getEncodedRow ht, h.encodedSize_eq, ← hrow, map_getD_range]

/-- The columns below `j` are where the old capacity puts them, the others where the new one
does. -/
def PartlyMoved (old new enc j : ℕ) (rows : List (List F)) (file : List UInt8) : Prop :=
  ∀ t row, rows[t]? = some row → ∀ c < enc,
    HoldsAt file (cellOffset (writtenBytesWidth F) (if c < j then old else new) c t)
      (reprBytes (row.getD c 0))

/-- Copying column `j` to its new place moves it and leaves the other columns alone. -/
theorem PartlyMoved.step {old new j : ℕ} {file bytes rest : List UInt8}
    (h : PartlyMoved old new enc (j + 1) rows file) (hold : rows.length ≤ old) (hnew : old ≤ new)
    (hread : readAt file (j * (old * writtenBytesWidth F)) (old * writtenBytesWidth F) = bytes)
    (hlen : (bytes ++ rest).length = new * writtenBytesWidth F) :
    PartlyMoved old new enc j rows
      (writeAt file (j * (new * writtenBytesWidth F)) (bytes ++ rest)) := by
  intro t row hrow c hc
  have ht : t < old := lt_of_lt_of_le (List.getElem?_eq_some_iff.mp hrow).1 hold
  have hcell := h t row hrow c hc
  rcases lt_trichotomy c j with hlt | heq | hgt
  · -- the column has yet to move, and lies below the place written to
    rw [if_pos (by omega)] at hcell
    rw [if_pos hlt]
    refine hcell.writeAt (.inl ?_)
    rw [length_reprBytes, ← Nat.mul_assoc]
    exact cellOffset_add_le ht hlt hnew
  · -- the column that is copied
    subst heq
    rw [if_pos (by omega)] at hcell
    rw [if_neg (by omega)]
    have hsplit : ∀ cap, cellOffset (writtenBytesWidth F) cap c t =
        c * (cap * writtenBytesWidth F) + t * writtenBytesWidth F := by
      intro cap
      rw [cellOffset]
      ring
    have hfits : t * writtenBytesWidth F + (reprBytes (row.getD c 0)).length ≤
        old * writtenBytesWidth F := by
      have hmul := Nat.mul_le_mul_right (writtenBytesWidth F) (show t + 1 ≤ old from ht)
      rw [Nat.add_mul, Nat.one_mul] at hmul
      rw [length_reprBytes]
      exact hmul
    rw [hsplit] at hcell ⊢
    have hin := hcell.of_readAt hfits
    rw [hread] at hin
    exact holdsAt_writeAt.part (hin.append rest)
  · -- the column has moved, and lies above the place written to
    rw [if_neg (by omega)] at hcell
    rw [if_neg (by omega)]
    refine hcell.writeAt (.inr ?_)
    have hcells : (j + 1) * new ≤ c * new + t :=
      le_trans (Nat.mul_le_mul_right _ hgt) (Nat.le_add_right _ _)
    have hmul := Nat.mul_le_mul_right (writtenBytesWidth F) hcells
    rw [Nat.add_mul, Nat.one_mul, Nat.add_mul, Nat.mul_assoc j] at hmul
    rw [hlen, cellOffset]
    exact hmul

omit [DataField F] [Field F] in
theorem reverse_range_prefix {n col : ℕ} {seen : List ℕ}
    (h : seen ++ [col] <+: (List.range n).reverse) :
    seen.length < n ∧ col = n - 1 - seen.length := by
  obtain ⟨rest, hrest⟩ := h
  have hlen := congrArg List.length hrest
  simp only [List.length_append, List.length_singleton, List.length_reverse,
    List.length_range] at hlen
  have hget : (List.range n).reverse[seen.length]? = some col := by
    rw [← hrest]
    simp
  rw [List.getElem?_reverse (by rw [List.length_range]; omega), List.length_range,
    List.getElem?_range (by omega)] at hget
  exact ⟨by omega, (Option.some.inj hget).symm⟩

theorem PartlyMoved.start (h : LaidOut rows r) {new : ℕ} (hnew : r.rowCapacity ≤ new) :
    PartlyMoved r.rowCapacity new r.encodedSize r.encodedSize rows
      (setLen r.fileToRead (new * r.encodedSize * writtenBytesWidth F)) := by
  intro t row hrow c hc
  have ht : t < r.rowCapacity :=
    lt_of_lt_of_le (List.getElem?_eq_some_iff.mp hrow).1 h.capacity
  rw [if_pos hc]
  refine (h.stored t row hrow c hc).setLen ?_
  rw [length_reprBytes, Nat.mul_comm new]
  exact cellOffset_add_le ht hc hnew

/-- Growing the capacity keeps the rows. -/
theorem LaidOut.setNewCapacity (h : LaidOut rows r) {new : ℕ} (hnew : r.rowCapacity ≤ new) :
    Runs (setNewCapacity new) r fun _ r' => LaidOut rows r' ∧
      r' = { r with fileToRead := r'.fileToRead, rowCapacity := new } := by
  have hcap := h.capacity
  unfold FileReader.setNewCapacity
  simp only [runs_bind, runs_get, runs_lift, ensure_eq_ok, exists_const, runs_modify]
  refine ⟨by rw [h.rowsWritten_eq]; omega, ?_⟩
  refine (runs_foldlM (fun seen buffer r' =>
      PartlyMoved r.rowCapacity new r.encodedSize (r.encodedSize - seen.length) rows
        r'.fileToRead ∧
      r'.fileToRead.length = new * r.encodedSize * writtenBytesWidth F ∧
      buffer.length = new * writtenBytesWidth F ∧
      r' = { r with fileToRead := r'.fileToRead }) ?_ ?_).mono ?_
  · rintro seen col buffer r' hprefix ⟨hmoved, hfile, hbuffer, hframe⟩
    obtain ⟨hseen, hcol⟩ := reverse_range_prefix hprefix
    have hbefore : r.encodedSize - seen.length = col + 1 := by omega
    have hafter : r.encodedSize - (seen ++ [col]).length = col := by
      rw [List.length_append, List.length_singleton]
      omega
    rw [hbefore] at hmoved
    have hfits : ∀ cap ≤ new, col * (cap * writtenBytesWidth F) + cap * writtenBytesWidth F ≤
        r'.fileToRead.length := by
      intro cap hle
      rw [hfile]
      exact column_add_le (by omega) hle
    have hroom := Nat.mul_le_mul_right (writtenBytesWidth F) hnew
    have hread := length_readAt_of_le (hfits _ hnew)
    have hbytes : (readAt r'.fileToRead (col * (r.rowCapacity * writtenBytesWidth F))
        (r.rowCapacity * writtenBytesWidth F) ++
        buffer.drop (r.rowCapacity * writtenBytesWidth F)).length =
        new * writtenBytesWidth F := by
      rw [List.length_append, hread, List.length_drop, hbuffer]
      omega
    simp only [runs_bind, runs_lift, assert_eq_ok, exists_const, runs_get, runs_modify, runs_pure,
      readExactAt, ensure_of hread, ok_bind]
    refine ⟨by rw [hbuffer]; exact hroom, _, rfl, ?_, ?_, hbytes, ?_⟩
    · rw [hafter]
      exact hmoved.step hcap hnew rfl hbytes
    · rw [length_writeAt_of_le (by rw [hbytes]; exact hfits new le_rfl), hfile]
    · rw [hframe]
  · exact ⟨.start h hnew, length_setLen _ _, by rw [List.length_replicate], rfl⟩
  · rintro buffer r' ⟨hmoved, -, -, hframe⟩
    rw [List.length_reverse, List.length_range, Nat.sub_self] at hmoved
    rw [hframe]
    refine ⟨⟨h.rowsWritten_eq, hcap.trans hnew, ?_⟩, rfl⟩
    intro t row hrow c hc
    exact hmoved t row hrow c hc

theorem Stores.setNewCapacity (h : Stores pre enc rows r) {new : ℕ} (hnew : r.rowCapacity ≤ new) :
    Runs (setNewCapacity new) r fun _ r' => Stores pre enc rows r' ∧
      r'.encoding = r.encoding ∧ r'.rowCapacity = new := by
  refine (h.laidOut.setNewCapacity hnew).mono ?_
  rintro _ r' ⟨hlaid, hframe⟩
  refine ⟨h.of_laidOut hlaid ?_ ?_ ?_, ?_, ?_⟩ <;> rw [hframe]

end Stores

end FileReader
