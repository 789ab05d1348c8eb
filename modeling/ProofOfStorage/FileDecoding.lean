import ProofOfStorage.FileReader
import ProofOfStorage.OnlineEvaluation

/-! # Decoding an encoded file

A row of the transposed file is read cell by cell, transformed back and cut to its elements. A file
that is written to keeps the position of the last write.
-/
namespace FileDecoding

open FoundationFaults FoundationSlices FoundationPositionalFiles
open CommitmentTypes OnlineColumns OnlineEvaluation FileFields FileDigests FileRows FileReader

structure TargetFile where
  contents : List UInt8
  position : ℕ
  deriving DecidableEq

def TargetFile.writeAll (file : TargetFile) (bytes : List UInt8) : TargetFile where
  contents := writeAt file.contents file.position bytes
  position := file.position + bytes.length

variable {F : Type} [Field F] [DataField F]

section Reader

variable {fft : FieldFFT F}

def getUnencodedRow (r : EncodedFileReader F fft.Err) (targetRow : ℕ) :
    Fallible (FileError fft.Err) (List F) := do
  ensure (targetRow < r.rowsWritten) (.message "target row index is out of bounds")
  let encodedRow ← getEncodedRow r targetRow
  let decodedRow ← mapErr .encode (decodeRow fft encodedRow)
  assert (r.preEncodedSize ≤ decodedRow.length)
  let decodedRow := decodedRow.take r.preEncodedSize
  ensure (decodedRow.length = r.preEncodedSize)
    (.condition "decoded_row.len() == self.pre_encoded_size")
  return decodedRow

def getUnencodedRowBytes (r : EncodedFileReader F fft.Err) (targetRow : ℕ) :
    Fallible (FileError fft.Err) (List UInt8) := do
  let unencodedRow ← getUnencodedRow r targetRow
  let rowBytes := fieldVecToByteVec unencodedRow
  ensure (rowBytes.length = r.preEncodedSize * DataField.dataByteCapacity F)
    (.condition "row_bytes.len() == self.pre_encoded_size * F::DATA_BYTE_CAPACITY as usize")
  return rowBytes

def decodeRowToTargetFile (r : EncodedFileReader F fft.Err) (targetFile : TargetFile) (rowI : ℕ) :
    Fallible (FileError fft.Err) TargetFile := do
  let encodedRow ← getEncodedRow r rowI
  let decodedRow ← mapErr .encode (decodeRow fft encodedRow)
  assert (r.preEncodedSize ≤ decodedRow.length)
  let decodedRow := decodedRow.take r.preEncodedSize
  assert (decodedRow.length = r.preEncodedSize)
  let decodedBytes := fieldVecToByteVec decodedRow
  return targetFile.writeAll decodedBytes

def decodeToTargetFile (r : EncodedFileReader F fft.Err) (targetFile : TargetFile) :
    Fallible (FileError fft.Err) TargetFile :=
  (List.range r.rowsWritten).foldlM (decodeRowToTargetFile r) targetFile

end Reader

theorem writeAll_writeAll (file : TargetFile) (bytes rest : List UInt8) :
    (file.writeAll bytes).writeAll rest = file.writeAll (bytes ++ rest) := by
  have hcontents : writeAt (writeAt file.contents file.position bytes)
      (file.position + bytes.length) rest =
        writeAt file.contents file.position (bytes ++ rest) := by
    by_cases hrest : rest = []
    · subst hrest
      rw [List.append_nil]
      rfl
    · by_cases hbytes : bytes = []
      · subst hbytes
        rfl
      · have hlen : (file.contents.take file.position ++
            List.replicate (file.position - file.contents.length) 0 ++ bytes).length =
              file.position + bytes.length := by
          simp only [List.length_append, List.length_take, List.length_replicate]
          omega
        have hdrop : (file.contents.take file.position ++
            List.replicate (file.position - file.contents.length) 0 ++ bytes ++
              file.contents.drop (file.position + bytes.length)).drop
                (file.position + bytes.length + rest.length) =
            file.contents.drop (file.position + (bytes ++ rest).length) := by
          rw [← hlen, List.drop_length_add_append, List.drop_drop, hlen, List.length_append,
            Nat.add_assoc]
        have hno : file.position + bytes.length - (file.position + bytes.length +
            (file.contents.drop (file.position + bytes.length)).length) = 0 := by omega
        simp only [writeAt, List.isEmpty_iff, hrest, hbytes, if_false, List.append_eq_nil_iff,
          and_false]
        rw [List.take_left' hlen, hdrop, List.length_append, hlen, hno, List.replicate_zero,
          List.append_nil]
        simp only [List.append_assoc]
  rw [TargetFile.writeAll, TargetFile.writeAll, TargetFile.writeAll, hcontents,
    List.length_append, Nat.add_assoc]

section Rows

variable {pre enc : ℕ} {bytes : List UInt8}

theorem toDataBytes_zero :
    DataField.toDataBytes (0 : F) = .replicate (DataField.dataByteCapacity F) 0 := by
  rw [← DataField.fromDataBytes_zero, DataField.toDataBytes_fromDataBytes]

theorem fieldVecToByteVec_zeros (n : ℕ) :
    fieldVecToByteVec (.replicate n (0 : F)) = .replicate (rowBytes F n) 0 := by
  rw [fieldVecToByteVec, List.flatMap_replicate, toDataBytes_zero, Vector.toList_replicate,
    List.flatten_replicate_replicate]
  rfl

theorem fieldVecToByteVec_paddedElements (h : bytes.length ≤ rowBytes F pre) :
    fieldVecToByteVec (paddedElements pre bytes : List F) =
      (padded (rowBytes F pre) bytes).toList := by
  have hle : (fromByteVec bytes : List F).length ≤ pre := length_fromByteVec_le h
  have hcap : 0 < DataField.dataByteCapacity F := DataField.capacity_pos
  have hge := le_divCeil_mul bytes.length hcap
  have hmul := Nat.mul_le_mul_right (DataField.dataByteCapacity F) hle
  rw [paddedElements, fieldVecToByteVec_append, fieldVecToByteVec_eq, fieldVecToByteVec_zeros,
    padded_toList_eq h, List.append_assoc, List.replicate_append_replicate]
  rw [length_fromByteVec] at hmul ⊢
  congr 2
  rw [rowBytes, rowBytes, Nat.sub_mul]
  omega

theorem take_paddedElements (h : bytes.length ≤ rowBytes F pre) (hlt : pre < enc) :
    (paddedElements enc bytes : List F).take pre = paddedElements pre bytes := by
  have hle : (fromByteVec bytes : List F).length ≤ pre := length_fromByteVec_le h
  rw [paddedElements, paddedElements, List.take_append, List.take_of_length_le hle,
    List.take_replicate]
  congr 2
  omega

end Rows

/-- Decoding takes every codeword of the encoding back. -/
def Inverts (fft : FieldFFT F) (encoding : LcEncoding F fft.Err) : Prop :=
  ∀ ⦃v w⦄, encoding.encode v = .ok w → decodeRow fft w = .ok v

section Decoding

variable {fft : FieldFFT F} {pre enc : ℕ} {b : List UInt8} {r : EncodedFileReader F fft.Err}

theorem exists_decoded_row (hinv : Inverts fft r.encoding)
    (h : Stores pre enc (encodedRows r.encoding pre enc b) r) {t : ℕ}
    (ht : t < divCeil b.length (rowBytes F pre)) :
    ∃ row' decoded, getEncodedRow r t = .ok row' ∧ decodeRow fft row' = .ok decoded ∧
      pre ≤ decoded.length ∧ decoded.take pre = paddedElements pre (row (rowBytes F pre) b t) ∧
      (paddedElements pre (row (rowBytes F pre) b t) : List F).length = pre := by
  have hlt := h.sized.lt
  have hle : (row (rowBytes F pre) b t).length ≤ rowBytes F pre := length_row_le _ _ _
  have hread := h.getEncodedRow (getElem?_encodedRows ht) (h.sized.length_codeword hle)
  have hdecode := hinv (h.sized.encode_paddedElements hle)
  have hlen : pre ≤ (paddedElements enc (row (rowBytes F pre) b t) : List F).length := by
    rw [length_paddedElements hlt hle]
    exact hlt.le
  have htake := take_paddedElements (F := F) hle hlt
  refine ⟨_, _, hread, hdecode, hlen, htake, ?_⟩
  rw [← htake, List.length_take, Nat.min_eq_left hlen]

/-- The bytes of row `t`, followed by zeros up to the size of a row. -/
def decodedBytes (F : Type) [Field F] [DataField F] (pre : ℕ) (b : List UInt8) (t : ℕ) :
    List UInt8 := (padded (rowBytes F pre) (row (rowBytes F pre) b t)).toList

theorem length_decodedBytes (t : ℕ) : (decodedBytes F pre b t).length = rowBytes F pre :=
  Vector.length_toList

theorem fieldVecToByteVec_row (t : ℕ) : fieldVecToByteVec
    (paddedElements pre (row (rowBytes F pre) b t) : List F) = decodedBytes F pre b t := by
  apply fieldVecToByteVec_paddedElements
  exact length_row_le _ _ _

theorem getUnencodedRow_of_stores (hinv : Inverts fft r.encoding)
    (h : Stores pre enc (encodedRows r.encoding pre enc b) r) {t : ℕ}
    (ht : t < divCeil b.length (rowBytes F pre)) :
    getUnencodedRow r t = .ok (paddedElements pre (row (rowBytes F pre) b t)) := by
  obtain ⟨row', decoded, hrow, hdecode, hlen, htake, hwidth⟩ := exists_decoded_row hinv h ht
  have hrows : t < r.rowsWritten := by rwa [h.rowsWritten_eq, length_encodedRows]
  have hmap : mapErr FileError.encode (decodeRow fft row') = .ok decoded := mapErr_eq_ok.mpr hdecode
  unfold getUnencodedRow
  simp only [ensure_of hrows, ok_bind, hrow, hmap, h.preEncodedSize_eq, assert_of hlen,
    htake, ensure_of hwidth, pure_eq_ok]

theorem getUnencodedRowBytes_of_stores (hinv : Inverts fft r.encoding)
    (h : Stores pre enc (encodedRows r.encoding pre enc b) r) {t : ℕ}
    (ht : t < divCeil b.length (rowBytes F pre)) :
    getUnencodedRowBytes r t = .ok (decodedBytes F pre b t) := by
  have hlen : (decodedBytes F pre b t).length = pre * DataField.dataByteCapacity F :=
    length_decodedBytes t
  unfold getUnencodedRowBytes
  simp only [getUnencodedRow_of_stores hinv h ht, ok_bind, fieldVecToByteVec_row,
    h.preEncodedSize_eq, ensure_of hlen, pure_eq_ok]

theorem decodeRowToTargetFile_of_stores (hinv : Inverts fft r.encoding)
    (h : Stores pre enc (encodedRows r.encoding pre enc b) r) {t : ℕ}
    (ht : t < divCeil b.length (rowBytes F pre)) (targetFile : TargetFile) :
    decodeRowToTargetFile r targetFile t = .ok (targetFile.writeAll (decodedBytes F pre b t)) := by
  obtain ⟨row', decoded, hrow, hdecode, hlen, htake, hwidth⟩ := exists_decoded_row hinv h ht
  have hmap : mapErr FileError.encode (decodeRow fft row') = .ok decoded := mapErr_eq_ok.mpr hdecode
  unfold decodeRowToTargetFile
  simp only [hrow, ok_bind, hmap, h.preEncodedSize_eq, assert_of hlen, htake, assert_of hwidth,
    pure_eq_ok, fieldVecToByteVec_row]

theorem decodeToTargetFile_of_stores (hinv : Inverts fft r.encoding)
    (h : Stores pre enc (encodedRows r.encoding pre enc b) r) (targetFile : TargetFile) :
    decodeToTargetFile r targetFile = .ok (targetFile.writeAll
      ((List.range (divCeil b.length (rowBytes F pre))).flatMap (decodedBytes F pre b))) := by
  have hloop : ∀ n ≤ divCeil b.length (rowBytes F pre),
      (List.range n).foldlM (decodeRowToTargetFile r) targetFile =
        .ok (targetFile.writeAll ((List.range n).flatMap (decodedBytes F pre b))) := by
    intro n hn
    induction n with
    | zero => rfl
    | succ n ih =>
      rw [List.range_succ, List.foldlM_append, ih (by omega), ok_bind, List.foldlM_cons,
        decodeRowToTargetFile_of_stores hinv h (by omega), ok_bind, List.foldlM_nil,
        writeAll_writeAll, List.flatMap_append, List.flatMap_singleton]
      rfl
  have hrows : r.rowsWritten = divCeil b.length (rowBytes F pre) := by
    rw [h.rowsWritten_eq, length_encodedRows]
  unfold decodeToTargetFile
  rw [hrows]
  exact hloop _ le_rfl

theorem flatMap_decodedBytes (hpre : 0 < pre) (b : List UInt8) :
    (List.range (divCeil b.length (rowBytes F pre))).flatMap (decodedBytes F pre b) = b ++
      .replicate (divCeil b.length (rowBytes F pre) * rowBytes F pre - b.length) 0 := by
  rw [← flatMap_padded_chunks (rowBytes_pos hpre), chunks, List.flatMap_map]
  rfl

theorem decodedBytes_eq_row (hpre : 0 < pre) {t : ℕ}
    (ht : t < divCeil b.length (rowBytes F pre)) :
    decodedBytes F pre b t = row (rowBytes F pre) (b ++
      .replicate (divCeil b.length (rowBytes F pre) * rowBytes F pre - b.length) 0) t := by
  have hlen : ∀ rows ∈ (List.range (divCeil b.length (rowBytes F pre))).map (decodedBytes F pre b),
      rows.length = rowBytes F pre := by
    intro rows hrows
    obtain ⟨t, -, rfl⟩ := List.mem_map.mp hrows
    exact Vector.length_toList
  rw [← flatMap_decodedBytes hpre, List.flatMap_def, row_flatten hlen (by simpa using ht)]
  simp [ht]

omit [Field F] [DataField F] in
theorem inverts_of_newFromDims {ε : Type} (hinverse : ∀ {len pc v w},
    fft.precompFft len = .ok pc → fft.fftIoPc pc v = .ok w → fft.ifftOi w = .ok v)
    {encoding : LcEncoding F fft.Err}
    (h : (newFromDims fft pre enc : Fallible ε _) = .ok encoding) : Inverts fft encoding := by
  obtain ⟨-, -, pc, hpc, -, rfl⟩ := newFromDims_eq_ok h
  intro v w hencode
  exact hinverse hpc hencode

omit [Field F] [DataField F] in
theorem newLigero_fields {file : List UInt8} {rows cap : ℕ}
    (h : newLigero fft file pre enc rows cap = .ok r) :
    r.fileToRead = file ∧ r.rowsWritten = rows ∧ r.rowCapacity = cap := by
  obtain ⟨encoding, -, hr⟩ := bind_eq_ok.mp h
  obtain rfl := Except.ok.inj hr
  exact ⟨rfl, rfl, rfl⟩

theorem stores_newLigero {file : List UInt8} {cap : ℕ} {rows : List (List F)} (hpre : 0 < pre)
    (h : newLigero fft file pre enc rows.length cap = .ok r) (hcap : rows.length ≤ cap)
    (hfile : HoldsRows reprBytes (writtenBytesWidth F) cap enc file rows) :
    Stores pre enc rows r ∧
      (newFromDims fft pre enc : Fallible (FileError fft.Err) _) = .ok r.encoding := by
  obtain ⟨encoding, hencoding, hr⟩ := bind_eq_ok.mp h
  obtain rfl := Except.ok.inj hr
  exact ⟨⟨.of_newFromDims hpre hencoding, rfl, rfl, rfl, hcap, hfile⟩, hencoding⟩

end Decoding

/-- Decoding the encoding of a file writes the file, with zeros up to the end of its last row. -/
theorem decoded_file_eq {fft : FieldFFT WriteableFt63} (hinverse : ∀ {len pc v w},
      fft.precompFft len = .ok pc → fft.fftIoPc pc v = .ok w → fft.ifftOi w = .ok v)
    {pre enc cap : ℕ} {b file : List UInt8} {r : EncodedFileReader WriteableFt63 fft.Err}
    (hpre : 0 < pre) (hcap : divCeil b.length (pre * 7) ≤ cap)
    (hr : newLigero fft file pre enc (divCeil b.length (pre * 7)) cap = .ok r)
    (hfile : HoldsRows reprBytes 8 cap enc file (encodedRows r.encoding pre enc b))
    (targetFile : TargetFile) :
    decodeToTargetFile r targetFile = .ok (targetFile.writeAll
        (b ++ .replicate (r.rowsWritten * pre * 7 - b.length) 0)) ∧
      ∀ t < r.rowsWritten, getUnencodedRowBytes r t = .ok (row (pre * 7)
        (b ++ .replicate (r.rowsWritten * pre * 7 - b.length) 0) t) := by
  have hbytes : rowBytes WriteableFt63 pre = pre * 7 := rfl
  have hlen := length_encodedRows r.encoding pre enc b
  rw [hbytes] at hlen
  rw [← hlen] at hr hcap
  obtain ⟨hstores, hencoding⟩ := stores_newLigero hpre hr hcap hfile
  have hinv := inverts_of_newFromDims hinverse hencoding
  have hrows : r.rowsWritten = divCeil b.length (rowBytes WriteableFt63 pre) :=
    hstores.rowsWritten_eq.trans hlen
  rw [Nat.mul_assoc, ← hbytes, hrows, ← flatMap_decodedBytes hpre]
  constructor
  · exact decodeToTargetFile_of_stores hinv hstores targetFile
  · intro t ht
    rw [getUnencodedRowBytes_of_stores hinv hstores ht, decodedBytes_eq_row hpre ht,
      flatMap_decodedBytes hpre]

def pairTransform (F : Type) [Field F] : FieldFFT F where
  Err := Unit
  Precomp := Unit
  flog2 := 41
  getLogLen _ := 1
  precompFft len := if len = 2 then .ok () else fail ()
  fftIoPc _ v := twoPoint.encode v
  ifftOi
    | [a, b] => .ok [(a + b) * ((2 : ℕ) : F)⁻¹, (a - b) * ((2 : ℕ) : F)⁻¹]
    | _ => fail ()
  length_fftIoPc h := twoPoint.length_encode h
  length_ifftOi {v w} h := by
    rcases v with _ | ⟨a, _ | ⟨b, _ | ⟨c, v⟩⟩⟩ <;> simp [fail] at h
    subst h
    rfl
  fftIoPc_total {pc v} h := by
    obtain ⟨a, b, rfl⟩ := List.length_eq_two.mp h
    exact ⟨_, rfl⟩

omit [DataField F] in
theorem pairTransform_inverse (htwo : (2 : F) ≠ 0) {v w : List F}
    (h : (pairTransform F).fftIoPc () v = .ok w) : (pairTransform F).ifftOi w = .ok v := by
  rcases v with _ | ⟨a, _ | ⟨b, _ | ⟨c, v⟩⟩⟩ <;> simp [fail, pairTransform, twoPoint] at h
  subst h
  have ha : (a + b + (a - b)) * ((2 : ℕ) : F)⁻¹ = a := by
    push_cast
    field_simp
    ring
  have hb : (a + b - (a - b)) * ((2 : ℕ) : F)⁻¹ = b := by
    push_cast
    field_simp
    ring
  show Except.ok [(a + b + (a - b)) * ((2 : ℕ) : F)⁻¹, (a + b - (a - b)) * ((2 : ℕ) : F)⁻¹] =
    Except.ok [a, b]
  rw [ha, hb]

theorem codeword_pairTransform {bytes : List UInt8} {x : WriteableFt63}
    (h : fromByteVec bytes = [x]) :
    codeword (ligeroEncoding (pairTransform WriteableFt63) 1 2 ()) 2 bytes = [x, x] := by
  have hencode : (ligeroEncoding (pairTransform WriteableFt63) 1 2 ()).encode
      (paddedElements 2 bytes) = .ok [x, x] := by
    rw [paddedElements, h]
    simp [ligeroEncoding, pairTransform, twoPoint]
  rw [codeword, hencode]

theorem holdsRows_two_rows (x y : WriteableFt63) :
    HoldsRows reprBytes 8 3 2 ([x, y, 0, x, y, 0].flatMap reprBytes) [[x, x], [y, y]] := by
  intro t row ht c hc
  have hcell : [x, y, 0, x, y, 0][c * 3 + t]? = some (row.getD c 0) := by
    have htwo : t < 2 := (List.getElem?_eq_some_iff.mp ht).1
    interval_cases t <;> interval_cases c <;> cases ht <;> rfl
  exact holdsAt_flatMap length_reprBytes _ hcell

theorem exists_nine_bytes : ∃ (file : List UInt8)
    (r : EncodedFileReader WriteableFt63 (pairTransform WriteableFt63).Err),
    newLigero (pairTransform WriteableFt63) file 1 2 2 3 = .ok r ∧ file.length = 3 * 2 * 8 ∧
    HoldsRows reprBytes 8 3 2 file (encodedRows r.encoding 1 2 [1, 2, 3, 4, 5, 6, 7, 8, 9]) := by
  let x : WriteableFt63 := DataField.fromDataBytes (padded _ [1, 2, 3, 4, 5, 6, 7])
  let y : WriteableFt63 := DataField.fromDataBytes (padded _ [8, 9])
  let r : EncodedFileReader WriteableFt63 (pairTransform WriteableFt63).Err :=
    ⟨ligeroEncoding (pairTransform WriteableFt63) 1 2 (), [x, y, 0, x, y, 0].flatMap reprBytes,
      1, 2, 2, 3⟩
  have hrows : encodedRows r.encoding 1 2 [1, 2, 3, 4, 5, 6, 7, 8, 9] = [[x, x], [y, y]] := by
    have hx := codeword_pairTransform (show fromByteVec [1, 2, 3, 4, 5, 6, 7] = [x] from rfl)
    have hy := codeword_pairTransform (show fromByteVec [8, 9] = [y] from rfl)
    rw [← hx, ← hy]
    rfl
  refine ⟨_, r, rfl, length_flatMap_repr length_reprBytes _, ?_⟩
  rw [hrows]
  exact holdsRows_two_rows x y

theorem decoded_file_eq_small : ∃ (file : List UInt8)
    (r : EncodedFileReader WriteableFt63 (pairTransform WriteableFt63).Err),
    newLigero (pairTransform WriteableFt63) file 1 2 2 3 = .ok r ∧
    decodeToTargetFile r ⟨[], 0⟩ =
      .ok ⟨[1, 2, 3, 4, 5, 6, 7, 8, 9, 0, 0, 0, 0, 0], 14⟩ ∧
    getUnencodedRowBytes r 1 = .ok [8, 9, 0, 0, 0, 0, 0] := by
  obtain ⟨file, r, hr, -, hfile⟩ := exists_nine_bytes
  have htwo : (2 : WriteableFt63) ≠ 0 := by decide
  obtain ⟨-, hrows, -⟩ := newLigero_fields hr
  have hdecoded := decoded_file_eq (fun _ => pairTransform_inverse htwo) (by decide) (by decide)
    hr hfile ⟨[], 0⟩
  rw [hrows] at hdecoded
  exact ⟨file, r, hr, hdecoded.1, hdecoded.2 1 (by decide)⟩

end FileDecoding
