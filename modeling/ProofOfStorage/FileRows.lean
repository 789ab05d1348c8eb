import ProofOfStorage.OnlineColumns
import ProofOfStorage.FileDigests

/-! # The encoded rows of a file

A file is cut into rows of bytes; each row is turned into field elements, padded with zeros and
encoded.
-/
namespace FileRows

open FoundationFaults FoundationSlices FoundationPositionalFiles CommitmentTypes CommitmentMerkle
open OnlineColumns FileFields FileDigests

variable {Err F : Type} [Field F] [DataField F]

def paddedElements (n : ℕ) (bytes : List UInt8) : List F :=
  fromByteVec bytes ++ .replicate (n - (fromByteVec bytes : List F).length) 0

/-- The bytes that fill a row of `preEncodedSize` elements. -/
def rowBytes (F : Type) [Field F] [DataField F] (preEncodedSize : ℕ) : ℕ :=
  preEncodedSize * DataField.dataByteCapacity F

structure Sized (encoding : LcEncoding F Err) (preEncodedSize encodedSize : ℕ) : Prop where
  pos : 0 < preEncodedSize
  lt : preEncodedSize < encodedSize
  pow : isPowerOfTwo encodedSize = true
  total : ∀ {v}, v.length = encodedSize → ∃ w, encoding.encode v = .ok w

/-- The codeword of a row of bytes, or nothing when the encoding fails. -/
def codeword (encoding : LcEncoding F Err) (encodedSize : ℕ) (bytes : List UInt8) : List F :=
  match encoding.encode (paddedElements encodedSize bytes) with
  | .ok w => w
  | .error _ => []

def elementsCodeword (encoding : LcEncoding F Err) (encodedSize : ℕ) (elements : List F) : List F :=
  match encoding.encode (elements ++ .replicate (encodedSize - elements.length) 0) with
  | .ok w => w
  | .error _ => []

/-- The codewords of the rows of a byte string. -/
def encodedRows (encoding : LcEncoding F Err) (preEncodedSize encodedSize : ℕ) (b : List UInt8) :
    List (List F) :=
  (chunks (rowBytes F preEncodedSize) b).map (codeword encoding encodedSize)

omit [Field F] [DataField F] in
theorem Sized.of_newFromDims {ε : Type} {fft : FieldFFT F} {pre enc : ℕ}
    {encoding : LcEncoding F fft.Err} (hpos : 0 < pre)
    (h : (newFromDims fft pre enc : Fallible ε _) = .ok encoding) : Sized encoding pre enc := by
  obtain ⟨hlt, hpow, pc, -, hlen, rfl⟩ := newFromDims_eq_ok h
  refine ⟨hpos, hlt, hpow, fun hv => ?_⟩
  exact fft.fftIoPc_total (hv.trans hlen)

omit [DataField F] in
theorem columnOf_codewords {encoding : LcEncoding F Err} {pre enc c : ℕ} {elements m : List F}
    (h : EncodedMatrix encoding elements (divCeil elements.length pre) pre enc m) (hc : c < enc) :
    columnOf ((chunks pre elements).map (elementsCodeword encoding enc)) c =
      column enc (divCeil elements.length pre) m c := by
  rw [columnOf, chunks, List.map_map, List.map_map, column]
  apply List.map_congr_left
  intro r hr
  have hrow := h.rows r (List.mem_range.mp hr)
  rw [paddedRow] at hrow
  rw [Function.comp_apply, Function.comp_apply, elementsCodeword, hrow, getD_row hc]

theorem rowBytes_pos {pre : ℕ} (h : 0 < pre) : 0 < rowBytes F pre :=
  Nat.mul_pos h DataField.capacity_pos

@[simp] theorem length_encodedRows (encoding : LcEncoding F Err) (pre enc : ℕ) (b : List UInt8) :
    (encodedRows encoding pre enc b).length = divCeil b.length (rowBytes F pre) := by
  simp [encodedRows]

theorem encodedRows_eq {pre : ℕ} (hpre : 0 < pre) (encoding : LcEncoding F Err) (enc : ℕ)
    (b : List UInt8) : encodedRows encoding pre enc b =
      (chunks pre (fromByteVec b : List F)).map (elementsCodeword encoding enc) := by
  rw [fromByteVec, chunks_map, chunks_chunks DataField.capacity_pos hpre, List.map_map,
    List.map_map]
  rfl

theorem fromByteVec_row {pre r : ℕ} {b : List UInt8} (hpre : 0 < pre)
    (hr : r < divCeil b.length (rowBytes F pre)) :
    (fromByteVec (row (rowBytes F pre) b r) : List F) = row pre (fromByteVec b) r := by
  have hcount : r < divCeil (chunks (DataField.dataByteCapacity F) b).length pre := by
    rw [length_chunks, divCeil_divCeil _ DataField.capacity_pos hpre]
    exact hr
  have hrow := getElem?_chunks hcount
  rw [chunks_chunks DataField.capacity_pos hpre, List.getElem?_map,
    show pre * DataField.dataByteCapacity F = rowBytes F pre from rfl, getElem?_chunks hr,
    Option.map_some, Option.some.injEq] at hrow
  rw [fromByteVec, hrow, fromByteVec]
  simp only [row, List.map_take, List.map_drop]

theorem getElem?_encodedRows {encoding : LcEncoding F Err} {pre enc r : ℕ} {b : List UInt8}
    (hr : r < divCeil b.length (rowBytes F pre)) : (encodedRows encoding pre enc b)[r]? =
      some (codeword encoding enc (row (rowBytes F pre) b r)) := by
  rw [encodedRows, List.getElem?_map, getElem?_chunks hr, Option.map_some]

theorem take_encodedRows_congr {encoding : LcEncoding F Err} {pre enc s : ℕ} {b b' : List UInt8}
    (hs : s ≤ divCeil b.length (rowBytes F pre)) (hs' : s ≤ divCeil b'.length (rowBytes F pre))
    (h : ∀ r < s, row (rowBytes F pre) b r = row (rowBytes F pre) b' r) :
    (encodedRows encoding pre enc b).take s = (encodedRows encoding pre enc b').take s := by
  apply List.ext_getElem?
  intro r
  rcases Nat.lt_or_ge r s with hr | hr
  · rw [List.getElem?_take_of_lt hr, List.getElem?_take_of_lt hr, getElem?_encodedRows (by omega),
      getElem?_encodedRows (by omega), h r hr]
  · rw [List.getElem?_eq_none (by rw [List.length_take]; omega),
      List.getElem?_eq_none (by rw [List.length_take]; omega)]

theorem drop_encodedRows_congr {encoding : LcEncoding F Err} {pre enc e : ℕ} {b b' : List UInt8}
    (hlen : b.length = b'.length)
    (h : ∀ r, e ≤ r → row (rowBytes F pre) b r = row (rowBytes F pre) b' r) :
    (encodedRows encoding pre enc b).drop e = (encodedRows encoding pre enc b').drop e := by
  apply List.ext_getElem?
  intro r
  rw [List.getElem?_drop, List.getElem?_drop]
  rcases Nat.lt_or_ge (e + r) (divCeil b.length (rowBytes F pre)) with hr | hr
  · rw [getElem?_encodedRows hr, getElem?_encodedRows (hlen ▸ hr), h _ (Nat.le_add_right _ _)]
  · rw [List.getElem?_eq_none (by rw [length_encodedRows]; exact hr),
      List.getElem?_eq_none (by rw [length_encodedRows, ← hlen]; exact hr)]

section Rows

variable {encoding : LcEncoding F Err} {pre enc : ℕ} {bytes : List UInt8}

theorem length_fromByteVec_le (h : bytes.length ≤ rowBytes F pre) :
    (fromByteVec bytes : List F).length ≤ pre := by
  rw [length_fromByteVec]
  exact (divCeil_le_iff DataField.capacity_pos).mpr h

theorem length_fromByteVec_full (h : bytes.length = rowBytes F pre) :
    (fromByteVec bytes : List F).length = pre := by
  rw [length_fromByteVec, h, rowBytes, divCeil_mul pre DataField.capacity_pos]

theorem paddedElements_full (h : bytes.length = rowBytes F pre) :
    (paddedElements enc bytes : List F) = fromByteVec bytes ++ .replicate (enc - pre) 0 := by
  rw [paddedElements, length_fromByteVec_full h]

theorem length_paddedElements (hs : pre < enc) (h : bytes.length ≤ rowBytes F pre) :
    (paddedElements enc bytes : List F).length = enc := by
  have := length_fromByteVec_le h
  rw [paddedElements, List.length_append, List.length_replicate]
  omega

omit [DataField F] in
theorem Sized.encode_elements (hs : Sized encoding pre enc) {elements : List F}
    (h : elements.length ≤ pre) :
    encoding.encode (elements ++ .replicate (enc - elements.length) 0) =
      .ok (elementsCodeword encoding enc elements) := by
  have hlt := hs.lt
  obtain ⟨w, hw⟩ := hs.total (v := elements ++ .replicate (enc - elements.length) 0) (by
    rw [List.length_append, List.length_replicate]
    omega)
  rw [elementsCodeword, hw]

omit [DataField F] in
theorem Sized.length_elementsCodeword (hs : Sized encoding pre enc) {elements : List F}
    (h : elements.length ≤ pre) : (elementsCodeword encoding enc elements).length = enc := by
  have hlt := hs.lt
  rw [encoding.length_encode (hs.encode_elements h), List.length_append, List.length_replicate]
  omega

theorem Sized.encode_paddedElements (hs : Sized encoding pre enc)
    (h : bytes.length ≤ rowBytes F pre) :
    encoding.encode (paddedElements enc bytes) = .ok (codeword encoding enc bytes) :=
  hs.encode_elements (length_fromByteVec_le h)

theorem Sized.length_codeword (hs : Sized encoding pre enc) (h : bytes.length ≤ rowBytes F pre) :
    (codeword encoding enc bytes).length = enc :=
  hs.length_elementsCodeword (length_fromByteVec_le h)

theorem paddedElements_append_zeros {k : ℕ} (hs : pre < enc)
    (h : bytes.length + k ≤ rowBytes F pre) :
    (paddedElements enc (bytes ++ .replicate k 0) : List F) = paddedElements enc bytes := by
  have hlen : (bytes ++ List.replicate k (0 : UInt8)).length ≤ rowBytes F pre := by
    rw [List.length_append, List.length_replicate]
    exact h
  have hl := length_paddedElements hs hlen
  have hl' : (paddedElements enc bytes : List F).length = enc :=
    length_paddedElements hs (by omega)
  apply ext_getD 0 (hl.trans hl'.symm)
  intro i
  rw [paddedElements, paddedElements, getD_append_zeros, getD_append_zeros,
    fromByteVec_append_zeros, getD_append_zeros]

theorem codeword_append_zeros {k : ℕ} (hs : pre < enc)
    (h : bytes.length + k ≤ rowBytes F pre) :
    codeword encoding enc (bytes ++ .replicate k 0) = codeword encoding enc bytes := by
  rw [codeword, paddedElements_append_zeros hs h, codeword]

theorem row_append_replicate {n r : ℕ} {b : List UInt8} (hr : r * n ≤ b.length) (k : ℕ) :
    row n (b ++ .replicate k 0) r =
      row n b r ++ .replicate (min (n - (b.drop (r * n)).length) k) 0 := by
  rw [row, List.drop_append_of_le_length hr, List.take_append, List.take_replicate]
  rfl

/-- Zeros behind the last byte do not change the codewords of the rows that start before them. -/
theorem codeword_row_append_zeros {r : ℕ} {b : List UInt8} (hs : pre < enc)
    (hr : r * rowBytes F pre ≤ b.length) (k : ℕ) :
    codeword encoding enc (row (rowBytes F pre) (b ++ .replicate k 0) r) =
      codeword encoding enc (row (rowBytes F pre) b r) := by
  rw [row_append_replicate hr]
  apply codeword_append_zeros hs
  rw [length_row, List.length_drop]
  omega

theorem take_encodedRows_append_zeros (hs : Sized encoding pre enc) (b : List UInt8) (k : ℕ) :
    (encodedRows encoding pre enc (b ++ .replicate k 0)).take (divCeil b.length (rowBytes F pre)) =
      encodedRows encoding pre enc b := by
  have hrb := rowBytes_pos (F := F) hs.pos
  have hlen : (b ++ List.replicate k (0 : UInt8)).length = b.length + k := by
    rw [List.length_append, List.length_replicate]
  apply List.ext_getElem?
  intro r
  by_cases hr : r < divCeil b.length (rowBytes F pre)
  · have hstart := (lt_divCeil_iff hrb).mp hr
    have hrk : r < divCeil (b ++ List.replicate k (0 : UInt8)).length (rowBytes F pre) := by
      rw [lt_divCeil_iff hrb, hlen]
      omega
    rw [List.getElem?_take_of_lt hr, getElem?_encodedRows hrk, getElem?_encodedRows hr,
      codeword_row_append_zeros hs.lt hstart.le]
  · rw [List.getElem?_eq_none (by rw [List.length_take]; omega),
      List.getElem?_eq_none (by rw [length_encodedRows]; omega)]

end Rows

end FileRows
