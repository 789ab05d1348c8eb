import ProofOfStorage.FileDecoding
import ProofOfStorage.FileHandlingRuns

/-! # Editing an encoded file in place

The bytes of an edit are found row by row. Each row they touch is decoded, changed and encoded
again.
-/
namespace FileEdits

open FoundationFaults FoundationRuns FoundationSlices FoundationPositionalFiles
open CommitmentTypes OnlineColumns OnlineEvaluation FileFields FileDigests FileRows FileReader
open FileDecoding FileHandlingRuns

structure EditProgress where
  originalUnencodedBytesResult : List UInt8
  currentByte : ℕ
  bytesWritten : ℕ

variable {F : Type} [Field F] [DataField F] {fft : FieldFFT F}

/-- One round of the loop. The end of the bytes is mapped from zero to the length of the row. -/
def editRow (newUnencodedData : List UInt8) (endByte : ℕ) (progress : EditProgress)
    (rowIndex : ℕ) : Reading F fft.Err EditProgress := do
  lift (assert (progress.currentByte < endByte))
  let r ← get
  let originalBytes ← lift (getUnencodedRowBytes r rowIndex)
  let rowLength := r.preEncodedSize * DataField.dataByteCapacity F
  let startOfRowByteIndex := rowIndex * r.preEncodedSize * DataField.dataByteCapacity F
  let endOfRowByteIndex := (rowIndex + 1) * r.preEncodedSize * DataField.dataByteCapacity F
  let start := max progress.currentByte startOfRowByteIndex % rowLength
  let stop := min endByte endOfRowByteIndex % rowLength
  let stop := if stop = 0 then rowLength else stop
  let replaced ← lift (slice originalBytes start stop)
  let newBytes ← lift (slice newUnencodedData progress.bytesWritten
    (progress.bytesWritten + stop - start))
  lift (assert (newBytes.length = replaced.length))
  let originalBytes := originalBytes.take start ++ newBytes ++ originalBytes.drop stop
  let newRow : List F := fromByteVec originalBytes
  lift (assert (newRow.length = r.preEncodedSize))
  lift (assert (newRow.length ≤ r.encodedSize))
  let newRow := newRow ++ .replicate (r.encodedSize - newRow.length) 0
  lift (assert (newRow.length = r.encodedSize))
  let newRow ← lift (mapErr .encode (r.encoding.encode newRow))
  replaceEncodedRow rowIndex newRow
  return {
    originalUnencodedBytesResult := progress.originalUnencodedBytesResult ++ replaced
    currentByte := progress.currentByte + (stop - start)
    bytesWritten := progress.bytesWritten + (stop - start) }

/-- The bytes that were replaced. Dividing by a row length of zero panics. -/
def editDecodedBytes (unencodedStartByte : ℕ) (newUnencodedData : List UInt8) :
    Reading F fft.Err (List UInt8) := do
  let r ← get
  let startElement := unencodedStartByte / DataField.dataByteCapacity F
  let endElement := divCeil (unencodedStartByte + newUnencodedData.length)
    (DataField.dataByteCapacity F)
  lift (assert (0 < r.preEncodedSize))
  let startRow := startElement / r.preEncodedSize
  let endRow := divCeil endElement r.preEncodedSize
  let endByte := unencodedStartByte + newUnencodedData.length
  let progress ← (List.range' startRow (endRow - startRow)).foldlM
    (editRow newUnencodedData endByte) ⟨[], unencodedStartByte, 0⟩
  return progress.originalUnencodedBytesResult

section Bytes

variable {b c d u v : List UInt8} {n t a s z : ℕ}

theorem mod_of_row (h : t * n ≤ a) (h' : a < (t + 1) * n) : a % n = a - t * n := by
  obtain ⟨k, rfl⟩ := Nat.exists_eq_add_of_le h
  rw [Nat.add_mul, Nat.one_mul] at h'
  rw [Nat.mul_add_mod', Nat.mod_eq_of_lt (by omega), Nat.add_sub_cancel_left]

theorem mod_of_row_end (h : t * n < z) (h' : z ≤ (t + 1) * n) :
    (if z % n = 0 then n else z % n) = z - t * n := by
  rw [Nat.add_mul, Nat.one_mul] at h'
  by_cases hend : z = t * n + n
  · have hzero : z % n = 0 := by
      rw [hend, Nat.add_mod_right, Nat.mul_mod_left]
    rw [if_pos hzero]
    omega
  · have hmod : z % n = z - t * n :=
      mod_of_row h.le (by rw [Nat.add_mul, Nat.one_mul]; omega)
    rw [if_neg (by omega), hmod]

theorem start_of_edit {p k : ℕ} (hta : t * (p * k) ≤ a) (h : a < (t + 1) * (p * k)) :
    max a (t * p * k) % (p * k) = a - t * (p * k) := by
  rw [Nat.mul_assoc, Nat.max_eq_left hta, mod_of_row hta h]

theorem stop_of_edit {p k stop : ℕ} (h : t * (p * k) < z) (hz : z = min stop ((t + 1) * (p * k))) :
    (if min stop ((t + 1) * p * k) % (p * k) = 0 then p * k
      else min stop ((t + 1) * p * k) % (p * k)) = z - t * (p * k) := by
  rw [Nat.mul_assoc, ← hz, mod_of_row_end h (by omega)]

theorem getElem?_splice (h : s + u.length ≤ d.length) (i : ℕ) :
    (splice d s u)[i]? = if s ≤ i ∧ i < s + u.length then u[i - s]? else d[i]? := by
  rw [← writeAt_eq_splice h]
  by_cases hin : s ≤ i ∧ i < s + u.length
  · obtain ⟨k, rfl⟩ := Nat.exists_eq_add_of_le hin.1
    rw [if_pos hin, getElem?_writeAt_inside (by omega), Nat.add_sub_cancel_left]
  · rw [if_neg hin]
    rcases Nat.lt_or_ge i d.length with hlt | hge
    · exact getElem?_writeAt_outside hlt (by omega)
    · rw [List.getElem?_eq_none hge, List.getElem?_eq_none]
      rw [writeAt_eq_splice h, length_splice h]
      exact hge

theorem splice_splice (h : s + u.length + v.length ≤ d.length) :
    splice (splice d s u) (s + u.length) v = splice d s (u ++ v) := by
  have hu : s + u.length ≤ d.length := by omega
  have huv : s + (u ++ v).length ≤ d.length := by
    rw [List.length_append]
    omega
  apply List.ext_getElem?
  intro i
  rw [getElem?_splice (by rw [length_splice hu]; exact h), getElem?_splice hu,
    getElem?_splice huv, List.length_append, List.getElem?_append]
  by_cases hsecond : s + u.length ≤ i ∧ i < s + u.length + v.length
  · rw [if_pos hsecond, if_pos (by omega), if_neg (by omega)]
    congr 1
    omega
  · rw [if_neg hsecond]
    by_cases hfirst : s ≤ i ∧ i < s + u.length
    · rw [if_pos hfirst, if_pos (by omega), if_pos (by omega)]
    · rw [if_neg hfirst, if_neg (by omega)]

theorem drop_splice (h : s + u.length ≤ d.length) :
    (splice d s u).drop (s + u.length) = d.drop (s + u.length) := by
  have hlen : (d.take s ++ u).length = s + u.length := by
    rw [List.length_append, List.length_take]
    omega
  rw [splice, List.drop_left' hlen]

theorem splice_nil (d : List UInt8) (s : ℕ) : splice d s [] = d := by
  rw [splice, List.append_nil, List.length_nil, Nat.add_zero, List.take_append_drop]

theorem row_splice (hta : t * n ≤ a) (hc : a + c.length ≤ (t + 1) * n)
    (hb : (t + 1) * n ≤ b.length) :
    row n (splice b a c) t = splice (row n b t) (a - t * n) c := by
  rw [Nat.add_mul, Nat.one_mul] at hc hb
  have hrow : (row n b t).length = n := by
    rw [length_row]
    omega
  apply List.ext_getElem?
  intro i
  rw [getElem?_splice (by rw [hrow]; omega)]
  rcases Nat.lt_or_ge i n with hi | hi
  · rw [getElem?_row hi, getElem?_row hi, getElem?_splice (by omega)]
    by_cases hin : a - t * n ≤ i ∧ i < a - t * n + c.length
    · rw [if_pos hin, if_pos (by omega)]
      congr 1
      omega
    · rw [if_neg hin, if_neg (by omega)]
  · rw [if_neg (by omega), List.getElem?_eq_none (by rw [length_row]; omega),
      List.getElem?_eq_none (by rw [hrow]; exact hi)]

theorem row_splice_of_ne (hta : t * n ≤ a) (hc : a + c.length ≤ (t + 1) * n)
    (hb : (t + 1) * n ≤ b.length) {i : ℕ} (hi : i ≠ t) :
    row n (splice b a c) i = row n b i := by
  apply row_congr
  intro k hk
  rw [getElem?_splice (by omega), if_neg]
  rintro ⟨hlo, hhi⟩
  rcases Nat.lt_or_gt_of_ne hi with hlt | hgt
  · have hmul := Nat.mul_le_mul_right n (show i + 1 ≤ t from hlt)
    rw [Nat.add_mul, Nat.one_mul] at hmul
    omega
  · have hmul := Nat.mul_le_mul_right n (show t + 1 ≤ i from hgt)
    omega

theorem slice_row {ε : Type} (hta : t * n ≤ a) (haz : a ≤ z) (hz : z ≤ (t + 1) * n)
    (hb : (t + 1) * n ≤ b.length) :
    (slice (row n b t) (a - t * n) (z - t * n) : Fallible ε _) =
      .ok ((b.drop a).take (z - a)) := by
  rw [Nat.add_mul, Nat.one_mul] at hz hb
  rw [slice_eq_ok, length_row]
  refine ⟨by omega, by omega, ?_⟩
  have hcut : a = t * n + (a - t * n) := by omega
  rw [row, List.take_take, Nat.min_eq_left (by omega), List.drop_take, List.drop_drop, ← hcut]
  congr 1
  omega

theorem lt_divCeil_of_full {R : ℕ} (hn : 0 < n) (hlen : b.length = R * n) (ht : t < R) :
    t < divCeil b.length n := by
  rw [hlen, divCeil_mul R hn]
  exact ht

end Bytes

section Rounds

variable {pre enc R t a z : ℕ} {b b' : List UInt8} {r : EncodedFileReader F fft.Err}

theorem getUnencodedRowBytes_full (hinv : Inverts fft r.encoding)
    (h : Stores pre enc (encodedRows r.encoding pre enc b) r)
    (hlen : b.length = R * rowBytes F pre) (ht : t < R) :
    getUnencodedRowBytes r t = .ok (row (rowBytes F pre) b t) := by
  have hrb := rowBytes_pos (F := F) h.sized.pos
  have htc := lt_divCeil_of_full hrb hlen ht
  rw [getUnencodedRowBytes_of_stores hinv h htc, decodedBytes_eq_row h.sized.pos htc, hlen,
    divCeil_mul R hrb, Nat.sub_self, List.replicate_zero, List.append_nil]

theorem putRow_encodedRows {encoding : LcEncoding F fft.Err} (hlen : b'.length = b.length)
    (ht : t < divCeil b.length (rowBytes F pre))
    (h : ∀ i, i ≠ t → row (rowBytes F pre) b' i = row (rowBytes F pre) b i) :
    putRow (encodedRows encoding pre enc b) t
      (codeword encoding enc (row (rowBytes F pre) b' t)) = encodedRows encoding pre enc b' := by
  have hle : t ≤ (encodedRows encoding pre enc b).length := by
    rw [length_encodedRows]
    exact ht.le
  have hput := length_putRow (codeword encoding enc (row (rowBytes F pre) b' t)) hle
  rw [if_neg (by rw [length_encodedRows]; exact ht.ne), length_encodedRows] at hput
  apply List.ext_getElem?
  intro i
  rcases Nat.lt_or_ge i (divCeil b.length (rowBytes F pre)) with hi | hi
  · have hnext : (encodedRows encoding pre enc b')[i]? =
        some (codeword encoding enc (row (rowBytes F pre) b' i)) :=
      getElem?_encodedRows (by rw [hlen]; exact hi)
    rw [getElem?_putRow _ hle (by rw [hput]; exact hi), hnext]
    by_cases heq : i = t
    · rw [if_pos heq, heq]
    · rw [if_neg heq, getElem?_encodedRows hi, h i heq]
  · rw [List.getElem?_eq_none (by rw [hput]; exact hi),
      List.getElem?_eq_none (by rw [length_encodedRows, hlen]; exact hi)]

theorem replaceEncodedRow_splice (h : Stores pre enc (encodedRows r.encoding pre enc b) r)
    (hlen : b.length = R * rowBytes F pre) (ht : t < R) {u : List UInt8}
    (hta : t * rowBytes F pre ≤ a) (hfits : a + u.length ≤ (t + 1) * rowBytes F pre) :
    Runs (replaceEncodedRow t (codeword r.encoding enc (row (rowBytes F pre) (splice b a u) t))) r
      fun _ r' => Stores pre enc (encodedRows r.encoding pre enc (splice b a u)) r' ∧
        r'.encoding = r.encoding ∧ r'.rowCapacity = r.rowCapacity := by
  have hrb := rowBytes_pos (F := F) h.sized.pos
  have hb : (t + 1) * rowBytes F pre ≤ b.length := by
    rw [hlen]
    exact Nat.mul_le_mul_right _ ht
  have hlen' : (splice b a u).length = b.length := length_splice (hfits.trans hb)
  have hwidth : (row (rowBytes F pre) (splice b a u) t).length = rowBytes F pre :=
    length_row_of_le (hlen'.trans hlen) ht
  have htc := lt_divCeil_of_full hrb hlen ht
  have hrows : t < (encodedRows r.encoding pre enc b).length := by
    rw [length_encodedRows]
    exact htc
  refine (h.replaceEncodedRow hrows.le (lt_of_lt_of_le hrows h.capacity)
    (h.sized.length_codeword hwidth.le)).mono ?_
  rintro _ r' ⟨hstores, hencoding, hcapacity⟩
  rw [putRow_encodedRows hlen' htc fun i hi => row_splice_of_ne hta hfits hb hi] at hstores
  exact ⟨hstores, hencoding, hcapacity⟩

/-- One round replaces the bytes from `a` to `z`, all in one row, in the bytes that the file
encodes. -/
theorem editRow_of_stores (hinv : Inverts fft r.encoding)
    (h : Stores pre enc (encodedRows r.encoding pre enc b) r)
    (hlen : b.length = R * rowBytes F pre) (ht : t < R) {data u result : List UInt8}
    {stop k : ℕ} (hta : t * rowBytes F pre ≤ a) (haz : a < z)
    (hz : z = min stop ((t + 1) * rowBytes F pre)) (hu : (data.drop k).take (z - a) = u)
    (hk : k + (z - a) ≤ data.length) :
    Runs (editRow data stop ⟨result, a, k⟩ t) r fun progress r' =>
      Stores pre enc (encodedRows r.encoding pre enc (splice b a u)) r' ∧
      r'.encoding = r.encoding ∧ r'.rowCapacity = r.rowCapacity ∧
      progress = ⟨result ++ (b.drop a).take (z - a), a + (z - a), k + (z - a)⟩ := by
  have hzle : z ≤ (t + 1) * rowBytes F pre := by omega
  have hb : (t + 1) * rowBytes F pre ≤ b.length := by
    rw [hlen]
    exact Nat.mul_le_mul_right _ ht
  have hnew : u.length = z - a := by
    rw [← hu, List.length_take, List.length_drop]
    omega
  have hfits : a + u.length ≤ (t + 1) * rowBytes F pre := by omega
  have hbytes := getUnencodedRowBytes_full hinv h hlen ht
  -- the bounds of the bytes inside the row, and the bytes on both sides
  have hstart : max a (t * pre * DataField.dataByteCapacity F) %
      (pre * DataField.dataByteCapacity F) = a - t * rowBytes F pre :=
    start_of_edit hta (lt_of_lt_of_le haz hzle)
  have hstop : (if min stop ((t + 1) * pre * DataField.dataByteCapacity F) %
      (pre * DataField.dataByteCapacity F) = 0 then pre * DataField.dataByteCapacity F
      else min stop ((t + 1) * pre * DataField.dataByteCapacity F) %
        (pre * DataField.dataByteCapacity F)) = z - t * rowBytes F pre :=
    stop_of_edit (lt_of_le_of_lt hta haz) hz
  have hspan : z - t * rowBytes F pre - (a - t * rowBytes F pre) = z - a := by omega
  have hspan' : k + (z - t * rowBytes F pre) - (a - t * rowBytes F pre) = k + (z - a) := by omega
  have hreplaced : (slice (row (rowBytes F pre) b t) (a - t * rowBytes F pre)
      (z - t * rowBytes F pre) : Fallible (FileError fft.Err) _) = .ok ((b.drop a).take (z - a)) :=
    slice_row hta haz.le hzle hb
  have hnewBytes : (slice data k (k + (z - a)) : Fallible (FileError fft.Err) _) = .ok u := by
    rw [slice_eq_ok]
    refine ⟨by omega, hk, ?_⟩
    rw [List.drop_take, Nat.add_sub_cancel_left, hu]
  have hold : ((b.drop a).take (z - a)).length = z - a := by
    rw [List.length_take, List.length_drop]
    omega
  -- the row with the new bytes, and its codeword
  have hrow : (row (rowBytes F pre) b t).take (a - t * rowBytes F pre) ++ u ++
      (row (rowBytes F pre) b t).drop (z - t * rowBytes F pre) =
      row (rowBytes F pre) (splice b a u) t := by
    rw [row_splice hta hfits hb, splice, hnew]
    congr 2
    omega
  have hwidth : (row (rowBytes F pre) (splice b a u) t).length = rowBytes F pre :=
    length_row_of_le ((length_splice (hfits.trans hb)).trans hlen) ht
  have hcount : (fromByteVec (row (rowBytes F pre) (splice b a u) t) : List F).length = pre :=
    length_fromByteVec_full hwidth
  have hencode := h.sized.encode_paddedElements hwidth.le
  have hlength := length_paddedElements (F := F) h.sized.lt hwidth.le
  rw [paddedElements_full hwidth] at hencode hlength
  unfold editRow
  simp only [runs_bind, runs_lift, runs_get, runs_pure, assert_eq_ok, exists_const, hbytes,
    h.preEncodedSize_eq, h.encodedSize_eq, hstart, hstop, Except.ok.injEq, exists_eq_left',
    hreplaced, hspan, hspan', hnewBytes, hrow, hcount, hnew, hold, hlength]
  refine ⟨by omega, trivial, trivial, h.sized.lt.le, trivial, _, mapErr_eq_ok.mpr hencode, ?_⟩
  refine (replaceEncodedRow_splice h hlen ht hta hfits).mono ?_
  rintro _ r' ⟨hstores, hencoding, hcapacity⟩
  exact ⟨hstores, hencoding, hcapacity, trivial⟩

def reached (s e n t : ℕ) : ℕ := max s (min e (t * n))

/-- Before row `t` the first bytes of the edit are in the file, and those they replaced have been
collected. -/
structure Edited (encoding : LcEncoding F fft.Err) (pre enc cap : ℕ) (d data : List UInt8)
    (s t : ℕ) (progress : EditProgress) (r : EncodedFileReader F fft.Err) : Prop where
  encoding_eq : r.encoding = encoding
  rowCapacity_eq : r.rowCapacity = cap
  stores : Stores pre enc (encodedRows encoding pre enc (splice d s (data.take
    (reached s (s + data.length) (rowBytes F pre) t - s)))) r
  progress_eq : progress = ⟨(d.drop s).take
      (reached s (s + data.length) (rowBytes F pre) t - s),
    reached s (s + data.length) (rowBytes F pre) t,
    reached s (s + data.length) (rowBytes F pre) t - s⟩

section Edit

variable {encoding : LcEncoding F fft.Err} {cap s : ℕ} {d data : List UInt8}
  {progress : EditProgress}

theorem Edited.step (hinv : Inverts fft encoding)
    (h : Edited encoding pre enc cap d data s t progress r)
    (hlen : d.length = R * rowBytes F pre) (hle : s + data.length ≤ d.length)
    (hs : s < (t + 1) * rowBytes F pre) (ht : t * rowBytes F pre < s + data.length)
    (hne : data ≠ []) :
    Runs (editRow data (s + data.length) progress t) r
      (Edited encoding pre enc cap d data s (t + 1)) := by
  obtain ⟨rfl, rfl, hstores, rfl⟩ := h
  have hpos := List.length_pos_iff.mpr hne
  have hnext : t * rowBytes F pre < (t + 1) * rowBytes F pre :=
    Nat.mul_lt_mul_of_pos_right (Nat.lt_succ_self t) (rowBytes_pos hstores.sized.pos)
  have hrow : t < R := Nat.lt_of_mul_lt_mul_right (lt_of_lt_of_le ht (hlen ▸ hle))
  -- the edit covers the bytes `a` to `z` of this row
  obtain ⟨a, ha⟩ : ∃ a, reached s (s + data.length) (rowBytes F pre) t = a := ⟨_, rfl⟩
  obtain ⟨z, hz⟩ : ∃ z, reached s (s + data.length) (rowBytes F pre) (t + 1) = z := ⟨_, rfl⟩
  rw [ha] at hstores ⊢
  unfold reached at ha hz
  have hsa : s ≤ a := by omega
  have haz : a < z := by omega
  have hzs : z ≤ s + data.length := by omega
  have hzmin : z = min (s + data.length) ((t + 1) * rowBytes F pre) := by omega
  have hta : t * rowBytes F pre ≤ a := by omega
  have hsum : a - s + (z - a) = z - s := by omega
  have hcut : s + (data.take (a - s)).length = a := by
    rw [List.length_take]
    omega
  have hdone : s + (data.take (a - s)).length ≤ d.length := by omega
  have hlen' := (length_splice hdone).trans hlen
  refine (editRow_of_stores hinv hstores hlen' hrow hta haz hzmin rfl (by omega)).mono ?_
  rintro _ r' ⟨hstores', hencoding, hcapacity, rfl⟩
  have hsplice : splice (splice d s (data.take (a - s))) a ((data.drop (a - s)).take (z - a)) =
      splice d s (data.take (z - s)) := by
    have htwo := @splice_splice d (data.take (a - s)) ((data.drop (a - s)).take (z - a)) s
    rw [hcut, List.length_take, List.length_drop, ← List.take_add, hsum] at htwo
    exact htwo (by omega)
  have hbytes : (d.drop s).take (a - s) ++
      ((splice d s (data.take (a - s))).drop a).take (z - a) = (d.drop s).take (z - s) := by
    have hdrop := drop_splice hdone
    rw [hcut] at hdrop
    rw [hdrop, ← hsum, List.take_add, List.drop_drop, Nat.add_sub_cancel' hsa]
  rw [hsplice] at hstores'
  refine ⟨hencoding, hcapacity, ?_, ?_⟩
  · unfold reached
    rw [hz]
    exact hstores'
  · unfold reached
    rw [hz, hbytes, Nat.add_sub_cancel' haz.le, hsum]

/-- The edit goes through the rows it touches, and nothing is left when the last one is done. -/
theorem editDecodedBytes_of_stores (hinv : Inverts fft r.encoding)
    (h : Stores pre enc (encodedRows r.encoding pre enc d) r)
    (hlen : d.length = R * rowBytes F pre) (hne : data ≠ []) (hle : s + data.length ≤ d.length) :
    Runs (editDecodedBytes s data) r fun replaced r' =>
      replaced = (d.drop s).take data.length ∧
      Stores pre enc (encodedRows r.encoding pre enc (splice d s data)) r' ∧
      r'.encoding = r.encoding ∧ r'.rowCapacity = r.rowCapacity := by
  have hrb := rowBytes_pos (F := F) h.sized.pos
  have hstart : s / DataField.dataByteCapacity F / pre = s / rowBytes F pre := by
    rw [Nat.div_div_eq_div_mul, Nat.mul_comm]
    rfl
  have hend : divCeil (divCeil (s + data.length) (DataField.dataByteCapacity F)) pre =
      divCeil (s + data.length) (rowBytes F pre) :=
    divCeil_divCeil _ DataField.capacity_pos h.sized.pos
  have hspan : s / rowBytes F pre ≤ divCeil (s + data.length) (rowBytes F pre) :=
    le_trans (Nat.div_le_div_right (Nat.le_add_right _ _)) (div_le_divCeil _ _)
  have hfirst : reached s (s + data.length) (rowBytes F pre) (s / rowBytes F pre) = s := by
    have hbegin := Nat.div_mul_le_self s (rowBytes F pre)
    unfold reached
    omega
  have hlast : reached s (s + data.length) (rowBytes F pre)
      (divCeil (s + data.length) (rowBytes F pre)) = s + data.length := by
    have hover := le_divCeil_mul (s + data.length) hrb
    unfold reached
    omega
  unfold editDecodedBytes
  simp only [runs_bind, runs_lift, runs_get, runs_pure, assert_eq_ok, exists_const,
    h.preEncodedSize_eq, hstart, hend]
  refine ⟨h.sized.pos, ?_⟩
  refine (runs_foldlM (fun seen => Edited r.encoding pre enc r.rowCapacity d data s
    (s / rowBytes F pre + seen.length)) ?_ ?_).mono ?_
  · intro seen t progress r' hprefix hedited
    obtain ⟨hlt, rfl⟩ := range'_prefix hprefix
    rw [List.length_append, List.length_singleton, ← Nat.add_assoc]
    refine hedited.step hinv hlen hle ?_ ?_ hne
    · exact (Nat.div_lt_iff_lt_mul hrb).mp (by omega)
    · exact (lt_divCeil_iff hrb).mp (by omega)
  · refine ⟨rfl, rfl, ?_, ?_⟩
    · rw [List.length_nil, Nat.add_zero, hfirst, Nat.sub_self, List.take_zero, splice_nil]
      exact h
    · rw [List.length_nil, Nat.add_zero, hfirst, Nat.sub_self, List.take_zero]
  · rintro progress r' ⟨hencoding, hcapacity, hstores, rfl⟩
    rw [List.length_range', Nat.add_sub_cancel' hspan, hlast, Nat.add_sub_cancel_left] at hstores ⊢
    rw [List.take_length] at hstores
    exact ⟨rfl, hstores, hencoding, hcapacity⟩

end Edit

end Rounds

omit [Field F] [DataField F] in
theorem eq_withFile {r r' : EncodedFileReader F fft.Err} (hencoding : r'.encoding = r.encoding)
    (hpre : r'.preEncodedSize = r.preEncodedSize) (henc : r'.encodedSize = r.encodedSize)
    (hrows : r'.rowsWritten = r.rowsWritten) (hcap : r'.rowCapacity = r.rowCapacity) :
    r' = { r with fileToRead := r'.fileToRead } := by
  rw [← hencoding, ← hpre, ← henc, ← hrows, ← hcap]

/-- Editing the encoded file is editing the data: the replaced bytes come back, the file holds the
encoding of the edited data, and the cells of the rows outside the range are as they were. -/
theorem edited_file_eq {fft : FieldFFT WriteableFt63} (hinverse : ∀ {len pc v w},
      fft.precompFft len = .ok pc → fft.fftIoPc pc v = .ok w → fft.ifftOi w = .ok v)
    {r : EncodedFileReader WriteableFt63 fft.Err} {d e : List UInt8} {s : ℕ}
    (hencoding : (newFromDims fft r.preEncodedSize r.encodedSize :
      Fallible (FileError fft.Err) _) = .ok r.encoding)
    (hd : d.length = r.rowsWritten * r.preEncodedSize * 7) (hcap : r.rowsWritten ≤ r.rowCapacity)
    (hfile : HoldsRows reprBytes 8 r.rowCapacity r.encodedSize r.fileToRead
      (encodedRows r.encoding r.preEncodedSize r.encodedSize d))
    (he : e ≠ []) (hle : s + e.length ≤ d.length) :
    Runs (editDecodedBytes s e) r fun replaced r' =>
      replaced = (d.drop s).take e.length ∧ r' = { r with fileToRead := r'.fileToRead } ∧
      HoldsRows reprBytes 8 r.rowCapacity r.encodedSize r'.fileToRead
        (encodedRows r.encoding r.preEncodedSize r.encodedSize (splice d s e)) ∧
      ∀ t < r.rowsWritten, (t + 1) * (r.preEncodedSize * 7) ≤ s ∨
        s + e.length ≤ t * (r.preEncodedSize * 7) → ∀ c < r.encodedSize,
        readAt r'.fileToRead (cellOffset 8 r.rowCapacity c t) 8 =
          readAt r.fileToRead (cellOffset 8 r.rowCapacity c t) 8 := by
  have hlen : d.length = r.rowsWritten * rowBytes WriteableFt63 r.preEncodedSize := by
    rw [hd, Nat.mul_assoc]
    rfl
  have hlen' := length_splice hle
  have hpos : 0 < r.preEncodedSize := by
    have := List.length_pos_iff.mpr he
    refine Nat.pos_of_ne_zero fun hzero => ?_
    rw [hzero, Nat.mul_zero, Nat.zero_mul] at hd
    omega
  have hrows : divCeil d.length (rowBytes WriteableFt63 r.preEncodedSize) = r.rowsWritten := by
    rw [hlen, divCeil_mul _ (rowBytes_pos hpos)]
  have hcount := length_encodedRows r.encoding r.preEncodedSize r.encodedSize d
  rw [hrows] at hcount
  have hstores : Stores r.preEncodedSize r.encodedSize
      (encodedRows r.encoding r.preEncodedSize r.encodedSize d) r :=
    ⟨.of_newFromDims hpos hencoding, rfl, rfl, hcount.symm, hcount.symm ▸ hcap, hfile⟩
  refine (editDecodedBytes_of_stores (inverts_of_newFromDims hinverse hencoding) hstores hlen he
    hle).mono ?_
  rintro replaced r' ⟨hreplaced, hstores', hencoding', hcap'⟩
  have hfile' := hstores'.stored
  rw [hcap'] at hfile'
  refine ⟨hreplaced, ?_, hfile', ?_⟩
  · have hrows' := hstores'.rowsWritten_eq
    rw [length_encodedRows, hlen', hrows] at hrows'
    exact eq_withFile hencoding' hstores'.preEncodedSize_eq hstores'.encodedSize_eq hrows' hcap'
  · intro t ht hout c hc
    have hsame : row (rowBytes WriteableFt63 r.preEncodedSize) (splice d s e) t =
        row (rowBytes WriteableFt63 r.preEncodedSize) d t := by
      rcases hout with hbefore | hafter
      · exact row_splice_before hle ((Nat.le_div_iff_mul_le (rowBytes_pos hpos)).mpr hbefore)
      · exact row_splice_after (rowBytes_pos hpos) hle
          ((divCeil_le_iff (rowBytes_pos hpos)).mpr hafter)
    have hget : (encodedRows r.encoding r.preEncodedSize r.encodedSize d)[t]? = some _ :=
      getElem?_encodedRows (hrows.symm ▸ ht)
    have hget' : (encodedRows r.encoding r.preEncodedSize r.encodedSize (splice d s e))[t]? =
        some _ := getElem?_encodedRows (by rw [hlen', hrows]; exact ht)
    rw [hsame] at hget'
    exact (hfile' t _ hget' c hc).readAt_eq.trans (hfile t _ hget c hc).readAt_eq.symm

theorem edited_file_eq_small :
    ∃ r : EncodedFileReader WriteableFt63 (pairTransform WriteableFt63).Err,
    r.preEncodedSize = 1 ∧ r.encodedSize = 2 ∧ r.rowsWritten = 2 ∧
    Runs (editDecodedBytes 5 [50, 60, 70, 80]) r fun replaced r' => replaced = [6, 7, 8, 9] ∧
      HoldsRows reprBytes 8 3 2 r'.fileToRead (encodedRows r.encoding 1 2
        [1, 2, 3, 4, 5, 50, 60, 70, 80, 10, 11, 12, 13, 14]) := by
  let d : List UInt8 := [1, 2, 3, 4, 5, 6, 7, 8, 9, 10, 11, 12, 13, 14]
  let x : WriteableFt63 := DataField.fromDataBytes (padded _ [1, 2, 3, 4, 5, 6, 7])
  let y : WriteableFt63 := DataField.fromDataBytes (padded _ [8, 9, 10, 11, 12, 13, 14])
  let r : EncodedFileReader WriteableFt63 (pairTransform WriteableFt63).Err :=
    ⟨ligeroEncoding (pairTransform WriteableFt63) 1 2 (), [x, y, 0, x, y, 0].flatMap reprBytes,
      1, 2, 2, 3⟩
  have hrows : encodedRows r.encoding 1 2 d = [[x, x], [y, y]] := by
    have hx := codeword_pairTransform (show fromByteVec [1, 2, 3, 4, 5, 6, 7] = [x] from rfl)
    have hy := codeword_pairTransform (show fromByteVec [8, 9, 10, 11, 12, 13, 14] = [y] from rfl)
    have hchunks : chunks (rowBytes WriteableFt63 1) d =
        [[1, 2, 3, 4, 5, 6, 7], [8, 9, 10, 11, 12, 13, 14]] := by decide
    rw [encodedRows, hchunks, List.map_cons, List.map_singleton, hx, hy]
  have htwo : (2 : WriteableFt63) ≠ 0 := by decide
  have hedit := edited_file_eq (r := r) (d := d) (e := [50, 60, 70, 80]) (s := 5)
    (fun _ => pairTransform_inverse htwo) rfl rfl (by decide)
    (by rw [hrows]; exact holdsRows_two_rows x y) (by decide) (by decide)
  refine ⟨r, rfl, rfl, rfl, hedit.mono ?_⟩
  rintro replaced r' ⟨rfl, -, hfile, -⟩
  exact ⟨rfl, hfile⟩

end FileEdits
