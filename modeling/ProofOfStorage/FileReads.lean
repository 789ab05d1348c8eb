import ProofOfStorage.FileFields
import ProofOfStorage.FoundationBufReaders

/-! # Reading a file into field elements

Every read fills one element. A read that stops short of the element is taken for the end of
the file and padded, wherever in the file it is.
-/
namespace FileReads

open FoundationSlices FoundationBufReaders FileFields
open DataField

/-- An open file, as the pieces in which requests for `capacity` bytes are answered. -/
structure SplitFile (capacity : ℕ) where
  pieces : List (List UInt8)
  ne_nil : ∀ piece ∈ pieces, piece ≠ []
  length_le : ∀ piece ∈ pieces, piece.length ≤ capacity

def SplitFile.contents {capacity : ℕ} (file : SplitFile capacity) : List UInt8 :=
  file.pieces.flatten

def overwrite {n : ℕ} (buffer : Vector UInt8 n) (bytes : List UInt8) : Vector UInt8 n :=
  .ofFn fun i => bytes.getD i (buffer.get i)

def zeroFrom {n : ℕ} (bytesRead : ℕ) (buffer : Vector UInt8 n) : Vector UInt8 n :=
  .ofFn fun i => if i < bytesRead then buffer.get i else 0

variable {F : Type} [Field F] [DataField F]

def bufSize (F : Type) [Field F] [DataField F] : ℕ := 1000 * dataByteCapacity F

/-- The loop of both readers; an empty read is the end of the file. -/
def readLoop (reader : BufReader UInt8) (buffer : Vector UInt8 (dataByteCapacity F))
    (fieldVec : List F) : List F :=
  let got := reader.read (dataByteCapacity F)
  if _h : got.1 = [] then fieldVec
  else
    let bytesRead := got.1.length
    let buffer := overwrite buffer got.1
    let buffer := if bytesRead < dataByteCapacity F then zeroFrom bytesRead buffer else buffer
    readLoop got.2 buffer (fieldVec ++ [fromDataBytes buffer])
termination_by reader.left
decreasing_by exact BufReader.left_lt _h

def streamFileToFieldElementsVec (file : SplitFile (bufSize F)) : ℕ × List F :=
  let fileSize := file.contents.length
  let reader := ⟨[], file.pieces⟩
  (fileSize, readLoop reader (.replicate _ 0) [])

def streamFileToFieldElementsVecSync (file : SplitFile (bufSize F)) : ℕ × List F :=
  let fileSize := file.contents.length
  let reader := ⟨[], file.pieces⟩
  (fileSize, readLoop reader (.replicate _ 0) [])

section Loop

theorem buffer_eq {n : ℕ} (buffer : Vector UInt8 n) (bytes : List UInt8) :
    (if bytes.length < n then zeroFrom bytes.length (overwrite buffer bytes)
      else overwrite buffer bytes) = padded n bytes := by
  ext i hi
  by_cases hshort : bytes.length < n
  · by_cases hread : i < bytes.length
    · have hget : (overwrite buffer bytes).get ⟨i, hi⟩ = bytes[i] := by
        show (overwrite buffer bytes)[i] = bytes[i]
        simp [overwrite, hread]
      simp [hshort, zeroFrom, padded, hread, hget]
    · simp [hshort, zeroFrom, padded, hread]
  · have hread : i < bytes.length := by omega
    simp [hshort, overwrite, padded, hread]

theorem readLoop_eq (reader : BufReader UInt8) (buffer : Vector UInt8 (dataByteCapacity F))
    (fieldVec : List F) : readLoop reader buffer fieldVec = fieldVec ++
      (reader.reads (dataByteCapacity F)).map fun bytes => fromDataBytes (padded _ bytes) := by
  induction hleft : reader.left using Nat.strong_induction_on generalizing reader buffer fieldVec
    with
  | h k ih =>
    rw [readLoop]
    by_cases hread : (reader.read (dataByteCapacity F)).1 = []
    · simp [hread, BufReader.reads_of_nil hread]
    · have hlt := BufReader.left_lt hread
      simp only [hread, dite_false, buffer_eq]
      rw [ih _ (hleft ▸ hlt) _ _ _ rfl, BufReader.reads_of_ne_nil hread]
      simp

theorem readLoop_pieces {capacity : ℕ} (file : SplitFile capacity)
    (buffer : Vector UInt8 (dataByteCapacity F)) :
    readLoop ⟨[], file.pieces⟩ buffer [] = (file.pieces.flatMap fromByteVec : List F) := by
  rw [readLoop_eq, BufReader.reads_eq capacity_pos file.ne_nil, chunks_nil capacity_pos]
  simp only [List.nil_append, List.map_flatMap]
  rfl

end Loop

/-- The pieces hold as many elements as the whole, and all bytes behind the first piece that
ends inside an element are zero. -/
structure SplitHarmless (capacity : ℕ) (pieces : List (List UInt8)) : Prop where
  count : (pieces.map fun piece => divCeil piece.length capacity).sum =
    divCeil pieces.flatten.length capacity
  zeros : ∀ byte ∈ (pieces.dropWhile fun piece => capacity ∣ piece.length).tail.flatten, byte = 0

section Pieces

variable {capacity : ℕ} {piece : List UInt8} {pieces : List (List UInt8)}

theorem harmless_nil (hcap : 0 < capacity) : SplitHarmless capacity [] := by
  exact ⟨by simp [divCeil_zero hcap], by simp⟩

theorem harmless_cons_of_dvd (hcap : 0 < capacity) (h : capacity ∣ piece.length) :
    SplitHarmless capacity (piece :: pieces) ↔ SplitHarmless capacity pieces := by
  have hsum : divCeil (piece :: pieces).flatten.length capacity =
      divCeil piece.length capacity + divCeil pieces.flatten.length capacity := by
    have hchunks := congrArg List.length (chunks_append hcap h pieces.flatten)
    simpa using hchunks
  constructor
  · rintro ⟨hcount, hzeros⟩
    rw [hsum, List.map_cons, List.sum_cons] at hcount
    exact ⟨by omega, by simpa [List.dropWhile_cons, h] using hzeros⟩
  · rintro ⟨hcount, hzeros⟩
    refine ⟨?_, by simpa [List.dropWhile_cons, h] using hzeros⟩
    rw [hsum, List.map_cons, List.sum_cons, hcount]

theorem harmless_cons_of_not_dvd (h : ¬capacity ∣ piece.length) :
    SplitHarmless capacity (piece :: pieces) ↔
      ((piece :: pieces).map fun piece => divCeil piece.length capacity).sum =
        divCeil (piece :: pieces).flatten.length capacity ∧
      ∀ byte ∈ pieces.flatten, byte = 0 := by
  have htail :
      ((piece :: pieces).dropWhile fun piece => capacity ∣ piece.length).tail = pieces := by
    simp [h]
  constructor
  · rintro ⟨hcount, hzeros⟩
    exact ⟨hcount, htail ▸ hzeros⟩
  · rintro ⟨hcount, hzeros⟩
    exact ⟨hcount, by rwa [htail]⟩

theorem harmless_of_full (hcap : 0 < capacity)
    (h : ∀ piece ∈ pieces.dropLast, capacity ∣ piece.length) : SplitHarmless capacity pieces := by
  induction pieces with
  | nil => exact harmless_nil hcap
  | cons piece pieces ih =>
    by_cases hlast : pieces = []
    · subst hlast
      refine ⟨by simp, ?_⟩
      by_cases hdvd : capacity ∣ piece.length
      · simp [hdvd]
      · simp [hdvd]
    · rw [List.dropLast_cons_of_ne_nil hlast, List.forall_mem_cons] at h
      exact (harmless_cons_of_dvd hcap h.1).mpr (ih h.2)

end Pieces

section Bytes

variable {piece : List UInt8} {pieces : List (List UInt8)}

theorem fromByteVec_zeros (k : ℕ) : (fromByteVec (.replicate k 0) : List F) =
    .replicate (divCeil k (dataByteCapacity F)) 0 := by
  have hzeros := fromByteVec_append_zeros (F := F) [] k
  have hnone : divCeil 0 (dataByteCapacity F) = 0 := divCeil_zero capacity_pos
  simpa [fromByteVec_nil, hnone] using hzeros

theorem flatMap_fromByteVec_zeros (h : ∀ byte ∈ pieces.flatten, byte = 0) :
    (pieces.flatMap fromByteVec : List F) =
      .replicate (pieces.map fun piece => divCeil piece.length (dataByteCapacity F)).sum 0 := by
  induction pieces with
  | nil => rfl
  | cons piece pieces ih =>
    rw [List.flatten_cons, List.forall_mem_append] at h
    have hpiece : piece = .replicate piece.length 0 := List.eq_replicate_iff.mpr ⟨rfl, h.1⟩
    rw [List.flatMap_cons, ih h.2, hpiece, fromByteVec_zeros, List.replicate_append_replicate]
    simp

theorem padded_pieces_getD (pieces : List (List UInt8)) (j : ℕ) :
    (fieldVecToByteVec (pieces.flatMap fromByteVec : List F)).getD j 0 = 0 ∨
      ∃ j' ≤ j, (fieldVecToByteVec (pieces.flatMap fromByteVec : List F)).getD j 0 =
        pieces.flatten.getD j' 0 := by
  induction pieces generalizing j with
  | nil => exact .inl rfl
  | cons piece pieces ih =>
    rw [List.flatMap_cons, fieldVecToByteVec_append, fieldVecToByteVec_eq, List.flatten_cons]
    set pad := divCeil piece.length (dataByteCapacity F) * dataByteCapacity F - piece.length
    by_cases hpadded : j < piece.length + pad
    · rw [List.getD_append _ _ _ _ (by simpa using hpadded), getD_append_zeros]
      by_cases hpiece : j < piece.length
      · exact .inr ⟨j, le_rfl, (List.getD_append _ _ _ _ hpiece).symm⟩
      · exact .inl (List.getD_eq_default _ _ (by omega))
    · rw [List.getD_append_right _ _ _ _ (by simpa using hpadded)]
      rcases ih (j - (piece ++ List.replicate pad 0).length) with hzero | ⟨j', hle, heq⟩
      · exact .inl hzero
      · rw [List.length_append, List.length_replicate] at hle
        refine .inr ⟨piece.length + j', by omega, ?_⟩
        rw [heq, List.getD_append_right _ _ _ _ (Nat.le_add_right _ _), Nat.add_sub_cancel_left]

/-- Bytes that agree with a later shift of themselves, behind zeros, are zeros. -/
theorem eq_zero_of_shifted {bytes shifted : List UInt8} {k : ℕ} (hk : 0 < k)
    (heq : ∀ i, bytes.getD i 0 = (List.replicate k 0 ++ shifted).getD i 0)
    (hshift : ∀ j, shifted.getD j 0 = 0 ∨ ∃ j' ≤ j, shifted.getD j 0 = bytes.getD j' 0) :
    ∀ byte ∈ bytes, byte = 0 := by
  have hall : ∀ i, bytes.getD i 0 = 0 := by
    intro i
    induction i using Nat.strong_induction_on with
    | h i ih =>
      rw [heq]
      by_cases hi : i < k
      · rw [List.getD_append _ _ _ _ (by simpa using hi), getD_replicate_zero]
      · rw [List.getD_append_right _ _ _ _ (by simpa using hi), List.length_replicate]
        rcases hshift (i - k) with hzero | ⟨j, hle, hj⟩
        · exact hzero
        · rw [hj]
          exact ih j (by omega)
  intro byte hbyte
  obtain ⟨i, hi, rfl⟩ := List.getElem_of_mem hbyte
  rw [← List.getD_eq_getElem bytes 0 hi, hall i]

theorem zeros_of_eq (hdvd : ¬dataByteCapacity F ∣ piece.length)
    (heq : (fromByteVec piece ++ pieces.flatMap fromByteVec : List F) =
      fromByteVec (piece ++ pieces.flatten)) : ∀ byte ∈ pieces.flatten, byte = 0 := by
  have hpad : 0 < divCeil piece.length (dataByteCapacity F) * dataByteCapacity F -
      piece.length := by
    have hle := le_divCeil_mul piece.length (capacity_pos (F := F))
    have hne : divCeil piece.length (dataByteCapacity F) * dataByteCapacity F ≠ piece.length :=
      fun h => hdvd ⟨_, by rw [Nat.mul_comm]; exact h.symm⟩
    omega
  apply eq_zero_of_shifted hpad _ (padded_pieces_getD (F := F) pieces)
  intro i
  have hbytes := congrArg (fun xs => (fieldVecToByteVec xs).getD (piece.length + i) 0) heq
  simp only [fieldVecToByteVec_append, fieldVecToByteVec_eq piece,
    fieldVecToByteVec_fromByteVec, List.append_assoc] at hbytes
  rw [List.getD_append_right _ _ _ _ (Nat.le_add_right _ _),
    List.getD_append_right _ _ _ _ (Nat.le_add_right _ _), Nat.add_sub_cancel_left] at hbytes
  exact hbytes.symm

/-- Converting piece by piece is converting the whole if and only if the split is harmless. -/
theorem flatMap_fromByteVec_eq_iff :
    (pieces.flatMap fromByteVec : List F) = fromByteVec pieces.flatten ↔
      SplitHarmless (dataByteCapacity F) pieces := by
  induction pieces with
  | nil => exact iff_of_true fromByteVec_nil.symm (harmless_nil capacity_pos)
  | cons piece pieces ih =>
    rw [List.flatMap_cons, List.flatten_cons]
    by_cases hdvd : dataByteCapacity F ∣ piece.length
    · rw [harmless_cons_of_dvd capacity_pos hdvd, fromByteVec_append hdvd,
        List.append_right_inj, ih]
    · rw [harmless_cons_of_not_dvd hdvd]
      constructor
      · intro heq
        exact ⟨by simpa [Function.comp_def] using congrArg List.length heq, zeros_of_eq hdvd heq⟩
      · rintro ⟨hcount, hzeros⟩
        have hrest : pieces.flatten = .replicate pieces.flatten.length 0 :=
          List.eq_replicate_iff.mpr ⟨rfl, hzeros⟩
        rw [List.map_cons, List.sum_cons, List.flatten_cons, List.length_append] at hcount
        rw [flatMap_fromByteVec_zeros hzeros, hrest, fromByteVec_append_zeros, ← hcount,
          Nat.add_sub_cancel_left]

end Bytes

section Streams

variable {file : SplitFile (bufSize F)}

theorem streamFileToFieldElementsVec_eq : streamFileToFieldElementsVec file =
    (file.contents.length, (file.pieces.flatMap fromByteVec : List F)) :=
  congrArg (Prod.mk _) (readLoop_pieces file _)

theorem streamFileToFieldElementsVecSync_eq : streamFileToFieldElementsVecSync file =
    (file.contents.length, (file.pieces.flatMap fromByteVec : List F)) :=
  streamFileToFieldElementsVec_eq

theorem stream_of_full_reads
    (h : ∀ piece ∈ file.pieces.dropLast, dataByteCapacity F ∣ piece.length) :
    streamFileToFieldElementsVec file =
      (file.contents.length, (fromByteVec file.contents : List F)) := by
  rw [streamFileToFieldElementsVec_eq,
    flatMap_fromByteVec_eq_iff.mpr (harmless_of_full capacity_pos h)]
  rfl

end Streams

/-- Both readers give the elements of the file, as the iterator over its bytes does, if and only
if the split of the reads is harmless. -/
theorem stream_independent_of_reads_iff (F : Type) [Field F] [DataField F]
    (file : SplitFile (bufSize F)) :
    (streamFileToFieldElementsVecSync file =
        (file.contents.length, (fromByteVec file.contents : List F)) ↔
      SplitHarmless (dataByteCapacity F) file.pieces) ∧
    (streamFileToFieldElementsVec file =
        (file.contents.length, (fromByteVec file.contents : List F)) ↔
      SplitHarmless (dataByteCapacity F) file.pieces) ∧
    ∀ rounds, file.contents.length < rounds →
      FieldGeneratorIter.collect rounds (.new file.contents) =
        (fromByteVec file.contents : List F) := by
  have hsplit : (file.contents.length, (file.pieces.flatMap fromByteVec : List F)) =
      (file.contents.length, fromByteVec file.contents) ↔
        SplitHarmless (dataByteCapacity F) file.pieces := by
    rw [Prod.mk_right_inj]
    exact flatMap_fromByteVec_eq_iff
  rw [streamFileToFieldElementsVecSync_eq, streamFileToFieldElementsVec_eq]
  exact ⟨hsplit, hsplit, fun rounds h => FieldGeneratorIter.collect_new rounds _ h⟩

def splitAtElement : SplitFile (bufSize WriteableFt63) where
  pieces := [[1, 2, 3, 4, 5, 6, 7], [8, 9]]
  ne_nil := by decide
  length_le := by decide

def splitInElement : SplitFile (bufSize WriteableFt63) where
  pieces := [[1], [2]]
  ne_nil := by decide
  length_le := by decide

theorem stream_independent_of_reads_small : streamFileToFieldElementsVec splitAtElement =
    (9, (fromByteVec [1, 2, 3, 4, 5, 6, 7, 8, 9] : List WriteableFt63)) :=
  (stream_independent_of_reads_iff WriteableFt63 splitAtElement).2.1.mpr
    ⟨by decide, List.forall_mem_nil _⟩

/-- The short read makes an element of its own: two elements instead of one. -/
theorem short_read_adds_element :
    streamFileToFieldElementsVecSync splitInElement ≠
      (2, (fromByteVec [1, 2] : List WriteableFt63)) ∧
    streamFileToFieldElementsVec splitInElement ≠
      (2, (fromByteVec [1, 2] : List WriteableFt63)) := by
  have hone : (fromByteVec [1, 2] : List WriteableFt63).length = 1 := by
    rw [length_fromByteVec]
    decide
  have htwo : (splitInElement.pieces.flatMap fromByteVec : List WriteableFt63).length = 2 := by
    simp only [List.length_flatMap, length_fromByteVec]
    decide
  have hne : (splitInElement.pieces.flatMap fromByteVec : List WriteableFt63) ≠
      fromByteVec [1, 2] := by
    intro heq
    rw [heq, hone] at htwo
    cases htwo
  rw [streamFileToFieldElementsVecSync_eq, streamFileToFieldElementsVec_eq]
  exact ⟨fun h => hne (congrArg Prod.snd h), fun h => hne (congrArg Prod.snd h)⟩

end FileReads
