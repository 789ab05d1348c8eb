import ProofOfStorage.FileDecoding
import ProofOfStorage.FilePersistence
import Mathlib.Tactic.LinearCombination

/-! # Resizing an encoded file

The rows of an encoded file are decoded, padding included, and written again at other sizes. How
long the file was is estimated from the size of the encoded one.
-/
namespace FileResizing

open FoundationFaults FoundationRuns FoundationSlices FoundationPositionalFiles
open CommitmentTypes CommitmentMerkle OnlineColumns OnlineEvaluation FileFields FileDigests
open FileRows FileWriter FileWriterRuns FileReader FileDecoding FilePersistence

variable {D : Digest} {F Err : Type} [Field F] [DataField F]

/-- Both divisions stop the program on zero. -/
def getUnencodedFileLen (r : EncodedFileReader F Err) : Fallible (FileError Err) ℕ := do
  assert (r.preEncodedSize ≠ 0)
  let ratio := r.encodedSize / r.preEncodedSize
  assert (ratio ≠ 0)
  return r.fileToRead.length / ratio

def pushRow {fft : FieldFFT F} (r : EncodedFileReader F fft.Err) (rowI : ℕ) :
    Writing D F fft.Err Unit := do
  let rowBytes ← lift (getUnencodedRowBytes r rowI)
  pushBytes rowBytes

/-- The state is the content of the target file. -/
def resizeToTargetFile (fft : FieldFFT F) (D : Digest) (r : EncodedFileReader F fft.Err)
    (newPreEncodedSize newEncodedSize : ℕ) :
    Stateful (FileError fft.Err) (List UInt8) (EncodedFileMetadata × MerkleTree D) := do
  let unencodedFileLen ← lift (getUnencodedFileLen r)
  let newEncodedFileWriter ← lift (new fft D newPreEncodedSize newEncodedSize unencodedFileLen
    (← get))
  zoom (fun _ => newEncodedFileWriter) (fun _ w => w.fileToWriteTo) do
    let _ ← forEach (List.range r.rowsWritten) (pushRow r)
    finalizeToMerkleTree

def paddedFile (F : Type) [Field F] [DataField F] (pre : ℕ) (b : List UInt8) : List UInt8 :=
  b ++ .replicate (divCeil b.length (rowBytes F pre) * rowBytes F pre - b.length) 0

section Padding

variable {pre : ℕ}

theorem length_paddedFile (hpre : 0 < pre) (b : List UInt8) :
    (paddedFile F pre b).length = divCeil b.length (rowBytes F pre) * rowBytes F pre := by
  have hle := le_divCeil_mul b.length (rowBytes_pos (F := F) hpre)
  rw [paddedFile, List.length_append, List.length_replicate]
  omega

theorem length_paddedFile_eq_iff (hpre : 0 < pre) (b : List UInt8) :
    (paddedFile F pre b).length = b.length ↔ rowBytes F pre ∣ b.length := by
  have hrb := rowBytes_pos (F := F) hpre
  rw [length_paddedFile hpre]
  constructor
  · intro h
    exact Dvd.intro_left _ h
  · intro hdvd
    rw [divCeil_of_dvd hrb hdvd, Nat.div_mul_cancel hdvd]

theorem paddedFile_of_dvd (hpre : 0 < pre) {b : List UInt8} (h : rowBytes F pre ∣ b.length) :
    paddedFile F pre b = b := by
  have hlen := (length_paddedFile_eq_iff hpre b).mpr h
  rw [paddedFile, List.length_append, List.length_replicate] at hlen
  have hnone : divCeil b.length (rowBytes F pre) * rowBytes F pre - b.length = 0 := by omega
  rw [paddedFile, hnone, List.replicate_zero, List.append_nil]

end Padding

theorem le_estimate {pre enc rows cap len : ℕ} (hpre : 0 < pre) (hlt : pre < enc)
    (hcap : rows ≤ cap) (hlen : cap * enc * writtenBytesWidth F ≤ len) :
    rows * rowBytes F pre ≤ len / (enc / pre) := by
  rw [Nat.le_div_iff_mul_le (Nat.div_pos hlt.le hpre)]
  calc rows * rowBytes F pre * (enc / pre)
      = rows * (enc / pre * pre) * DataField.dataByteCapacity F := by
        rw [rowBytes]
        ring
    _ ≤ cap * enc * writtenBytesWidth F :=
        Nat.mul_le_mul (Nat.mul_le_mul hcap (Nat.div_mul_le_self enc pre)) capacity_le_width
    _ ≤ len := hlen

section Resizing

variable {fft : FieldFFT F} {pre enc newPre newEnc : ℕ} {b : List UInt8}
  {r : EncodedFileReader F fft.Err} {encoding : LcEncoding F fft.Err}

omit [Field F] [DataField F] in
theorem getUnencodedFileLen_eq (hpre : 0 < pre) (hlt : pre < enc) (hr : r.preEncodedSize = pre)
    (hr' : r.encodedSize = enc) :
    getUnencodedFileLen r = .ok (r.fileToRead.length / (enc / pre)) := by
  have hratio : enc / pre ≠ 0 := (Nat.div_pos hlt.le hpre).ne'
  unfold getUnencodedFileLen
  simp only [hr, hr', assert_of hpre.ne', assert_of hratio, ok_bind, pure_eq_ok]

theorem runs_pushRows (hinv : Inverts fft r.encoding)
    (h : Stores pre enc (encodedRows r.encoding pre enc b) r) (hs : Sized encoding newPre newEnc)
    {announced : List UInt8} (hfit : paddedFile F pre b <+: announced)
    {w : EncodedFileWriter D F fft.Err} (hw : Settled encoding newPre newEnc announced [] w) :
    Runs (forEach (List.range r.rowsWritten) (pushRow r)) w fun _ w' =>
      Settled encoding newPre newEnc announced (paddedFile F pre b) w' := by
  have hrows : r.rowsWritten = divCeil b.length (rowBytes F pre) := by
    rw [h.rowsWritten_eq, length_encodedRows]
  have hfile := flatMap_decodedBytes (F := F) h.sized.pos b
  have hloop : Runs (forEach (List.range (divCeil b.length (rowBytes F pre))) (pushRow r)) w
      fun _ w' => Settled encoding newPre newEnc announced ((List.range (divCeil b.length
        (rowBytes F pre))).flatMap (decodedBytes F pre b)) w' := by
    apply hw.forEach (by rwa [hfile])
    intro t ht s w₁ hpart h₁
    have hread := getUnencodedRowBytes_of_stores hinv h (List.mem_range.mp ht)
    simp only [pushRow, runs_bind, runs_lift, hread]
    exact ⟨_, rfl, h₁.pushBytes hs hpart⟩
  rw [hrows]
  rwa [hfile] at hloop

/-- Resizing encodes the padded file. The buffers are those of a file as long as the estimate. -/
theorem runs_resizeToTargetFile (hinv : Inverts fft r.encoding)
    (h : Stores pre enc (encodedRows r.encoding pre enc b) r)
    (hlen : r.rowCapacity * enc * writtenBytesWidth F ≤ r.fileToRead.length)
    (hpos : 0 < newPre)
    (hencoding : (newFromDims fft newPre newEnc : Fallible (FileError fft.Err) _) = .ok encoding)
    (targetFile : List UInt8) :
    Runs (resizeToTargetFile fft D r newPre newEnc) targetFile fun result _ =>
      result.1 = ⟨0, newPre, newEnc, if rowBytes F newPre ∣ (paddedFile F pre b).length then
          flushedRows (divCeil (r.fileToRead.length / (enc / pre)) (rowBytes F newPre))
            (divCeil (paddedFile F pre b).length (rowBytes F newPre))
          else divCeil (paddedFile F pre b).length (rowBytes F newPre),
        divCeil (r.fileToRead.length / (enc / pre)) (rowBytes F newPre) * 2,
        (paddedFile F pre b).length⟩ ∧
      (MerkleTree.new (columnLeaves D newEnc
        (encodedRows encoding newPre newEnc (paddedFile F pre b))) :
          Fallible (FileError fft.Err) _) = .ok result.2 := by
  have hpre := h.sized.pos
  have hcap := h.capacity
  rw [length_encodedRows] at hcap
  have hestimate := getUnencodedFileLen_eq hpre h.sized.lt h.preEncodedSize_eq h.encodedSize_eq
  have hfit := le_estimate (F := F) hpre h.sized.lt hcap hlen
  rw [← length_paddedFile hpre] at hfit
  generalize r.fileToRead.length / (enc / pre) = estimate at hestimate hfit ⊢
  -- the writer works as if zeros up to the estimate were still to come
  let announced := paddedFile F pre b ++ .replicate (estimate - (paddedFile F pre b).length) 0
  have hannounced : announced.length = estimate := by
    rw [List.length_append, List.length_replicate]
    omega
  obtain ⟨w, hnew, rfl⟩ := exists_new (D := D) hpos hencoding estimate targetFile
  obtain ⟨hs, hsettled⟩ := settled_new (b := announced) (hannounced.symm ▸ hnew)
  unfold resizeToTargetFile
  simp only [runs_bind, runs_lift, runs_get, runs_zoom, hestimate]
  refine ⟨_, rfl, w, hnew, ?_⟩
  refine (runs_pushRows hinv h hs (List.prefix_append _ _) hsettled).mono ?_
  intro _ w₁ hsettled₁
  refine (hsettled₁.finalizeToMerkleTree hs rfl).mono ?_
  rintro result _ ⟨hmetadata, htree⟩
  exact ⟨by rw [hmetadata, hannounced], htree⟩

end Resizing

theorem flushedRows_eq_iff {rows k : ℕ} : flushedRows rows k = k ↔ min (2 ^ 10) rows ∣ k := by
  constructor
  · intro h
    exact Dvd.intro_left _ h
  · intro hdvd
    exact Nat.div_mul_cancel hdvd

theorem countedRows_of_dvd {rowBytes n rows : ℕ} (hle : divCeil n rowBytes ≤ rows)
    (h : rowBytes ∣ n → min (2 ^ 10) rows ∣ divCeil n rowBytes) :
    countedRows rowBytes n = divCeil n rowBytes := by
  unfold countedRows
  by_cases hdvd : rowBytes ∣ n
  · rw [if_pos hdvd, flushedRows_eq_iff]
    rcases Nat.le_total (divCeil n rowBytes) (2 ^ 10) with hfew | hmany
    · rw [Nat.min_eq_right hfew]
    · have hfull := h hdvd
      rw [Nat.min_eq_left (hmany.trans hle)] at hfull
      rwa [Nat.min_eq_left hmany]
  · rw [if_neg hdvd]

/-- Resizing agrees with converting the file itself exactly when the last row of the old size is
full and, should the last row of the new size be full too, the column buffers come out even. The
estimate makes these buffers longer than those of the conversion. -/
theorem resize_is_conversion_iff {fft : FieldFFT F} {pre enc cap newPre newEnc : ℕ}
    {b file : List UInt8} {r : EncodedFileReader F fft.Err} {encoding : LcEncoding F fft.Err}
    (hpre : 0 < pre) (hcap : divCeil b.length (rowBytes F pre) ≤ cap)
    (hr : newLigero fft file pre enc (divCeil b.length (rowBytes F pre)) cap = .ok r)
    (hinv : Inverts fft r.encoding)
    (hfile : HoldsRows reprBytes (writtenBytesWidth F) cap enc file
      (encodedRows r.encoding pre enc b))
    (hlen : cap * enc * writtenBytesWidth F ≤ file.length) (hnewPre : 0 < newPre)
    (hencoding : (newFromDims fft newPre newEnc : Fallible (FileError fft.Err) _) = .ok encoding)
    (targetFile : List UInt8) (digest metadata : Bool) (files : Files) :
    (Runs (resizeToTargetFile fft D r newPre newEnc) targetFile fun resized _ =>
      Runs (convertUnencodedFile fft D b digest metadata newPre newEnc) files fun converted _ =>
        resized.2 = converted.2 ∧ resized.1.bytesOfData = converted.1.bytesOfData ∧
        resized.1.rowsWritten = converted.1.rowsWritten) ↔
      rowBytes F pre ∣ b.length ∧ (rowBytes F newPre ∣ b.length →
        min (2 ^ 10) (divCeil (file.length / (enc / pre)) (rowBytes F newPre)) ∣
          divCeil b.length (rowBytes F newPre)) := by
  rw [← length_encodedRows r.encoding pre enc b] at hr hcap
  obtain ⟨hstores, -⟩ := stores_newLigero hpre hr hcap hfile
  obtain ⟨hread, -, hroom⟩ := newLigero_fields hr
  have hresize := runs_resizeToTargetFile (D := D) hinv hstores (by rwa [hread, hroom]) hnewPre
    hencoding targetFile
  rw [hread] at hresize
  rw [length_encodedRows] at hcap
  have hfit := le_estimate (F := F) hpre hstores.sized.lt hcap hlen
  rw [← length_paddedFile hpre] at hfit
  generalize file.length / (enc / pre) = estimate at hresize hfit ⊢
  constructor
  · rintro ⟨resized, _, hresized, converted, files', hconverted, -, hbytes, hrows⟩
    have hmetadata := (hresize.of_run hresized).1
    obtain ⟨-, hmetadata', -, -⟩ := ensures_convertUnencodedFile converted files' hconverted
    rw [hmetadata, hmetadata'] at hbytes hrows
    have hdvd := (length_paddedFile_eq_iff hpre b).mp hbytes
    refine ⟨hdvd, ?_⟩
    intro hdvd'
    simp only [paddedFile_of_dvd hpre hdvd, if_pos hdvd'] at hrows
    exact flushedRows_eq_iff.mp hrows
  · rintro ⟨hdvd, heven⟩
    rw [paddedFile_of_dvd hpre hdvd] at hresize hfit
    have hle : divCeil b.length (rowBytes F newPre) ≤ divCeil estimate (rowBytes F newPre) :=
      divCeil_mono (rowBytes_pos hnewPre) hfit
    refine hresize.mono ?_
    rintro resized _ ⟨hmetadata, htree⟩
    refine (runs_convertUnencodedFile hnewPre hencoding (countedRows_of_dvd hle heven) digest
      metadata files).mono ?_
    rintro converted _ ⟨hmetadata', htree'⟩
    rw [htree] at htree'
    rw [hmetadata, hmetadata']
    refine ⟨Except.ok.inj htree', rfl, ?_⟩
    by_cases hdvd' : rowBytes F newPre ∣ b.length
    · exact (if_pos hdvd').trans (flushedRows_eq_iff.mpr (heven hdvd'))
    · exact if_neg hdvd'

theorem fermatFft_inverse {v w : List (ZMod 257)} (h : fermatFft.fftIoPc (1 : ℕ) v = .ok w) :
    fermatFft.ifftOi w = .ok v := by
  rcases v with _ | ⟨a, _ | ⟨b, _ | ⟨c, v⟩⟩⟩ <;>
    simp [fermatFft, fail, List.range_succ, fermatRoot, bitReverse] at h
  subst h
  have hsize : Nat.clog 2 2 = 1 := by decide
  have hzero : (257 : ZMod 257) = 0 := by decide
  have ha : 129 * (a + b + (a + b * 256) * 256 ^ 2) = a := by
    linear_combination (32896 * a + 8421249 * b) * hzero
  have hb : 129 * (a + b + (a + b * 256) * 256) = b := by
    linear_combination (129 * a + 32896 * b) * hzero
  simp [fermatFft, List.range_succ, fermatRoot, hsize, bitReverse, ha, hb]

theorem resize_is_conversion_small : ∃ (file : List UInt8)
    (r : EncodedFileReader (ZMod 257) fermatFft.Err), newLigero fermatFft file 1 2 1 1 = .ok r ∧
    Runs (resizeToTargetFile fermatFft byteSum r 2 4) [] fun resized _ =>
      Runs (convertUnencodedFile fermatFft byteSum [5] true true 2 4) ⟨none, none, none, none⟩
        fun converted _ => resized.2 = converted.2 ∧
          resized.1.bytesOfData = converted.1.bytesOfData ∧
          resized.1.rowsWritten = converted.1.rowsWritten := by
  obtain ⟨encoding, hencoding⟩ : ∃ encoding,
      (newFromDims fermatFft 2 4 : Fallible (FileError fermatFft.Err) _) = .ok encoding := ⟨_, rfl⟩
  let r : EncodedFileReader (ZMod 257) fermatFft.Err := ⟨ligeroEncoding fermatFft 1 2 (1 : ℕ),
    ([5, 5] : List (ZMod 257)).flatMap reprBytes, 1, 2, 1, 1⟩
  have hrows : encodedRows r.encoding 1 2 [5] = [[5, 5]] := by decide +kernel
  have hfile : HoldsRows reprBytes 2 1 2 r.fileToRead (encodedRows r.encoding 1 2 [5]) := by
    rw [hrows]
    exact holdsRows_singleton length_reprBytes [5, 5]
  have hinv : Inverts fermatFft r.encoding := fun _ _ h => fermatFft_inverse h
  have hr : newLigero fermatFft r.fileToRead 1 2 1 1 = .ok r := rfl
  exact ⟨_, r, hr, (resize_is_conversion_iff (b := [5]) (by decide) (by decide) hr hinv hfile
    (by decide) (by decide) hencoding [] true true _).mpr (by decide)⟩

/-- Nine bytes become fourteen, and no row is counted. -/
theorem resize_counts_padding : ∃ (file : List UInt8)
    (r : EncodedFileReader WriteableFt63 (pairTransform WriteableFt63).Err),
    newLigero (pairTransform WriteableFt63) file 1 2 2 3 = .ok r ∧ file.length = 3 * 2 * 8 ∧
    HoldsRows reprBytes 8 3 2 file (encodedRows r.encoding 1 2 [1, 2, 3, 4, 5, 6, 7, 8, 9]) ∧
    Runs (resizeToTargetFile (pairTransform WriteableFt63) byteSum r 1 2) [] fun resized _ =>
      resized.1.bytesOfData = 14 ∧ resized.1.rowsWritten = 0 ∧
      Runs (convertUnencodedFile (pairTransform WriteableFt63) byteSum [1, 2, 3, 4, 5, 6, 7, 8, 9]
        true true 1 2) ⟨none, none, none, none⟩ fun converted _ =>
          converted.1.bytesOfData = 9 ∧ converted.1.rowsWritten = 2 := by
  obtain ⟨file, r, hr, hlen, hfile⟩ := exists_nine_bytes
  have htwo : (2 : WriteableFt63) ≠ 0 := by decide
  have hcount : (encodedRows r.encoding 1 2 [1, 2, 3, 4, 5, 6, 7, 8, 9]).length = 2 := by
    rw [length_encodedRows]
    decide
  obtain ⟨hstores, hdims⟩ := stores_newLigero (show 0 < 1 by decide) (hcount.symm ▸ hr)
    (by omega) hfile
  have hinv : Inverts (pairTransform WriteableFt63) r.encoding :=
    inverts_of_newFromDims (fun _ => pairTransform_inverse htwo) hdims
  obtain ⟨hread, -, hroom⟩ := newLigero_fields hr
  refine ⟨file, r, hr, hlen, hfile, ?_⟩
  refine (runs_resizeToTargetFile hinv hstores (by rw [hread, hroom, hlen]; decide) (by decide)
    hdims []).mono ?_
  rintro resized _ ⟨hmetadata, -⟩
  rw [hmetadata, hread, hlen]
  refine ⟨by decide, by decide, ?_⟩
  refine (runs_convertUnencodedFile (by decide) hdims (by decide) true true _).mono ?_
  rintro converted _ ⟨hmetadata', -⟩
  rw [hmetadata']
  decide

end FileResizing
