import ProofOfStorage.FileContents
import ProofOfStorage.FileDecoding

/-! # The encoded file as a second copy

The rows of the encoded file, decoded and put behind each other, give the file back, after every
run of updates.
-/
namespace FileMirrors

open FoundationFaults FoundationRuns FoundationSlices FoundationPositionalFiles
open CommitmentTypes CommitmentMerkle OnlineColumns OnlineEvaluation FileFields FileDigests FileRows
open FileWriter FileReader FileDecoding FileHandling FileRecords FilePersistence
open FilePersistenceRuns FileContents

variable {D : Digest} {F : Type} [Field F] [DataField F]

section Rows

variable {fft : FieldFFT F} (h : FileHandler D F fft.Err) (rowIndex : ℕ)

def getEncodedRow : Fallible (FileError fft.Err) (List F) :=
  FileReader.getEncodedRow h.encodedFileReadWriter rowIndex

def getDecodedRow : Fallible (FileError fft.Err) (List F) := do
  let encodedRow ← getEncodedRow h rowIndex
  let decodedRow ← mapErr .encode (decodeRow fft encodedRow)
  assert (h.preEncodedSize ≤ decodedRow.length)
  return decodedRow.take h.preEncodedSize

def getDecodedRowBytes : Fallible (FileError fft.Err) (List UInt8) := do
  let row ← getDecodedRow h rowIndex
  return fieldVecToByteVec row

end Rows

/-- The encoded file alone gives the contents back, row by row and as a whole: the bytes and the
padding that fills the last row, nothing else. -/
structure Mirrors (fft : FieldFFT F) (c : Contents) (h : FileHandler D F fft.Err) : Prop where
  totalDataBytes : h.totalDataBytes = c.bytes.length
  rows : ∀ t < h.rowsWritten, ∃ bytes, getUnencodedRow h t = .ok bytes ∧
    getDecodedRowBytes h t =
      .ok (bytes ++ .replicate (rowBytes F c.preEncodedSize - bytes.length) 0)
  restores : ∃ file, decodeToTargetFile h.encodedFileReadWriter ⟨[], 0⟩ = .ok file ∧
    file.contents =
      c.bytes ++ .replicate (h.rowsWritten * rowBytes F c.preEncodedSize - c.bytes.length) 0

section Handlers

variable {fft : FieldFFT F} {c : Contents} {h : FileHandler D F fft.Err}

theorem getDecodedRowBytes_of_stores {b : List UInt8} {pre enc t : ℕ}
    (hinv : Inverts fft h.encodedFileReadWriter.encoding)
    (hstores : Stores pre enc (encodedRows h.encodedFileReadWriter.encoding pre enc b)
      h.encodedFileReadWriter) (hpre : h.preEncodedSize = pre)
    (ht : t < divCeil b.length (rowBytes F pre)) :
    getDecodedRowBytes h t = .ok (decodedBytes F pre b t) := by
  obtain ⟨row', decoded, hrow, hdecode, hlen, htake, -⟩ := exists_decoded_row hinv hstores ht
  have hmap : mapErr FileError.encode (decodeRow fft row') = .ok decoded := mapErr_eq_ok.mpr hdecode
  unfold getDecodedRowBytes getDecodedRow getEncodedRow
  simp only [hrow, ok_bind, hmap, hpre, assert_of hlen, htake, pure_eq_ok, fieldVecToByteVec_row]

theorem mirrors_of_holds (hh : Holds fft c h) (hinv : Inverts fft h.encoding) :
    Mirrors fft c h := by
  obtain ⟨hdescribes, ⟨hstores, hencoding, -⟩, -⟩ := hh.agrees
  have hpos := hdescribes.sized.pos
  rw [← hencoding] at hinv
  rw [rowsOf, ← hencoding] at hstores
  refine ⟨hdescribes.totalDataBytes_eq, ?_, ?_⟩
  · intro t ht
    have hrow := hdescribes.getUnencodedRow ht
    rw [hdescribes.rowsWritten_eq] at ht
    refine ⟨_, hrow, ?_⟩
    rw [getDecodedRowBytes_of_stores hinv hstores rfl ht, decodedBytes,
      padded_toList_eq (length_row_le _ _ _), ← hh.preEncodedSize_eq]
  · refine ⟨_, decodeToTargetFile_of_stores hinv hstores _, ?_⟩
    rw [TargetFile.writeAll, writeAt_zero_of_le (Nat.zero_le _), flatMap_decodedBytes hpos,
      hdescribes.rowsWritten_eq, hh.preEncodedSize_eq]

/-- From its creation on and after any updates that lose no rows, the encoded file of a handler is
a second copy of the bytes, when the transform can be taken back. -/
theorem encoded_file_mirrors (hinverse : ∀ {len pc v w},
      fft.precompFft len = .ok pc → fft.fftIoPc pc v = .ok w → fft.ifftOi w = .ok v)
    {reader : MetadataReader} {ulid : Ulid} {pre enc : ℕ} {stored stored' : Files}
    {fileHandle : Option (Option (List UInt8))}
    (hcreated : (createFromUnencodedFile fft reader D ulid fileHandle pre enc).run stored =
      .ok h stored') {updates : List FileUpdate} {outs : List Unit} {h' : FileHandler D F fft.Err}
    (hrun : (runUpdates fft updates).run h = .ok outs h') :
    ∃ b, unencodedSource stored fileHandle = some b ∧
      (AllKeepRows F ⟨pre, enc, b⟩ updates →
        Mirrors fft (applyUpdates ⟨pre, enc, b⟩ updates) h') := by
  obtain ⟨b, hsource, hh⟩ := ensures_createFromUnencodedFile_holds h stored' hcreated
  refine ⟨b, hsource, ?_⟩
  intro hkept
  obtain ⟨-, hh'⟩ : AllAllowed fft ⟨pre, enc, b⟩ updates ∧
      Holds fft (applyUpdates ⟨pre, enc, b⟩ updates) h' := hh.updates hkept outs h' hrun
  exact mirrors_of_holds hh' (inverts_of_newFromDims hinverse hh'.encoding)

end Handlers

theorem encoded_file_mirrors_small :
    ∃ (h : FileHandler byteSum (ZMod 257) Unit) (stored : Files),
      (createFromUnencodedFile (pairTransform (ZMod 257)) metadataReader byteSum 1 none 1 2).run
        ⟨some [1, 2, 3], none, none, none⟩ = .ok h stored ∧
      ∃ outs h', (runUpdates (pairTransform (ZMod 257)) [.handler (.editBytes 1 [7, 7]),
        .handler (.appendBytes [4, 5]), .reencodeUnencodedFile,
        .handler (.editBytes 4 [0])]).run h = .ok outs h' ∧
        Mirrors (pairTransform (ZMod 257)) ⟨1, 2, [1, 7, 7, 4, 0]⟩ h' := by
  have hruns : Runs (createFromUnencodedFile (pairTransform (ZMod 257)) metadataReader byteSum 1
      none 1 2) ⟨some [1, 2, 3], none, none, none⟩ fun h _ =>
        Runs (runUpdates (pairTransform (ZMod 257)) [.handler (.editBytes 1 [7, 7]),
          .handler (.appendBytes [4, 5]), .reencodeUnencodedFile,
          .handler (.editBytes 4 [0])]) h fun _ _ => True := by
    decide +kernel
  obtain ⟨h, stored, hcreated, outs, h', hrun, -⟩ := hruns
  have hinverse : ∀ {len pc} {v w : List (ZMod 257)},
      (pairTransform (ZMod 257)).precompFft len = .ok pc →
      (pairTransform (ZMod 257)).fftIoPc pc v = .ok w →
      (pairTransform (ZMod 257)).ifftOi w = .ok v :=
    fun _ hencode => pairTransform_inverse (by decide) hencode
  obtain ⟨b, hsource, hmirrors⟩ := encoded_file_mirrors hinverse hcreated hrun
  obtain rfl := Option.some.inj hsource
  exact ⟨h, stored, hcreated, outs, h', hrun, hmirrors ⟨trivial, trivial,
    by unfold KeepsRows LosesRows; decide, trivial, trivial⟩⟩

end FileMirrors
