import ProofOfStorage.FilePersistenceRuns

/-! # What a stored file holds

From its creation on, and over every sequence of calls, the files of a handler agree on one byte
string, at the sizes of the last reshape.
-/
namespace FileContents

open FoundationFaults FoundationRuns FoundationSlices FoundationPositionalFiles
open CommitmentTypes CommitmentMerkle OnlineColumns FileFields FileDigests FileRows
open FileWriter FileWriterRuns FileReader FileHandling FileHandlingRuns FileRecords
open FilePersistence FilePersistenceRuns

variable {D : Digest} {F Err : Type} [Field F] [DataField F]

/-- What a handler is for: a byte string, encoded at two sizes. -/
structure Contents where
  preEncodedSize : ℕ
  encodedSize : ℕ
  bytes : List UInt8

/-- The last rows, all of them full, stay behind in the column buffers of a writer. -/
def LosesRows (F : Type) [Field F] [DataField F] (pre : ℕ) (b : List UInt8) : Prop :=
  rowBytes F pre ∣ b.length ∧ 1024 < divCeil b.length (rowBytes F pre) ∧
    ¬1024 ∣ divCeil b.length (rowBytes F pre)

/-- The files of a handler agree on the contents. -/
structure Holds (fft : FieldFFT F) (c : Contents) (h : FileHandler D F fft.Err) : Prop where
  agrees : Agrees h c.bytes
  preEncodedSize_eq : h.preEncodedSize = c.preEncodedSize
  encodedSize_eq : h.encodedSize = c.encodedSize
  encoding : (newFromDims fft c.preEncodedSize c.encodedSize : Fallible (FileError fft.Err) _) =
    .ok h.encoding
  metadata : h.metadataFile.isSome = true

section Conversion

variable {fft : FieldFFT F} {pre enc : ℕ} {b : List UInt8}

theorem countedRows_eq_iff : countedRows (rowBytes F pre) b.length =
    divCeil b.length (rowBytes F pre) ↔ ¬LosesRows F pre b := by
  unfold countedRows LosesRows
  by_cases hdvd : rowBytes F pre ∣ b.length
  · rw [if_pos hdvd]
    rcases Nat.eq_zero_or_pos (divCeil b.length (rowBytes F pre)) with hzero | hpos
    · rw [hzero]
      simp [flushedRows]
    · rw [flushedRows_self_iff hpos]
      exact ⟨fun hn hand => hn hand.2, fun hn hand => hn ⟨hdvd, hand⟩⟩
  · rw [if_neg hdvd]
    exact iff_of_true rfl fun hloses => hdvd hloses.1

theorem newFromDims_of_new {originalFileSize : ℕ} {w : EncodedFileWriter D F fft.Err}
    {targetFile : List UInt8} (h : new fft D pre enc originalFileSize targetFile = .ok w) :
    (newFromDims fft pre enc : Fallible (FileError fft.Err) _) = .ok w.encoding := by
  obtain ⟨_, -, h⟩ := bind_eq_ok.mp h
  obtain ⟨_, -, h⟩ := bind_eq_ok.mp h
  obtain ⟨_, -, h⟩ := bind_eq_ok.mp h
  obtain ⟨encoding, hencoding, h⟩ := bind_eq_ok.mp h
  obtain rfl := Except.ok.inj h
  exact hencoding

structure Converted (fft : FieldFFT F) (c : Contents) (encoding : LcEncoding F fft.Err)
    (encoded : List UInt8) (tree : MerkleTree D) : Prop where
  encoding_eq : (newFromDims fft c.preEncodedSize c.encodedSize :
    Fallible (FileError fft.Err) _) = .ok encoding
  stores : Stores c.preEncodedSize c.encodedSize
    (encodedRows encoding c.preEncodedSize c.encodedSize c.bytes)
    ⟨encoding, encoded, c.preEncodedSize, c.encodedSize,
      divCeil c.bytes.length (rowBytes F c.preEncodedSize),
      divCeil c.bytes.length (rowBytes F c.preEncodedSize) * 2⟩
  tree : (MerkleTree.new (columnLeaves D c.encodedSize
    (encodedRows encoding c.preEncodedSize c.encodedSize c.bytes)) :
      Fallible (FileError fft.Err) _) = .ok tree

/-- Feeding a file to a writer leaves its encoding on disk, unless rows are lost. -/
theorem runs_encodeFile_converts {n : ℕ} (hn : 0 < n) {targetFile : List UInt8}
    {w : EncodedFileWriter D F fft.Err} (h : new fft D pre enc b.length targetFile = .ok w) :
    Runs (encodeFile n b) w fun result w' =>
      result.1 = ⟨0, pre, enc, countedRows (rowBytes F pre) b.length,
        divCeil b.length (rowBytes F pre) * 2, b.length⟩ ∧
      IsTree fft.Err enc result.2 ∧
      (¬LosesRows F pre b → Converted fft ⟨pre, enc, b⟩ w.encoding w'.fileToWriteTo result.2) := by
  obtain ⟨hs, hsettled⟩ := settled_new h
  have hfeed : Runs (forEach (chunks n b) pushBytes) w fun _ w' =>
      Settled w.encoding pre enc b ((chunks n b).flatMap id) w' := by
    apply hsettled.forEach (by rw [List.flatMap_id, flatten_chunks hn])
    intro bytes _ s w' hpart hsettled'
    exact hsettled'.pushBytes hs hpart
  rw [List.flatMap_id, flatten_chunks hn] at hfeed
  unfold encodeFile
  rw [runs_bind]
  refine hfeed.mono ?_
  intro _ w₁ hsettled₁
  have hfinal := hsettled₁.finalize (n := 0) hs (List.append_nil b).symm .merkleTree
  simp only [Finalizer.run, runs_bind, runs_pure] at hfinal
  refine hfinal.mono ?_
  rintro ⟨metadata, tree⟩ w₂ ⟨hdrained, hmetadata, tree', htree, hsame⟩
  obtain rfl : tree = tree' := by injection hsame
  refine ⟨hmetadata.trans hdrained.metadata_eq, ⟨_, length_columnLeaves _ _, htree⟩, ?_⟩
  intro hkept
  have hrows : w₂.rowsWritten = divCeil b.length (rowBytes F pre) :=
    hdrained.written.trans (countedRows_eq_iff.mpr hkept)
  have hstored := hdrained.progress.buffers.stored
  rw [hdrained.progress.rowCapacity_eq, hrows, List.take_take, Nat.min_self,
    List.take_of_length_le (length_encodedRows ..).le] at hstored
  refine ⟨newFromDims_of_new h, ⟨hs, rfl, rfl, (length_encodedRows ..).symm, ?_, hstored⟩, htree⟩
  rw [length_encodedRows]
  exact Nat.le_mul_of_pos_right _ two_pos

theorem ensures_convertUnencodedFile_converts {digest metadata : Bool} {files : Files} :
    Ensures (convertUnencodedFile fft D b digest metadata pre enc) files fun result files' =>
      0 < pre ∧ ¬LosesRows F pre b ∧ ∃ encoding encoded,
        Converted fft ⟨pre, enc, b⟩ encoding encoded result.2 ∧
        result.1 = ⟨0, pre, enc, divCeil b.length (rowBytes F pre),
          divCeil b.length (rowBytes F pre) * 2, b.length⟩ ∧
        files' = { files with
          encoded := some encoded
          metadata := if metadata = true then some (toJson result.1) else files.metadata
          merkleTree := if digest = true then some result.2.toBytes else files.merkleTree } := by
  unfold convertUnencodedFile writing
  simp only [ensures_bind, ensures_lift, ensures_modify, ensures_zoom]
  intro _ hpos _ _ _ _ _ _ w hnew
  refine (runs_encodeFile_converts (F := F) (n := 2 ^ 15) (by decide) hnew).ensures.mono ?_
  rintro ⟨written, tree⟩ w' ⟨hmetadata, -, hconverts⟩ _ - _ hrows
  have hcounted := assert_eq_ok.mp hrows
  change written = _ at hmetadata
  rw [hmetadata, Nat.mul_comm] at hcounted
  change divCeil _ (rowBytes F pre) = countedRows _ _ at hcounted
  rw [← hcounted] at hmetadata
  have hkept := countedRows_eq_iff.mp hcounted.symm
  have hpos := ensure_eq_ok.mp hpos
  cases digest <;> cases metadata <;>
    simp only [ensures_bind, ensures_modify, if_true, Bool.false_eq_true, if_false,
      ensures_pure] <;>
    exact ⟨hpos, hkept, w.encoding, w'.fileToWriteTo, hconverts hkept, hmetadata, rfl⟩

end Conversion

section Creation

variable {fft : FieldFFT F} {reader : MetadataReader} {ulid : Ulid} {pre enc : ℕ}

def unencodedSource (stored : Files) : Option (Option (List UInt8)) → Option (List UInt8)
  | none => stored.unencoded
  | some file => file

theorem ensures_moveInPlace {fileHandle : Option (Option (List UInt8))} {stored : Files} :
    Ensures (moveInPlace fileHandle : Stateful (FileError Err) Files Unit) stored
      fun _ stored' => stored'.unencoded = unencodedSource stored fileHandle := by
  cases fileHandle with
  | none =>
    unfold moveInPlace
    rw [ensures_pure]
    rfl
  | some file =>
    unfold moveInPlace
    simp only [ensures_bind, ensures_lift, ensures_modify]
    intro content hopen
    exact (openFile_eq_ok.mp hopen).symm

theorem ensures_createFromUnencodedFile_holds {stored : Files}
    {fileHandle : Option (Option (List UInt8))} :
    Ensures (createFromUnencodedFile fft reader D ulid fileHandle pre enc) stored fun h _ =>
      ∃ b, unencodedSource stored fileHandle = some b ∧ Holds fft ⟨pre, enc, b⟩ h := by
  unfold createFromUnencodedFile
  simp only [ensures_bind, ensures_get, ensures_lift, ensures_modify]
  intro _ _
  refine ensures_moveInPlace.mono ?_
  intro _ stored₁ hsource b hb
  refine ensures_convertUnencodedFile_converts.mono ?_
  rintro ⟨_, tree⟩ _ ⟨hpos, -, encoding, encoded, hconverted, rfl, rfl⟩ file hfile metadata
    hmetadata h hattach
  obtain rfl := Option.some.inj (openFile_eq_ok.mp hfile)
  rw [readFromFile_eq_ok, reader.fromStr_toJson] at hmetadata
  obtain rfl := Option.some.inj hmetadata
  dsimp only at hattach
  rw [writeAt_toJson_ulid] at hattach
  obtain ⟨file, hfile, metadata, hread, -, b', hb', encoded', hencoded, r, hr, merkleBytes, hmerkle,
    tree', hfrom, encoding', hencoding', rfl⟩ := newAttachToExistingFiles_eq_ok.mp hattach
  obtain rfl := Option.some.inj hfile
  obtain rfl := Option.some.inj hmerkle
  obtain rfl := Option.some.inj hencoded
  rw [reader.fromStr_toJson] at hread
  obtain rfl := Option.some.inj hread
  dsimp only at hr hencoding'
  rw [newLigero_of_encoding hconverted.encoding_eq] at hr
  obtain rfl := Except.ok.inj hr
  obtain rfl := Except.ok.inj (hconverted.encoding_eq.symm.trans hencoding')
  have hb := openFile_eq_ok.mp hb
  obtain rfl : b = b' := Option.some.inj (hb.symm.trans hb')
  obtain rfl : tree = tree' := Except.ok.inj ((MerkleTree.fromBytes_toBytes
    (MerkleTree.outputSize_of_fromBytes hfrom) hconverted.tree).symm.trans hfrom)
  have hsized := Sized.of_newFromDims hpos hconverted.encoding_eq
  exact ⟨b, hsource.symm.trans hb, ⟨⟨hsized, rfl, rfl, rfl⟩, ⟨hconverted.stores, rfl, rfl⟩,
    hconverted.tree⟩, rfl, rfl, hconverted.encoding_eq, rfl⟩

end Creation

section Updates

variable {fft : FieldFFT F} {c : Contents} {h h' : FileHandler D F fft.Err}

/-- What an update is for: its effect on the contents. -/
def applyUpdate (c : Contents) : FileUpdate → Contents
  | .handler call => { c with bytes := call.apply c.bytes }
  | .reencodeUnencodedFile => c
  | .reshape newPreEncodedColumns newEncodedColumns =>
    ⟨newPreEncodedColumns, newEncodedColumns, c.bytes⟩

/-- Only encoding the whole file anew goes on when rows are lost. -/
def KeepsRows (F : Type) [Field F] [DataField F] (c : Contents) : FileUpdate → Prop
  | .handler _ => True
  | .reencodeUnencodedFile => ¬LosesRows F c.preEncodedSize c.bytes
  | .reshape .. => True

def Allowed (fft : FieldFFT F) (c : Contents) : FileUpdate → Prop
  | .handler call => call.InRange (rowBytes F c.preEncodedSize) c.bytes
  | .reencodeUnencodedFile => True
  | .reshape newPreEncodedColumns newEncodedColumns =>
    0 < newPreEncodedColumns ∧ ¬LosesRows F newPreEncodedColumns c.bytes ∧
      ∃ encoding, (newFromDims fft newPreEncodedColumns newEncodedColumns :
        Fallible (FileError fft.Err) _) = .ok encoding

theorem ensures_call_frame (call : HandlerCall) : Ensures (call.run toJson) h fun _ h' =>
    h'.encoding = h.encoding ∧ h'.encodedSize = h.encodedSize := by
  cases call with
  | editBytes start bytes =>
    simp only [HandlerCall.run, ensures_bind, ensures_pure]
    refine ensures_editBytes.mono ?_
    rintro _ _ ⟨-, r, tree, -, rfl⟩
    exact ⟨rfl, rfl⟩
  | appendBytes bytes =>
    simp only [HandlerCall.run, ensures_bind, ensures_pure]
    refine ensures_appendBytes.mono ?_
    rintro _ _ ⟨b, -, file, -, r, tree, _, -, rfl, rfl⟩
    exact ⟨rfl, rfl⟩
  | reencodeRow rowIndex =>
    simp only [HandlerCall.run, ensures_bind, ensures_pure]
    refine (ensures_reencodeRow rowIndex).mono ?_
    rintro _ _ ⟨r, rfl⟩
    exact ⟨rfl, rfl⟩

theorem Holds.handler (hh : Holds fft c h) (call : HandlerCall) :
    Ensures (call.run toJson) h fun _ h' =>
      call.InRange (rowBytes F c.preEncodedSize) c.bytes ∧
      Holds fft { c with bytes := call.apply c.bytes } h' := by
  intro out h' hrun
  obtain ⟨hin, -, hagrees, hkeeps⟩ := run_call hh.agrees hrun
  obtain ⟨hencoding, hsize⟩ :
    h'.encoding = h.encoding ∧ h'.encodedSize = h.encodedSize := ensures_call_frame call out h' hrun
  rw [hh.preEncodedSize_eq] at hin
  refine ⟨hin, hagrees, hkeeps.preEncodedSize.trans hh.preEncodedSize_eq,
    hsize.trans hh.encodedSize_eq, ?_, hkeeps.metadata.trans hh.metadata⟩
  rw [hencoding]
  exact hh.encoding

theorem Holds.reshape (hh : Holds fft c h) (pre enc : ℕ) :
    Ensures (reshape fft pre enc) h fun _ h' =>
      Allowed fft c (.reshape pre enc) ∧ Holds fft ⟨pre, enc, c.bytes⟩ h' := by
  unfold FilePersistence.reshape
  simp only [ensures_bind, ensures_get, ensures_lift, ensures_modify, ensures_zoom, ensures_pure,
    hh.agrees.describes.unencoded, Option.getD_some]
  refine ensures_convertUnencodedFile_converts.mono ?_
  rintro ⟨_, tree⟩ _ ⟨hpos, hkept, encoding, encoded, hconverted, rfl, rfl⟩ encoding' hencoding r hr
  obtain rfl := Except.ok.inj (hconverted.encoding_eq.symm.trans hencoding)
  dsimp only at hr
  rw [newLigero_of_encoding hconverted.encoding_eq] at hr
  obtain rfl := Except.ok.inj hr
  have hsized := Sized.of_newFromDims hpos hencoding
  exact ⟨⟨hpos, hkept, encoding, hencoding⟩, ⟨⟨hsized, rfl, hh.agrees.describes.totalDataBytes_eq,
    rfl⟩, ⟨hconverted.stores, rfl, rfl⟩, hconverted.tree⟩, rfl, rfl, hencoding, rfl⟩

theorem Holds.runs_reshape (hh : Holds fft c h) {pre enc : ℕ}
    (hallowed : Allowed fft c (.reshape pre enc)) :
    Runs (FilePersistence.reshape fft pre enc) h fun _ _ => True := by
  obtain ⟨hpos, hkept, encoding, hencoding⟩ := hallowed
  unfold FilePersistence.reshape
  simp only [runs_bind, runs_get, runs_lift, runs_modify, runs_zoom, runs_pure,
    hh.agrees.describes.unencoded, Option.getD_some]
  refine (runs_convertUnencodedFile hpos hencoding (countedRows_eq_iff.mpr hkept) ..).mono ?_
  rintro ⟨_, tree⟩ stored ⟨rfl, -⟩
  exact ⟨encoding, hencoding, _, newLigero_of_encoding hencoding .., trivial⟩

theorem Holds.reencode (hh : Holds fft c h) (hkept : ¬LosesRows F c.preEncodedSize c.bytes) :
    Runs (reencodeUnencodedFile fft) h fun _ h' => Holds fft c h' := by
  have hsized := hh.agrees.describes.sized
  rw [hh.preEncodedSize_eq, hh.encodedSize_eq] at hsized
  obtain ⟨w, hnew, hw⟩ :=
    exists_new (D := D) hsized.pos hh.encoding c.bytes.length []
  have hencode := runs_encodeFile_converts
    (Nat.mul_pos DataField.capacity_pos hsized.pos : 0 < DataField.dataByteCapacity F * _) hnew
  obtain ⟨file, hfile⟩ := Option.isSome_iff_exists.mp hh.metadata
  unfold FilePersistence.reencodeUnencodedFile writing writeTree writeMetadata
  simp only [runs_bind, runs_get, runs_lift, runs_modify, runs_zoom,
    hh.agrees.describes.unencoded, hh.preEncodedSize_eq, hh.encodedSize_eq, hfile]
  refine ⟨c.bytes, rfl, w, hnew, hencode.mono ?_⟩
  rintro ⟨metadata, tree⟩ w' ⟨hmetadata, ⟨leaves, hleaves, htree⟩, hconverts⟩
  change metadata = _ at hmetadata
  rw [countedRows_eq_iff.mpr hkept] at hmetadata
  subst hmetadata
  have hconverted := hconverts hkept
  rw [hw] at hconverted
  have hlen : tree.len = c.encodedSize * 2 - 1 := hleaves ▸ (MerkleTree.len_new htree).1
  refine ⟨(), ensure_eq_ok.mpr hlen, file, rfl, _, newLigero_of_encoding hh.encoding .., ?_⟩
  exact ⟨⟨⟨hsized, rfl, rfl, rfl⟩, ⟨hconverted.stores, rfl, rfl⟩, hconverted.tree⟩, rfl, rfl,
    hh.encoding, rfl⟩

theorem Holds.update (hh : Holds fft c h) {update : FileUpdate} (hkept : KeepsRows F c update) :
    Ensures (update.run fft) h fun _ h' =>
      Allowed fft c update ∧ Holds fft (applyUpdate c update) h' := by
  cases update with
  | handler call =>
    simp only [FileUpdate.run, ensures_bind, ensures_pure]
    exact hh.handler call
  | reencodeUnencodedFile =>
    refine (hh.reencode hkept).ensures.mono ?_
    intro _ h' hholds
    exact ⟨trivial, hholds⟩
  | reshape pre enc =>
    simp only [FileUpdate.run, ensures_bind, ensures_pure]
    exact hh.reshape pre enc

theorem Holds.update_total (hh : Holds fft c h) {update : FileUpdate}
    (hkept : KeepsRows F c update) (hallowed : Allowed fft c update) :
    ∃ out h', (update.run fft).run h = .ok out h' := by
  cases update with
  | handler call =>
    have hin : call.InRange (rowBytes F h.preEncodedSize) c.bytes := by
      rw [hh.preEncodedSize_eq]
      exact hallowed
    obtain ⟨out, h', hrun⟩ := call_total hh.agrees toJson hh.metadata hin
    exact ⟨(), h', run_bind_ok.mpr ⟨out, h', hrun, rfl⟩⟩
  | reencodeUnencodedFile =>
    obtain ⟨out, h', hrun, -⟩ := hh.reencode hkept
    exact ⟨out, h', hrun⟩
  | reshape pre enc =>
    obtain ⟨out, h', hrun, -⟩ := hh.runs_reshape hallowed
    exact ⟨(), h', run_bind_ok.mpr ⟨out, h', hrun, rfl⟩⟩

end Updates

def applyUpdates (c : Contents) (updates : List FileUpdate) : Contents :=
  updates.foldl applyUpdate c

/-- No update of the run goes on when rows are lost. -/
def AllKeepRows (F : Type) [Field F] [DataField F] (c : Contents) : List FileUpdate → Prop
  | [] => True
  | update :: updates => KeepsRows F c update ∧ AllKeepRows F (applyUpdate c update) updates

def AllAllowed {F : Type} [Field F] [DataField F] (fft : FieldFFT F) (c : Contents) :
    List FileUpdate → Prop
  | [] => True
  | update :: updates => Allowed fft c update ∧ AllAllowed fft (applyUpdate c update) updates

def runUpdates (fft : FieldFFT F) (updates : List FileUpdate) :
    Handling D F fft.Err (List Unit) := forEach updates (FileUpdate.run fft)

section Runs

variable {fft : FieldFFT F} {c : Contents} {h : FileHandler D F fft.Err}

/-- Induction over the updates: the contents are held from one to the next. -/
theorem Holds.updates (hh : Holds fft c h) {updates : List FileUpdate}
    (hkept : AllKeepRows F c updates) : Ensures (runUpdates fft updates) h fun _ h' =>
      AllAllowed fft c updates ∧ Holds fft (applyUpdates c updates) h' := by
  unfold runUpdates forEach
  induction updates generalizing c h with
  | nil =>
    rw [List.mapM_nil, ensures_pure]
    exact ⟨trivial, hh⟩
  | cons update updates ih =>
    simp only [List.mapM_cons, ensures_bind, ensures_pure]
    refine (hh.update hkept.1).mono ?_
    rintro _ h₁ ⟨hallowed, hh₁⟩
    refine (ih hh₁ hkept.2).mono ?_
    rintro _ h₂ ⟨hrest, hh₂⟩
    exact ⟨⟨hallowed, hrest⟩, hh₂⟩

theorem Holds.updates_total (hh : Holds fft c h) {updates : List FileUpdate}
    (hkept : AllKeepRows F c updates) (hallowed : AllAllowed fft c updates) :
    ∃ outs h', (runUpdates fft updates).run h = .ok outs h' := by
  unfold runUpdates forEach
  induction updates generalizing c h with
  | nil => exact ⟨[], h, by rw [List.mapM_nil]; rfl⟩
  | cons update updates ih =>
    obtain ⟨out, h₁, hrun⟩ := hh.update_total hkept.1 hallowed.1
    obtain ⟨-, hh₁⟩ : Allowed fft c update ∧ Holds fft (applyUpdate c update) h₁ :=
      hh.update hkept.1 out h₁ hrun
    obtain ⟨outs, h₂, hruns⟩ := ih hh₁ hkept.2 hallowed.2
    refine ⟨out :: outs, h₂, ?_⟩
    rw [List.mapM_cons]
    exact run_bind_ok.mpr ⟨out, h₁, hrun, run_bind_ok.mpr ⟨outs, h₂, hruns, rfl⟩⟩

/-- A created handler follows its byte string: over all updates, reshapes among them, that lose no
rows, its files agree on the bytes that the updates make, at the sizes of the last reshape. Such
updates succeed exactly when each is in range of the bytes at its turn. -/
theorem contents_follow_updates {reader : MetadataReader} {ulid : Ulid} {pre enc : ℕ}
    {stored stored' : Files} {fileHandle : Option (Option (List UInt8))}
    (hcreated : (createFromUnencodedFile fft reader D ulid fileHandle pre enc).run stored =
      .ok h stored') :
    ∃ b, unencodedSource stored fileHandle = some b ∧
      ∀ updates, AllKeepRows F ⟨pre, enc, b⟩ updates →
        (∀ outs h', (runUpdates fft updates).run h = .ok outs h' →
          Holds fft (applyUpdates ⟨pre, enc, b⟩ updates) h' ∧ verifyAllFilesAgree h' = .ok ()) ∧
        ((∃ outs h', (runUpdates fft updates).run h = .ok outs h') ↔
          AllAllowed fft ⟨pre, enc, b⟩ updates) := by
  obtain ⟨b, hsource, hh⟩ := ensures_createFromUnencodedFile_holds h stored' hcreated
  refine ⟨b, hsource, ?_⟩
  intro updates hkept
  refine ⟨?_, ?_, hh.updates_total hkept⟩
  · intro outs h' hrun
    obtain ⟨-, hh'⟩ : AllAllowed fft ⟨pre, enc, b⟩ updates ∧
        Holds fft (applyUpdates ⟨pre, enc, b⟩ updates) h' := hh.updates hkept outs h' hrun
    exact ⟨hh', verifyAllFilesAgree_eq_ok hh'.agrees⟩
  · rintro ⟨outs, h', hrun⟩
    obtain ⟨hallowed, -⟩ : AllAllowed fft ⟨pre, enc, b⟩ updates ∧
        Holds fft (applyUpdates ⟨pre, enc, b⟩ updates) h' := hh.updates hkept outs h' hrun
    exact hallowed

end Runs

def mixedUpdates : List FileUpdate :=
  [.handler (.appendBytes [4]), .reshape 1 4, .handler (.editBytes 0 [9]), .reencodeUnencodedFile,
    .handler (.appendBytes [5, 6]), .handler (.reencodeRow 2)]

theorem mixedUpdates_keep : AllKeepRows (ZMod 257) ⟨1, 2, [1, 2, 3]⟩ mixedUpdates :=
  ⟨trivial, trivial, trivial, by unfold KeepsRows LosesRows; decide, trivial, trivial, trivial⟩

theorem mixedUpdates_allowed : AllAllowed fermatFft ⟨1, 2, [1, 2, 3]⟩ mixedUpdates :=
  ⟨trivial, ⟨by decide, by unfold LosesRows; decide, _, rfl⟩, by unfold Allowed; decide, trivial,
    trivial, by unfold Allowed; decide, trivial⟩

theorem contents_follow_updates_mixed :
    ∃ h stored, (createFromUnencodedFile fermatFft metadataReader byteSum 1 none 1 2).run
      ⟨some [1, 2, 3], none, none, none⟩ = .ok h stored ∧
    ∃ outs h', (runUpdates fermatFft mixedUpdates).run h = .ok outs h' ∧
      Holds fermatFft ⟨1, 4, [9, 2, 3, 4, 5, 6]⟩ h' ∧ verifyAllFilesAgree h' = .ok () := by
  have hcreate : Runs (createFromUnencodedFile fermatFft metadataReader byteSum 1 none 1 2)
      ⟨some [1, 2, 3], none, none, none⟩ fun _ _ => True := by
    decide +kernel
  obtain ⟨h, stored, hcreated, -⟩ := hcreate
  obtain ⟨b, hsource, hfollows⟩ := contents_follow_updates hcreated
  obtain rfl := Option.some.inj hsource
  obtain ⟨hholds, hsucceeds⟩ := hfollows mixedUpdates mixedUpdates_keep
  obtain ⟨outs, h', hrun⟩ := hsucceeds.mpr mixedUpdates_allowed
  obtain ⟨hh, hverify⟩ := hholds outs h' hrun
  exact ⟨h, stored, hcreated, outs, h', hrun, hh, hverify⟩

end FileContents
