import ProofOfStorage.NetworkUploads
import ProofOfStorage.NetworkVersions

/-! # The metadata that a client keeps

Every flow keeps the metadata of the first reply. An edit compares all that describes the file, an
append the columns and the size, a reshape the columns, and an upload nothing.
-/
namespace NetworkMetadata

open FoundationFaults FoundationSlices FoundationInteraction CommitmentTypes FileFields DataField
open NetworkMessages NetworkClient NetworkUploads NetworkUpdates NetworkVersions

variable {D : Digest} {F Err α β : Type}

/-- Metadata that describes a file by its name, its columns and its length. -/
structure IsRecordOf (F : Type) [Field F] [DataField F] (fileMetadata : FileMetadata D)
    (filename : String) (numColumns numEncodedColumns : ℕ) (file : List UInt8) : Prop where
  name : fileMetadata.filename = filename
  columns : fileMetadata.numColumns = numColumns
  encodedColumns : fileMetadata.numEncodedColumns = numEncodedColumns
  size : fileMetadata.filesizeInBytes = file.length
  rows : fileMetadata.numRows = divCeil
    (divCeil fileMetadata.filesizeInBytes (dataByteCapacity F)) fileMetadata.numColumns

section Replies

variable {message : ClientMessages D F} {failed : String}
  {select : ServerMessages D F Err → Option α} {records : Records D}
  {replies : List (Option (ServerMessages D F Err))} {b : β}

theorem request_result {f : α → Client D F Err β}
    (h : (replay (request message failed select >>= f) records replies).result = .ok b) :
    ∃ transmission content, replies.head? = some (some transmission) ∧
      select transmission = some content ∧
      (replay (f content) records replies.tail).result = .ok b := by
  refine receive_result ?_ ?_ h
  · intro transmission content hselect
    simp only [replied, hselect]
  · intro reply hrefused
    rcases reply with _ | transmission
    · exact ⟨_, rfl⟩
    have hnone : select transmission = none := hrefused
    simp only [replied, hnone]
    cases transmission <;> exact ⟨_, rfl⟩

theorem uploadRequest_result {f : α → Upload D F Err β}
    (h : (replay (uploadRequest message failed select >>= f) records replies).result = .ok b) :
    ∃ transmission content, replies.head? = some (some transmission) ∧
      select transmission = some content ∧
      (replay (f content) records replies.tail).result = .ok b := by
  refine receive_result ?_ ?_ h
  · intro transmission content hselect
    simp only [uploadReplied, hselect]
  · intro reply hrefused
    rcases reply with _ | transmission
    · exact ⟨_, rfl⟩
    have hnone : select transmission = none := hrefused
    simp only [uploadReplied, hnone]
    cases transmission <;> exact ⟨_, rfl⟩

theorem uploadChecked_result {x : Fallible (UploadError Err) α} {f : α → Upload D F Err β}
    (h : (replay (uploadChecked x >>= f) records replies).result = .ok b) :
    ∃ a, x = .ok a ∧ (replay (f a) records replies).result = .ok b := by
  cases x with
  | ok a => exact ⟨a, rfl, h⟩
  | error e => cases h

theorem returns_ensureThat_bind {G : α → Prop} {p : Prop} [Decidable p] {text : String}
    {f : Unit → Client D F Err α} (hf : p → Returns G (f ())) :
    Returns G (ensureThat p text >>= f) := by
  rw [ensureThat_bind]
  by_cases hp : p
  · rw [if_pos hp]
    exact hf hp
  · rw [if_neg hp]
    exact trivial

end Replies

variable [Field F] [DataField F]

section Flows

variable {env : Environment F} {fileMetadata m : FileMetadata D} {records : Records D}
  {replies : List (Option (ServerMessages D F env.fft.Err))} {file dataToAppend : List UInt8}

/-- An upload keeps all of the reply but the port. -/
theorem uploadFile_result {files : String → Option (List UInt8)} {fileName serverIp : String}
    {pre enc : Option ℕ} (hfile : files fileName = some file)
    (h : (replay (uploadFile env files fileName pre enc serverIp) records replies).result =
      .ok m) :
    ∃ numColumns numEncodedColumns soundness reply,
      uploadDimensions env file.length pre enc = .ok (numColumns, numEncodedColumns, soundness) ∧
      replies.head? = some (some (.compactCommit reply)) ∧
      m = { reply with
        storedServer := { reply.storedServer with serverPort := serverPortOf serverIp } } := by
  unfold uploadFile at h
  obtain ⟨fileData, hread, h⟩ := uploadChecked_result h
  obtain rfl : file = fileData := by
    rw [hfile] at hread
    exact Except.ok.inj hread
  obtain ⟨dimensions, hdimensions, h⟩ := uploadChecked_result h
  obtain ⟨leaves, -, h⟩ := uploadChecked_result h
  obtain ⟨transmission, reply, hhead, hselect, h⟩ := uploadRequest_result h
  obtain rfl := compactCommit_eq_some hselect
  obtain ⟨-, receivedColumns, -, -, h⟩ := uploadRequest_result h
  obtain ⟨-, -, h⟩ := uploadChecked_result h
  refine ⟨_, _, _, reply, hdimensions, hhead, ?_⟩
  refine Returns.result (G := fun m => m = _) ?_ h
  exact rfl

variable [DecidableEq F]

theorem returns_judgeAppend {appended : FileMetadata D} :
    Returns (fun m => m = appended ∧ m.numColumns = fileMetadata.numColumns ∧
        m.numEncodedColumns = fileMetadata.numEncodedColumns ∧
        m.filesizeInBytes = fileMetadata.filesizeInBytes + dataToAppend.length)
      (judgeAppend env fileMetadata dataToAppend appended : Client D F Err _) := by
  unfold judgeAppend
  split
  · exact trivial
  rename_i hsame
  split
  · exact trivial
  rename_i hsize
  apply Returns.bind_any
  intro evaluations
  dsimp only
  split
  · apply Returns.bind_any
    intro completed
    split
    · exact trivial
    · obtain ⟨hcolumns, hencoded⟩ := not_or.mp hsame
      exact ⟨rfl, (not_not.mp hcolumns).symm, (not_not.mp hencoded).symm, not_not.mp hsize⟩
  · exact trivial

theorem appendToFile_result
    (h : (replay (appendToFile env fileMetadata dataToAppend) records replies).result = .ok m) :
    replies.head? = some (some (.compactCommit m)) ∧ m.numColumns = fileMetadata.numColumns ∧
      m.numEncodedColumns = fileMetadata.numEncodedColumns ∧
      m.filesizeInBytes = fileMetadata.filesizeInBytes + dataToAppend.length := by
  obtain ⟨transmission, appended, hhead, hselect, h⟩ := request_result h
  obtain rfl := compactCommit_eq_some hselect
  obtain ⟨rfl, hkept⟩ := returns_judgeAppend.result h
  exact ⟨hhead, hkept⟩

theorem returns_judgeEdit {start : ℕ} {edited : FileMetadata D} :
    Returns (fun m => m = edited ∧ m.filesizeInBytes = fileMetadata.filesizeInBytes ∧
        m.filename = fileMetadata.filename ∧ m.numRows = fileMetadata.numRows ∧
        m.numColumns = fileMetadata.numColumns ∧
        m.numEncodedColumns = fileMetadata.numEncodedColumns)
      (judgeEdit env fileMetadata dataToAppend start edited : Client D F Err _) := by
  unfold judgeEdit
  apply returns_ensureThat_bind
  intro hsize
  apply returns_ensureThat_bind
  intro hname
  apply returns_ensureThat_bind
  intro hrows
  apply returns_ensureThat_bind
  intro hcolumns
  apply returns_ensureThat_bind
  intro hencoded
  apply returns_ensureThat_bind
  intro hroot
  dsimp only
  -- the two row numbers, the evaluations and what is checked of the rows in them
  iterate 6 refine Returns.bind_any fun _ => ?_
  split
  · iterate 2 refine Returns.bind_any fun _ => ?_
    exact ⟨rfl, hsize, hname, hrows, hcolumns, hencoded⟩
  · exact trivial

theorem editFile_result {start : ℕ}
    (h : (replay (editFile env fileMetadata dataToAppend start) records replies).result = .ok m) :
    EditInBounds fileMetadata dataToAppend start ∧
      m.filesizeInBytes = fileMetadata.filesizeInBytes ∧ m.filename = fileMetadata.filename ∧
      m.numRows = fileMetadata.numRows ∧ m.numColumns = fileMetadata.numColumns ∧
      m.numEncodedColumns = fileMetadata.numEncodedColumns := by
  by_cases hbounds : EditInBounds fileMetadata dataToAppend start
  · rw [editFile_of_inBounds hbounds] at h
    obtain ⟨transmission, edited, -, -, h⟩ := request_result h
    exact ⟨hbounds, (returns_judgeEdit.result h).2⟩
  · obtain ⟨text, hbail⟩ := editFile_of_not_inBounds env.fft.Err env hbounds
    rw [hbail] at h
    cases h

theorem reshapeFile_result {pre enc : ℕ}
    (h : (replay (reshapeFile env fileMetadata pre enc) records replies).result = .ok m) :
    replies.head? = some (some (.compactCommit m)) ∧ m.numColumns = pre ∧
      m.numEncodedColumns = enc := by
  unfold reshapeFile at h
  obtain ⟨transmission, reshaped, hhead, hselect, h⟩ := request_result h
  obtain rfl := compactCommit_eq_some hselect
  have hreturns : m = reshaped ∧ m.numColumns = pre ∧ m.numEncodedColumns = enc := by
    refine Returns.result
      (G := fun m => m = reshaped ∧ m.numColumns = pre ∧ m.numEncodedColumns = enc) ?_ h
    split
    · exact trivial
    rename_i hshape
    obtain ⟨hencoded, hcolumns⟩ := not_or.mp hshape
    apply Returns.bind_any
    intro evaluations
    dsimp only
    split
    · split
      · exact trivial
      · exact ⟨rfl, not_not.mp hcolumns, not_not.mp hencoded⟩
    · exact trivial
  obtain ⟨rfl, hshape⟩ := hreturns
  exact ⟨hhead, hshape⟩

end Flows

section Records

variable [DecidableEq F]

/-- Metadata that the client returns describes the file after an edit. After another flow it does so
exactly when the first reply is right in what the flow does not compare: all of it after an upload,
the name and the rows after an append, the name, the size and the rows after a reshape. -/
theorem isRecordOf_iff_first_reply (env : Environment F) (records : Records D)
    (replies : List (Option (ServerMessages D F env.fft.Err))) (m : FileMetadata D)
    (file : List UInt8) :
    (∀ (files : String → Option (List UInt8)) (fileName serverIp : String) (pre enc : Option ℕ),
      files fileName = some file →
      (replay (uploadFile env files fileName pre enc serverIp) records replies).result = .ok m →
      ∃ numColumns numEncodedColumns soundness reply,
        uploadDimensions env file.length pre enc = .ok (numColumns, numEncodedColumns, soundness) ∧
        replies.head? = some (some (.compactCommit reply)) ∧
        (IsRecordOf F m fileName numColumns numEncodedColumns file ↔
          reply.filename = fileName ∧ reply.numColumns = numColumns ∧
          reply.numEncodedColumns = numEncodedColumns ∧ reply.filesizeInBytes = file.length ∧
          reply.numRows = divCeil (divCeil file.length (dataByteCapacity F)) numColumns)) ∧
    ∀ fileMetadata : FileMetadata D, IsRecordOf F fileMetadata fileMetadata.filename
        fileMetadata.numColumns fileMetadata.numEncodedColumns file →
      (∀ dataToAppend : List UInt8,
        (replay (appendToFile env fileMetadata dataToAppend) records replies).result = .ok m →
        ∃ reply, replies.head? = some (some (.compactCommit reply)) ∧
          (IsRecordOf F m fileMetadata.filename fileMetadata.numColumns
              fileMetadata.numEncodedColumns ((Change.append dataToAppend).content file) ↔
            reply.filename = fileMetadata.filename ∧ reply.numRows = divCeil
              (divCeil ((Change.append dataToAppend).content file).length (dataByteCapacity F))
              fileMetadata.numColumns)) ∧
      (∀ (dataToAppend : List UInt8) (start : ℕ),
        (replay (editFile env fileMetadata dataToAppend start) records replies).result = .ok m →
        IsRecordOf F m fileMetadata.filename fileMetadata.numColumns
          fileMetadata.numEncodedColumns ((Change.edit dataToAppend start).content file)) ∧
      ∀ pre enc : ℕ,
        (replay (reshapeFile env fileMetadata pre enc) records replies).result = .ok m →
        ∃ reply, replies.head? = some (some (.compactCommit reply)) ∧
          (IsRecordOf F m fileMetadata.filename pre enc file ↔
            reply.filename = fileMetadata.filename ∧ reply.filesizeInBytes = file.length ∧
            reply.numRows = divCeil (divCeil file.length (dataByteCapacity F)) pre) := by
  constructor
  · intro files fileName serverIp pre enc hfile h
    obtain ⟨numColumns, numEncodedColumns, soundness, reply, hdimensions, hhead, rfl⟩ :=
      uploadFile_result hfile h
    refine ⟨numColumns, numEncodedColumns, soundness, reply, hdimensions, hhead, ?_⟩
    constructor
    · rintro ⟨rfl, rfl, rfl, hsize, hrows⟩
      exact ⟨rfl, rfl, rfl, hsize, hsize ▸ hrows⟩
    · rintro ⟨rfl, rfl, rfl, hsize, hrows⟩
      exact ⟨rfl, rfl, rfl, hsize, hsize ▸ hrows⟩
  intro fileMetadata hknown
  refine ⟨?_, ?_, ?_⟩
  · intro dataToAppend h
    obtain ⟨hhead, hcolumns, hencoded, hsize⟩ := appendToFile_result h
    have hlen : m.filesizeInBytes = ((Change.append dataToAppend).content file).length := by
      rw [hsize, hknown.size, Change.content, List.length_append]
    refine ⟨m, hhead, ?_⟩
    constructor
    · intro hm
      exact ⟨hm.name, by rw [hm.rows, hlen, hcolumns]⟩
    · rintro ⟨hname, hrows⟩
      exact ⟨hname, hcolumns, hencoded, hlen, by rw [hrows, hlen, hcolumns]⟩
  · intro dataToAppend start h
    obtain ⟨⟨hbounds, -⟩, hsize, hname, hrows, hcolumns, hencoded⟩ := editFile_result h
    have hlen : ((Change.edit dataToAppend start).content file).length = file.length := by
      rw [hknown.size] at hbounds
      simp only [Change.content, List.length_append, List.length_take, List.length_drop]
      omega
    refine ⟨hname, hcolumns, hencoded, by rw [hsize, hknown.size, hlen], ?_⟩
    rw [hrows, hsize, hcolumns]
    exact hknown.rows
  · intro pre enc h
    obtain ⟨hhead, hcolumns, hencoded⟩ := reshapeFile_result h
    refine ⟨m, hhead, ?_⟩
    constructor
    · intro hm
      exact ⟨hm.name, hm.size, by rw [hm.rows, hm.size, hcolumns]⟩
    · rintro ⟨hname, hsize, hrows⟩
      exact ⟨hname, hcolumns, hencoded, hsize, by rw [hrows, hsize, hcolumns]⟩

def editReturning : Fallible (ClientError byteSum (ZMod 257) Unit) (FileMetadata byteSum) :=
  (replay (editFile fermatEnvironment (firstUpload 2 1 2 2 6) [5] 0) (fun _ => none)
    [some (.compactCommit ⟨2, "file", 2, 1, 2, 2, ⟨none, "", 0⟩, ⟨#v[14]⟩⟩),
      some (.editEvaluation [] [] [4] [] [1])]).result

def appendReturning (filename : String) (numRows : ℕ) :
    Fallible (ClientError byteSum (ZMod 257) Unit) (FileMetadata byteSum) :=
  (replay (appendToFile fermatEnvironment (firstUpload 2 1 2 2 6) [5]) (fun _ => none)
    [some (.compactCommit ⟨2, filename, numRows, 1, 2, 3, ⟨none, "", 0⟩, ⟨#v[16]⟩⟩),
      some (.appendEvaluation [] [] [45] [] [])]).result

def uploadReturning (fileMetadata : FileMetadata byteSum) :
    Fallible (UploadError Unit) (FileMetadata byteSum) :=
  (replay (uploadFile fermatEnvironment (fun _ => some [1, 2]) "file" (some 1) (some 2)
    "localhost:8080") (fun _ => none)
    [some (.compactCommit fileMetadata),
      some (.columns (.replicate 2 ⟨[1, (2 : ℕ)], [#v[3]]⟩))]).result

theorem isRecordOf_small :
    (∃ m, editReturning = .ok m ∧ IsRecordOf (ZMod 257) m "file" 1 2 [5, 2]) ∧
      ∃ m, appendReturning "file" 3 = .ok m ∧ IsRecordOf (ZMod 257) m "file" 1 2 [1, 2, 5] := by
  have hknown : IsRecordOf (ZMod 257) (firstUpload 2 1 2 2 6) "file" 1 2 [1, 2] :=
    ⟨rfl, rfl, rfl, rfl, rfl⟩
  constructor
  · obtain ⟨m, hm⟩ := exists_ok_of_isSome (x := editReturning) (by decide +kernel)
    exact ⟨m, hm, ((isRecordOf_iff_first_reply _ _ _ m [1, 2]).2 _ hknown).2.1 [5] 0 hm⟩
  · obtain ⟨m, hm⟩ := exists_ok_of_isSome (x := appendReturning "file" 3) (by decide +kernel)
    obtain ⟨reply, hhead, hiff⟩ :=
      ((isRecordOf_iff_first_reply _ _ _ m [1, 2]).2 _ hknown).1 [5] hm
    obtain rfl := ServerMessages.compactCommit.inj (Option.some.inj (Option.some.inj hhead))
    exact ⟨m, hm, hiff.mpr ⟨rfl, rfl⟩⟩

/-- All that describes the file is wrong after an upload, and the name and the rows are wrong after
an append. -/
theorem wrong_metadata_returned :
    (∃ m, uploadReturning ⟨1, "other", 9, 5, 8, 3, ⟨none, "", 0⟩, ⟨#v[6]⟩⟩ = .ok m ∧
      ¬IsRecordOf (ZMod 257) m "file" 1 2 [1, 2]) ∧
    ∃ m, appendReturning "other" 9 = .ok m ∧ ¬IsRecordOf (ZMod 257) m "file" 1 2 [1, 2, 5] := by
  constructor
  · obtain ⟨m, hm⟩ := exists_ok_of_isSome (x := uploadReturning
      ⟨1, "other", 9, 5, 8, 3, ⟨none, "", 0⟩, ⟨#v[6]⟩⟩) (by decide +kernel)
    obtain ⟨-, -, -, reply, -, hhead, hreply⟩ := uploadFile_result rfl hm
    obtain rfl := ServerMessages.compactCommit.inj (Option.some.inj (Option.some.inj hhead))
    subst hreply
    exact ⟨_, hm, fun h => absurd h.size (by decide)⟩
  · obtain ⟨m, hm⟩ := exists_ok_of_isSome (x := appendReturning "other" 9) (by decide +kernel)
    obtain ⟨hhead, -⟩ := appendToFile_result hm
    obtain rfl := ServerMessages.compactCommit.inj (Option.some.inj (Option.some.inj hhead))
    exact ⟨_, hm, fun h => absurd h.name (by decide)⟩

end Records

end NetworkMetadata
