import ProofOfStorage.NetworkVersions
import ProofOfStorage.FileRows

/-! # The records that the server keeps

An upload and an append count the rows of the new file. An edit keeps the number of rows, so it is
right as long as the file does not outgrow its rows.
-/
namespace NetworkRecords

open FoundationFaults FoundationSlices FoundationPositionalFiles FoundationInteraction
open CommitmentTypes CommitmentProof OnlineColumns FileFields FileRows DataField
open NetworkMessages NetworkServer NetworkVersions

variable {D : Digest} {F : Type} [Field F] [DataField F]

/-- Metadata and the bytes that are stored under its identifier. -/
structure Consistent (env : Environment F) (t : Server D) (fileMetadata : FileMetadata D)
    (file : List UInt8) : Prop where
  disk : t.disk fileMetadata.idUlid = some file
  size : fileMetadata.filesizeInBytes = file.length
  rows : fileMetadata.numRows = divCeil
    (divCeil fileMetadata.filesizeInBytes (dataByteCapacity F)) fileMetadata.numColumns
  root : ∃ commit, commitOf env D (convertByteVecToFieldElementsVec file)
    fileMetadata.numColumns fileMetadata.numEncodedColumns = .ok commit ∧
      (getRoot commit : Fallible (ServerError env.fft.Err) _) = .ok fileMetadata.root

/-- A handler answers with metadata and has recorded it. -/
def Recorded {Err : Type} (t : Server D) (fileMetadata : FileMetadata D)
    (response : ServerMessages D F Err) : Prop :=
  response = .compactCommit fileMetadata ∧
    t.database fileMetadata.idUlid = some fileMetadata

variable {env : Environment F} {t t' : Server D} {old : FileMetadata D} {file : List UInt8}
  {response : ServerMessages D F env.fft.Err}

theorem recorded_of_create {fileMetadata : FileMetadata D}
    (h : ((create fileMetadata >>= fun _ => pure (.compactCommit fileMetadata)) :
      Serving D env.fft.Err (ServerMessages D F env.fft.Err)).run t = .ok response t') :
    Recorded t' fileMetadata response ∧ t'.disk = t.disk := by
  obtain ⟨_, t₁, hcreate, h⟩ := run_bind_ok.mp h
  obtain ⟨rfl, rfl⟩ := run_pure_ok.mp h
  rw [run_create] at hcreate
  cases hrecord : t.database fileMetadata.idUlid with
  | some _ =>
    rw [hrecord] at hcreate
    cases hcreate
  | none =>
    rw [hrecord] at hcreate
    obtain ⟨-, rfl⟩ := EStateM.Result.ok.inj hcreate
    exact ⟨⟨rfl, Function.update_self ..⟩, rfl⟩

theorem rows_of_commitOf {pre enc : ℕ} {commit : LcCommit D F}
    (h : commitOf env D (convertByteVecToFieldElementsVec file) pre enc = .ok commit) :
    commit.nRows = divCeil (divCeil file.length (dataByteCapacity F)) pre := by
  obtain ⟨-, hrows, -⟩ := shape_of_commitOf h
  rw [hrows, convertByteVecToFieldElementsVec, length_fromByteVec]

theorem consistent_uploaded {filename : String} {pre enc : ℕ}
    (h : (handleClientUploadNewFile env filename file pre enc).run t = .ok response t') :
    ∃ new : FileMetadata D, Recorded t' new response ∧ Consistent env t' new file ∧
      new.filename = filename ∧ new.numColumns = pre ∧ new.numEncodedColumns = enc := by
  unfold handleClientUploadNewFile at h
  obtain ⟨_, -, h⟩ := run_lift_bind_ok.mp h
  obtain ⟨commit, hcommit, h⟩ := run_lift_bind_ok.mp h
  rw [run_newUlid_bind, run_write_bind] at h
  obtain ⟨root, hroot, h⟩ := run_lift_bind_ok.mp h
  obtain ⟨hrecorded, hdisk⟩ := recorded_of_create h
  refine ⟨_, hrecorded, ⟨?_, rfl, rows_of_commitOf hcommit, commit, hcommit, hroot⟩, rfl, rfl, rfl⟩
  rw [hdisk]
  exact Function.update_self ..

theorem consistent_appended {dataToAppend : List UInt8}
    (h : (handleClientAppendToFile env old dataToAppend).run t = .ok response t') :
    ∃ file, t.disk old.idUlid = some file ∧ ∃ new : FileMetadata D, Recorded t' new response ∧
      Consistent env t' new (file ++ dataToAppend) ∧ new.numColumns = old.numColumns := by
  unfold handleClientAppendToFile at h
  obtain ⟨_, -, h⟩ := run_lift_bind_ok.mp h
  rw [run_newUlid_bind] at h
  obtain ⟨file, hfile, h⟩ := run_read_bind_ok.mp h
  rw [run_write_bind] at h
  obtain ⟨commit, hcommit, h⟩ := run_lift_bind_ok.mp h
  obtain ⟨root, hroot, h⟩ := run_lift_bind_ok.mp h
  obtain ⟨hrecorded, hdisk⟩ := recorded_of_create h
  refine ⟨file, hfile, _, hrecorded, ⟨?_, rfl, ?_, commit, hcommit, hroot⟩, rfl⟩
  · rw [hdisk]
    exact Function.update_self ..
  · exact rows_of_commitOf hcommit

/-- The number of rows stays what it was. -/
theorem edited_recorded {start : ℕ} {replacementBytes : List UInt8}
    (hfile : t.disk old.idUlid = some file)
    (h : (handleClientEditFileBytes env old start replacementBytes).run t = .ok response t') :
    ∃ new : FileMetadata D, Recorded t' new response ∧ 1 ≤ new.numColumns ∧
      new.numColumns = old.numColumns ∧ new.numRows = old.numRows ∧
      t'.disk new.idUlid = some (writeAt file start replacementBytes) ∧
      new.filesizeInBytes = (writeAt file start replacementBytes).length ∧
      ∃ commit, commitOf env D
          (convertByteVecToFieldElementsVec (writeAt file start replacementBytes))
          new.numColumns new.numEncodedColumns = .ok commit ∧
        (getRoot commit : Fallible (ServerError env.fft.Err) _) = .ok new.root := by
  unfold handleClientEditFileBytes at h
  obtain ⟨_, -, h⟩ := run_lift_bind_ok.mp h
  rw [run_newUlid_bind] at h
  obtain ⟨file', hfile', h⟩ := run_read_bind_ok.mp h
  obtain rfl := Option.some.inj (hfile.symm.trans hfile')
  rw [run_write_bind] at h
  obtain ⟨copied, hcopied, h⟩ := run_read_bind_ok.mp h
  simp only [Function.update_self, Option.some.injEq] at hcopied
  subst hcopied
  rw [run_write_bind] at h
  obtain ⟨edited, hedited, h⟩ := run_read_bind_ok.mp h
  simp only [Function.update_self, Option.some.injEq] at hedited
  subst hedited
  obtain ⟨commit, hcommit, h⟩ := run_lift_bind_ok.mp h
  obtain ⟨root, hroot, h⟩ := run_lift_bind_ok.mp h
  obtain ⟨hrecorded, hdisk⟩ := recorded_of_create h
  refine ⟨_, hrecorded, (shape_of_commitOf hcommit).1, rfl, rfl, ?_, rfl, commit, hcommit, hroot⟩
  rw [hdisk]
  exact Function.update_self ..

theorem rows_of_writeAt {start numColumns : ℕ} {replacementBytes : List UInt8}
    (hcols : 1 ≤ numColumns) :
    divCeil (divCeil (writeAt file start replacementBytes).length (dataByteCapacity F))
        numColumns = divCeil (divCeil file.length (dataByteCapacity F)) numColumns ↔
      replacementBytes = [] ∨ start + replacementBytes.length ≤
        divCeil (divCeil file.length (dataByteCapacity F)) numColumns * rowBytes F numColumns := by
  rw [divCeil_divCeil _ capacity_pos hcols, divCeil_divCeil _ capacity_pos hcols]
  change divCeil _ (rowBytes F numColumns) = divCeil _ (rowBytes F numColumns) ↔ _
  have hpos := rowBytes_pos (F := F) hcols
  by_cases hnil : replacementBytes = []
  · subst hnil
    exact iff_of_true rfl (.inl rfl)
  · have hroom := le_divCeil_mul file.length hpos
    have hlen : (writeAt file start replacementBytes).length =
        max file.length (start + replacementBytes.length) := length_writeAt hnil
    rw [divCeil_eq_iff_of_le hpos (by omega), hlen, max_le_iff]
    constructor
    · intro h
      exact .inr h.2
    · intro h
      exact ⟨hroom, h.resolve_left hnil⟩

theorem consistent_edited_iff (h : Consistent env t old file) {start : ℕ}
    {replacementBytes : List UInt8}
    (hrun : (handleClientEditFileBytes env old start replacementBytes).run t = .ok response t') :
    ∃ new : FileMetadata D, Recorded t' new response ∧
      t'.disk new.idUlid = some (writeAt file start replacementBytes) ∧
      (Consistent env t' new (writeAt file start replacementBytes) ↔
        replacementBytes = [] ∨ start + replacementBytes.length ≤
          old.numRows * rowBytes F old.numColumns) := by
  obtain ⟨new, hrecorded, hpos, hcols, hrows, hdisk, hsize, hroot⟩ := edited_recorded h.disk hrun
  have hold : old.numRows =
      divCeil (divCeil file.length (dataByteCapacity F)) old.numColumns := by
    rw [← h.size]
    exact h.rows
  refine ⟨new, hrecorded, hdisk, ?_⟩
  rw [hold, ← rows_of_writeAt (hcols ▸ hpos)]
  constructor
  · intro hnew
    rw [← hold, ← hrows, hnew.rows, hsize, hcols]
  · intro heq
    exact ⟨hdisk, hsize, by rw [hrows, hold, hsize, hcols, heq], hroot⟩

/-- An append leaves metadata that fits the bytes. An edit does so exactly when it writes nothing or
ends within the rows that the file had. -/
theorem consistent_changes_iff (env : Environment F) (t t' : Server D) (old : FileMetadata D)
    (file : List UInt8) (response : ServerMessages D F env.fft.Err)
    (h : Consistent env t old file) :
    (∀ dataToAppend : List UInt8,
      (handleClientAppendToFile env old dataToAppend).run t = .ok response t' →
      ∃ new : FileMetadata D, Recorded t' new response ∧
        Consistent env t' new (file ++ dataToAppend)) ∧
    ∀ (start : ℕ) (replacementBytes : List UInt8),
      (handleClientEditFileBytes env old start replacementBytes).run t = .ok response t' →
      ∃ new : FileMetadata D, Recorded t' new response ∧
        t'.disk new.idUlid = some (writeAt file start replacementBytes) ∧
        (Consistent env t' new (writeAt file start replacementBytes) ↔
          replacementBytes = [] ∨ start + replacementBytes.length ≤
            old.numRows * rowBytes F old.numColumns) := by
  constructor
  · intro dataToAppend hrun
    obtain ⟨file', hfile', new, hrecorded, hconsistent, -⟩ := consistent_appended hrun
    obtain rfl := Option.some.inj (h.disk.symm.trans hfile')
    exact ⟨new, hrecorded, hconsistent⟩
  · intro start replacementBytes hrun
    exact consistent_edited_iff h hrun

theorem consistent_holding :
    Consistent fermatEnvironment (holding (firstUpload 2 1 2 2 6) [1, 2])
      (firstUpload 2 1 2 2 6) [1, 2] := by
  refine ⟨(stored_holding _ _).disk, rfl, rfl, ?_⟩
  have hroot : (commitOf fermatEnvironment byteSum (convertByteVecToFieldElementsVec [1, 2]) 1 2 >>=
      getRoot).toOption.map (fun root => root.root.toList) = some [6] := by decide +kernel
  cases hrun : (commitOf fermatEnvironment byteSum (convertByteVecToFieldElementsVec [1, 2]) 1 2 >>=
      getRoot) with
  | error e =>
    rw [hrun] at hroot
    cases hroot
  | ok root =>
    rw [hrun] at hroot
    obtain ⟨commit, hcommit, hget⟩ := bind_eq_ok.mp hrun
    have hsix : root.root = #v[6] := Vector.toList_inj.mp (Option.some.inj hroot)
    exact ⟨commit, hcommit, hget.trans (congrArg Except.ok (congrArg LcRoot.mk hsix))⟩

theorem consistent_changes_small :
    (∃ new t', (handleClientEditFileBytes fermatEnvironment (firstUpload 2 1 2 2 6) 1 [9]).run
        (holding (firstUpload 2 1 2 2 6) [1, 2]) = .ok (.compactCommit new) t' ∧
      Consistent fermatEnvironment t' new [1, 9]) ∧
    ∃ new t', (handleClientAppendToFile fermatEnvironment (firstUpload 2 1 2 2 6) [9]).run
        (holding (firstUpload 2 1 2 2 6) [1, 2]) = .ok (.compactCommit new) t' ∧
      Consistent fermatEnvironment t' new [1, 2, 9] := by
  constructor
  · obtain ⟨response, t', hrun⟩ := exists_run_of_isSome (x := handleClientEditFileBytes
      fermatEnvironment (firstUpload 2 1 2 2 6) 1 [9])
      (s := holding (firstUpload 2 1 2 2 6) [1, 2]) (by decide +kernel)
    obtain ⟨new, hrecorded, -, hiff⟩ :=
      (consistent_changes_iff _ _ t' _ _ response consistent_holding).2 1 [9] hrun
    rw [hrecorded.1] at hrun
    exact ⟨new, t', hrun, hiff.mpr (.inr (by decide))⟩
  · obtain ⟨response, t', hrun⟩ := exists_run_of_isSome (x := handleClientAppendToFile
      fermatEnvironment (firstUpload 2 1 2 2 6) [9])
      (s := holding (firstUpload 2 1 2 2 6) [1, 2]) (by decide +kernel)
    obtain ⟨new, hrecorded, hconsistent⟩ :=
      (consistent_changes_iff _ _ t' _ _ response consistent_holding).1 [9] hrun
    rw [hrecorded.1] at hrun
    exact ⟨new, t', hrun, hconsistent⟩

/-- A byte behind the second one makes a third row, which the record does not count. -/
theorem edit_behind_end_not_consistent :
    Consistent fermatEnvironment (holding (firstUpload 2 1 2 2 6) [1, 2])
      (firstUpload 2 1 2 2 6) [1, 2] ∧
    ∃ new t', (handleClientEditFileBytes fermatEnvironment (firstUpload 2 1 2 2 6) 2 [9]).run
        (holding (firstUpload 2 1 2 2 6) [1, 2]) = .ok (.compactCommit new) t' ∧
      ¬∃ stored, Consistent fermatEnvironment t' new stored := by
  refine ⟨consistent_holding, ?_⟩
  obtain ⟨response, t', hrun⟩ := exists_run_of_isSome (x := handleClientEditFileBytes
    fermatEnvironment (firstUpload 2 1 2 2 6) 2 [9])
    (s := holding (firstUpload 2 1 2 2 6) [1, 2]) (by decide +kernel)
  obtain ⟨new, hrecorded, hdisk, hiff⟩ := consistent_edited_iff consistent_holding hrun
  rw [hrecorded.1] at hrun
  refine ⟨new, t', hrun, ?_⟩
  rintro ⟨stored, hstored⟩
  obtain rfl := Option.some.inj (hdisk.symm.trans hstored.disk)
  exact absurd (hiff.mp hstored) (by decide)

/-- The versions of a file that a server makes one after the other, by edits that end within the
rows that the file had. -/
inductive Versions (env : Environment F) : Server D → FileMetadata D → List UInt8 → Prop where
  | uploaded {t t' : Server D} {new : FileMetadata D} {filename : String} {file : List UInt8}
      {pre enc : ℕ} (run : (handleClientUploadNewFile env filename file pre enc).run t =
        .ok (.compactCommit new) t') : Versions env t' new file
  | appended {t t' : Server D} {old new : FileMetadata D} {file dataToAppend : List UInt8}
      (version : Versions env t old file)
      (run : (handleClientAppendToFile env old dataToAppend).run t = .ok (.compactCommit new) t') :
      Versions env t' new (file ++ dataToAppend)
  | edited {t t' : Server D} {old new : FileMetadata D} {file replacementBytes : List UInt8}
      {start : ℕ} (version : Versions env t old file)
      (inRows : replacementBytes = [] ∨
        start + replacementBytes.length ≤ old.numRows * rowBytes F old.numColumns)
      (run : (handleClientEditFileBytes env old start replacementBytes).run t =
        .ok (.compactCommit new) t') : Versions env t' new (writeAt file start replacementBytes)

/-- Every version has metadata that fits its bytes, whatever was uploaded and however long the run
of changes is. -/
theorem Versions.consistent {new : FileMetadata D} (h : Versions env t new file) :
    Consistent env t new file := by
  induction h with
  | uploaded run =>
    obtain ⟨new', ⟨hresponse, -⟩, hconsistent, -⟩ := consistent_uploaded run
    obtain rfl := ServerMessages.compactCommit.inj hresponse
    exact hconsistent
  | appended version run ih =>
    obtain ⟨file', hfile', new', ⟨hresponse, -⟩, hconsistent, -⟩ := consistent_appended run
    obtain rfl := Option.some.inj (ih.disk.symm.trans hfile')
    obtain rfl := ServerMessages.compactCommit.inj hresponse
    exact hconsistent
  | edited version inRows run ih =>
    obtain ⟨new', ⟨hresponse, -⟩, -, hiff⟩ := consistent_edited_iff ih run
    obtain rfl := ServerMessages.compactCommit.inj hresponse
    exact hiff.mpr inRows

end NetworkRecords
