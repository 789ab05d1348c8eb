import ProofOfStorage.NetworkInterleavings
import ProofOfStorage.NetworkRecords

/-! # Files and their records

A file is written before its record is made, and its record is deleted before the file is. So
between any two steps, and whatever has failed, a record has a file that it describes, as long as
nobody answers a reshape, an edit or an append.
-/
namespace NetworkBookkeeping

open FoundationFaults FoundationSlices FoundationPositionalFiles FoundationRuns
open FoundationProcesses FoundationInterleaving
open CommitmentTypes CommitmentProof OnlineColumns FileFields FileWriter DataField
open NetworkMessages NetworkServer NetworkVersions NetworkRecords NetworkConnections
open NetworkAtomicity NetworkInterleavings

variable {ι : Type} {D : Digest} {F : Type} [Field F] [DataField F]

/-- Metadata with the size and the root of the file that is stored under its identifier. -/
structure Describes (env : Environment F) (t : Server D) (m : FileMetadata D)
    (file : List UInt8) : Prop where
  disk : t.disk m.idUlid = some file
  size : m.filesizeInBytes = file.length
  root : ∃ commit, commitOf env D (convertByteVecToFieldElementsVec file) m.numColumns
    m.numEncodedColumns = .ok commit ∧
      (getRoot commit : Fallible (ServerError env.fft.Err) _) = .ok m.root

/-- What is recorded under the identifier describes a file. -/
def RecordDescribed (env : Environment F) (id : Ulid) (t : Server D) : Prop :=
  ∀ m, t.database id = some m → m.idUlid = id ∧ ∃ file, Describes env t m file

def RecordsDescribed (env : Environment F) (watched : Set Ulid) (t : Server D) : Prop :=
  ∀ id ∈ watched, RecordDescribed env id t

/-- Nobody touches what is under the new identifier or makes records under the others. -/
def Undisturbed (fresh : Ulid) (ids : List Ulid) (t t' : Server D) : Prop :=
  Frame fresh t t' ∧ ∀ id ∈ ids, NoRecord id t t'

/-- The number of rows is the one that the size gives. -/
def RowsRight (F : Type) [Field F] [DataField F] (m : FileMetadata D) : Prop :=
  m.numRows = divCeil (divCeil m.filesizeInBytes (dataByteCapacity F)) m.numColumns

/-- What the messages that make a file make of it. An edit or an append starts from the bytes that
are under the old identifier at a moment `now` at which it is handled. -/
def Made (now : Server D → Prop) (message : ClientMessages D F) (m : FileMetadata D)
    (file : List UInt8) : Prop :=
  match message with
  | .uploadNewFile filename uploaded pre enc =>
    file = uploaded ∧ RowsRight F m ∧ m.filename = filename ∧ m.numColumns = pre ∧
      m.numEncodedColumns = enc
  | .editFileBytes old start bytes =>
    (∃ t before, now t ∧ t.disk old.idUlid = some before ∧ file = writeAt before start bytes) ∧
      m.numRows = old.numRows ∧ m.filename = old.filename ∧ m.numColumns = old.numColumns ∧
      m.numEncodedColumns = old.numEncodedColumns
  | .appendToFile old bytes =>
    (∃ t before, now t ∧ t.disk old.idUlid = some before ∧ file = before ++ bytes) ∧
      RowsRight F m ∧ m.filename = old.filename ∧ m.numColumns = old.numColumns ∧
      m.numEncodedColumns = old.numEncodedColumns
  | _ => False

/-- The metadata that a handler answers with is recorded and describes the file that it made. -/
def Makes (env : Environment F) (now : Server D → Prop) (fresh : Ulid)
    (message : ClientMessages D F)
    (result : Fallible (ServerError env.fft.Err) (ServerMessages D F env.fft.Err))
    (t : Server D) : Prop :=
  recordsMade fresh message ≠ [] → ∀ m, result = .ok (.compactCommit m) →
    m.idUlid = fresh ∧ t.database fresh = some m ∧
      ∃ file, Made now message m file ∧ Describes env t m file

section Records

variable {env : Environment F} {id id' fresh : Ulid} {ids : List Ulid} {t t' : Server D}

theorem Undisturbed.refl (t : Server D) : Undisturbed fresh ids t t := ⟨.refl t, fun _ _ h => h⟩

theorem Undisturbed.trans {t₁ t₂ t₃ : Server D} (h : Undisturbed fresh ids t₁ t₂)
    (h' : Undisturbed fresh ids t₂ t₃) : Undisturbed fresh ids t₁ t₃ :=
  ⟨h.1.trans h'.1, fun id hid hnone => h'.2 id hid (h.2 id hid hnone)⟩

theorem Describes.frame {m : FileMetadata D} {file : List UInt8} (h : Describes env t m file)
    (hframe : Frame m.idUlid t t') : Describes env t' m file :=
  ⟨hframe.1.trans h.disk, h.size, h.root⟩

theorem RecordDescribed.frame (h : RecordDescribed env id t) (hframe : Frame id t t') :
    RecordDescribed env id t' := by
  intro m hm
  rw [hframe.2] at hm
  obtain ⟨rfl, file, hdescribes⟩ := h m hm
  exact ⟨rfl, file, hdescribes.frame hframe⟩

theorem recordDescribed_none (h : t.database id = none) : RecordDescribed env id t := by
  intro m hm
  cases h.symm.trans hm

theorem RecordDescribed.change (h : RecordDescribed env id t) (hframe : id ≠ id' → Frame id t t')
    (hself : id = id' → RecordDescribed env id t') : RecordDescribed env id t' := by
  by_cases heq : id = id'
  · exact hself heq
  · exact h.frame (hframe heq)

theorem RecordsDescribed.change {watched : Set Ulid} (h : RecordsDescribed env watched t)
    (hframe : ∀ id ≠ id', Frame id t t') (hself : RecordDescribed env id' t') :
    RecordsDescribed env watched t' :=
  fun id hid => (h id hid).change (hframe id) fun heq => heq ▸ hself

theorem keeps_of_frame {α Err : Type} {p : Handling D Err α} (h : Within (Frame id) p) :
    Within (fun a b => RecordDescribed env id a → RecordDescribed env id b) p :=
  h.mono fun _ _ hframe hkept => hkept.frame hframe

theorem keeps_all {α Err : Type} {watched : Set Ulid} {p : Handling D Err α}
    (h : ∀ id ∈ watched, Within
      (fun a b => RecordDescribed env id a → RecordDescribed env id b) p) :
    Within (fun a b => RecordsDescribed env watched a → RecordsDescribed env watched b) p := by
  have hall : Within (fun a b => ∀ id, id ∈ watched →
      RecordDescribed env id a → RecordDescribed env id b) p :=
    Within.forall fun id => Within.forall fun hid => h id hid
  exact hall.mono fun _ _ hkeeps hkept id hid => hkeeps id hid (hkept id hid)

theorem keeps_of_confined {α Err : Type} {seen : List Ulid} {p : Handling D Err α}
    (h : Confined [] [] seen p) :
    Within (fun a b => RecordDescribed env id a → RecordDescribed env id b) p :=
  keeps_of_frame (h.within id List.not_mem_nil)

theorem keeps_delete {Err : Type} : Within
    (fun a b => RecordDescribed env id a → RecordDescribed env id b)
    (atomic (delete id') : Handling D Err _) := by
  refine Within.atomic fun t hkept => ?_
  refine hkept.change (fun hne => .database hne _) fun heq => recordDescribed_none ?_
  subst heq
  exact Function.update_self ..

end Records

section Steps

variable {α : Type} {env : Environment F} {now : Server D → Prop} {watched : Set Ulid}
  {fresh : Ulid} {ids : List Ulid} {t : Server D} {content : Option (List UInt8)}
  {good : Fallible (ServerError env.fft.Err) α → Server D → Prop}

abbrev Keeping (env : Environment F) (now : Server D → Prop) (watched : Set Ulid) (fresh : Ulid)
    (ids : List Ulid) (good : Fallible (ServerError env.fft.Err) α → Server D → Prop)
    (p : Handling D env.fft.Err α) (t : Server D) : Prop :=
  Amid (fun t t' => Undisturbed fresh ids t t' ∧ now t') (RecordsDescribed env watched) good p t

/-- No record has been made under the new identifier yet. -/
structure Unrecorded (fresh : Ulid) (content : Option (List UInt8)) (t : Server D) : Prop where
  disk : t.disk fresh = content
  database : t.database fresh = none

theorem Unrecorded.undisturbed {t' : Server D} (h : Unrecorded fresh content t)
    (hrely : Undisturbed fresh ids t t') : Unrecorded fresh content t' :=
  ⟨hrely.1.1.trans h.disk, hrely.1.2.trans h.database⟩

theorem keeping_drawUlid (herror : ∀ e t, good (.error e) t) (h : Unrecorded fresh content t)
    {f : Unit → Handling D env.fft.Err α}
    (hf : ∀ t, Unrecorded fresh content t → Keeping env now watched fresh ids good (f ()) t) :
    Keeping env now watched fresh ids good (atomic drawUlid >>= f) t := by
  refine Amid.atomic_bind herror fun t' hrely hkept => ⟨fun id hid => ?_, fun _ _ => ?_⟩
  · exact (hkept id hid).frame ⟨rfl, rfl⟩
  · exact hf _ ⟨(h.undisturbed hrely.1).disk, (h.undisturbed hrely.1).database⟩

theorem keeping_read (herror : ∀ e t, good (.error e) t) (h : Unrecorded fresh content t)
    {source : Ulid} {f : List UInt8 → Handling D env.fft.Err α}
    (hf : ∀ t file, Unrecorded fresh content t → (source = fresh → content = some file) →
      (now t ∧ t.disk source = some file) → Keeping env now watched fresh ids good (f file) t) :
    Keeping env now watched fresh ids good (atomic (read source) >>= f) t := by
  refine Amid.atomic_bind herror fun t' hrely hkept => ?_
  have h' := h.undisturbed hrely.1
  rw [run_read]
  cases hfile : t'.disk source with
  | none => exact ⟨hkept, fun _ heq => by cases heq⟩
  | some file =>
    refine ⟨hkept, fun file' heq => ?_⟩
    obtain rfl := Except.ok.inj heq
    refine hf t' file h' (fun hsource => ?_) ⟨hrely.2, hfile⟩
    subst hsource
    exact h'.disk.symm.trans hfile

theorem keeping_write (herror : ∀ e t, good (.error e) t) (h : Unrecorded fresh content t)
    {file : List UInt8} {f : Unit → Handling D env.fft.Err α}
    (hf : ∀ t, Unrecorded fresh (some file) t → Keeping env now watched fresh ids good (f ()) t) :
    Keeping env now watched fresh ids good (atomic (write fresh file) >>= f) t := by
  refine Amid.atomic_bind herror fun t' hrely hkept => ?_
  have h' := h.undisturbed hrely.1
  refine ⟨hkept.change (fun _ hne => .disk hne _) (recordDescribed_none h'.database), fun _ _ => ?_⟩
  exact hf _ ⟨Function.update_self .., h'.database⟩

theorem keeping_patch (herror : ∀ e t, good (.error e) t) {before : List UInt8}
    (h : Unrecorded fresh (some before) t) {start : ℕ} {bytes : List UInt8}
    {f : Unit → Handling D env.fft.Err α}
    (hf : ∀ t, Unrecorded fresh (some (writeAt before start bytes)) t →
      Keeping env now watched fresh ids good (f ()) t) :
    Keeping env now watched fresh ids good (atomic (patch fresh start bytes) >>= f) t := by
  refine Amid.atomic_bind herror fun t' hrely hkept => ?_
  have h' := h.undisturbed hrely.1
  have hrun : (patch fresh start bytes : Serving D env.fft.Err _).run t' = .ok () { t' with
      disk := Function.update t'.disk fresh (some (writeAt before start bytes)) } := by
    rw [patch, EStateM.run_bind, run_read, h'.disk]
    rfl
  rw [hrun]
  refine ⟨hkept.change (fun _ hne => .disk hne _) (recordDescribed_none h'.database), fun _ _ => ?_⟩
  exact hf _ ⟨Function.update_self .., h'.database⟩

theorem keeping_create {message : ClientMessages D F} {m : FileMetadata D} {file : List UInt8}
    (h : Unrecorded fresh (some file) t) (hid : m.idUlid = fresh) (hmade : Made now message m file)
    (hsize : m.filesizeInBytes = file.length)
    (hroot : ∃ commit, commitOf env D (convertByteVecToFieldElementsVec file) m.numColumns
      m.numEncodedColumns = .ok commit ∧
        (getRoot commit : Fallible (ServerError env.fft.Err) _) = .ok m.root) :
    Keeping env now watched fresh ids (Makes env now fresh message)
      (atomic (create m) >>= fun _ => pure (.compactCommit m)) t := by
  refine Amid.atomic_bind (fun _ _ _ _ heq => by cases heq) fun t' hrely hkept => ?_
  have h' := h.undisturbed hrely.1
  subst hid
  rw [run_create, h'.database]
  have hdescribes : Describes env { t' with
      database := Function.update t'.database m.idUlid (some m) } m file :=
    ⟨h'.disk, hsize, hroot⟩
  have hrecord : Function.update t'.database m.idUlid (some m) m.idUlid = some m :=
    Function.update_self ..
  refine ⟨hkept.change (fun _ hne => .database hne _) fun m' hm' => ?_, fun _ _ => ?_⟩
  · obtain rfl := Option.some.inj (hrecord.symm.trans hm')
    exact ⟨rfl, file, hdescribes⟩
  · refine Amid.done _ fun t'' hlast _ _ m' heq => ?_
    obtain rfl := ServerMessages.compactCommit.inj (Except.ok.inj heq)
    exact ⟨rfl, hlast.1.1.2.trans hrecord, file, hmade, hdescribes.frame hlast.1.1⟩

end Steps

section Handlers

variable {env : Environment F} {now : Server D → Prop} {watched : Set Ulid} {id fresh : Ulid}
  {ids : List Ulid} {t : Server D} {old new m : FileMetadata D}

theorem Makes.error {message : ClientMessages D F} (e : Fault (ServerError env.fft.Err))
    (t : Server D) : Makes env now fresh message (.error e) t := fun _ _ heq => by cases heq

theorem keeping_upload (filename : String) (file : List UInt8) (pre enc : ℕ)
    (h : Unrecorded fresh none t) : Keeping env now watched fresh ids
      (Makes env now fresh (.uploadNewFile filename file pre enc))
      (NetworkConnections.handleClientUploadNewFile env fresh filename file pre enc) t := by
  refine Amid.done_bind Makes.error fun _ _ => Amid.done_bind Makes.error fun commit hcommit => ?_
  refine keeping_drawUlid Makes.error h fun t h => keeping_write Makes.error h fun t h => ?_
  refine Amid.done_bind Makes.error fun root hroot => ?_
  refine keeping_create h rfl ?_ rfl ⟨commit, hcommit, hroot⟩
  exact ⟨rfl, rows_of_commitOf hcommit, rfl, rfl, rfl⟩

theorem keeping_edit (start : ℕ) (bytes : List UInt8) (h : Unrecorded fresh none t) :
    Keeping env now watched fresh ids (Makes env now fresh (.editFileBytes old start bytes))
      (NetworkConnections.handleClientEditFileBytes env fresh old start bytes) t := by
  refine Amid.done_bind Makes.error fun _ _ => keeping_drawUlid Makes.error h fun t h => ?_
  refine keeping_read Makes.error h fun t₀ before h _ hbefore => ?_
  refine keeping_write Makes.error h fun t h => keeping_patch Makes.error h fun t h => ?_
  refine keeping_read Makes.error h fun t file h hfile _ => ?_
  obtain rfl := Option.some.inj (hfile rfl)
  refine Amid.done_bind Makes.error fun commit hcommit => ?_
  refine Amid.done_bind Makes.error fun root hroot => ?_
  refine keeping_create h rfl ?_ rfl ⟨commit, hcommit, hroot⟩
  exact ⟨⟨t₀, before, hbefore.1, hbefore.2, rfl⟩, rfl, rfl, rfl, rfl⟩

theorem keeping_append (bytes : List UInt8) (h : Unrecorded fresh none t) :
    Keeping env now watched fresh ids (Makes env now fresh (.appendToFile old bytes))
      (NetworkConnections.handleClientAppendToFile env fresh old bytes) t := by
  refine Amid.done_bind Makes.error fun _ _ => keeping_drawUlid Makes.error h fun t h => ?_
  refine keeping_read Makes.error h fun t₀ before h _ hbefore => ?_
  refine keeping_write Makes.error h fun t h => ?_
  refine Amid.done_bind Makes.error fun commit hcommit => ?_
  refine Amid.done_bind Makes.error fun root hroot => ?_
  refine keeping_create h rfl ?_ rfl ⟨commit, hcommit, hroot⟩
  exact ⟨⟨t₀, before, hbefore.1, hbefore.2, rfl⟩, rows_of_commitOf hcommit, rfl, rfl, rfl⟩

/-- Once the record is gone and nobody makes another one, the file may go too. -/
theorem keeping_deleteFile (hmem : m.idUlid ∈ ids) :
    Keeping env now watched fresh ids (fun _ _ => True) (NetworkConnections.handleClientDeleteFile env m) t := by
  refine Amid.done_bind (fun _ _ => trivial) fun _ _ => ?_
  refine Amid.atomic_bind (fun _ _ => trivial) fun t₁ hrely₁ hkept₁ => ?_
  have hgone : Function.update t₁.database m.idUlid none m.idUlid = none := Function.update_self ..
  refine ⟨hkept₁.change (fun _ hne => .database hne _) (recordDescribed_none hgone),
    fun record _ => ?_⟩
  refine Amid.atomic_bind (fun _ _ => trivial) fun t₂ hrely₂ hkept₂ => ?_
  refine ⟨hkept₂.change (fun _ hne => .disk hne _)
    (recordDescribed_none (hrely₂.1.2 _ hmem hgone)), fun onDisk _ => ?_⟩
  exact Amid.done_bind (fun _ _ => trivial) fun _ _ => Amid.done _ fun _ _ _ => trivial

theorem keeps_rename {source target : Ulid} (hsource : id ≠ source) (htarget : id ≠ target) :
    Within (fun a b => RecordDescribed env id a → RecordDescribed env id b)
      (atomic (rename source target) : Handling D env.fft.Err _) :=
  keeps_of_frame (Within.atomic (effects_rename hsource htarget))

theorem keeps_others (env : Environment F) {message : ClientMessages D F}
    (hmade : recordsMade fresh message = [])
    (hdelete : ∀ m, message ≠ .deleteFile m) (hid : id ∉ answered message) :
    Within (fun a b => RecordDescribed env id a → RecordDescribed env id b)
      (handleFiles env fresh message) := by
  have hreading : ∀ {source : Ulid}, readFrom message = some source → Within
      (fun a b => RecordDescribed env id a → RecordDescribed env id b)
      (handleFiles env fresh message) := fun hsource =>
    keeps_of_confined (confined_readFrom hsource (List.mem_singleton_self _))
  cases message with
  | requestFileReshape m pre enc =>
    refine (Within.done _).bind fun _ => Within.bind ?_ fun _ => (Within.done _).bind fun _ => ?_
    · exact keeps_of_frame (Within.atomic effects_read)
    · refine Within.bind (keeps_of_frame (Within.atomic effects_drawUlid)) fun _ => ?_
      exact (Within.done _).bind fun _ => .done _
  | reshapeResponse new old accepted =>
    refine (Within.done _).bind fun _ => (Within.done _).bind fun _ => ?_
    cases accepted with
    | true =>
      obtain ⟨hold, hnew⟩ := not_or.mp fun h => hid (List.mem_pair.mpr h)
      exact (keeps_rename hold hnew).bind fun _ => keeps_delete.bind fun _ => .done _
    | false => exact keeps_delete.bind fun _ => .done _
  | editOrAppendResponse new old accepted =>
    obtain ⟨hold, hnew⟩ := not_or.mp fun h => hid (List.mem_pair.mpr h)
    refine (Within.done _).bind fun _ => (Within.done _).bind fun _ => ?_
    cases accepted with
    | true =>
      refine (keeps_rename hold hnew).bind fun _ => keeps_delete.bind fun _ => ?_
      exact (keeps_of_frame (Within.atomic (effects_removeFile hold))).bind fun _ => .done _
    | false =>
      refine keeps_delete.bind fun _ => ?_
      exact (keeps_of_frame (Within.atomic (effects_removeFile hnew))).bind fun _ => .done _
  | requestAppendEvaluation old new point columns =>
    exact keeps_of_confined (confined_evaluation none List.mem_cons_self
      (List.mem_cons_of_mem _ (List.mem_singleton_self _)))
  | requestEditEvaluation old new point columns range =>
    exact keeps_of_confined (confined_evaluation (some range) List.mem_cons_self
      (List.mem_cons_of_mem _ (List.mem_singleton_self _)))
  | clientKeepAlive => exact .done _
  | deleteFile m => exact absurd rfl (hdelete m)
  | requestFile m => exact hreading rfl
  | requestProof m columns => exact hreading rfl
  | requestPolynomialEvaluation m point => exact hreading rfl
  | requestReshapeEvaluation old new point original expanded => exact hreading rfl
  | _ => cases hmade

/-- A handler amid the others keeps what is recorded described, and describes what it makes. -/
theorem keeping_handleFiles (message : ClientMessages D F) (h : Unrecorded fresh none t)
    (hwatched : ∀ id ∈ answered message, id ∉ watched) :
    Keeping env now watched fresh (targets message) (Makes env now fresh message)
      (handleFiles env fresh message) t := by
  by_cases hdelete : ∃ m, message = .deleteFile m
  · obtain ⟨m, rfl⟩ := hdelete
    refine (keeping_deleteFile (List.mem_singleton_self _)).mono fun _ _ _ hmade => ?_
    exact absurd rfl hmade
  · by_cases hmade : recordsMade fresh message = []
    · have hkeeps := keeps_all fun id hid => keeps_others env hmade
        (fun m heq => hdelete ⟨m, heq⟩) fun hmem => hwatched id hmem hid
      exact (hkeeps.amid t).mono fun _ _ _ hmade' => absurd hmade hmade'
    · cases message with
      | uploadNewFile filename file pre enc => exact keeping_upload filename file pre enc h
      | editFileBytes m start bytes => exact keeping_edit start bytes h
      | appendToFile m bytes => exact keeping_append bytes h
      | _ => exact absurd rfl hmade

end Handlers

section Connections

variable {env : Environment F} {now : ι → Request D F → Server D → Prop} {watched : Set Ulid}

structure Touches (fresh : Ulid) (ids : List Ulid) (t t' : Server D) : Prop where
  frame : ∀ id ∉ fresh :: ids, Frame id t t'
  noRecord : ∀ id ≠ fresh, NoRecord id t t'

/-- Each handler leaves to the others what is theirs, and answers what it has recorded. -/
def bookkeeping (env : Environment F) (now : ι → Request D F → Server D → Prop) :
    Contract ι (Request D F) (ConnectionReplies D F env.fft.Err) (Store ι D)
      (ServerError env.fft.Err) where
  rely i q a b := Undisturbed q.fresh q.message.targets a.toServer b.toServer ∧ now i q b.toServer
  effect _ q a b := Touches q.fresh q.message.targets a.toServer b.toServer
  good i q r a := ∀ message response, q.message = .files message → r = .ok (.files response) →
    Makes env (now i q) q.fresh message (.ok response) a.toServer
  seen i q a := now i q a.toServer

theorem frame_handle [DecidableEq ι] (i : ι) (request : Request D F) {id : Ulid}
    (hid : id ∉ request.fresh :: request.message.targets) :
    Within (fun a b : Store ι D => Frame id a.toServer b.toServer) (handle env i request) :=
  (bounded_handle env i request).within (.file id) fun hown => hid (oneOf_of_own hown)

theorem noRecord_handle [DecidableEq ι] (i : ι) (request : Request D F) {id : Ulid}
    (hid : ∀ message, request.message = .files message → id ∉ recordsMade request.fresh message) :
    Within (fun a b : Store ι D => NoRecord id a.toServer b.toServer) (handle env i request) := by
  obtain ⟨fresh, message⟩ := request
  have honServer : ∀ {p : Handling D env.fft.Err Unit}, Confined [] [fresh] [fresh] p →
      Within (fun a b : Store ι D => NoRecord id a.toServer b.toServer) (onServer p) :=
    fun h => (h.noRecord id List.not_mem_nil).onPart fun _ _ h => h
  cases message with
  | files message =>
    refine Within.bind ?_ fun _ => .done _
    exact ((confined_handleFiles env fresh message).noRecord id (hid message rfl)).onPart
      fun _ _ h => h
  | startUploadNewFileByChunks filename columns encodedColumns totalFileSize =>
    have hself := List.mem_singleton_self fresh
    refine (honServer confined_drawUlid).bind fun _ => ?_
    refine (honServer (confined_openForWriting hself hself)).bind fun _ => ?_
    refine (Within.done _).bind fun _ => Within.bind ?_ fun _ => .done _
    exact fun _ => ⟨fun h => h, trivial⟩
  | _ =>
    refine ((bounded_handle env i _).within (.file id) fun hown => ?_).mono fun _ _ h => h.noRecord
    simp [ownKeys] at hown

theorem touches_handle [DecidableEq ι] (i : ι) (request : Request D F) :
    Within (fun a b : Store ι D =>
      Touches request.fresh request.message.targets a.toServer b.toServer)
      (handle env i request) := by
  have hnoRecord : ∀ id ≠ request.fresh, Within
      (fun a b : Store ι D => NoRecord id a.toServer b.toServer) (handle env i request) := by
    intro id hid
    refine noRecord_handle i request fun message _ hmem => hid ?_
    cases message <;> simp_all [recordsMade]
  have hframes : Within (fun a b : Store ι D =>
      ∀ id, id ∉ request.fresh :: request.message.targets → Frame id a.toServer b.toServer)
      (handle env i request) :=
    Within.forall fun _ => Within.forall fun hid => frame_handle i request hid
  have hnoRecords : Within (fun a b : Store ι D =>
      ∀ id, id ≠ request.fresh → NoRecord id a.toServer b.toServer) (handle env i request) :=
    Within.forall fun id => Within.forall fun hid => hnoRecord id hid
  exact (hframes.and hnoRecords).mono fun _ _ h => ⟨h.1, h.2⟩

theorem amid_of_noRecord {α : Type} {fresh : Ulid} {ids : List Ulid} {meanwhile : Server D → Prop}
    {p : Process (Store ι D) (ServerError env.fft.Err) α} {a : Store ι D}
    (h : Within (fun a b : Store ι D => NoRecord fresh a.toServer b.toServer ∧
      ∀ id ≠ fresh, Frame id a.toServer b.toServer) p) (hnone : a.database fresh = none) :
    Amid (fun a b : Store ι D => Undisturbed fresh ids a.toServer b.toServer ∧ meanwhile b.toServer)
      (fun a => RecordsDescribed env watched a.toServer) (fun _ _ => True) p a := by
  induction p generalizing a with
  | done result => exact fun _ _ _ => trivial
  | step next after ih =>
    intro b hrely hkept
    obtain ⟨⟨hnoRecord, hframe⟩, hnext⟩ := h b
    have hafter := hnoRecord (hrely.1.1.2.trans hnone)
    exact ⟨hkept.change hframe (recordDescribed_none hafter), ih b hnext hafter⟩

theorem keeping_handle [DecidableEq ι] (i : ι) (request : Request D F) {a : Store ι D}
    (h : Unrecorded request.fresh none a.toServer)
    (hwatched : ∀ id ∈ request.message.answered, id ∉ watched) :
    Amid ((bookkeeping env now).rely i request) (fun a => RecordsDescribed env watched a.toServer)
      ((bookkeeping env now).good i request) (handle env i request) a := by
  obtain ⟨fresh, message⟩ := request
  by_cases hfiles : ∃ m, message = .files m
  · obtain ⟨message, rfl⟩ := hfiles
    have hserver : Keeping env (now i ⟨fresh, .files message⟩) watched fresh (targets message)
      (Makes env (now i ⟨fresh, .files message⟩) fresh message) (handleFiles env fresh message)
        a.toServer := keeping_handleFiles message h hwatched
    refine Amid.bind (fun _ _ hrely => ⟨.refl _, hrely.2⟩)
      ((hserver.onPart fun _ _ => rfl).mono ?_)
    intro r b hmakes
    cases r with
    | ok response =>
      refine Amid.done _ fun b' hrely _ m response' hm hr => ?_
      obtain rfl := ConnectionMessages.files.inj hm
      obtain rfl := ConnectionReplies.files.inj (Except.ok.inj hr)
      intro hmade m' hresponse
      obtain ⟨hfresh, hrecord, file, hmade, hdescribes⟩ := hmakes hmade m' hresponse
      refine ⟨hfresh, hrely.1.1.2.trans hrecord, file, hmade, hdescribes.frame ?_⟩
      rw [hfresh]
      exact hrely.1.1
    | error e => exact fun m response _ hr => by cases hr
  · have hnoRecord : Within (fun a b : Store ι D => NoRecord fresh a.toServer b.toServer)
        (handle env i ⟨fresh, message⟩) :=
      noRecord_handle i ⟨fresh, message⟩ fun m hm => absurd ⟨m, hm⟩ hfiles
    have hframe : Within (fun a b : Store ι D => ∀ id, id ≠ fresh → Frame id a.toServer b.toServer)
        (handle env i ⟨fresh, message⟩) := by
      refine Within.forall fun id => Within.forall fun hne => frame_handle i _ fun hmem => hne ?_
      cases message <;> simp_all [ConnectionMessages.targets]
    refine (amid_of_noRecord (hnoRecord.and hframe) h.database).mono ?_
    exact fun _ _ _ m _ heq => absurd ⟨m, heq⟩ hfiles

end Connections

section Runs

variable [DecidableEq ι] {env : Environment F} {watched : Set Ulid} {store : Store ι D}
  {s s' : Connections ι D env} {now : ι → Request D F → Server D → Prop}

theorem Touches.undisturbed {fresh fresh' : Ulid} {ids ids' : List Ulid} {t t' : Server D}
    (h : Touches fresh' ids' t t') (hfresh : fresh ∉ fresh' :: ids') (hids : fresh' ∉ ids) :
    Undisturbed fresh ids t t' :=
  ⟨h.frame fresh hfresh, fun id hid => h.noRecord id fun heq => hids (heq ▸ hid)⟩

/-- Requests are taken that answer nothing about the watched identifiers and target none of those
that are kept. -/
structure Watches (watched kept : Set Ulid) (s : Connections ι D env) (i : ι)
    (q : Request D F) : Prop where
  admits : Admits env s i q
  answered : ∀ id ∈ q.message.answered, id ∉ watched
  targets : ∀ id ∈ q.message.targets, id ∉ kept
  tracked : Tracked s

theorem bookkeeping_kept (env : Environment F) (now : ι → Request D F → Server D → Prop)
    (watched kept : Set Ulid) :
    (bookkeeping env now).Kept (handle env) (Watches watched kept)
      (fun a => RecordsDescribed env watched a.toServer) where
  refl _ _ _ hnow := ⟨.refl _, hnow⟩
  trans _ _ _ _ _ h h' := ⟨h.1.trans h'.1, h'.2⟩
  errors _ _ _ _ _ _ _ heq := by cases heq
  effects _ i q _ _ := touches_handle i q
  starts _ i q h _ := keeping_handle i q ⟨h.admits.disk, h.admits.database⟩ h.answered
  apart := by
    intro s i q h j q' p hj hne
    have hmem := h.tracked.working j q' p hj
    have hundrawn := h.admits.undrawn _ hmem
    have hunnamed := h.admits.unnamed _ hmem
    have hunguessed := h.admits.unguessed j q' p hj
    have htargets := targets_subset_named q.message
    have htargets' := targets_subset_named q'.message
    refine ⟨
      fun a b hnow htouches => ⟨htouches.undisturbed ?_ fun h => hunguessed (htargets h), hnow⟩,
      fun a b hnow htouches => ⟨htouches.undisturbed ?_ fun h => hunnamed (htargets' h), hnow⟩⟩
    · exact List.not_mem_cons_of_ne_of_not_mem hundrawn.symm fun h => hunnamed (htargets' h)
    · exact List.not_mem_cons_of_ne_of_not_mem hundrawn fun h => hunguessed (htargets h)

theorem reaches_watches {watched kept : Set Ulid} (hs : Tracked s) (h : Serves env s s')
    (hanswered : ∀ x ∈ s'.received, ∀ id ∈ x.2.message.answered, id ∉ watched)
    (htargets : ∀ x ∈ s'.received, ∀ id ∈ x.2.message.targets, id ∉ kept) :
    Reaches (handle env) (Watches watched kept) s s' := by
  have hreach := reaches_tracked (fun q => (∀ id ∈ q.message.answered, id ∉ watched) ∧
    ∀ id ∈ q.message.targets, id ∉ kept) hs h fun x hx => ⟨hanswered x hx, htargets x hx⟩
  exact hreach.mono fun _ _ _ ⟨hadmits, htracked, _, hanswered, htargets⟩ =>
    ⟨hadmits, hanswered, htargets, htracked⟩

theorem reaches_untargeted {id : Ulid} (hs : Tracked s) (h : Serves env s s')
    (htargets : ∀ x ∈ s'.received, id ∉ x.2.message.targets) :
    Reaches (handle env) (Watches ∅ {id}) s s' :=
  reaches_watches hs h (fun _ _ _ _ hmem => hmem)
    fun x hx _ hid' heq => htargets x hx (heq ▸ hid')

/-- Whatever the order of the steps, whatever fails and whoever is lost, a record describes a file
as long as no reshape, edit or append that names its identifier is answered. -/
theorem records_describe_files (env : Environment F) (store : Store ι D) (s : Connections ι D env)
    (id : Ulid) (h : Serves env (System.start store) s)
    (hstore : RecordDescribed env id store.toServer)
    (hanswered : ∀ x ∈ s.received, id ∉ x.2.message.answered) :
    RecordDescribed env id s.shared.toServer := by
  have hreach : Reaches (handle env) (Watches {id} ∅) (System.start store) s :=
    reaches_watches (tracked_start store) h
      (fun x hx id' hid' heq => hanswered x hx (heq ▸ hid'))
      fun _ _ _ _ hmem => hmem
  have hstart : (bookkeeping env fun _ _ _ => True).Sound
      (fun a => RecordsDescribed env {id} a.toServer) (System.start store) :=
    .start fun _ heq => heq ▸ hstore
  obtain ⟨hsound, -⟩ := hstart.reaches (bookkeeping_kept env _ {id} ∅)
    (fun _ _ _ _ _ _ _ => trivial) hreach
  exact hsound.shared id rfl

end Runs

section Readings

variable [DecidableEq ι] {env : Environment F} {store : Store ι D} {s s' : Connections ι D env}
  {id : Ulid} {a₀ : Store ι D}

/-- While nobody touches what is under the identifier, a request that reads it is answered from it. -/
def reading (ι : Type) (D : Digest) (env : Environment F) (id : Ulid) (a₀ : Store ι D) :
    Contract ι (Request D F) (ConnectionReplies D F env.fft.Err) (Store ι D)
      (ServerError env.fft.Err) where
  rely _ _ _ _ := True
  effect _ _ a b := Frame id a.toServer b.toServer
  good _ q r _ := ∀ message response, q.message = .files message → readFrom message = some id →
    r = .ok (.files response) → ∃ t t', Frame id a₀.toServer t ∧
      (handleClientMessage env message).run t = .ok response t'

omit [DecidableEq ι] in
theorem amid_not_reading {i : ι} {q : Request D F} {p : Process (Store ι D) _ _} {a : Store ι D}
    (hwithin : Within ((reading ι D env id a₀).effect i q) p)
    (hnot : ∀ message, q.message = .files message → readFrom message ≠ some id) :
    Amid ((reading ι D env id a₀).rely i q) (fun a => Frame id a₀.toServer a.toServer)
      ((reading ι D env id a₀).good i q) p a := by
  have hkeeps : Within (fun a b : Store ι D =>
      Frame id a₀.toServer a.toServer → Frame id a₀.toServer b.toServer) p :=
    hwithin.mono fun _ _ hframe hinv => hinv.trans hframe
  exact (hkeeps.amid a).mono fun _ _ _ message _ hmessage hread =>
    absurd hread (hnot message hmessage)

theorem amid_reading {i : ι} {q : Request D F} {message : ClientMessages D F} {a : Store ι D}
    (hmessage : q.message = .files message) (hread : readFrom message = some id) :
    Amid ((reading ι D env id a₀).rely i q) (fun a => Frame id a₀.toServer a.toServer)
      ((reading ι D env id a₀).good i q) (handle env i q) a := by
  obtain ⟨fresh, message'⟩ := q
  subst hmessage
  have hhandle := handleFiles_readFrom env fresh hread
  have hconfined : Confined [] [] [id] (handleFiles env fresh message) :=
    confined_readFrom hread (List.mem_singleton_self _)
  have hframe := hconfined.within id List.not_mem_nil
  have hserver : Amid (fun _ _ => True) (Frame id a₀.toServer)
      (fun r _ => ∀ response, r = .ok response → ∃ t t', Frame id a₀.toServer t ∧
        (handleClientMessage env message).run t = .ok response t')
      (handleFiles env fresh message) a.toServer := by
    rw [hhandle] at hframe ⊢
    refine Amid.atomic _ fun t _ hinv => ⟨hinv.trans (hframe t).1, fun _ _ _ response hr => ?_⟩
    exact ⟨t, _, hinv, outcomeOf_ok hr⟩
  refine Amid.bind (fun _ _ _ => trivial) ((hserver.onPart fun _ _ => rfl).mono fun r b hgood => ?_)
  cases r with
  | ok response =>
    refine Amid.done _ fun _ _ _ message₁ response₁ hmessage₁ _ hr => ?_
    obtain rfl := ConnectionMessages.files.inj hmessage₁
    obtain rfl := ConnectionReplies.files.inj (Except.ok.inj hr)
    exact hgood response rfl
  | error e => exact fun _ _ _ _ hr => by cases hr

theorem Watches.frame {watched : Set Ulid} {i : ι} {q : Request D F}
    (h : Watches watched {id} s i q)
    (hused : a₀.database id ≠ none) (hinv : Frame id a₀.toServer s.shared.toServer) :
    Within (fun a b : Store ι D => Frame id a.toServer b.toServer) (handle env i q) := by
  refine frame_handle i q (List.not_mem_cons_of_ne_of_not_mem (fun heq => ?_) fun hmem => ?_)
  · exact hused (hinv.2.symm.trans (heq ▸ h.admits.database))
  · exact h.targets id hmem rfl

theorem reading_kept (env : Environment F) (id : Ulid) {a₀ : Store ι D}
    (hused : a₀.database id ≠ none) : (reading ι D env id a₀).Kept (handle env) (Watches ∅ {id})
      (fun a => Frame id a₀.toServer a.toServer) where
  refl _ _ _ _ := trivial
  trans _ _ _ _ _ _ _ := trivial
  errors _ _ _ _ _ _ _ _ heq := by cases heq
  effects _ _ _ h hinv := h.frame hused hinv
  starts s i q h hinv := by
    by_cases hreads : ∃ message, q.message = .files message ∧ readFrom message = some id
    · obtain ⟨message, hmessage, hread⟩ := hreads
      exact amid_reading hmessage hread
    · exact amid_not_reading (h.frame hused hinv)
        fun message hmessage hread => hreads ⟨message, hmessage, hread⟩
  apart _ _ _ _ _ _ _ _ _ := ⟨fun _ _ _ _ => trivial, fun _ _ _ _ => trivial⟩

/-- Nothing that is unfinished or was named touches or reads what is under the identifier. -/
structure Unknown (id : Ulid) (s : Connections ι D env) : Prop where
  within : ∀ i q p, s.inProgress i = some (q, p) →
    Within (fun a b : Store ι D => Frame id a.toServer b.toServer) p
  unnamed : ∀ x ∈ s.received, id ∉ x.2.message.named
  working : ∀ i q p, s.inProgress i = some (q, p) → (i, q) ∈ s.received
  ended : ∀ i q r, (i, q, r) ∈ s.finished → (i, q) ∈ s.received

/-- What is under the identifier stays, and what reads it reads that. -/
theorem Unknown.outlasts (h : Unknown id s) (hused : s.shared.database id ≠ none)
    (hreach : Reaches (handle env) (Watches ∅ {id}) s s') :
    Frame id s.shared.toServer s'.shared.toServer ∧ ∀ new, s'.finished = s.finished ++ new →
      ∀ x ∈ new, ∃ a, (reading ι D env id s.shared).good x.1 x.2.1 x.2.2 a := by
  have hstart : (reading ι D env id s.shared).Sound
      (fun a => Frame id s.shared.toServer a.toServer) s := by
    refine ⟨.refl _, fun i q p hp => ?_, h.within, fun _ _ _ _ _ _ _ _ _ _ _ _ _ => trivial⟩
    refine amid_not_reading (h.within i q p hp) fun message hmessage hread => ?_
    have hnamed := h.unnamed _ (h.working i q p hp)
    rw [hmessage] at hnamed
    exact hnamed (readFrom_named hread)
  obtain ⟨hsound, hgood⟩ := hstart.reaches (reading_kept env id hused)
    (fun _ _ _ _ _ _ _ => trivial) hreach
  refine ⟨hsound.shared, fun new hnew x hx => ?_⟩
  obtain ⟨a, -, hgood⟩ := hgood new hnew x hx
  exact ⟨a, hgood⟩

theorem Unknown.reads (h : Unknown id s) (hused : s.shared.database id ≠ none)
    (hreach : Reaches (handle env) (Watches ∅ {id}) s s')
    {j : ι} {q : Request D F} {message : ClientMessages D F} {response : ServerMessages D F _}
    (hmessage : q.message = .files message) (hread : readFrom message = some id)
    (hresponse : (j, q, .ok (.files response)) ∈ s'.finished) :
    ∃ t t', Frame id s.shared.toServer t ∧
      (handleClientMessage env message).run t = .ok response t' := by
  obtain ⟨-, hgood⟩ := h.outlasts hused hreach
  obtain ⟨-, new, hnew⟩ := Reaches.logs hreach
  rw [hnew] at hresponse
  rcases List.mem_append.mp hresponse with hold | hlast
  · have hnamed := h.unnamed _ (h.ended j q _ hold)
    rw [hmessage] at hnamed
    exact absurd (readFrom_named hread) hnamed
  · obtain ⟨a, hgood⟩ := hgood new hnew _ hlast
    exact hgood message response hmessage hread rfl

theorem unknown_of_ended {i : ι} {q : Request D F} {r : Fallible _ _} (h : Tracked s)
    (htouches : ∀ j q' p, s.inProgress j = some (q', p) →
      Within ((bookkeeping env now).effect j q') p)
    (hended : s.inProgress i = some (q, .done r)) : Unknown q.fresh ({ s with
      inProgress := Function.update s.inProgress i none
      finished := s.finished ++ [(i, q, r)] } : Connections ι D env) where
  within := by
    intro j q' p hj
    obtain ⟨hji, hj⟩ := update_none_iff.mp hj
    refine (htouches j q' p hj).mono fun _ _ htouches => htouches.frame q.fresh ?_
    refine List.not_mem_cons_of_ne_of_not_mem (fun heq => ?_) fun hmem => ?_
    · have hsame := h.distinct _ (h.working i q _ hended) _ (h.working j q' p hj) heq
      exact hji (Prod.mk.inj hsame).1.symm
    · exact h.unnamed i q _ hended _ (h.working j q' p hj) (targets_subset_named _ hmem)
  unnamed := h.unnamed i q _ hended
  working j q' p hj := h.working j q' p (update_none_iff.mp hj).2
  ended := by
    intro j q' r' hmem
    rcases List.mem_append.mp hmem with hmem | hmem
    · exact h.ended j q' r' hmem
    · obtain ⟨rfl, heq⟩ := Prod.mk.inj (List.mem_singleton.mp hmem)
      obtain ⟨rfl, -⟩ := Prod.mk.inj heq
      exact h.working j q' _ hended

/-- A state from which a file stays where it is and is described. -/
structure Settled (s t : Connections ι D env) (m : FileMetadata D) (file : List UInt8) : Prop where
  unknown : Unknown m.idUlid t
  used : t.shared.database m.idUlid ≠ none
  reaches : Reaches (handle env) (Watches ∅ {m.idUlid}) t s
  describes : Describes env t.shared.toServer m file

theorem Settled.frame {m : FileMetadata D} {file : List UInt8} (h : Settled s s' m file) :
    Frame m.idUlid s'.shared.toServer s.shared.toServer :=
  (h.unknown.outlasts h.used h.reaches).1

/-- The states of the server in which the request is in progress in a run. -/
def During (store : Store ι D) (s : Connections ι D env) (i : ι) (q : Request D F)
    (t : Server D) : Prop :=
  ∃ u p, Serves env (System.start store) u ∧ Serves env u s ∧ u.inProgress i = some (q, p) ∧
    u.shared.toServer = t

/-- When the metadata is answered, what was made is recorded, described and still unknown. -/
theorem made_when_ended {i : ι} {q : Request D F}
    {message : ClientMessages D F} {m : FileMetadata D} (h : Serves env (System.start store) s)
    (hmessage : q.message = .files message) (hmade : recordsMade q.fresh message ≠ [])
    (hanswer : (i, q, .ok (.files (.compactCommit m))) ∈ s.finished)
    (htargets : ∀ x ∈ s.received, q.fresh ∉ x.2.message.targets) :
    m.idUlid = q.fresh ∧ ∃ (t : Connections ι D env) (file : List UInt8), Settled s t m file ∧
      t.shared.database q.fresh = some m ∧ Made (During store s i q) message m file := by
  have hreach : Reaches (handle env) (Watches ∅ {q.fresh}) (System.start store) s :=
    reaches_untargeted (tracked_start store) h htargets
  have hserves : ∀ {u u' : Connections ι D env},
      Reaches (handle env) (Watches ∅ {q.fresh}) u u' → Serves env u u' :=
    fun hreach => hreach.mono fun _ _ _ hwatches => hwatches.admits
  obtain ⟨t, hbefore, hended, hafter⟩ := hreach.finish_of_mem List.not_mem_nil hanswer
  have hstart : (bookkeeping env (During store s)).Sound (fun a => RecordsDescribed env ∅ a.toServer)
      (System.start store) := .start fun _ hmem => absurd hmem id
  obtain ⟨hsound, -⟩ := hstart.reaches (bookkeeping_kept env _ ∅ {q.fresh})
    (fun u hfirst hlast j q' p hj => ⟨u, p, hserves hfirst,
      (hserves hlast).trans (.head (.finish hended) (hserves hafter)), hj, rfl⟩) hbefore
  obtain ⟨htracked, -⟩ := hbefore.keeps (tracked_start store)
    fun s s' hs hstep => hs.step (fun _ _ _ hwatches => hwatches.admits) hstep
  have hduring : During store s i q t.shared.toServer :=
    ⟨t, _, hserves hbefore, .head (.finish hended) (hserves hafter), hended, rfl⟩
  have hgood := hsound.amid i q _ hended t.shared ⟨.refl _, hduring⟩ fun _ hmem => absurd hmem id
  obtain ⟨hfresh, hrecord, file, hfile, hdescribes⟩ := hgood message _ hmessage rfl hmade m rfl
  have hunknown := unknown_of_ended htracked hsound.within hended
  have hused : t.shared.database q.fresh ≠ none := hrecord ▸ Option.some_ne_none m
  rw [← hfresh] at hunknown hused hafter
  exact ⟨hfresh, _, file, ⟨hunknown, hused, hafter, hdescribes⟩, hrecord, hfile⟩

/-- The metadata that was answered for an upload, an edit or an append is recorded and describes the
file that was made, until a message moves or takes away what has its identifier. -/
theorem made_until_targeted (env : Environment F) (store : Store ι D) (s : Connections ι D env)
    (i : ι) (q : Request D F) (message : ClientMessages D F) (m : FileMetadata D)
    (h : Serves env (System.start store) s) (hmessage : q.message = .files message)
    (hmade : recordsMade q.fresh message ≠ [])
    (hanswer : (i, q, .ok (.files (.compactCommit m))) ∈ s.finished)
    (htargets : ∀ x ∈ s.received, q.fresh ∉ x.2.message.targets) :
    m.idUlid = q.fresh ∧ s.shared.database q.fresh = some m ∧
      ∃ file, Made (During store s i q) message m file ∧ Describes env s.shared.toServer m file := by
  obtain ⟨hfresh, t, file, hsettled, hrecord, hfile⟩ :=
    made_when_ended h hmessage hmade hanswer htargets
  have hframe := hsettled.frame
  exact ⟨hfresh, (hfresh ▸ hframe.2).trans hrecord, file, hfile, hsettled.describes.frame hframe⟩

/-- The identifier of what was made is named only after it was answered, so it has stayed the same
while a request that names it is handled. -/
theorem During.frame {i₀ i : ι} {q₀ q : Request D F} {message₀ : ClientMessages D F}
    {m₀ : FileMetadata D} {t : Server D} (hduring : During store s i q t)
    (hmessage : q₀.message = .files message₀) (hmade : recordsMade q₀.fresh message₀ ≠ [])
    (hanswer : (i₀, q₀, .ok (.files (.compactCommit m₀))) ∈ s.finished)
    (htargets : ∀ x ∈ s.received, q₀.fresh ∉ x.2.message.targets)
    (hnamed : q₀.fresh ∈ q.message.named) : Frame q₀.fresh t s.shared.toServer := by
  obtain ⟨u, p, hbefore, hafter, hworking, rfl⟩ := hduring
  have htracked : ∀ {u : Connections ι D env}, Serves env (System.start store) u → Tracked u :=
    fun hserves => (hserves.keeps (tracked_start store) fun _ _ hs hstep =>
      hs.step (fun _ _ _ h => h) hstep).1
  obtain ⟨⟨new, hreceived⟩, -⟩ := Reaches.logs hafter
  have hended : (i₀, q₀, .ok (.files (.compactCommit m₀))) ∈ u.finished := by
    by_contra hnot
    obtain ⟨t, hlater, hending, -⟩ := hafter.finish_of_mem hnot hanswer
    obtain ⟨⟨_, hreceived⟩, -⟩ := Reaches.logs hlater
    refine (htracked (hbefore.trans hlater)).unnamed i₀ q₀ _ hending (i, q) ?_ hnamed
    rw [hreceived]
    exact List.mem_append_left _ ((htracked hbefore).working i q p hworking)
  obtain ⟨hfresh, t, file, hsettled, -⟩ := made_when_ended hbefore hmessage hmade hended
    fun x hx => htargets x (hreceived ▸ List.mem_append_left _ hx)
  have hrest := reaches_untargeted (htracked hbefore) hafter htargets
  have hlast : Settled s t m₀ file :=
    { hsettled with reaches := hsettled.reaches.trans (hfresh ▸ hrest) }
  have hframe := hsettled.frame
  have hframe' := hlast.frame
  rw [hfresh] at hframe hframe'
  exact ⟨hframe'.1.trans hframe.1.symm, hframe'.2.trans hframe.2.symm⟩

/-- What an edit or an append makes of the file under an identifier. -/
def Changes (id : Ulid) (change : List UInt8 → List UInt8) : ClientMessages D F → Prop
  | .editFileBytes old start bytes => old.idUlid = id ∧ change = fun file => writeAt file start bytes
  | .appendToFile old bytes => old.idUlid = id ∧ change = fun file => file ++ bytes
  | _ => False

/-- An edit or an append of what was made in the run starts from just that, and both versions are
described until a message moves them or takes them away. -/
theorem changed_from_made (env : Environment F) (store : Store ι D) (s : Connections ι D env)
    (i₀ i : ι) (q₀ q : Request D F) (message₀ message : ClientMessages D F) (m₀ m : FileMetadata D)
    (change : List UInt8 → List UInt8) (h : Serves env (System.start store) s)
    (hmessage₀ : q₀.message = .files message₀) (hmade : recordsMade q₀.fresh message₀ ≠ [])
    (hanswer₀ : (i₀, q₀, .ok (.files (.compactCommit m₀))) ∈ s.finished)
    (htargets₀ : ∀ x ∈ s.received, q₀.fresh ∉ x.2.message.targets)
    (hmessage : q.message = .files message) (hchange : Changes m₀.idUlid change message)
    (hanswer : (i, q, .ok (.files (.compactCommit m))) ∈ s.finished)
    (htargets : ∀ x ∈ s.received, q.fresh ∉ x.2.message.targets) :
    ∃ file, Made (During store s i₀ q₀) message₀ m₀ file ∧
      Describes env s.shared.toServer m₀ file ∧
      Describes env s.shared.toServer m (change file) := by
  obtain ⟨hfresh₀, t₀, file₀, hsettled₀, -, hmade₀⟩ :=
    made_when_ended h hmessage₀ hmade hanswer₀ htargets₀
  have hdescribes₀ := hsettled₀.describes.frame hsettled₀.frame
  have hsame : ∀ t, q₀.fresh ∈ named message → During store s i q t →
      t.disk m₀.idUlid = some file₀ := by
    intro t hnamed hduring
    have hframe := hduring.frame hmessage₀ hmade hanswer₀ htargets₀ (hmessage ▸ hnamed)
    rw [← hdescribes₀.disk, hfresh₀, hframe.1]
  have hmakes : recordsMade q.fresh message ≠ [] := by
    cases message <;> simp_all [Changes, recordsMade]
  obtain ⟨hfresh, t, file, hsettled, -, hfile⟩ := made_when_ended h hmessage hmakes hanswer htargets
  have hdescribes := hsettled.describes.frame hsettled.frame
  refine ⟨file₀, hmade₀, hdescribes₀, ?_⟩
  cases message with
  | editFileBytes old start bytes =>
    obtain ⟨hold, rfl⟩ := hchange
    obtain ⟨⟨u, before, hduring, hbefore, rfl⟩, -⟩ := hfile
    have hheld := hsame u (List.mem_singleton.mpr (hfresh₀.symm.trans hold.symm)) hduring
    rw [← hold, hbefore] at hheld
    rwa [← Option.some.inj hheld]
  | appendToFile old bytes =>
    obtain ⟨hold, rfl⟩ := hchange
    obtain ⟨⟨u, before, hduring, hbefore, rfl⟩, -⟩ := hfile
    have hheld := hsame u (List.mem_singleton.mpr (hfresh₀.symm.trans hold.symm)) hduring
    rw [← hold, hbefore] at hheld
    rwa [← Option.some.inj hheld]
  | _ => exact hchange.elim

/-- What was made of an upload, an edit or an append is what every request that reads it is answered
from, in whatever order the steps come, as long as nobody moves it or takes it away. -/
theorem reads_what_was_made (env : Environment F) (store : Store ι D) (s : Connections ι D env)
    (i : ι) (q : Request D F) (message : ClientMessages D F) (m : FileMetadata D)
    (h : Serves env (System.start store) s) (hmessage : q.message = .files message)
    (hmade : recordsMade q.fresh message ≠ [])
    (hanswer : (i, q, .ok (.files (.compactCommit m))) ∈ s.finished)
    (htargets : ∀ x ∈ s.received, q.fresh ∉ x.2.message.targets) :
    m.idUlid = q.fresh ∧ ∃ file, Made (During store s i q) message m file ∧
      ∀ (j : ι) (q' : Request D F) (message' : ClientMessages D F) response,
        q'.message = .files message' → readFrom message' = some q.fresh →
        (j, q', .ok (.files response)) ∈ s.finished → ∃ t t', Describes env t m file ∧
          (handleClientMessage env message').run t = .ok response t' := by
  obtain ⟨hfresh, t, file, hsettled, -, hfile⟩ :=
    made_when_ended h hmessage hmade hanswer htargets
  refine ⟨hfresh, file, hfile, fun j q' message' response hmessage' hread hresponse => ?_⟩
  rw [← hfresh] at hread
  obtain ⟨a, a', hframe, hrun⟩ :=
    hsettled.unknown.reads hsettled.used hsettled.reaches hmessage' hread hresponse
  exact ⟨a, a', hsettled.describes.frame hframe, hrun⟩

end Readings

section Example

def uploadOutcome := outcomeOf ((alone (handle fermatEnvironment true (overlapping true))).run
  (opened (holding (firstUpload 2 1 2 2 6) [1, 2])))

theorem upload_answered : ∃ m, uploadOutcome.1 = .ok (.files (.compactCommit m)) ∧
    m.idUlid = 3 := by
  have hdecided : (recordOf uploadOutcome.1).map (·.idUlid) = some 3 := by decide +kernel
  obtain ⟨m, hm, hid⟩ := Option.map_eq_some_iff.mp hdecided
  exact ⟨m, recordOf_eq_some.mp hm, hid⟩

theorem upload_leaves : uploadOutcome.2.disk 3 = some [7] ∧ uploadOutcome.2.disk 4 = none ∧
    (uploadOutcome.2.database 4).isNone = true := by decide +kernel

theorem upload_served : Serves fermatEnvironment
    (System.start (opened (holding (firstUpload 2 1 2 2 6) [1, 2])))
    (⟨uploadOutcome.2, fun _ => none, [(true, overlapping true)],
      [(true, overlapping true, uploadOutcome.1)]⟩ : Connections Bool byteSum fermatEnvironment) :=
  reaches_alone rfl (admits_start (by decide) rfl (by decide))

theorem admits_second (message : ConnectionMessages byteSum (ZMod 257))
    (hnamed : ∀ id ∈ message.named, id = 3)
    {r : Fallible _ (ConnectionReplies byteSum (ZMod 257) fermatEnvironment.fft.Err)} :
    Admits fermatEnvironment ⟨uploadOutcome.2, fun _ => none, [(true, overlapping true)],
      [(true, overlapping true, r)]⟩ false ⟨4, message⟩ where
  alive q h := by cases (Prod.mk.inj (List.mem_singleton.mp h)).1
  disk := upload_leaves.2.1
  database := Option.isNone_iff_eq_none.mp upload_leaves.2.2
  undrawn x hx heq := by
    obtain rfl := List.mem_singleton.mp hx
    cases heq
  unnamed x hx hmem := by
    obtain rfl := List.mem_singleton.mp hx
    cases hmem
  notOwn hmem := by cases hnamed _ hmem
  unguessed _ _ _ h := by cases h

theorem alone_requestFile [DecidableEq ι] (env : Environment F) (i : ι) (fresh : Ulid)
    {m : FileMetadata D} {file : List UInt8} {a : Store ι D} (h : a.disk m.idUlid = some file) :
    outcomeOf ((alone (handle env i ⟨fresh, .files (.requestFile m)⟩)).run a) =
      (.ok (.files (.file file)), a) := by
  have hrun : (handleClientRequestFile env m).run a.toServer = .ok (.file file) a.toServer :=
    run_lift_bind_ok.mpr ⟨(), rfl, run_read_bind_ok.mpr ⟨file, h, rfl⟩⟩
  change outcomeOf ((alone (Process.bind
    (.done (outcomeOf ((handleClientRequestFile env m).run a.toServer)).1)
    fun response => .done (.ok (ConnectionReplies.files response)))).run { a with
      toServer := (outcomeOf ((handleClientRequestFile env m).run a.toServer)).2 }) = _
  rw [hrun]
  rfl

theorem file_served {m : FileMetadata byteSum} (hm : m.idUlid = 3) : Serves fermatEnvironment
    (System.start (opened (holding (firstUpload 2 1 2 2 6) [1, 2])))
    (⟨uploadOutcome.2, fun _ => none,
      [(true, overlapping true), (false, ⟨4, .files (.requestFile m)⟩)],
      [(true, overlapping true, uploadOutcome.1),
        (false, ⟨4, .files (.requestFile m)⟩, .ok (.files (.file [7])))]⟩ :
      Connections Bool byteSum fermatEnvironment) := by
  have hread := upload_served.trans (reaches_alone rfl (admits_second (.files (.requestFile m))
    fun id hid => (List.mem_singleton.mp hid).trans hm))
  have hfile : outcomeOf ((alone (handle fermatEnvironment false
      ⟨4, .files (.requestFile m)⟩)).run uploadOutcome.2) =
        (.ok (.files (.file [7])), uploadOutcome.2) :=
    alone_requestFile _ _ _ (hm ▸ upload_leaves.1)
  rwa [hfile] at hread

theorem served_after_upload : ∃ (s : Connections Bool byteSum fermatEnvironment)
    (m : FileMetadata byteSum), Serves fermatEnvironment
      (System.start (opened (holding (firstUpload 2 1 2 2 6) [1, 2]))) s ∧
    (∀ x ∈ s.received, x.2.message.targets = [] ∧ x.2.message.answered = []) ∧
    (true, overlapping true, .ok (.files (.compactCommit m))) ∈ s.finished ∧
    (false, ⟨4, .files (.requestFile m)⟩, .ok (.files (.file [7]))) ∈ s.finished := by
  obtain ⟨m, hanswer, hm⟩ := upload_answered
  have hread := file_served hm
  rw [hanswer] at hread
  refine ⟨_, m, hread, fun x hx => ?_, List.mem_cons_self,
    List.mem_cons_of_mem _ (List.mem_singleton_self _)⟩
  rcases List.mem_pair.mp hx with rfl | rfl <;> exact ⟨rfl, rfl⟩

theorem records_describe_files_two : ∃ s : Connections Bool byteSum fermatEnvironment,
    s.finished ≠ [] ∧ RecordDescribed fermatEnvironment 1 s.shared.toServer := by
  obtain ⟨s, m, hserves, hreceived, hanswer, -⟩ := served_after_upload
  refine ⟨s, List.ne_nil_of_mem hanswer, records_describe_files fermatEnvironment _ s 1 hserves
    (fun m hm => ?_) fun x hx hmem => ?_⟩
  · have hstored := stored_holding (firstUpload 2 1 2 2 6) [1, 2]
    obtain rfl := Option.some.inj (hstored.database.symm.trans hm)
    exact ⟨rfl, [1, 2], consistent_holding.disk, consistent_holding.size, consistent_holding.root⟩
  · rw [(hreceived x hx).2] at hmem
    cases hmem

def appending : Request byteSum (ZMod 257) :=
  ⟨3, .files (.appendToFile (firstUpload 2 1 2 2 6) [7])⟩

def appendOutcome := outcomeOf ((alone (handle fermatEnvironment true appending)).run
  (opened (holding (firstUpload 2 1 2 2 6) [1, 2])))

theorem append_answered : ∃ m, appendOutcome.1 = .ok (.files (.compactCommit m)) := by
  have hdecided : (recordOf appendOutcome.1).isSome = true := by decide +kernel
  obtain ⟨m, hm⟩ := Option.isSome_iff_exists.mp hdecided
  exact ⟨m, recordOf_eq_some.mp hm⟩

theorem made_until_targeted_two : ∃ (s : Connections Bool byteSum fermatEnvironment)
    (m : FileMetadata byteSum), s.shared.database 3 = some m ∧
    ∃ file, Made (During (opened (holding (firstUpload 2 1 2 2 6) [1, 2])) s true appending)
      (.appendToFile (firstUpload 2 1 2 2 6) [7] : ClientMessages byteSum (ZMod 257)) m file ∧
      Describes fermatEnvironment s.shared.toServer m file := by
  obtain ⟨m, hanswer⟩ := append_answered
  have hserves : Serves fermatEnvironment
      (System.start (opened (holding (firstUpload 2 1 2 2 6) [1, 2])))
      ⟨appendOutcome.2, fun _ => none, [(true, appending)], [(true, appending, appendOutcome.1)]⟩ :=
    reaches_alone rfl (admits_start (by decide) rfl (by decide))
  rw [hanswer] at hserves
  refine ⟨_, m, (made_until_targeted fermatEnvironment _ _ true appending _ m hserves rfl
    (List.cons_ne_nil _ _) (List.mem_singleton_self _) fun x hx hmem => ?_).2⟩
  obtain rfl := List.mem_singleton.mp hx
  cases hmem

theorem append_after_upload : ∃ m₀ m, uploadOutcome.1 = .ok (.files (.compactCommit m₀)) ∧
    m₀.idUlid = 3 ∧ (outcomeOf ((alone (handle fermatEnvironment false
      ⟨4, .files (.appendToFile m₀ [9])⟩)).run uploadOutcome.2)).1 =
        .ok (.files (.compactCommit m)) := by
  have hdecided : ((recordOf uploadOutcome.1).bind fun m₀ =>
      recordOf (outcomeOf ((alone (handle fermatEnvironment false
        ⟨4, .files (.appendToFile m₀ [9])⟩)).run uploadOutcome.2)).1).isSome = true := by
    decide +kernel
  obtain ⟨m₀, hanswer, hid⟩ := upload_answered
  rw [recordOf_eq_some.mpr hanswer] at hdecided
  obtain ⟨m, hm⟩ := Option.isSome_iff_exists.mp hdecided
  exact ⟨m₀, m, hanswer, hid, recordOf_eq_some.mp hm⟩

theorem changed_from_made_two : ∃ (s : Connections Bool byteSum fermatEnvironment)
    (m₀ m : FileMetadata byteSum), Describes fermatEnvironment s.shared.toServer m₀ [7] ∧
      Describes fermatEnvironment s.shared.toServer m [7, 9] := by
  obtain ⟨m₀, m, hanswer₀, hid, hanswer⟩ := append_after_upload
  have hboth := upload_served.trans (reaches_alone rfl (admits_second
    (.files (.appendToFile m₀ [9])) fun id hmem => (List.mem_singleton.mp hmem).trans hid))
  rw [hanswer₀, hanswer] at hboth
  have htargets : ∀ x ∈ [(true, overlapping true), (false, ⟨4, .files (.appendToFile m₀ [9])⟩)],
      x.2.message.targets = [] := by
    intro x hx
    rcases List.mem_pair.mp hx with rfl | rfl <;> rfl
  obtain ⟨file, hmade, hdescribes₀, hdescribes⟩ := changed_from_made fermatEnvironment _ _ true false
    (overlapping true) _ _ (.appendToFile m₀ [9]) m₀ m (fun file => file ++ [9]) hboth rfl
    (List.cons_ne_nil _ _) List.mem_cons_self (fun x hx hmem => by cases htargets x hx ▸ hmem) rfl ⟨rfl, rfl⟩
    (List.mem_cons_of_mem _ (List.mem_singleton_self _))
    (fun x hx hmem => by cases htargets x hx ▸ hmem)
  obtain ⟨rfl, -⟩ := hmade
  exact ⟨_, m₀, m, hdescribes₀, hdescribes⟩

theorem reads_what_was_made_two : ∃ (m : FileMetadata byteSum) (t t' : Server byteSum),
    Describes fermatEnvironment t m [7] ∧ (handleClientMessage fermatEnvironment
      (.requestFile m)).run t = .ok (.file [7]) t' := by
  obtain ⟨s, m, hserves, hreceived, hanswer, hresponse⟩ := served_after_upload
  obtain ⟨hm, file, hfile, hreads⟩ := reads_what_was_made fermatEnvironment _ s true
    (overlapping true) _ m hserves rfl (List.cons_ne_nil _ _) hanswer fun x hx hmem => by
      rw [(hreceived x hx).1] at hmem
      cases hmem
  obtain ⟨t, t', hdescribes, hrun⟩ := hreads false _ (.requestFile m) _ rfl (congrArg some hm)
    hresponse
  obtain ⟨rfl, -⟩ := hfile
  exact ⟨m, t, t', hdescribes, hrun⟩

end Example

end NetworkBookkeeping
