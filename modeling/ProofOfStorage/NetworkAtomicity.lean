import ProofOfStorage.NetworkConnections

/-! # Handlers of messages about files

A handler touches only the identifiers that its message lets it move or take away and the one that
it draws, and it depends only on the identifiers it touches or reads. Run alone it is the handler of
the server that has one connection.
-/
namespace NetworkAtomicity

open FoundationFaults FoundationPositionalFiles FoundationRuns FoundationProcesses
open CommitmentTypes CommitmentProof OnlineColumns OnlineEvaluation FileFields FileWriter
open NetworkMessages NetworkServer NetworkConnections

variable {D : Digest} {F Err α : Type} {id id' : Ulid} {ids : List Ulid}

/-- File and record of one identifier stay what they are. -/
def Frame (id : Ulid) (t t' : Server D) : Prop :=
  t'.disk id = t.disk id ∧ t'.database id = t.database id

def SameOn (ids : List Ulid) (t t' : Server D) : Prop := ∀ id ∈ ids, Frame id t t'

def NoRecord (id : Ulid) (t t' : Server D) : Prop :=
  t.database id = none → t'.database id = none

theorem Frame.noRecord {t t' : Server D} (h : Frame id t t') : NoRecord id t t' :=
  fun hnone => h.2.trans hnone

theorem Frame.refl (t : Server D) : Frame id t t := ⟨rfl, rfl⟩

theorem Frame.trans {t₁ t₂ t₃ : Server D} (h : Frame id t₁ t₂) (h' : Frame id t₂ t₃) :
    Frame id t₁ t₃ := ⟨h'.1.trans h.1, h'.2.trans h.2⟩

theorem Frame.disk {t : Server D} (h : id ≠ id') (x : Option (List UInt8)) :
    Frame id t { t with disk := Function.update t.disk id' x } :=
  ⟨Function.update_of_ne h .., rfl⟩

theorem Frame.database {t : Server D} (h : id ≠ id') (x : Option (FileMetadata D)) :
    Frame id t { t with database := Function.update t.database id' x } :=
  ⟨rfl, Function.update_of_ne h ..⟩

theorem SameOn.disk {t t' : Server D} (h : SameOn ids t t') (id : Ulid)
    (x : Option (List UInt8)) : SameOn ids { t with disk := Function.update t.disk id x }
      { t' with disk := Function.update t'.disk id x } := by
  intro i hi
  by_cases heq : i = id
  · subst heq
    exact ⟨by simp, (h i hi).2⟩
  · exact ⟨by simp [heq, (h i hi).1], (h i hi).2⟩

theorem SameOn.database {t t' : Server D} (h : SameOn ids t t') (id : Ulid)
    (x : Option (FileMetadata D)) :
    SameOn ids { t with database := Function.update t.database id x }
      { t' with database := Function.update t'.database id x } := by
  intro i hi
  by_cases heq : i = id
  · subst heq
    exact ⟨(h i hi).1, by simp⟩
  · exact ⟨(h i hi).1, by simp [heq, (h i hi).2]⟩

section Accesses

theorem effects_read : Effects (Frame id) (read id' : Serving D Err _) := by
  intro t
  rw [run_read]
  cases t.disk id' <;> exact .refl t

theorem effects_write (h : id ≠ id') (file : List UInt8) :
    Effects (Frame id) (write id' file : Serving D Err _) := fun _ => .disk h _

theorem effects_patch (h : id ≠ id') (start : ℕ) (bytes : List UInt8) :
    Effects (Frame id) (patch id' start bytes : Serving D Err _) :=
  effects_read.bind (fun _ _ _ => .trans) fun _ => effects_write h _

theorem effects_removeFile (h : id ≠ id') :
    Effects (Frame id) (removeFile id' : Serving D Err _) := by
  intro t
  rw [run_removeFile]
  cases t.disk id' with
  | none => exact .refl t
  | some file => exact .disk h _

theorem effects_removeIfThere (h : id ≠ id') :
    Effects (Frame id) (removeIfThere id' : Serving D Err _) := fun _ => .disk h _

theorem effects_rename {source target : Ulid} (hsource : id ≠ source) (htarget : id ≠ target) :
    Effects (Frame id) (rename source target : Serving D Err _) := by
  intro t
  rw [run_rename]
  cases t.disk source with
  | none => exact .refl t
  | some file =>
    refine ⟨?_, rfl⟩
    exact (Function.update_of_ne htarget ..).trans (Function.update_of_ne hsource ..)

theorem effects_create {m : FileMetadata D} (h : id ≠ m.idUlid) :
    Effects (Frame id) (create m : Serving D Err _) := by
  intro t
  rw [run_create]
  cases t.database m.idUlid with
  | none => exact .database h _
  | some record => exact .refl t

theorem effects_delete (h : id ≠ id') : Effects (Frame id) (delete id' : Serving D Err _) :=
  fun _ => .database h _

theorem effects_drawUlid : Effects (Frame id) (drawUlid : Serving D Err _) := fun _ => ⟨rfl, rfl⟩

theorem respects_read (h : id ∈ ids) : Respects (SameOn ids) (read id : Serving D Err _) := by
  intro t t' hsame
  rw [run_read, run_read, (hsame id h).1]
  cases t.disk id <;> exact ⟨rfl, hsame⟩

theorem respects_write (file : List UInt8) :
    Respects (SameOn ids) (write id file : Serving D Err _) :=
  fun _ _ hsame => ⟨rfl, hsame.disk _ _⟩

theorem respects_patch (h : id ∈ ids) (start : ℕ) (bytes : List UInt8) :
    Respects (SameOn ids) (patch id start bytes : Serving D Err _) :=
  (respects_read h).bind fun _ => respects_write _

theorem respects_removeFile (h : id ∈ ids) :
    Respects (SameOn ids) (removeFile id : Serving D Err _) := by
  intro t t' hsame
  rw [run_removeFile, run_removeFile, (hsame id h).1]
  cases t.disk id with
  | none => exact ⟨rfl, hsame⟩
  | some file => exact ⟨rfl, hsame.disk _ _⟩

theorem respects_removeIfThere (h : id ∈ ids) :
    Respects (SameOn ids) (removeIfThere id : Serving D Err _) := by
  intro t t' hsame
  refine ⟨?_, hsame.disk _ _⟩
  exact congrArg (fun x => Except.ok (Option.isSome x)) (hsame id h).1.symm

theorem respects_rename {source target : Ulid} (h : source ∈ ids) :
    Respects (SameOn ids) (rename source target : Serving D Err _) := by
  intro t t' hsame
  rw [run_rename, run_rename, (hsame source h).1]
  cases t.disk source with
  | none => exact ⟨rfl, hsame⟩
  | some file => exact ⟨rfl, (hsame.disk _ _).disk _ _⟩

theorem respects_create {m : FileMetadata D} (h : m.idUlid ∈ ids) :
    Respects (SameOn ids) (create m : Serving D Err _) := by
  intro t t' hsame
  rw [run_create, run_create, (hsame _ h).2]
  cases t.database m.idUlid with
  | none => exact ⟨rfl, hsame.database _ _⟩
  | some record => exact ⟨rfl, hsame⟩

theorem respects_delete (h : id ∈ ids) :
    Respects (SameOn ids) (delete id : Serving D Err _) :=
  fun _ _ hsame => ⟨congrArg Except.ok (hsame id h).2.symm, hsame.database _ _⟩

theorem respects_openForWriting (h : id ∈ ids) :
    Respects (SameOn ids) (openForWriting id : Serving D Err _) := by
  intro t t' hsame
  refine ⟨rfl, ?_⟩
  change SameOn ids _ { t' with disk := Function.update t'.disk id (some ((t'.disk id).getD [])) }
  rw [(hsame id h).1]
  exact hsame.disk _ _

theorem respects_drawUlid : Respects (SameOn ids) (drawUlid : Serving D Err _) :=
  fun _ _ hsame => ⟨rfl, hsame⟩

end Accesses

theorem effects_noRecord {x : Serving D Err α} (h : Effects (Frame id) x) :
    Effects (NoRecord id) x := fun t => (h t).noRecord

theorem effects_noRecord_delete : Effects (NoRecord id) (delete id' : Serving D Err _) := by
  intro t hnone
  by_cases h : id = id'
  · subst h
    exact Function.update_self ..
  · exact (Function.update_of_ne h ..).trans hnone

theorem effects_noRecord_disk {g : Server D → Server D} {r : Server D → α}
    (h : ∀ t, (g t).database = t.database) :
    Effects (NoRecord id) (fun t => .ok (r t) (g t) : Serving D Err α) :=
  fun t hnone => (congrFun (h t) id).trans hnone

/-- A process changes only what is under the identifiers `own`, makes records only under those that
are `made` and depends only on what is under those that are `seen`. -/
structure Confined (made own seen : List Ulid) (p : Handling D Err α) : Prop where
  within : ∀ id ∉ own, Within (Frame id) p
  noRecord : ∀ id ∉ made, Within (NoRecord id) p
  isLocal : Local (SameOn seen) p

section Confinement

variable {β : Type} {made own seen : List Ulid}

theorem Confined.done (result : Fallible (ServerError Err) α) :
    Confined made own seen (.done result : Handling D Err α) :=
  ⟨fun _ _ => Within.done result, fun _ _ => Within.done result, Local.done result⟩

theorem Confined.bind {p : Handling D Err α} {f : α → Handling D Err β}
    (hp : Confined made own seen p) (hf : ∀ a, Confined made own seen (f a)) :
    Confined made own seen (p >>= f) where
  within id h := (hp.within id h).bind fun a => (hf a).within id h
  noRecord id h := (hp.noRecord id h).bind fun a => (hf a).noRecord id h
  isLocal := hp.isLocal.bind fun a => (hf a).isLocal

theorem Confined.atomic {x : Serving D Err α} (heffects : ∀ id ∉ own, Effects (Frame id) x)
    (hnoRecord : ∀ id ∉ made, Effects (NoRecord id) x) (hrespects : Respects (SameOn seen) x) :
    Confined made own seen (atomic x) where
  within id h := Within.atomic (heffects id h)
  noRecord id h := Within.atomic (hnoRecord id h)
  isLocal := Local.atomic hrespects

theorem confined_read (h : id ∈ seen) :
    Confined made own seen (atomic (read id) : Handling D Err _) :=
  .atomic (fun _ _ => effects_read) (fun _ _ => effects_noRecord effects_read) (respects_read h)

theorem confined_drawUlid : Confined made own seen (atomic drawUlid : Handling D Err _) :=
  .atomic (fun _ _ => effects_drawUlid) (fun _ _ => effects_noRecord effects_drawUlid)
    respects_drawUlid

theorem confined_write (file : List UInt8) (h : id ∈ own) :
    Confined made own seen (atomic (write id file) : Handling D Err _) :=
  .atomic (fun _ hi => effects_write (ne_of_mem_of_not_mem h hi).symm file)
    (fun _ _ => effects_noRecord_disk fun _ => rfl) (respects_write file)

theorem confined_patch {start : ℕ} {bytes : List UInt8} (h : id ∈ own) (hseen : id ∈ seen) :
    Confined made own seen (atomic (patch id start bytes) : Handling D Err _) :=
  .atomic (fun _ hi => effects_patch (ne_of_mem_of_not_mem h hi).symm start bytes)
    (fun _ _ => (effects_noRecord effects_read).bind (fun _ _ _ h h' hnone => h' (h hnone))
      fun _ => effects_noRecord_disk fun _ => rfl) (respects_patch hseen start bytes)

theorem confined_create {m : FileMetadata D} (h : m.idUlid ∈ made) (hown : m.idUlid ∈ own)
    (hseen : m.idUlid ∈ seen) :
    Confined made own seen (atomic (create m) : Handling D Err _) :=
  .atomic (fun _ hi => effects_create (ne_of_mem_of_not_mem hown hi).symm)
    (fun _ hi => effects_noRecord (effects_create (ne_of_mem_of_not_mem h hi).symm))
    (respects_create hseen)

theorem confined_delete (h : id ∈ own) (hseen : id ∈ seen) :
    Confined made own seen (atomic (delete id) : Handling D Err _) :=
  .atomic (fun _ hi => effects_delete (ne_of_mem_of_not_mem h hi).symm)
    (fun _ _ => effects_noRecord_delete) (respects_delete hseen)

theorem confined_removeFile (h : id ∈ own) (hseen : id ∈ seen) :
    Confined made own seen (atomic (removeFile id) : Handling D Err _) := by
  refine .atomic (fun _ hi => effects_removeFile (ne_of_mem_of_not_mem h hi).symm) ?_
    (respects_removeFile hseen)
  intro i _
  exact (effects_noRecord effects_read).bind (fun _ _ _ h h' hnone => h' (h hnone))
    fun _ => effects_noRecord_disk fun _ => rfl

theorem confined_removeIfThere (h : id ∈ own) (hseen : id ∈ seen) :
    Confined made own seen (atomic (removeIfThere id) : Handling D Err _) :=
  .atomic (fun _ hi => effects_removeIfThere (ne_of_mem_of_not_mem h hi).symm)
    (fun _ _ => effects_noRecord_disk fun _ => rfl) (respects_removeIfThere hseen)

theorem confined_openForWriting (h : id ∈ own) (hseen : id ∈ seen) :
    Confined made own seen (atomic (openForWriting id) : Handling D Err _) :=
  .atomic (fun _ hi _ => .disk (ne_of_mem_of_not_mem h hi).symm _)
    (fun _ _ => effects_noRecord_disk fun _ => rfl) (respects_openForWriting hseen)

theorem confined_rename {source target : Ulid} (hsource : source ∈ own) (htarget : target ∈ own)
    (hseen : source ∈ seen) :
    Confined made own seen (atomic (rename source target) : Handling D Err _) := by
  refine .atomic (fun _ hi => effects_rename (ne_of_mem_of_not_mem hsource hi).symm
    (ne_of_mem_of_not_mem htarget hi).symm) ?_ (respects_rename hseen)
  intro i _
  exact (effects_noRecord effects_read).bind (fun _ _ _ h h' hnone => h' (h hnone))
    fun _ => effects_noRecord_disk fun _ => rfl

theorem effects_reading {f : List UInt8 → Serving D Err β} (hf : ∀ file, ∃ y, f file = lift y) :
    Effects (Frame id) (read id' >>= f) := by
  apply Effects.bind (fun _ _ _ => .trans) effects_read
  intro file
  obtain ⟨y, hy⟩ := hf file
  rw [hy]
  exact .lift .refl y

theorem confined_reading {f : List UInt8 → Serving D Err β} (h : id ∈ seen)
    (hf : ∀ file, ∃ y, f file = lift y) : Confined made own seen (atomic (read id >>= f)) := by
  refine .atomic (fun _ _ => effects_reading hf)
    (fun _ _ => effects_noRecord (effects_reading hf)) ?_
  apply (respects_read h).bind
  intro file
  obtain ⟨y, hy⟩ := hf file
  rw [hy]
  exact .lift y

end Confinement

section Handlers

variable [Field F] [DataField F] {env : Environment F} {fresh : Ulid}

theorem confined_evaluation {made own seen : List Ulid} {old new : FileMetadata D} {point : F}
    {columns : List ℕ} (range : Option (ℕ × ℕ)) (hold : old.idUlid ∈ seen)
    (hnew : new.idUlid ∈ seen) : Confined made own seen
      (NetworkConnections.handleClientAppendOrEditEvalRequest env old new point columns range) := by
  refine (Confined.done _).bind fun _ => (Confined.done _).bind fun _ => ?_
  refine (confined_read hold).bind fun oldFileData => (confined_read hnew).bind fun newFileData => ?_
  refine (Confined.done _).bind fun oldCommit => (Confined.done _).bind fun newCommit => ?_
  refine (Confined.done _).bind fun oldEvaluation => (Confined.done _).bind fun newEvaluation => ?_
  rcases range with _ | ⟨start, finish⟩
  · exact (Confined.done _).bind fun row => .done _
  · exact (Confined.done _).bind fun rows => .done _

/-- The file that a message asks for and from which alone it is answered. -/
def readFrom : ClientMessages D F → Option Ulid
  | .requestFile m => some m.idUlid
  | .requestProof m _ => some m.idUlid
  | .requestPolynomialEvaluation m _ => some m.idUlid
  | .requestReshapeEvaluation old .. => some old.idUlid
  | _ => none

theorem handleFiles_reading (env : Environment F) (fresh : Ulid) {message : ClientMessages D F}
    {id : Ulid} (h : readFrom message = some id) : ∃ f : List UInt8 → Serving D env.fft.Err _,
      handleFiles env fresh message = atomic (read id >>= f) ∧ ∀ file, ∃ y, f file = lift y := by
  cases message with
  | requestFile m =>
    obtain rfl := Option.some.inj h
    exact ⟨_, rfl, fun file => ⟨.ok (.file file), rfl⟩⟩
  | requestProof m columns =>
    obtain rfl := Option.some.inj h
    refine ⟨_, rfl, fun file => exists_lift_bind fun out => ?_⟩
    cases out with
    | columnsWithPath columns => exact ⟨.ok (.columns columns), rfl⟩
    | _ => exact ⟨fail _, rfl⟩
  | requestPolynomialEvaluation m point =>
    obtain rfl := Option.some.inj h
    refine ⟨_, rfl, fun file => exists_lift_bind fun commit => exists_lift_bind fun result => ?_⟩
    exact ⟨.ok (.polynomialEvaluation result), rfl⟩
  | requestReshapeEvaluation old new point original expanded =>
    obtain rfl := Option.some.inj h
    refine ⟨_, rfl, fun file => ?_⟩
    refine exists_lift_bind fun oldCommit => exists_lift_bind fun newCommit => ?_
    refine exists_lift_bind fun oldEvaluation => exists_lift_bind fun newEvaluation => ?_
    exact ⟨.ok (.reshapeEvaluation _ _ _ _ _), rfl⟩
  | _ => cases h

omit [Field F] [DataField F] in
theorem readFrom_named {message : ClientMessages D F} {id : Ulid} (h : readFrom message = some id) :
    id ∈ named message := by
  cases message <;> simp_all [readFrom, named]

theorem handleFiles_readFrom (env : Environment F) (fresh : Ulid) {message : ClientMessages D F}
    {id : Ulid} (h : readFrom message = some id) :
    handleFiles env fresh message = atomic (handleClientMessage env message) := by
  cases message with
  | requestFile m => rfl
  | requestProof m columns => rfl
  | requestPolynomialEvaluation m point => rfl
  | requestReshapeEvaluation old new point original expanded => rfl
  | _ => cases h

theorem confined_readFrom {message : ClientMessages D F} {made own seen : List Ulid} {id : Ulid}
    (h : readFrom message = some id) (hseen : id ∈ seen) :
    Confined made own seen (handleFiles env fresh message) := by
  obtain ⟨f, hhandle, hf⟩ := handleFiles_reading env fresh h
  rw [hhandle]
  exact confined_reading hseen hf

/-- The identifiers under which the handler of a message may make a record. -/
def recordsMade (fresh : Ulid) : ClientMessages D F → List Ulid
  | .uploadNewFile .. => [fresh]
  | .editFileBytes .. => [fresh]
  | .appendToFile .. => [fresh]
  | _ => []

/-- Each handler changes at most what its message targets and what is under the new identifier, and
it depends on no more than that and what its message names. -/
theorem confined_handleFiles (env : Environment F) (fresh : Ulid) (message : ClientMessages D F) :
    Confined (recordsMade fresh message) (fresh :: targets message) (fresh :: named message)
      (handleFiles env fresh message) := by
  cases message with
  | uploadNewFile filename file columns encodedColumns =>
    refine (Confined.done _).bind fun _ => (Confined.done _).bind fun commit => ?_
    refine confined_drawUlid.bind fun _ => (confined_write _ (by simp)).bind fun _ => ?_
    refine (Confined.done _).bind fun root => ?_
    refine Confined.bind ?_ fun _ => .done _
    exact confined_create List.mem_cons_self List.mem_cons_self List.mem_cons_self
  | requestFile m => exact confined_readFrom rfl (by simp [named])
  | editFileBytes m start bytes =>
    refine (Confined.done _).bind fun _ => confined_drawUlid.bind fun _ => ?_
    refine (confined_read (by simp [named])).bind fun oldFile => ?_
    refine (confined_write _ (by simp)).bind fun _ => ?_
    refine (confined_patch (by simp) (by simp)).bind fun _ => ?_
    refine (confined_read (by simp)).bind fun newFileData => ?_
    refine (Confined.done _).bind fun commit => (Confined.done _).bind fun root => ?_
    refine Confined.bind ?_ fun _ => .done _
    exact confined_create List.mem_cons_self List.mem_cons_self List.mem_cons_self
  | appendToFile m bytes =>
    refine (Confined.done _).bind fun _ => confined_drawUlid.bind fun _ => ?_
    refine (confined_read (by simp [named])).bind fun oldFile => ?_
    refine (confined_write _ (by simp)).bind fun _ => ?_
    refine (Confined.done _).bind fun commit => (Confined.done _).bind fun root => ?_
    refine Confined.bind ?_ fun _ => .done _
    exact confined_create List.mem_cons_self List.mem_cons_self List.mem_cons_self
  | requestProof m columns => exact confined_readFrom rfl (by simp [named])
  | requestPolynomialEvaluation m point => exact confined_readFrom rfl (by simp [named])
  | requestFileReshape m pre enc =>
    refine (Confined.done _).bind fun _ => ?_
    refine (confined_read (by simp [named])).bind fun file => ?_
    refine (Confined.done _).bind fun commit => confined_drawUlid.bind fun _ => ?_
    exact (Confined.done _).bind fun root => .done _
  | requestReshapeEvaluation old new point original expanded =>
    exact confined_readFrom rfl (by simp [named])
  | reshapeResponse new old accepted =>
    refine (Confined.done _).bind fun _ => (Confined.done _).bind fun _ => ?_
    cases accepted with
    | true =>
      refine (confined_rename (by simp [targets]) (by simp [targets])
        (by simp [named])).bind fun _ => ?_
      exact (confined_delete (by simp [targets]) (by simp [named])).bind fun _ => .done _
    | false => exact (confined_delete (by simp [targets]) (by simp [named])).bind fun _ => .done _
  | requestAppendEvaluation old new point columns =>
    exact confined_evaluation none (by simp [named]) (by simp [named])
  | requestEditEvaluation old new point columns range =>
    exact confined_evaluation (some range) (by simp [named]) (by simp [named])
  | editOrAppendResponse new old accepted =>
    refine (Confined.done _).bind fun _ => (Confined.done _).bind fun _ => ?_
    cases accepted with
    | true =>
      refine (confined_rename (by simp [targets]) (by simp [targets])
        (by simp [named])).bind fun _ => ?_
      refine (confined_delete (by simp [targets]) (by simp [named])).bind fun _ => ?_
      exact (confined_removeFile (by simp [targets]) (by simp [named])).bind fun _ => .done _
    | false =>
      refine (confined_delete (by simp [targets]) (by simp [named])).bind fun _ => ?_
      exact (confined_removeFile (by simp [targets]) (by simp [named])).bind fun _ => .done _
  | deleteFile m =>
    refine (Confined.done _).bind fun _ => ?_
    refine (confined_delete (by simp [targets]) (by simp [named])).bind fun record => ?_
    refine (confined_removeIfThere (by simp [targets]) (by simp [named])).bind fun onDisk => ?_
    exact (Confined.done _).bind fun _ => .done _
  | clientKeepAlive => exact Confined.done _

end Handlers

section Alone

variable [Field F] [DataField F] {env : Environment F} {t : Server D}

theorem run_alone_upload (filename : String) (file : List UInt8) (pre enc : ℕ) :
    (alone (NetworkConnections.handleClientUploadNewFile (D := D) env (env.ulidNew t.ulidsMade)
      filename file pre enc)).run t =
      (NetworkServer.handleClientUploadNewFile env filename file pre enc).run t := by
  simp only [NetworkConnections.handleClientUploadNewFile, NetworkServer.handleClientUploadNewFile,
    alone_bind, alone_atomic, alone_done]
  apply run_lift_bind_congr
  intro _ _
  exact run_lift_bind_congr fun commit _ => rfl

theorem run_alone_edit (m : FileMetadata D) (start : ℕ) (bytes : List UInt8) :
    (alone (NetworkConnections.handleClientEditFileBytes env (env.ulidNew t.ulidsMade) m start
      bytes)).run t = (NetworkServer.handleClientEditFileBytes env m start bytes).run t := by
  simp only [NetworkConnections.handleClientEditFileBytes, NetworkServer.handleClientEditFileBytes,
    alone_bind, alone_atomic, alone_done, patch, bind_assoc]
  rfl

theorem run_alone_append (m : FileMetadata D) (bytes : List UInt8) :
    (alone (NetworkConnections.handleClientAppendToFile env (env.ulidNew t.ulidsMade) m
      bytes)).run t = (NetworkServer.handleClientAppendToFile env m bytes).run t := by
  simp only [NetworkConnections.handleClientAppendToFile, NetworkServer.handleClientAppendToFile,
    alone_bind, alone_atomic, alone_done]
  rfl

/-- The file is read before the identifier is drawn, and reading draws none. -/
theorem run_alone_reshape (m : FileMetadata D) (pre enc : ℕ) :
    (alone (NetworkConnections.handleClientRequestFileReshape env (env.ulidNew t.ulidsMade) m pre
      enc)).run t = (NetworkServer.handleClientRequestFileReshape env m pre enc).run t := by
  simp only [NetworkConnections.handleClientRequestFileReshape,
    NetworkServer.handleClientRequestFileReshape, alone_bind, alone_atomic, alone_done]
  apply run_lift_bind_congr
  intro _ _
  rw [EStateM.run_bind, EStateM.run_bind, run_read]
  cases t.disk m.idUlid with
  | none => rfl
  | some file => exact run_lift_bind_congr fun commit _ => rfl

theorem alone_delete (m : FileMetadata D) :
    alone (NetworkConnections.handleClientDeleteFile env m) =
      NetworkServer.handleClientDeleteFile env m := by
  simp only [NetworkConnections.handleClientDeleteFile, NetworkServer.handleClientDeleteFile,
    alone_bind, alone_atomic, alone_done]
  rfl

theorem alone_reshapeResponse (old new : FileMetadata D) (accepted : Bool) :
    alone (NetworkConnections.handleClientReshapeResponse env old new accepted) =
      NetworkServer.handleClientReshapeResponse env old new accepted := by
  cases accepted <;>
  simp only [NetworkConnections.handleClientReshapeResponse,
    NetworkServer.handleClientReshapeResponse, alone_bind, alone_atomic, alone_done, if_true,
    Bool.false_eq_true, if_false] <;>
  rfl

theorem alone_evaluation (old new : FileMetadata D) (point : F) (columns : List ℕ)
    (range : Option (ℕ × ℕ)) :
    alone (NetworkConnections.handleClientAppendOrEditEvalRequest env old new point columns range) =
      NetworkServer.handleClientAppendOrEditEvalRequest env old new point columns range := by
  simp only [NetworkConnections.handleClientAppendOrEditEvalRequest,
    NetworkServer.handleClientAppendOrEditEvalRequest, alone_bind, alone_atomic, alone_done]
  -- the two ways to end are compared by themselves, behind what they have in common
  iterate 2 refine congrArg (lift _ >>= ·) (funext fun _ => ?_)
  iterate 2 refine congrArg (read _ >>= ·) (funext fun _ => ?_)
  iterate 4 refine congrArg (lift _ >>= ·) (funext fun _ => ?_)
  rcases range with _ | ⟨start, finish⟩ <;> exact alone_bind (.done _) _

theorem alone_appendOrEditResponse (old new : FileMetadata D) (accepted : Bool) :
    alone (NetworkConnections.handleClientAppendOrEditResponse env old new accepted) =
      NetworkServer.handleClientAppendOrEditResponse env old new accepted := by
  cases accepted <;>
  simp only [NetworkConnections.handleClientAppendOrEditResponse,
    NetworkServer.handleClientAppendOrEditResponse, alone_bind, alone_atomic, alone_done, if_true,
    Bool.false_eq_true, if_false] <;>
  rfl

/-- With nothing between its steps a handler is the one of the server with one connection. -/
theorem run_alone_handleFiles (message : ClientMessages D F) :
    (alone (handleFiles env (env.ulidNew t.ulidsMade) message)).run t =
      (handleClientMessage env message).run t := by
  cases message with
  | uploadNewFile filename file pre enc => exact run_alone_upload filename file pre enc
  | requestFile m => exact congrFun (alone_atomic _) t
  | editFileBytes m start bytes => exact run_alone_edit m start bytes
  | appendToFile m bytes => exact run_alone_append m bytes
  | requestProof m columns => exact congrFun (alone_atomic _) t
  | requestPolynomialEvaluation m point => exact congrFun (alone_atomic _) t
  | requestFileReshape m pre enc => exact run_alone_reshape m pre enc
  | requestReshapeEvaluation old new point original expanded => exact congrFun (alone_atomic _) t
  | reshapeResponse new old accepted => exact congrFun (alone_reshapeResponse old new accepted) t
  | requestAppendEvaluation old new point columns =>
    exact congrFun (alone_evaluation old new point columns none) t
  | requestEditEvaluation old new point columns range =>
    exact congrFun (alone_evaluation old new point columns (some range)) t
  | editOrAppendResponse new old accepted =>
    exact congrFun (alone_appendOrEditResponse old new accepted) t
  | deleteFile m => exact congrFun (alone_delete m) t
  | clientKeepAlive => rfl

/-- The environment in which the next identifier is `fresh`. -/
def drawing (env : Environment F) (fresh : Ulid) : Environment F :=
  { env with ulidNew := fun _ => fresh }

theorem alone_handleFiles (env : Environment F) (fresh : Ulid) (message : ClientMessages D F) :
    alone (handleFiles env fresh message) = handleClientMessage (drawing env fresh) message := by
  have hsame : handleFiles env fresh message = handleFiles (drawing env fresh) fresh message := by
    cases message <;> rfl
  rw [hsame]
  exact funext fun t => run_alone_handleFiles message

end Alone

end NetworkAtomicity
