import ProofOfStorage.NetworkVersions

/-! # What a reshape leaves on the server

No record is made for the new shape, and the record of the old one is deleted on both answers. The
file itself stays, under the new identifier or under the old one.
-/
namespace NetworkReshapes

open FoundationFaults FoundationInteraction CommitmentTypes OnlineColumns FileFields
open NetworkMessages NetworkServer NetworkClient NetworkUpdates NetworkVersions

variable {D : Digest} {F : Type} [Field F] [DataField F] {env : Environment F}
  {old new : FileMetadata D} {file : List UInt8} {t : Server D}

section Handlers

def deleteErrors (onDisk inDatabase : Bool) : String :=
  let returnString := if onDisk then "" else
    "error deleting file: No such file or directory (os error 2); "
  if inDatabase then returnString else
    (if returnString.isEmpty then returnString else returnString ++ "; ") ++
      "error deleting file metadata from local database"

theorem deleteErrors_isEmpty_iff : ∀ onDisk inDatabase,
    (deleteErrors onDisk inDatabase).isEmpty = true ↔ onDisk = true ∧ inDatabase = true := by
  decide

theorem serve_deleteFile_iff {fileMetadata : FileMetadata D} :
    (serve env (.deleteFile fileMetadata) t).1 = some (.fileDeleted fileMetadata.filename) ↔
      (t.disk fileMetadata.idUlid).isSome = true ∧
        (t.database fileMetadata.idUlid).isSome = true := by
  rw [← deleteErrors_isEmpty_iff]
  have hrun : (handleClientMessage env (.deleteFile fileMetadata)).run t =
      (lift (ensure ((deleteErrors (t.disk fileMetadata.idUlid).isSome
          (t.database fileMetadata.idUlid).isSome).isEmpty = true)
        (.message (deleteErrors (t.disk fileMetadata.idUlid).isSome
          (t.database fileMetadata.idUlid).isSome))) >>= fun _ =>
            pure (.fileDeleted fileMetadata.filename)).run
        { t with
          disk := Function.update t.disk fileMetadata.idUlid none
          database := Function.update t.database fileMetadata.idUlid none } := rfl
  unfold serve
  rw [hrun]
  by_cases hclean : (deleteErrors (t.disk fileMetadata.idUlid).isSome
      (t.database fileMetadata.idUlid).isSome).isEmpty = true
  · rw [ensure_of hclean]
    exact iff_of_true rfl hclean
  · rw [ensure, if_neg hclean]
    refine iff_of_false ?_ hclean
    intro h
    cases h

theorem serve_reshape_accepted (hfile : t.disk old.idUlid = some file) :
    serve env (.reshapeResponse new old true) t = (some (.compactCommit new), { t with
      disk := Function.update (Function.update t.disk old.idUlid none) new.idUlid (some file)
      database := Function.update t.database old.idUlid none }) := by
  have hrun : (handleClientMessage env (.reshapeResponse new old true)).run t =
      (rename old.idUlid new.idUlid >>= fun _ => delete old.idUlid >>= fun _ =>
        pure (.compactCommit new)).run t := rfl
  rw [EStateM.run_bind, run_rename, hfile] at hrun
  unfold serve
  rw [hrun]
  rfl

theorem serve_reshape_rejected : serve env (.reshapeResponse new old false) t =
    (some (.compactCommit old),
      { t with database := Function.update t.database old.idUlid none }) := rfl

theorem serve_requestFileReshape {pre enc : ℕ}
    (h : (serve env (.requestFileReshape old pre enc) t).1 = some (.compactCommit new)) :
    new.idUlid = env.ulidNew t.ulidsMade ∧
      (serve env (.requestFileReshape old pre enc) t).2 =
        { t with ulidsMade := t.ulidsMade + 1 } := by
  obtain ⟨t', hrun, hstate⟩ := run_of_serve h (by simp)
  change (handleClientRequestFileReshape env old pre enc).run t = _ at hrun
  unfold handleClientRequestFileReshape at hrun
  obtain ⟨_, -, hrun⟩ := run_lift_bind_ok.mp hrun
  obtain ⟨file, -, hrun⟩ := run_read_bind_ok.mp hrun
  obtain ⟨commit, -, hrun⟩ := run_lift_bind_ok.mp hrun
  rw [run_newUlid_bind] at hrun
  obtain ⟨root, -, hrun⟩ := run_lift_bind_ok.mp hrun
  obtain ⟨hresponse, hfinal⟩ := run_pure_ok.mp hrun
  injection hresponse with hnew
  rw [hstate, ← hnew, hfinal]
  exact ⟨rfl, rfl⟩

theorem serve_requestReshapeEvaluation {point : F} {columns newColumns : List ℕ}
    {transmission : ServerMessages D F env.fft.Err}
    (h : (serve env (.requestReshapeEvaluation old new point columns newColumns) t).1 =
      some transmission) (hne : ∀ error, transmission ≠ .errorResponse error) :
    (serve env (.requestReshapeEvaluation old new point columns newColumns) t).2 = t := by
  obtain ⟨t', hrun, hstate⟩ := run_of_serve h hne
  change (handleClientRequestReshapeEvaluation env old new point columns newColumns).run t = _
    at hrun
  unfold handleClientRequestReshapeEvaluation at hrun
  iterate 2 obtain ⟨_, -, hrun⟩ := run_lift_bind_ok.mp hrun
  obtain ⟨file, -, hrun⟩ := run_read_bind_ok.mp hrun
  iterate 4 obtain ⟨_, -, hrun⟩ := run_lift_bind_ok.mp hrun
  rw [hstate, ← (run_pure_ok.mp hrun).2]

end Handlers

section Runs

variable {records : Records D} {pre enc : ℕ} {q : ClientMessages D F}
  {accepted : Bool}

/-- The conversation ends with an answer about `new`, which the server handles in a state that has
the files and the records of `t`. -/
structure EndsWith (env : Environment F) (old : FileMetadata D) (t : Server D)
    (conversation : Conversation (ClientMessages D F) (ServerMessages D F env.fft.Err) (Records D)
      (Server D) (ClientError D F env.fft.Err) (FileMetadata D))
    (new : FileMetadata D) (accepted : Bool) (t' : Server D) : Prop where
  disk : t'.disk = t.disk
  database : t'.database = t.database
  last : conversation.answers.getLast? =
    some (serve env (.reshapeResponse new old accepted) t').1
  peer : conversation.peer = (serve env (.reshapeResponse new old accepted) t').2

theorem EndsWith.prepend {conversation : Conversation (ClientMessages D F)
      (ServerMessages D F env.fft.Err) (Records D) (Server D) (ClientError D F env.fft.Err)
      (FileMetadata D)} {t₁ t' : Server D} (h : EndsWith env old t₁ conversation new accepted t')
    (hdisk : t₁.disk = t.disk) (hdatabase : t₁.database = t.database)
    (message : ClientMessages D F) (answer : Option (ServerMessages D F env.fft.Err)) :
    EndsWith env old t (conversation.prepend message answer) new accepted t' := by
  refine ⟨h.disk.trans hdisk, h.database.trans hdatabase, ?_, h.peer⟩
  change (answer :: conversation.answers).getLast? = _
  rw [List.getLast?_cons, h.last]
  rfl

theorem endsWith_answer {p : Client D F env.fft.Err (FileMetadata D)}
    (hp : Sends (fun _ => False) p) {b : Bool}
    (hq : q ∈ (converse (serve env) (sendMessage (.reshapeResponse new old b) >>= fun _ => p)
      records t []).sent) (hanswer : answered q = some accepted) :
    EndsWith env old t (converse (serve env)
      (sendMessage (.reshapeResponse new old b) >>= fun _ => p) records t []) new accepted t := by
  have hrun : converse (serve env) (sendMessage (.reshapeResponse new old b) >>= fun _ => p)
      records t [] = (converse (serve env) p records
        (serve env (.reshapeResponse new old b) t).2
        [(serve env (.reshapeResponse new old b) t).1]).prepend (.reshapeResponse new old b)
          (serve env (.reshapeResponse new old b) t).1 := rfl
  obtain ⟨hsent, hanswers, hpeer⟩ := hp.converse_silent (serve env) records
    (serve env (.reshapeResponse new old b) t).2 [(serve env (.reshapeResponse new old b) t).1]
  rw [hrun] at hq ⊢
  rcases List.mem_cons.mp hq with rfl | hq
  · obtain rfl : b = accepted := Option.some.inj hanswer
    refine ⟨rfl, rfl, ?_, hpeer⟩
    change (_ :: _).getLast? = _
    rw [hanswers]
    rfl
  · rw [hsent] at hq
    cases hq

variable [DecidableEq F]

abbrev reshaping (env : Environment F) (old : FileMetadata D) (pre enc : ℕ) (records : Records D)
    (t : Server D) :
    Conversation (ClientMessages D F) (ServerMessages D F env.fft.Err) (Records D) (Server D)
      (ClientError D F env.fft.Err) (FileMetadata D) :=
  converse (serve env) (reshapeFile env old pre enc) records t []

/-- The client sent its answer, so the server has handled it. -/
def ReshapeAnswered (env : Environment F) (old : FileMetadata D) (pre enc : ℕ)
    (records : Records D) (t : Server D) (accepted : Bool) : Prop :=
  ∃ q ∈ (reshaping env old pre enc records t).sent, answered q = some accepted

instance decidableReshapeAnswered (env : Environment F) (old : FileMetadata D) (pre enc : ℕ)
    (records : Records D) (t : Server D) (accepted : Bool) :
    Decidable (ReshapeAnswered env old pre enc records t accepted) :=
  inferInstanceAs (Decidable (∃ q ∈ (reshaping env old pre enc records t).sent,
    answered q = some accepted))

theorem ReshapeAnswered.endsWith (h : ReshapeAnswered env old pre enc records t accepted) :
    ∃ new t', new.idUlid = env.ulidNew t.ulidsMade ∧
      EndsWith env old t (reshaping env old pre enc records t) new accepted t' := by
  obtain ⟨q, hq, hanswer⟩ := h
  have hne {message : ClientMessages D F} (hmessage : answered message = none) : q ≠ message := by
    rintro rfl
    rw [hmessage] at hanswer
    cases hanswer
  obtain ⟨transmission, new, hserve, hselect, hrun⟩ := converse_request hq (hne rfl)
  obtain rfl := compactCommit_eq_some hselect
  obtain ⟨hidentifier, hstate⟩ := serve_requestFileReshape hserve
  generalize ht₁ : ({ t with ulidsMade := t.ulidsMade + 1 } : Server D) = t₁ at hstate
  have hdisk : t₁.disk = t.disk := by rw [← ht₁]
  have hdatabase : t₁.database = t.database := by rw [← ht₁]
  unfold reshaping at hq ⊢
  unfold reshapeFile at hq ⊢
  rw [hrun, hstate] at hq ⊢
  replace hq := (List.mem_cons.mp hq).resolve_left (hne rfl)
  by_cases hdims : new.numEncodedColumns ≠ enc ∨ new.numColumns ≠ pre
  · rw [if_pos hdims] at hq ⊢
    refine ⟨new, t₁, hidentifier, EndsWith.prepend ?_ hdisk hdatabase _ _⟩
    exact endsWith_answer (p := bail _) trivial hq hanswer
  · rw [if_neg hdims] at hq ⊢
    obtain ⟨transmission, evaluations, hserve, hselect, hrun⟩ := converse_request hq (hne rfl)
    have hstate := serve_requestReshapeEvaluation hserve fun error herror => by
      rw [herror] at hselect
      cases hselect
    dsimp only at hq ⊢
    rw [hrun, hstate] at hq ⊢
    replace hq := (List.mem_cons.mp hq).resolve_left (hne rfl)
    refine ⟨new, t₁, hidentifier,
      EndsWith.prepend (EndsWith.prepend ?_ rfl rfl _ _) hdisk hdatabase _ _⟩
    generalize (verifyEvaluation env old evaluations.originalResultVector _ _ :
      Fallible (VerifierError env.fft.Err) F) = oldResults at hq ⊢
    generalize (verifyEvaluation env new evaluations.newResultVector _ _ :
      Fallible (VerifierError env.fft.Err) F) = newResults at hq ⊢
    rcases oldResults with _ | oldResults
    · exact endsWith_answer (p := bail _) trivial hq hanswer
    rcases newResults with _ | newResults
    · exact endsWith_answer (p := bail _) trivial hq hanswer
    dsimp only at hq ⊢
    by_cases hsame : oldResults ≠ newResults
    · rw [if_pos hsame] at hq ⊢
      exact endsWith_answer (p := bail _) trivial hq hanswer
    · rw [if_neg hsame] at hq ⊢
      exact endsWith_answer (p := .perform _ (pure ()) >>= fun _ => pure new) trivial hq hanswer

/-- The metadata names `content` on the disk and has a record, and the file can be deleted with
it. -/
structure Managed (env : Environment F) (t : Server D) (fileMetadata : FileMetadata D)
    (content : List UInt8) : Prop where
  disk : t.disk fileMetadata.idUlid = some content
  database : (t.database fileMetadata.idUlid).isSome = true
  deletes : (serve env (.deleteFile fileMetadata) t).1 =
    some (.fileDeleted fileMetadata.filename)

/-- The last answer of the server is the metadata of a file that can be managed. -/
def ReshapeKeeps (env : Environment F) (old : FileMetadata D) (pre enc : ℕ) (records : Records D)
    (t : Server D) (content : List UInt8) : Prop :=
  ∃ returned, (reshaping env old pre enc records t).answers.getLast? =
      some (some (.compactCommit returned)) ∧
    Managed env (reshaping env old pre enc records t).peer returned content

/-- The client keeps metadata without a record when it rejects. -/
theorem rejected_not_kept (h : ReshapeAnswered env old pre enc records t false) :
    ¬ReshapeKeeps env old pre enc records t file := by
  obtain ⟨new, t', -, hend⟩ := h.endsWith
  have hlast := hend.last
  rw [serve_reshape_rejected] at hlast
  rintro ⟨returned, hreturned, hmanaged⟩
  obtain rfl : old = returned := by
    injection Option.some.inj (Option.some.inj (hlast.symm.trans hreturned))
  have hrecord := hmanaged.database
  rw [hend.peer, serve_reshape_rejected] at hrecord
  simp at hrecord

/-- The identifier of the new shape needs a record of its own, from before the exchange. -/
theorem accepted_kept_iff (hstored : Stored t old file)
    (h : ReshapeAnswered env old pre enc records t true) :
    ReshapeKeeps env old pre enc records t file ↔ env.ulidNew t.ulidsMade ≠ old.idUlid ∧
      (t.database (env.ulidNew t.ulidsMade)).isSome = true := by
  obtain ⟨new, t', hidentifier, hend⟩ := h.endsWith
  have hfile : t'.disk old.idUlid = some file := by
    rw [hend.disk]
    exact hstored.disk
  have hlast := hend.last
  have hpeer := hend.peer
  rw [serve_reshape_accepted hfile] at hlast hpeer
  rw [← hidentifier, ← hend.database]
  have hdisk : (reshaping env old pre enc records t).peer.disk new.idUlid = some file := by
    rw [hpeer]
    exact Function.update_self ..
  have hdatabase : ((reshaping env old pre enc records t).peer.database new.idUlid).isSome = true ↔
      new.idUlid ≠ old.idUlid ∧ (t'.database new.idUlid).isSome = true := by
    rw [hpeer]
    by_cases hsame : new.idUlid = old.idUlid
    · simp [hsame]
    · simp [hsame, Function.update_of_ne]
  constructor
  · rintro ⟨returned, hreturned, hmanaged⟩
    obtain rfl : new = returned := by
      injection Option.some.inj (Option.some.inj (hlast.symm.trans hreturned))
    exact hdatabase.mp hmanaged.database
  · intro hrecord
    replace hrecord := hdatabase.mpr hrecord
    refine ⟨new, hlast, hdisk, hrecord, serve_deleteFile_iff.mpr ⟨?_, hrecord⟩⟩
    rw [hdisk]
    rfl

/-- The exchange leaves a managed file exactly when it is accepted and the identifier drawn for the
new shape has a record already, which is not the old one. -/
theorem reshape_keeps_iff (hstored : Stored t old file)
    (h : ReshapeAnswered env old pre enc records t accepted) :
    ReshapeKeeps env old pre enc records t file ↔ accepted = true ∧
      env.ulidNew t.ulidsMade ≠ old.idUlid ∧
      (t.database (env.ulidNew t.ulidsMade)).isSome = true := by
  cases accepted with
  | false => exact iff_of_false (rejected_not_kept h) (by simp)
  | true => simpa using accepted_kept_iff hstored h

end Runs

def recording (fileMetadata : FileMetadata byteSum) (content : List UInt8) : Server byteSum :=
  { holding fileMetadata content with database := fun _ => some fileMetadata }

theorem reshape_kept_under_used_identifier :
    ReshapeKeeps fermatEnvironment (firstUpload 1 2 4 2 7) 2 4 (fun _ => none)
      (recording (firstUpload 1 2 4 2 7) [1, 2]) [1, 2] := by
  have hstored : Stored (recording (firstUpload 1 2 4 2 7) [1, 2]) (firstUpload 1 2 4 2 7)
      [1, 2] := ⟨(stored_holding (firstUpload 1 2 4 2 7) [1, 2]).disk, rfl⟩
  have haccepted : ReshapeAnswered fermatEnvironment (firstUpload 1 2 4 2 7) 2 4 (fun _ => none)
      (recording (firstUpload 1 2 4 2 7) [1, 2]) true := by decide +kernel
  exact (reshape_keeps_iff hstored haccepted).mpr ⟨rfl, by decide, rfl⟩

/-- Neither an accepted reshape nor a rejected one leaves a file that can be managed. -/
theorem reshapes_not_kept :
    (Stored (holding (firstUpload 1 2 4 2 7) [1, 2]) (firstUpload 1 2 4 2 7) [1, 2] ∧
      ReshapeAnswered fermatEnvironment (firstUpload 1 2 4 2 7) 2 4 (fun _ => none)
        (holding (firstUpload 1 2 4 2 7) [1, 2]) true ∧
      ¬ReshapeKeeps fermatEnvironment (firstUpload 1 2 4 2 7) 2 4 (fun _ => none)
        (holding (firstUpload 1 2 4 2 7) [1, 2]) [1, 2]) ∧
      ReshapeAnswered fermatEnvironment (firstUpload 1 2 4 2 7) 1 2 (fun _ => none)
        (holding (firstUpload 1 2 4 2 7) [1, 2]) false ∧
      ¬ReshapeKeeps fermatEnvironment (firstUpload 1 2 4 2 7) 1 2 (fun _ => none)
        (holding (firstUpload 1 2 4 2 7) [1, 2]) [1, 2] := by
  have haccepted : ReshapeAnswered fermatEnvironment (firstUpload 1 2 4 2 7) 2 4 (fun _ => none)
      (holding (firstUpload 1 2 4 2 7) [1, 2]) true := by decide +kernel
  have hrejected : ReshapeAnswered fermatEnvironment (firstUpload 1 2 4 2 7) 1 2 (fun _ => none)
      (holding (firstUpload 1 2 4 2 7) [1, 2]) false := by decide +kernel
  refine ⟨⟨stored_holding _ _, haccepted, ?_⟩, hrejected, rejected_not_kept hrejected⟩
  rw [accepted_kept_iff (stored_holding _ _) haccepted]
  rintro ⟨-, hrecord⟩
  cases hrecord

end NetworkReshapes
