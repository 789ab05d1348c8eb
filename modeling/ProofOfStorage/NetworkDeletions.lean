import ProofOfStorage.NetworkBookkeeping
import ProofOfStorage.NetworkDownloads

/-! # Deletions

A deletion takes the record away before the file, and each of the two steps may find that another
deletion was faster. What has been deleted comes back only when something is renamed to it.
-/
namespace NetworkDeletions

open FoundationFaults FoundationInteraction FoundationRuns FoundationProcesses
open FoundationInterleaving
open CommitmentTypes FileFields FileWriter
open NetworkMessages NetworkServer NetworkVersions NetworkClient NetworkUploads NetworkConnections
open NetworkAtomicity NetworkInterleavings NetworkBookkeeping NetworkDownloads

variable {ι : Type} {D : Digest} {F : Type}

section Client

variable {Err : Type}

def deletedReply : ServerMessages D F Err → Option String
  | .fileDeleted filename => some filename
  | _ => none

/-- A record that does not exist cannot be unwrapped when it is deleted. -/
def deleteRecord (fileMetadata : FileMetadata D) :
    Stateful (UploadError Err) (Records D) Unit := do
  let deleteResult := (← get) fileMetadata.idUlid
  modify fun records => Function.update records fileMetadata.idUlid none
  lift (assert (deleteResult.isSome = true))

/-- The name in the reply is not looked at. -/
def deleteFile (fileMetadata : FileMetadata D) : Flow D F Err (Records D) Unit := do
  let _ ← ask (.deleteFile fileMetadata) "File deletion failed on server end: " deletedReply
  .perform (deleteRecord fileMetadata) (pure ())

theorem replay_deleteFile_of_deleted {m : FileMetadata D} {records : Records D}
    (hrecord : records m.idUlid ≠ none) (filename : String)
    (rest : List (Option (ServerMessages D F Err))) :
    replay (deleteFile m) records (some (.fileDeleted filename) :: rest) =
      ⟨.ok (), [.deleteFile m], Function.update records m.idUlid none⟩ := by
  obtain ⟨record, hsome⟩ := Option.ne_none_iff_exists'.mp hrecord
  have hrun : (deleteRecord m : Stateful (UploadError Err) _ _).run records =
      .ok () (Function.update records m.idUlid none) := by
    change (lift (assert ((records m.idUlid).isSome = true)) :
      Stateful (UploadError Err) (Records D) Unit).run (Function.update records m.idUlid none) = _
    rw [hsome]
    rfl
  have hreply : deletedReply (.fileDeleted filename : ServerMessages D F Err) = some filename := rfl
  unfold deleteFile
  rw [replay_ask_of_reply hreply]
  unfold replay
  rw [hrun]
  rfl

end Client

section Server

variable {Err : Type} {id id' : Ulid} {t t' : Server D}

structure Gone (id : Ulid) (t : Server D) : Prop where
  disk : t.disk id = none
  database : t.database id = none

def NoFile (id : Ulid) (t t' : Server D) : Prop := t.disk id = none → t'.disk id = none

theorem Frame.noFile (h : Frame id t t') : NoFile id t t' := fun hnone => h.1.trans hnone

theorem noFile_emptied (t : Server D) :
    NoFile id t { t with disk := Function.update t.disk id' none } := by
  intro hnone
  by_cases h : id = id'
  · subst h
    exact Function.update_self ..
  · exact (Function.update_of_ne h ..).trans hnone

theorem effects_noFile_rename {source target : Ulid} (h : id ≠ target) :
    Effects (NoFile id) (rename source target : Serving D Err _) := by
  intro t hnone
  rw [run_rename]
  cases t.disk source with
  | none => exact hnone
  | some file => exact (Function.update_of_ne h ..).trans (noFile_emptied t hnone)

theorem effects_noFile_removeFile : Effects (NoFile id) (removeFile id' : Serving D Err _) := by
  intro t
  rw [run_removeFile]
  cases t.disk id' with
  | none => exact fun hnone => hnone
  | some file => exact noFile_emptied t

theorem within_noFile_delete :
    Within (NoFile id) (atomic (delete id') : Handling D Err (Option (FileMetadata D))) :=
  Within.atomic fun _ hnone => hnone

/-- Where the answer to a reshape, an edit or an append renames a file to. -/
def renamedTo : ConnectionMessages D F → List Ulid
  | .files (.reshapeResponse new _ true) => [new.idUlid]
  | .files (.editOrAppendResponse new _ true) => [new.idUlid]
  | _ => []

variable [Field F] [DataField F] {env : Environment F} {fresh : Ulid}

theorem noFile_handleFiles (message : ClientMessages D F) (hfresh : id ≠ fresh)
    (hid : id ∉ renamedTo (.files message)) :
    Within (NoFile id) (handleFiles env fresh message) := by
  by_cases htarget : id ∈ targets message
  · cases message with
    | reshapeResponse new old accepted =>
      refine (Within.done _).bind fun _ => (Within.done _).bind fun _ => ?_
      cases accepted with
      | true =>
        refine Within.bind (Within.atomic (effects_noFile_rename ?_)) fun _ => ?_
        · exact fun heq => hid (List.mem_singleton.mpr heq)
        · exact within_noFile_delete.bind fun _ => .done _
      | false => exact within_noFile_delete.bind fun _ => .done _
    | editOrAppendResponse new old accepted =>
      refine (Within.done _).bind fun _ => (Within.done _).bind fun _ => ?_
      have hremove : ∀ id', Within (NoFile id) (atomic (removeFile id') :
          Handling D env.fft.Err Unit) := fun _ => Within.atomic effects_noFile_removeFile
      cases accepted with
      | true =>
        refine Within.bind (Within.atomic (effects_noFile_rename ?_)) fun _ => ?_
        · exact fun heq => hid (List.mem_singleton.mpr heq)
        · exact within_noFile_delete.bind fun _ => (hremove _).bind fun _ => .done _
      | false => exact within_noFile_delete.bind fun _ => (hremove _).bind fun _ => .done _
    | deleteFile m =>
      refine (Within.done _).bind fun _ => within_noFile_delete.bind fun record => ?_
      refine Within.bind (Within.atomic fun t => noFile_emptied t) fun onDisk => ?_
      exact (Within.done _).bind fun _ => .done _
    | _ => cases htarget
  · have hframe := (confined_handleFiles env fresh message).within id
      (List.not_mem_cons_of_ne_of_not_mem hfresh htarget)
    exact hframe.mono fun _ _ => Frame.noFile

structure KeepsGone (id : Ulid) (t t' : Server D) : Prop where
  noFile : NoFile id t t'
  noRecord : NoRecord id t t'

theorem KeepsGone.refl (t : Server D) : KeepsGone id t t := ⟨fun h => h, fun h => h⟩

theorem KeepsGone.trans {t₁ t₂ t₃ : Server D} (h : KeepsGone id t₁ t₂) (h' : KeepsGone id t₂ t₃) :
    KeepsGone id t₁ t₃ :=
  ⟨fun hnone => h'.noFile (h.noFile hnone), fun hnone => h'.noRecord (h.noRecord hnone)⟩

theorem Gone.keeps (h : Gone id t) (hkeeps : KeepsGone id t t') : Gone id t' :=
  ⟨hkeeps.noFile h.disk, hkeeps.noRecord h.database⟩

/-- What is gone comes back only when it is drawn anew or something is renamed to it. -/
theorem keepsGone_handle [DecidableEq ι] (i : ι) (q : Request D F) (hfresh : id ≠ q.fresh)
    (hid : id ∉ renamedTo q.message) :
    Within (fun a b : Store ι D => KeepsGone id a.toServer b.toServer) (handle env i q) := by
  have hnoRecord : Within (fun a b : Store ι D => NoRecord id a.toServer b.toServer)
      (handle env i q) := (touches_handle i q).mono fun _ _ h => h.noRecord id hfresh
  have hnoFile : Within (fun a b : Store ι D => NoFile id a.toServer b.toServer)
      (handle env i q) := by
    obtain ⟨fresh, message⟩ := q
    by_cases hfiles : ∃ m, message = .files m
    · obtain ⟨m, rfl⟩ := hfiles
      refine Within.bind ?_ fun _ => .done _
      exact (noFile_handleFiles m hfresh hid).onPart fun _ _ h => h
    · have hframe : Within (fun a b : Store ι D => Frame id a.toServer b.toServer)
          (handle env i ⟨fresh, message⟩) := by
        refine frame_handle i ⟨fresh, message⟩ (List.not_mem_cons_of_ne_of_not_mem hfresh ?_)
        cases message with
        | files m => exact absurd ⟨m, rfl⟩ hfiles
        | _ => exact List.not_mem_nil
      exact hframe.mono fun _ _ => Frame.noFile
  exact (hnoFile.and hnoRecord).mono fun _ _ h => ⟨h.1, h.2⟩

end Server

section Runs

variable [DecidableEq ι] [Field F] [DataField F] {env : Environment F} {id : Ulid}
  {store : Store ι D} {s s' : Connections ι D env}

def Deletes (id : Ulid) (_ : ι) (q : Request D F) : Prop :=
  ∃ m, q.message = .files (.deleteFile m) ∧ m.idUlid = id

omit [DecidableEq ι] [Field F] [DataField F] in
theorem Deletes.named {i : ι} {q : Request D F} (h : Deletes id i q) : id ∈ q.message.named := by
  obtain ⟨m, hmessage, rfl⟩ := h
  rw [hmessage]
  exact List.mem_singleton_self _

/-- While a file is deleted nobody else puts anything under its identifier, and where the deletion
succeeds nothing is there. -/
def deletion (ι : Type) (D : Digest) (env : Environment F) (id : Ulid) :
    Contract ι (Request D F) (ConnectionReplies D F env.fft.Err) (Store ι D)
      (ServerError env.fft.Err) where
  rely i q a b := Deletes id i q → KeepsGone id a.toServer b.toServer
  effect _ q a b := id ≠ q.fresh → id ∉ renamedTo q.message → KeepsGone id a.toServer b.toServer
  good _ q r a := ∀ m response, q.message = .files (.deleteFile m) → m.idUlid = id →
    r = .ok response → response = .files (.fileDeleted m.filename) ∧ Gone id a.toServer

omit [DecidableEq ι] in
/-- The record goes first. It stays away while the file goes, and so do both after that. -/
theorem amid_deleteFile (env : Environment F) {rely : Server D → Server D → Prop}
    (m : FileMetadata D) (t : Server D) (hrely : ∀ t t', rely t t' → KeepsGone m.idUlid t t') :
    Amid rely (fun _ => True) (fun r t => ∀ response, r = .ok response →
      response = .fileDeleted m.filename ∧ Gone m.idUlid t)
      (NetworkConnections.handleClientDeleteFile env m) t := by
  refine Amid.done_bind (fun _ _ _ h => by cases h) fun _ _ => ?_
  refine Amid.atomic_bind (fun _ _ _ h => by cases h) fun t₁ _ _ => ⟨trivial, fun record _ => ?_⟩
  have hrecord : Function.update t₁.database m.idUlid none m.idUlid = none :=
    Function.update_self ..
  refine Amid.atomic_bind (fun _ _ _ h => by cases h) fun t₂ h₂ _ => ⟨trivial, fun onDisk _ => ?_⟩
  have hgone : Gone m.idUlid { t₂ with disk := Function.update t₂.disk m.idUlid none } :=
    ⟨Function.update_self .., (hrely _ _ h₂).noRecord hrecord⟩
  refine Amid.done_bind (fun _ _ _ h => by cases h) fun _ _ => ?_
  refine Amid.done _ fun t₃ h₃ _ response heq => ?_
  obtain rfl := Except.ok.inj heq
  exact ⟨rfl, hgone.keeps (hrely _ _ h₃)⟩

structure Leaves (id : Ulid) (s : Connections ι D env) (i : ι) (q : Request D F) : Prop where
  admits : Admits env s i q
  tracked : Tracked s
  working : ∀ x ∈ s.received, id ∉ renamedTo x.2.message
  renamed : id ∉ renamedTo q.message

theorem deletion_kept (env : Environment F) (id : Ulid) :
    (deletion ι D env id).Kept (handle env) (Leaves id) (fun _ => True) where
  refl _ _ _ _ _ := .refl _
  trans _ _ _ _ _ h h' hdeletes := (h hdeletes).trans (h' hdeletes)
  errors _ _ _ _ _ _ _ _ h := by cases h
  effects _ i q h _ := by
    by_cases hfresh : id = q.fresh
    · exact Within.of_forall fun _ _ hne => absurd hfresh hne
    · exact (keepsGone_handle i q hfresh h.renamed).mono fun _ _ hkeeps _ _ => hkeeps
  starts s i q _ _ := by
    obtain ⟨fresh, message⟩ := q
    by_cases hdeletes : Deletes id i ⟨fresh, message⟩
    · obtain ⟨m, rfl, rfl⟩ := hdeletes
      have hself : Deletes m.idUlid i (⟨fresh, .files (.deleteFile m)⟩ : Request D F) :=
        ⟨m, rfl, rfl⟩
      have hserver : Amid (fun t t' => Deletes m.idUlid i (⟨fresh, .files (.deleteFile m)⟩ :
          Request D F) → KeepsGone m.idUlid t t') (fun _ => True) _ _ s.shared.toServer :=
        amid_deleteFile env m s.shared.toServer fun _ _ h => h hself
      refine Amid.bind (fun _ _ _ _ => .refl _) ((hserver.onPart fun _ _ => rfl).mono ?_)
      intro r b hgone
      cases r with
      | ok response =>
        refine Amid.done _ fun c hkeeps _ m' response' hmessage _ hr => ?_
        cases hmessage
        obtain rfl := Except.ok.inj hr
        obtain ⟨hresponse, hgone⟩ := hgone response rfl
        exact ⟨congrArg ConnectionReplies.files hresponse, hgone.keeps (hkeeps hself)⟩
      | error e => exact fun _ _ _ _ hr => by cases hr
    · refine ((Within.of_forall fun _ _ _ => trivial).amid _).mono fun _ _ _ m _ hmessage hid => ?_
      exact absurd ⟨m, hmessage, hid⟩ hdeletes
  apart s i q h j q' p hj _ := by
    have hreceived := h.tracked.working j q' p hj
    constructor
    · intro a b _ heffect hdeletes
      refine heffect (fun heq => ?_) (h.working _ hreceived)
      exact h.admits.unguessed j q' p hj (heq ▸ hdeletes.named)
    · intro a b _ heffect hdeletes
      refine heffect (fun heq => ?_) h.renamed
      exact h.admits.unnamed _ hreceived (heq ▸ hdeletes.named)

theorem reaches_leaves (h : Serves env (System.start store) s)
    (hrenamed : ∀ x ∈ s.received, id ∉ renamedTo x.2.message) :
    Reaches (handle env) (Leaves id) (System.start store) s := by
  have hreach := reaches_tracked (fun q => id ∉ renamedTo q.message) (tracked_start store) h hrenamed
  exact hreach.mono fun _ _ _ ⟨hadmits, htracked, hreceived, hid⟩ =>
    ⟨hadmits, htracked, hreceived, hid⟩

/-- When a deletion has been answered, the client gives up its record too, and nothing is stored
under the identifier for the rest of the run, as long as nothing is renamed to it. -/
theorem deleted_stays_deleted (env : Environment F) (store : Store ι D) (s : Connections ι D env)
    (i : ι) (q : Request D F) (m : FileMetadata D) (response : ServerMessages D F env.fft.Err)
    (records : Records D) (rest : List (Option (ServerMessages D F env.fft.Err)))
    (h : Serves env (System.start store) s) (hmessage : q.message = .files (.deleteFile m))
    (hanswer : (i, q, .ok (.files response)) ∈ s.finished)
    (hrenamed : ∀ x ∈ s.received, m.idUlid ∉ renamedTo x.2.message)
    (hrecord : records m.idUlid ≠ none) :
    Gone m.idUlid s.shared.toServer ∧
      replay (deleteFile m) records (some response :: rest) =
        ⟨.ok (), [.deleteFile m], Function.update records m.idUlid none⟩ := by
  have hdeletes : Deletes m.idUlid i q := ⟨m, hmessage, rfl⟩
  have hnobody : (deletion ι D env m.idUlid).Lasts (Deletes m.idUlid) (fun _ => True)
      (System.start store) := .start store
  obtain ⟨-, hlasts⟩ := hnobody.reaches (deletion_kept env m.idUlid) (fun _ _ _ => trivial)
    (.start trivial) (fun s i q hleaves j q' r hmem hdeletes a b heffect _ => by
      have hreceived := hleaves.tracked.ended j q' r hmem
      refine heffect (fun heq => ?_) hleaves.renamed
      exact hleaves.admits.unnamed _ hreceived (heq ▸ hdeletes.named))
    (reaches_leaves h hrenamed)
  obtain ⟨hresponse, hgone⟩ := hlasts.good i q _ hanswer hdeletes s.shared (fun _ => .refl _)
    trivial m _ hmessage rfl rfl
  refine ⟨hgone, ?_⟩
  rw [ConnectionReplies.files.inj hresponse]
  exact replay_deleteFile_of_deleted hrecord m.filename rest

omit [DecidableEq ι] in
/-- A deletion succeeds only when it takes the file away itself. -/
theorem takes_deleteFile (m : FileMetadata D) : Takes (fun t : Server D => t.disk m.idUlid = none)
    (NetworkConnections.handleClientDeleteFile env m) := by
  refine Takes.done_bind fun _ _ => Takes.atomic_bind fun t => ⟨fun h => h, fun record _ => ?_⟩
  refine Takes.atomic_last fun t => ⟨fun _ => Function.update_self .., fun onDisk hfound => ?_⟩
  have hthere : (t.disk m.idUlid).isSome = onDisk := Except.ok.inj hfound
  cases onDisk with
  | false => cases record <;> exact .inl ⟨_, rfl⟩
  | true =>
    cases record with
    | none => exact .inl ⟨_, rfl⟩
    | some record =>
      refine .inr ⟨fun hnone => ?_, Function.update_self .., _, rfl⟩
      rw [hnone] at hthere
      cases hthere

/-- Since the identifier was first named, one deletion has taken the file away, or none. -/
def DeletedOnce (id : Ulid) (s : Connections ι D env) : Prop :=
  (∃ x ∈ s.received, id ∈ x.2.message.named) →
    ∃ a, TakenOnce (fun a : Store ι D => a.disk id = none) (Deletes id) a s

omit [DecidableEq ι] in
/-- As long as nobody has named the identifier, nobody has deleted what is under it. Who draws it
has done so before the first that names it comes. -/
theorem takenOnce_of_unnamed {i : ι} {q : Request D F} (h : Leaves id s i q)
    (hsound : (deletion ι D env id).Sound (fun _ => True) s)
    (hnamed : ¬∃ x ∈ s.received, id ∈ x.2.message.named) (hnames : id ∈ q.message.named) :
    TakenOnce (fun a : Store ι D => a.disk id = none) (Deletes id) s.shared s := by
  apply TakenOnce.of_none
  · intro j q' r hmem hdeletes
    exact hnamed ⟨_, h.tracked.ended j q' r hmem, hdeletes.named⟩
  · intro j q' p hj hdeletes
    exact hnamed ⟨_, h.tracked.working j q' p hj, hdeletes.named⟩
  · intro j q' p hj
    refine (hsound.within j q' p hj).mono fun a b heffect => (heffect (fun heq => ?_) ?_).noFile
    · exact h.admits.unguessed j q' p hj (heq ▸ hnames)
    · exact h.working _ (h.tracked.working j q' p hj)

theorem DeletedOnce.step (h : DeletedOnce id s) (hstep : Step (handle env) (fun s i q =>
      Leaves id s i q ∧ (deletion ι D env id).Sound (fun _ => True) s) s s') :
    DeletedOnce id s' := by
  intro hnamed'
  obtain ⟨a, htaken⟩ : ∃ a, TakenOnce (fun a : Store ι D => a.disk id = none) (Deletes id) a s := by
    by_cases hnamed : ∃ x ∈ s.received, id ∈ x.2.message.named
    · exact h hnamed
    · cases hstep with
      | receive free admitted =>
        obtain ⟨x, hx, hmem⟩ := hnamed'
        rcases List.mem_append.mp hx with hx | hx
        · exact absurd ⟨x, hx, hmem⟩ hnamed
        · obtain rfl := List.mem_singleton.mp hx
          exact ⟨_, takenOnce_of_unnamed admitted.1 admitted.2 hnamed hmem⟩
      | _ => exact absurd hnamed' hnamed
  have hstep' : Step (handle env) (fun _ _ q => id ≠ q.fresh ∧ id ∉ renamedTo q.message) s s' := by
    cases hstep with
    | receive free admitted =>
      refine .receive free ⟨fun heq => ?_, admitted.1.renamed⟩
      obtain ⟨x, hx, hmem⟩ := hnamed'
      rcases List.mem_append.mp hx with hx | hx
      · exact admitted.1.admits.unnamed x hx (heq ▸ hmem)
      · obtain rfl := List.mem_singleton.mp hx
        exact admitted.1.admits.notOwn (heq ▸ hmem)
    | advance working => exact .advance working
    | fail e working => exact .fail e working
    | finish ended => exact .finish ended
    | drop i => exact .drop s i
  refine ⟨a, htaken.step (fun i q hdeletes => ?_) (fun _ i q hadmits _ => ?_) hstep'⟩
  · obtain ⟨fresh, message⟩ := q
    obtain ⟨m, rfl, rfl⟩ := hdeletes
    exact Takes.onPart_bind (fun _ _ => rfl) (takes_deleteFile m) _
  · exact (keepsGone_handle i q hadmits.1 hadmits.2).mono fun _ _ hkeeps => hkeeps.noFile

theorem deletedOnce_of_serves (h : Serves env (System.start store) s)
    (hrenamed : ∀ x ∈ s.received, id ∉ renamedTo x.2.message) :
    Tracked s ∧ DeletedOnce id s := by
  obtain ⟨⟨htracked, -⟩, hreach⟩ := (reaches_leaves h hrenamed).keeps
    (P := fun s => Tracked s ∧ (deletion ι D env id).Sound (fun _ => True) s)
    ⟨tracked_start store, .start trivial⟩ fun s s' hs hstep =>
      ⟨hs.1.step (fun _ _ _ hleaves => hleaves.admits) hstep,
        (hs.2.step (deletion_kept env id) (fun _ _ _ _ => trivial) (fun _ _ _ _ => trivial)
          hstep).1⟩
  refine ⟨htracked, ?_⟩
  clear h hrenamed htracked
  induction hreach with
  | refl => exact fun ⟨_, hx, _⟩ => by cases hx
  | tail _ hstep ih => exact ih.step (hstep.mono fun _ _ ⟨hleaves, _, hsound⟩ => ⟨hleaves, hsound⟩)

/-- However many deletions of one identifier come and however their steps interleave, at most one
succeeds, as long as nothing is renamed to it. -/
theorem deleted_once (env : Environment F) (store : Store ι D) (s : Connections ι D env) (id : Ulid)
    (h : Serves env (System.start store) s)
    (hrenamed : ∀ x ∈ s.received, id ∉ renamedTo x.2.message) :
    ∀ i q response j q' response', Deletes id i q → Deletes id j q' →
      (i, q, .ok response) ∈ s.finished → (j, q', .ok response') ∈ s.finished →
        (i, q) = (j, q') := by
  intro i q response j q' response' hi hj hfinished hfinished'
  obtain ⟨htracked, honce⟩ := deletedOnce_of_serves h hrenamed
  obtain ⟨a, htaken⟩ := honce ⟨(i, q), htracked.ended i q _ hfinished, hi.named⟩
  exact htaken.one i q j q' hi hj (.inl ⟨response, hfinished⟩) (.inl ⟨response', hfinished'⟩)

end Runs

section Example

def deleting (i : Bool) : Request byteSum (ZMod 257) :=
  ⟨if i then 3 else 2, .files (.deleteFile (firstUpload 2 1 2 2 6))⟩

def deletionOutcome := outcomeOf ((alone (handle fermatEnvironment false (deleting false))).run
  (opened (holding (firstUpload 2 1 2 2 6) [1, 2])))

theorem deletion_answered : ∃ response, deletionOutcome.1 = .ok (.files response) := by
  have hdecided : (replyOf deletionOutcome.1).isSome = true := by decide +kernel
  obtain ⟨response, hresponse⟩ := Option.isSome_iff_exists.mp hdecided
  exact ⟨response, replyOf_eq_some.mp hresponse⟩

def oneDeleted : Connections Bool byteSum fermatEnvironment :=
  ⟨deletionOutcome.2, fun _ => none, [(false, deleting false)],
    [(false, deleting false, deletionOutcome.1)]⟩

theorem reaches_oneDeleted : Serves fermatEnvironment
    (System.start (opened (holding (firstUpload 2 1 2 2 6) [1, 2]))) oneDeleted :=
  reaches_alone rfl (admits_start (by decide) rfl (by decide))

theorem deleted_stays_deleted_one : ∃ (s : Connections Bool byteSum fermatEnvironment)
    (response : ServerMessages byteSum (ZMod 257) Unit), Gone 1 s.shared.toServer ∧
    replay (deleteFile (firstUpload 2 1 2 2 6)) (fun _ => some (firstUpload 2 1 2 2 6))
        [some response] =
      ⟨.ok (), [.deleteFile (firstUpload 2 1 2 2 6)],
        Function.update (fun _ => some (firstUpload 2 1 2 2 6)) 1 none⟩ := by
  obtain ⟨response, hanswer⟩ := deletion_answered
  refine ⟨oneDeleted, response, deleted_stays_deleted fermatEnvironment _ oneDeleted false
    (deleting false) (firstUpload 2 1 2 2 6) response (fun _ => some (firstUpload 2 1 2 2 6)) []
    reaches_oneDeleted rfl ?_ (fun x hx => ?_) (Option.some_ne_none _)⟩
  · exact List.mem_singleton.mpr (congrArg (fun r => (false, deleting false, r)) hanswer.symm)
  · rw [List.mem_singleton.mp hx]
    exact List.not_mem_nil

def oneDeleting : Connections Bool byteSum fermatEnvironment where
  shared := opened (holding (firstUpload 2 1 2 2 6) [1, 2])
  inProgress := Function.update (fun _ => none) false
    (some (deleting false, handle fermatEnvironment false (deleting false)))
  received := [(false, deleting false)]
  finished := []

theorem admits_overlapping : Admits fermatEnvironment oneDeleting true (deleting true) where
  alive _ h := by cases h
  disk := by decide
  database := rfl
  undrawn x hx := by
    rw [List.mem_singleton.mp hx]
    decide
  unnamed x hx := by
    rw [List.mem_singleton.mp hx]
    decide
  notOwn := by decide
  unguessed j q p h := by
    have hfirst : q = deleting false := by
      cases j with
      | false => exact (Prod.mk.inj (Option.some.inj h)).1.symm
      | true => cases h
    rw [hfirst]
    decide

theorem deleted_once_two : ∃ s : Connections Bool byteSum fermatEnvironment,
    s.finished.map (fun x => (x.1, (replyOf x.2.2).isSome)) = [(false, true), (true, false)] ∧
    ∀ i q response j q' response', Deletes 1 i q → Deletes 1 j q' →
      (i, q, .ok response) ∈ s.finished → (j, q', .ok response') ∈ s.finished →
        (i, q) = (j, q') := by
  have hfirst : Serves fermatEnvironment
      (System.start (opened (holding (firstUpload 2 1 2 2 6) [1, 2]))) oneDeleting :=
    .single (.receive rfl (admits_start (by decide) rfl (by decide)))
  have hsecond := hfirst.tail (.receive rfl admits_overlapping)
  have hrecords := (hsecond.tail (.advance (i := false) rfl)).tail (.advance (i := true) rfl)
  have hboth := (hrecords.trans (reaches_finished (i := false) rfl)).trans
    (reaches_finished (i := true) rfl)
  refine ⟨_, ?_, deleted_once fermatEnvironment _ _ 1 hboth fun x hx => ?_⟩
  · decide +kernel
  · rcases List.mem_pair.mp hx with rfl | rfl <;> exact List.not_mem_nil

end Example

end NetworkDeletions
