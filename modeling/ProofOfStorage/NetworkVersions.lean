import ProofOfStorage.NetworkUpdates

/-! # What an answer does to the two versions of a file

While an append or an edit runs, the server holds the old version and the new one. Its handler
drops the version that a rejection calls new, and the record that an acceptance calls old. Both
changes call their own version new and the server's version old.
-/
namespace NetworkVersions

open FoundationInteraction CommitmentTypes OnlineColumns FileFields
open NetworkMessages NetworkServer NetworkClient NetworkUpdates

variable {D : Digest} {F : Type} [Field F] [DataField F] [DecidableEq F]

/-- The server holds a version: its content and its record, under one identifier. -/
structure Stored (t : Server D) (fileMetadata : FileMetadata D) (content : List UInt8) : Prop where
  disk : t.disk fileMetadata.idUlid = some content
  database : t.database fileMetadata.idUlid = some fileMetadata

abbrev conversation (env : Environment F) (fileMetadata : FileMetadata D) (change : Change)
    (records : Records D) (t : Server D) :
    Conversation (ClientMessages D F) (ServerMessages D F env.fft.Err) (Records D) (Server D)
      (ClientError D F env.fft.Err) (FileMetadata D) :=
  converse (serve env) (change.run env fileMetadata) records t []

def Answered (env : Environment F) (fileMetadata : FileMetadata D) (change : Change)
    (records : Records D) (t : Server D) (accepted : Bool) : Prop :=
  ∃ q ∈ (conversation env fileMetadata change records t).sent, answered q = some accepted

/-- The answer was handled without an error, and the server holds `content` as the version that
its first reply named, which is the one that the client goes on with. -/
def Committed (env : Environment F) (fileMetadata : FileMetadata D) (change : Change)
    (records : Records D) (t : Server D) (content : List UInt8) : Prop :=
  ∃ edited reply,
    (conversation env fileMetadata change records t).answers.head? =
      some (some (.compactCommit edited)) ∧
    (conversation env fileMetadata change records t).answers.getLast? =
      some (some (.compactCommit reply)) ∧
    Stored (conversation env fileMetadata change records t).peer edited content

/-- A rejected change keeps the version that the client has. -/
def RejectionKeeps (env : Environment F) (fileMetadata : FileMetadata D) (change : Change)
    (records : Records D) (t : Server D) (content : List UInt8) : Prop :=
  Stored t fileMetadata content → Answered env fileMetadata change records t false →
    Stored (conversation env fileMetadata change records t).peer fileMetadata content

/-- An accepted change puts the changed content in place of the old one. -/
def AcceptanceCommits (env : Environment F) (fileMetadata : FileMetadata D) (change : Change)
    (records : Records D) (t : Server D) (content : List UInt8) : Prop :=
  Stored t fileMetadata content → Answered env fileMetadata change records t true →
    Committed env fileMetadata change records t (change.content content)

instance decidableAnswered (env : Environment F) (fileMetadata : FileMetadata D)
    (change : Change) (records : Records D) (t : Server D) (accepted : Bool) :
    Decidable (Answered env fileMetadata change records t accepted) :=
  inferInstanceAs (Decidable (∃ q ∈ (conversation env fileMetadata change records t).sent,
    answered q = some accepted))

section Runs

variable {env : Environment F} {fileMetadata : FileMetadata D} {change : Change}
  {records : Records D} {t : Server D}

theorem Answered.handled {accepted : Bool}
    (h : Answered env fileMetadata change records t accepted) :
    ∃ edited t', AnswersLast env fileMetadata (conversation env fileMetadata change records t)
      (.editOrAppendResponse fileMetadata edited accepted) edited t' := by
  obtain ⟨q, hq, hanswered⟩ := h
  obtain ⟨edited, t', hlast⟩ := change_answersLast change hq fun h => by
    rw [h] at hanswered
    cases hanswered
  obtain ⟨accepted', rfl⟩ := hlast.answersFor
  obtain rfl : accepted' = accepted := Option.some.inj hanswered
  exact ⟨edited, t', hlast⟩

/-- The version that a rejection removes from the disk is the client's own. -/
theorem rejection_removes_client_version
    (h : Answered env fileMetadata change records t false) :
    (conversation env fileMetadata change records t).peer.disk fileMetadata.idUlid = none := by
  obtain ⟨edited, t', hlast⟩ := h.handled
  rw [hlast.peer]
  exact serve_rejection env fileMetadata edited t'

/-- When the server has handled an acceptance without an error, the record of the new version
is gone. -/
theorem acceptance_deletes_new_record {edited reply : FileMetadata D}
    (h : Answered env fileMetadata change records t true)
    (hfirst : (conversation env fileMetadata change records t).answers.head? =
      some (some (.compactCommit edited)))
    (hreply : (conversation env fileMetadata change records t).answers.getLast? =
      some (some (.compactCommit reply))) :
    (conversation env fileMetadata change records t).peer.database edited.idUlid = none := by
  obtain ⟨edited', t', hlast⟩ := h.handled
  obtain rfl : edited' = edited := by
    have hsame := hlast.first.symm.trans hfirst
    injections
  rw [hlast.peer]
  exact serve_acceptance (Option.some.inj (hlast.last.symm.trans hreply))

end Runs

/-- No run in which the client rejects leaves its own version on the server. -/
theorem rejection_loses_version (env : Environment F) (fileMetadata : FileMetadata D)
    (change : Change) (records : Records D) (t : Server D) (content : List UInt8)
    (hrejected : Answered env fileMetadata change records t false) :
    ¬Stored (conversation env fileMetadata change records t).peer fileMetadata content := by
  intro hstored
  have hdisk := rejection_removes_client_version hrejected
  rw [hstored.disk] at hdisk
  cases hdisk

def firstUpload (numRows numColumns numEncodedColumns filesizeInBytes : ℕ) (root : UInt8) :
    FileMetadata byteSum :=
  ⟨1, "file", numRows, numColumns, numEncodedColumns, filesizeInBytes, ⟨none, "", 0⟩, ⟨#v[root]⟩⟩

def holding (fileMetadata : FileMetadata byteSum) (content : List UInt8) : Server byteSum where
  disk := Function.update (fun _ => none) fileMetadata.idUlid (some content)
  database := Function.update (fun _ => none) fileMetadata.idUlid (some fileMetadata)
  ulidsMade := 1

theorem stored_holding (fileMetadata : FileMetadata byteSum) (content : List UInt8) :
    Stored (holding fileMetadata content) fileMetadata content := by
  constructor <;> simp [holding]

theorem rejection_loses_two_bytes :
    ¬Stored (conversation fermatEnvironment (firstUpload 1 2 4 2 7) (.append [5]) (fun _ => none)
      (holding (firstUpload 1 2 4 2 7) [1, 2])).peer (firstUpload 1 2 4 2 7) [1, 2] :=
  rejection_loses_version fermatEnvironment (firstUpload 1 2 4 2 7) (.append [5]) (fun _ => none)
    (holding (firstUpload 1 2 4 2 7) [1, 2]) [1, 2] (by decide +kernel)

theorem rejected_append_not_kept :
    ¬RejectionKeeps fermatEnvironment (firstUpload 1 2 4 2 7) (.append [5]) (fun _ => none)
      (holding (firstUpload 1 2 4 2 7) [1, 2]) [1, 2] := by
  intro hkeeps
  have hrejected : Answered fermatEnvironment (firstUpload 1 2 4 2 7) (.append [5])
      (fun _ => none) (holding (firstUpload 1 2 4 2 7) [1, 2]) false := by decide +kernel
  have hdisk := (hkeeps (stored_holding _ _) hrejected).disk
  rw [rejection_removes_client_version hrejected] at hdisk
  cases hdisk

/-- No run in which the client accepts leaves the new version on the server without an error. -/
theorem acceptance_never_commits (env : Environment F) (fileMetadata : FileMetadata D)
    (change : Change) (records : Records D) (t : Server D) (content : List UInt8)
    (haccepted : Answered env fileMetadata change records t true) :
    ¬Committed env fileMetadata change records t (change.content content) := by
  rintro ⟨edited, reply, hfirst, hreply, hstored⟩
  have hrecord := acceptance_deletes_new_record haccepted hfirst hreply
  rw [hstored.database] at hrecord
  cases hrecord

theorem acceptance_never_commits_three_bytes :
    ¬Committed fermatEnvironment (firstUpload 2 1 2 2 6) (.append [5]) (fun _ => none)
      (holding (firstUpload 2 1 2 2 6) [1, 2]) [1, 2, 5] :=
  acceptance_never_commits fermatEnvironment (firstUpload 2 1 2 2 6) (.append [5]) (fun _ => none)
    (holding (firstUpload 2 1 2 2 6) [1, 2]) [1, 2] (by decide +kernel)

theorem accepted_append_not_committed :
    ¬AcceptanceCommits fermatEnvironment (firstUpload 2 1 2 2 6) (.append [5]) (fun _ => none)
      (holding (firstUpload 2 1 2 2 6) [1, 2]) [1, 2] := by
  intro hcommits
  have haccepted : Answered fermatEnvironment (firstUpload 2 1 2 2 6) (.append [5])
      (fun _ => none) (holding (firstUpload 2 1 2 2 6) [1, 2]) true := by decide +kernel
  obtain ⟨edited, reply, hfirst, hreply, hstored⟩ := hcommits (stored_holding _ _) haccepted
  have hrecord := acceptance_deletes_new_record haccepted hfirst hreply
  rw [hstored.database] at hrecord
  cases hrecord

end NetworkVersions
