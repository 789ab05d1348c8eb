import ProofOfStorage.NetworkClient
import ProofOfStorage.NetworkServer

/-! # The answer that ends an update

An append or an edit answers once, after everything else it sends, and the answer names the
client's version as the new one and the server's as the old one.
-/
namespace NetworkUpdates

open FoundationFaults FoundationInteraction CommitmentTypes OnlineColumns FileFields
open NetworkMessages NetworkServer NetworkClient

inductive Change where
  | append (dataToAppend : List UInt8)
  | edit (dataToAppend : List UInt8) (editStartLocation : ℕ)

def Change.content : Change → List UInt8 → List UInt8
  | append dataToAppend, old => old ++ dataToAppend
  | edit dataToAppend start, old =>
    old.take start ++ dataToAppend ++ old.drop (start + dataToAppend.length)

variable {D : Digest} {F Err α β : Type}

def Change.run [Field F] [DataField F] [DecidableEq F] (env : Environment F)
    (fileMetadata : FileMetadata D) : Change → Client D F Err (FileMetadata D)
  | append dataToAppend => appendToFile env fileMetadata dataToAppend
  | edit dataToAppend start => editFile env fileMetadata dataToAppend start

def answered : ClientMessages D F → Option Bool
  | .reshapeResponse _ _ accepted => some accepted
  | .editOrAppendResponse _ _ accepted => some accepted
  | _ => none

section Answers

variable {fileMetadata edited : FileMetadata D}

def IsAnswer (q : ClientMessages D F) : Prop := answered q ≠ none

def AnswersFor (fileMetadata edited : FileMetadata D) (q : ClientMessages D F) : Prop :=
  ∃ accepted, q = .editOrAppendResponse fileMetadata edited accepted

theorem endsIn_refuse (text : String) :
    EndsIn IsAnswer (AnswersFor fileMetadata edited)
      (refuse (.editOrAppendResponse fileMetadata edited false) text : Client D F Err α) :=
  ⟨fun _ => ⟨⟨false, rfl⟩, trivial⟩, trivial⟩

theorem endsIn_accept (action : Stateful (ClientError D F Err) (Records D) Unit) (a : α) :
    EndsIn IsAnswer (AnswersFor fileMetadata edited) (do
      sendMessage (.editOrAppendResponse fileMetadata edited true)
      .perform action (pure ())
      return a : Client D F Err α) :=
  ⟨fun _ => ⟨⟨true, rfl⟩, trivial⟩, trivial⟩

theorem endsIn_checked_bind {x : Fallible (ClientError D F Err) α} {f : α → Client D F Err β}
    {final good : ClientMessages D F → Prop} (hf : ∀ a, EndsIn final good (f a)) :
    EndsIn final good (checked x >>= f) := EndsIn.bind trivial hf

variable [Field F] [DataField F] [DecidableEq F] {env : Environment F}

omit [DecidableEq F] in
theorem endsIn_completedCoefficient_bind {row : List F}
    {f : F × List UInt8 → Client D F Err α}
    (hf : ∀ a, EndsIn IsAnswer (AnswersFor fileMetadata edited) (f a)) :
    EndsIn IsAnswer (AnswersFor fileMetadata edited)
      (completedCoefficient env fileMetadata edited row >>= f) := by
  unfold completedCoefficient
  dsimp only
  split
  · rw [bind_assoc]
    apply endsIn_checked_bind
    intro position
    rw [bind_assoc]
    apply endsIn_checked_bind
    intro changedCoefficient
    split
    · exact ⟨fun _ => ⟨⟨false, rfl⟩, trivial⟩, trivial⟩
    · exact hf _
  · exact hf _

theorem endsIn_judgeAppend (dataToAppend : List UInt8) :
    EndsIn IsAnswer (AnswersFor fileMetadata edited)
      (judgeAppend env fileMetadata dataToAppend edited : Client D F Err _) := by
  unfold judgeAppend
  split
  · exact endsIn_refuse _
  split
  · exact endsIn_refuse _
  apply EndsIn.bind (sends_request (fun h => h rfl) _ _)
  intro evaluations
  dsimp only
  split
  · apply endsIn_completedCoefficient_bind
    intro completed
    split
    · exact endsIn_refuse _
    · exact endsIn_accept _ _
  · exact endsIn_refuse _

theorem endsIn_judgeEdit (dataToAppend : List UInt8) (editStartLocation : ℕ) :
    EndsIn IsAnswer (AnswersFor fileMetadata edited)
      (judgeEdit env fileMetadata dataToAppend editStartLocation edited : Client D F Err _) := by
  unfold judgeEdit
  -- the six conditions on the metadata and the two row numbers
  iterate 8 refine endsIn_checked_bind fun _ => ?_
  apply EndsIn.bind (sends_request (fun h => h rfl) _ _)
  intro evaluations
  iterate 3 refine endsIn_checked_bind fun _ => ?_
  dsimp only
  split
  · refine EndsIn.bind ?_ fun expectedDifference => endsIn_checked_bind fun _ => endsIn_accept _ _
    unfold expectedEditDifference
    iterate 5 refine Sends.bind (sends_checked _) fun _ => ?_
    exact trivial
  · exact endsIn_refuse _

end Answers

def EditInBounds (fileMetadata : FileMetadata D) (dataToAppend : List UInt8)
    (editStartLocation : ℕ) : Prop :=
  dataToAppend.length + editStartLocation ≤ fileMetadata.filesizeInBytes ∧ dataToAppend ≠ []

section Runs

theorem compactCommit_eq_some {transmission : ServerMessages D F Err} {edited : FileMetadata D}
    (h : compactCommit transmission = some edited) : transmission = .compactCommit edited := by
  cases transmission with
  | compactCommit fileMetadata => exact congrArg _ (Option.some.inj h)
  | _ => cases h

variable [Field F] [DataField F] [DecidableEq F] {env : Environment F}
  {fileMetadata : FileMetadata D} {records : Records D} {t : Server D} {q : ClientMessages D F}

theorem editFile_of_inBounds {dataToAppend : List UInt8} {start : ℕ}
    (h : EditInBounds fileMetadata dataToAppend start) :
    (editFile env fileMetadata dataToAppend start : Client D F Err _) =
      request (.editFileBytes fileMetadata start dataToAppend)
        "File append failed on server end: " compactCommit >>=
          judgeEdit env fileMetadata dataToAppend start := by
  unfold editFile
  rw [ensureThat_bind, if_pos h.1, ensureThat_bind,
    if_pos (mt List.eq_nil_of_length_eq_zero h.2)]

theorem editFile_of_not_inBounds (Err : Type) (env : Environment F) {dataToAppend : List UInt8}
    {start : ℕ} (h : ¬EditInBounds fileMetadata dataToAppend start) :
    ∃ text, (editFile env fileMetadata dataToAppend start : Client D F Err _) = bail text := by
  unfold editFile
  rw [ensureThat_bind]
  by_cases hbound : dataToAppend.length + start ≤ fileMetadata.filesizeInBytes
  · rw [if_pos hbound]
    refine ⟨_, ensureThat_bind.trans (if_neg fun hedit => h ⟨hbound, fun hnil => ?_⟩)⟩
    exact hedit (congrArg List.length hnil)
  · rw [if_neg hbound]
    exact ⟨_, rfl⟩

/-- The first reply names the new version, and the server handles the answer last. -/
structure AnswersLast (env : Environment F) (fileMetadata : FileMetadata D)
    (conversation : Conversation (ClientMessages D F) (ServerMessages D F env.fft.Err) (Records D)
      (Server D) (ClientError D F env.fft.Err) (FileMetadata D))
    (q : ClientMessages D F) (edited : FileMetadata D) (t : Server D) : Prop where
  answersFor : AnswersFor fileMetadata edited q
  first : conversation.answers.head? = some (some (.compactCommit edited))
  last : conversation.answers.getLast? = some (serve env q t).1
  peer : conversation.peer = (serve env q t).2

omit [DecidableEq F] in
theorem request_answersLast {message : ClientMessages D F} {failed : String}
    {judge : FileMetadata D → Client D F env.fft.Err (FileMetadata D)}
    (hmessage : ¬IsAnswer message)
    (hjudge : ∀ edited, EndsIn IsAnswer (AnswersFor fileMetadata edited) (judge edited))
    (hq : q ∈ (converse (serve env) (request message failed compactCommit >>= judge)
      records t []).sent) (hanswer : IsAnswer q) :
    ∃ edited t', AnswersLast env fileMetadata (converse (serve env)
      (request message failed compactCommit >>= judge) records t []) q edited t' := by
  have hne : q ≠ message := fun h => hmessage (h ▸ hanswer)
  obtain ⟨transmission, edited, -, hselect, hrun⟩ := converse_request hq hne
  obtain rfl := compactCommit_eq_some hselect
  rw [hrun] at hq ⊢
  replace hq := (List.mem_cons.mp hq).resolve_left hne
  obtain ⟨hgood, before, hlast, hpeer⟩ := (hjudge edited).converse hq hanswer
  refine ⟨edited, _, hgood, rfl, ?_, hpeer⟩
  change (some _ :: (converse (serve env) (judge edited) records _ []).answers).getLast? = _
  rw [List.getLast?_cons, hlast]
  rfl

theorem change_answersLast (change : Change)
    (hq : q ∈ (converse (serve env) (change.run env fileMetadata) records t []).sent)
    (hanswer : IsAnswer q) :
    ∃ edited t', AnswersLast env fileMetadata
      (converse (serve env) (change.run env fileMetadata) records t []) q edited t' := by
  cases change with
  | append dataToAppend =>
    exact request_answersLast (fun h => h rfl) (fun _ => endsIn_judgeAppend _) hq hanswer
  | edit dataToAppend start =>
    change q ∈ (converse (serve env) (editFile env fileMetadata dataToAppend start) records t
      []).sent at hq
    change ∃ edited t', AnswersLast env fileMetadata (converse (serve env)
      (editFile env fileMetadata dataToAppend start) records t []) q edited t'
    by_cases hbounds : EditInBounds fileMetadata dataToAppend start
    · rw [editFile_of_inBounds hbounds] at hq ⊢
      exact request_answersLast (fun h => h rfl) (fun _ => endsIn_judgeEdit _ _) hq hanswer
    · obtain ⟨text, hbail⟩ := editFile_of_not_inBounds env.fft.Err env hbounds
      rw [hbail] at hq
      cases hq

end Runs

end NetworkUpdates
