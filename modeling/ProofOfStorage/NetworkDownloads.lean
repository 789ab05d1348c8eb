import ProofOfStorage.NetworkUploads

/-! # Downloads and proofs of storage

A download asks for the file and then for columns of it, and keeps the file when the columns fit it
and the root in the metadata. A proof is checked against the client's own copy of the file.
-/
namespace NetworkDownloads

open FoundationFaults FoundationInnerProducts FoundationInteraction
open CommitmentTypes CommitmentMerkle OnlineColumns OnlineEvaluation FileFields
open NetworkMessages NetworkClient NetworkUploads

abbrev Files := String → Option (List UInt8)

abbrev Flow (D : Digest) (F Err σ : Type) :=
  Interaction (ClientMessages D F) (ServerMessages D F Err) σ (UploadError Err)

variable {D : Digest} {F Err σ α : Type}

section Steps

def step (x : Fallible (UploadError Err) α) : Flow D F Err σ α := .done x

def replied (failed : String) (select : ServerMessages D F Err → Option α) :
    Option (ServerMessages D F Err) → Flow D F Err σ α
  | none => step (fail (.message "Failed to receive message from server"))
  | some transmission =>
    match select transmission with
    | some content => pure content
    | none =>
      match transmission with
      | .errorResponse error => step (fail (.server failed error))
      | _ => step (fail (.message "Unknown server response"))

def ask (message : ClientMessages D F) (failed : String)
    (select : ServerMessages D F Err → Option α) : Flow D F Err σ α :=
  .send message (.receive (replied failed select))

def fileReply : ServerMessages D F Err → Option (List UInt8)
  | .file file => some file
  | _ => none

def polynomialReply : ServerMessages D F Err → Option (List F)
  | .polynomialEvaluation evaluationResult => some evaluationResult
  | _ => none

def verified (text : String) (x : Fallible (VerifierError Err) α) : Fallible (UploadError Err) α :=
  mapErr (fun _ => .message text) x

/-- A file that exists already is emptied before it is written. -/
def createFile (filename : String) (fileData : List UInt8) :
    Stateful (UploadError Err) Files Unit :=
  modify fun files => Function.update files filename (some fileData)

end Steps

variable [Field F] [DataField F] (env : Environment F)

def derivedLeaves (failed : String) (fileMetadata : FileMetadata D) (fileData : List UInt8)
    (colsToVerify : List ℕ) : Fallible (UploadError env.fft.Err) (List D.Output) := do
  match ← mapErr .conversion (convertFileDataToCommit env.fft D env.sqrtCeil
    (convertByteVecToFieldElementsVec fileData : List F) (.leaves colsToVerify)
    (.specified fileMetadata.numColumns fileMetadata.numEncodedColumns)) with
  | .leaves leaves => return leaves
  | _ => fail (.message failed)

/-- The size in the metadata is not compared with that of the file. -/
def downloadFile (fileMetadata : FileMetadata D) : Flow D F env.fft.Err Files Unit := do
  let fileData ← ask (.requestFile fileMetadata) "Bad server response " fileReply
  let columnIndicesToVerify := columnsFromFixedSeed env fileMetadata
  let receivedColumns ← ask (.requestProof fileMetadata columnIndicesToVerify)
    "Bad response from server " columnsReply
  let leavesToVerify ← step (derivedLeaves env "Unexpected result from file conversion to Leaves"
    fileMetadata fileData columnIndicesToVerify)
  step (verified "failed_to_verify_columns" (clientVerifyCommitment fileMetadata.root leavesToVerify
    columnIndicesToVerify receivedColumns (getPosSoudnessNCols env fileMetadata)))
  .perform (createFile fileMetadata.filename fileData) (pure ())

/-- The file is read when the columns have come. -/
def verifyCompactCommit (files : Files) (fileMetadata : FileMetadata D) :
    Flow D F env.fft.Err σ Unit := do
  let colsToVerify := columnsFromFixedSeed env fileMetadata
  let receivedColumns ← ask (.requestProof fileMetadata colsToVerify)
    "Bad response from server " columnsReply
  let fileData ← step (match files fileMetadata.filename with
    | some fileData => .ok fileData
    | none => fail .io)
  let locallyDerivedLeaves ← step (derivedLeaves env
    "Unexpected failure to extract leaves from local file." fileMetadata fileData colsToVerify)
  step (verified "Failed to verify columns" (clientVerifyCommitment fileMetadata.root
    locallyDerivedLeaves colsToVerify receivedColumns (getPosSoudnessNCols env fileMetadata)))

def requestProof (files : Files) (fileMetadata : FileMetadata D) : Flow D F env.fft.Err σ Unit :=
  verifyCompactCommit env files fileMetadata

/-- The rows are counted by the metadata, the columns are those of the encoded rows. -/
def clientRequestAndVerifyPolynomial [DecidableEq F] (fileMetadata : FileMetadata D) :
    Flow D F env.fft.Err σ Unit := do
  let evaluationResult ← ask (.requestPolynomialEvaluation fileMetadata env.evaluationPoint)
    "Bad response from server " polynomialReply
  let colsToVerify := columnsFromFixedSeed env fileMetadata
  let receivedColumns ← ask (.requestProof fileMetadata colsToVerify)
    "Bad response from server " columnsReply
  step (verified "Failed to verify columns" (clientOnlineVerifyColumnPaths fileMetadata.root
    colsToVerify receivedColumns))
  let _ ← step (verified "failed_to_verify_polynomial_evaluation"
    (verifyFullPolynomialEvaluationWrapperWithSingleEvalPoint env.evaluationPoint evaluationResult
      fileMetadata.numRows fileMetadata.numEncodedColumns colsToVerify receivedColumns))
  return

section Rules

variable {message : ClientMessages D F} {failed : String}
  {select : ServerMessages D F Err → Option α} {β : Type}

omit [Field F] [DataField F] in
theorem step_ok (a : α) : (step (.ok a) : Flow D F Err σ α) = pure a := rfl

omit [Field F] [DataField F] in
theorem verified_of_ok {x : Fallible (VerifierError Err) α} {a : α} (h : x = .ok a)
    (text : String) : verified text x = .ok a := mapErr_eq_ok.mpr h

omit [Field F] [DataField F] in
theorem replay_ask (f : α → Flow D F Err σ β) (s : σ)
    (replies : List (Option (ServerMessages D F Err))) :
    (∃ e, replay (ask message failed select >>= f) s replies = ⟨.error e, [message], s⟩) ∨
    ∃ transmission content, replies.head? = some (some transmission) ∧
      select transmission = some content ∧ replay (ask message failed select >>= f) s replies =
        { replay (f content) s replies.tail with
          sent := message :: (replay (f content) s replies.tail).sent } := by
  have hrun : replay (ask message failed select >>= f) s replies =
      { replay (replied failed select (replies.headD none) >>= f) s replies.tail with
        sent := message ::
          (replay (replied failed select (replies.headD none) >>= f) s replies.tail).sent } := rfl
  rw [hrun]
  cases hreply : replies.headD none with
  | none => exact .inl ⟨_, rfl⟩
  | some transmission =>
    have hhead : replies.head? = some (some transmission) := by
      cases replies with
      | nil => cases hreply
      | cons first replies => exact congrArg some hreply
    unfold replied
    dsimp only
    cases hselect : select transmission with
    | some content => exact .inr ⟨transmission, content, hhead, hselect, rfl⟩
    | none => cases transmission <;> exact .inl ⟨_, rfl⟩

omit [Field F] [DataField F] in
theorem replay_ask_of_reply {transmission : ServerMessages D F Err} {content : α}
    (h : select transmission = some content) (f : α → Flow D F Err σ β) (s : σ)
    (replies : List (Option (ServerMessages D F Err))) :
    replay (ask message failed select >>= f) s (some transmission :: replies) =
      { replay (f content) s replies with
        sent := message :: (replay (f content) s replies).sent } := by
  have hrun : replay (ask message failed select >>= f) s (some transmission :: replies) =
      { replay (replied failed select (some transmission) >>= f) s replies with
        sent := message ::
          (replay (replied failed select (some transmission) >>= f) s replies).sent } := rfl
  rw [hrun]
  unfold replied
  simp only [h]
  rfl

omit [Field F] [DataField F] in
theorem replay_step (x : Fallible (UploadError Err) α) (f : α → Flow D F Err σ β) (s : σ)
    (replies : List (Option (ServerMessages D F Err))) :
    (∃ e, replay (step x >>= f) s replies = ⟨.error e, [], s⟩) ∨
    ∃ a, x = .ok a ∧ replay (step x >>= f) s replies = replay (f a) s replies := by
  cases x with
  | ok a => exact .inr ⟨a, rfl, rfl⟩
  | error e => exact .inl ⟨e, rfl⟩

omit [Field F] [DataField F] in
theorem fileReply_eq_some {transmission : ServerMessages D F Err} {file : List UInt8}
    (h : fileReply transmission = some file) : transmission = .file file := by
  cases transmission <;> cases h
  rfl

omit [Field F] [DataField F] in
theorem columnsReply_eq_some {transmission : ServerMessages D F Err}
    {received : List (LcColumn D F)} (h : columnsReply transmission = some received) :
    transmission = .columns received := by
  cases transmission <;> cases h
  rfl

omit [Field F] [DataField F] in
theorem polynomialReply_eq_some {transmission : ServerMessages D F Err}
    {evaluationResult : List F} (h : polynomialReply transmission = some evaluationResult) :
    transmission = .polynomialEvaluation evaluationResult := by
  cases transmission <;> cases h
  rfl

theorem derivedLeaves_eq_ok {env : Environment F} {failed : String} {fileMetadata : FileMetadata D}
    {fileData : List UInt8} {colsToVerify : List ℕ} {leaves : List D.Output} :
    derivedLeaves env failed fileMetadata fileData colsToVerify = .ok leaves ↔
      convertFileDataToCommit env.fft D env.sqrtCeil
        (convertByteVecToFieldElementsVec fileData : List F) (.leaves colsToVerify)
        (.specified fileMetadata.numColumns fileMetadata.numEncodedColumns) =
          .ok (.leaves leaves) := by
  unfold derivedLeaves
  constructor
  · intro h
    obtain ⟨out, hout, h⟩ := bind_eq_ok.mp h
    cases out with
    | leaves leaves' =>
      obtain rfl := Except.ok.inj h
      exact mapErr_eq_ok.mp hout
    | _ => cases h
  · intro h
    exact bind_eq_ok.mpr ⟨_, mapErr_eq_ok.mpr h, rfl⟩

end Rules

section Downloads

variable {env : Environment F} {m : FileMetadata D} {files : Files}
  {replies : List (Option (ServerMessages D F env.fft.Err))}

def Accepted (env : Environment F) (m : FileMetadata D) (file : List UInt8)
    (received : List (LcColumn D F)) : Prop :=
  ∃ leaves, convertFileDataToCommit env.fft D env.sqrtCeil
      (convertByteVecToFieldElementsVec file : List F) (.leaves (columnsFromFixedSeed env m))
      (.specified m.numColumns m.numEncodedColumns) = .ok (.leaves leaves) ∧
    (clientVerifyCommitment m.root leaves (columnsFromFixedSeed env m) received
      (getPosSoudnessNCols env m) : Fallible (VerifierError env.fft.Err) Unit) = .ok ()

/-- A download fails and writes nothing, or it writes a file for which the columns are accepted. -/
theorem replay_downloadFile (env : Environment F) (m : FileMetadata D) (files : Files)
    (replies : List (Option (ServerMessages D F env.fft.Err))) :
    ((∃ e, (replay (downloadFile env m) files replies).result = .error e) ∧
      (replay (downloadFile env m) files replies).state = files) ∨
    ∃ file received rest, replies = some (.file file) :: some (.columns received) :: rest ∧
      Accepted env m file received ∧ replay (downloadFile env m) files replies =
        ⟨.ok (), [.requestFile m, .requestProof m (columnsFromFixedSeed env m)],
          Function.update files m.filename (some file)⟩ := by
  unfold downloadFile
  rcases replay_ask _ files replies with ⟨e, h⟩ | ⟨transmission, file, hhead, hselect, h⟩
  · rw [h]
    exact .inl ⟨⟨e, rfl⟩, rfl⟩
  obtain rfl := fileReply_eq_some hselect
  rw [h]
  rcases replay_ask _ files replies.tail with ⟨e, h⟩ | ⟨transmission, received, hhead', hselect, h⟩
  · rw [h]
    exact .inl ⟨⟨e, rfl⟩, rfl⟩
  obtain rfl := columnsReply_eq_some hselect
  rw [h]
  rcases replay_step _ _ files replies.tail.tail with ⟨e, h⟩ | ⟨leaves, hleaves, h⟩
  · rw [h]
    exact .inl ⟨⟨e, rfl⟩, rfl⟩
  rw [h]
  rcases replay_step _ _ files replies.tail.tail with ⟨e, h⟩ | ⟨_, hverified, h⟩
  · rw [h]
    exact .inl ⟨⟨e, rfl⟩, rfl⟩
  rw [h]
  refine .inr ⟨file, received, replies.tail.tail, ?_, ⟨leaves, derivedLeaves_eq_ok.mp hleaves,
    mapErr_eq_ok.mp hverified⟩, rfl⟩
  cases replies with
  | nil => cases hhead
  | cons first replies =>
    cases replies with
    | nil => cases hhead'
    | cons second replies =>
      obtain rfl := Option.some.inj hhead
      obtain rfl := Option.some.inj hhead'
      rfl

theorem replay_downloadFile_of_accepted {file : List UInt8} {received : List (LcColumn D F)}
    (h : Accepted env m file received) (files : Files)
    (rest : List (Option (ServerMessages D F env.fft.Err))) :
    replay (downloadFile env m) files (some (.file file) :: some (.columns received) :: rest) =
      ⟨.ok (), [.requestFile m, .requestProof m (columnsFromFixedSeed env m)],
        Function.update files m.filename (some file)⟩ := by
  obtain ⟨leaves, hleaves, hverified⟩ := h
  have hfile : fileReply (.file file : ServerMessages D F env.fft.Err) = some file := rfl
  have hcolumns : columnsReply (.columns received : ServerMessages D F env.fft.Err) =
    some received := rfl
  unfold downloadFile
  simp only [replay_ask_of_reply hfile, replay_ask_of_reply hcolumns,
    derivedLeaves_eq_ok.mpr hleaves, step_ok, pure_bind, verified_of_ok hverified]
  rfl

theorem requestProof_result {s : σ} (h : (replay (requestProof env files m :
      Flow D F env.fft.Err σ Unit) s replies).result = .ok ()) :
    ∃ file received, files m.filename = some file ∧
      replies.head? = some (some (.columns received)) ∧ Accepted env m file received := by
  unfold requestProof verifyCompactCommit at h
  rcases replay_ask _ s replies with ⟨e, hrun⟩ | ⟨transmission, received, hhead, hselect, hrun⟩
  · rw [hrun] at h
    cases h
  obtain rfl := columnsReply_eq_some hselect
  rw [hrun] at h
  rcases replay_step _ _ s replies.tail with ⟨e, hrun⟩ | ⟨file, hfile, hrun⟩
  · rw [hrun] at h
    cases h
  rw [hrun] at h
  rcases replay_step _ _ s replies.tail with ⟨e, hrun⟩ | ⟨leaves, hleaves, hrun⟩
  · rw [hrun] at h
    cases h
  rw [hrun] at h
  refine ⟨file, received, ?_, hhead, leaves, derivedLeaves_eq_ok.mp hleaves, mapErr_eq_ok.mp h⟩
  cases hread : files m.filename with
  | none =>
    rw [hread] at hfile
    cases hfile
  | some file' =>
    rw [hread] at hfile
    exact congrArg some (Except.ok.inj hfile)

/-- The columns have paths to the root, and their products with the powers across the rows are what
the result holds at the indices that are visited. -/
def Evaluates [DecidableEq F] (env : Environment F) (m : FileMetadata D)
    (evaluationResult : List F) (received : List (LcColumn D F)) : Prop :=
  received.length = (columnsFromFixedSeed env m).length ∧
  (∀ p ∈ (columnsFromFixedSeed env m).zip received,
    verifyColumnPath p.2 p.1 m.root.root = true) ∧
  ∀ p ∈ received.zip (visited (columnsFromFixedSeed env m) evaluationResult.length),
    dot ((List.range m.numRows).map ((env.evaluationPoint ^ m.numEncodedColumns) ^ ·)) p.1.col =
      evaluationResult.getD p.2 0

theorem polynomial_result [DecidableEq F] {s : σ} (h : (replay (clientRequestAndVerifyPolynomial
      env m : Flow D F env.fft.Err σ Unit) s replies).result = .ok ()) :
    ∃ evaluationResult received,
      replies.head? = some (some (.polynomialEvaluation evaluationResult)) ∧
      replies.tail.head? = some (some (.columns received)) ∧
      Evaluates env m evaluationResult received := by
  unfold clientRequestAndVerifyPolynomial at h
  rcases replay_ask _ s replies with ⟨e, hrun⟩ | ⟨transmission, result, hhead, hselect, hrun⟩
  · rw [hrun] at h
    cases h
  obtain rfl := polynomialReply_eq_some hselect
  rw [hrun] at h
  rcases replay_ask _ s replies.tail with ⟨e, hrun⟩ | ⟨transmission, received, hhead', hselect,
    hrun⟩
  · rw [hrun] at h
    cases h
  obtain rfl := columnsReply_eq_some hselect
  rw [hrun] at h
  rcases replay_step _ _ s replies.tail.tail with ⟨e, hrun⟩ | ⟨u, hpaths, hrun⟩
  · rw [hrun] at h
    cases h
  rw [hrun] at h
  rcases replay_step _ _ s replies.tail.tail with ⟨e, hrun⟩ | ⟨v, hvalues, -⟩
  · rw [hrun] at h
    cases h
  obtain ⟨hlen, hroot⟩ := clientOnlineVerifyColumnPaths_eq_ok.mp (mapErr_eq_ok.mp hpaths)
  exact ⟨result, received, hhead, hhead', hlen, hroot,
    (verifyFull_eq_ok.mp (mapErr_eq_ok.mp hvalues)).1⟩

theorem replay_polynomial_of_evaluates [DecidableEq F] {evaluationResult : List F}
    {received : List (LcColumn D F)} (h : Evaluates env m evaluationResult received) (s : σ)
    (rest : List (Option (ServerMessages D F env.fft.Err))) :
    replay (clientRequestAndVerifyPolynomial env m) s
        (some (.polynomialEvaluation evaluationResult) :: some (.columns received) :: rest) =
      ⟨.ok (), [.requestPolynomialEvaluation m env.evaluationPoint,
        .requestProof m (columnsFromFixedSeed env m)], s⟩ := by
  obtain ⟨hlen, hroot, hvalues⟩ := h
  have hresult : polynomialReply (.polynomialEvaluation evaluationResult :
    ServerMessages D F env.fft.Err) = some evaluationResult := rfl
  have hcolumns : columnsReply (.columns received : ServerMessages D F env.fft.Err) =
    some received := rfl
  have hpaths : (clientOnlineVerifyColumnPaths m.root (columnsFromFixedSeed env m) received :
      Fallible (VerifierError env.fft.Err) Unit) = .ok () :=
    clientOnlineVerifyColumnPaths_eq_ok.mpr ⟨hlen, hroot⟩
  unfold clientRequestAndVerifyPolynomial
  simp only [replay_ask_of_reply hresult, replay_ask_of_reply hcolumns, step_ok, pure_bind,
    verified_of_ok hpaths, verified_of_ok (verifyFull_eq_ok.mpr ⟨hvalues, rfl⟩)]
  rfl

theorem replay_requestProof_of_accepted {file : List UInt8} {received : List (LcColumn D F)}
    (hfile : files m.filename = some file) (h : Accepted env m file received) (s : σ)
    (rest : List (Option (ServerMessages D F env.fft.Err))) :
    replay (requestProof env files m) s (some (.columns received) :: rest) =
      ⟨.ok (), [.requestProof m (columnsFromFixedSeed env m)], s⟩ := by
  obtain ⟨leaves, hleaves, hverified⟩ := h
  have hcolumns : columnsReply (.columns received : ServerMessages D F env.fft.Err) =
    some received := rfl
  unfold requestProof verifyCompactCommit
  simp only [replay_ask_of_reply hcolumns, hfile, derivedLeaves_eq_ok.mpr hleaves, step_ok,
    pure_bind, verified_of_ok hverified]
  rfl

end Downloads

end NetworkDownloads
