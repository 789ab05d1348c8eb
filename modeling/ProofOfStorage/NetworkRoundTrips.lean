import ProofOfStorage.NetworkBookkeeping
import ProofOfStorage.NetworkIntegrity
import ProofOfStorage.NetworkMetadata
import ProofOfStorage.OnlineChecks

/-! # What is made can be proved and downloaded

Whatever else the server does in between, a client has its columns accepted when it uploads a file,
and has proofs accepted and gets back what was made for as long as nobody moves it.
-/
namespace NetworkRoundTrips

open FoundationFaults FoundationInnerProducts FoundationInteraction FoundationProcesses
open FoundationInterleaving CommitmentTypes CommitmentProof CommitmentCompleteness
open OnlineColumns OnlineEvaluation OnlineChecks FileFields
open NetworkMessages NetworkServer NetworkVersions NetworkClient NetworkUploads NetworkMetadata
open NetworkConnections NetworkAtomicity NetworkInterleavings NetworkBookkeeping NetworkDownloads
open NetworkIntegrity

variable {ι : Type} {D : Digest} {F σ : Type} [Field F] [DataField F]

section Answers

variable {env : Environment F} {t : Server D} {m : FileMetadata D} {file : List UInt8}

theorem Describes.address (h : Describes env t m file) (address : ServerHost) :
    Describes env t { m with storedServer := address } file := ⟨h.disk, h.size, h.root⟩

theorem run_requestFile (h : Describes env t m file) :
    (handleClientMessage env (.requestFile m)).run t = .ok (.file file) t :=
  run_lift_bind_ok.mpr ⟨(), rfl, run_read_bind_ok.mpr ⟨file, h.disk, rfl⟩⟩

theorem honest_columns (hdraws : Draws env) (hword : m.numEncodedColumns < 2 ^ 64)
    (h : Describes env t m file) : ∃ (encoding : LcEncoding F env.fft.Err) (commit : LcCommit D F)
      (hc : Committed encoding commit), commitOf env D (convertByteVecToFieldElementsVec file)
        m.numColumns m.numEncodedColumns = .ok commit ∧
      m.root = ⟨hc.merkleized.tree.levelOrder.root⟩ ∧
      Accepted env m file ((columnsFromFixedSeed env m).map (honestColumn hc)) ∧
      ∀ t' : Server D, t'.disk m.idUlid = some file →
        (handleClientMessage env (.requestProof m (columnsFromFixedSeed env m))).run t' =
          .ok (.columns ((columnsFromFixedSeed env m).map (honestColumn hc))) t' := by
  obtain ⟨commit, hcommit, hroot⟩ := h.root
  obtain ⟨helements, hpre, encoding, hencoding, -⟩ := commitOf_eq_ok.mp hcommit
  obtain ⟨hlt, hpow, -⟩ := newFromDims_eq_ok hencoding
  have hdims : matrixDimensions env.fft (fun n => n)
      (convertByteVecToFieldElementsVec file : List F).length
      (.specified m.numColumns m.numEncodedColumns) = .ok (m.numColumns, m.numEncodedColumns) :=
    matrixDimensions_specified_eq_ok.mpr ⟨hpre, by omega, hpow, hlt, rfl⟩
  obtain ⟨comm, hc, hcols, hconvert, houtputs⟩ :=
    convert_outputs (D := D) (fun _ hpos => hpos) helements hdims hword hencoding
  obtain rfl : commit = comm := by
    have hcomm : commitOf env D (convertByteVecToFieldElementsVec file) m.numColumns
        m.numEncodedColumns = .ok comm :=
      bind_eq_ok.mpr ⟨.commit comm, mapErr_eq_ok.mpr hconvert, rfl⟩
    exact Except.ok.inj (hcommit.symm.trans hcomm)
  have hinside : ∀ c ∈ columnsFromFixedSeed env m, c < m.numEncodedColumns := hdraws.lt _ _
  have hrequired : (columnsFromFixedSeed env m).length ≤ getPosSoudnessNCols env m :=
    (hdraws.length_eq _ _).trans_le (min_le_left _ _)
  obtain ⟨hleaves, hcolumns, -⟩ := houtputs _ hinside
  have hrootEq : m.root = ⟨hc.merkleized.tree.levelOrder.root⟩ :=
    Except.ok.inj (hroot.symm.trans (getRoot_eq hc))
  refine ⟨encoding, commit, hc, hcommit, hrootEq, ⟨_, hleaves, ?_⟩, fun t' hdisk => ?_⟩
  · rw [hrootEq]
    exact honestColumns_accepted hc (hcols ▸ hinside) hrequired
  · refine run_lift_bind_ok.mpr ⟨(), rfl, run_read_bind_ok.mpr ⟨file, hdisk, ?_⟩⟩
    exact run_lift_bind_ok.mpr ⟨_, mapErr_eq_ok.mpr hcolumns, rfl⟩

theorem run_requestProof (hdraws : Draws env) (hword : m.numEncodedColumns < 2 ^ 64)
    (h : Describes env t m file) : ∃ received, Accepted env m file received ∧
      (handleClientMessage env (.requestProof m (columnsFromFixedSeed env m))).run t =
        .ok (.columns received) t := by
  obtain ⟨encoding, commit, hc, -, -, haccepted, hrun⟩ := honest_columns hdraws hword h
  exact ⟨_, haccepted, hrun t h.disk⟩

theorem honest_evaluation [DecidableEq F] (hdraws : Draws env)
    (hword : m.numEncodedColumns < 2 ^ 64) (hsorted : (columnsFromFixedSeed env m).SortedLT)
    (hrows : RowsRight F m) (h : Describes env t m file) :
    ∃ result received, Evaluates env m result received ∧
      ∀ t' : Server D, t'.disk m.idUlid = some file →
        (handleClientMessage env (.requestPolynomialEvaluation m env.evaluationPoint)).run t' =
          .ok (.polynomialEvaluation result) t' ∧
        (handleClientMessage env (.requestProof m (columnsFromFixedSeed env m))).run t' =
          .ok (.columns received) t' := by
  obtain ⟨encoding, commit, hc, hcommit, hroot, -, hproof⟩ := honest_columns hdraws hword h
  obtain ⟨hpre, hn, -, hcols⟩ := shape_of_commitOf hcommit
  have hinside : ∀ c ∈ columnsFromFixedSeed env m, c < commit.nCols :=
    fun c hdrawn => (hdraws.lt _ _ c hdrawn).trans_eq hcols.symm
  have hcount : m.numRows = commit.nRows := by
    rw [hn, convertByteVecToFieldElementsVec, length_fromByteVec, ← h.size]
    exact hrows
  obtain ⟨hcomm, -, -, -⟩ := checkComm_eq_ok.mp hc.check
  have hpos : 0 < commit.nCols := by
    obtain ⟨-, -, encoding, hencoding, -⟩ := commitOf_eq_ok.mp hcommit
    have hlt := (newFromDims_eq_ok hencoding).1
    omega
  have hpowers : evaluationPowers env m =
      (List.range commit.nRows).map ((env.evaluationPoint ^ commit.nCols) ^ ·) := by
    rw [evaluationPowers, hcount, hcols]
  refine ⟨combine commit.nCols commit.nRows commit.comm (evaluationPowers env m), _,
    ⟨List.length_map _, ?_, ?_⟩, fun t' hdisk => ⟨?_, hproof t' hdisk⟩⟩
  · rw [hroot]
    exact verifyPaths_honest hc hinside
  · rw [length_combine, (visited_eq_iff hinside).mpr hsorted]
    intro p hp
    obtain ⟨k, hk⟩ := List.mem_iff_getElem?.mp hp
    obtain ⟨hcolumn, hdrawn⟩ := List.getElem?_zip_eq_some.mp hk
    rw [List.getElem?_map, hdrawn] at hcolumn
    rw [← Option.some.inj hcolumn, getD_combine (hinside _ (List.mem_of_getElem? hdrawn))]
    rfl
  · refine run_lift_bind_ok.mpr ⟨(), rfl, run_read_bind_ok.mpr ⟨file, hdisk, ?_⟩⟩
    refine run_lift_bind_ok.mpr ⟨commit, hcommit, ?_⟩
    rw [formSideVectors_eq]
    exact run_lift_bind_ok.mpr ⟨_, hpowers ▸ verifiablePolynomialEvaluation_eq hpos hcomm _, rfl⟩

end Answers

section Uploads

variable {env : Environment F} {m : FileMetadata D} {file : List UInt8}
  {received : List (LcColumn D F)}

omit [Field F] [DataField F] in
theorem uploadRequest_eq_ask {Err α : Type} (message : ClientMessages D F) (failed : String)
    (select : ServerMessages D F Err → Option α) :
    uploadRequest message failed select = ask message failed select := rfl

omit [Field F] [DataField F] in
theorem uploadChecked_ok {Err α : Type} (a : α) :
    (uploadChecked (.ok a) : Upload D F Err α) = pure a := rfl

theorem required_of_uploadDimensions {fileLen numColumns numEncodedColumns required : ℕ}
    {pre enc : Option ℕ} (h : uploadDimensions env fileLen pre enc =
      .ok (numColumns, numEncodedColumns, required)) :
    required = env.posSoundnessNCols numColumns numEncodedColumns := by
  cases pre with
  | none =>
    cases enc with
    | none =>
      obtain ⟨_, -, h⟩ := bind_eq_ok.mp h
      obtain ⟨rfl, heq⟩ := Prod.mk.inj (Except.ok.inj h)
      obtain ⟨rfl, rfl⟩ := Prod.mk.inj heq
      rfl
    | some encCols =>
      obtain ⟨_, -, h⟩ := bind_eq_ok.mp h
      obtain ⟨_, -, h⟩ := bind_eq_ok.mp h
      obtain ⟨rfl, heq⟩ := Prod.mk.inj (Except.ok.inj h)
      obtain ⟨rfl, rfl⟩ := Prod.mk.inj heq
      rfl
  | some cols =>
    cases enc with
    | none =>
      obtain ⟨_, -, h⟩ := bind_eq_ok.mp h
      obtain ⟨rfl, heq⟩ := Prod.mk.inj (Except.ok.inj h)
      obtain ⟨rfl, rfl⟩ := Prod.mk.inj heq
      rfl
    | some encCols =>
      obtain ⟨_, -, h⟩ := bind_eq_ok.mp h
      obtain ⟨_, -, h⟩ := bind_eq_ok.mp h
      obtain ⟨_, -, h⟩ := bind_eq_ok.mp h
      obtain ⟨rfl, heq⟩ := Prod.mk.inj (Except.ok.inj h)
      obtain ⟨rfl, rfl⟩ := Prod.mk.inj heq
      rfl

def keptMetadata (m : FileMetadata D) (serverIp : String) : FileMetadata D := { m with
  storedServer := { m.storedServer with serverPort := serverPortOf serverIp } }

omit [Field F] [DataField F] in
theorem run_createRecord {Err : Type} {records : Records D} (hnew : records m.idUlid = none) :
    (createRecord m : Stateful (UploadError Err) (Records D) Unit).run records =
      .ok () (Function.update records m.idUlid (some m)) := by
  change (lift (ensure ((records m.idUlid).isNone = true) .database) >>= fun _ =>
    (modify fun records => Function.update records m.idUlid (some m) :
      Stateful (UploadError Err) (Records D) Unit)).run records = _
  rw [hnew]
  rfl

omit [Field F] [DataField F] in
theorem replay_perform_bind {Err α : Type} {action : Stateful (UploadError Err) σ Unit} {s s' : σ}
    (h : action.run s = .ok () s') (f : Unit → Flow D F Err σ α)
    (replies : List (Option (ServerMessages D F Err))) :
    replay (.perform action (pure ()) >>= f) s replies = replay (f ()) s' replies := by
  change replay (.perform action (f ())) s replies = _
  simp only [replay, h]

theorem replay_verifyUpload_of_accepted {leaves : List D.Output} {records : Records D}
    (hverified : (clientVerifyCommitment m.root leaves (columnsFromFixedSeed env m) received
      (getPosSoudnessNCols env m) : Fallible (VerifierError env.fft.Err) Unit) = .ok ())
    (hnew : records m.idUlid = none) (serverIp : String)
    (rest : List (Option (ServerMessages D F env.fft.Err))) :
    replay (verifyUpload env (columnsFromFixedSeed env m) leaves serverIp m) records
        (some (.columns received) :: rest) =
      ⟨.ok (keptMetadata m serverIp),
        [.requestProof (keptMetadata m serverIp) (columnsFromFixedSeed env m)],
        Function.update records m.idUlid (some (keptMetadata m serverIp))⟩ := by
  have hcolumns : columnsReply (.columns received : ServerMessages D F env.fft.Err) =
    some received := rfl
  have hchecked : mapErr (UploadError.verification "Failed to verify columns: ")
      (clientVerifyCommitment (keptMetadata m serverIp).root leaves (columnsFromFixedSeed env m)
        received (getPosSoudnessNCols env (keptMetadata m serverIp))) = .ok () :=
    mapErr_eq_ok.mpr hverified
  have hcreate : (createRecord (keptMetadata m serverIp) :
      Stateful (UploadError env.fft.Err) (Records D) Unit).run records = _ := run_createRecord hnew
  have hflow : (verifyUpload env (columnsFromFixedSeed env m) leaves serverIp m : Upload D F _ _) =
      ask (.requestProof (keptMetadata m serverIp) (columnsFromFixedSeed env m))
        "Proof request failed: " columnsReply >>= fun receivedColumns =>
      uploadChecked (mapErr (.verification "Failed to verify columns: ")
        (clientVerifyCommitment (keptMetadata m serverIp).root leaves (columnsFromFixedSeed env m)
          receivedColumns (getPosSoudnessNCols env (keptMetadata m serverIp)))) >>= fun _ =>
      .perform (createRecord (keptMetadata m serverIp)) (pure ()) >>= fun _ =>
      pure (keptMetadata m serverIp) := rfl
  rw [hflow, replay_ask_of_reply hcolumns]
  simp only [hchecked, uploadChecked_ok, pure_bind, replay_perform_bind hcreate]
  rfl

theorem replay_uploadFile_of_accepted {files : Files} {fileName serverIp : String}
    {pre enc : Option ℕ} {required : ℕ} {records : Records D} (hfile : files fileName = some file)
    (hdimensions : uploadDimensions env file.length pre enc =
      .ok (m.numColumns, m.numEncodedColumns, required))
    (h : Accepted env m file received) (hnew : records m.idUlid = none)
    (rest : List (Option (ServerMessages D F env.fft.Err))) :
    replay (uploadFile env files fileName pre enc serverIp) records
        (some (.compactCommit m) :: some (.columns received) :: rest) =
      ⟨.ok (keptMetadata m serverIp),
        [.uploadNewFile fileName file m.numColumns m.numEncodedColumns,
          .requestProof (keptMetadata m serverIp) (columnsFromFixedSeed env m)],
        Function.update records m.idUlid (some (keptMetadata m serverIp))⟩ := by
  obtain ⟨leaves, hleaves, hverified⟩ := h
  obtain rfl := required_of_uploadDimensions hdimensions
  have hcommit : compactCommit (.compactCommit m : ServerMessages D F env.fft.Err) = some m := rfl
  have hderived : locallyDerivedLeaves env D (convertByteVecToFieldElementsVec file)
      (columnsFromFixedSeed env m) m.numColumns m.numEncodedColumns = .ok leaves :=
    bind_eq_ok.mpr ⟨.leaves leaves, mapErr_eq_ok.mpr hleaves, rfl⟩
  have hcolumns : env.columnIndicies (env.posSoundnessNCols m.numColumns m.numEncodedColumns)
    m.numEncodedColumns = columnsFromFixedSeed env m := rfl
  unfold uploadFile
  simp only [hfile, hdimensions, hcolumns, hderived, uploadRequest_eq_ask, uploadChecked_ok,
    pure_bind, replay_ask_of_reply hcommit,
    replay_verifyUpload_of_accepted hverified hnew serverIp rest]

end Uploads

section Runs

variable [DecidableEq ι] {env : Environment F} {s t : Connections ι D env} {m : FileMetadata D}
  {file : List UInt8}

def Answered (s : Connections ι D env) (message : ClientMessages D F)
    (response : ServerMessages D F env.fft.Err) : Prop :=
  ∃ j q, q.message = .files message ∧ (j, q, .ok (.files response)) ∈ s.finished

/-- With the answers of the server the file is proved to a client that holds it, and comes back. -/
structure Retrievable (s : Connections ι D env) (m : FileMetadata D) (file : List UInt8) :
    Prop where
  proved : ∀ {response}, Answered s (.requestProof m (columnsFromFixedSeed env m)) response →
    ∀ {σ : Type} (files : Files) (a : σ) rest, files m.filename = some file →
      replay (requestProof env files m) a (some response :: rest) =
        ⟨.ok (), [.requestProof m (columnsFromFixedSeed env m)], a⟩
  downloaded : ∀ {served response}, Answered s (.requestFile m) served →
    Answered s (.requestProof m (columnsFromFixedSeed env m)) response →
    ∀ (files : Files) rest,
      replay (downloadFile env m) files (some served :: some response :: rest) =
        ⟨.ok (), [.requestFile m, .requestProof m (columnsFromFixedSeed env m)],
          Function.update files m.filename (some file)⟩

theorem Settled.address (h : Settled s t m file) (address : ServerHost) :
    Settled s t { m with storedServer := address } file :=
  ⟨h.unknown, h.used, h.reaches, Describes.address h.describes address⟩

theorem Settled.answered_file (h : Settled s t m file) {response : ServerMessages D F env.fft.Err}
    (hanswered : Answered s (.requestFile m) response) : response = .file file := by
  obtain ⟨j, q, hmessage, hresponse⟩ := hanswered
  obtain ⟨a, a', hframe, hrun⟩ := h.unknown.reads h.used h.reaches hmessage rfl hresponse
  rw [run_requestFile (h.describes.frame hframe)] at hrun
  cases hrun
  rfl

theorem Settled.answered_proof (h : Settled s t m file) (hdraws : Draws env)
    (hword : m.numEncodedColumns < 2 ^ 64) {response : ServerMessages D F env.fft.Err}
    (hanswered : Answered s (.requestProof m (columnsFromFixedSeed env m)) response) :
    ∃ received, response = .columns received ∧ Accepted env m file received := by
  obtain ⟨j, q, hmessage, hresponse⟩ := hanswered
  obtain ⟨a, a', hframe, hrun⟩ := h.unknown.reads h.used h.reaches hmessage rfl hresponse
  obtain ⟨received, haccepted, hrun'⟩ := run_requestProof hdraws hword (h.describes.frame hframe)
  rw [hrun'] at hrun
  cases hrun
  exact ⟨received, rfl, haccepted⟩

theorem Settled.retrievable (h : Settled s t m file) (hdraws : Draws env)
    (hword : m.numEncodedColumns < 2 ^ 64) : Retrievable s m file where
  proved := by
    intro response hanswered σ files a rest hfile
    obtain ⟨received, rfl, haccepted⟩ := Settled.answered_proof h hdraws hword hanswered
    exact replay_requestProof_of_accepted hfile haccepted a rest
  downloaded := by
    intro served response hserved hanswered files rest
    obtain rfl := Settled.answered_file h hserved
    obtain ⟨received, rfl, haccepted⟩ := Settled.answered_proof h hdraws hword hanswered
    exact replay_downloadFile_of_accepted haccepted files rest

/-- With the answers of the server an evaluation of the file is accepted. -/
def Evaluable [DecidableEq F] (s : Connections ι D env) (m : FileMetadata D) : Prop :=
  ∀ {result response}, Answered s (.requestPolynomialEvaluation m env.evaluationPoint) result →
    Answered s (.requestProof m (columnsFromFixedSeed env m)) response →
    ∀ {σ : Type} (a : σ) rest,
      replay (clientRequestAndVerifyPolynomial env m) a (some result :: some response :: rest) =
        ⟨.ok (), [.requestPolynomialEvaluation m env.evaluationPoint,
          .requestProof m (columnsFromFixedSeed env m)], a⟩

theorem Settled.evaluable [DecidableEq F] (h : Settled s t m file) (hdraws : Draws env)
    (hword : m.numEncodedColumns < 2 ^ 64) (hsorted : (columnsFromFixedSeed env m).SortedLT)
    (hrows : RowsRight F m) : Evaluable s m := by
  intro result response hresult hcolumns σ a rest
  obtain ⟨evaluationResult, received, hevaluates, hruns⟩ :=
    honest_evaluation hdraws hword hsorted hrows h.describes
  obtain ⟨j, q, hmessage, hanswered⟩ := hresult
  obtain ⟨b, b', hframe, hrun⟩ := h.unknown.reads h.used h.reaches hmessage rfl hanswered
  obtain ⟨j', q', hmessage', hanswered'⟩ := hcolumns
  obtain ⟨c, c', hframe', hrun'⟩ := h.unknown.reads h.used h.reaches hmessage' rfl hanswered'
  rw [(hruns _ (h.describes.frame hframe).disk).1] at hrun
  rw [(hruns _ (h.describes.frame hframe').disk).2] at hrun'
  cases hrun
  cases hrun'
  exact replay_polynomial_of_evaluates hevaluates a rest

/-- What was made of an upload, an edit or an append can be proved and downloaded with the metadata
in the answer, in whatever order the steps come, as long as nobody moves it or takes it away. -/
theorem made_is_retrievable (env : Environment F) (hdraws : Draws env) (store : Store ι D)
    (s : Connections ι D env) (i : ι) (q : Request D F) (message : ClientMessages D F)
    (m : FileMetadata D) (h : Serves env (System.start store) s)
    (hmessage : q.message = .files message) (hmade : recordsMade q.fresh message ≠ [])
    (hanswer : (i, q, .ok (.files (.compactCommit m))) ∈ s.finished)
    (htargets : ∀ x ∈ s.received, q.fresh ∉ x.2.message.targets)
    (hword : m.numEncodedColumns < 2 ^ 64) (address : ServerHost) :
    ∃ file, Made (During store s i q) message m file ∧ Describes env s.shared.toServer m file ∧
      Retrievable s { m with storedServer := address } file := by
  obtain ⟨-, t, file, hsettled, -, hfile⟩ := made_when_ended h hmessage hmade hanswer htargets
  exact ⟨file, hfile, hsettled.describes.frame hsettled.frame,
    Settled.retrievable (Settled.address hsettled address) hdraws hword⟩

/-- The evaluation of what was made is accepted, when the columns are drawn in ascending order and
the metadata counts the rows of the file, as that of an upload or an append does. -/
theorem evaluation_is_accepted [DecidableEq F] (env : Environment F) (hdraws : Draws env)
    (store : Store ι D) (s : Connections ι D env) (i : ι) (q : Request D F)
    (message : ClientMessages D F) (m : FileMetadata D) (h : Serves env (System.start store) s)
    (hmessage : q.message = .files message) (hmade : recordsMade q.fresh message ≠ [])
    (hanswer : (i, q, .ok (.files (.compactCommit m))) ∈ s.finished)
    (htargets : ∀ x ∈ s.received, q.fresh ∉ x.2.message.targets)
    (hword : m.numEncodedColumns < 2 ^ 64) (hsorted : (columnsFromFixedSeed env m).SortedLT)
    (address : ServerHost) :
    ∃ file, Made (During store s i q) message m file ∧
      (RowsRight F m → Evaluable s { m with storedServer := address }) := by
  obtain ⟨-, t, file, hsettled, -, hfile⟩ := made_when_ended h hmessage hmade hanswer htargets
  exact ⟨file, hfile, fun hrows =>
    Settled.evaluable (Settled.address hsettled address) hdraws hword hsorted hrows⟩

/-- The columns of an upload are accepted and its metadata is kept, whatever happens in between. -/
theorem upload_is_kept (env : Environment F) (hdraws : Draws env) (store : Store ι D)
    (s : Connections ι D env) (i : ι) (q : Request D F) (files : Files)
    (fileName serverIp : String) (pre enc : Option ℕ) (file : List UInt8)
    (numColumns numEncodedColumns required : ℕ) (m : FileMetadata D) (records : Records D)
    (response : ServerMessages D F env.fft.Err)
    (rest : List (Option (ServerMessages D F env.fft.Err)))
    (h : Serves env (System.start store) s) (hfile : files fileName = some file)
    (hdimensions : uploadDimensions env file.length pre enc =
      .ok (numColumns, numEncodedColumns, required)) (hword : numEncodedColumns < 2 ^ 64)
    (hmessage : q.message = .files (.uploadNewFile fileName file numColumns numEncodedColumns))
    (hanswer : (i, q, .ok (.files (.compactCommit m))) ∈ s.finished)
    (htargets : ∀ x ∈ s.received, q.fresh ∉ x.2.message.targets) (hnew : records m.idUlid = none)
    (hcolumns : Answered s (.requestProof (keptMetadata m serverIp) (columnsFromFixedSeed env m))
      response) :
    replay (uploadFile env files fileName pre enc serverIp) records
        (some (.compactCommit m) :: some response :: rest) =
      ⟨.ok (keptMetadata m serverIp), [.uploadNewFile fileName file numColumns numEncodedColumns,
          .requestProof (keptMetadata m serverIp) (columnsFromFixedSeed env m)],
        Function.update records m.idUlid (some (keptMetadata m serverIp))⟩ ∧
      Retrievable s (keptMetadata m serverIp) file := by
  obtain ⟨-, t, file', hsettled, -, hmade⟩ :=
    made_when_ended h hmessage (List.cons_ne_nil _ _) hanswer htargets
  obtain ⟨rfl, -, -, rfl, rfl⟩ := hmade
  have hkept : Settled s t (keptMetadata m serverIp) file' := Settled.address hsettled _
  obtain ⟨received, rfl, haccepted⟩ := Settled.answered_proof hkept hdraws hword hcolumns
  exact ⟨replay_uploadFile_of_accepted hfile hdimensions haccepted hnew rest,
    Settled.retrievable hkept hdraws hword⟩

end Runs

section Example

def provesUpload (m : FileMetadata byteSum) : ClientMessages byteSum (ZMod 257) :=
  .requestProof (keptMetadata m "") (columnsFromFixedSeed fermatEnvironment m)

theorem upload_and_proof_answered : ∃ m response, uploadOutcome.1 =
      .ok (.files (.compactCommit m)) ∧ m.idUlid = 3 ∧ m.numEncodedColumns = 2 ∧
    (outcomeOf ((alone (handle fermatEnvironment true ⟨5, .files (provesUpload m)⟩)).run
      uploadOutcome.2)).1 = .ok (.files response) := by
  have hrecord : (recordOf uploadOutcome.1).map (fun m => (m.idUlid, m.numEncodedColumns)) =
      some (3, 2) := by decide +kernel
  have hproof : ((recordOf uploadOutcome.1).bind fun m =>
      replyOf (outcomeOf ((alone (handle fermatEnvironment true ⟨5, .files (provesUpload m)⟩)).run
        uploadOutcome.2)).1).isSome = true := by decide +kernel
  obtain ⟨m, hm, hfields⟩ := Option.map_eq_some_iff.mp hrecord
  obtain ⟨hid, hcols⟩ := Prod.mk.inj hfields
  rw [hm] at hproof
  obtain ⟨response, hresponse⟩ := Option.isSome_iff_exists.mp hproof
  exact ⟨m, response, recordOf_eq_some.mp hm, hid, hcols, replyOf_eq_some.mp hresponse⟩

theorem upload_leaves_free : uploadOutcome.2.disk 5 = none ∧
    (uploadOutcome.2.database 5).isNone = true := by decide +kernel

theorem admits_third {m : FileMetadata byteSum} (hm : m.idUlid = 3)
    (hanswer : uploadOutcome.1 = .ok (.files (.compactCommit m))) :
    Admits fermatEnvironment ⟨uploadOutcome.2, fun _ => none,
      [(true, overlapping true), (false, ⟨4, .files (.requestFile (keptMetadata m ""))⟩)],
      [(true, overlapping true, uploadOutcome.1),
        (false, ⟨4, .files (.requestFile (keptMetadata m ""))⟩, .ok (.files (.file [7])))]⟩
      true ⟨5, .files (provesUpload m)⟩ where
  alive q h := by
    rw [hanswer] at h
    rcases List.mem_pair.mp h with heq | heq <;> cases heq
  disk := upload_leaves_free.1
  database := Option.isNone_iff_eq_none.mp upload_leaves_free.2
  undrawn x hx heq := by
    rcases List.mem_pair.mp hx with rfl | rfl <;> cases heq
  unnamed x hx hmem := by
    rcases List.mem_pair.mp hx with rfl | rfl
    · cases hmem
    · cases (List.mem_singleton.mp hmem).trans hm
  notOwn hmem := by cases (List.mem_singleton.mp hmem).trans hm
  unguessed _ _ _ h := by cases h

theorem proved_after_upload : ∃ (s : Connections Bool byteSum fermatEnvironment)
    (m : FileMetadata byteSum) (response : ServerMessages byteSum (ZMod 257) _),
    Serves fermatEnvironment (System.start (opened (holding (firstUpload 2 1 2 2 6) [1, 2]))) s ∧
    (∀ x ∈ s.received, x.2.message.targets = []) ∧ m.numEncodedColumns = 2 ∧
    (true, overlapping true, .ok (.files (.compactCommit m))) ∈ s.finished ∧
    Answered s (.requestFile (keptMetadata m "")) (.file [7]) ∧
    Answered s (provesUpload m) response := by
  obtain ⟨m, response, hanswer, hm, hcols, hresponse⟩ := upload_and_proof_answered
  have hproof := (file_served (m := keptMetadata m "") hm).trans
    (reaches_alone rfl (admits_third hm hanswer))
  rw [hanswer, hresponse] at hproof
  refine ⟨_, m, response, hproof, fun x hx => ?_, hcols, ?_, ⟨false, ⟨4, _⟩, rfl, ?_⟩,
    true, ⟨5, _⟩, rfl, ?_⟩
  · rcases List.mem_append.mp hx with hx | hx
    · rcases List.mem_pair.mp hx with rfl | rfl <;> rfl
    · obtain rfl := List.mem_singleton.mp hx
      rfl
  · exact List.mem_append_left _ List.mem_cons_self
  · exact List.mem_append_left _ (List.mem_cons_of_mem _ (List.mem_singleton_self _))
  · exact List.mem_append_right _ (List.mem_singleton_self _)

theorem made_is_retrievable_two : ∃ (m : FileMetadata byteSum)
    (response : ServerMessages byteSum (ZMod 257) _), ∀ files : Files,
    replay (downloadFile fermatEnvironment (keptMetadata m "")) files
        [some (.file [7]), some response] =
      ⟨.ok (), [.requestFile (keptMetadata m ""), provesUpload m],
        Function.update files m.filename (some [7])⟩ := by
  obtain ⟨s, m, response, hserves, hreceived, hcols, hanswer, hserved, hproved⟩ :=
    proved_after_upload
  obtain ⟨file, hmade, -, hretrievable⟩ := made_is_retrievable fermatEnvironment draws_fermat _ s
    true (overlapping true) _ m hserves rfl (List.cons_ne_nil _ _) hanswer (fun x hx hmem => by
      rw [hreceived x hx] at hmem
      cases hmem) (by rw [hcols]; decide) (keptMetadata m "").storedServer
  obtain ⟨rfl, -⟩ := hmade
  exact ⟨m, response, fun files => hretrievable.downloaded hserved hproved files []⟩

theorem evaluation_is_accepted_two : ∃ (s : Connections Bool byteSum fermatEnvironment)
    (m : FileMetadata byteSum) (address : ServerHost), m.filename = "other" ∧
      Evaluable s { m with storedServer := address } := by
  obtain ⟨s, m, response, hserves, hreceived, hcols, hanswer, -⟩ := proved_after_upload
  obtain ⟨file, hmade, hevaluable⟩ := evaluation_is_accepted fermatEnvironment draws_fermat _ s true
    (overlapping true) _ m hserves rfl (List.cons_ne_nil _ _) hanswer (fun x hx hmem => by
      rw [hreceived x hx] at hmem
      cases hmem) (by rw [hcols]; decide)
    (List.pairwise_lt_range.sublist (List.take_sublist _ _)).sortedLT m.storedServer
  exact ⟨s, m, m.storedServer, hmade.2.2.1, hevaluable hmade.2.1⟩

theorem upload_is_kept_two : ∃ (s : Connections Bool byteSum fermatEnvironment)
    (m : FileMetadata byteSum) (response : ServerMessages byteSum (ZMod 257) _),
    replay (uploadFile fermatEnvironment (fun _ => some [7]) "other" (some 1) (some 2) "")
        (fun _ => none) [some (.compactCommit m), some response] =
      ⟨.ok (keptMetadata m ""), [.uploadNewFile "other" [7] 1 2, provesUpload m],
        Function.update (fun _ => none) m.idUlid (some (keptMetadata m ""))⟩ ∧
    Retrievable s (keptMetadata m "") [7] := by
  obtain ⟨s, m, response, hserves, hreceived, hcols, hanswer, -, hproved⟩ := proved_after_upload
  refine ⟨s, m, response, upload_is_kept fermatEnvironment draws_fermat _ s true (overlapping true)
    (fun _ => some [7]) "other" "" (some 1) (some 2) [7] 1 2 2 m (fun _ => none) response []
    hserves rfl rfl (by decide) rfl hanswer (fun x hx hmem => ?_) rfl hproved⟩
  rw [hreceived x hx] at hmem
  cases hmem

end Example

end NetworkRoundTrips
