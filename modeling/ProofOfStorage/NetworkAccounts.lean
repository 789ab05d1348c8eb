import ProofOfStorage.NetworkInterleavings

/-! # Accounts

A new user is created in one table and looked for in another one, to which nothing is ever written.
-/
namespace NetworkAccounts

open FoundationFaults FoundationRuns FoundationProcesses FoundationInterleaving
open CommitmentTypes FileFields FileWriter
open NetworkMessages NetworkServer NetworkVersions NetworkConnections NetworkAtomicity
open NetworkInterleavings

variable {ι : Type} {D : Digest} {F : Type}

/-- The table in which users are looked for stays what it is, and what is in the table in which they
are created stays there. -/
structure AccountsKept (a b : Store ι D) : Prop where
  users : b.users = a.users
  user : ∀ username found, a.user username = some found → b.user username = some found

theorem AccountsKept.refl (a : Store ι D) : AccountsKept a a := ⟨rfl, fun _ _ h => h⟩

theorem AccountsKept.trans {a b c : Store ι D} (h : AccountsKept a b) (h' : AccountsKept b c) :
    AccountsKept a c :=
  ⟨h'.users.trans h.users, fun name found hfound => h'.user name found (h.user name found hfound)⟩

section Handlers

variable {Err : Type}

theorem keeps_createUser (username : String) (newUser : User) :
    Effects AccountsKept
      (createUser username newUser : Stateful (ServerError Err) (Store ι D) _) := by
  intro a
  rw [run_createUser]
  cases hfree : a.user username with
  | some found => exact .refl a
  | none =>
    refine ⟨rfl, fun name found hfound => ?_⟩
    refine (Function.update_of_ne (fun heq => ?_) ..).trans hfound
    subst heq
    cases hfree.symm.trans hfound

theorem keeps_newUser (username password : String) : Within AccountsKept
    (handleClientNewUser username password :
      Process (Store ι D) (ServerError Err) (ConnectionReplies D F Err)) := by
  refine Within.bind (fun a => ⟨.refl a, trivial⟩) fun found => (Within.done _).bind fun _ => ?_
  exact (Within.atomic (keeps_createUser username _)).bind fun _ => .done _

theorem keeps_onServer {α : Type} {p : Handling D Err α} :
    Within AccountsKept (onServer p : Process (Store ι D) (ServerError Err) α) :=
  .onPart_of_forall fun _ _ => ⟨rfl, fun _ _ h => h⟩

theorem keeps_handle [DecidableEq ι] [Field F] [DataField F] (env : Environment F) (i : ι)
    (request : Request D F) : Within AccountsKept (handle env i request) := by
  obtain ⟨fresh, message⟩ := request
  have hget : ∀ {α : Type} {g : Store ι D → α},
      Within AccountsKept (atomic (do return g (← get)) :
        Process (Store ι D) (ServerError env.fft.Err) α) := fun a => ⟨.refl a, trivial⟩
  cases message with
  | files message => exact keeps_onServer.bind fun _ => .done _
  | newUser username password => exact keeps_newUser username password
  | userLogin username password =>
    refine hget.bind fun found => ?_
    cases found with
    | none => exact .done _
    | some found => exact (Within.done _).bind fun _ => .done _
  | startUploadNewFileByChunks filename columns encodedColumns totalFileSize =>
    refine keeps_onServer.bind fun _ => keeps_onServer.bind fun _ => (Within.done _).bind fun _ => ?_
    exact Within.bind (fun _ => ⟨⟨rfl, fun _ _ h => h⟩, trivial⟩) fun _ => .done _
  | uploadFileChunk fileUlid chunk lastChunk =>
    exact hget.bind fun _ => (Within.done _).bind fun _ => .done _
  | requestFileRow m row => exact (Within.done _).bind fun _ => keeps_onServer.bind fun _ => .done _
  | requestEncodedColumn m row => exact (Within.done _).bind fun _ => .done _

end Handlers

section Runs

variable [DecidableEq ι] [Field F] [DataField F] {env : Environment F}

def accounts (ι : Type) (D : Digest) (env : Environment F) :
    Contract ι (Request D F) (ConnectionReplies D F env.fft.Err) (Store ι D)
      (ServerError env.fft.Err) where
  rely _ _ := AccountsKept
  effect _ _ := AccountsKept
  good _ q r a := ∀ response, r = .ok response →
    (∀ username password, q.message = .userLogin username password →
      ∃ found, a.users username = some found ∧ found.hashedPassword = hashPassword D password) ∧
    ∀ username password, q.message = .newUser username password →
      a.user username = some ⟨username, hashPassword D password⟩

omit [DecidableEq ι] in
theorem amid_userLogin (username password : String) (inv : Store ι D → Prop) (a : Store ι D) :
    Amid AccountsKept inv (fun r a => ∀ response, r = .ok response →
      ∃ found, a.users username = some found ∧ found.hashedPassword = hashPassword D password)
      (handleClientUserLogin username password :
        Process (Store ι D) (ServerError env.fft.Err) (ConnectionReplies D F env.fft.Err)) a := by
  refine Amid.atomic_bind (fun _ _ _ h => by cases h) fun b _ hinv => ⟨hinv, fun found heq => ?_⟩
  obtain rfl := Except.ok.inj heq
  cases hfound : b.users username with
  | none => exact Amid.done _ fun _ _ _ _ h => by cases h
  | some user =>
    refine Amid.done_bind (fun _ _ _ h => by cases h) fun _ hensure => ?_
    refine Amid.done _ fun c hkept _ _ _ => ?_
    exact ⟨user, (congrFun hkept.users username).trans hfound, ensure_eq_ok.mp hensure⟩

omit [DecidableEq ι] in
theorem amid_newUser (username password : String) (inv : Store ι D → Prop)
    (hinv : ∀ a user, inv a → inv { a with user := user }) (a : Store ι D) :
    Amid AccountsKept inv (fun r a => ∀ response, r = .ok response →
      a.user username = some ⟨username, hashPassword D password⟩)
      (handleClientNewUser username password :
        Process (Store ι D) (ServerError env.fft.Err) (ConnectionReplies D F env.fft.Err)) a := by
  refine Amid.atomic_bind (fun _ _ _ h => by cases h) fun b _ hb => ⟨hb, fun found _ => ?_⟩
  refine Amid.done_bind (fun _ _ _ h => by cases h) fun _ _ => ?_
  refine Amid.atomic_bind (fun _ _ _ h => by cases h) fun c _ hc => ?_
  rw [run_createUser]
  cases c.user username with
  | some user => exact ⟨hc, fun _ h => by cases h⟩
  | none =>
    refine ⟨hinv c _ hc, fun _ _ => Amid.done _ fun d hkept _ _ _ => ?_⟩
    exact hkept.user username _ (Function.update_self ..)

theorem accounts_kept (env : Environment F) (users : String → Option User) :
    (accounts ι D env).Kept (handle env) (Admits env) (fun a => a.users = users) where
  refl _ _ a _ := .refl a
  trans _ _ _ _ _ := .trans
  errors _ _ _ _ _ h := by cases h
  effects _ i q _ _ := keeps_handle env i q
  starts s i q _ _ := by
    have hkeeps : Within (fun a b : Store ι D => a.users = users → b.users = users)
        (handle env i q) := (keeps_handle env i q).mono fun _ _ h ha => h.users.trans ha
    obtain ⟨fresh, message⟩ := q
    cases message with
    | newUser username password =>
      refine (amid_newUser username password _ (fun _ _ h => h) _).mono ?_
      intro r b hgood response hr
      constructor
      · exact fun _ _ h => by cases h
      · intro username' password' h
        cases h
        exact hgood response hr
    | userLogin username password =>
      refine (amid_userLogin username password _ _).mono fun r b hgood response hr => ?_
      constructor
      · intro username' password' h
        cases h
        exact hgood response hr
      · exact fun _ _ h => by cases h
    | _ =>
      refine (hkeeps.amid _).mono fun _ _ _ _ _ => ?_
      constructor <;> exact fun _ _ h => by cases h
  apart _ _ _ _ _ _ _ _ _ := ⟨fun _ _ _ h => h, fun _ _ _ h => h⟩

/-- Whoever is let in was known before the first request came, whatever has been registered since. -/
theorem login_needs_old_user (env : Environment F) (store : Store ι D) (s : Connections ι D env)
    (i : ι) (q : Request D F) (username password : String) (response : ConnectionReplies D F _)
    (h : Serves env (System.start store) s) (hlogin : q.message = .userLogin username password)
    (hresponse : (i, q, .ok response) ∈ s.finished) :
    ∃ found, store.users username = some found ∧
      found.hashedPassword = hashPassword D password := by
  have hstart : (accounts ι D env).Sound (fun a => a.users = store.users) (System.start store) :=
    .start rfl
  obtain ⟨-, hgood⟩ := hstart.reaches (accounts_kept env store.users)
    (fun _ _ _ _ _ _ _ => trivial) h
  obtain ⟨a, ha, hlet⟩ := hgood s.finished (List.nil_append _).symm _ hresponse
  obtain ⟨found, hfound, hhash⟩ := (hlet response rfl).1 username password hlogin
  exact ⟨found, (congrFun ha username).symm.trans hfound, hhash⟩

def Registers (username : String) (_ : ι) (q : Request D F) : Prop :=
  ∃ password, q.message = .newUser username password

omit [DecidableEq ι] in
theorem takes_newUser (username password : String) :
    Takes (fun a : Store ι D => a.user username ≠ none)
      (handleClientNewUser username password :
        Process (Store ι D) (ServerError env.fft.Err) (ConnectionReplies D F env.fft.Err)) := by
  refine Takes.atomic_bind fun a => ⟨id, fun found _ => Takes.done_bind fun _ _ => ?_⟩
  refine Takes.atomic_last fun b => ?_
  rw [run_createUser]
  cases hfree : b.user username with
  | some found =>
    refine ⟨fun htaken => ?_, fun _ h => by cases h⟩
    rwa [← hfree] at htaken
  | none =>
    have htaken : Function.update b.user username (some ⟨username, hashPassword D password⟩)
        username ≠ none := by
      rw [Function.update_self]
      exact Option.some_ne_none _
    exact ⟨fun _ => htaken, fun _ _ => .inr ⟨fun h => h rfl, htaken, _, rfl⟩⟩

/-- Whatever the order of the steps, a name is registered at most once, and only if nobody had it.
Its record stays. -/
theorem name_registered_once (env : Environment F) (store : Store ι D) (s : Connections ι D env)
    (username : String) (h : Serves env (System.start store) s) :
    (∀ i q password response, q.message = .newUser username password →
      (i, q, .ok response) ∈ s.finished → store.user username = none ∧
        s.shared.user username = some ⟨username, hashPassword D password⟩) ∧
    ∀ i q response j q' response', Registers username i q → Registers username j q' →
      (i, q, .ok response) ∈ s.finished → (j, q', .ok response') ∈ s.finished →
        (i, q) = (j, q') := by
  have htaken : TakenOnce (fun a : Store ι D => a.user username ≠ none) (Registers username)
      store s := by
    refine TakenOnce.reaches (fun i q hregisters => ?_) (fun _ i q _ _ => ?_) h
    · obtain ⟨fresh, message⟩ := q
      obtain ⟨password, rfl⟩ := hregisters
      exact takes_newUser username password
    · refine (keeps_handle env i q).mono fun a b hkept hused => ?_
      obtain ⟨found, hfound⟩ := Option.ne_none_iff_exists'.mp hused
      rw [hkept.user username found hfound]
      exact Option.some_ne_none found
  have hstart : (accounts ι D env).Sound (fun a => a.users = store.users) (System.start store) :=
    .start rfl
  have hnobody : (accounts ι D env).Lasts (fun _ _ => True) (fun a => a.users = store.users)
      (System.start store) := .start store
  obtain ⟨hsound, hlasts⟩ := hnobody.reaches (accounts_kept env store.users)
    (fun _ _ _ => trivial) hstart (fun _ _ _ _ _ _ _ _ _ _ _ hkept => hkept) h
  constructor
  · intro i q password response hmessage hfinished
    obtain ⟨-, hfree⟩ := htaken.held i q ⟨password, hmessage⟩ (.inl ⟨response, hfinished⟩)
    refine ⟨not_not.mp hfree, ?_⟩
    have hgood := hlasts.good i q _ hfinished trivial s.shared (.refl _) hsound.shared
    exact (hgood response rfl).2 username password hmessage
  · intro i q response j q' response' hi hj hfinished hfinished'
    exact htaken.one i q j q' hi hj (.inl ⟨response, hfinished⟩) (.inl ⟨response', hfinished'⟩)

end Runs

section Example

def knowing : Store Bool byteSum := { opened (holding (firstUpload 2 1 2 2 6) [1, 2]) with
  users := fun username =>
    if username = "old" then some ⟨"old", hashPassword byteSum "secret"⟩ else none }

def logsIn : Request byteSum (ZMod 257) := ⟨2, .userLogin "old" "secret"⟩

def signsUp : Request byteSum (ZMod 257) := ⟨2, .newUser "new" "secret"⟩

theorem login_needs_old_user_one : ∃ found, knowing.users "old" = some found ∧
    found.hashedPassword = hashPassword byteSum "secret" := by
  have hrun : Serves fermatEnvironment (System.start knowing) _ :=
    reaches_alone (i := false) (q := logsIn) rfl (admits_start (by decide) rfl (by decide))
  obtain ⟨response, hresult⟩ := exists_ok_of_isSome
    (x := (outcomeOf ((alone (handle fermatEnvironment false logsIn)).run knowing)).1)
    (by decide +kernel)
  refine login_needs_old_user fermatEnvironment knowing _ false logsIn "old" "secret" response
    hrun rfl (List.mem_singleton.mpr ?_)
  rw [← hresult]
  rfl

theorem name_registered_once_one : ∃ s : Connections Bool byteSum fermatEnvironment,
    s.shared.user "new" = some ⟨"new", hashPassword byteSum "secret"⟩ := by
  have hrun : Serves fermatEnvironment (System.start knowing) _ :=
    reaches_alone (i := false) (q := signsUp) rfl (admits_start (by decide) rfl (by decide))
  obtain ⟨response, hresult⟩ := exists_ok_of_isSome
    (x := (outcomeOf ((alone (handle fermatEnvironment false signsUp)).run knowing)).1)
    (by decide +kernel)
  refine ⟨_, ((name_registered_once fermatEnvironment knowing _ "new" hrun).1 false signsUp "secret"
    response rfl (List.mem_singleton.mpr ?_)).2⟩
  rw [← hresult]
  rfl

end Example

end NetworkAccounts
