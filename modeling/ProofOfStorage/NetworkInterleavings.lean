import ProofOfStorage.FoundationSerialRuns
import ProofOfStorage.NetworkAtomicity
import ProofOfStorage.NetworkVersions

/-! # Interleaved connections

The steps of all connections come in any order. When no message is taken that moves or takes away
what an unfinished one names, nor the other way round, each answer is the one of a server that
handles one message after another.
-/
namespace NetworkInterleavings

open FoundationFaults FoundationRuns FoundationProcesses FoundationInterleaving
open FoundationSerialRuns
open CommitmentTypes FileFields FileWriter
open NetworkMessages NetworkServer NetworkVersions NetworkConnections NetworkAtomicity

variable {ι : Type} {D : Digest} {F : Type}

theorem targets_subset (message : ClientMessages D F) : targets message ⊆ named message := by
  cases message with
  | reshapeResponse new old accepted => cases accepted <;> simp [targets, named]
  | _ => simp [targets, named]

inductive Key (ι : Type) where
  | file (id : Ulid)
  | account (username : String)
  | openFiles (connection : ι)

def Key.Frame : Key ι → Store ι D → Store ι D → Prop
  | .file id, a, b => NetworkAtomicity.Frame id a.toServer b.toServer
  | .account username, a, b =>
    b.users username = a.users username ∧ b.user username = a.user username
  | .openFiles i, a, b => b.openFiles i = a.openFiles i

/-- What the handler of a request may change. -/
def ownKeys (i : ι) (request : Request D F) : List (Key ι) :=
  match request.message with
  | .files message => (request.fresh :: targets message).map .file
  | .newUser username _ => [.account username]
  | .startUploadNewFileByChunks .. => [.file request.fresh, .openFiles i]
  | _ => []

/-- What the handler of a request depends on. -/
def seenKeys (i : ι) (request : Request D F) : List (Key ι) :=
  match request.message with
  | .files message => (request.fresh :: named message).map .file
  | .newUser username _ => [.account username]
  | .userLogin username _ => [.account username]
  | .startUploadNewFileByChunks .. => [.file request.fresh, .openFiles i]
  | .uploadFileChunk .. => [.openFiles i]
  | .requestFileRow m _ => [.file m.idUlid]
  | .requestEncodedColumn .. => []

def footprint (ι : Type) (D : Digest) (F : Type) :
    Footprint ι (Request D F) (Key ι) (Store ι D) where
  frame := Key.Frame
  own i request := { k | k ∈ ownKeys i request }
  seen i request := { k | k ∈ seenKeys i request }

section Footprints

theorem Key.Frame.refl (k : Key ι) (a : Store ι D) : k.Frame a a := by
  cases k with
  | file id => exact ⟨rfl, rfl⟩
  | account username => exact ⟨rfl, rfl⟩
  | openFiles i => rfl

theorem Key.Frame.symm {k : Key ι} {a b : Store ι D} (h : k.Frame a b) : k.Frame b a := by
  cases k with
  | file id => exact ⟨h.1.symm, h.2.symm⟩
  | account username => exact ⟨h.1.symm, h.2.symm⟩
  | openFiles i => exact Eq.symm h

theorem Key.Frame.trans {k : Key ι} {a b c : Store ι D} (h : k.Frame a b) (h' : k.Frame b c) :
    k.Frame a c := by
  cases k with
  | file id => exact NetworkAtomicity.Frame.trans h h'
  | account username => exact ⟨h'.1.trans h.1, h'.2.trans h.2⟩
  | openFiles i => exact Eq.trans h' h

open Classical in
theorem exists_merge (keys : Set (Key ι)) (a b : Store ι D) :
    ∃ c, (footprint ι D F).SameOn keys b c ∧ ∀ k ∉ keys, (footprint ι D F).frame k a c := by
  let c : Store ι D := {
    disk := fun id => if .file id ∈ keys then b.disk id else a.disk id
    database := fun id => if .file id ∈ keys then b.database id else a.database id
    ulidsMade := a.ulidsMade
    users := fun name => if .account name ∈ keys then b.users name else a.users name
    user := fun name => if .account name ∈ keys then b.user name else a.user name
    openFiles := fun i => if .openFiles i ∈ keys then b.openFiles i else a.openFiles i }
  refine ⟨c, fun k hk => ?_, fun k hk => ?_⟩
  · cases k with
    | file id => exact ⟨if_pos hk, if_pos hk⟩
    | account username => exact ⟨if_pos hk, if_pos hk⟩
    | openFiles i => exact if_pos hk
  · cases k with
    | file id => exact ⟨if_neg hk, if_neg hk⟩
    | account username => exact ⟨if_neg hk, if_neg hk⟩
    | openFiles i => exact if_neg hk

theorem ownKeys_subset (i : ι) (request : Request D F) :
    (footprint ι D F).own i request ⊆ (footprint ι D F).seen i request := by
  intro k hk
  obtain ⟨fresh, message⟩ := request
  cases message with
  | files message =>
    exact List.map_subset _ (List.cons_subset_cons _ (targets_subset message)) hk
  | newUser username password => exact hk
  | startUploadNewFileByChunks filename columns encodedColumns totalFileSize => exact hk
  | _ => cases hk

def SameParts (keys : List (Key ι)) (a b : Store ι D) : Prop := ∀ k ∈ keys, k.Frame a b

/-- A process changes only the parts `own` and depends only on the parts `seen`. -/
structure Bounded {α Err : Type} (own seen : List (Key ι))
    (p : Process (Store ι D) (ServerError Err) α) : Prop where
  within : ∀ k ∉ own, Within k.Frame p
  isLocal : Local (SameParts seen) p

section Bounds

variable {α β Err : Type} {own seen : List (Key ι)}

theorem Bounded.done (result : Fallible (ServerError Err) α) :
    Bounded own seen (.done result : Process (Store ι D) (ServerError Err) α) :=
  ⟨fun _ _ => Within.done result, Local.done result⟩

theorem Bounded.bind {p : Process (Store ι D) (ServerError Err) α}
    {f : α → Process (Store ι D) (ServerError Err) β} (hp : Bounded own seen p)
    (hf : ∀ a, Bounded own seen (f a)) : Bounded own seen (p >>= f) where
  within k hk := (hp.within k hk).bind fun a => (hf a).within k hk
  isLocal := hp.isLocal.bind fun a => (hf a).isLocal

theorem bounded_onServer {made ids ids' : List Ulid} {p : Handling D Err α}
    (h : Confined made ids ids' p) (hown : ∀ id ∈ ids, .file id ∈ own)
    (hseen : ∀ id, .file id ∈ seen ↔ id ∈ ids') :
    Bounded own seen
      (onServer p : Process (Store ι D) (ServerError Err) α) where
  within := by
    intro k hk
    cases k with
    | file id => exact (h.within id fun hid => hk (hown id hid)).onPart fun _ _ hframe => hframe
    | account username => exact .onPart_of_forall fun _ _ => ⟨rfl, rfl⟩
    | openFiles i => exact .onPart_of_forall fun _ _ => rfl
  isLocal := by
    refine h.isLocal.onPart (fun a b hsame id hid => ?_) fun a b t t' hsame hserver k hk => ?_
    · exact hsame (.file id) ((hseen id).mpr hid)
    · cases k with
      | file id => exact hserver id ((hseen id).mp hk)
      | account username => exact hsame (.account username) hk
      | openFiles i => exact hsame (.openFiles i) hk

theorem bounded_get {g : Store ι D → α} (hg : ∀ a b, SameParts seen a b → g a = g b) :
    Bounded own seen
      (atomic (do return g (← get)) : Process (Store ι D) (ServerError Err) α) where
  within k _ := Within.atomic fun a => Key.Frame.refl k a
  isLocal := Local.atomic fun a b hsame => ⟨congrArg Except.ok (hg a b hsame), hsame⟩

end Bounds

end Footprints

section Handles

variable {Err : Type} {fresh : Ulid}

theorem bounded_createUser (username : String) (newUser : User) :
    Bounded [.account username] [.account username]
      (atomic (createUser username newUser) : Process (Store ι D) (ServerError Err) Unit) := by
  refine ⟨fun k hk => Within.atomic fun a => ?_, Local.atomic fun a b hsame => ?_⟩
  · rw [run_createUser]
    cases a.user username with
    | some user => exact .refl k a
    | none =>
      cases k with
      | account other =>
        refine ⟨rfl, Function.update_of_ne (fun heq => hk ?_) ..⟩
        exact List.mem_singleton.mpr (congrArg Key.account heq)
      | file id => exact ⟨rfl, rfl⟩
      | openFiles j => exact rfl
  · have huser := hsame (.account username) (List.mem_singleton_self _)
    rw [run_createUser, run_createUser, huser.2]
    cases hfound : a.user username with
    | some user => exact ⟨rfl, hsame⟩
    | none =>
      refine ⟨rfl, fun k hk => ?_⟩
      obtain rfl := List.mem_singleton.mp hk
      refine ⟨huser.1, ?_⟩
      change Function.update b.user username _ username = Function.update a.user username _ username
      rw [Function.update_self, Function.update_self]

theorem bounded_newUser (username password : String) :
    Bounded [.account username] [.account username]
      (handleClientNewUser username password :
        Process (Store ι D) (ServerError Err) (ConnectionReplies D F Err)) := by
  refine (bounded_get (g := fun a => a.users username) fun a b hsame => ?_).bind fun found => ?_
  · exact (hsame (.account username) (List.mem_singleton_self _)).1.symm
  · exact (Bounded.done _).bind fun _ => (bounded_createUser username _).bind fun _ => .done _

theorem bounded_open [DecidableEq ι] (i : ι) (fresh : Ulid) :
    Bounded [.file fresh, .openFiles i] [.file fresh, .openFiles i]
      (atomic (modify fun s => { s with
        openFiles := Function.update s.openFiles i (Function.update (s.openFiles i) fresh true) }) :
        Process (Store ι D) (ServerError Err) Unit) := by
  refine ⟨fun k hk => Within.atomic fun a => ?_, Local.atomic fun a b hsame => ⟨rfl, ?_⟩⟩
  · cases k with
    | openFiles j =>
      refine Function.update_of_ne (fun heq => hk ?_) ..
      exact List.mem_cons_of_mem _ (List.mem_singleton.mpr (congrArg Key.openFiles heq))
    | file id => exact ⟨rfl, rfl⟩
    | account username => exact ⟨rfl, rfl⟩
  · intro k hk
    rcases List.mem_pair.mp hk with rfl | rfl
    · exact hsame (.file fresh) List.mem_cons_self
    · have hopen : b.openFiles i = a.openFiles i := hsame _ hk
      change Function.update b.openFiles i _ i = Function.update a.openFiles i _ i
      rw [Function.update_self, Function.update_self, hopen]

theorem bounded_handle [DecidableEq ι] [Field F] [DataField F] (env : Environment F) (i : ι)
    (request : Request D F) :
    Bounded (ownKeys i request) (seenKeys i request) (handle env i request) := by
  obtain ⟨fresh, message⟩ := request
  cases message with
  | files message =>
    refine Bounded.bind ?_ fun _ => .done _
    exact bounded_onServer (confined_handleFiles env fresh message)
      (fun _ => List.mem_map_of_mem) fun id => by simp [seenKeys]
  | newUser username password => exact bounded_newUser username password
  | userLogin username password =>
    refine (bounded_get (g := fun a => a.users username) fun a b hsame => ?_).bind fun found => ?_
    · exact (hsame (.account username) (List.mem_singleton_self _)).1.symm
    · cases found with
      | none => exact .done _
      | some user => exact (Bounded.done _).bind fun _ => .done _
  | startUploadNewFileByChunks filename columns encodedColumns totalFileSize =>
    have hfile : ∀ {p : Handling D env.fft.Err Unit}, Confined [] [fresh] [fresh] p →
        Bounded [.file fresh, .openFiles i] [.file fresh, .openFiles i]
          (onServer p : Process (Store ι D) (ServerError env.fft.Err) Unit) := by
      intro p hp
      exact bounded_onServer hp (fun id hid => by simp_all) fun id => by simp
    refine (hfile confined_drawUlid).bind fun _ => (hfile ?_).bind fun _ => ?_
    · exact confined_openForWriting (List.mem_singleton_self _) (List.mem_singleton_self _)
    · exact (Bounded.done _).bind fun _ => (bounded_open i fresh).bind fun _ => .done _
  | uploadFileChunk fileUlid chunk lastChunk =>
    refine (bounded_get (g := fun a => a.openFiles i fileUlid) fun a b hsame => ?_).bind
      fun isOpen => (Bounded.done _).bind fun _ => .done _
    exact congrFun (hsame (.openFiles i) (List.mem_singleton_self _)).symm fileUlid
  | requestFileRow m row =>
    refine (Bounded.done _).bind fun _ => Bounded.bind ?_ fun _ => .done _
    have hread : Confined [] [] [m.idUlid]
        (atomic (read m.idUlid) : Handling D env.fft.Err _) :=
      confined_read (List.mem_singleton_self _)
    exact bounded_onServer hread (fun _ h => by cases h) fun id => by simp [seenKeys]
  | requestEncodedColumn m row => exact (Bounded.done _).bind fun _ => .done _

theorem handle_kept [DecidableEq ι] [Field F] [DataField F] (env : Environment F) :
    (footprint ι D F).Kept (handle env) where
  refl := Key.Frame.refl
  symm _ _ _ := .symm
  trans _ _ _ _ := .trans
  merge := exists_merge
  subset := ownKeys_subset
  within i request := (bounded_handle env i request).within
  isLocal i request := (bounded_handle env i request).isLocal

end Handles

section Answers

variable [DecidableEq ι] [Field F] [DataField F]

/-- A request that is handled with nothing in between. A message about files is handled as by the
server with one connection, which draws the identifier that is new. -/
def answer (env : Environment F) (i : ι) (request : Request D F) :
    Stateful (ServerError env.fft.Err) (Store ι D) (ConnectionReplies D F env.fft.Err) :=
  match request.message with
  | .files message => do
    let response ← zoom Store.toServer (fun s t => { s with toServer := t })
      (handleClientMessage (drawing env request.fresh) message)
    return .files response
  | _ => alone (handle env i request)

theorem alone_handle (env : Environment F) (i : ι) (request : Request D F) :
    alone (handle env i request) = answer env i request := by
  obtain ⟨fresh, message⟩ := request
  cases message with
  | files message =>
    have hzoom : alone (onServer (handleFiles env fresh message)) =
        zoom Store.toServer (fun (s : Store ι D) t => { s with toServer := t })
          (alone (handleFiles env fresh message)) := by
      apply alone_onPart
      · exact fun _ _ => rfl
      · exact fun _ _ _ => rfl
      · exact fun _ => rfl
    rw [alone_handleFiles] at hzoom
    exact (alone_bind _ _).trans (congrArg (· >>= _) hzoom)
  | _ => rfl

end Answers

section Runs

variable [DecidableEq ι] [Field F] [DataField F] {env : Environment F}
  {admits : Connections ι D env → ι → Request D F → Prop} {s s' : Connections ι D env}
  {store : Store ι D}

/-- Each request has its own new identifier, and nobody has named the one of a request that is not
finished. -/
structure Tracked (s : Connections ι D env) : Prop where
  working : ∀ i q p, s.inProgress i = some (q, p) → (i, q) ∈ s.received
  ended : ∀ i q r, (i, q, r) ∈ s.finished → (i, q) ∈ s.received
  distinct : ∀ x ∈ s.received, ∀ y ∈ s.received, x.2.fresh = y.2.fresh → x = y
  unnamed : ∀ i q p, s.inProgress i = some (q, p) →
    ∀ x ∈ s.received, q.fresh ∉ x.2.message.named
  left : ∀ i q r j q' p, (i, q, r) ∈ s.finished → s.inProgress j = some (q', p) →
    q.fresh ≠ q'.fresh

omit [DecidableEq ι] in
theorem tracked_start (store : Store ι D) : Tracked (System.start store : Connections ι D env) where
  working _ _ _ h := by cases h
  ended _ _ _ h := by cases h
  distinct _ h := by cases h
  unnamed _ _ _ h := by cases h
  left _ _ _ _ _ _ h := by cases h

theorem Tracked.receive (h : Tracked s) {i : ι} {request : Request D F}
    (admitted : Admits env s i request) : Tracked ({ s with
      inProgress := Function.update s.inProgress i (some (request, handle env i request))
      received := s.received ++ [(i, request)] } : Connections ι D env) where
  working := by
    intro j q p hj
    rcases update_some_iff.mp hj with ⟨rfl, heq⟩ | ⟨-, hj⟩
    · obtain ⟨rfl, -⟩ := Prod.mk.inj heq
      exact List.mem_append_right _ (List.mem_singleton_self _)
    · exact List.mem_append_left _ (h.working j q p hj)
  ended j q r hmem := List.mem_append_left _ (h.ended j q r hmem)
  distinct := by
    intro x hx y hy heq
    rcases List.mem_append.mp hx with hx | hx <;> rcases List.mem_append.mp hy with hy | hy
    · exact h.distinct x hx y hy heq
    · obtain rfl := List.mem_singleton.mp hy
      exact absurd heq (admitted.undrawn x hx)
    · obtain rfl := List.mem_singleton.mp hx
      exact absurd heq.symm (admitted.undrawn y hy)
    · rw [List.mem_singleton.mp hx, List.mem_singleton.mp hy]
  unnamed := by
    intro j q p hj x hx
    rcases update_some_iff.mp hj with ⟨rfl, heq⟩ | ⟨-, hj⟩
    · obtain ⟨rfl, -⟩ := Prod.mk.inj heq
      rcases List.mem_append.mp hx with hx | hx
      · exact admitted.unnamed x hx
      · rw [List.mem_singleton.mp hx]
        exact admitted.notOwn
    · rcases List.mem_append.mp hx with hx | hx
      · exact h.unnamed j q p hj x hx
      · rw [List.mem_singleton.mp hx]
        exact admitted.unguessed j q p hj
  left := by
    intro j q r l q' p hmem hl
    rcases update_some_iff.mp hl with ⟨rfl, heq⟩ | ⟨-, hl⟩
    · obtain ⟨rfl, -⟩ := Prod.mk.inj heq
      exact admitted.undrawn _ (h.ended j q r hmem)
    · exact h.left j q r l q' p hmem hl

omit [DecidableEq ι] in
theorem Tracked.of_le (h : Tracked s) {shared : Store ι D}
    {inProgress : ι → Option (Request D F × Process (Store ι D) _ _)}
    (hle : ∀ i q p, inProgress i = some (q, p) → ∃ p', s.inProgress i = some (q, p')) :
    Tracked (⟨shared, inProgress, s.received, s.finished⟩ : Connections ι D env) where
  working i q p hi := by
    obtain ⟨p', hi⟩ := hle i q p hi
    exact h.working i q p' hi
  ended := h.ended
  distinct := h.distinct
  unnamed i q p hi := by
    obtain ⟨p', hi⟩ := hle i q p hi
    exact h.unnamed i q p' hi
  left i q r j q' p hmem hj := by
    obtain ⟨p', hj⟩ := hle j q' p hj
    exact h.left i q r j q' p' hmem hj

theorem Tracked.finish (h : Tracked s) {i : ι} {request : Request D F} {r : Fallible _ _}
    {p : Process (Store ι D) _ _} (ended : s.inProgress i = some (request, p)) :
    Tracked ({ s with
      inProgress := Function.update s.inProgress i none
      finished := s.finished ++ [(i, request, r)] } : Connections ι D env) where
  working j q p' hj := h.working j q p' (update_none_iff.mp hj).2
  ended := by
    intro j q r' hmem
    rcases List.mem_append.mp hmem with hmem | hmem
    · exact h.ended j q r' hmem
    · obtain ⟨rfl, heq⟩ := Prod.mk.inj (List.mem_singleton.mp hmem)
      obtain ⟨rfl, -⟩ := Prod.mk.inj heq
      exact h.working j q p ended
  distinct := h.distinct
  unnamed j q p' hj := h.unnamed j q p' (update_none_iff.mp hj).2
  left := by
    intro j q r' l q' p' hmem hl
    obtain ⟨hli, hother⟩ := update_none_iff.mp hl
    rcases List.mem_append.mp hmem with hmem | hmem
    · exact h.left j q r' l q' p' hmem hother
    · obtain ⟨rfl, heq⟩ := Prod.mk.inj (List.mem_singleton.mp hmem)
      obtain ⟨rfl, -⟩ := Prod.mk.inj heq
      intro hfresh
      have hsame := h.distinct _ (h.working j q p ended) _ (h.working l q' p' hother) hfresh
      exact hli (Prod.mk.inj hsame).1.symm

theorem Tracked.step (h : Tracked s) (hadmits : ∀ s i q, admits s i q → Admits env s i q)
    (hstep : Step (handle env) admits s s') : Tracked s' := by
  cases hstep with
  | receive free admitted => exact h.receive (hadmits s _ _ admitted)
  | @advance i q next after working =>
    refine h.of_le fun j q' p hj => ?_
    rcases update_some_iff.mp hj with ⟨rfl, heq⟩ | ⟨-, hj⟩
    · obtain ⟨rfl, -⟩ := Prod.mk.inj heq
      exact ⟨_, working⟩
    · exact ⟨p, hj⟩
  | @fail i q next after e working =>
    refine h.of_le fun j q' p hj => ?_
    rcases update_some_iff.mp hj with ⟨rfl, heq⟩ | ⟨-, hj⟩
    · obtain ⟨rfl, -⟩ := Prod.mk.inj heq
      exact ⟨_, working⟩
    · exact ⟨p, hj⟩
  | finish ended => exact h.finish ended
  | drop i => exact h.of_le fun j q p hj => ⟨p, (update_none_iff.mp hj).2⟩

theorem reaches_tracked (ok : Request D F → Prop) (hs : Tracked s) (h : Serves env s s')
    (hok : ∀ x ∈ s'.received, ok x.2) :
    Reaches (handle env) (fun s i q => Admits env s i q ∧ Tracked s ∧
      (∀ x ∈ s.received, ok x.2) ∧ ok q) s s' := by
  obtain ⟨⟨new, hnew⟩, -⟩ := Reaches.logs h
  rw [hnew] at hok
  have hrestricted : Reaches (handle env) (fun s i q => Admits env s i q ∧ ok q) s s' :=
    h.restrict hnew fun x hx => hok x (List.mem_append_right _ hx)
  have hstart : Tracked s ∧ ∀ x ∈ s.received, ok x.2 :=
    ⟨hs, fun x hx => hok x (List.mem_append_left _ hx)⟩
  obtain ⟨-, hreach⟩ := hrestricted.keeps
    (P := fun s => Tracked s ∧ ∀ x ∈ s.received, ok x.2) hstart fun s s' hs hstep => by
    refine ⟨hs.1.step (fun _ _ _ hadmits => hadmits.1) hstep, ?_⟩
    cases hstep with
    | receive free admitted =>
      intro x hx
      rcases List.mem_append.mp hx with hx | hx
      · exact hs.2 x hx
      · obtain rfl := List.mem_singleton.mp hx
        exact admitted.2
    | _ => exact hs.2
  exact hreach.mono fun s i q h => ⟨h.1.1, h.2.1, h.2.2, h.1.2⟩

end Runs

section Conflicts

def registered : ConnectionMessages D F → List String
  | .newUser username _ => [username]
  | _ => []

def usernames : ConnectionMessages D F → List String
  | .newUser username _ => [username]
  | .userLogin username _ => [username]
  | _ => []

/-- Neither message moves, takes away or registers what the other one names. -/
structure Compatible (m m' : ConnectionMessages D F) : Prop where
  left : ∀ id ∈ m.targets, id ∉ m'.named
  right : ∀ id ∈ m'.targets, id ∉ m.named
  leftUser : ∀ username ∈ registered m, username ∉ usernames m'
  rightUser : ∀ username ∈ registered m', username ∉ usernames m

variable {i j : ι} {request request' : Request D F}

def Key.OneOf (i : ι) (ids : List Ulid) (names : List String) : Key ι → Prop
  | .file id => id ∈ ids
  | .account username => username ∈ names
  | .openFiles connection => connection = i

theorem oneOf_of_own {k : Key ι} (h : k ∈ ownKeys i request) :
    k.OneOf i (request.fresh :: request.message.targets) (registered request.message) := by
  obtain ⟨fresh, message⟩ := request
  cases message <;> cases k <;>
    simp_all [ownKeys, Key.OneOf, registered, ConnectionMessages.targets]

theorem oneOf_of_seen {k : Key ι} (h : k ∈ seenKeys i request) :
    k.OneOf i (request.fresh :: request.message.named) (usernames request.message) := by
  obtain ⟨fresh, message⟩ := request
  cases message <;> cases k <;>
    simp_all [seenKeys, Key.OneOf, usernames, ConnectionMessages.named]

theorem targets_subset_named (message : ConnectionMessages D F) :
    message.targets ⊆ message.named := by
  cases message with
  | files message => exact targets_subset message
  | _ => exact List.nil_subset _

/-- Requests of different connections, with different identifiers that the other one does not
name. -/
theorem ownKeys_apart (hij : i ≠ j) (hfresh : request.fresh ≠ request'.fresh)
    (h : request.fresh ∉ request'.message.named) (h' : request'.fresh ∉ request.message.named)
    (hfiles : ∀ id ∈ request.message.targets, id ∉ request'.message.named)
    (husers : ∀ username ∈ registered request.message, username ∉ usernames request'.message) :
    ∀ k ∈ ownKeys i request, k ∉ seenKeys j request' := by
  intro k hown hseen
  have hown := oneOf_of_own hown
  have hseen := oneOf_of_seen hseen
  cases k with
  | file id =>
    rcases List.mem_cons.mp hown with rfl | hown <;> rcases List.mem_cons.mp hseen with heq | hseen
    · exact hfresh heq
    · exact h hseen
    · exact h' (heq ▸ targets_subset_named _ hown)
    · exact hfiles id hown hseen
  | account username => exact husers username hown hseen
  | openFiles l => exact hij (hown.symm.trans hseen)

end Conflicts

section Serially

variable [DecidableEq ι] [Field F] [DataField F] {env : Environment F}

/-- A request is taken only when it is compatible with those that are not finished. -/
def Fits (s : Connections ι D env) (i : ι) (request : Request D F) : Prop :=
  Admits env s i request ∧
    ∀ j q p, s.inProgress j = some (q, p) → Compatible request.message q.message

omit [DecidableEq ι] in
theorem Fits.apart {s : Connections ι D env} {i : ι} {request : Request D F}
    (hs : Tracked s) (free : s.inProgress i = none) (h : Fits s i request) :
    (footprint ι D F).Apart s i request := by
  intro j q p hj
  obtain ⟨hadmits, hcompatible⟩ := h
  have hmem := hs.working j q p hj
  have hfits := hcompatible j q p hj
  have hne : i ≠ j := by
    intro heq
    subst heq
    cases free.symm.trans hj
  have hundrawn := hadmits.undrawn _ hmem
  have hunnamed := hadmits.unnamed _ hmem
  have hunguessed := hadmits.unguessed j q p hj
  exact ⟨ownKeys_apart hne hundrawn.symm hunnamed hunguessed hfits.left hfits.leftUser,
    ownKeys_apart hne.symm hundrawn hunguessed hunnamed hfits.right hfits.rightUser⟩

def opened (t : Server D) : Store ι D where
  toServer := t
  users _ := none
  user _ := none
  openFiles _ _ := false

def overlapping (i : Bool) : Request byteSum (ZMod 257) :=
  if i then ⟨3, .files (.uploadNewFile "other" [7] 1 2)⟩
  else ⟨2, .files (.requestFile (firstUpload 2 1 2 2 6))⟩

def oneReceived : Connections Bool byteSum fermatEnvironment where
  shared := opened (holding (firstUpload 2 1 2 2 6) [1, 2])
  inProgress := Function.update (fun _ => none) false
    (some (overlapping false, handle fermatEnvironment false (overlapping false)))
  received := [(false, overlapping false)]
  finished := []

omit [DecidableEq ι] in
theorem admits_start {store : Store ι D} {i : ι} {request : Request D F}
    (hdisk : store.disk request.fresh = none) (hdatabase : store.database request.fresh = none)
    (hown : request.fresh ∉ request.message.named) :
    Admits env (System.start store : Connections ι D env) i request where
  alive _ h := by cases h
  disk := hdisk
  database := hdatabase
  undrawn _ h := by cases h
  unnamed _ h := by cases h
  notOwn := hown
  unguessed _ _ _ h := by cases h

theorem fits_first : Fits (System.start (opened (holding (firstUpload 2 1 2 2 6) [1, 2])) :
    Connections Bool byteSum fermatEnvironment) false (overlapping false) :=
  ⟨admits_start (by decide) rfl (by decide), fun _ _ _ h => by cases h⟩

theorem fits_second : Fits oneReceived true (overlapping true) := by
  have hfirst : ∀ j q p, oneReceived.inProgress j = some (q, p) → q = overlapping false := by
    intro j q p h
    cases j with
    | false => exact (Prod.mk.inj (Option.some.inj h)).1.symm
    | true => cases h
  constructor
  · constructor
    case alive => exact fun _ h => by cases h
    case disk => decide
    case database => rfl
    case undrawn =>
      intro x hx
      rw [List.mem_singleton.mp hx]
      decide
    case unnamed =>
      intro x hx
      rw [List.mem_singleton.mp hx]
      decide
    case notOwn => decide
    case unguessed =>
      intro j q p h
      rw [hfirst j q p h]
      decide
  · intro j q p h
    rw [hfirst j q p h]
    constructor
    case left => exact fun _ h => by cases h
    case right => exact fun _ h => by cases h
    case leftUser => exact fun _ h => by cases h
    case rightUser => exact fun _ h => by cases h

end Serially

end NetworkInterleavings
