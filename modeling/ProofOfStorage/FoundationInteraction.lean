import ProofOfStorage.FoundationFaults

/-! # Programs that talk to a peer

A program sends messages, waits for replies and works on a state of its own. It is run on a list
of replies, or against a peer that answers each message from its own state.
-/
namespace FoundationInteraction

open FoundationFaults

/-- A reply of `none` is a connection that failed or was closed. -/
inductive Interaction (Q R σ ε α : Type) where
  | done (result : Fallible ε α)
  | send (message : Q) (next : Interaction Q R σ ε α)
  | receive (next : Option R → Interaction Q R σ ε α)
  | perform (action : Stateful ε σ Unit) (next : Interaction Q R σ ε α)

variable {Q R σ τ ε α β γ : Type}

namespace Interaction

def bind : Interaction Q R σ ε α → (α → Interaction Q R σ ε β) → Interaction Q R σ ε β
  | done (.ok a), f => f a
  | done (.error e), _ => done (.error e)
  | send message next, f => send message (next.bind f)
  | receive next, f => receive fun reply => (next reply).bind f
  | perform action next, f => perform action (next.bind f)

instance : Monad (Interaction Q R σ ε) where
  pure a := done (.ok a)
  bind := bind

protected theorem bind_pure (p : Interaction Q R σ ε α) : p.bind (fun a => done (.ok a)) = p := by
  induction p with
  | done result => cases result <;> rfl
  | send message next ih => exact congrArg (send message) ih
  | receive next ih => exact congrArg receive (funext ih)
  | perform action next ih => exact congrArg (perform action) ih

protected theorem bind_assoc (p : Interaction Q R σ ε α) (f : α → Interaction Q R σ ε β)
    (g : β → Interaction Q R σ ε γ) : (p.bind f).bind g = p.bind fun a => (f a).bind g := by
  induction p with
  | done result => cases result <;> rfl
  | send message next ih => exact congrArg (send message) ih
  | receive next ih => exact congrArg receive (funext ih)
  | perform action next ih => exact congrArg (perform action) ih

instance lawfulMonad_interaction : LawfulMonad (Interaction Q R σ ε) :=
  LawfulMonad.mk' (Interaction Q R σ ε) Interaction.bind_pure (fun _ _ => rfl)
    Interaction.bind_assoc

end Interaction

structure Outcome (Q σ ε α : Type) where
  result : Fallible ε α
  sent : List Q
  state : σ

open Interaction

/-- Run a program on the replies it will receive. -/
def replay : Interaction Q R σ ε α → σ → List (Option R) → Outcome Q σ ε α
  | done result, s, _ => ⟨result, [], s⟩
  | send message next, s, replies =>
    let outcome := replay next s replies
    { outcome with sent := message :: outcome.sent }
  | receive next, s, replies => replay (next (replies.headD none)) s replies.tail
  | perform action next, s, replies =>
    match action.run s with
    | .ok _ s' => replay next s' replies
    | .error e s' => ⟨.error e, [], s'⟩

/-- A peer answers every message; `none` when it fails to. -/
abbrev Peer (Q R τ : Type) := Q → τ → Option R × τ

/-- A program together with the peer it talked to: the peer's answers, in order, and its state. -/
structure Conversation (Q R σ τ ε α : Type) extends Outcome Q σ ε α where
  answers : List (Option R)
  peer : τ

def Conversation.prepend (conversation : Conversation Q R σ τ ε α) (message : Q)
    (answer : Option R) : Conversation Q R σ τ ε α :=
  { conversation with
    sent := message :: conversation.sent
    answers := answer :: conversation.answers }

/-- Run a program against a peer. Answers wait in `pending` until they are received. -/
def converse (serve : Peer Q R τ) :
    Interaction Q R σ ε α → σ → τ → List (Option R) → Conversation Q R σ τ ε α
  | done result, s, t, _ => { result, sent := [], state := s, answers := [], peer := t }
  | send message next, s, t, pending =>
    let answer := serve message t
    (converse serve next s answer.2 (pending ++ [answer.1])).prepend message answer.1
  | receive next, s, t, pending => converse serve (next (pending.headD none)) s t pending.tail
  | perform action next, s, t, pending =>
    match action.run s with
    | .ok _ s' => converse serve next s' t pending
    | .error e s' => { result := .error e, sent := [], state := s', answers := [], peer := t }

def answersTo (serve : Peer Q R τ) : τ → List Q → List (Option R)
  | _, [] => []
  | t, message :: messages => (serve message t).1 :: answersTo serve (serve message t).2 messages

def peerAfter (serve : Peer Q R τ) (t : τ) (messages : List Q) : τ :=
  messages.foldl (fun t message => (serve message t).2) t

/-- A conversation is a run of the program on some replies. -/
theorem converse_replays (serve : Peer Q R τ) (p : Interaction Q R σ ε α) (s : σ) (t : τ)
    (pending : List (Option R)) :
    ∃ replies, (converse serve p s t pending).toOutcome = replay p s (pending ++ replies) := by
  induction p generalizing s t pending with
  | done result => exact ⟨[], rfl⟩
  | send message next ih =>
    obtain ⟨replies, h⟩ := ih s (serve message t).2 (pending ++ [(serve message t).1])
    refine ⟨(serve message t).1 :: replies, ?_⟩
    rw [List.append_assoc] at h
    exact congrArg (fun o : Outcome Q σ ε α => { o with sent := message :: o.sent }) h
  | receive next ih =>
    cases pending with
    | nil =>
      obtain ⟨replies, h⟩ := ih none s t []
      exact ⟨none :: replies, h⟩
    | cons reply pending =>
      obtain ⟨replies, h⟩ := ih reply s t pending
      exact ⟨replies, h⟩
  | perform action next ih =>
    unfold converse replay
    cases action.run s with
    | ok _ s' => exact ih s' t pending
    | error e s' => exact ⟨[], rfl⟩

/-- The peer has answered the messages that were sent, and nothing else has happened to it. -/
theorem converse_answers (serve : Peer Q R τ) (p : Interaction Q R σ ε α) (s : σ) (t : τ)
    (pending : List (Option R)) :
    (converse serve p s t pending).answers =
      answersTo serve t (converse serve p s t pending).sent ∧
    (converse serve p s t pending).peer =
      peerAfter serve t (converse serve p s t pending).sent := by
  induction p generalizing s t pending with
  | done result => exact ⟨rfl, rfl⟩
  | send message next ih =>
    obtain ⟨hanswers, hpeer⟩ := ih s (serve message t).2 (pending ++ [(serve message t).1])
    exact ⟨congrArg ((serve message t).1 :: ·) hanswers, hpeer⟩
  | receive next ih => exact ih (pending.headD none) s t pending.tail
  | perform action next ih =>
    unfold converse
    cases action.run s with
    | ok _ s' => exact ih s' t pending
    | error e s' => exact ⟨rfl, rfl⟩

theorem peerAfter_append (serve : Peer Q R τ) (t : τ) (sent : List Q) (message : Q) :
    peerAfter serve t (sent ++ [message]) = (serve message (peerAfter serve t sent)).2 := by
  rw [peerAfter, List.foldl_append]
  rfl

theorem getLast?_answersTo (serve : Peer Q R τ) (t : τ) (sent : List Q) (message : Q) :
    (answersTo serve t (sent ++ [message])).getLast? =
      some (serve message (peerAfter serve t sent)).1 := by
  induction sent generalizing t with
  | nil => rfl
  | cons first sent ih =>
    have hlast := ih (serve first t).2
    rw [List.cons_append, answersTo, List.getLast?_cons, hlast]
    rfl

/-- Every message that the program can send satisfies `P`. -/
def Sends (P : Q → Prop) : Interaction Q R σ ε α → Prop
  | done _ => True
  | send message next => P message ∧ Sends P next
  | receive next => ∀ reply, Sends P (next reply)
  | perform _ next => Sends P next

/-- Every `final` message that the program can send is good, and it sends nothing after it. -/
def EndsIn (final good : Q → Prop) : Interaction Q R σ ε α → Prop
  | done _ => True
  | send message next =>
    (final message → good message ∧ Sends (fun _ => False) next) ∧ EndsIn final good next
  | receive next => ∀ reply, EndsIn final good (next reply)
  | perform _ next => EndsIn final good next

def Returns (G : α → Prop) : Interaction Q R σ ε α → Prop
  | done (.ok a) => G a
  | done (.error _) => True
  | send _ next => Returns G next
  | receive next => ∀ reply, Returns G (next reply)
  | perform _ next => Returns G next

section Rules

variable {P final good : Q → Prop} {p : Interaction Q R σ ε α} {f : α → Interaction Q R σ ε β}

theorem Sends.bind (hp : Sends P p) (hf : ∀ a, Sends P (f a)) : Sends P (p >>= f) := by
  induction p with
  | done result =>
    cases result with
    | ok a => exact hf a
    | error e => exact trivial
  | send message next ih => exact ⟨hp.1, ih hp.2⟩
  | receive next ih => exact fun reply => ih reply (hp reply)
  | perform action next ih => exact ih hp

theorem Sends.mem (hp : Sends P p) {s : σ} {replies : List (Option R)} {q : Q}
    (hq : q ∈ (replay p s replies).sent) : P q := by
  induction p generalizing s replies with
  | done result => cases hq
  | send message next ih =>
    rcases List.mem_cons.mp hq with rfl | hq
    · exact hp.1
    · exact ih hp.2 hq
  | receive next ih => exact ih _ (hp _) hq
  | perform action next ih =>
    unfold replay at hq
    cases haction : action.run s with
    | ok u s' =>
      rw [haction] at hq
      exact ih hp hq
    | error e s' =>
      rw [haction] at hq
      cases hq

theorem Sends.converse_silent (hp : Sends (fun _ => False) p) (serve : Peer Q R τ) (s : σ) (t : τ)
    (pending : List (Option R)) : (converse serve p s t pending).sent = [] ∧
      (converse serve p s t pending).answers = [] ∧ (converse serve p s t pending).peer = t := by
  obtain ⟨replies, hreplay⟩ := converse_replays serve p s t pending
  obtain ⟨hanswers, hpeer⟩ := converse_answers serve p s t pending
  have hsent : (converse serve p s t pending).sent = [] := by
    rw [hreplay]
    exact List.eq_nil_iff_forall_not_mem.mpr fun _ hq => hp.mem hq
  rw [hsent] at hanswers hpeer
  exact ⟨hsent, hanswers, hpeer⟩

theorem EndsIn.bind (hp : Sends (fun q => ¬final q) p) (hf : ∀ a, EndsIn final good (f a)) :
    EndsIn final good (p >>= f) := by
  induction p with
  | done result =>
    cases result with
    | ok a => exact hf a
    | error e => exact trivial
  | send message next ih => exact ⟨fun hfinal => absurd hfinal hp.1, ih hp.2⟩
  | receive next ih => exact fun reply => ih reply (hp reply)
  | perform action next ih => exact ih hp

theorem EndsIn.last (hp : EndsIn final good p) {s : σ} {replies : List (Option R)} {q : Q}
    (hq : q ∈ (replay p s replies).sent) (hfinal : final q) :
    good q ∧ ∃ before, (replay p s replies).sent = before ++ [q] := by
  induction p generalizing s replies with
  | done result => cases hq
  | send message next ih =>
    by_cases hmem : q ∈ (replay next s replies).sent
    · obtain ⟨hgood, before, hsent⟩ := ih hp.2 hmem
      exact ⟨hgood, message :: before, congrArg (message :: ·) hsent⟩
    · rcases List.mem_cons.mp hq with rfl | hq
      · obtain ⟨hgood, hsilent⟩ := hp.1 hfinal
        have hnil : (replay next s replies).sent = [] :=
          List.eq_nil_iff_forall_not_mem.mpr fun q' hq' => hsilent.mem hq'
        exact ⟨hgood, [], congrArg (q :: ·) hnil⟩
      · exact absurd hq hmem
  | receive next ih => exact ih _ (hp _) hq
  | perform action next ih =>
    unfold replay at hq ⊢
    cases haction : action.run s with
    | ok u s' =>
      rw [haction] at hq
      exact ih hp hq
    | error e s' =>
      rw [haction] at hq
      cases hq

theorem EndsIn.converse (hp : EndsIn final good p) {serve : Peer Q R τ} {s : σ} {t : τ} {q : Q}
    (hq : q ∈ (converse serve p s t []).sent) (hfinal : final q) :
    good q ∧ ∃ before, (converse serve p s t []).answers.getLast? =
        some (serve q (peerAfter serve t before)).1 ∧
      (converse serve p s t []).peer = (serve q (peerAfter serve t before)).2 := by
  obtain ⟨replies, hreplay⟩ := converse_replays serve p s t []
  obtain ⟨hanswers, hpeer⟩ := converse_answers serve p s t []
  rw [hreplay] at hq
  obtain ⟨hgood, before, hsent⟩ := hp.last hq hfinal
  rw [← hreplay] at hsent
  refine ⟨hgood, before, ?_, ?_⟩
  · rw [hanswers, hsent, getLast?_answersTo]
  · rw [hpeer, hsent, peerAfter_append]

variable {G : α → Prop} {H : β → Prop}

theorem Returns.bind (hp : Returns G p) (hf : ∀ a, G a → Returns H (f a)) :
    Returns H (p >>= f) := by
  induction p with
  | done result =>
    cases result with
    | ok a => exact hf a hp
    | error e => exact trivial
  | send message next ih => exact ih hp
  | receive next ih => exact fun reply => ih reply (hp reply)
  | perform action next ih => exact ih hp

theorem Returns.any (p : Interaction Q R σ ε α) : Returns (fun _ => True) p := by
  induction p with
  | done result => cases result <;> exact trivial
  | send message next ih => exact ih
  | receive next ih => exact ih
  | perform action next ih => exact ih

theorem Returns.bind_any (hf : ∀ a, Returns H (f a)) : Returns H (p >>= f) :=
  Returns.bind (Returns.any p) fun a _ => hf a

theorem Returns.result (hp : Returns G p) {s : σ} {replies : List (Option R)} {a : α}
    (h : (replay p s replies).result = .ok a) : G a := by
  induction p generalizing s replies with
  | done result =>
    change result = .ok a at h
    subst h
    exact hp
  | send message next ih => exact ih hp h
  | receive next ih => exact ih _ (hp _) h
  | perform action next ih =>
    unfold replay at h
    cases haction : action.run s with
    | ok u s' =>
      rw [haction] at h
      exact ih hp h
    | error e s' =>
      rw [haction] at h
      cases h

theorem receive_result {select : R → Option α} {next : Option R → Interaction Q R σ ε α}
    (htaken : ∀ reply a, select reply = some a → next (some reply) = pure a)
    (hrefused : ∀ reply : Option R, reply.bind select = none →
      ∃ e, next reply = .done (.error e))
    {f : α → Interaction Q R σ ε β} {s : σ} {replies : List (Option R)} {b : β}
    (h : (replay (.receive next >>= f) s replies).result = .ok b) :
    ∃ reply a, replies.head? = some (some reply) ∧ select reply = some a ∧
      (replay (f a) s replies.tail).result = .ok b := by
  change (replay (next (replies.headD none) >>= f) s replies.tail).result = .ok b at h
  cases hreply : (replies.headD none).bind select with
  | none =>
    obtain ⟨e, hfails⟩ := hrefused _ hreply
    rw [hfails] at h
    cases h
  | some a =>
    obtain ⟨reply, hhead, hselect⟩ := Option.bind_eq_some_iff.mp hreply
    rw [hhead, htaken reply a hselect] at h
    refine ⟨reply, a, ?_, hselect, h⟩
    cases replies with
    | nil => cases hhead
    | cons first replies => exact congrArg some hhead

end Rules

end FoundationInteraction
