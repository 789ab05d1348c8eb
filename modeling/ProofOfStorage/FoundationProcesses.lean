import ProofOfStorage.FoundationRuns
import Mathlib.Logic.Function.Basic

/-! # Processes that share a state

A process works in steps, and between two of its steps others change the state they share. What it
ensures amid the others follows from what it relies on them to leave alone.
-/
namespace FoundationProcesses

open FoundationFaults FoundationRuns

/-- What is left to do. A step reads the shared state and leaves another one. -/
inductive Process (σ ε α : Type) where
  | done (result : Fallible ε α)
  | step (next : σ → Process σ ε α) (after : σ → σ)

variable {σ τ ε α β γ : Type}

namespace Process

def bind : Process σ ε α → (α → Process σ ε β) → Process σ ε β
  | done (.ok a), f => f a
  | done (.error e), _ => done (.error e)
  | step next after, f => step (fun s => (next s).bind f) after

instance : Monad (Process σ ε) where
  pure a := done (.ok a)
  bind := bind

protected theorem bind_pure (t : Process σ ε α) : t.bind (fun a => done (.ok a)) = t := by
  induction t with
  | done result => cases result <;> rfl
  | step next after ih => exact congrArg (step · after) (funext ih)

protected theorem bind_assoc (t : Process σ ε α) (f : α → Process σ ε β) (g : β → Process σ ε γ) :
    (t.bind f).bind g = t.bind fun a => (f a).bind g := by
  induction t with
  | done result => cases result <;> rfl
  | step next after ih => exact congrArg (step · after) (funext ih)

instance lawfulMonad_process : LawfulMonad (Process σ ε) :=
  LawfulMonad.mk' (Process σ ε) Process.bind_pure (fun _ _ => rfl) Process.bind_assoc

end Process

open Process

def outcomeOf : EStateM.Result (Fault ε) σ α → Fallible ε α × σ
  | .ok a s => (.ok a, s)
  | .error e s => (.error e, s)

theorem outcomeOf_ok {r : EStateM.Result (Fault ε) σ α} {a : α} (h : (outcomeOf r).1 = .ok a) :
    r = .ok a (outcomeOf r).2 := by
  cases r with
  | ok b s => exact congrArg (EStateM.Result.ok · s) (Except.ok.inj h)
  | error e s => cases h

/-- One access to the shared state, which nothing comes between. -/
def atomic (x : Stateful ε σ α) : Process σ ε α :=
  .step (fun s => .done (outcomeOf (x.run s)).1) (fun s => (outcomeOf (x.run s)).2)

def onPart (part : τ → σ) (set : τ → σ → τ) : Process σ ε α → Process τ ε α
  | .done result => .done result
  | .step next after =>
    .step (fun t => onPart part set (next (part t))) (fun t => set t (after (part t)))

/-- The process with nothing between its steps. -/
def alone : Process σ ε α → Stateful ε σ α
  | .done result => lift result
  | .step next after => fun s => (alone (next s)) (after s)

section Alone

theorem run_alone_step (next : σ → Process σ ε α) (after : σ → σ) (s : σ) :
    (alone (.step next after)).run s = (alone (next s)).run (after s) := rfl

theorem alone_done (result : Fallible ε α) :
    alone (.done result : Process σ ε α) = lift result := rfl

theorem alone_bind (t : Process σ ε α) (f : α → Process σ ε β) :
    alone (t >>= f) = alone t >>= fun a => alone (f a) := by
  induction t with
  | done result => cases result <;> rfl
  | step next after ih =>
    funext s
    exact congrFun (ih s) (after s)

theorem alone_atomic (x : Stateful ε σ α) : alone (atomic x) = x := by
  funext s
  change (lift (outcomeOf (x s)).1 : Stateful ε σ α) (outcomeOf (x s)).2 = x s
  cases x s <;> rfl

theorem alone_onPart {part : τ → σ} {set : τ → σ → τ} (hget : ∀ t s, part (set t s) = s)
    (hset : ∀ t s s', set (set t s) s' = set t s') (hsame : ∀ t, set t (part t) = t)
    (t : Process σ ε α) : alone (onPart part set t) = zoom part set (alone t) := by
  induction t with
  | done result =>
    funext t
    cases result with
    | ok a => exact congrArg (EStateM.Result.ok a) (hsame t).symm
    | error e => exact congrArg (EStateM.Result.error e) (hsame t).symm
  | step next after ih =>
    funext t
    have hrun := congrFun (ih (part t)) (set t (after (part t)))
    change alone (onPart part set (next (part t))) (set t (after (part t))) = _
    rw [hrun]
    unfold zoom
    rw [hget, run_alone_step]
    cases (alone (next (part t))).run (after (part t)) with
    | ok a s => exact congrArg (EStateM.Result.ok a) (hset ..)
    | error e s => exact congrArg (EStateM.Result.error e) (hset ..)

end Alone

def Effects (effect : σ → σ → Prop) (x : Stateful ε σ α) : Prop :=
  ∀ s, effect s (outcomeOf (x.run s)).2

/-- The code cannot tell states apart that are the `same`. -/
def Respects (same : σ → σ → Prop) (x : Stateful ε σ α) : Prop :=
  ∀ s s', same s s' → (outcomeOf (x.run s)).1 = (outcomeOf (x.run s')).1 ∧
    same (outcomeOf (x.run s)).2 (outcomeOf (x.run s')).2

def Within (effect : σ → σ → Prop) : Process σ ε α → Prop
  | .done _ => True
  | .step next after => ∀ s, effect s (after s) ∧ Within effect (next s)

/-- The others do what `rely` allows and keep the invariant. Then every step keeps it too, and where
the process ends its result is `good`. -/
def Amid (rely : σ → σ → Prop) (inv : σ → Prop) (good : Fallible ε α → σ → Prop) :
    Process σ ε α → σ → Prop
  | .done result, s => ∀ s', rely s s' → inv s' → good result s'
  | .step next after, s =>
    ∀ s', rely s s' → inv s' → inv (after s') ∧ Amid rely inv good (next s') (after s')

def Local (same : σ → σ → Prop) : Process σ ε α → Prop
  | .done _ => True
  | .step next after =>
    (∀ s s', same s s' → next s = next s' ∧ same (after s) (after s')) ∧ ∀ s, Local same (next s)

section Rules

variable {effect : σ → σ → Prop} {rely : σ → σ → Prop} {inv : σ → Prop}
  {good : Fallible ε α → σ → Prop}

theorem exists_lift_bind {y : Fallible ε α} {f : α → Stateful ε σ β}
    (h : ∀ a, ∃ z, f a = FoundationFaults.lift z) :
    ∃ z, (FoundationFaults.lift y >>= f) = FoundationFaults.lift z := by
  cases y with
  | ok a => exact h a
  | error e => exact ⟨.error e, rfl⟩

theorem run_lift_bind_congr {y : Fallible ε α} {f g : α → Stateful ε σ β} {s : σ}
    (h : ∀ a, y = .ok a → (f a).run s = (g a).run s) :
    (FoundationFaults.lift y >>= f).run s = (FoundationFaults.lift y >>= g).run s := by
  cases y with
  | ok a => exact h a rfl
  | error e => rfl

theorem Effects.lift (hrefl : ∀ s, effect s s) (y : Fallible ε α) :
    Effects effect (lift y : Stateful ε σ α) := by
  intro s
  cases y <;> exact hrefl s

theorem Effects.bind (htrans : ∀ a b c, effect a b → effect b c → effect a c)
    {x : Stateful ε σ α} {f : α → Stateful ε σ β} (hx : Effects effect x)
    (hf : ∀ a, Effects effect (f a)) : Effects effect (x >>= f) := by
  intro s
  have hfirst := hx s
  rw [EStateM.run_bind]
  cases hrun : x.run s with
  | ok a s₁ =>
    rw [hrun] at hfirst
    exact htrans _ _ _ hfirst (hf a s₁)
  | error e s₁ =>
    rw [hrun] at hfirst
    exact hfirst

theorem Within.pure (a : α) : Within effect (Pure.pure a : Process σ ε α) := trivial

theorem Within.done (result : Fallible ε α) : Within effect (Process.done result : Process σ ε α) :=
  trivial

theorem Within.bind {t : Process σ ε α} {f : α → Process σ ε β} (ht : Within effect t)
    (hf : ∀ a, Within effect (f a)) : Within effect (t >>= f) := by
  induction t with
  | done result =>
    cases result with
    | ok a => exact hf a
    | error e => exact trivial
  | step next after ih => exact fun s => ⟨(ht s).1, ih s (ht s).2⟩

theorem Within.atomic {x : Stateful ε σ α} (h : Effects effect x) :
    Within effect (FoundationProcesses.atomic x) := fun s => ⟨h s, trivial⟩

theorem Within.mono {effect' : σ → σ → Prop} {t : Process σ ε α} (h : Within effect t)
    (himp : ∀ s s', effect s s' → effect' s s') : Within effect' t := by
  induction t with
  | done result => exact trivial
  | step next after ih => exact fun s => ⟨himp _ _ (h s).1, ih s (h s).2⟩

theorem Within.forall {ι : Sort*} {effects : ι → σ → σ → Prop} {t : Process σ ε α}
    (h : ∀ i, Within (effects i) t) : Within (fun a b => ∀ i, effects i a b) t := by
  induction t with
  | done result => exact trivial
  | step next after ih => exact fun s => ⟨fun i => (h i s).1, ih s fun i => (h i s).2⟩

theorem Within.and {effect' : σ → σ → Prop} {t : Process σ ε α} (h : Within effect t)
    (h' : Within effect' t) : Within (fun a b => effect a b ∧ effect' a b) t := by
  induction t with
  | done result => exact trivial
  | step next after ih => exact fun s => ⟨⟨(h s).1, (h' s).1⟩, ih s (h s).2 (h' s).2⟩

theorem Within.of_forall {t : Process σ ε α} (h : ∀ a b, effect a b) : Within effect t := by
  induction t with
  | done result => exact trivial
  | step next after ih => exact fun s => ⟨h _ _, ih s⟩

theorem Within.effects_alone (hrefl : ∀ a, effect a a)
    (htrans : ∀ a b c, effect a b → effect b c → effect a c) {t : Process σ ε α}
    (h : Within effect t) : Effects effect (alone t) := by
  induction t with
  | done result => exact .lift hrefl result
  | step next after ih => exact fun s => htrans _ _ _ (h s).1 (ih s (h s).2 _)

theorem Within.onPart {part : τ → σ} {set : τ → σ → τ} {effect' : τ → τ → Prop} {t : Process σ ε α}
    (h : Within effect t) (himp : ∀ t s, effect (part t) s → effect' t (set t s)) :
    Within effect' (onPart part set t) := by
  induction t with
  | done result => exact trivial
  | step next after ih => exact fun s => ⟨himp _ _ (h _).1, ih _ (h _).2⟩

theorem Within.onPart_of_forall {part : τ → σ} {set : τ → σ → τ} {effect' : τ → τ → Prop}
    {t : Process σ ε α} (h : ∀ t s, effect' t (set t s)) :
    Within effect' (FoundationProcesses.onPart part set t) :=
  Within.onPart (Within.of_forall fun _ _ => trivial) fun t s _ => h t s

theorem Amid.stable (htrans : ∀ a b c, rely a b → rely b c → rely a c) {t : Process σ ε α}
    {s s' : σ} (h : Amid rely inv good t s) (hrely : rely s s') : Amid rely inv good t s' := by
  cases t with
  | done result => exact fun s'' h' hinv => h s'' (htrans _ _ _ hrely h') hinv
  | step next after => exact fun s'' h' hinv => h s'' (htrans _ _ _ hrely h') hinv

theorem Amid.mono {good' : Fallible ε α → σ → Prop} {t : Process σ ε α} {s : σ}
    (h : Amid rely inv good t s) (hgood : ∀ r s, good r s → good' r s) :
    Amid rely inv good' t s := by
  induction t generalizing s with
  | done result => exact fun s' hrely hinv => hgood _ _ (h s' hrely hinv)
  | step next after ih =>
    intro s' hrely hinv
    obtain ⟨hkept, hnext⟩ := h s' hrely hinv
    exact ⟨hkept, ih s' hnext⟩

theorem Amid.of_later (hrefl : ∀ s s', rely s s' → rely s' s') {t : Process σ ε α} {s : σ}
    (h : ∀ s', rely s s' → inv s' → Amid rely inv good t s') : Amid rely inv good t s := by
  cases t with
  | done result => exact fun s' hrely hinv => h s' hrely hinv s' (hrefl s s' hrely) hinv
  | step next after => exact fun s' hrely hinv => h s' hrely hinv s' (hrefl s s' hrely) hinv

/-- What follows a first part takes over where the part ends; an error ends the process. -/
theorem Amid.bind (hrefl : ∀ s s', rely s s' → rely s' s') {good' : Fallible ε β → σ → Prop}
    {t : Process σ ε α} {f : α → Process σ ε β} {s : σ}
    (ht : Amid rely inv (fun r s => match r with
      | .ok a => Amid rely inv good' (f a) s
      | .error e => good' (.error e) s) t s) :
    Amid rely inv good' (t >>= f) s := by
  induction t generalizing s with
  | done result =>
    cases result with
    | ok a => exact Amid.of_later hrefl ht
    | error e => exact ht
  | step next after ih =>
    intro s' hrely hinv
    obtain ⟨hkept, hnext⟩ := ht s' hrely hinv
    exact ⟨hkept, ih s' hnext⟩

theorem Amid.done (result : Fallible ε α) {s : σ}
    (h : ∀ s', rely s s' → inv s' → good result s') :
    Amid rely inv good (Process.done result) s := h

theorem Amid.atomic (x : Stateful ε σ α) {s : σ}
    (h : ∀ s', rely s s' → inv s' → inv (outcomeOf (x.run s')).2 ∧
      ∀ s'', rely (outcomeOf (x.run s')).2 s'' → inv s'' → good (outcomeOf (x.run s')).1 s'') :
    Amid rely inv good (FoundationProcesses.atomic x) s := h

theorem Amid.done_bind {y : Fallible ε α} {f : α → Process σ ε β}
    {good' : Fallible ε β → σ → Prop} {s : σ} (herror : ∀ e s, good' (.error e) s)
    (h : ∀ a, y = .ok a → Amid rely inv good' (f a) s) :
    Amid rely inv good' (Process.done y >>= f) s := by
  cases y with
  | ok a => exact h a rfl
  | error e => exact fun s' _ _ => herror e s'

theorem Amid.atomic_bind {x : Stateful ε σ α} {f : α → Process σ ε β}
    {good' : Fallible ε β → σ → Prop} {s : σ} (herror : ∀ e s, good' (.error e) s)
    (h : ∀ s', rely s s' → inv s' → inv (outcomeOf (x.run s')).2 ∧
      ∀ a, (outcomeOf (x.run s')).1 = .ok a →
        Amid rely inv good' (f a) (outcomeOf (x.run s')).2) :
    Amid rely inv good' (FoundationProcesses.atomic x >>= f) s := by
  intro s' hrely hinv
  obtain ⟨hkept, hnext⟩ := h s' hrely hinv
  refine ⟨hkept, ?_⟩
  exact Amid.done_bind herror hnext

theorem Amid.onPart {part : τ → σ} {set : τ → σ → τ} (hget : ∀ t s, part (set t s) = s)
    {p : Process σ ε α} {t : τ} (h : Amid rely inv good p (part t)) :
    Amid (fun a b => rely (part a) (part b)) (fun a => inv (part a))
      (fun r a => good r (part a)) (FoundationProcesses.onPart part set p) t := by
  induction p generalizing t with
  | done result => exact fun t' hrely hinv => h (part t') hrely hinv
  | step next after ih =>
    intro t' hrely hinv
    obtain ⟨hkept, hnext⟩ := h (part t') hrely hinv
    rw [← hget t' (after (part t'))] at hkept hnext
    exact ⟨hkept, ih _ hnext⟩

theorem Within.amid {t : Process σ ε α} (h : Within (fun a b => inv a → inv b) t) (s : σ) :
    Amid rely inv (fun _ _ => True) t s := by
  induction t generalizing s with
  | done result => exact fun _ _ _ => trivial
  | step next after ih => exact fun s' _ hinv => ⟨(h s').1 hinv, ih s' (h s').2 _⟩

end Rules

section Localities

variable {same : σ → σ → Prop}

theorem Respects.lift (y : Fallible ε α) : Respects same (lift y : Stateful ε σ α) := by
  intro s s' h
  cases y <;> exact ⟨rfl, h⟩

theorem Respects.bind {x : Stateful ε σ α} {f : α → Stateful ε σ β} (hx : Respects same x)
    (hf : ∀ a, Respects same (f a)) : Respects same (x >>= f) := by
  intro s s' h
  obtain ⟨hresult, hsame⟩ := hx s s' h
  rw [EStateM.run_bind, EStateM.run_bind]
  cases hrun : x.run s with
  | ok a s₁ =>
    cases hrun' : x.run s' with
    | ok a' s₁' =>
      rw [hrun, hrun'] at hresult hsame
      obtain rfl := Except.ok.inj hresult
      exact hf a s₁ s₁' hsame
    | error e s₁' =>
      rw [hrun, hrun'] at hresult
      cases hresult
  | error e s₁ =>
    cases hrun' : x.run s' with
    | ok a' s₁' =>
      rw [hrun, hrun'] at hresult
      cases hresult
    | error e' s₁' =>
      rw [hrun, hrun'] at hresult hsame
      obtain rfl := Except.error.inj hresult
      exact ⟨rfl, hsame⟩

theorem Local.done (result : Fallible ε α) : Local same (Process.done result : Process σ ε α) :=
  trivial

theorem Local.pure (a : α) : Local same (Pure.pure a : Process σ ε α) := trivial

theorem Local.atomic {x : Stateful ε σ α} (h : Respects same x) :
    Local same (FoundationProcesses.atomic x) := by
  refine ⟨fun s s' hsame => ?_, fun _ => trivial⟩
  obtain ⟨hresult, hafter⟩ := h s s' hsame
  exact ⟨congrArg Process.done hresult, hafter⟩

theorem Local.bind {p : Process σ ε α} {f : α → Process σ ε β} (hp : Local same p)
    (hf : ∀ a, Local same (f a)) : Local same (p >>= f) := by
  induction p with
  | done result =>
    cases result with
    | ok a => exact hf a
    | error e => exact trivial
  | step next after ih =>
    refine ⟨fun s s' h => ?_, fun s => ih s (hp.2 s)⟩
    obtain ⟨hnext, hafter⟩ := hp.1 s s' h
    exact ⟨congrArg (Process.bind · f) hnext, hafter⟩

theorem Local.onPart {part : τ → σ} {set : τ → σ → τ} {same' : τ → τ → Prop} {p : Process σ ε α}
    (h : Local same p) (hpart : ∀ t t', same' t t' → same (part t) (part t'))
    (hset : ∀ t t' s s', same' t t' → same s s' → same' (set t s) (set t' s')) :
    Local same' (onPart part set p) := by
  induction p with
  | done result => exact trivial
  | step next after ih =>
    refine ⟨fun t t' ht => ?_, fun t => ih _ (h.2 _)⟩
    obtain ⟨hnext, hafter⟩ := h.1 _ _ (hpart t t' ht)
    exact ⟨congrArg (FoundationProcesses.onPart part set) hnext, hset _ _ _ _ ht hafter⟩

theorem Local.respects_alone {p : Process σ ε α} (h : Local same p) :
    Respects same (alone p) := by
  induction p with
  | done result => exact .lift result
  | step next after ih =>
    intro s s' hsame
    obtain ⟨hnext, hafter⟩ := h.1 s s' hsame
    rw [run_alone_step, run_alone_step, ← hnext]
    exact ih s (h.2 s) _ _ hafter

/-- A process that others leave what it can tell apart has the result that it has alone, and where
it ends the state is the one that it leaves alone, as far as it can tell. -/
theorem Local.amid (htrans : ∀ a b c, same a b → same b c → same a c) {p : Process σ ε α}
    (h : Local same p) {t s : σ} (hsame : same t s) :
    Amid same (fun _ => True) (fun result s' =>
      result = (outcomeOf ((alone p).run t)).1 ∧ same (outcomeOf ((alone p).run t)).2 s') p s := by
  induction p generalizing s t with
  | done result =>
    intro s' hrely _
    cases result <;> exact ⟨rfl, htrans _ _ _ hsame hrely⟩
  | step next after ih =>
    intro s' hrely _
    obtain ⟨hnext, hafter⟩ := h.1 t s' (htrans _ _ _ hsame hrely)
    refine ⟨trivial, ?_⟩
    rw [run_alone_step, hnext]
    exact ih s' (h.2 s') hafter

end Localities

end FoundationProcesses
