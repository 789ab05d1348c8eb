import ProofOfStorage.FoundationProcesses
import Mathlib.Logic.Relation

/-! # Jobs that are worked on at the same time

Each name of a system works on one job at a time, and the steps of all the jobs come in any order. A
step can fail, and a job can be dropped. When each job keeps its contract, so does the system.
-/
namespace FoundationInterleaving

open FoundationFaults FoundationProcesses

variable {σ ε ι Q R : Type}

/-- What the jobs share and what is left of them, with the jobs that have come and the results of
those that were finished, in order. -/
structure System (ι Q R σ ε : Type) where
  shared : σ
  inProgress : ι → Option (Q × Process σ ε R)
  received : List (ι × Q)
  finished : List (ι × Q × Fallible ε R)

def System.start (s : σ) : System ι Q R σ ε := ⟨s, fun _ => none, [], []⟩

section Systems

variable [DecidableEq ι] (handle : ι → Q → Process σ ε R)
  (admits : System ι Q R σ ε → ι → Q → Prop)

/-- Each of the names works on one job at a time. -/
inductive Step : System ι Q R σ ε → System ι Q R σ ε → Prop where
  | receive {s : System ι Q R σ ε} {i : ι} {q : Q} (free : s.inProgress i = none)
      (admitted : admits s i q) :
      Step s { s with
        inProgress := Function.update s.inProgress i (some (q, handle i q))
        received := s.received ++ [(i, q)] }
  | advance {s : System ι Q R σ ε} {i : ι} {q : Q} {next : σ → Process σ ε R} {after : σ → σ}
      (working : s.inProgress i = some (q, .step next after)) :
      Step s { s with
        shared := after s.shared
        inProgress := Function.update s.inProgress i (some (q, next s.shared)) }
  | fail {s : System ι Q R σ ε} {i : ι} {q : Q} {next : σ → Process σ ε R} {after : σ → σ} (e : ε)
      (working : s.inProgress i = some (q, .step next after)) :
      Step s { s with
        inProgress := Function.update s.inProgress i (some (q, .done (.error (.error e)))) }
  | finish {s : System ι Q R σ ε} {i : ι} {q : Q} {result : Fallible ε R}
      (ended : s.inProgress i = some (q, .done result)) :
      Step s { s with
        inProgress := Function.update s.inProgress i none
        finished := s.finished ++ [(i, q, result)] }
  | drop (s : System ι Q R σ ε) (i : ι) :
      Step s { s with inProgress := Function.update s.inProgress i none }

abbrev Reaches : System ι Q R σ ε → System ι Q R σ ε → Prop :=
  Relation.ReflTransGen (Step handle admits)

variable {handle admits} {s s' : System ι Q R σ ε}

theorem Step.logs (h : Step handle admits s s') :
    (∃ new, s'.received = s.received ++ new) ∧ ∃ new, s'.finished = s.finished ++ new := by
  cases h with
  | receive free admitted => exact ⟨⟨_, rfl⟩, [], (List.append_nil _).symm⟩
  | advance working => exact ⟨⟨[], (List.append_nil _).symm⟩, [], (List.append_nil _).symm⟩
  | fail e working => exact ⟨⟨[], (List.append_nil _).symm⟩, [], (List.append_nil _).symm⟩
  | finish ended => exact ⟨⟨[], (List.append_nil _).symm⟩, _, rfl⟩
  | drop => exact ⟨⟨[], (List.append_nil _).symm⟩, [], (List.append_nil _).symm⟩

theorem Step.mono {admits' : System ι Q R σ ε → ι → Q → Prop} (h : Step handle admits s s')
    (hsub : ∀ i q, admits s i q → admits' s i q) : Step handle admits' s s' := by
  cases h with
  | receive free admitted => exact .receive free (hsub _ _ admitted)
  | advance working => exact .advance working
  | fail e working => exact .fail e working
  | finish ended => exact .finish ended
  | drop i => exact .drop s i

theorem Reaches.mono {admits' : System ι Q R σ ε → ι → Q → Prop} (h : Reaches handle admits s s')
    (hsub : ∀ s i q, admits s i q → admits' s i q) : Reaches handle admits' s s' := by
  induction h with
  | refl => exact .refl
  | tail _ hstep ih => exact ih.tail (hstep.mono (hsub _))

/-- What every step keeps holds throughout a run, so also where a job is admitted. -/
theorem Reaches.keeps {P : System ι Q R σ ε → Prop} (h : Reaches handle admits s s') (hs : P s)
    (hstep : ∀ s s', P s → Step handle admits s s' → P s') :
    P s' ∧ Reaches handle (fun s i q => admits s i q ∧ P s) s s' := by
  induction h with
  | refl => exact ⟨hs, .refl⟩
  | tail _ hlast ih =>
    obtain ⟨hP, hreach⟩ := ih
    exact ⟨hstep _ _ hP hlast, hreach.tail (hlast.mono fun _ _ hadmits => ⟨hadmits, hP⟩)⟩

theorem Reaches.logs (h : Reaches handle admits s s') :
    (∃ new, s'.received = s.received ++ new) ∧ ∃ new, s'.finished = s.finished ++ new := by
  induction h with
  | refl => exact ⟨⟨[], (List.append_nil _).symm⟩, [], (List.append_nil _).symm⟩
  | tail _ hstep ih =>
    obtain ⟨⟨received, hreceived⟩, finished, hfinished⟩ := ih
    obtain ⟨⟨received', hreceived'⟩, finished', hfinished'⟩ := hstep.logs
    rw [hreceived, List.append_assoc] at hreceived'
    rw [hfinished, List.append_assoc] at hfinished'
    exact ⟨⟨_, hreceived'⟩, _, hfinished'⟩

theorem Reaches.restrict {ok : ι → Q → Prop} {new : List (ι × Q)} (h : Reaches handle admits s s')
    (hnew : s'.received = s.received ++ new) (hok : ∀ x ∈ new, ok x.1 x.2) :
    Reaches handle (fun s i q => admits s i q ∧ ok i q) s s' := by
  induction h generalizing new with
  | refl => exact .refl
  | tail hreach hstep ih =>
    obtain ⟨⟨before, hbefore⟩, -⟩ := Reaches.logs hreach
    cases hstep with
    | receive free admitted =>
      rw [hbefore, List.append_assoc, List.append_cancel_left_eq] at hnew
      subst hnew
      refine (ih hbefore fun x hx => hok x (List.mem_append_left _ hx)).tail ?_
      exact .receive free ⟨admitted, hok _ (List.mem_append_right _ (List.mem_singleton_self _))⟩
    | advance working => exact (ih hnew hok).tail (.advance working)
    | fail e working => exact (ih hnew hok).tail (.fail e working)
    | finish ended => exact (ih hnew hok).tail (.finish ended)
    | drop i => exact (ih hnew hok).tail (.drop _ i)

theorem update_some_iff {α : Type} {f : ι → Option α} {i j : ι} {x y : α} :
    Function.update f i (some x) j = some y ↔ j = i ∧ x = y ∨ j ≠ i ∧ f j = some y := by
  by_cases h : j = i
  · subst h
    simp
  · simp [h]

theorem update_none_iff {α : Type} {f : ι → Option α} {i j : ι} {y : α} :
    Function.update f i none j = some y ↔ j ≠ i ∧ f j = some y := by
  by_cases h : j = i
  · subst h
    simp
  · simp [h]

/-- For each job: what it relies on the others to do at most, what it does itself at most, and what
its results are to be where they are given. What is shared while it is worked on is `seen`. -/
structure Contract (ι Q R σ ε : Type) where
  rely : ι → Q → σ → σ → Prop
  effect : ι → Q → σ → σ → Prop
  good : ι → Q → Fallible ε R → σ → Prop
  seen : ι → Q → σ → Prop := fun _ _ _ => True

/-- Each job keeps its part of the contract, and those that work at one time do not do what another
of them relies on to be left alone. -/
structure Contract.Kept (c : Contract ι Q R σ ε) (handle : ι → Q → Process σ ε R)
    (admits : System ι Q R σ ε → ι → Q → Prop) (inv : σ → Prop) : Prop where
  refl : ∀ i q a, c.seen i q a → c.rely i q a a
  trans : ∀ i q a b d, c.rely i q a b → c.rely i q b d → c.rely i q a d
  errors : ∀ i q e a, c.good i q (.error (.error e)) a
  effects : ∀ s i q, admits s i q → inv s.shared → Within (c.effect i q) (handle i q)
  starts : ∀ s i q, admits s i q → inv s.shared →
    Amid (c.rely i q) inv (c.good i q) (handle i q) s.shared
  apart : ∀ s i q, admits s i q → ∀ j q' p, s.inProgress j = some (q', p) → j ≠ i →
    (∀ a b, c.seen i q b → c.effect j q' a b → c.rely i q a b) ∧
      ∀ a b, c.seen j q' b → c.effect i q a b → c.rely j q' a b

/-- The invariant of a system whose jobs keep a contract. -/
structure Contract.Sound (c : Contract ι Q R σ ε) (inv : σ → Prop) (s : System ι Q R σ ε) :
    Prop where
  shared : inv s.shared
  amid : ∀ i q p, s.inProgress i = some (q, p) →
    Amid (c.rely i q) inv (c.good i q) p s.shared
  within : ∀ i q p, s.inProgress i = some (q, p) → Within (c.effect i q) p
  apart : ∀ i q p j q' p', s.inProgress i = some (q, p) → s.inProgress j = some (q', p') →
    j ≠ i → ∀ a b, c.seen i q b → c.effect j q' a b → c.rely i q a b

def Contract.Sees (c : Contract ι Q R σ ε) (s : System ι Q R σ ε) : Prop :=
  ∀ i q p, s.inProgress i = some (q, p) → c.seen i q s.shared

section Contracts

variable {c : Contract ι Q R σ ε} {inv : σ → Prop}

theorem Contract.Sound.receive (hc : c.Kept handle admits inv) (h : c.Sound inv s) {i : ι} {q : Q}
    (admitted : admits s i q) : c.Sound inv { s with
      inProgress := Function.update s.inProgress i (some (q, handle i q))
      received := s.received ++ [(i, q)] } where
  shared := h.shared
  amid := by
    intro j q' p hp
    rcases update_some_iff.mp hp with ⟨rfl, heq⟩ | ⟨-, hp⟩
    · obtain ⟨rfl, rfl⟩ := Prod.mk.inj heq
      exact hc.starts s j q admitted h.shared
    · exact h.amid j q' p hp
  within := by
    intro j q' p hp
    rcases update_some_iff.mp hp with ⟨rfl, heq⟩ | ⟨-, hp⟩
    · obtain ⟨rfl, rfl⟩ := Prod.mk.inj heq
      exact hc.effects s j q admitted h.shared
    · exact h.within j q' p hp
  apart := by
    intro j q₁ p₁ k q₂ p₂ hj hk hne
    rcases update_some_iff.mp hj with ⟨rfl, heq⟩ | ⟨hji, hother⟩
    · obtain ⟨rfl, -⟩ := Prod.mk.inj heq
      rcases update_some_iff.mp hk with ⟨rfl, -⟩ | ⟨-, hk⟩
      · exact absurd rfl hne
      · exact (hc.apart s j q admitted k q₂ p₂ hk hne).1
    · rcases update_some_iff.mp hk with ⟨rfl, heq⟩ | ⟨-, hk⟩
      · obtain ⟨rfl, -⟩ := Prod.mk.inj heq
        exact (hc.apart s k q admitted j q₁ p₁ hother hji).2
      · exact h.apart j q₁ p₁ k q₂ p₂ hother hk hne

theorem Contract.Sound.replace (hc : c.Kept handle admits inv) (h : c.Sound inv s) {i : ι} {q : Q}
    {p p' : Process σ ε R} {shared : σ} (working : s.inProgress i = some (q, p))
    (hsees : ∀ j q' p, s.inProgress j = some (q', p) → c.seen j q' shared)
    (heffect : shared = s.shared ∨ c.effect i q s.shared shared) (hinv : inv shared)
    (hamid : Amid (c.rely i q) inv (c.good i q) p' shared) (hwithin : Within (c.effect i q) p') :
    c.Sound inv { s with
      shared := shared
      inProgress := Function.update s.inProgress i (some (q, p')) } where
  shared := hinv
  amid := by
    intro j q₁ p₁ hj
    rcases update_some_iff.mp hj with ⟨rfl, heq⟩ | ⟨hji, hother⟩
    · obtain ⟨rfl, rfl⟩ := Prod.mk.inj heq
      exact hamid
    · rcases heffect with rfl | heffect
      · exact h.amid j q₁ p₁ hother
      · exact (h.amid j q₁ p₁ hother).stable (hc.trans j q₁)
          (h.apart j q₁ p₁ i q p hother working (Ne.symm hji) _ _ (hsees j q₁ p₁ hother) heffect)
  within := by
    intro j q₁ p₁ hj
    rcases update_some_iff.mp hj with ⟨rfl, heq⟩ | ⟨-, hj⟩
    · obtain ⟨rfl, rfl⟩ := Prod.mk.inj heq
      exact hwithin
    · exact h.within j q₁ p₁ hj
  apart := by
    intro j q₁ p₁ k q₂ p₂ hj hk hne
    have hold : ∀ l q₃ p₃, Function.update s.inProgress i (some (q, p')) l = some (q₃, p₃) →
        ∃ p₄, s.inProgress l = some (q₃, p₄) := by
      intro l q₃ p₃ hl
      rcases update_some_iff.mp hl with ⟨rfl, heq⟩ | ⟨-, hl⟩
      · obtain ⟨rfl, -⟩ := Prod.mk.inj heq
        exact ⟨p, working⟩
      · exact ⟨p₃, hl⟩
    obtain ⟨p₃, hj⟩ := hold j q₁ p₁ hj
    obtain ⟨p₄, hk⟩ := hold k q₂ p₂ hk
    exact h.apart j q₁ p₃ k q₂ p₄ hj hk hne

omit [DecidableEq ι] in
theorem Contract.Sound.of_le (h : c.Sound inv s)
    {inProgress : ι → Option (Q × Process σ ε R)} {received : List (ι × Q)}
    {finished : List (ι × Q × Fallible ε R)}
    (hle : ∀ i x, inProgress i = some x → s.inProgress i = some x) :
    c.Sound inv ⟨s.shared, inProgress, received, finished⟩ where
  shared := h.shared
  amid i q p hp := h.amid i q p (hle i _ hp)
  within i q p hp := h.within i q p (hle i _ hp)
  apart i q p j q' p' hi hj := h.apart i q p j q' p' (hle i _ hi) (hle j _ hj)

/-- A step keeps the contract, and what it finishes is good. -/
theorem Contract.Sound.step (hc : c.Kept handle admits inv) (h : c.Sound inv s)
    (hsees : c.Sees s) (hsees' : c.Sees s') (hstep : Step handle admits s s') : c.Sound inv s' ∧
      ∀ new, s'.finished = s.finished ++ new → ∀ x ∈ new, c.good x.1 x.2.1 x.2.2 s.shared := by
  have hnone : ∀ new, s.finished = s.finished ++ new →
      ∀ x ∈ new, c.good x.1 x.2.1 x.2.2 s.shared := by
    intro new hnew x hx
    rw [List.self_eq_append_right.mp hnew] at hx
    cases hx
  cases hstep with
  | receive free admitted => exact ⟨h.receive hc admitted, hnone⟩
  | @advance i q next after working =>
    have hrefl := hc.refl i q _ (hsees i q _ working)
    obtain ⟨hinv, hamid⟩ := h.amid i q _ working s.shared hrefl h.shared
    obtain ⟨heffect, hwithin⟩ := h.within i q _ working s.shared
    refine ⟨h.replace hc working (fun j q' p hj => ?_) (.inr heffect) hinv hamid hwithin, hnone⟩
    by_cases hji : j = i
    · subst hji
      obtain ⟨rfl, -⟩ := Prod.mk.inj (Option.some.inj (working.symm.trans hj))
      exact hsees' j q (next s.shared) (Function.update_self ..)
    · exact hsees' j q' p ((Function.update_of_ne hji ..).trans hj)
  | @fail i q next after e working =>
    refine ⟨h.replace hc working hsees (.inl rfl) h.shared ?_ trivial, hnone⟩
    exact fun a _ _ => hc.errors i q e a
  | @finish i q result ended =>
    refine ⟨h.of_le fun j x hj => (update_none_iff.mp hj).2, ?_⟩
    intro new hnew x hx
    rw [List.append_cancel_left_eq] at hnew
    subst hnew
    rw [List.mem_singleton.mp hx]
    exact h.amid i q _ ended s.shared (hc.refl i q _ (hsees i q _ ended)) h.shared
  | drop i => exact ⟨h.of_le fun j x hj => (update_none_iff.mp hj).2, hnone⟩

/-- The invariant holds throughout a run, and every result was good where it was given. -/
theorem Contract.Sound.reaches (hc : c.Kept handle admits inv) (h : c.Sound inv s)
    (hsees : ∀ t, Reaches handle admits s t → Reaches handle admits t s' → c.Sees t)
    (hreach : Reaches handle admits s s') : c.Sound inv s' ∧
      ∀ new, s'.finished = s.finished ++ new →
        ∀ x ∈ new, ∃ t, inv t ∧ c.good x.1 x.2.1 x.2.2 t := by
  induction hreach with
  | refl =>
    refine ⟨h, fun new hnew x hx => ?_⟩
    rw [List.self_eq_append_right.mp hnew] at hx
    cases hx
  | tail hbefore hstep ih =>
    obtain ⟨hsound, hgood⟩ := ih fun t hfirst hlast => hsees t hfirst (hlast.tail hstep)
    obtain ⟨hsound', hgood'⟩ := hsound.step hc (hsees _ hbefore (.single hstep))
      (hsees _ (hbefore.tail hstep) .refl) hstep
    refine ⟨hsound', fun new hnew x hx => ?_⟩
    obtain ⟨-, before, hfinished⟩ := Reaches.logs hbefore
    obtain ⟨-, last, hlast⟩ := hstep.logs
    rw [hlast, hfinished, List.append_assoc, List.append_cancel_left_eq] at hnew
    subst hnew
    rcases List.mem_append.mp hx with hx | hx
    · exact hgood before hfinished x hx
    · exact ⟨_, hsound.shared, hgood' last hlast x hx⟩

omit [DecidableEq ι] in
theorem Contract.Sound.start {a : σ} (h : inv a) :
    c.Sound inv (System.start a : System ι Q R σ ε) where
  shared := h
  amid _ _ _ hp := by cases hp
  within _ _ _ hp := by cases hp
  apart _ _ _ _ _ _ hp := by cases hp

section Lasting

variable {lasting : ι → Q → Prop}

/-- Some of the finished jobs still rely on the others, so their results stay good. -/
structure Contract.Lasts (c : Contract ι Q R σ ε) (lasting : ι → Q → Prop) (inv : σ → Prop)
    (s : System ι Q R σ ε) : Prop where
  good : ∀ i q r, (i, q, r) ∈ s.finished → lasting i q →
    ∀ a, c.rely i q s.shared a → inv a → c.good i q r a
  apart : ∀ i q r, (i, q, r) ∈ s.finished → lasting i q → ∀ j q' p,
    s.inProgress j = some (q', p) → ∀ a b, c.effect j q' a b → c.rely i q a b

theorem Contract.Lasts.step (hc : c.Kept handle admits inv) (hsees : ∀ i q a, c.seen i q a)
    (hsound : c.Sound inv s) (hlater : ∀ s i q, admits s i q → ∀ j q' r, (j, q', r) ∈ s.finished →
      lasting j q' → ∀ a b, c.effect i q a b → c.rely j q' a b) (h : c.Lasts lasting inv s)
    (hstep : Step handle admits s s') : c.Lasts lasting inv s' := by
  cases hstep with
  | @receive i q free admitted =>
    refine ⟨h.good, fun j q₁ r hmem hlasting l q₂ p hl => ?_⟩
    rcases update_some_iff.mp hl with ⟨rfl, heq⟩ | ⟨-, hl⟩
    · obtain ⟨rfl, -⟩ := Prod.mk.inj heq
      exact hlater s l q admitted j q₁ r hmem hlasting
    · exact h.apart j q₁ r hmem hlasting l q₂ p hl
  | @advance i q next after working =>
    have heffect := (hsound.within i q _ working s.shared).1
    refine ⟨fun j q₁ r hmem hlasting a hrely => ?_, fun j q₁ r hmem hlasting l q₂ p hl => ?_⟩
    · refine h.good j q₁ r hmem hlasting a (hc.trans j q₁ _ _ _ ?_ hrely)
      exact h.apart j q₁ r hmem hlasting i q _ working _ _ heffect
    · rcases update_some_iff.mp hl with ⟨rfl, heq⟩ | ⟨-, hl⟩
      · obtain ⟨rfl, -⟩ := Prod.mk.inj heq
        exact h.apart j q₁ r hmem hlasting l q _ working
      · exact h.apart j q₁ r hmem hlasting l q₂ p hl
  | @fail i q next after e working =>
    refine ⟨h.good, fun j q₁ r hmem hlasting l q₂ p hl => ?_⟩
    rcases update_some_iff.mp hl with ⟨rfl, heq⟩ | ⟨-, hl⟩
    · obtain ⟨rfl, -⟩ := Prod.mk.inj heq
      exact h.apart j q₁ r hmem hlasting l q _ working
    · exact h.apart j q₁ r hmem hlasting l q₂ p hl
  | @finish i q result ended =>
    refine ⟨fun j q₁ r hmem hlasting => ?_, fun j q₁ r hmem hlasting l q₂ p hl => ?_⟩
    · rcases List.mem_append.mp hmem with hmem | hmem
      · exact h.good j q₁ r hmem hlasting
      · obtain ⟨rfl, heq⟩ := Prod.mk.inj (List.mem_singleton.mp hmem)
        obtain ⟨rfl, rfl⟩ := Prod.mk.inj heq
        exact hsound.amid j q₁ _ ended
    · obtain ⟨hli, hother⟩ := update_none_iff.mp hl
      rcases List.mem_append.mp hmem with hmem | hmem
      · exact h.apart j q₁ r hmem hlasting l q₂ p hother
      · obtain ⟨rfl, heq⟩ := Prod.mk.inj (List.mem_singleton.mp hmem)
        obtain ⟨rfl, -⟩ := Prod.mk.inj heq
        exact fun a b => hsound.apart j q₁ _ l q₂ p ended hother hli a b (hsees j q₁ b)
  | drop i =>
    refine ⟨h.good, fun j q₁ r hmem hlasting l q₂ p hl => ?_⟩
    exact h.apart j q₁ r hmem hlasting l q₂ p (update_none_iff.mp hl).2

theorem Contract.Lasts.reaches (hc : c.Kept handle admits inv) (hsees : ∀ i q a, c.seen i q a)
    (hsound : c.Sound inv s) (hlater : ∀ s i q, admits s i q → ∀ j q' r, (j, q', r) ∈ s.finished →
      lasting j q' → ∀ a b, c.effect i q a b → c.rely j q' a b)
    (h : c.Lasts lasting inv s) (hreach : Reaches handle admits s s') :
    c.Sound inv s' ∧ c.Lasts lasting inv s' := by
  induction hreach with
  | refl => exact ⟨hsound, h⟩
  | tail _ hstep ih =>
    obtain ⟨hsound, h⟩ := ih
    exact ⟨(hsound.step hc (fun i q _ _ => hsees i q _) (fun i q _ _ => hsees i q _) hstep).1,
      h.step hc hsees hsound hlater hstep⟩

omit [DecidableEq ι] in
theorem Contract.Lasts.start (a : σ) :
    c.Lasts lasting inv (System.start a : System ι Q R σ ε) where
  good _ _ _ h := by cases h
  apart _ _ _ h := by cases h

end Lasting

end Contracts

/-- A result that was given in a run was given in one of its steps. -/
theorem Reaches.finish_of_mem {x : ι × Q × Fallible ε R} (h : Reaches handle admits s s')
    (hold : x ∉ s.finished) (hx : x ∈ s'.finished) : ∃ t, Reaches handle admits s t ∧
      t.inProgress x.1 = some (x.2.1, .done x.2.2) ∧
      Reaches handle admits { t with
        inProgress := Function.update t.inProgress x.1 none
        finished := t.finished ++ [x] } s' := by
  induction h with
  | refl => exact absurd hx hold
  | @tail t t' hreach hstep ih =>
    by_cases hbefore : x ∈ t.finished
    · obtain ⟨t₁, hfirst, hended, hlast⟩ := ih hbefore
      exact ⟨t₁, hfirst, hended, hlast.tail hstep⟩
    · cases hstep with
      | @finish i q result ended =>
        rcases List.mem_append.mp hx with hx | hx
        · exact absurd hx hbefore
        · obtain rfl := List.mem_singleton.mp hx
          exact ⟨t, hreach, ended, .refl⟩
      | _ => exact absurd hx hbefore

theorem Reaches.within {effect : σ → σ → Prop} (hrefl : ∀ a, effect a a)
    (htrans : ∀ a b d, effect a b → effect b d → effect a d)
    (hhandle : ∀ s i q, admits s i q → Within effect (handle i q))
    (h : Reaches handle admits s s')
    (hs : ∀ i q p, s.inProgress i = some (q, p) → Within effect p) :
    effect s.shared s'.shared ∧ ∀ i q p, s'.inProgress i = some (q, p) → Within effect p := by
  induction h with
  | refl => exact ⟨hrefl _, hs⟩
  | tail _ hstep ih =>
    obtain ⟨hshared, hin⟩ := ih
    cases hstep with
    | receive free admitted =>
      refine ⟨hshared, fun j q' p hp => ?_⟩
      rcases update_some_iff.mp hp with ⟨rfl, heq⟩ | ⟨-, hp⟩
      · obtain ⟨rfl, rfl⟩ := Prod.mk.inj heq
        exact hhandle _ _ _ admitted
      · exact hin j q' p hp
    | advance working =>
      obtain ⟨heffect, hwithin⟩ := hin _ _ _ working _
      refine ⟨htrans _ _ _ hshared heffect, fun j q' p hp => ?_⟩
      rcases update_some_iff.mp hp with ⟨rfl, heq⟩ | ⟨-, hp⟩
      · obtain ⟨rfl, rfl⟩ := Prod.mk.inj heq
        exact hwithin
      · exact hin j q' p hp
    | fail e working =>
      refine ⟨hshared, fun j q' p hp => ?_⟩
      rcases update_some_iff.mp hp with ⟨rfl, heq⟩ | ⟨-, hp⟩
      · obtain ⟨rfl, rfl⟩ := Prod.mk.inj heq
        exact trivial
      · exact hin j q' p hp
    | finish ended => exact ⟨hshared, fun j q' p hp => hin j q' p (update_none_iff.mp hp).2⟩
    | drop i => exact ⟨hshared, fun j q' p hp => hin j q' p (update_none_iff.mp hp).2⟩

section Solo

theorem reaches_done {i : ι} {q : Q} (p : Process σ ε R) (working : s.inProgress i = some (q, p)) :
    Reaches handle admits s { s with
      shared := (outcomeOf ((alone p).run s.shared)).2
      inProgress := Function.update s.inProgress i
        (some (q, .done (outcomeOf ((alone p).run s.shared)).1)) } := by
  induction p generalizing s with
  | done result =>
    have hsame : Function.update s.inProgress i (some (q, .done result)) = s.inProgress := by
      rw [← working, Function.update_eq_self]
    cases result with
    | ok r =>
      change Reaches handle admits s { s with
        inProgress := Function.update s.inProgress i (some (q, .done (.ok r))) }
      rw [hsame]
    | error e =>
      change Reaches handle admits s { s with
        inProgress := Function.update s.inProgress i (some (q, .done (.error e))) }
      rw [hsame]
  | step next after ih =>
    refine .head (.advance working) ?_
    have hnext := ih s.shared (s := { s with
      shared := after s.shared
      inProgress := Function.update s.inProgress i (some (q, next s.shared)) })
      (Function.update_self ..)
    dsimp only at hnext
    rw [Function.update_idem] at hnext
    exact hnext

theorem reaches_finished {i : ι} {q : Q} {p : Process σ ε R}
    (working : s.inProgress i = some (q, p)) : Reaches handle admits s { s with
      shared := (outcomeOf ((alone p).run s.shared)).2
      inProgress := Function.update s.inProgress i none
      finished := s.finished ++ [(i, q, (outcomeOf ((alone p).run s.shared)).1)] } := by
  have hfinish : Reaches handle admits s _ := Relation.ReflTransGen.tail (reaches_done p working)
    (.finish (Function.update_self ..))
  dsimp only at hfinish
  rwa [Function.update_idem] at hfinish

theorem reaches_alone {i : ι} {q : Q} (free : s.inProgress i = none) (admitted : admits s i q) :
    Reaches handle admits s { s with
      shared := (outcomeOf ((alone (handle i q)).run s.shared)).2
      received := s.received ++ [(i, q)]
      finished := s.finished ++ [(i, q, (outcomeOf ((alone (handle i q)).run s.shared)).1)] } := by
  have hfinish := (reaches_finished (s := { s with
    inProgress := Function.update s.inProgress i (some (q, handle i q))
    received := s.received ++ [(i, q)] }) (Function.update_self ..)).head (.receive free admitted)
  dsimp only at hfinish
  rwa [Function.update_idem, ← free, Function.update_eq_self] at hfinish

end Solo

section Taking

variable {taken : σ → Prop} {takes : ι → Q → Prop}

/-- A process that gives nothing back and succeeds only by taking what is not taken yet, in its last
step. -/
def Takes (taken : σ → Prop) : Process σ ε R → Prop
  | .done (.ok _) => False
  | .done (.error _) => True
  | .step next after => ∀ s, (taken s → taken (after s)) ∧ Takes taken (next s) ∨
      ¬taken s ∧ taken (after s) ∧ ∃ r, next s = .done (.ok r)

theorem Takes.done_bind {α : Type} {y : Fallible ε α} {f : α → Process σ ε R}
    (h : ∀ a, y = .ok a → Takes taken (f a)) : Takes taken (Process.done y >>= f) := by
  cases y with
  | ok a => exact h a rfl
  | error e => exact trivial

theorem Takes.atomic_bind {α : Type} {x : Stateful ε σ α} {f : α → Process σ ε R}
    (h : ∀ s, (taken s → taken (outcomeOf (x.run s)).2) ∧
      ∀ a, (outcomeOf (x.run s)).1 = .ok a → Takes taken (f a)) :
    Takes taken (atomic x >>= f) :=
  fun s => .inl ⟨(h s).1, Takes.done_bind (h s).2⟩

theorem Takes.atomic_last {α : Type} {x : Stateful ε σ α} {f : α → Process σ ε R}
    (h : ∀ s, (taken s → taken (outcomeOf (x.run s)).2) ∧
      ∀ a, (outcomeOf (x.run s)).1 = .ok a → (∃ e, f a = .done (.error e)) ∨
        ¬taken s ∧ taken (outcomeOf (x.run s)).2 ∧ ∃ r, f a = .done (.ok r)) :
    Takes taken (atomic x >>= f) := by
  intro s
  obtain ⟨hkeeps, htakes⟩ := h s
  change (taken s → taken (outcomeOf (x.run s)).2) ∧
      Takes taken (Process.bind (.done (outcomeOf (x.run s)).1) f) ∨
    ¬taken s ∧ taken (outcomeOf (x.run s)).2 ∧
      ∃ r, Process.bind (.done (outcomeOf (x.run s)).1) f = .done (.ok r)
  cases hresult : (outcomeOf (x.run s)).1 with
  | error e => exact .inl ⟨hkeeps, trivial⟩
  | ok a =>
    rcases htakes a hresult with ⟨e, hfails⟩ | hsucceeds
    · refine .inl ⟨hkeeps, ?_⟩
      change Takes taken (f a)
      rw [hfails]
      exact trivial
    · exact .inr hsucceeds

theorem Takes.onPart_bind {τ α : Type} {part : τ → σ} {set : τ → σ → τ}
    (hget : ∀ t s, part (set t s) = s) {p : Process σ ε α} (h : Takes taken p) (f : α → R) :
    Takes (fun t => taken (part t)) (onPart part set p >>= fun r => pure (f r)) := by
  induction p with
  | done result =>
    cases result with
    | ok r => exact h.elim
    | error e => exact trivial
  | step next after ih =>
    intro t
    have hafter : taken (part (set t (after (part t)))) ↔ taken (after (part t)) := by rw [hget]
    rcases h (part t) with ⟨hkeeps, hnext⟩ | ⟨hfree, htaken, r, hnext⟩
    · exact .inl ⟨fun htaken => hafter.mpr (hkeeps htaken), ih _ hnext⟩
    · refine .inr ⟨hfree, hafter.mpr htaken, f r, ?_⟩
      change Process.bind (onPart part set (next (part t))) _ = _
      rw [hnext]
      rfl

/-- The job has succeeded, though its result may not be given yet. -/
def Succeeded (s : System ι Q R σ ε) (i : ι) (q : Q) : Prop :=
  (∃ r, (i, q, .ok r) ∈ s.finished) ∨ ∃ r, s.inProgress i = some (q, .done (.ok r))

/-- At most one of the jobs that take has succeeded, and then it is taken. -/
structure TakenOnce (taken : σ → Prop) (takes : ι → Q → Prop) (a : σ) (s : System ι Q R σ ε) :
    Prop where
  before : taken a → taken s.shared
  held : ∀ i q, takes i q → Succeeded s i q → taken s.shared ∧ ¬taken a
  one : ∀ i q j q', takes i q → takes j q' → Succeeded s i q → Succeeded s j q' →
    (i, q) = (j, q')
  taking : ∀ i q p, s.inProgress i = some (q, p) → takes i q →
    Takes taken p ∨ ∃ r, p = .done (.ok r)
  others : ∀ i q p, s.inProgress i = some (q, p) → ¬takes i q →
    Within (fun a b => taken a → taken b) p

omit [DecidableEq ι] in
theorem TakenOnce.of_succeeded {a : σ} (h : TakenOnce taken takes a s)
    (hshared : taken s.shared → taken s'.shared)
    (hsucceeded : ∀ i q, takes i q → Succeeded s' i q → Succeeded s i q)
    (htaking : ∀ i q p, s'.inProgress i = some (q, p) → takes i q →
      Takes taken p ∨ ∃ r, p = .done (.ok r))
    (hothers : ∀ i q p, s'.inProgress i = some (q, p) → ¬takes i q →
      Within (fun a b => taken a → taken b) p) : TakenOnce taken takes a s' where
  before ha := hshared (h.before ha)
  held i q htakes hs := by
    obtain ⟨hheld, hfree⟩ := h.held i q htakes (hsucceeded i q htakes hs)
    exact ⟨hshared hheld, hfree⟩
  one i q j q' hi hj hsi hsj :=
    h.one i q j q' hi hj (hsucceeded i q hi hsi) (hsucceeded j q' hj hsj)
  taking := htaking
  others := hothers

theorem TakenOnce.replace {a b : σ} {i : ι} {q : Q} {p : Process σ ε R}
    {received : List (ι × Q)} (h : TakenOnce taken takes a s)
    (hshared : taken s.shared → taken b) (htakes : takes i q → Takes taken p)
    (hkeeps : ¬takes i q → Within (fun a b => taken a → taken b) p) :
    TakenOnce taken takes a ⟨b, Function.update s.inProgress i (some (q, p)), received,
      s.finished⟩ := by
  refine h.of_succeeded hshared ?_ ?_ ?_
  · rintro j q' hj (hfinished | ⟨r, hended⟩)
    · exact .inl hfinished
    · rcases update_some_iff.mp hended with ⟨rfl, heq⟩ | ⟨-, hended⟩
      · obtain ⟨rfl, rfl⟩ := Prod.mk.inj heq
        exact (htakes hj).elim
      · exact .inr ⟨r, hended⟩
  · intro j q' p' hj htakes'
    rcases update_some_iff.mp hj with ⟨rfl, heq⟩ | ⟨-, hj⟩
    · obtain ⟨rfl, rfl⟩ := Prod.mk.inj heq
      exact .inl (htakes htakes')
    · exact h.taking j q' p' hj htakes'
  · intro j q' p' hj hnot
    rcases update_some_iff.mp hj with ⟨rfl, heq⟩ | ⟨-, hj⟩
    · obtain ⟨rfl, rfl⟩ := Prod.mk.inj heq
      exact hkeeps hnot
    · exact h.others j q' p' hj hnot

theorem TakenOnce.take {a b : σ} {i : ι} {q : Q} {r : R} (h : TakenOnce taken takes a s)
    (htakes : takes i q) (hfree : ¬taken s.shared) (hb : taken b) :
    TakenOnce taken takes a { s with
      shared := b
      inProgress := Function.update s.inProgress i (some (q, .done (.ok r))) } := by
  have hself : ∀ j q', takes j q' → Succeeded (Q := Q) (R := R) (ε := ε) (σ := σ) { s with
      shared := b
      inProgress := Function.update s.inProgress i (some (q, .done (.ok r))) } j q' →
      (j, q') = (i, q) := by
    rintro j q' hj (hfinished | ⟨r', hended⟩)
    · exact absurd (h.held j q' hj (.inl hfinished)).1 hfree
    · rcases update_some_iff.mp hended with ⟨rfl, heq⟩ | ⟨-, hended⟩
      · exact congrArg (Prod.mk j) (Prod.mk.inj heq).1.symm
      · exact absurd (h.held j q' hj (.inr ⟨r', hended⟩)).1 hfree
  refine ⟨fun _ => hb, fun _ _ _ _ => ⟨hb, fun ha => hfree (h.before ha)⟩, ?_, ?_, ?_⟩
  · intro j q₁ l q₂ hj hl hsj hsl
    exact (hself j q₁ hj hsj).trans (hself l q₂ hl hsl).symm
  · intro j q' p' hj htakes'
    rcases update_some_iff.mp hj with ⟨rfl, heq⟩ | ⟨-, hj⟩
    · obtain ⟨rfl, rfl⟩ := Prod.mk.inj heq
      exact .inr ⟨r, rfl⟩
    · exact h.taking j q' p' hj htakes'
  · intro j q' p' hj hnot
    rcases update_some_iff.mp hj with ⟨rfl, heq⟩ | ⟨-, hj⟩
    · obtain ⟨rfl, -⟩ := Prod.mk.inj heq
      exact absurd htakes hnot
    · exact h.others j q' p' hj hnot

theorem TakenOnce.step {a : σ} (htakes : ∀ i q, takes i q → Takes taken (handle i q))
    (hkeeps : ∀ s i q, admits s i q → ¬takes i q →
      Within (fun a b => taken a → taken b) (handle i q))
    (h : TakenOnce taken takes a s) (hstep : Step handle admits s s') :
    TakenOnce taken takes a s' := by
  cases hstep with
  | @receive i q free admitted => exact h.replace id (htakes i q) (hkeeps s i q admitted)
  | @advance i q next after working =>
    by_cases hi : takes i q
    · rcases h.taking i q _ working hi with htaking | ⟨r, hdone⟩
      · rcases htaking s.shared with ⟨hsame, hnext⟩ | ⟨hfree, htaken, r, hnext⟩
        · exact h.replace hsame (fun _ => hnext) fun hnot => absurd hi hnot
        · rw [hnext]
          exact h.take hi hfree htaken
      · cases hdone
    · obtain ⟨hkept, hnext⟩ := h.others i q _ working hi s.shared
      exact h.replace hkept (fun htakes => absurd htakes hi) fun _ => hnext
  | @fail i q next after e working =>
    exact h.replace id (fun _ => trivial) fun _ => Within.done _
  | @finish i q result ended =>
    refine h.of_succeeded id ?_ ?_ ?_
    · rintro j q' - (⟨r, hfinished⟩ | ⟨r, hended⟩)
      · rcases List.mem_append.mp hfinished with hfinished | hnew
        · exact .inl ⟨r, hfinished⟩
        · obtain ⟨rfl, heq⟩ := Prod.mk.inj (List.mem_singleton.mp hnew)
          obtain ⟨rfl, rfl⟩ := Prod.mk.inj heq
          exact .inr ⟨r, ended⟩
      · exact .inr ⟨r, (update_none_iff.mp hended).2⟩
    · exact fun j q' p hj => h.taking j q' p (update_none_iff.mp hj).2
    · exact fun j q' p hj => h.others j q' p (update_none_iff.mp hj).2
  | drop i =>
    refine h.of_succeeded id ?_ ?_ ?_
    · rintro j q' - (hfinished | ⟨r, hended⟩)
      · exact .inl hfinished
      · exact .inr ⟨r, (update_none_iff.mp hended).2⟩
    · exact fun j q' p hj => h.taking j q' p (update_none_iff.mp hj).2
    · exact fun j q' p hj => h.others j q' p (update_none_iff.mp hj).2

omit [DecidableEq ι] in
theorem TakenOnce.of_none (hfinished : ∀ i q r, (i, q, r) ∈ s.finished → ¬takes i q)
    (hworking : ∀ i q p, s.inProgress i = some (q, p) → ¬takes i q)
    (hkeeps : ∀ i q p, s.inProgress i = some (q, p) → Within (fun a b => taken a → taken b) p) :
    TakenOnce taken takes s.shared s := by
  have hnobody : ∀ i q, takes i q → ¬Succeeded s i q := by
    rintro i q htakes (⟨r, hmem⟩ | ⟨r, hended⟩)
    · exact hfinished i q _ hmem htakes
    · exact hworking i q _ hended htakes
  refine ⟨id, fun i q htakes hs => absurd hs (hnobody i q htakes), ?_, ?_, ?_⟩
  · exact fun i q _ _ htakes _ hs => absurd hs (hnobody i q htakes)
  · exact fun i q p hp htakes => absurd htakes (hworking i q p hp)
  · exact fun i q p hp _ => hkeeps i q p hp

/-- However the jobs interleave, what can be taken once is taken by one of them. -/
theorem TakenOnce.reaches {a : σ} (htakes : ∀ i q, takes i q → Takes taken (handle i q))
    (hkeeps : ∀ s i q, admits s i q → ¬takes i q →
      Within (fun a b => taken a → taken b) (handle i q))
    (h : Reaches handle admits (System.start a) s) : TakenOnce taken takes a s := by
  induction h with
  | refl =>
    apply TakenOnce.of_none (s := System.start a)
    · exact fun _ _ _ hmem => by cases hmem
    · exact fun _ _ _ hp => by cases hp
    · exact fun _ _ _ hp => by cases hp
  | tail _ hstep ih => exact ih.step htakes hkeeps hstep

end Taking

end Systems

end FoundationInterleaving
