import ProofOfStorage.FoundationInterleaving
import Mathlib.Data.Set.Basic

/-! # Serial runs

The shared state has parts, and each job has its own parts, which it may change, and those that it
sees. When no job works while another one changes what it sees, the jobs have the results that they
have one after another.
-/
namespace FoundationSerialRuns

open FoundationFaults FoundationProcesses FoundationInterleaving

variable {σ ε ι Q R K : Type}

structure Footprint (ι Q K σ : Type) where
  frame : K → σ → σ → Prop
  own : ι → Q → Set K
  seen : ι → Q → Set K

def Footprint.SameOn (f : Footprint ι Q K σ) (keys : Set K) (a b : σ) : Prop :=
  ∀ k ∈ keys, f.frame k a b

/-- The jobs change nothing but their own parts and see what they change. -/
structure Footprint.Kept (f : Footprint ι Q K σ) (handle : ι → Q → Process σ ε R) : Prop where
  refl : ∀ k a, f.frame k a a
  symm : ∀ k a b, f.frame k a b → f.frame k b a
  trans : ∀ k a b c, f.frame k a b → f.frame k b c → f.frame k a c
  merge : ∀ (keys : Set K) a b, ∃ c, f.SameOn keys b c ∧ ∀ k ∉ keys, f.frame k a c
  subset : ∀ i q, f.own i q ⊆ f.seen i q
  within : ∀ i q, ∀ k ∉ f.own i q, Within (f.frame k) (handle i q)
  isLocal : ∀ i q, Local (f.SameOn (f.seen i q)) (handle i q)

/-- The new job and the unfinished ones do not change what the other ones see. -/
def Footprint.Apart (f : Footprint ι Q K σ) (s : System ι Q R σ ε) (i : ι) (q : Q) : Prop :=
  ∀ j q' p, s.inProgress j = some (q', p) →
    (∀ k ∈ f.own i q, k ∉ f.seen j q') ∧ ∀ k ∈ f.own j q', k ∉ f.seen i q

/-- Different jobs, one after another. A job is done as it is alone, or something goes wrong and
nothing is said about its own parts. -/
inductive Serial (f : Footprint ι Q K σ) (serve : ι → Q → Stateful ε σ R) (a : σ) :
    List (ι × Q) → σ → List (ι × Q × Fallible ε R) → Prop where
  | start : Serial f serve a [] a []
  | serve {jobs : List (ι × Q)} {t : σ} {log : List (ι × Q × Fallible ε R)} {i : ι} {q : Q}
      (new : (i, q) ∉ jobs) (serial : Serial f serve a jobs t log) :
      Serial f serve a (jobs ++ [(i, q)]) (outcomeOf ((serve i q).run t)).2
        (log ++ [(i, q, (outcomeOf ((serve i q).run t)).1)])
  | fail {jobs : List (ι × Q)} {t t' : σ} {log : List (ι × Q × Fallible ε R)} {i : ι} {q : Q}
      (e : ε) (new : (i, q) ∉ jobs) (serial : Serial f serve a jobs t log)
      (same : ∀ k ∉ f.own i q, f.frame k t t') :
      Serial f serve a (jobs ++ [(i, q)]) t' (log ++ [(i, q, .error (.error e))])
  | drop {jobs : List (ι × Q)} {t t' : σ} {log : List (ι × Q × Fallible ε R)} {i : ι} {q : Q}
      (new : (i, q) ∉ jobs) (serial : Serial f serve a jobs t log)
      (same : ∀ k ∉ f.own i q, f.frame k t t') : Serial f serve a (jobs ++ [(i, q)]) t' log

variable {f : Footprint ι Q K σ} {handle : ι → Q → Process σ ε R}

/-- What is left of a job does on the shared state what the whole job does on the serial one, or the
job has failed. -/
def Pending (f : Footprint ι Q K σ) (handle : ι → Q → Process σ ε R) (i : ι) (q : Q)
    (p : Process σ ε R) (shared t : σ) : Prop :=
  (∃ e, p = .done (.error (.error e))) ∨
    (outcomeOf ((alone (handle i q)).run t)).1 = (outcomeOf ((alone p).run shared)).1 ∧
      f.SameOn (f.own i q) (outcomeOf ((alone (handle i q)).run t)).2
        (outcomeOf ((alone p).run shared)).2

/-- A serial state in which some jobs have been done and the unfinished ones have not begun. -/
structure Simulates (f : Footprint ι Q K σ) (handle : ι → Q → Process σ ε R)
    (s : System ι Q R σ ε) (jobs : List (ι × Q)) (t : σ) : Prop where
  received : jobs ⊆ s.received
  idle : ∀ k, (∀ i q p, s.inProgress i = some (q, p) → k ∉ f.own i q) → f.frame k t s.shared
  pending : ∀ i q p, s.inProgress i = some (q, p) → Pending f handle i q p s.shared t
  working : ∀ i q p, s.inProgress i = some (q, p) → (i, q) ∈ s.received ∧ (i, q) ∉ jobs
  within : ∀ i q p, s.inProgress i = some (q, p) → ∀ k ∉ f.own i q, Within (f.frame k) p
  isLocal : ∀ i q p, s.inProgress i = some (q, p) → Local (f.SameOn (f.seen i q)) p
  apart : ∀ i q p j q' p', s.inProgress i = some (q, p) → s.inProgress j = some (q', p') →
    i ≠ j → ∀ k ∈ f.own i q, k ∉ f.seen j q'

section Pendings

variable {i : ι} {q : Q} {p : Process σ ε R} {b b' t t' : σ}

theorem Pending.shared (hf : f.Kept handle) (h : Pending f handle i q p b t)
    (hlocal : Local (f.SameOn (f.seen i q)) p) (hsame : f.SameOn (f.seen i q) b b') :
    Pending f handle i q p b' t := by
  rcases h with herror | ⟨hresult, hown⟩
  · exact .inl herror
  · obtain ⟨hresult', hseen⟩ := hlocal.respects_alone b b' hsame
    refine .inr ⟨hresult.trans hresult', fun k hk => ?_⟩
    exact hf.trans k _ _ _ (hown k hk) (hseen k (hf.subset i q hk))

theorem Pending.serial (hf : f.Kept handle) (h : Pending f handle i q p b t)
    (hsame : f.SameOn (f.seen i q) t t') : Pending f handle i q p b t' := by
  rcases h with herror | ⟨hresult, hown⟩
  · exact .inl herror
  · obtain ⟨hresult', hseen⟩ := (hf.isLocal i q).respects_alone t t' hsame
    refine .inr ⟨hresult'.symm.trans hresult, fun k hk => ?_⟩
    exact hf.trans k _ _ _ (hf.symm k _ _ (hseen k (hf.subset i q hk))) (hown k hk)

end Pendings

section Steps

variable [DecidableEq ι] {s s' : System ι Q R σ ε} {jobs : List (ι × Q)} {t : σ} {i : ι} {q : Q}

theorem Simulates.receive (hf : f.Kept handle) (h : Simulates f handle s jobs t)
    (free : s.inProgress i = none) (hnew : (i, q) ∉ s.received) (hapart : f.Apart s i q) :
    Simulates f handle { s with
      inProgress := Function.update s.inProgress i (some (q, handle i q))
      received := s.received ++ [(i, q)] } jobs t where
  received := List.subset_append_of_subset_left _ h.received
  idle := by
    intro k hk
    apply h.idle
    intro j q' p hj
    refine hk j q' p (update_some_iff.mpr (.inr ⟨fun hji => ?_, hj⟩))
    subst hji
    cases free.symm.trans hj
  pending := by
    intro j q' p hp
    rcases update_some_iff.mp hp with ⟨rfl, heq⟩ | ⟨-, hp⟩
    · obtain ⟨rfl, rfl⟩ := Prod.mk.inj heq
      have hsame : f.SameOn (f.seen j q) t s.shared := by
        intro k hk
        exact h.idle k fun l q' p hl hown => (hapart l q' p hl).2 k hown hk
      obtain ⟨hresult, hseen⟩ := (hf.isLocal j q).respects_alone t s.shared hsame
      exact .inr ⟨hresult, fun k hk => hseen k (hf.subset j q hk)⟩
    · exact h.pending j q' p hp
  working := by
    intro j q' p hp
    rcases update_some_iff.mp hp with ⟨rfl, heq⟩ | ⟨-, hp⟩
    · obtain ⟨rfl, -⟩ := Prod.mk.inj heq
      refine ⟨List.mem_append_right _ (List.mem_singleton_self _), fun hmem => ?_⟩
      exact hnew (h.received hmem)
    · obtain ⟨hmem, hundone⟩ := h.working j q' p hp
      exact ⟨List.mem_append_left _ hmem, hundone⟩
  within := by
    intro j q' p hp
    rcases update_some_iff.mp hp with ⟨rfl, heq⟩ | ⟨-, hp⟩
    · obtain ⟨rfl, rfl⟩ := Prod.mk.inj heq
      exact hf.within j q
    · exact h.within j q' p hp
  isLocal := by
    intro j q' p hp
    rcases update_some_iff.mp hp with ⟨rfl, heq⟩ | ⟨-, hp⟩
    · obtain ⟨rfl, rfl⟩ := Prod.mk.inj heq
      exact hf.isLocal j q
    · exact h.isLocal j q' p hp
  apart := by
    intro j q₁ p₁ l q₂ p₂ hj hl hne
    rcases update_some_iff.mp hj with ⟨rfl, heq⟩ | ⟨-, hother⟩
    · obtain ⟨rfl, -⟩ := Prod.mk.inj heq
      rcases update_some_iff.mp hl with ⟨rfl, -⟩ | ⟨-, hl⟩
      · exact absurd rfl hne
      · exact (hapart l q₂ p₂ hl).1
    · rcases update_some_iff.mp hl with ⟨rfl, heq⟩ | ⟨-, hl⟩
      · obtain ⟨rfl, -⟩ := Prod.mk.inj heq
        exact (hapart j q₁ p₁ hother).2
      · exact h.apart j q₁ p₁ l q₂ p₂ hother hl hne

theorem Simulates.replace (hf : f.Kept handle) (h : Simulates f handle s jobs t)
    {p p' : Process σ ε R} {shared : σ} (working : s.inProgress i = some (q, p))
    (hsame : ∀ k ∉ f.own i q, f.frame k s.shared shared)
    (hpending : Pending f handle i q p' shared t)
    (hwithin : ∀ k ∉ f.own i q, Within (f.frame k) p')
    (hlocal : Local (f.SameOn (f.seen i q)) p') : Simulates f handle { s with
      shared := shared
      inProgress := Function.update s.inProgress i (some (q, p')) } jobs t := by
  have hold : ∀ j q' p₁, Function.update s.inProgress i (some (q, p')) j = some (q', p₁) →
      ∃ p₂, s.inProgress j = some (q', p₂) := by
    intro j q' p₁ hj
    rcases update_some_iff.mp hj with ⟨rfl, heq⟩ | ⟨-, hj⟩
    · obtain ⟨rfl, -⟩ := Prod.mk.inj heq
      exact ⟨p, working⟩
    · exact ⟨p₁, hj⟩
  refine ⟨h.received, fun k hk => ?_, fun j q' p₁ hj => ?_, fun j q' p₁ hj => ?_,
    fun j q' p₁ hj => ?_, fun j q' p₁ hj => ?_, fun j q₁ p₁ l q₂ p₂ hj hl hne => ?_⟩
  · refine hf.trans k _ _ _ (h.idle k fun j q' p₁ hj => ?_)
      (hsame k (hk i q p' (Function.update_self ..)))
    by_cases hji : j = i
    · subst hji
      obtain ⟨rfl, -⟩ := Prod.mk.inj (Option.some.inj (working.symm.trans hj))
      exact hk j q p' (Function.update_self ..)
    · exact hk j q' p₁ (update_some_iff.mpr (.inr ⟨hji, hj⟩))
  · rcases update_some_iff.mp hj with ⟨rfl, heq⟩ | ⟨hji, hj⟩
    · obtain ⟨rfl, rfl⟩ := Prod.mk.inj heq
      exact hpending
    · refine (h.pending j q' p₁ hj).shared hf (h.isLocal j q' p₁ hj) fun k hk => ?_
      exact hsame k fun hown => h.apart i q p j q' p₁ working hj (Ne.symm hji) k hown hk
  · obtain ⟨p₂, hj⟩ := hold j q' p₁ hj
    exact h.working j q' p₂ hj
  · rcases update_some_iff.mp hj with ⟨rfl, heq⟩ | ⟨-, hj⟩
    · obtain ⟨rfl, rfl⟩ := Prod.mk.inj heq
      exact hwithin
    · exact h.within j q' p₁ hj
  · rcases update_some_iff.mp hj with ⟨rfl, heq⟩ | ⟨-, hj⟩
    · obtain ⟨rfl, rfl⟩ := Prod.mk.inj heq
      exact hlocal
    · exact h.isLocal j q' p₁ hj
  · obtain ⟨p₃, hj⟩ := hold j q₁ p₁ hj
    obtain ⟨p₄, hl⟩ := hold l q₂ p₂ hl
    exact h.apart j q₁ p₃ l q₂ p₄ hj hl hne

theorem Simulates.settle (hf : f.Kept handle) (h : Simulates f handle s jobs t) {t' : σ}
    {p : Process σ ε R} {finished : List (ι × Q × Fallible ε R)}
    (working : s.inProgress i = some (q, p)) (hsame : ∀ k ∉ f.own i q, f.frame k t t')
    (hown : f.SameOn (f.own i q) t' s.shared) : Simulates f handle { s with
      inProgress := Function.update s.inProgress i none
      finished := finished } (jobs ++ [(i, q)]) t' where
  received := List.append_subset.mpr
    ⟨h.received, List.cons_subset.mpr ⟨(h.working i q p working).1, List.nil_subset _⟩⟩
  idle := by
    intro k hk
    by_cases hki : k ∈ f.own i q
    · exact hown k hki
    · refine hf.trans k _ _ _ (hf.symm k _ _ (hsame k hki)) (h.idle k fun j q' p' hj => ?_)
      by_cases hji : j = i
      · subst hji
        obtain ⟨rfl, -⟩ := Prod.mk.inj (Option.some.inj (working.symm.trans hj))
        exact hki
      · exact hk j q' p' (update_none_iff.mpr ⟨hji, hj⟩)
  pending := by
    intro j q' p' hj
    obtain ⟨hji, hj⟩ := update_none_iff.mp hj
    refine (h.pending j q' p' hj).serial hf fun k hk => ?_
    exact hsame k fun hki => h.apart i q p j q' p' working hj (Ne.symm hji) k hki hk
  working := by
    intro j q' p' hj
    obtain ⟨hji, hj⟩ := update_none_iff.mp hj
    obtain ⟨hmem, hundone⟩ := h.working j q' p' hj
    refine ⟨hmem, fun hdone => ?_⟩
    rcases List.mem_append.mp hdone with hdone | hdone
    · exact hundone hdone
    · exact hji (Prod.mk.inj (List.mem_singleton.mp hdone)).1
  within j q' p' hj := h.within j q' p' (update_none_iff.mp hj).2
  isLocal j q' p' hj := h.isLocal j q' p' (update_none_iff.mp hj).2
  apart j q₁ p₁ l q₂ p₂ hj hl :=
    h.apart j q₁ p₁ l q₂ p₂ (update_none_iff.mp hj).2 (update_none_iff.mp hl).2

variable {admits : System ι Q R σ ε → ι → Q → Prop} {a : σ}

/-- Each step is a step of the serial run, or none. A job is done in the serial run when its result
is given. -/
theorem Simulates.step (hf : f.Kept handle)
    (hadmits : ∀ s i q, s.inProgress i = none → admits s i q → (i, q) ∉ s.received ∧ f.Apart s i q)
    (h : Simulates f handle s jobs t)
    (hserial : Serial f (fun i q => alone (handle i q)) a jobs t s.finished)
    (hstep : Step handle admits s s') : ∃ jobs' t', Simulates f handle s' jobs' t' ∧
      Serial f (fun i q => alone (handle i q)) a jobs' t' s'.finished := by
  cases hstep with
  | @receive i q free admitted =>
    obtain ⟨hnew, hapart⟩ := hadmits s i q free admitted
    exact ⟨jobs, t, h.receive hf free hnew hapart, hserial⟩
  | @advance i q next after working =>
    refine ⟨jobs, t, h.replace hf working (fun k hk => ?_) ?_ (fun k hk => ?_) ?_, hserial⟩
    · exact (h.within i q _ working k hk s.shared).1
    · exact (h.pending i q _ working).imp (fun ⟨e, he⟩ => by cases he) id
    · exact (h.within i q _ working k hk s.shared).2
    · exact (h.isLocal i q _ working).2 s.shared
  | @fail i q next after e working =>
    refine ⟨jobs, t, h.replace hf working (fun k _ => hf.refl k _) (.inl ⟨e, rfl⟩) (fun _ _ => ?_)
      ?_, hserial⟩
    · exact Within.done _
    · exact Local.done _
  | @finish i q result ended =>
    have hnew := (h.working i q _ ended).2
    rcases h.pending i q _ ended with ⟨e, herror⟩ | ⟨hresult, hown⟩
    · obtain rfl := Process.done.inj herror
      obtain ⟨t', hin, hout⟩ := hf.merge (f.own i q) t s.shared
      refine ⟨_, t', h.settle hf ended hout fun k hk => hf.symm k _ _ (hin k hk), ?_⟩
      exact .fail e hnew hserial hout
    · have halone : outcomeOf ((alone (.done result)).run s.shared) = (result, s.shared) := by
        cases result <;> rfl
      rw [halone] at hresult hown
      obtain rfl : _ = result := hresult
      refine ⟨_, _, h.settle hf ended (fun k hk => ?_) hown, .serve hnew hserial⟩
      exact (hf.within i q k hk).effects_alone (hf.refl k) (hf.trans k) t
  | drop i =>
    cases hworking : s.inProgress i with
    | none =>
      rw [← hworking, Function.update_eq_self]
      exact ⟨jobs, t, h, hserial⟩
    | some job =>
      obtain ⟨q, p⟩ := job
      obtain ⟨t', hin, hout⟩ := hf.merge (f.own i q) t s.shared
      refine ⟨_, t', h.settle hf hworking hout fun k hk => hf.symm k _ _ (hin k hk), ?_⟩
      exact .drop (h.working i q p hworking).2 hserial hout

/-- Whatever the order of the steps, the results are those of the jobs one after another, in the
order in which they were given. -/
theorem serial_of_reaches (hf : f.Kept handle)
    (hadmits : ∀ s i q, s.inProgress i = none → admits s i q → (i, q) ∉ s.received ∧ f.Apart s i q)
    (h : Reaches handle admits (System.start a) s) : ∃ jobs t, Simulates f handle s jobs t ∧
      Serial f (fun i q => alone (handle i q)) a jobs t s.finished := by
  induction h with
  | refl =>
    refine ⟨[], a, ⟨List.nil_subset _, fun k _ => hf.refl k a, ?_, ?_, ?_, ?_, ?_⟩, .start⟩
    · exact fun _ _ _ hp => by cases hp
    · exact fun _ _ _ hp => by cases hp
    · exact fun _ _ _ hp => by cases hp
    · exact fun _ _ _ hp => by cases hp
    · exact fun _ _ _ _ _ _ hp => by cases hp
  | tail _ hstep ih =>
    obtain ⟨jobs, t, hsimulates, hserial⟩ := ih
    exact hsimulates.step hf hadmits hserial hstep

end Steps

end FoundationSerialRuns
