import ProofOfStorage.FoundationFaults

/-! # Total correctness of code that mutates a state

`Runs x s Q` says that `x` succeeds from `s` and that its result and final state satisfy `Q`;
`Ensures x s Q` says so only of an `x` that succeeds. The rules follow the way the code is put
together.
-/
namespace FoundationRuns

open FoundationFaults

variable {ε σ τ α β : Type}

def Runs (x : Stateful ε σ α) (s : σ) (Q : α → σ → Prop) : Prop :=
  ∃ a s', x.run s = .ok a s' ∧ Q a s'

/-- Partial correctness: a run that fails ensures everything. -/
def Ensures (x : Stateful ε σ α) (s : σ) (Q : α → σ → Prop) : Prop :=
  ∀ a s', x.run s = .ok a s' → Q a s'

/-- A loop that outlasts its bound on the number of rounds has no result. -/
def repeatWhile (cond : σ → Bool) (body : Stateful ε σ Unit) : ℕ → Stateful ε σ Unit
  | 0 => lift panicked
  | rounds + 1 => do
    if cond (← get) then
      body
      repeatWhile cond body rounds

def zoom (part : τ → σ) (set : τ → σ → τ) (x : Stateful ε σ α) : Stateful ε τ α := fun t =>
  match x.run (part t) with
  | .ok a s => .ok a (set t s)
  | .error e s => .error e (set t s)

variable {x : Stateful ε σ α} {f : α → Stateful ε σ β} {s : σ}

theorem Runs.mono {Q Q' : α → σ → Prop} (h : Runs x s Q) (hQ : ∀ a s', Q a s' → Q' a s') :
    Runs x s Q' := by
  obtain ⟨a, s', hrun, hq⟩ := h
  exact ⟨a, s', hrun, hQ a s' hq⟩

theorem Runs.of_run {Q : α → σ → Prop} {a : α} {s' : σ} (h : Runs x s Q)
    (hrun : x.run s = .ok a s') : Q a s' := by
  obtain ⟨a', s'', hrun', hq⟩ := h
  rw [hrun] at hrun'
  cases hrun'
  exact hq

theorem not_runs_of_error {Q : α → σ → Prop} {e : Fault ε} {s' : σ} (h : x.run s = .error e s') :
    ¬Runs x s Q := by
  rintro ⟨a, s'', hrun, -⟩
  rw [h] at hrun
  cases hrun

@[simp] theorem runs_bind {Q : β → σ → Prop} :
    Runs (x >>= f) s Q ↔ Runs x s fun a s₁ => Runs (f a) s₁ Q := by
  constructor
  · rintro ⟨b, s', hrun, hq⟩
    obtain ⟨a, s₁, hx, hf⟩ := run_bind_ok.mp hrun
    exact ⟨a, s₁, hx, b, s', hf, hq⟩
  · rintro ⟨a, s₁, hx, b, s', hf, hq⟩
    exact ⟨b, s', run_bind_ok.mpr ⟨a, s₁, hx, hf⟩, hq⟩

@[simp] theorem runs_pure {a : α} {Q : α → σ → Prop} :
    Runs (pure a : Stateful ε σ α) s Q ↔ Q a s := by
  constructor
  · rintro ⟨a', s', hrun, hq⟩
    obtain ⟨rfl, rfl⟩ := run_pure_ok.mp hrun
    exact hq
  · intro hq
    exact ⟨a, s, rfl, hq⟩

@[simp] theorem runs_get {Q : σ → σ → Prop} : Runs (get : Stateful ε σ σ) s Q ↔ Q s s := by
  constructor
  · rintro ⟨a, s', hrun, hq⟩
    cases hrun
    exact hq
  · intro hq
    exact ⟨s, s, rfl, hq⟩

@[simp] theorem runs_modify {g : σ → σ} {Q : Unit → σ → Prop} :
    Runs (modify g : Stateful ε σ Unit) s Q ↔ Q () (g s) := by
  constructor
  · rintro ⟨a, s', hrun, hq⟩
    obtain rfl := run_modify_ok.mp hrun
    exact hq
  · intro hq
    exact ⟨(), g s, EStateM.run_modify .., hq⟩

@[simp] theorem runs_lift {y : Fallible ε α} {Q : α → σ → Prop} :
    Runs (lift y : Stateful ε σ α) s Q ↔ ∃ a, y = .ok a ∧ Q a s := by
  constructor
  · rintro ⟨a, s', hrun, hq⟩
    obtain ⟨hy, rfl⟩ := run_lift_ok.mp hrun
    exact ⟨a, hy, hq⟩
  · rintro ⟨a, hy, hq⟩
    exact ⟨a, s, run_lift_of_ok hy, hq⟩

@[simp] theorem runs_zoom {part : τ → σ} {set : τ → σ → τ} {t : τ} {Q : α → τ → Prop} :
    Runs (zoom part set x) t Q ↔ Runs x (part t) fun a s' => Q a (set t s') := by
  unfold Runs zoom
  constructor
  · rintro ⟨a, t', hrun, hq⟩
    change (match x.run (part t) with
      | .ok a s => EStateM.Result.ok a (set t s)
      | .error e s => .error e (set t s)) = _ at hrun
    cases hx : x.run (part t) with
    | ok b s' =>
      rw [hx] at hrun
      cases hrun
      exact ⟨_, s', rfl, hq⟩
    | error e s' =>
      rw [hx] at hrun
      cases hrun
  · rintro ⟨a, s', hrun, hq⟩
    refine ⟨a, set t s', ?_, hq⟩
    change (match x.run (part t) with
      | .ok a s => EStateM.Result.ok a (set t s)
      | .error e s => .error e (set t s)) = _
    rw [hrun]

section Partial

theorem ensures_bind {Q : β → σ → Prop} :
    Ensures (x >>= f) s Q ↔ Ensures x s fun a s₁ => Ensures (f a) s₁ Q := by
  constructor
  · intro h a s₁ hx b s' hf
    exact h b s' (run_bind_ok.mpr ⟨a, s₁, hx, hf⟩)
  · intro h b s' hrun
    obtain ⟨a, s₁, hx, hf⟩ := run_bind_ok.mp hrun
    exact h a s₁ hx b s' hf

theorem ensures_pure {a : α} {Q : α → σ → Prop} :
    Ensures (pure a : Stateful ε σ α) s Q ↔ Q a s := by
  constructor
  · intro h
    exact h a s rfl
  · intro hq a' s' hrun
    obtain ⟨rfl, rfl⟩ := run_pure_ok.mp hrun
    exact hq

theorem ensures_get {Q : σ → σ → Prop} : Ensures (get : Stateful ε σ σ) s Q ↔ Q s s := by
  constructor
  · intro h
    exact h s s rfl
  · intro hq a s' hrun
    cases hrun
    exact hq

theorem ensures_modify {g : σ → σ} {Q : Unit → σ → Prop} :
    Ensures (modify g : Stateful ε σ Unit) s Q ↔ Q () (g s) := by
  constructor
  · intro h
    exact h () (g s) (EStateM.run_modify ..)
  · intro hq _ s' hrun
    obtain rfl := run_modify_ok.mp hrun
    exact hq

theorem ensures_lift {y : Fallible ε α} {Q : α → σ → Prop} :
    Ensures (lift y : Stateful ε σ α) s Q ↔ ∀ a, y = .ok a → Q a s := by
  constructor
  · intro h a hy
    exact h a s (run_lift_of_ok hy)
  · intro hq a s' hrun
    obtain ⟨hy, rfl⟩ := run_lift_ok.mp hrun
    exact hq a hy

theorem ensures_zoom {part : τ → σ} {set : τ → σ → τ} {t : τ} {Q : α → τ → Prop} :
    Ensures (zoom part set x) t Q ↔ Ensures x (part t) fun a s' => Q a (set t s') := by
  constructor
  · intro h a s' hx
    refine h a (set t s') ?_
    change (match x.run (part t) with
      | .ok a s => EStateM.Result.ok a (set t s)
      | .error e s => .error e (set t s)) = _
    rw [hx]
  · intro h a t' hrun
    change (match x.run (part t) with
      | .ok a s => EStateM.Result.ok a (set t s)
      | .error e s => .error e (set t s)) = _ at hrun
    cases hx : x.run (part t) with
    | ok b s' =>
      rw [hx] at hrun
      cases hrun
      exact h _ s' hx
    | error e s' =>
      rw [hx] at hrun
      cases hrun

theorem Runs.ensures {Q : α → σ → Prop} (h : Runs x s Q) : Ensures x s Q :=
  fun _ _ hrun => h.of_run hrun

theorem Ensures.mono {Q Q' : α → σ → Prop} (h : Ensures x s Q) (hQ : ∀ a s', Q a s' → Q' a s') :
    Ensures x s Q' := fun a s' hrun => hQ a s' (h a s' hrun)

theorem ensures_forEach {xs : List α} (inv : σ → Prop)
    (hstep : ∀ y s, inv s → Ensures (f y) s fun _ s' => inv s') (h : inv s) :
    Ensures (forEach xs f) s fun _ s' => inv s' := by
  unfold forEach
  induction xs generalizing s with
  | nil =>
    rw [List.mapM_nil, ensures_pure]
    exact h
  | cons y xs ih =>
    rw [List.mapM_cons, ensures_bind]
    refine (hstep y s h).mono ?_
    intro _ s₁ hinv
    rw [ensures_bind]
    refine (ih hinv).mono ?_
    intro _ s₂ hinv'
    rw [ensures_pure]
    exact hinv'

end Partial

instance decidableRuns {Q : α → σ → Prop} [∀ a s, Decidable (Q a s)] : Decidable (Runs x s Q) :=
  match hrun : x.run s with
  | .ok a s' => decidable_of_iff (Q a s')
      ⟨fun hq => ⟨a, s', hrun, hq⟩, fun h => h.of_run hrun⟩
  | .error _ _ => isFalse fun ⟨_, _, hok, _⟩ => by
      rw [hrun] at hok
      cases hok

instance decidableEnsures {Q : α → σ → Prop} [∀ a s, Decidable (Q a s)] :
    Decidable (Ensures x s Q) :=
  match hrun : x.run s with
  | .ok a s' => decidable_of_iff (Q a s')
      ⟨fun hq => Runs.ensures ⟨a, s', hrun, hq⟩, fun h => h a s' hrun⟩
  | .error _ _ => isTrue fun _ _ hok => by
      rw [hrun] at hok
      cases hok

/-- The loop ends in a state that keeps the invariant and fails the condition, when every
round keeps the invariant and takes the measure down. -/
theorem runs_repeatWhile {cond : σ → Bool} {body : Stateful ε σ Unit} (inv : σ → Prop)
    (measure : σ → ℕ) (hbody : ∀ s, inv s → cond s = true →
      Runs body s fun _ s' => inv s' ∧ measure s' < measure s)
    {rounds : ℕ} (h : inv s) (hrounds : measure s < rounds) :
    Runs (repeatWhile cond body rounds) s fun _ s' => inv s' ∧ cond s' = false := by
  induction rounds generalizing s with
  | zero => omega
  | succ rounds ih =>
    rw [repeatWhile, runs_bind, runs_get]
    by_cases hcond : cond s = true
    · rw [if_pos hcond, runs_bind]
      refine (hbody s h hcond).mono ?_
      rintro _ s₁ ⟨hinv, hless⟩
      exact ih hinv (by omega)
    · rw [if_neg hcond, runs_pure]
      exact ⟨h, Bool.eq_false_iff.mpr hcond⟩

theorem range'_prefix {a n i : ℕ} {seen : List ℕ} (h : seen ++ [i] <+: List.range' a n) :
    seen.length < n ∧ i = a + seen.length := by
  obtain ⟨rest, hrest⟩ := h
  have hlen := congrArg List.length hrest
  simp only [List.length_append, List.length_singleton, List.length_range'] at hlen
  have hget : (List.range' a n)[seen.length]? = some i := by
    rw [← hrest]
    simp
  rw [List.getElem?_range' (by omega), Nat.one_mul] at hget
  exact ⟨by omega, (Option.some.inj hget).symm⟩

/-- A loop over a list, with an invariant that may name the elements already visited. -/
theorem runs_forEach {xs : List α} (inv : List α → σ → Prop)
    (hstep : ∀ seen y s, (seen ++ [y]) <+: xs → inv seen s →
      Runs (f y) s fun _ s' => inv (seen ++ [y]) s') (h : inv [] s) :
    Runs (forEach xs f) s fun _ s' => inv xs s' := by
  unfold forEach
  induction xs using List.reverseRecOn with
  | nil =>
    rw [List.mapM_nil, runs_pure]
    exact h
  | append_singleton xs y ih =>
    rw [List.mapM_append, runs_bind]
    refine (ih fun seen z s hp => hstep seen z s (hp.trans (List.prefix_append _ _))).mono ?_
    intro _ s₁ hinv
    rw [List.mapM_cons, runs_bind, runs_bind]
    refine (hstep xs y s₁ List.prefix_rfl hinv).mono ?_
    intro _ s₂ hinv'
    rw [List.mapM_nil, runs_bind, runs_pure, runs_pure, runs_pure]
    exact hinv'

theorem runs_foldlM {xs : List α} {g : β → α → Stateful ε σ β} {b : β}
    (inv : List α → β → σ → Prop) (hstep : ∀ seen y b s, (seen ++ [y]) <+: xs → inv seen b s →
      Runs (g b y) s fun b' s' => inv (seen ++ [y]) b' s') (h : inv [] b s) :
    Runs (xs.foldlM g b) s fun b' s' => inv xs b' s' := by
  induction xs using List.reverseRecOn with
  | nil =>
    rw [List.foldlM_nil, runs_pure]
    exact h
  | append_singleton xs y ih =>
    rw [List.foldlM_append, runs_bind]
    refine (ih fun seen z b s hp => hstep seen z b s (hp.trans (List.prefix_append _ _))).mono ?_
    intro b₁ s₁ hinv
    rw [List.foldlM_cons, runs_bind]
    refine (hstep xs y b₁ s₁ List.prefix_rfl hinv).mono ?_
    intro b₂ s₂ hinv'
    rw [List.foldlM_nil, runs_pure]
    exact hinv'

end FoundationRuns
