import ProofOfStorage.FoundationFaults

/-! # Which runs panic

`Panics x s` says that `x` ends in a panic from `s`. The rules follow the way the code is put
together; a returned error is not a panic.
-/
namespace FoundationPanics

open FoundationFaults

variable {ε ε' σ α β : Type}

def Panics (x : Stateful ε σ α) (s : σ) : Prop := ∃ s', x.run s = .error .panic s'

section Pure

variable {y : Fallible ε α}

theorem ensure_ne_panic {p : Prop} [Decidable p] {e : ε} : ensure p e ≠ .error .panic := by
  unfold ensure fail
  split <;> simp

theorem index_eq_panic {l : List α} {i : ℕ} :
    (index l i : Fallible ε α) = .error .panic ↔ l.length ≤ i := by
  unfold index panicked
  rcases Nat.lt_or_ge i l.length with hlt | hge
  · simp [hlt]
  · simp [hge]

theorem mapErr_eq_panic {f : ε → ε'} : mapErr f y = .error .panic ↔ y = .error .panic := by
  rcases y with (e | _) | a <;> simp [mapErr]

theorem bind_eq_panic {f : α → Fallible ε β} : y >>= f = .error .panic ↔
    y = .error .panic ∨ ∃ a, y = .ok a ∧ f a = .error .panic := by
  cases y with
  | error e => simp
  | ok a => simp

theorem forM_ne_panic {f : α → Fallible ε Unit} {xs : List α}
    (h : ∀ x ∈ xs, f x ≠ .error .panic) : xs.forM f ≠ .error .panic := by
  induction xs with
  | nil => exact nofun
  | cons x xs ih =>
    rw [List.forall_mem_cons] at h
    have hcons : (x :: xs).forM f = (f x >>= fun _ => xs.forM f) := rfl
    rw [hcons, Ne, bind_eq_panic]
    rintro (hx | ⟨_, -, hrest⟩)
    · exact h.1 hx
    · exact ih h.2 hrest

theorem foldlM_ne_panic {f : β → α → Fallible ε β} {xs : List α} {b : β}
    (h : ∀ b, ∀ x ∈ xs, f b x ≠ .error .panic) : xs.foldlM f b ≠ .error .panic := by
  induction xs generalizing b with
  | nil => exact nofun
  | cons x xs ih =>
    rw [List.foldlM_cons, Ne, bind_eq_panic]
    rintro (hx | ⟨b', -, hrest⟩)
    · exact h b x List.mem_cons_self hx
    · exact ih (fun b y hy => h b y (List.mem_cons_of_mem x hy)) hrest

end Pure

/-- Code that ends with a value or with a panic, never with a returned error. -/
def NoError (y : Fallible ε α) : Prop := ∀ e, y ≠ .error (.error e)

section Infallible

variable {y : Fallible ε α}

theorem eq_panic_iff_of_noError (h : NoError y) : y = .error .panic ↔ ¬∃ a, y = .ok a := by
  rcases y with (e | _) | a
  · exact absurd rfl (h e)
  · simp
  · simp

theorem noError_ok (a : α) : NoError (.ok a : Fallible ε α) := nofun

theorem noError_panicked : NoError (panicked : Fallible ε α) := nofun

theorem noError_bind {f : α → Fallible ε β} (hy : NoError y) (hf : ∀ a, NoError (f a)) :
    NoError (y >>= f) := by
  intro e
  cases y with
  | error e' => simpa using hy e
  | ok a => exact hf a e

theorem noError_mapM {f : α → Fallible ε β} {xs : List α} (h : ∀ x ∈ xs, NoError (f x)) :
    NoError (xs.mapM f) := by
  induction xs with
  | nil => exact noError_ok []
  | cons x xs ih =>
    rw [List.forall_mem_cons] at h
    rw [List.mapM_cons]
    apply noError_bind h.1
    intro b
    exact noError_bind (ih h.2) fun _ => noError_ok _

theorem noError_index {l : List α} {i : ℕ} : NoError (index l i : Fallible ε α) := by
  unfold index panicked
  cases l[i]? <;> exact nofun

theorem noError_unwrap {z : Fallible ε' α} : NoError (unwrap z : Fallible ε α) := by
  cases z <;> exact nofun

theorem exists_error_of (hpanic : y ≠ .error .panic) (hok : ∀ a, y ≠ .ok a) :
    ∃ e, y = .error (.error e) := by
  rcases y with (e | _) | a
  · exact ⟨e, rfl⟩
  · exact absurd rfl hpanic
  · exact absurd rfl (hok a)

theorem mapM_panics {f : α → Fallible ε β} {xs : List α} {x : α} (h : ∀ x ∈ xs, NoError (f x))
    (hx : x ∈ xs) (hpanic : f x = .error .panic) : xs.mapM f = .error .panic := by
  rw [eq_panic_iff_of_noError (noError_mapM h), exists_mapM_eq_ok]
  intro hall
  obtain ⟨b, hb⟩ := hall x hx
  rw [hpanic] at hb
  cases hb

theorem foldlM_panics {f : β → α → Fallible ε β} {I : β → Prop} {xs : List α} {x : α} {b : β}
    (hround : ∀ b, I b → ∀ y ∈ xs, NoError (f b y) ∧ ∀ b', f b y = .ok b' → I b')
    (hlast : ∀ b, I b → f b x = .error .panic) (hb : I b) :
    (xs ++ [x]).foldlM f b = .error .panic := by
  induction xs generalizing b with
  | nil => simp [hlast b hb]
  | cons y ys ih =>
    rw [List.cons_append, List.foldlM_cons]
    obtain ⟨hnoError, hkeep⟩ := hround b hb y List.mem_cons_self
    cases hy : f b y with
    | error e =>
      rcases e with e | _
      · exact absurd hy (hnoError e)
      · rfl
    | ok b' => exact ih (fun b hb z hz => hround b hb z (List.mem_cons_of_mem y hz)) (hkeep b' hy)

end Infallible

section Runs

variable {x : Stateful ε σ α} {f : α → Stateful ε σ β} {s : σ}

theorem not_panics_iff : ¬Panics x s ↔ (∃ a s', x.run s = .ok a s') ∨
    ∃ e s', x.run s = .error (.error e) s' := by
  unfold Panics
  rcases x.run s with ⟨a, s'⟩ | ⟨e | _, s'⟩ <;> simp

theorem not_panics_of_ok {a : α} {s' : σ} (h : x.run s = .ok a s') : ¬Panics x s :=
  not_panics_iff.mpr (.inl ⟨a, s', h⟩)

theorem panics_lift {y : Fallible ε α} : Panics (lift y) s ↔ y = .error .panic := by
  unfold Panics
  cases y <;> simp [lift, EStateM.run]

theorem panics_bind : Panics (x >>= f) s ↔
    Panics x s ∨ ∃ a s', x.run s = .ok a s' ∧ Panics (f a) s' := by
  unfold Panics
  rw [EStateM.run_bind]
  cases x.run s <;> simp

theorem panics_lift_bind {y : Fallible ε α} : Panics (lift y >>= f) s ↔
    y = .error .panic ∨ ∃ a, y = .ok a ∧ Panics (f a) s := by
  rw [panics_bind, panics_lift]
  refine or_congr_right ?_
  constructor
  · rintro ⟨a, s', hlift, hpanics⟩
    obtain ⟨hy, rfl⟩ := run_lift_ok.mp hlift
    exact ⟨a, hy, hpanics⟩
  · rintro ⟨a, hy, hpanics⟩
    exact ⟨a, s, run_lift_of_ok hy, hpanics⟩

theorem panics_ensure_bind {p : Prop} [Decidable p] {e : ε} {f : Unit → Stateful ε σ β} :
    Panics (lift (ensure p e) >>= f) s ↔ p ∧ Panics (f ()) s := by
  rw [panics_lift_bind]
  constructor
  · rintro (hpanic | ⟨_, hp, hpanics⟩)
    · exact absurd hpanic ensure_ne_panic
    · exact ⟨ensure_eq_ok.mp hp, hpanics⟩
  · rintro ⟨hp, hpanics⟩
    exact .inr ⟨(), ensure_of hp e, hpanics⟩

theorem panics_bind_of_ok {a : α} {s' : σ} (h : x.run s = .ok a s') :
    Panics (x >>= f) s ↔ Panics (f a) s' := by
  unfold Panics
  rw [run_bind_of_ok h]

theorem panics_get_bind {f : σ → Stateful ε σ β} : Panics (get >>= f) s ↔ Panics (f s) s :=
  panics_bind_of_ok rfl

theorem panics_modify_bind {g : σ → σ} {f : Unit → Stateful ε σ β} :
    Panics (modify g >>= f) s ↔ Panics (f ()) (g s) :=
  panics_bind_of_ok rfl

/-- A loop panics with the first of its rounds that panics. -/
theorem panics_forEach {before after : List α} {y : α}
    (hbefore : ∀ z ∈ before, ∀ s, ∃ b s', (f z).run s = .ok b s') (hy : ∀ s, Panics (f y) s) :
    Panics (forEach (before ++ y :: after) f) s := by
  obtain ⟨bs, s', hrun⟩ := forEach_total hbefore s
  unfold forEach at hrun ⊢
  rw [List.mapM_append, panics_bind_of_ok hrun, List.mapM_cons]
  exact panics_bind.mpr (.inl (panics_bind.mpr (.inl (hy s'))))

end Runs

end FoundationPanics
