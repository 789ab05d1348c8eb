import Mathlib.Data.List.Forall2
import Mathlib.Data.List.Range
import Mathlib.Data.UInt
import Mathlib.Tactic.Common

/-! # Fallible code and its loops

A run ends with a value, with a returned error or with a panic. Pure code is a value of
`Fallible`; code that mutates a state is an `EStateM` over the same faults, so that the
state reached before a fault is kept.
-/
namespace FoundationFaults

/-- The two ways in which a run ends without a value. -/
inductive Fault (ε : Type) where
  | error (e : ε)
  | panic
  deriving DecidableEq, Repr

abbrev Fallible (ε α : Type) := Except (Fault ε) α

variable {ε ε' α β : Type}

def fail (e : ε) : Fallible ε α := .error (.error e)

def panicked : Fallible ε α := .error .panic

def ensure (p : Prop) [Decidable p] (e : ε) : Fallible ε Unit :=
  if p then .ok () else fail e

/-- Panic unless `p` holds. -/
def assert (p : Prop) [Decidable p] : Fallible ε Unit :=
  if p then .ok () else panicked

def checkedSub (a b : ℕ) : Fallible ε ℕ := do
  assert (b ≤ a)
  return a - b

/-- Indexing panics outside the list. -/
def index (l : List α) (i : ℕ) : Fallible ε α :=
  match l[i]? with
  | some x => .ok x
  | none => panicked

/-- The half-open range `lo..hi`, which panics when it is not inside the list. -/
def slice (l : List α) (lo hi : ℕ) : Fallible ε (List α) :=
  if lo ≤ hi ∧ hi ≤ l.length then .ok ((l.take hi).drop lo) else panicked

def mapErr (f : ε → ε') : Fallible ε α → Fallible ε' α
  | .ok a => .ok a
  | .error (.error e) => .error (.error (f e))
  | .error .panic => .error .panic

/-- Turn every returned error into a panic, as `unwrap` does. -/
def unwrap : Fallible ε α → Fallible ε' α
  | .ok a => .ok a
  | .error _ => .error .panic

theorem exists_ok_of_isSome {x : Fallible ε α} (h : x.toOption.isSome = true) :
    ∃ a, x = .ok a := by
  cases x with
  | ok a => exact ⟨a, rfl⟩
  | error e => cases h

instance decidableExistsOk {x : Fallible ε α} {P : α → Prop} [DecidablePred P] :
    Decidable (∃ a, x = .ok a ∧ P a) :=
  match x with
  | .ok a => decidable_of_iff (P a)
      ⟨fun h => ⟨a, rfl, h⟩, fun ⟨_, hx, h⟩ => Except.ok.inj hx ▸ h⟩
  | .error _ => isFalse fun ⟨_, hx, _⟩ => nomatch hx

theorem bind_eq_ok {x : Fallible ε α} {f : α → Fallible ε β} {b : β} :
    x >>= f = .ok b ↔ ∃ a, x = .ok a ∧ f a = .ok b := by
  cases x with
  | error e => simp [bind, Except.bind]
  | ok a => simp [bind, Except.bind]

@[simp] theorem ok_bind (a : α) (f : α → Fallible ε β) : (Except.ok a : Fallible ε α) >>= f = f a :=
  rfl

@[simp] theorem error_bind (e : Fault ε) (f : α → Fallible ε β) :
    (Except.error e : Fallible ε α) >>= f = .error e := rfl

@[simp] theorem pure_eq_ok (a : α) : (pure a : Fallible ε α) = .ok a := rfl

@[simp] theorem bind_ok (x : Fallible ε α) : (x >>= fun a => .ok a) = x := by
  cases x <;> rfl

@[simp] theorem ensure_eq_ok {p : Prop} [Decidable p] {e : ε} {u : Unit} :
    ensure p e = .ok u ↔ p := by
  unfold ensure fail
  split <;> simp_all

@[simp] theorem assert_eq_ok {p : Prop} [Decidable p] {u : Unit} :
    (assert p : Fallible ε Unit) = .ok u ↔ p := by
  unfold assert panicked
  split <;> simp_all

theorem ensure_of {p : Prop} [Decidable p] (h : p) (e : ε) : ensure p e = .ok () := if_pos h

theorem assert_of {p : Prop} [Decidable p] (h : p) : (assert p : Fallible ε Unit) = .ok () :=
  if_pos h

theorem checkedSub_of {a b : ℕ} (h : b ≤ a) : (checkedSub a b : Fallible ε ℕ) = .ok (a - b) := by
  unfold checkedSub
  rw [assert_of h, ok_bind, pure_eq_ok]

theorem checkedSub_eq_ok {a b c : ℕ} :
    (checkedSub a b : Fallible ε ℕ) = .ok c ↔ b ≤ a ∧ c = a - b := by
  unfold checkedSub
  rw [bind_eq_ok]
  simp only [assert_eq_ok, pure_eq_ok, Except.ok.injEq]
  exact ⟨fun ⟨_, hle, heq⟩ => ⟨hle, heq.symm⟩, fun ⟨hle, heq⟩ => ⟨(), hle, heq.symm⟩⟩

theorem index_eq_ok {l : List α} {i : ℕ} {x : α} :
    (index l i : Fallible ε α) = .ok x ↔ l[i]? = some x := by
  unfold index panicked
  cases l[i]? <;> simp

theorem index_of_lt {l : List α} {i : ℕ} (h : i < l.length) :
    (index l i : Fallible ε α) = .ok l[i] :=
  index_eq_ok.mpr (List.getElem?_eq_getElem h)

theorem slice_eq_ok {l r : List α} {lo hi : ℕ} :
    (slice l lo hi : Fallible ε (List α)) = .ok r ↔
      lo ≤ hi ∧ hi ≤ l.length ∧ r = (l.take hi).drop lo := by
  unfold slice panicked
  split <;> simp_all [eq_comm]

@[simp] theorem mapErr_eq_ok {f : ε → ε'} {x : Fallible ε α} {a : α} :
    mapErr f x = .ok a ↔ x = .ok a := by
  rcases x with (e | _) | b <;> simp [mapErr]

@[simp] theorem unwrap_eq_ok {x : Fallible ε α} {a : α} :
    (unwrap x : Fallible ε' α) = .ok a ↔ x = .ok a := by
  cases x <;> simp [unwrap]

theorem mapM_eq_ok {f : α → Fallible ε β} {xs : List α} {ys : List β} :
    xs.mapM f = .ok ys ↔ List.Forall₂ (fun x y => f x = .ok y) xs ys := by
  induction xs generalizing ys with
  | nil => simp [eq_comm]
  | cons x xs ih =>
    rw [List.mapM_cons, bind_eq_ok]
    constructor
    · rintro ⟨y, hy, h⟩
      obtain ⟨zs, hz, h⟩ := bind_eq_ok.mp h
      cases h
      exact .cons hy (ih.mp hz)
    · rintro (_ | ⟨hy, hz⟩)
      exact ⟨_, hy, bind_eq_ok.mpr ⟨_, ih.mpr hz, rfl⟩⟩

theorem mapM_of_forall {f : α → Fallible ε β} {g : α → β} {xs : List α}
    (h : ∀ x ∈ xs, f x = .ok (g x)) : xs.mapM f = .ok (xs.map g) := by
  rw [mapM_eq_ok, List.forall₂_map_right_iff, List.forall₂_same]
  exact h

theorem exists_mapM_eq_ok {f : α → Fallible ε β} {xs : List α} :
    (∃ ys, xs.mapM f = .ok ys) ↔ ∀ x ∈ xs, ∃ y, f x = .ok y := by
  constructor
  · rintro ⟨ys, hrun⟩ x hx
    obtain ⟨i, hi, rfl⟩ := List.getElem_of_mem hx
    have hall := mapM_eq_ok.mp hrun
    exact ⟨_, hall.get hi (hall.length_eq ▸ hi)⟩
  · intro hall
    induction xs with
    | nil => exact ⟨[], rfl⟩
    | cons x xs ih =>
      rw [List.forall_mem_cons] at hall
      obtain ⟨⟨y, hy⟩, hrest⟩ := hall
      obtain ⟨ys, hys⟩ := ih hrest
      exact ⟨y :: ys, mapM_eq_ok.mpr (.cons hy (mapM_eq_ok.mp hys))⟩

theorem mapM_zip_extend {f : α → Fallible ε β} {g : α → β} {collected : α → List β} {xs : List α}
    (h : ∀ x ∈ xs, f x = .ok (g x)) :
    (((xs.map collected).zip xs).mapM fun p => do return p.1 ++ [← f p.2]) =
      .ok (xs.map fun x => collected x ++ [g x]) := by
  have hzip : (xs.map collected).zip xs = xs.map fun x => (collected x, x) := by
    simpa only [List.map_id, id_eq] using List.zip_map' (f := collected) (g := id) (l := xs)
  rw [hzip, mapM_eq_ok, List.forall₂_map_left_iff, List.forall₂_map_right_iff, List.forall₂_same]
  intro x hx
  rw [h x hx]
  rfl

theorem forM_eq_ok {f : α → Fallible ε Unit} {xs : List α} {u : Unit} :
    xs.forM f = .ok u ↔ ∀ x ∈ xs, f x = .ok () := by
  induction xs with
  | nil => simp
  | cons x xs ih =>
    have hcons : (x :: xs).forM f = (f x >>= fun _ => xs.forM f) := rfl
    rw [hcons, bind_eq_ok, List.forall_mem_cons, ← ih]
    exact ⟨fun ⟨_, h⟩ => h, fun h => ⟨(), h⟩⟩

theorem foldlM_reaches {f : β → α → Fallible ε β} (motive : List α → β → Prop) {xs : List α}
    {b : β} (hstart : motive [] b) (hstep : ∀ seen x c, (seen ++ [x]) <+: xs → motive seen c →
      ∃ c', f c x = .ok c' ∧ motive (seen ++ [x]) c') :
    ∃ b', xs.foldlM f b = .ok b' ∧ motive xs b' := by
  induction xs using List.reverseRecOn with
  | nil => exact ⟨b, rfl, hstart⟩
  | append_singleton xs x ih =>
    obtain ⟨c, hrun, hc⟩ :=
      ih fun seen y d hp => hstep seen y d (hp.trans (List.prefix_append _ _))
    obtain ⟨c', hx, hc'⟩ := hstep xs x c List.prefix_rfl hc
    refine ⟨c', ?_, hc'⟩
    rw [List.foldlM_append, hrun, ok_bind, List.foldlM_cons, hx]
    rfl

/-- Code that mutates a state; the state reached before a fault is kept. -/
abbrev Stateful (ε σ α : Type) := EStateM (Fault ε) σ α

variable {σ : Type}

def lift (x : Fallible ε α) : Stateful ε σ α := fun s =>
  match x with
  | .ok a => .ok a s
  | .error e => .error e s

def forEach (xs : List α) (f : α → Stateful ε σ β) : Stateful ε σ (List β) := xs.mapM f

section Runs

variable {x : Stateful ε σ α} {f : α → Stateful ε σ β} {s s' : σ}

theorem exists_run_of_isSome (h : (x.run' s).isSome = true) : ∃ a s', x.run s = .ok a s' := by
  unfold EStateM.run' at h
  cases hrun : x.run s with
  | ok a s' => exact ⟨a, s', rfl⟩
  | error e s' =>
    rw [hrun] at h
    cases h

theorem run_bind_ok {b : β} : (x >>= f).run s = .ok b s' ↔
    ∃ a s₁, x.run s = .ok a s₁ ∧ (f a).run s₁ = .ok b s' := by
  rw [EStateM.run_bind]
  cases x.run s <;> simp

theorem run_bind_of_ok {a : α} {s₁ : σ} (h : x.run s = .ok a s₁) :
    (x >>= f).run s = (f a).run s₁ := by
  rw [EStateM.run_bind, h]

@[simp] theorem run_lift_ok {y : Fallible ε α} {a : α} :
    ((lift y : Stateful ε σ α).run s = .ok a s') ↔ y = .ok a ∧ s = s' := by
  cases y <;> simp [lift, EStateM.run]

theorem run_lift_of_ok {y : Fallible ε α} {a : α} (h : y = .ok a) :
    (lift y : Stateful ε σ α).run s = .ok a s := run_lift_ok.mpr ⟨h, rfl⟩

theorem run_lift_bind_ok {y : Fallible ε α} {b : β} : (lift y >>= f).run s = .ok b s' ↔
    ∃ a, y = .ok a ∧ (f a).run s = .ok b s' := by
  rw [run_bind_ok]
  constructor
  · rintro ⟨a, s₁, hlift, hrun⟩
    obtain ⟨hy, rfl⟩ := run_lift_ok.mp hlift
    exact ⟨a, hy, hrun⟩
  · rintro ⟨a, hy, hrun⟩
    exact ⟨a, s, run_lift_of_ok hy, hrun⟩

theorem run_pure_ok {a a' : α} :
    ((pure a : Stateful ε σ α).run s = .ok a' s') ↔ a = a' ∧ s = s' := by
  simp [EStateM.run_pure]

theorem run_modify_ok {g : σ → σ} {u : Unit} :
    ((modify g : Stateful ε σ Unit).run s = .ok u s') ↔ g s = s' := by
  simp [EStateM.run_modify]

theorem forEach_total {xs : List α} (h : ∀ x ∈ xs, ∀ s, ∃ y s', (f x).run s = .ok y s') (s : σ) :
    ∃ ys s', (forEach xs f).run s = .ok ys s' := by
  unfold forEach
  induction xs generalizing s with
  | nil => exact ⟨[], s, by rw [List.mapM_nil, EStateM.run_pure]⟩
  | cons x xs ih =>
    obtain ⟨y, s₁, hx⟩ := h x (by simp) s
    obtain ⟨ys, s₂, hxs⟩ := ih (fun z hz => h z (by simp [hz])) s₁
    refine ⟨y :: ys, s₂, ?_⟩
    rw [List.mapM_cons, run_bind_of_ok hx, run_bind_of_ok hxs, EStateM.run_pure]

/-- The states between the rounds of a loop over `0..n`: each round takes its state to the
next. -/
theorem run_forEach_range {n : ℕ} {f : ℕ → Stateful ε σ β} {ys : List β} :
    (forEach (List.range n) f).run s = .ok ys s' ↔ ys.length = n ∧ ∃ st : ℕ → σ, st 0 = s ∧
      st n = s' ∧ ∀ i < n, ∃ y, ys[i]? = some y ∧ (f i).run (st i) = .ok y (st (i + 1)) := by
  unfold forEach
  induction n generalizing ys s' with
  | zero =>
    simp only [List.range_zero, List.mapM_nil, run_pure_ok, Nat.not_lt_zero, IsEmpty.forall_iff,
      implies_true, and_true]
    constructor
    · rintro ⟨rfl, rfl⟩
      exact ⟨rfl, fun _ => s, rfl, rfl⟩
    · rintro ⟨hlen, st, rfl, rfl⟩
      exact ⟨(List.length_eq_zero_iff.mp hlen).symm, rfl⟩
  | succ n ih =>
    simp only [List.range_succ, List.mapM_append, List.mapM_cons, List.mapM_nil, bind_assoc,
      pure_bind, run_bind_ok, run_pure_ok]
    constructor
    · rintro ⟨zs, s₁, hrun, y, s₂, hy, rfl, rfl⟩
      obtain ⟨hlen, st, h0, hn, hstep⟩ := ih.mp hrun
      refine ⟨by simp [hlen], fun i => if i ≤ n then st i else s₂, by simpa using h0, by simp, ?_⟩
      intro i hi
      rcases Nat.lt_or_ge i n with hlt | hge
      · obtain ⟨z, hz, hrun⟩ := hstep i hlt
        refine ⟨z, by rw [List.getElem?_append_left (by omega), hz], ?_⟩
        simpa only [if_pos hlt.le, if_pos (Nat.succ_le_of_lt hlt)] using hrun
      · obtain rfl : i = n := by omega
        refine ⟨y, by rw [← hlen, List.getElem?_concat_length], ?_⟩
        simpa only [if_pos (le_refl i), if_neg (Nat.not_succ_le_self i), hn] using hy
    · rintro ⟨hlen, st, h0, hn, hstep⟩
      obtain ⟨y, hy, hrun⟩ := hstep n (by omega)
      obtain rfl | ⟨zs, z, rfl⟩ := List.eq_nil_or_concat ys
      · simp at hlen
      · have hzs : zs.length = n := by simpa using hlen
        rw [List.concat_eq_append, ← hzs, List.getElem?_concat_length] at hy
        cases hy
        refine ⟨zs, st n, ih.mpr ⟨hzs, st, h0, rfl, fun i hi => ?_⟩, y, s', hn ▸ hrun, ?_, rfl⟩
        · obtain ⟨y, hy, hrun⟩ := hstep i (by omega)
          rw [List.concat_eq_append, List.getElem?_append_left (by omega)] at hy
          exact ⟨y, hy, hrun⟩
        · rw [List.concat_eq_append]

end Runs

end FoundationFaults
