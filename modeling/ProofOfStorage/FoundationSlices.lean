import ProofOfStorage.FoundationFaults
import Mathlib.Algebra.BigOperators.Intervals
import Mathlib.Algebra.BigOperators.Ring.Finset
import Mathlib.Data.List.GetD
import Mathlib.Tactic.Ring

/-! # Row-major slices

Matrices are flat lists. Reading past the end of a list gives the padding value, so a
zero-padded matrix and its unpadded prefix have the same entries.
-/
namespace FoundationSlices

open FoundationFaults

variable {ε α : Type}

/-- Division rounded up; the divisor is positive wherever it is used. -/
def divCeil (a b : ℕ) : ℕ := (a + b - 1) / b

theorem divCeil_le_iff {a b k : ℕ} (hb : 0 < b) : divCeil a b ≤ k ↔ a ≤ k * b := by
  unfold divCeil
  rw [← Nat.lt_add_one_iff, Nat.div_lt_iff_lt_mul hb, Nat.add_mul, Nat.one_mul]
  omega

theorem lt_divCeil_iff {a b k : ℕ} (hb : 0 < b) : k < divCeil a b ↔ k * b < a := by
  have h := divCeil_le_iff (a := a) (k := k) hb
  omega

theorem le_divCeil_mul (a : ℕ) {b : ℕ} (hb : 0 < b) : a ≤ divCeil a b * b :=
  (divCeil_le_iff hb).mp le_rfl

theorem divCeil_mono {a a' b : ℕ} (hb : 0 < b) (h : a ≤ a') : divCeil a b ≤ divCeil a' b :=
  (divCeil_le_iff hb).mpr (h.trans (le_divCeil_mul a' hb))

theorem divCeil_zero {b : ℕ} (hb : 0 < b) : divCeil 0 b = 0 :=
  Nat.le_zero.mp ((divCeil_le_iff hb).mpr (Nat.zero_le _))

theorem divCeil_le_self (a : ℕ) {b : ℕ} (hb : 0 < b) : divCeil a b ≤ a :=
  (divCeil_le_iff hb).mpr (Nat.le_mul_of_pos_right a hb)

theorem divCeil_eq_iff_of_le {a a' b : ℕ} (hb : 0 < b) (h : a ≤ a') :
    divCeil a' b = divCeil a b ↔ a' ≤ divCeil a b * b := by
  constructor
  · intro heq
    exact (divCeil_le_iff hb).mp heq.le
  · intro hle
    apply Nat.le_antisymm ((divCeil_le_iff hb).mpr hle)
    exact divCeil_mono hb h

theorem divCeil_unique {a b k : ℕ} (hb : 0 < b) (hle : a ≤ k * b)
    (hlt : ∀ j, j < k → j * b < a) : divCeil a b = k := by
  refine le_antisymm ((divCeil_le_iff hb).mpr hle) ?_
  by_contra h
  have h1 := hlt (divCeil a b) (by omega)
  have h2 := le_divCeil_mul a hb
  omega

theorem divCeil_mul (k : ℕ) {b : ℕ} (hb : 0 < b) : divCeil (k * b) b = k :=
  divCeil_unique hb le_rfl fun _ hj => Nat.mul_lt_mul_of_pos_right hj hb

theorem divCeil_divCeil (a : ℕ) {c p : ℕ} (hc : 0 < c) (hp : 0 < p) :
    divCeil (divCeil a c) p = divCeil a (p * c) := by
  apply eq_of_forall_ge_iff
  intro k
  rw [divCeil_le_iff hp, divCeil_le_iff hc, divCeil_le_iff (Nat.mul_pos hp hc), Nat.mul_assoc]

theorem divCeil_of_dvd {a b : ℕ} (hb : 0 < b) (h : b ∣ a) : divCeil a b = a / b := by
  obtain ⟨k, rfl⟩ := h
  rw [Nat.mul_comm, divCeil_mul k hb, Nat.mul_div_cancel _ hb]

theorem divCeil_of_not_dvd {a b : ℕ} (hb : 0 < b) (h : ¬b ∣ a) : divCeil a b = a / b + 1 := by
  have hmod := Nat.pos_of_ne_zero fun h0 => h (Nat.dvd_of_mod_eq_zero h0)
  have hdiv := Nat.div_add_mod' a b
  have hlt := Nat.mod_lt a hb
  refine divCeil_unique hb ?_ fun j hj => ?_
  · rw [Nat.add_mul, Nat.one_mul]
    omega
  · have := Nat.mul_le_mul_right b (show j ≤ a / b by omega)
    omega

theorem take_append_middle_append_drop {a b : ℕ} (h : a ≤ b) (l : List α) :
    l.take a ++ (l.take b).drop a ++ l.drop b = l := by
  have htake : l.take a = (l.take b).take a := by rw [List.take_take, Nat.min_eq_left h]
  rw [htake, List.take_append_drop, List.take_append_drop]

theorem exists_cut {a b : ℕ} {l : List α} (h : a ≤ b) (hb : b ≤ l.length) :
    ∃ before middle after, before ++ middle ++ after = l ∧ before.length = a ∧
      middle.length = b - a ∧ middle = (l.take b).drop a := by
  refine ⟨_, _, _, take_append_middle_append_drop h l, ?_, ?_, rfl⟩
  · rw [List.length_take]
    omega
  · rw [List.length_drop, List.length_take, Nat.min_eq_left hb]

theorem drop_middle (before : List α) {middle : List α} (after : List α) {n : ℕ}
    (h : n ≤ middle.length) :
    (before ++ middle ++ after).drop (before.length + n) = middle.drop n ++ after := by
  rw [List.append_assoc, List.drop_length_add_append, List.drop_append_of_le_length h]

theorem zip_map_self {β : Type} (l : List α) (f : α → β) :
    l.zip (l.map f) = l.map fun a => (a, f a) := by
  have hzip := List.zip_map' (f := id) (g := f) (l := l)
  rwa [List.map_id] at hzip

theorem forall_mem_zip_map {β : Type} {l : List α} {f : α → β} {P : α × β → Prop} :
    (∀ p ∈ l.zip (l.map f), P p) ↔ ∀ a ∈ l, P (a, f a) := by
  rw [zip_map_self, List.forall_mem_map]

theorem exists_mem_zip {β : Type} {xs : List α} {ys : List β} {x : α}
    (hlength : ys.length = xs.length) (hx : x ∈ xs) : ∃ y, (x, y) ∈ xs.zip ys := by
  obtain ⟨k, hk, rfl⟩ := List.getElem_of_mem hx
  have hk' : k < ys.length := by omega
  refine ⟨ys[k], List.mem_of_getElem? (i := k) ?_⟩
  exact List.getElem?_zip_eq_some.mpr ⟨List.getElem?_eq_getElem hk, List.getElem?_eq_getElem hk'⟩

theorem zipWith_map_range {β γ : Type} {n : ℕ} {l : List α} (h : l.length = n) (f : α → β → γ)
    (g : ℕ → β) (d : α) :
    List.zipWith f l ((List.range n).map g) =
      (List.range n).map fun c => f (l.getD c d) (g c) := by
  apply List.ext_getElem (by simp [h])
  intro c hc hc'
  have hlt : c < l.length := by
    rw [List.length_zipWith] at hc
    omega
  rw [List.getElem_zipWith, List.getElem_map, List.getElem_map, List.getElem_range,
    List.getD_eq_getElem _ _ hlt]

theorem getD_append_cons (before after : List α) (a d : α) :
    (before ++ a :: after).getD before.length d = a := by
  rw [List.getD_append_right _ _ _ _ le_rfl, Nat.sub_self, List.getD_cons_zero]

theorem getD_append_cons_of_ne {before : List α} {i : ℕ} (h : i ≠ before.length)
    (after : List α) (a b d : α) :
    (before ++ a :: after).getD i d = (before ++ b :: after).getD i d := by
  by_cases hlt : i < before.length
  · rw [List.getD_append _ _ _ _ hlt, List.getD_append _ _ _ _ hlt]
  · obtain ⟨k, hk⟩ := Nat.exists_eq_add_of_lt (show before.length < i by omega)
    have hindex : i - before.length = k + 1 := by omega
    rw [List.getD_append_right _ _ _ _ (by omega), List.getD_append_right _ _ _ _ (by omega),
      hindex, List.getD_cons_succ, List.getD_cons_succ]

/-- Row `r` of a flat list with `n` entries in a row; the last row may be shorter. -/
def row (n : ℕ) (l : List α) (r : ℕ) : List α := (l.drop (r * n)).take n

def chunks (n : ℕ) (l : List α) : List (List α) :=
  (List.range (divCeil l.length n)).map (row n l)

@[simp] theorem length_row (n : ℕ) (l : List α) (r : ℕ) :
    (row n l r).length = min n (l.length - r * n) := by simp [row]

theorem length_row_le (n : ℕ) (l : List α) (r : ℕ) : (row n l r).length ≤ n := by
  rw [length_row]
  exact Nat.min_le_left _ _

@[simp] theorem length_chunks (n : ℕ) (l : List α) :
    (chunks n l).length = divCeil l.length n := by simp [chunks]

theorem getD_row {n c : ℕ} (hc : c < n) (l : List α) (r : ℕ) (d : α) :
    (row n l r).getD c d = l.getD (r * n + c) d := by
  simp [row, List.getElem?_take_of_lt hc]

theorem length_row_of_le {n R r : ℕ} {l : List α} (hl : l.length = R * n) (hr : r < R) :
    (row n l r).length = n := by
  have h := Nat.mul_le_mul_right n (show r + 1 ≤ R by omega)
  rw [Nat.add_mul, Nat.one_mul] at h
  rw [length_row, hl]
  omega

theorem chunks_nil {n : ℕ} (hn : 0 < n) : chunks n ([] : List α) = [] := by
  have h0 : divCeil 0 n = 0 := divCeil_unique hn (Nat.zero_le _) fun j hj => by omega
  simp [chunks, h0]

theorem divCeil_add (a : ℕ) {b : ℕ} (hb : 0 < b) : divCeil (a + b) b = divCeil a b + 1 := by
  unfold divCeil
  rw [show a + b + b - 1 = a + b - 1 + b by omega, Nat.add_div_right _ hb]

theorem divCeil_of_le {a b : ℕ} (ha : 0 < a) (hab : a ≤ b) : divCeil a b = 1 :=
  divCeil_unique (by omega) (by omega) fun j hj => by
    obtain rfl : j = 0 := by omega
    omega

theorem chunks_cons {n : ℕ} (hn : 0 < n) {l : List α} (hl : l ≠ []) :
    chunks n l = l.take n :: chunks n (l.drop n) := by
  have hpos := List.length_pos_iff.mpr hl
  have hcount : divCeil l.length n = divCeil (l.drop n).length n + 1 := by
    rw [List.length_drop]
    rcases Nat.lt_or_ge n l.length with hlt | hge
    · rw [← divCeil_add _ hn, Nat.sub_add_cancel hlt.le]
    · have h0 : divCeil 0 n = 0 := divCeil_unique hn (Nat.zero_le _) fun j hj => by omega
      rw [Nat.sub_eq_zero_of_le hge, h0, divCeil_of_le hpos hge]
  unfold chunks
  rw [hcount, List.range_succ_eq_map, List.map_cons, List.map_map]
  congr 1
  · simp [row]
  · apply List.map_congr_left
    intro r _
    simp only [Function.comp_apply, row, List.drop_drop, Nat.succ_eq_add_one, Nat.add_mul,
      Nat.one_mul, Nat.add_comm]

theorem flatten_chunks {n : ℕ} (hn : 0 < n) (l : List α) : (chunks n l).flatten = l := by
  induction hlen : l.length using Nat.strongRecOn generalizing l with
  | ind k ih =>
    by_cases hnil : l = []
    · subst hnil
      rw [chunks_nil hn, List.flatten_nil]
    · have hpos := List.length_pos_iff.mpr hnil
      rw [chunks_cons hn hnil, List.flatten_cons,
        ih (l.drop n).length (by rw [List.length_drop]; omega) _ rfl, List.take_append_drop]

theorem drop_chunks {n : ℕ} (hn : 0 < n) (k : ℕ) (l : List α) :
    (chunks n l).drop k = chunks n (l.drop (k * n)) := by
  induction k generalizing l with
  | zero => rw [Nat.zero_mul, List.drop_zero, List.drop_zero]
  | succ k ih =>
    by_cases hnil : l = []
    · rw [hnil, List.drop_nil, chunks_nil hn, List.drop_nil]
    · rw [chunks_cons hn hnil, List.drop_succ_cons, ih, List.drop_drop, Nat.add_mul, Nat.one_mul,
        Nat.add_comm n]

theorem take_chunks {n : ℕ} (hn : 0 < n) (k : ℕ) (l : List α) :
    (chunks n l).take k = chunks n (l.take (k * n)) := by
  induction k generalizing l with
  | zero => rw [Nat.zero_mul, List.take_zero, List.take_zero, chunks_nil hn]
  | succ k ih =>
    by_cases hnil : l = []
    · rw [hnil, List.take_nil, chunks_nil hn, List.take_nil]
    · have hlong : n ≤ (k + 1) * n := Nat.le_mul_of_pos_left n (Nat.succ_pos k)
      have hne : l.take ((k + 1) * n) ≠ [] := by
        simp only [ne_eq, List.take_eq_nil_iff, hnil, or_false]
        omega
      rw [chunks_cons hn hnil, List.take_succ_cons, ih, chunks_cons hn hne, List.take_take,
        Nat.min_eq_left hlong, List.drop_take, Nat.add_mul, Nat.one_mul, Nat.add_sub_cancel]

theorem chunks_append {n : ℕ} (hn : 0 < n) {l : List α} (h : n ∣ l.length) (m : List α) :
    chunks n (l ++ m) = chunks n l ++ chunks n m := by
  obtain ⟨k, hk⟩ := h
  have hlen : k * n = l.length := by rw [hk, Nat.mul_comm]
  rw [← List.take_append_drop k (chunks n (l ++ m)), take_chunks hn, drop_chunks hn, hlen,
    List.take_left, List.drop_left]

theorem chunks_chunks {c p : ℕ} (hc : 0 < c) (hp : 0 < p) (l : List α) :
    chunks p (chunks c l) = (chunks (p * c) l).map (chunks c) := by
  induction hlen : l.length using Nat.strongRecOn generalizing l with
  | ind k ih =>
    by_cases hnil : l = []
    · rw [hnil, chunks_nil hc, chunks_nil hp, chunks_nil (Nat.mul_pos hp hc), List.map_nil]
    · have hpos := List.length_pos_iff.mpr hnil
      have hne : chunks c l ≠ [] := by
        rw [chunks_cons hc hnil]
        exact List.cons_ne_nil _ _
      have hshorter : (l.drop (p * c)).length < k := by
        have := Nat.mul_pos hp hc
        rw [List.length_drop]
        omega
      rw [chunks_cons hp hne, take_chunks hc, drop_chunks hc, ih _ hshorter _ rfl,
        chunks_cons (Nat.mul_pos hp hc) hnil, List.map_cons]

theorem chunks_map {β : Type} (f : α → β) (n : ℕ) (l : List α) :
    chunks n (l.map f) = (chunks n l).map (List.map f) := by
  simp only [chunks, List.length_map, List.map_map]
  apply List.map_congr_left
  intro r _
  simp only [row, Function.comp_apply, List.map_take, List.map_drop]

theorem getElem?_row {n c : ℕ} (hc : c < n) (l : List α) (r : ℕ) :
    (row n l r)[c]? = l[r * n + c]? := by
  rw [row, List.getElem?_take_of_lt hc, List.getElem?_drop]

theorem row_congr {n r : ℕ} {l l' : List α} (h : ∀ c < n, l[r * n + c]? = l'[r * n + c]?) :
    row n l r = row n l' r := by
  apply List.ext_getElem?
  intro c
  rcases Nat.lt_or_ge c n with hc | hc
  · rw [getElem?_row hc, getElem?_row hc]
    exact h c hc
  · rw [List.getElem?_eq_none (by rw [length_row]; omega),
      List.getElem?_eq_none (by rw [length_row]; omega)]

theorem chunks_flatMap {β : Type} {f : β → List α} {n : ℕ} (hn : 0 < n)
    (hf : ∀ x, (f x).length = n) (xs : List β) : chunks n (xs.flatMap f) = xs.map f := by
  induction xs with
  | nil => exact chunks_nil hn
  | cons x xs ih =>
    have hne : (x :: xs).flatMap f ≠ [] := by
      intro h
      have := hf x
      simp only [List.flatMap_cons, List.append_eq_nil_iff] at h
      rw [h.1] at this
      simp at this
      omega
    rw [chunks_cons hn hne, List.flatMap_cons, List.take_left' (hf x), List.drop_left' (hf x), ih,
      List.map_cons]

theorem length_le_of_mem_chunks {n : ℕ} {l c : List α} (hc : c ∈ chunks n l) : c.length ≤ n := by
  obtain ⟨r, -, rfl⟩ := List.mem_map.mp hc
  exact length_row_le n l r

theorem getElem?_chunks {n r : ℕ} {l : List α} (hr : r < divCeil l.length n) :
    (chunks n l)[r]? = some (row n l r) := by
  simp [chunks, hr]

theorem length_flatten_rows {rows : List (List α)} {n : ℕ}
    (h : ∀ row ∈ rows, row.length = n) : rows.flatten.length = rows.length * n := by
  induction rows with
  | nil => simp
  | cons x rows ih =>
    have hx : x.length = n := h x (by simp)
    have hrest := ih fun y hy => h y (by simp [hy])
    rw [List.flatten_cons, List.length_append, hx, hrest, List.length_cons]
    ring

theorem row_flatten {rows : List (List α)} {n r : ℕ} (h : ∀ row ∈ rows, row.length = n)
    (hr : r < rows.length) : row n rows.flatten r = rows.getD r [] := by
  induction rows generalizing r with
  | nil => simp at hr
  | cons x rows ih =>
    have hx : x.length = n := h x (by simp)
    unfold row
    rw [List.flatten_cons]
    cases r with
    | zero => rw [Nat.zero_mul, List.drop_zero, ← hx, List.take_left, List.getD_cons_zero]
    | succ r =>
      have hrest := ih (fun y hy => h y (by simp [hy])) (by simpa using hr)
      rw [Nat.add_mul, Nat.one_mul, Nat.add_comm, ← List.drop_drop, ← hx, List.drop_left, hx,
        List.getD_cons_succ]
      exact hrest

theorem flatMap_injective {β : Type} {f : α → List β} {w : ℕ} (hw : 0 < w)
    (hlen : ∀ x, (f x).length = w) (hinj : Function.Injective f) :
    Function.Injective fun xs : List α => xs.flatMap f := by
  intro xs ys h
  induction xs generalizing ys with
  | nil =>
    cases ys with
    | nil => rfl
    | cons y ys =>
      have hl := congrArg List.length h
      simp only [List.flatMap_nil, List.flatMap_cons, List.length_nil, List.length_append] at hl
      have := hlen y
      omega
  | cons x xs ih =>
    cases ys with
    | nil =>
      have hl := congrArg List.length h
      simp only [List.flatMap_nil, List.flatMap_cons, List.length_nil, List.length_append] at hl
      have := hlen x
      omega
    | cons y ys =>
      obtain ⟨hhead, htail⟩ := List.append_inj h (by rw [hlen, hlen])
      rw [hinj hhead, ih htail]

theorem flat_lt {R n r c : ℕ} (hr : r < R) (hc : c < n) : r * n + c < R * n := by
  have h := Nat.mul_le_mul_right n (show r + 1 ≤ R by omega)
  rw [Nat.add_mul, Nat.one_mul] at h
  omega

theorem ext_getD (d : α) {l l' : List α} (hlen : l.length = l'.length)
    (h : ∀ i, l.getD i d = l'.getD i d) : l = l' := by
  apply List.ext_getElem hlen
  intro i hi hi'
  rw [← List.getD_eq_getElem l d hi, h i, List.getD_eq_getElem l' d hi']

theorem flat_ext {R n : ℕ} {l l' : List α} (d : α) (hl : l.length = R * n)
    (hl' : l'.length = R * n)
    (h : ∀ r c, r < R → c < n → l.getD (r * n + c) d = l'.getD (r * n + c) d) : l = l' := by
  apply List.ext_getElem (by rw [hl, hl'])
  intro i hi hi'
  have hn : 0 < n := Nat.pos_of_ne_zero fun h0 => by subst h0; simp [hl] at hi
  have he := h (i / n) (i % n) (Nat.div_lt_of_lt_mul (by rw [Nat.mul_comm]; omega))
    (Nat.mod_lt _ hn)
  rwa [Nat.div_add_mod', List.getD_eq_getElem _ _ hi, List.getD_eq_getElem _ _ hi'] at he

def copyFromSlice (dst src : List α) : Fallible ε (List α) :=
  if src.length ≤ dst.length then .ok (src ++ dst.drop src.length) else panicked

theorem copyFromSlice_eq_ok {dst src out : List α} :
    (copyFromSlice dst src : Fallible ε (List α)) = .ok out ↔
      src.length ≤ dst.length ∧ out = src ++ dst.drop src.length := by
  unfold copyFromSlice panicked
  split <;> simp_all [eq_comm]

theorem length_copyFromSlice {dst src out : List α}
    (h : (copyFromSlice dst src : Fallible ε (List α)) = .ok out) : out.length = dst.length := by
  obtain ⟨hle, rfl⟩ := copyFromSlice_eq_ok.mp h
  rw [List.length_append, List.length_drop]
  omega

theorem exists_rows {R : ℕ} {P : ℕ → List α → Prop} (h : ∀ r < R, ∃ v, P r v) :
    ∃ rows : List (List α), rows.length = R ∧ ∀ r < R, P r (rows.getD r []) := by
  choose v hv using h
  refine ⟨(List.range R).map fun r => if hr : r < R then v r hr else [], by simp, ?_⟩
  intro r hr
  have hget : ((List.range R).map fun r => if hr : r < R then v r hr else []).getD r [] =
      v r hr := by simp [hr]
  rw [hget]
  exact hv r hr

/-- `dst.chunks_mut(n)''.zip(src.chunks(m)).try_for_each(f)`: chunks without a partner stay
as they are, and an empty chunk size panics. -/
def zipChunks (n m : ℕ) (f : List α → List α → Fallible ε (List α)) (dst src : List α) :
    Fallible ε (List α) := do
  assert (0 < n ∧ 0 < m)
  let done ← ((chunks n dst).zip (chunks m src)).mapM fun p => f p.1 p.2
  return (done ++ (chunks n dst).drop done.length).flatten

theorem zipChunks_pos {n m : ℕ} {f : List α → List α → Fallible ε (List α)}
    {dst src out : List α} (h : zipChunks n m f dst src = .ok out) : 0 < n ∧ 0 < m := by
  obtain ⟨_, hpos, -⟩ := bind_eq_ok.mp h
  exact assert_eq_ok.mp hpos

/-- When both sides have `R` chunks, the run is one call of `f` for each row. -/
theorem zipChunks_eq_ok {n m R : ℕ} {f : List α → List α → Fallible ε (List α)}
    {dst src out : List α} (hd : divCeil dst.length n = R) (hs : divCeil src.length m = R) :
    zipChunks n m f dst src = .ok out ↔ (0 < n ∧ 0 < m) ∧ ∃ rows : List (List α),
      rows.length = R ∧ (∀ r < R, f (row n dst r) (row m src r) = .ok (rows.getD r [])) ∧
      out = rows.flatten := by
  have hzip : (chunks n dst).zip (chunks m src) =
      (List.range R).map fun r => (row n dst r, row m src r) := by
    simp only [chunks, hd, hs, List.zip_map']
  unfold zipChunks
  rw [bind_eq_ok]
  simp only [hzip, List.mapM_map, assert_eq_ok]
  constructor
  · rintro ⟨_, hpos, h⟩
    obtain ⟨rows, hrows, hout⟩ := bind_eq_ok.mp h
    have hall := mapM_eq_ok.mp hrows
    have hlen : rows.length = R := by simpa using hall.length_eq.symm
    refine ⟨hpos, rows, hlen, ?_, ?_⟩
    · intro r hr
      have hget := (List.forall₂_iff_get.mp hall).2 r (by simpa using hr) (by omega)
      rw [List.getD_eq_getElem _ _ (by omega)]
      simpa using hget
    · have hdrop : (chunks n dst).drop rows.length = [] :=
        List.drop_eq_nil_of_le (by rw [length_chunks, hd, hlen])
      have he : (rows ++ (chunks n dst).drop rows.length).flatten = out := Except.ok.inj hout
      rw [← he, hdrop, List.append_nil]
  · rintro ⟨hpos, rows, hlen, hstep, rfl⟩
    refine ⟨(), hpos, bind_eq_ok.mpr ⟨rows, mapM_eq_ok.mpr ?_, ?_⟩⟩
    · refine List.forall₂_iff_get.mpr ⟨by simp [hlen], ?_⟩
      intro r hr hr'
      have hR : r < R := by simpa using hr
      have h := hstep r hR
      rw [List.getD_eq_getElem _ _ hr'] at h
      simpa using h
    · have hdrop : (chunks n dst).drop rows.length = [] :=
        List.drop_eq_nil_of_le (by rw [length_chunks, hd, hlen])
      rw [hdrop, List.append_nil]
      rfl

section Padding

variable [Zero α]

theorem copyFromSlice_replicate {n : ℕ} {src out : List α} :
    (copyFromSlice (.replicate n 0) src : Fallible ε _) = .ok out ↔
      src.length ≤ n ∧ out = src ++ .replicate (n - src.length) 0 := by
  rw [copyFromSlice_eq_ok, List.length_replicate, List.drop_replicate]

theorem row_replicate {R n r : ℕ} (hr : r < R) :
    row n (List.replicate (R * n) (0 : α)) r = .replicate n 0 := by
  have hlen := length_row_of_le (n := n) (l := List.replicate (R * n) (0 : α)) (by simp) hr
  refine List.eq_replicate_iff.mpr ⟨hlen, ?_⟩
  intro x hx
  exact List.eq_of_mem_replicate (List.mem_of_mem_drop (List.mem_of_mem_take hx))

theorem zipChunks_zeros_eq_ok {n m R : ℕ} {f : List α → List α → Fallible ε (List α)}
    {src out : List α} (hsrc : divCeil src.length m = R)
    (hf : ∀ {dst c v}, f dst c = .ok v → v.length = dst.length)
    (h : zipChunks n m f (.replicate (R * n) 0) src = .ok out) :
    out.length = R * n ∧ ∀ r < R, f (.replicate n 0) (row m src r) = .ok (row n out r) := by
  have hn : 0 < n := (zipChunks_pos h).1
  obtain ⟨-, rows, hlen, hrows, rfl⟩ :=
    (zipChunks_eq_ok (by rw [List.length_replicate, divCeil_mul _ hn]) hsrc).mp h
  have hstep : ∀ r < R, f (.replicate n 0) (row m src r) = .ok (rows.getD r []) := by
    intro r hr
    rw [← row_replicate hr]
    exact hrows r hr
  have hrowlen : ∀ x ∈ rows, x.length = n := by
    intro x hx
    obtain ⟨r, hr, rfl⟩ := List.getElem_of_mem hx
    have hrun := hstep r (by omega)
    rw [List.getD_eq_getElem _ _ hr] at hrun
    rw [hf hrun, List.length_replicate]
  refine ⟨by rw [length_flatten_rows hrowlen, hlen], ?_⟩
  intro r hr
  rw [row_flatten hrowlen (by omega)]
  exact hstep r hr

theorem zipChunks_zeros_total {n m R : ℕ} {f : List α → List α → Fallible ε (List α)}
    {src : List α} (hn : 0 < n) (hm : 0 < m) (hsrc : divCeil src.length m = R)
    (hf : ∀ r < R, ∃ v, f (.replicate n 0) (row m src r) = .ok v) :
    ∃ out, zipChunks n m f (.replicate (R * n) 0) src = .ok out := by
  obtain ⟨rows, hlen, hrows⟩ := exists_rows hf
  refine ⟨rows.flatten, (zipChunks_eq_ok (by rw [List.length_replicate, divCeil_mul _ hn])
    hsrc).mpr ⟨⟨hn, hm⟩, rows, hlen, fun r hr => ?_, rfl⟩⟩
  rw [row_replicate hr]
  exact hrows r hr

def paddedRow (n w : ℕ) (l : List α) (r : ℕ) : List α :=
  row n l r ++ .replicate (w - (row n l r).length) 0

theorem getD_replicate_zero (n i : ℕ) : (List.replicate n (0 : α)).getD i 0 = 0 := by
  simp only [List.getD_eq_getElem?_getD, List.getElem?_replicate]
  split <;> rfl

theorem getD_append_zeros (l : List α) (k i : ℕ) :
    (l ++ .replicate k 0).getD i 0 = l.getD i 0 := by
  rcases Nat.lt_or_ge i l.length with hi | hi
  · rw [List.getD_append _ _ _ _ hi]
  · rw [List.getD_append_right _ _ _ _ hi, getD_replicate_zero, List.getD_eq_default _ _ hi]

theorem getD_of_paddedRows {n R : ℕ} {l m : List α} (hm : m.length = R * n)
    (hl : l.length ≤ R * n) (hrows : ∀ r < R, row n m r = paddedRow n n l r) (i : ℕ) :
    m.getD i 0 = l.getD i 0 := by
  rcases Nat.lt_or_ge i (R * n) with hi | hi
  · have hn : 0 < n := Nat.pos_of_ne_zero fun h0 => by simp [h0] at hi
    have hr : i / n < R := Nat.div_lt_of_lt_mul (by rwa [Nat.mul_comm])
    have hc : i % n < n := Nat.mod_lt _ hn
    have hdiv := Nat.div_add_mod' i n
    rw [← hdiv, ← getD_row hc, ← getD_row hc, hrows _ hr, paddedRow, getD_append_zeros]
  · rw [List.getD_eq_default _ _ (by omega), List.getD_eq_default _ _ (by omega)]

theorem row_append_zeros {n w R r : ℕ} {l m : List α} (hm : m.length = R * n) (hr : r < R)
    (hw : n ≤ w) (h : ∀ i, m.getD i 0 = l.getD i 0) :
    row n m r ++ .replicate (w - n) 0 = paddedRow n w l r := by
  have hlen := length_row_of_le hm hr
  have hshort := length_row_le n l r
  have hl : (row n m r ++ List.replicate (w - n) (0 : α)).length = w := by
    rw [List.length_append, List.length_replicate, hlen]
    omega
  have hl' : (paddedRow n w l r).length = w := by
    rw [paddedRow, List.length_append, List.length_replicate]
    omega
  apply ext_getD 0 (hl.trans hl'.symm)
  intro c
  rw [paddedRow, getD_append_zeros, getD_append_zeros]
  rcases Nat.lt_or_ge c n with hlt | hge
  · rw [getD_row hlt, getD_row hlt, h]
  · rw [List.getD_eq_default _ _ (by omega), List.getD_eq_default _ _ (by omega)]

end Padding

def stepBy (n : ℕ) (l : List α) : List α :=
  (List.range (divCeil l.length n)).filterMap fun k => l[k * n]?

def column [Zero α] (n R : ℕ) (l : List α) (c : ℕ) : List α :=
  (List.range R).map fun r => l.getD (r * n + c) 0

@[simp] theorem length_column [Zero α] (n R : ℕ) (l : List α) (c : ℕ) :
    (column n R l c).length = R := by simp [column]

theorem getD_column [Zero α] {n R r : ℕ} (hr : r < R) (l : List α) (c : ℕ) :
    (column n R l c).getD r 0 = l.getD (r * n + c) 0 := by
  simp [column, hr]

theorem stepBy_drop [Zero α] {n R c : ℕ} {l : List α} (hl : l.length = R * n) (hc : c < n) :
    stepBy n (l.drop c) = column n R l c := by
  have hcount : divCeil (l.drop c).length n = R := by
    rw [List.length_drop, hl]
    apply divCeil_unique (by omega) (by omega)
    intro j hj
    have := flat_lt (n := n) hj hc
    omega
  unfold stepBy column
  rw [hcount, ← List.filterMap_eq_map]
  apply List.filterMap_congr
  intro k hk
  have hlt : k * n + c < l.length := by
    rw [hl]
    exact flat_lt (List.mem_range.mp hk) hc
  rw [List.getElem?_drop, Function.comp_apply, List.getD_eq_getElem _ _ hlt, Nat.add_comm c,
    List.getElem?_eq_getElem hlt]

end FoundationSlices
