import ProofOfStorage.FoundationSlices

/-! # Files with positional reads and writes

A file is the list of its bytes. Reads and writes transfer every byte they are asked for, a
write past the end fills the gap with zeros, and a matrix is stored column by column, each
column with room for more rows than it holds.
-/
namespace FoundationPositionalFiles

open FoundationFaults FoundationSlices

variable {ε α β : Type}

def readAt (file : List α) (offset len : ℕ) : List α := (file.drop offset).take len

def readExactAt (file : List α) (offset len : ℕ) (e : ε) : Fallible ε (List α) := do
  ensure ((readAt file offset len).length = len) e
  return readAt file offset len

/-- A read that stops early leaves the rest of the buffer as it was. -/
def readInto (file : List α) (offset : ℕ) (buffer : List α) : List α :=
  readAt file offset buffer.length ++ buffer.drop (readAt file offset buffer.length).length

/-- The bytes `v` stand in the file at `offset`. -/
def HoldsAt (file : List α) (offset : ℕ) (v : List α) : Prop :=
  ∀ k x, v[k]? = some x → file[offset + k]? = some x

section Reads

variable {file v : List α} {o n : ℕ}

theorem HoldsAt.lt_length (h : HoldsAt file o v) {k : ℕ} (hk : k < v.length) :
    o + k < file.length := by
  have hget := h k _ (List.getElem?_eq_getElem hk)
  exact (List.getElem?_eq_some_iff.mp hget).1

theorem HoldsAt.readAt_eq (h : HoldsAt file o v) : readAt file o v.length = v := by
  apply List.ext_getElem?
  intro k
  unfold readAt
  rcases Nat.lt_or_ge k v.length with hk | hk
  · rw [List.getElem?_take_of_lt hk, List.getElem?_drop, h k _ (List.getElem?_eq_getElem hk),
      List.getElem?_eq_getElem hk]
  · rw [List.getElem?_eq_none hk, List.getElem?_eq_none]
    simp only [List.length_take]
    omega

theorem HoldsAt.readExactAt_eq (h : HoldsAt file o v) (hn : v.length = n) (e : ε) :
    readExactAt file o n e = .ok v := by
  subst hn
  unfold readExactAt
  rw [ensure_of (by rw [h.readAt_eq]), h.readAt_eq]
  rfl

theorem length_readAt_of_le (h : o + n ≤ file.length) : (readAt file o n).length = n := by
  simp only [readAt, List.length_take, List.length_drop]
  omega

theorem readInto_of_le {buffer : List α} (h : o + buffer.length ≤ file.length) :
    readInto file o buffer = readAt file o buffer.length := by
  rw [readInto, length_readAt_of_le h, List.drop_length, List.append_nil]

theorem HoldsAt.of_readAt {k : ℕ} (h : HoldsAt file (o + k) v) (hk : k + v.length ≤ n) :
    HoldsAt (readAt file o n) k v := by
  intro i x hx
  have hi := (List.getElem?_eq_some_iff.mp hx).1
  rw [readAt, List.getElem?_take_of_lt (by omega), List.getElem?_drop, ← Nat.add_assoc]
  exact h i x hx

theorem HoldsAt.append (h : HoldsAt file o v) (rest : List α) : HoldsAt (file ++ rest) o v := by
  intro k x hx
  have hk := (List.getElem?_eq_some_iff.mp hx).1
  rw [List.getElem?_append_left (h.lt_length hk)]
  exact h k x hx

theorem HoldsAt.part {u : List α} {k : ℕ} (h : HoldsAt file o v) (hu : HoldsAt v k u) :
    HoldsAt file (o + k) u := by
  intro i x hx
  rw [Nat.add_assoc]
  exact h _ _ (hu i x hx)

theorem holdsAt_replicate {a : α} {k m : ℕ} (h : k + m ≤ n) :
    HoldsAt (.replicate n a) k (.replicate m a) := by
  intro i x hx
  obtain ⟨hi, rfl⟩ := List.getElem?_eq_some_iff.mp hx
  rw [List.length_replicate] at hi
  rw [List.getElem?_replicate, if_pos (by omega), List.getElem_replicate]

end Reads

section Cells

variable {repr : β → List α} {w : ℕ} {file : List α}

theorem holdsAt_flatMap (hw : ∀ x, (repr x).length = w) (xs : List β) {i : ℕ} {x : β}
    (hx : xs[i]? = some x) : HoldsAt (xs.flatMap repr) (i * w) (repr x) := by
  induction xs generalizing i with
  | nil => simp at hx
  | cons y ys ih =>
    intro k b hb
    have hlen := hw y
    rw [List.flatMap_cons]
    cases i with
    | zero =>
      cases hx
      rw [Nat.zero_mul, Nat.zero_add,
        List.getElem?_append_left (List.getElem?_eq_some_iff.mp hb).1]
      exact hb
    | succ i =>
      rw [List.getElem?_append_right (by rw [hlen, Nat.add_mul]; omega), hlen]
      have hidx : (i + 1) * w + k - w = i * w + k := by rw [Nat.add_mul]; omega
      rw [hidx]
      exact ih (by simpa using hx) k b hb

theorem HoldsAt.flatMap (hw : ∀ x, (repr x).length = w) {xs : List β} {o : ℕ}
    (h : ∀ i x, xs[i]? = some x → HoldsAt file (o + i * w) (repr x)) :
    HoldsAt file o (xs.flatMap repr) := by
  induction xs generalizing o with
  | nil =>
    intro k b hb
    simp at hb
  | cons y ys ih =>
    intro k b hb
    rw [List.flatMap_cons] at hb
    rcases Nat.lt_or_ge k (repr y).length with hk | hk
    · rw [List.getElem?_append_left hk] at hb
      have hcell := h 0 y rfl
      rw [Nat.zero_mul, Nat.add_zero] at hcell
      exact hcell k b hb
    · rw [List.getElem?_append_right hk] at hb
      have hrest : HoldsAt file (o + w) (ys.flatMap repr) := by
        apply ih
        intro i x hx
        have hcell := h (i + 1) x (by simpa using hx)
        rwa [Nat.add_mul, Nat.one_mul, Nat.add_comm (i * w), ← Nat.add_assoc] at hcell
      have hlen := hw y
      have hidx := hrest (k - (repr y).length) b hb
      rwa [Nat.add_assoc, show w + (k - (repr y).length) = k by omega] at hidx

theorem length_flatMap_repr (hw : ∀ x, (repr x).length = w) (xs : List β) :
    (xs.flatMap repr).length = xs.length * w := by
  induction xs with
  | nil => simp
  | cons x xs ih =>
    rw [List.flatMap_cons, List.length_append, hw, ih, List.length_cons]
    ring

end Cells

section Writes

variable [Zero α]

/-- A write of no bytes does not extend the file. -/
def writeAt (file : List α) (offset : ℕ) (bytes : List α) : List α :=
  if bytes.isEmpty then file
  else file.take offset ++ .replicate (offset - file.length) 0 ++ bytes ++
    file.drop (offset + bytes.length)

def setLen (file : List α) (len : ℕ) : List α :=
  file.take len ++ .replicate (len - file.length) 0

variable {file v bytes : List α} {o o' n : ℕ}

theorem getElem?_writeAt_inside {k : ℕ} (hk : k < bytes.length) :
    (writeAt file o bytes)[o + k]? = bytes[k]? := by
  have hne : bytes.isEmpty = false := by
    cases bytes with
    | nil => simp at hk
    | cons b bs => rfl
  have hlen : (file.take o ++ List.replicate (o - file.length) 0).length = o := by
    simp only [List.length_append, List.length_take, List.length_replicate]
    omega
  unfold writeAt
  rw [hne, if_neg (by decide), List.getElem?_append_left (by rw [List.length_append]; omega),
    List.getElem?_append_right (by omega), hlen, Nat.add_sub_cancel_left]

theorem getElem?_writeAt_outside {i : ℕ} (hi : i < file.length)
    (hout : i < o ∨ o + bytes.length ≤ i) : (writeAt file o bytes)[i]? = file[i]? := by
  unfold writeAt
  split
  · rfl
  · rcases hout with hlt | hge
    · rw [List.append_assoc, List.append_assoc, List.getElem?_append_left (by
        simp only [List.length_take]; omega), List.getElem?_take_of_lt hlt]
    · have hlen : (file.take o ++ List.replicate (o - file.length) 0 ++ bytes).length =
          o + bytes.length := by
        simp only [List.length_append, List.length_take, List.length_replicate]
        omega
      rw [List.getElem?_append_right (by omega), hlen, List.getElem?_drop]
      congr 1
      omega

theorem holdsAt_writeAt : HoldsAt (writeAt file o bytes) o bytes := by
  intro k x hx
  rw [getElem?_writeAt_inside (List.getElem?_eq_some_iff.mp hx).1]
  exact hx

theorem HoldsAt.writeAt (h : HoldsAt file o v)
    (hout : o + v.length ≤ o' ∨ o' + bytes.length ≤ o) : HoldsAt (writeAt file o' bytes) o v := by
  intro k x hx
  have hk := (List.getElem?_eq_some_iff.mp hx).1
  rw [getElem?_writeAt_outside (h.lt_length hk) (by omega)]
  exact h k x hx

theorem HoldsAt.setLen (h : HoldsAt file o v) (hn : o + v.length ≤ n) :
    HoldsAt (setLen file n) o v := by
  intro k x hx
  have hk := (List.getElem?_eq_some_iff.mp hx).1
  have hlt := h.lt_length hk
  unfold FoundationPositionalFiles.setLen
  rw [List.getElem?_append_left (by simp only [List.length_take]; omega),
    List.getElem?_take_of_lt (by omega)]
  exact h k x hx

@[simp] theorem length_setLen (file : List α) (n : ℕ) : (setLen file n).length = n := by
  simp only [setLen, List.length_append, List.length_take, List.length_replicate]
  omega

theorem writeAt_zero (file bytes : List α) :
    writeAt file 0 bytes = bytes ++ file.drop bytes.length := by
  cases bytes with
  | nil => rfl
  | cons x xs => simp [FoundationPositionalFiles.writeAt]

theorem writeAt_zero_of_le (h : file.length ≤ bytes.length) : writeAt file 0 bytes = bytes := by
  rw [writeAt_zero, List.drop_eq_nil_of_le h, List.append_nil]

theorem length_writeAt (hne : bytes ≠ []) :
    (FoundationPositionalFiles.writeAt file o bytes).length =
      max file.length (o + bytes.length) := by
  have hempty : bytes.isEmpty = false := by simpa using hne
  simp only [FoundationPositionalFiles.writeAt, hempty, Bool.false_eq_true, if_false,
    List.length_append, List.length_take, List.length_replicate, List.length_drop]
  omega

theorem length_writeAt_of_le (h : o + bytes.length ≤ file.length) :
    (writeAt file o bytes).length = file.length := by
  unfold FoundationPositionalFiles.writeAt
  split
  · rfl
  · simp only [List.length_append, List.length_take, List.length_replicate, List.length_drop]
    omega

variable {off : ℕ → ℕ} {vals : ℕ → List α}

def writeAll (file : List α) (n : ℕ) (off : ℕ → ℕ) (vals : ℕ → List α) : List α :=
  (List.range n).foldl (fun file c => writeAt file (off c) (vals c)) file

theorem writeAll_succ : writeAll file (n + 1) off vals =
    writeAt (writeAll file n off vals) (off n) (vals n) := by
  simp [writeAll, List.range_succ]

theorem writeAll_congr {off' : ℕ → ℕ} {vals' : ℕ → List α} (hoff : ∀ c < n, off c = off' c)
    (hvals : ∀ c < n, vals c = vals' c) :
    writeAll file n off vals = writeAll file n off' vals' := by
  induction n with
  | zero => rfl
  | succ n ih =>
    rw [writeAll_succ, writeAll_succ, ih (fun c hc => hoff c (by omega))
      fun c hc => hvals c (by omega), hoff n (by omega), hvals n (by omega)]

theorem HoldsAt.writeAll (h : HoldsAt file o v)
    (hout : ∀ c < n, o + v.length ≤ off c ∨ off c + (vals c).length ≤ o) :
    HoldsAt (writeAll file n off vals) o v := by
  induction n with
  | zero => exact h
  | succ n ih =>
    rw [writeAll_succ]
    exact (ih fun c hc => hout c (by omega)).writeAt (hout n (by omega))

theorem holdsAt_writeAll (hdisj : ∀ c c', c < n → c' < n → c ≠ c' →
      off c + (vals c).length ≤ off c' ∨ off c' + (vals c').length ≤ off c) {c : ℕ} (hc : c < n) :
    HoldsAt (writeAll file n off vals) (off c) (vals c) := by
  induction n with
  | zero => omega
  | succ n ih =>
    rw [writeAll_succ]
    by_cases heq : c = n
    · subst heq
      exact holdsAt_writeAt
    · exact (ih (fun a b ha hb => hdisj a b (by omega) (by omega)) (by omega)).writeAt
        (hdisj c n hc (by omega) heq)

end Writes

section Transposed

variable [Zero β] {repr : β → List α} {w cap n : ℕ} {file : List α}
  {rows rows' block : List (List β)}

/-- Where the cell in row `r` and column `c` starts. -/
def cellOffset (w cap c r : ℕ) : ℕ := (c * cap + r) * w

/-- The matrix stands in the file column by column, each column with room for `cap` rows. -/
def HoldsRows (repr : β → List α) (w cap n : ℕ) (file : List α) (rows : List (List β)) : Prop :=
  ∀ r row, rows[r]? = some row → ∀ c < n,
    HoldsAt file (cellOffset w cap c r) (repr (row.getD c 0))

theorem holdsRows_singleton (hw : ∀ x, (repr x).length = w) (row : List β) :
    HoldsRows repr w 1 row.length (row.flatMap repr) [row] := by
  intro r row' hrow c hc
  obtain rfl : r = 0 := Nat.lt_one_iff.mp (List.getElem?_eq_some_iff.mp hrow).1
  obtain rfl : row = row' := Option.some.inj hrow
  rw [cellOffset, Nat.mul_one, Nat.add_zero, List.getD_eq_getElem _ _ hc]
  exact holdsAt_flatMap hw row (List.getElem?_eq_getElem hc)

def columnOf (rows : List (List β)) (c : ℕ) : List β := rows.map fun row => row.getD c 0

theorem columnOf_concat (rows : List (List β)) (row : List β) (c : ℕ) :
    columnOf (rows ++ [row]) c = columnOf rows c ++ [row.getD c 0] := by
  rw [columnOf, List.map_append]
  rfl

theorem cellOffset_add_le {old new c j r : ℕ} (hr : r < old) (hc : c < j) (hnew : old ≤ new) :
    cellOffset w old c r + w ≤ j * new * w := by
  have hcells : c * old + r + 1 ≤ j * new :=
    calc c * old + r + 1 ≤ (c + 1) * old := by rw [Nat.add_mul]; omega
      _ ≤ j * old := Nat.mul_le_mul_right _ hc
      _ ≤ j * new := Nat.mul_le_mul_left _ hnew
  have hmul := Nat.mul_le_mul_right w hcells
  rwa [Nat.add_mul, Nat.one_mul] at hmul

theorem column_add_le {old new c n : ℕ} (hc : c < n) (hnew : old ≤ new) :
    c * (old * w) + old * w ≤ new * n * w := by
  have hcells : (c + 1) * old ≤ new * n := by
    rw [Nat.mul_comm new]
    exact Nat.mul_le_mul hc hnew
  have hmul := Nat.mul_le_mul_right w hcells
  rwa [Nat.add_mul, Nat.one_mul, Nat.add_mul, Nat.mul_assoc c] at hmul

theorem cells_disjoint {c c' r r' m : ℕ} (hr : r + m ≤ cap) (hr' : r' < cap)
    (hne : c ≠ c' ∨ r' < r ∨ r + m ≤ r') :
    cellOffset w cap c' r' + w ≤ cellOffset w cap c r ∨
      cellOffset w cap c r + m * w ≤ cellOffset w cap c' r' := by
  have hcells : c' * cap + r' + 1 ≤ c * cap + r ∨ c * cap + r + m ≤ c' * cap + r' := by
    rcases lt_trichotomy c c' with hlt | heq | hgt
    · have := Nat.mul_le_mul_right cap (show c + 1 ≤ c' from hlt)
      rw [Nat.add_mul] at this
      omega
    · subst heq
      omega
    · have := Nat.mul_le_mul_right cap (show c' + 1 ≤ c from hgt)
      rw [Nat.add_mul] at this
      omega
  unfold cellOffset
  rcases hcells with h | h
  · left
    have := Nat.mul_le_mul_right w h
    rw [Nat.add_mul, Nat.one_mul] at this
    exact this
  · right
    have := Nat.mul_le_mul_right w h
    rw [Nat.add_mul] at this
    exact this

theorem runs_disjoint {c c' r m : ℕ} (hr : r + m ≤ cap) (hlt : c < c') :
    cellOffset w cap c r + m * w ≤ cellOffset w cap c' r := by
  have hcols := Nat.mul_le_mul_right cap (show c + 1 ≤ c' from hlt)
  rw [Nat.add_mul] at hcols
  have hcells := Nat.mul_le_mul_right w (show c * cap + r + m ≤ c' * cap + r by omega)
  rw [Nat.add_mul] at hcells
  exact hcells

theorem HoldsRows.column (hw : ∀ x, (repr x).length = w) (h : HoldsRows repr w cap n file rows)
    {c : ℕ} (hc : c < n) :
    HoldsAt file (cellOffset w cap c 0) ((columnOf rows c).flatMap repr) := by
  apply HoldsAt.flatMap hw
  intro r x hx
  simp only [columnOf, List.getElem?_map, Option.map_eq_some_iff] at hx
  obtain ⟨row, hrow, rfl⟩ := hx
  have hcell := h r row hrow c hc
  unfold cellOffset at hcell ⊢
  rwa [Nat.add_zero, ← Nat.add_mul]

/-- Writing a block of rows, one run of cells in each column, puts exactly these rows there. -/
theorem HoldsRows.writeBlock [Zero α] (hw : ∀ x, (repr x).length = w) {r₀ : ℕ}
    (h : HoldsRows repr w cap n file rows) (hcap : rows'.length ≤ cap)
    (hblock : r₀ + block.length ≤ cap)
    (hin : ∀ j, j < block.length → rows'[r₀ + j]? = block[j]?)
    (hout : ∀ r, r < rows'.length → r < r₀ ∨ r₀ + block.length ≤ r → rows'[r]? = rows[r]?) :
    HoldsRows repr w cap n (writeAll file n (fun c => cellOffset w cap c r₀)
      fun c => (columnOf block c).flatMap repr) rows' := by
  have hlen : ∀ c, ((columnOf block c).flatMap repr).length = block.length * w := by
    intro c
    rw [length_flatMap_repr hw, columnOf, List.length_map]
  intro r row hrow c hc
  have hr : r < rows'.length := (List.getElem?_eq_some_iff.mp hrow).1
  by_cases hmem : r₀ ≤ r ∧ r < r₀ + block.length
  · -- a cell of the block: its column's write put it there
    obtain ⟨j, rfl⟩ := Nat.exists_eq_add_of_le hmem.1
    have hj : j < block.length := by omega
    rw [hin j hj] at hrow
    have hcol : (columnOf block c)[j]? = some (row.getD c 0) := by
      simp only [columnOf, List.getElem?_map, hrow, Option.map_some]
    have hwrite : HoldsAt (writeAll file n (fun c => cellOffset w cap c r₀)
        fun c => (columnOf block c).flatMap repr) (cellOffset w cap c r₀)
        ((columnOf block c).flatMap repr) := by
      refine holdsAt_writeAll ?_ hc
      intro a b _ _ hab
      simp only [hlen]
      rcases lt_or_gt_of_ne hab with hlt | hgt
      · exact .inl (runs_disjoint hblock hlt)
      · exact .inr (runs_disjoint hblock hgt)
    have hcell := hwrite.part (holdsAt_flatMap hw _ hcol)
    unfold cellOffset at hcell ⊢
    rwa [← Nat.add_mul, Nat.add_assoc] at hcell
  · -- a cell outside the block: no write touches it
    have hr' : r < r₀ ∨ r₀ + block.length ≤ r := by omega
    rw [hout r hr hr'] at hrow
    apply (h r row hrow c hc).writeAll
    intro c' _
    rw [hlen, hw]
    exact cells_disjoint hblock (by omega) (.inr hr')

end Transposed

end FoundationPositionalFiles
