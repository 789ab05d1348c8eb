import ProofOfStorage.FileReader
import ProofOfStorage.FoundationPanics
import ProofOfStorage.FileWriterRuns

/-! # The capacity of an encoded file

When a change of the capacity keeps the matrix, and when a write of one row touches that row only.
-/
namespace FileCapacity

open FoundationFaults FoundationRuns FoundationPanics FoundationSlices FoundationPositionalFiles
open CommitmentTypes CommitmentMerkle OnlineColumns FileFields FileDigests FileRows

section Reader

open FileReader

variable {F Err : Type} [Field F] [DataField F] {rows : List (List F)}
  {r r' : EncodedFileReader F Err} {new : ℕ}

/-- The new capacity is on record, and every row and every column reads as before. -/
def KeepsMatrix (new : ℕ) (r r' : EncodedFileReader F Err) : Prop :=
  r'.rowCapacity = new ∧
  (∀ t < r.rowsWritten, ∃ row, getEncodedRow r t = .ok row ∧ getEncodedRow r' t = .ok row) ∧
  ∀ c < r.encodedSize, ∃ column, getEncodedColumnWithoutPath r c = .ok column ∧
    getEncodedColumnWithoutPath r' c = .ok column

theorem keepsMatrix_of_laidOut (h : LaidOut rows r) (h' : LaidOut rows r')
    (hcap : r'.rowCapacity = new) (henc : r'.encodedSize = r.encodedSize) :
    KeepsMatrix new r r' := by
  refine ⟨hcap, ?_, ?_⟩
  · intro t ht
    rw [h.rowsWritten_eq] at ht
    have hget := List.getElem?_eq_getElem ht
    refine ⟨_, h.getEncodedRow hget, ?_⟩
    rw [h'.getEncodedRow hget, henc]
  · intro c hc
    exact ⟨_, h.getEncodedColumnWithoutPath hc, h'.getEncodedColumnWithoutPath (henc ▸ hc)⟩

theorem setNewCapacity_of_empty (h : LaidOut rows r) (hnew : rows.length ≤ new)
    (henc : r.encodedSize = 0) : Runs (setNewCapacity new) r fun _ r' =>
      LaidOut rows r' ∧ r' = { r with fileToRead := r'.fileToRead, rowCapacity := new } := by
  unfold FileReader.setNewCapacity
  simp only [runs_bind, runs_get, runs_lift, ensure_eq_ok, exists_const, runs_modify, henc,
    List.range_zero, List.reverse_nil, List.foldlM_nil, runs_pure]
  refine ⟨by rw [h.rowsWritten_eq]; exact hnew, ⟨h.rowsWritten_eq, hnew, ?_⟩, trivial⟩
  intro t row _ c hc
  exact absurd hc (Nat.not_lt_zero c)

/-- The buffer has the new length, so the first read of an old column runs over its end. -/
theorem setNewCapacity_panics (hrows : r.rowsWritten ≤ new) (hlt : new < r.rowCapacity)
    (henc : 0 < r.encodedSize) : ∃ r', (setNewCapacity new).run r = .error .panic r' := by
  obtain ⟨n, hn⟩ := Nat.exists_eq_succ_of_ne_zero henc.ne'
  have hover : ¬r.rowCapacity * writtenBytesWidth F ≤
      (List.replicate (new * writtenBytesWidth F) (0 : UInt8)).length := by
    rw [List.length_replicate, Nat.not_le]
    exact Nat.mul_lt_mul_of_pos_right hlt writtenBytesWidth_pos
  have hpanic : (assert (r.rowCapacity * writtenBytesWidth F ≤
      (List.replicate (new * writtenBytesWidth F) (0 : UInt8)).length) :
      Fallible (FileError Err) Unit) = panicked := if_neg hover
  unfold FileReader.setNewCapacity
  simp only [hn, List.range_succ, List.reverse_append, List.reverse_singleton,
    List.singleton_append, List.foldlM_cons, EStateM.run_bind, EStateM.run_get, ensure_of hrows,
    EStateM.run_modify, hpanic, bind_assoc]
  exact ⟨_, rfl⟩

/-- The capacity can be raised; it cannot be lowered, although the guard admits that. -/
theorem setNewCapacity_keeps_iff (h : LaidOut rows r) (hnew : r.rowsWritten ≤ new) :
    Runs (setNewCapacity new) r (fun _ r' => KeepsMatrix new r r') ↔
      r.rowCapacity ≤ new ∨ r.encodedSize = 0 := by
  constructor
  · intro hruns
    by_contra hcond
    obtain ⟨hlt, henc⟩ := not_or.mp hcond
    obtain ⟨r', hrun⟩ :=
      setNewCapacity_panics hnew (Nat.not_le.mp hlt) (Nat.pos_of_ne_zero henc)
    exact not_runs_of_error hrun hruns
  · intro hcond
    have hkept : Runs (setNewCapacity new) r fun _ r' =>
        LaidOut rows r' ∧ r' = { r with fileToRead := r'.fileToRead, rowCapacity := new } := by
      rcases hcond with hroom | henc
      · exact h.setNewCapacity hroom
      · exact setNewCapacity_of_empty h (h.rowsWritten_eq ▸ hnew) henc
    refine hkept.mono ?_
    rintro _ r' ⟨hlaid, hframe⟩
    have hcap : r'.rowCapacity = new := by rw [hframe]
    have henc : r'.encodedSize = r.encodedSize := by rw [hframe]
    exact keepsMatrix_of_laidOut h hlaid hcap henc

theorem exists_laidOut {cap : ℕ} (hcap : 0 < cap) :
    ∃ r : EncodedFileReader (ZMod 257) fermatFft.Err, LaidOut [[3, 5]] r ∧ r.rowCapacity = cap ∧
      r.encodedSize = 2 := by
  obtain ⟨encoding, -⟩ : ∃ encoding,
      (newFromDims fermatFft 1 2 : Fallible (FileError fermatFft.Err) _) = .ok encoding := ⟨_, rfl⟩
  have hempty : LaidOut [] (⟨encoding, [], 1, 2, 0, cap⟩ : EncodedFileReader (ZMod 257) _) :=
    ⟨rfl, Nat.zero_le _, fun t row hrow => by cases hrow⟩
  have hlength : ([3, 5] : List (ZMod 257)).length = 2 := rfl
  obtain ⟨_, r', -, hlaid, hframe⟩ := hempty.replaceEncodedRow le_rfl hcap hlength
  exact ⟨r', hlaid, by rw [hframe], by rw [hframe]⟩

theorem grown_capacity_keeps : ∃ r : EncodedFileReader (ZMod 257) fermatFft.Err,
    LaidOut [[3, 5]] r ∧ r.rowCapacity = 2 ∧
    Runs (setNewCapacity 3) r (fun _ r' => KeepsMatrix 3 r r') := by
  obtain ⟨r, hlaid, hcap, -⟩ := exists_laidOut Nat.two_pos
  have hrows : r.rowsWritten ≤ 3 := by
    rw [hlaid.rowsWritten_eq]
    decide
  refine ⟨r, hlaid, hcap, (setNewCapacity_keeps_iff hlaid hrows).mpr (.inl ?_)⟩
  rw [hcap]
  decide

/-- The guard lets the capacity shrink to the one row that is there, and the copy panics. -/
theorem shrunk_capacity_panics : ∃ r : EncodedFileReader (ZMod 257) fermatFft.Err,
    LaidOut [[3, 5]] r ∧ r.rowCapacity = 2 ∧ r.rowsWritten ≤ 1 ∧
    (∃ r', (setNewCapacity 1).run r = .error .panic r') ∧
    ¬Runs (setNewCapacity 1) r (fun _ r' => KeepsMatrix 1 r r') := by
  obtain ⟨r, hlaid, hcap, henc⟩ := exists_laidOut Nat.two_pos
  have hrows : r.rowsWritten ≤ 1 := hlaid.rowsWritten_eq.le
  obtain ⟨r', hrun⟩ := setNewCapacity_panics hrows (by rw [hcap]; decide) (by rw [henc]; decide)
  exact ⟨r, hlaid, hcap, hrows, ⟨r', hrun⟩, not_runs_of_error hrun⟩

/-- A write of one row: either the file is as before, or the row stands at its index, the other
rows are as they were, and the count goes up for a new row only and stays within the capacity. -/
def TouchesOnlyRow (t : ℕ) (row : List F) (r : EncodedFileReader F Err) : Prop :=
  match (replaceEncodedRow t row).run r with
  | .error _ r' => r'.fileToRead = r.fileToRead
  | .ok _ r' => getEncodedRow r' t = .ok row ∧
    (∀ i < r.rowsWritten, i ≠ t → ∃ old, getEncodedRow r i = .ok old ∧
      getEncodedRow r' i = .ok old) ∧
    r'.rowsWritten = (if t = r.rowsWritten then r.rowsWritten + 1 else r.rowsWritten) ∧
    r'.rowsWritten ≤ r'.rowCapacity

theorem replaceEncodedRow_counts {row : List F} (hrow : row.length = r.encodedSize) :
    Runs (replaceEncodedRow r.rowsWritten row) r fun _ r' =>
      r'.rowsWritten = r.rowsWritten + 1 ∧ r'.rowCapacity = r.rowCapacity := by
  have hbytes : (fieldVecToRawBytes row).length = r.encodedSize * writtenBytesWidth F := by
    rw [length_fieldVecToRawBytes, hrow]
  unfold FileReader.replaceEncodedRow
  simp only [runs_bind, runs_get, runs_lift, ensure_eq_ok, assert_eq_ok, exists_const, runs_modify,
    if_true]
  exact ⟨le_rfl, hrow, hbytes, trivial, trivial⟩

/-- A row of the right length changes the row at its index and no other, except right behind a
file that is full: there it goes to the next column and the count passes the capacity. -/
theorem replaceEncodedRow_touches_iff (h : LaidOut rows r) {t : ℕ} {row : List F}
    (ht : t ≤ r.rowsWritten) (hrow : row.length = r.encodedSize) :
    TouchesOnlyRow t row r ↔ t < r.rowCapacity := by
  have hcap := h.capacity
  have hcount := h.rowsWritten_eq
  unfold TouchesOnlyRow
  constructor
  · intro htouch
    by_contra hfull
    obtain rfl : t = r.rowsWritten := by omega
    obtain ⟨_, r', hrun, hrows, hcap'⟩ := replaceEncodedRow_counts hrow
    rw [hrun] at htouch
    obtain ⟨-, -, -, hfits⟩ := htouch
    omega
  · intro hroom
    rw [hcount] at ht
    obtain ⟨_, r', hrun, hlaid, hframe⟩ := h.replaceEncodedRow ht hroom hrow
    have henc : r'.encodedSize = r.encodedSize := by rw [hframe]
    have hrowCap : r'.rowCapacity = r.rowCapacity := by rw [hframe]
    have hlen := length_putRow row ht
    rw [← hlaid.rowsWritten_eq, ← hcount] at hlen
    rw [hrun]
    refine ⟨?_, ?_, hlen, ?_⟩
    · rw [hlaid.getEncodedRow (getElem?_putRow_self row ht), henc, ← hrow, map_getD_range]
    · intro i hi hne
      rw [hcount] at hi
      have hget := List.getElem?_eq_getElem hi
      have hget' : (putRow rows t row)[i]? = some rows[i] :=
        (getElem?_putRow_of_ne row ht hi hne).trans hget
      refine ⟨_, h.getEncodedRow hget, ?_⟩
      rw [hlaid.getEncodedRow hget', henc]
    · rw [hlaid.rowsWritten_eq]
      exact hlaid.capacity

theorem row_added_where_room_is : ∃ r : EncodedFileReader (ZMod 257) fermatFft.Err,
    LaidOut [[3, 5]] r ∧ r.rowCapacity = 2 ∧ r.rowsWritten = 1 ∧
    TouchesOnlyRow 1 [7, 9] r := by
  obtain ⟨r, hlaid, hcap, henc⟩ := exists_laidOut Nat.two_pos
  have hrows : r.rowsWritten = 1 := hlaid.rowsWritten_eq
  refine ⟨r, hlaid, hcap, hrows, ?_⟩
  have hrow : ([7, 9] : List (ZMod 257)).length = r.encodedSize := henc.symm
  refine (replaceEncodedRow_touches_iff hlaid hrows.ge hrow).mpr ?_
  rw [hcap]
  decide

/-- A row behind the only row of a full file overwrites the first cell of the next column. -/
theorem row_behind_full_file_overwrites : ∃ r : EncodedFileReader (ZMod 257) fermatFft.Err,
    LaidOut [[3, 5]] r ∧ r.rowCapacity = 1 ∧ r.rowsWritten = 1 ∧ ¬TouchesOnlyRow 1 [7, 9] r ∧
    Runs (replaceEncodedRow 1 [7, 9]) r fun _ r' =>
      getEncodedRow r 0 = .ok [3, 5] ∧ getEncodedRow r' 0 = .ok [3, 7] := by
  obtain ⟨encoding, -⟩ : ∃ encoding,
      (newFromDims fermatFft 1 2 : Fallible (FileError fermatFft.Err) _) = .ok encoding := ⟨_, rfl⟩
  let r : EncodedFileReader (ZMod 257) fermatFft.Err :=
    ⟨encoding, fieldVecToRawBytes ([3, 5] : List (ZMod 257)), 1, 2, 1, 1⟩
  have hlaid : LaidOut [[3, 5]] r := by
    refine ⟨rfl, le_rfl, ?_⟩
    intro t row hrow c hc
    obtain ⟨ht, rfl⟩ := List.getElem?_eq_some_iff.mp hrow
    obtain rfl : t = 0 := Nat.lt_one_iff.mp ht
    rw [cellOffset, Nat.mul_one, Nat.add_zero]
    have hget : ([3, 5] : List (ZMod 257))[c]? = some (([3, 5] : List (ZMod 257)).getD c 0) := by
      rw [List.getD_eq_getElem?_getD, List.getElem?_eq_getElem hc]
      rfl
    exact holdsAt_flatMap length_reprBytes _ hget
  let r' : EncodedFileReader (ZMod 257) fermatFft.Err :=
    ⟨encoding, [3, 0, 7, 0, 9, 0], 1, 2, 2, 1⟩
  have hcells : (List.range 2).mapM (fun i => readExactAt ([3, 0, 7, 0, 9, 0] : List UInt8)
      (0 * writtenBytesWidth (ZMod 257) + i * (1 * writtenBytesWidth (ZMod 257)))
      (writtenBytesWidth (ZMod 257)) (FileError.io : FileError fermatFft.Err)) =
      .ok [[3, 0], [7, 0]] := rfl
  have hfirst : ([[3, 5]] : List (List (ZMod 257)))[0]? = some [3, 5] := rfl
  refine ⟨r, hlaid, rfl, rfl, ?_, (), r', rfl, hlaid.getEncodedRow hfirst, ?_⟩
  · intro htouch
    exact absurd ((replaceEncodedRow_touches_iff hlaid le_rfl rfl).mp htouch) (Nat.lt_irrefl 1)
  · unfold getEncodedRow
    dsimp only [r']
    rw [hcells]
    rfl

end Reader

section Writer

open FileWriter FileWriterRuns

variable {D : Digest} {F Err : Type} [Field F] [DataField F] {enc cap : ℕ}
  {rows : List (List F)} {w : EncodedFileWriter D F Err}

theorem holdsRows_rewrite {file buffer : List UInt8} {column : ℕ}
    (h : HoldsRows reprBytes (writtenBytesWidth F) cap enc file rows)
    (hcap : rows.length ≤ cap) (hbuffer : buffer.length = cap * writtenBytesWidth F) :
    HoldsRows reprBytes (writtenBytesWidth F) cap enc
      (writeAt file (column * (cap * writtenBytesWidth F))
        (readInto file (column * (cap * writtenBytesWidth F)) buffer)) rows := by
  intro t row hrow c hc
  have ht : t < cap := lt_of_lt_of_le (List.getElem?_eq_some_iff.mp hrow).1 hcap
  have hcell := h t row hrow c hc
  have hlen : (readInto file (column * (cap * writtenBytesWidth F)) buffer).length =
      cap * writtenBytesWidth F := by
    rw [readInto, List.length_append, List.length_drop, readAt, List.length_take]
    omega
  have hplace : cellOffset (writtenBytesWidth F) cap column 0 =
      column * (cap * writtenBytesWidth F) := by
    rw [cellOffset]
    ring
  by_cases heq : c = column
  · -- the column that is copied: the buffer holds the cell at the cell's place
    subst heq
    have hsplit : cellOffset (writtenBytesWidth F) cap c t =
        c * (cap * writtenBytesWidth F) + t * writtenBytesWidth F := by
      rw [cellOffset]
      ring
    have hfits : t * writtenBytesWidth F + (reprBytes (row.getD c 0)).length ≤ buffer.length := by
      have hmul := Nat.mul_le_mul_right (writtenBytesWidth F) (show t + 1 ≤ cap from ht)
      rw [Nat.add_mul, Nat.one_mul] at hmul
      rw [length_reprBytes, hbuffer]
      exact hmul
    rw [hsplit] at hcell ⊢
    exact holdsAt_writeAt.part ((hcell.of_readAt hfits).append _)
  · refine hcell.writeAt ?_
    rw [length_reprBytes, hlen, ← hplace]
    exact cells_disjoint (by omega) ht (.inl (Ne.symm heq))

theorem holdsRows_rewriteAll (columns : List ℕ) {s : List UInt8 × List UInt8}
    (h : HoldsRows reprBytes (writtenBytesWidth F) cap enc s.1 rows)
    (hcap : rows.length ≤ cap) (hbuffer : s.2.length = cap * writtenBytesWidth F) :
    HoldsRows reprBytes (writtenBytesWidth F) cap enc
      (columns.foldl (moveColumn (cap * writtenBytesWidth F) (cap * writtenBytesWidth F) []) s).1
      rows := by
  induction columns generalizing s with
  | nil => exact h
  | cons column columns ih =>
    rw [List.foldl_cons]
    refine ih (holdsRows_rewrite h hcap hbuffer) ?_
    change (readInto s.1 (column * (cap * writtenBytesWidth F)) s.2).length = _
    rw [readInto, List.length_append, List.length_drop, readAt, List.length_take, ← hbuffer]
    omega

/-- The file of the writer holds these rows where `cap` puts them, and they are counted. -/
structure Holds (cap : ℕ) (rows : List (List F)) (w : EncodedFileWriter D F Err) : Prop where
  rowsWritten_eq : w.rowsWritten = rows.length
  stored : HoldsRows reprBytes (writtenBytesWidth F) cap w.encodedSize w.fileToWriteTo rows

theorem setNewCapacity_same (h : Holds w.rowCapacity rows w) (hcap : rows.length ≤ w.rowCapacity) :
    Runs (setNewCapacity w.rowCapacity) w fun _ w' =>
      w'.rowCapacity = w.rowCapacity ∧ Holds w.rowCapacity rows w' := by
  have hstart : HoldsRows reprBytes (writtenBytesWidth F) w.rowCapacity w.encodedSize
      (setLen w.fileToWriteTo (w.rowCapacity * w.encodedSize * writtenBytesWidth F)) rows := by
    intro t row hrow c hc
    have ht := lt_of_lt_of_le (List.getElem?_eq_some_iff.mp hrow).1 hcap
    refine (h.stored t row hrow c hc).setLen ?_
    rw [length_reprBytes, Nat.mul_comm w.rowCapacity]
    exact cellOffset_add_le ht hc le_rfl
  unfold FileWriter.setNewCapacity
  simp only [runs_bind, runs_get, runs_lift, ensure_eq_ok, exists_const, runs_modify,
    checkedSub_of le_rfl, Except.ok.injEq, exists_eq_left', Nat.sub_self, List.replicate_zero]
  refine ⟨h.rowsWritten_eq ▸ hcap, trivial, h.rowsWritten_eq, ?_⟩
  exact holdsRows_rewriteAll _ hstart hcap (by rw [List.length_replicate])

theorem setNewCapacity_rowCapacity (new : ℕ) (w : EncodedFileWriter D F Err) :
    Ensures (setNewCapacity new) w fun _ w' => w'.rowCapacity = w.rowCapacity := by
  unfold FileWriter.setNewCapacity
  simp only [ensures_bind, ensures_get, ensures_lift, ensures_modify, implies_true]

theorem bufferedWriteRow_rowCapacity (row : List F) (finalize : Bool)
    (w : EncodedFileWriter D F Err) :
    Ensures (bufferedWriteRow row finalize) w fun _ w' => w'.rowCapacity = w.rowCapacity := by
  unfold FileWriter.bufferedWriteRow
  simp only [ensures_bind, ensures_get, ensures_lift, ensures_modify]
  intro first _
  split
  · rw [ensures_pure]
  · simp only [ensures_bind, ensures_get, ensures_lift, ensures_modify]
    intro _ _
    split
    · exact setNewCapacity_rowCapacity _ _
    · rw [ensures_pure]

/-- The rows of several calls, the last of them perhaps not yet in the file. -/
def pushRows (pushes : List (List F × Bool)) : Writing D F Err Unit := do
  let _ ← forEach pushes fun push => bufferedWriteRow push.1 push.2

theorem pushRows_rowCapacity (pushes : List (List F × Bool)) (w : EncodedFileWriter D F Err) :
    Ensures (pushRows pushes) w fun _ w' => w'.rowCapacity = w.rowCapacity := by
  unfold pushRows
  simp only [ensures_bind, ensures_pure]
  refine ensures_forEach
    (fun w' : EncodedFileWriter D F Err => w'.rowCapacity = w.rowCapacity) ?_ rfl
  intro push w₁ hcap
  refine (bufferedWriteRow_rowCapacity push.1 push.2 w₁).mono ?_
  intro _ w₂ hcap'
  exact hcap'.trans hcap

theorem Buffers.pushRows (h : Buffers enc rows w) (henc : 0 < enc)
    {pushes : List (List F × Bool)} (hlen : ∀ push ∈ pushes, push.1.length = enc)
    (hroom : rows.length + pushes.length < w.rowCapacity) :
    Runs (FileCapacity.pushRows pushes) w fun _ w' =>
      Buffers enc (rows ++ pushes.map Prod.fst) w' ∧ w'.rowCapacity = w.rowCapacity := by
  unfold FileCapacity.pushRows
  simp only [runs_bind, runs_pure]
  refine runs_forEach (fun seen w' => Buffers enc (rows ++ seen.map Prod.fst) w' ∧
    w'.rowCapacity = w.rowCapacity) ?_ ⟨by rwa [List.map_nil, List.append_nil], rfl⟩
  rintro seen push w₁ hseen ⟨hbuf, hcap⟩
  have hle := hseen.length_le
  have hmem : push ∈ pushes := hseen.subset (by simp)
  have hnext : (rows ++ seen.map Prod.fst).length + 1 < w₁.rowCapacity := by
    rw [List.length_append, List.length_map, hcap]
    rw [List.length_append, List.length_singleton] at hle
    omega
  refine (hbuf.bufferedWriteRow henc (hlen push hmem) hnext).mono ?_
  rintro _ w₂ ⟨hbuf', hframe⟩
  rw [List.map_append, List.map_singleton, ← List.append_assoc]
  exact ⟨hbuf', by rw [hframe, hcap]⟩

/-- In the layout on record the second column reads zero. -/
def SecondColumnCleared (w : EncodedFileWriter D F Err) : Prop :=
  ∀ t < w.rowCapacity, HoldsAt w.fileToWriteTo (cellOffset (writtenBytesWidth F) w.rowCapacity 1 t)
    (.replicate (writtenBytesWidth F) 0)

theorem holdsAt_moveColumns {old new o : ℕ} {pad v : List UInt8} (columns : List ℕ)
    {s : List UInt8 × List UInt8} (h : HoldsAt s.1 o v) (hfit : o + v.length ≤ new)
    (hpos : ∀ column ∈ columns, 0 < column) :
    HoldsAt (columns.foldl (moveColumn old new pad) s).1 o v := by
  induction columns generalizing s with
  | nil => exact h
  | cons column columns ih =>
    rw [List.forall_mem_cons] at hpos
    have hbehind : o + v.length ≤ column * new := hfit.trans (Nat.le_mul_of_pos_left _ hpos.1)
    rw [List.foldl_cons]
    refine ih ?_ hpos.2
    exact (h.writeAt (.inl hbehind)).writeAt (.inl (hbehind.trans (Nat.le_add_right _ _)))

/-- The padding of the first column is written over the second one before that is read, and the
record keeps the old capacity. -/
theorem setNewCapacity_clears (hrows : 0 < w.rowsWritten) (hcap : w.rowsWritten ≤ w.rowCapacity) :
    Runs (setNewCapacity (w.rowCapacity * 2)) w fun _ w' => SecondColumnCleared w' ∧
      w' = { w with fileToWriteTo := w'.fileToWriteTo } := by
  have hdouble : w.rowCapacity * 2 * writtenBytesWidth F =
      w.rowCapacity * writtenBytesWidth F + w.rowCapacity * writtenBytesWidth F := by ring
  have hlength : w.rowCapacity * writtenBytesWidth F ≤
      w.rowCapacity * 2 * writtenBytesWidth F := by omega
  unfold FileWriter.setNewCapacity
  simp only [runs_bind, runs_get, runs_lift, ensure_eq_ok, exists_const, runs_modify,
    checkedSub_of hlength, Except.ok.injEq, exists_eq_left']
  refine ⟨by omega, ?_, trivial⟩
  intro t ht
  obtain ⟨n, hn⟩ := Nat.exists_eq_succ_of_ne_zero hrows.ne'
  have hplace : cellOffset (writtenBytesWidth F) w.rowCapacity 1 t =
      w.rowCapacity * writtenBytesWidth F + t * writtenBytesWidth F := by
    rw [cellOffset]
    ring
  have hcell := Nat.mul_le_mul_right (writtenBytesWidth F) (show t + 1 ≤ w.rowCapacity from ht)
  rw [Nat.add_mul, Nat.one_mul] at hcell
  change HoldsAt _ (cellOffset _ w.rowCapacity 1 t) _
  rw [hplace, hn, List.range_succ_eq_map, List.foldl_cons]
  apply holdsAt_moveColumns
  · -- the first round has just written the padding there
    simp only [moveColumn, Nat.zero_mul, Nat.zero_add]
    exact holdsAt_writeAt.part (holdsAt_replicate (by omega))
  · rw [List.length_replicate]
    omega
  · intro column hcolumn
    obtain ⟨c, -, rfl⟩ := List.mem_map.mp hcolumn
    exact Nat.succ_pos c

theorem bufferedWriteRow_fills {row : List F} {finalize : Bool} (h : Buffers enc rows w)
    (henc : 0 < enc) (hrow : row.length = enc) (hfull : rows.length + 1 = w.rowCapacity) :
    Runs (bufferedWriteRow row finalize) w fun _ w' => SecondColumnCleared w' ∧
      w'.rowCapacity = w.rowCapacity ∧ w'.rowsWritten = w'.rowCapacity ∧
      w'.outgoingFieldBuffer = .replicate enc [] := by
  have hle := h.written_le
  obtain ⟨first, hfirst, hcount⟩ := h.first_pushed henc hrow
  have hcond : ¬(rows.length + 1 - w.rowsWritten < w.outgoingFieldBufferSize ∧
      rows.length + 1 - w.rowsWritten + w.rowsWritten < w.rowCapacity ∧ finalize = false) := by
    omega
  have hall : w.rowsWritten + (rows.length + 1 - w.rowsWritten) = w.rowCapacity := by omega
  have hempty : (pushColumns w.outgoingFieldBuffer row).map (fun _ => []) =
      List.replicate enc ([] : List F) := by
    rw [h.pushColumns_eq hrow, List.map_map]
    exact List.eq_replicate_iff.mpr ⟨by simp, by simp⟩
  unfold FileWriter.bufferedWriteRow
  simp only [runs_bind, runs_modify, runs_get, runs_lift]
  refine ⟨first, hfirst, ?_⟩
  rw [hcount, if_neg hcond]
  simp only [runs_bind, runs_modify, runs_get, runs_lift, assert_eq_ok, hall, if_true, hempty]
  refine ⟨(), le_rfl, (setNewCapacity_clears ?_ le_rfl).mono ?_⟩
  · change 0 < w.rowCapacity
    omega
  · rintro _ w' ⟨hcleared, hframe⟩
    exact ⟨hcleared, by rw [hframe], by rw [hframe], by rw [hframe]⟩

theorem bufferedWriteRow_panics {row : List F} {finalize : Bool} (henc : 0 < enc)
    (hrow : row.length = enc) (hfull : w.rowsWritten = w.rowCapacity)
    (hbuf : w.outgoingFieldBuffer = .replicate enc []) :
    Panics (bufferedWriteRow row finalize) w := by
  obtain ⟨x, row, rfl⟩ := List.exists_cons_of_length_pos (hrow ▸ henc)
  obtain ⟨n, rfl⟩ := Nat.exists_eq_succ_of_ne_zero henc.ne'
  have hfirst : (index (pushColumns w.outgoingFieldBuffer (x :: row)) 0 :
      Fallible (FileError Err) _) = .ok [x] := by
    rw [hbuf, List.replicate_succ]
    rfl
  have hcond : ¬(1 < w.outgoingFieldBufferSize ∧ 1 + w.rowsWritten < w.rowCapacity ∧
      finalize = false) := by omega
  have hpanic : (assert (w.rowsWritten + 1 ≤ w.rowCapacity) : Fallible (FileError Err) Unit) =
      panicked := if_neg (by omega)
  unfold FileWriter.bufferedWriteRow
  rw [panics_modify_bind, panics_get_bind, panics_lift_bind]
  refine .inr ⟨[x], hfirst, ?_⟩
  rw [List.length_singleton, if_neg hcond, panics_modify_bind, panics_get_bind, panics_lift_bind]
  exact .inl hpanic

theorem pushRows_append (before after : List (List F × Bool)) :
    (FileCapacity.pushRows (before ++ after) : Writing D F Err Unit) =
      FileCapacity.pushRows before >>= fun _ => FileCapacity.pushRows after := by
  unfold FileCapacity.pushRows forEach
  simp only [List.mapM_append, bind_assoc, pure_bind]

theorem pushRows_cons (push : List F × Bool) (after : List (List F × Bool)) :
    (FileCapacity.pushRows (push :: after) : Writing D F Err Unit) =
      bufferedWriteRow push.1 push.2 >>= fun _ => FileCapacity.pushRows after := by
  unfold FileCapacity.pushRows forEach
  simp only [List.mapM_cons, bind_assoc, pure_bind]

theorem pushRows_fills (h : Buffers enc rows w) (henc : 0 < enc)
    {pushes : List (List F × Bool)} (hlen : ∀ push ∈ pushes, push.1.length = enc)
    (hroom : rows.length < w.rowCapacity) (hfull : rows.length + pushes.length = w.rowCapacity) :
    Runs (FileCapacity.pushRows pushes) w fun _ w' => SecondColumnCleared w' ∧
      w'.rowCapacity = w.rowCapacity ∧ w'.rowsWritten = w'.rowCapacity ∧
      w'.outgoingFieldBuffer = .replicate enc [] := by
  obtain ⟨before, last, rfl⟩ : ∃ before last, pushes = before ++ [last] :=
    ⟨pushes.dropLast, _, (List.dropLast_append_getLast (by rintro rfl; simp at hfull; omega)).symm⟩
  rw [List.forall_mem_append, List.forall_mem_singleton] at hlen
  rw [List.length_append, List.length_singleton] at hfull
  rw [pushRows_append, pushRows_cons]
  simp only [runs_bind]
  refine (Buffers.pushRows h henc hlen.1 (by omega)).mono ?_
  rintro _ w₁ ⟨hbuf, hcap⟩
  have hlast : (rows ++ before.map Prod.fst).length + 1 = w₁.rowCapacity := by
    rw [List.length_append, List.length_map, hcap]
    omega
  refine (bufferedWriteRow_fills hbuf henc hlen.2 hlast).mono ?_
  rintro _ w₂ ⟨hcleared, hcap', hdone⟩
  exact ⟨(), w₂, rfl, hcleared, hcap'.trans hcap, hdone⟩

theorem pushRows_panics (h : Buffers enc rows w) (henc : 0 < enc)
    {pushes : List (List F × Bool)} (hlen : ∀ push ∈ pushes, push.1.length = enc)
    (hroom : rows.length < w.rowCapacity) (hover : w.rowCapacity < rows.length + pushes.length) :
    Panics (FileCapacity.pushRows pushes) w := by
  obtain ⟨before, push, after, rfl, hbefore⟩ : ∃ before push after,
      pushes = before ++ push :: after ∧ rows.length + before.length = w.rowCapacity := by
    have hlt : w.rowCapacity - rows.length < pushes.length := by omega
    refine ⟨_, pushes[w.rowCapacity - rows.length], _,
      (List.take_append_drop (w.rowCapacity - rows.length) pushes).symm.trans
        (congrArg _ (List.drop_eq_getElem_cons hlt)), ?_⟩
    rw [List.length_take]
    omega
  rw [List.forall_mem_append, List.forall_mem_cons] at hlen
  obtain ⟨_, w', hrun, -, -, hfull, hbuf⟩ := pushRows_fills h henc hlen.1 hroom hbefore
  rw [pushRows_append, panics_bind_of_ok hrun, pushRows_cons, panics_bind]
  exact .inl (bufferedWriteRow_panics henc hlen.2.1 hfull hbuf)

/-- The capacity on record never changes, so growing keeps the matrix only when there is nothing
to grow, and rows are kept with room for more only while they stay below the first capacity. The
row that reaches it costs the second column of all of them, and one more ends in a panic. -/
theorem growth_keeps_iff {stored : List (List F)} (h : Holds w.rowCapacity stored w)
    (hcap : w.rowsWritten ≤ w.rowCapacity) :
    (∀ new, w.rowCapacity ≤ new →
      (Runs (setNewCapacity new) w (fun _ w' => w'.rowCapacity = new ∧ Holds new stored w') ↔
        new = w.rowCapacity)) ∧
    ∀ rows (pushes : List (List F × Bool)), 0 < w.encodedSize → Buffers w.encodedSize rows w →
      (∀ push ∈ pushes, push.1.length = w.encodedSize) →
      (Runs (pushRows pushes) w (fun _ w' => rows.length + pushes.length < w'.rowCapacity ∧
        Buffers w.encodedSize (rows ++ pushes.map Prod.fst) w') ↔
        rows.length + pushes.length < w.rowCapacity) ∧
      (rows.length < w.rowCapacity → rows.length + pushes.length = w.rowCapacity →
        Runs (pushRows pushes) w fun _ w' => SecondColumnCleared w' ∧
          w'.rowCapacity = w.rowCapacity) ∧
      (rows.length < w.rowCapacity → w.rowCapacity < rows.length + pushes.length →
        Panics (pushRows pushes) w) := by
  constructor
  · intro new hnew
    constructor
    · rintro ⟨_, w', hrun, hrecord, -⟩
      rw [← hrecord]
      exact setNewCapacity_rowCapacity new w _ _ hrun
    · rintro rfl
      exact setNewCapacity_same h (h.rowsWritten_eq ▸ hcap)
  · intro rows pushes henc hbuf hlen
    refine ⟨?_, fun hroom hfull => ?_, fun hroom => pushRows_panics hbuf henc hlen hroom⟩
    · constructor
      · rintro ⟨_, w', hrun, hroom, -⟩
        rwa [pushRows_rowCapacity pushes w _ _ hrun] at hroom
      · intro hroom
        refine (Buffers.pushRows hbuf henc hlen hroom).mono ?_
        rintro _ w' ⟨hbuf', hcap'⟩
        exact ⟨hcap'.symm ▸ hroom, hbuf'⟩
    · refine (pushRows_fills hbuf henc hlen hroom hfull).mono ?_
      rintro _ w' ⟨hcleared, hcap', -⟩
      exact ⟨hcleared, hcap'⟩

theorem exists_holds : ∃ w, new fermatFft byteSum 1 2 1 [] = .ok w ∧
    Runs (pushBytes [3]) w fun _ w' => Holds 2 (encodedRows w.encoding 1 2 [3]) w' ∧
      w'.rowsWritten = 1 ∧ w'.rowCapacity = 2 := by
  obtain ⟨w, hnew⟩ : ∃ w, new fermatFft byteSum 1 2 ([3] : List UInt8).length [] = .ok w :=
    ⟨_, rfl⟩
  obtain ⟨hs, hsettled⟩ := settled_new hnew
  have hfed : Runs (pushBytes [3]) w fun _ w' => Settled w.encoding 1 2 [3] ([] ++ [3]) w' :=
    hsettled.pushBytes hs List.prefix_rfl
  refine ⟨w, hnew, hfed.mono ?_⟩
  rintro _ w' ⟨hprogress, hwritten⟩
  have hrows : w'.rowsWritten = 1 := hwritten
  have hcap : w'.rowCapacity = 2 := hprogress.rowCapacity_eq
  have hstored := hprogress.buffers.stored
  rw [List.take_take, List.take_of_length_le (by rw [length_encodedRows, hrows]; decide), hcap]
    at hstored
  refine ⟨⟨by rw [length_encodedRows, hrows]; rfl, ?_⟩, hrows, hcap⟩
  rw [hprogress.encodedSize_eq]
  exact hstored

theorem capacity_of_two_kept : ∃ (w : EncodedFileWriter byteSum (ZMod 257) fermatFft.Err)
    (rows : List (List (ZMod 257))), Holds 2 rows w ∧ rows.length = 1 ∧ w.rowCapacity = 2 ∧
    Runs (setNewCapacity 2) w (fun _ w' => w'.rowCapacity = 2 ∧ Holds 2 rows w') := by
  obtain ⟨w, -, _, w', -, hholds, hrows, hcap⟩ := exists_holds
  have hholds' : Holds w'.rowCapacity (encodedRows w.encoding 1 2 [3]) w' := by
    rw [hcap]
    exact hholds
  have hkeeps := growth_keeps_iff hholds' (by rw [hrows, hcap]; decide)
  refine ⟨w', _, hholds, by rw [length_encodedRows]; rfl, hcap, ?_⟩
  exact (hkeeps.1 2 hcap.le).mpr hcap.symm

/-- A writer that was announced one byte and receives two loses the second column, in the layout
of the old capacity and in that of the new one; a third byte makes it panic. -/
theorem growth_loses_rows : ∃ w, new fermatFft byteSum 1 2 1 [] = .ok w ∧
    Runs (pushBytes [3]) w (fun _ w₁ => Holds w₁.rowCapacity (encodedRows w.encoding 1 2 [3]) w₁ ∧
      w₁.rowsWritten ≤ w₁.rowCapacity ∧ w₁.rowCapacity ≤ 4 ∧
      ¬Runs (setNewCapacity 4) w₁ (fun _ w₂ =>
        w₂.rowCapacity = 4 ∧ Holds 4 (encodedRows w.encoding 1 2 [3]) w₂)) ∧
    Runs (pushBytes [3, 5]) w (fun _ w₁ => w₁.rowsWritten = 2 ∧ w₁.rowCapacity = 2 ∧
      readAt w₁.fileToWriteTo 4 2 = [0, 0] ∧ readAt w₁.fileToWriteTo 8 2 = [0, 0]) ∧
    ∃ w₁, (pushBytes [3, 5, 7]).run w = .error .panic w₁ := by
  obtain ⟨w, hnew, hfirst⟩ := exists_holds
  refine ⟨w, hnew, ?_, ?_, ?_⟩
  · refine hfirst.mono ?_
    rintro _ w₁ ⟨hholds, hrows, hcap⟩
    refine ⟨by rw [hcap]; exact hholds, by rw [hrows, hcap]; decide, by rw [hcap]; decide, ?_⟩
    rintro ⟨_, w₂, hrun, hrecord, -⟩
    rw [setNewCapacity_rowCapacity 4 w₁ _ _ hrun, hcap] at hrecord
    cases hrecord
  · obtain rfl := Except.ok.inj hnew
    decide +kernel
  · have hpanics : (match (pushBytes [3, 5, 7]).run w with
        | .error .panic _ => true
        | _ => false) = true := by
      obtain rfl := Except.ok.inj hnew
      decide +kernel
    split at hpanics
    · exact ⟨_, ‹_›⟩
    · cases hpanics

end Writer

end FileCapacity
