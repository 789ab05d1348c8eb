import ProofOfStorage.NetworkRecords
import ProofOfStorage.OnlinePolynomials

/-! # What the server shows of a file that changes

For an edit the server shows rows of the old file, for an append a row of coefficients of the new
one. The client works out from them by how much the evaluation of the file changes.
-/
namespace NetworkExchanges

open FoundationFaults FoundationSlices FoundationInteraction FoundationPolynomials
open CommitmentTypes OnlineColumns OnlineEvaluation OnlinePolynomials FileFields FileRows DataField
open NetworkMessages NetworkServer NetworkClient NetworkUpdates NetworkVersions NetworkRecords

variable {D : Digest} {F Err : Type} [Field F] [DataField F]

theorem value_fromByteVec_append {vec : List UInt8} (h : dataByteCapacity F ∣ vec.length)
    (rest : List UInt8) (x : F) : value (fromByteVec (vec ++ rest)) x =
      value (fromByteVec vec) x +
        x ^ (vec.length / dataByteCapacity F) * value (fromByteVec rest) x := by
  rw [fromByteVec_append h, value_append, length_fromByteVec, divCeil_of_dvd capacity_pos h]

theorem value_exchange {before rows edited : List UInt8} (after : List UInt8)
    (hbefore : dataByteCapacity F ∣ before.length) (hrows : dataByteCapacity F ∣ rows.length)
    (hlen : edited.length = rows.length) (x : F) :
    value (fromByteVec (before ++ edited ++ after)) x -
      value (fromByteVec (before ++ rows ++ after)) x =
        x ^ (before.length / dataByteCapacity F) *
          (value (fromByteVec edited) x - value (fromByteVec rows) x) := by
  rw [List.append_assoc, List.append_assoc, value_fromByteVec_append hbefore,
    value_fromByteVec_append hbefore, value_fromByteVec_append hrows,
    value_fromByteVec_append (hlen ▸ hrows), hlen]
  ring

theorem exists_whole_elements (F : Type) [Field F] [DataField F] (file : List UInt8) :
    ∃ whole rest, file = whole ++ rest ∧ dataByteCapacity F ∣ whole.length ∧
      whole.length / dataByteCapacity F = file.length / dataByteCapacity F ∧
      rest.length = file.length % dataByteCapacity F := by
  have hdiv := Nat.div_add_mod' file.length (dataByteCapacity F)
  have hlen : (file.take (file.length / dataByteCapacity F * dataByteCapacity F)).length =
      file.length / dataByteCapacity F * dataByteCapacity F := by
    rw [List.length_take]
    omega
  refine ⟨_, _, (List.take_append_drop _ file).symm, ⟨_, hlen.trans (Nat.mul_comm _ _)⟩, ?_, ?_⟩
  · rw [hlen, Nat.mul_div_cancel _ capacity_pos]
  · rw [List.length_drop]
    omega

section Shown

variable {env : Environment F} {old new : FileMetadata D} {t : Server D} {point : F}
  {columns : List ℕ}

def Shows (env : Environment F) (old new : FileMetadata D) (oldFile newFile : List UInt8)
    (response : ServerMessages D F env.fft.Err) : Option (ℕ × ℕ) → Prop
  | none => ∃ evaluations, appendEvaluation response = some evaluations ∧
    appendedRow env old new (convertByteVecToFieldElementsVec newFile) = .ok evaluations.other
  | some (first, last) => ∃ evaluations, editEvaluation response = some evaluations ∧
    originalRows env old oldFile first last = .ok evaluations.other

theorem handleEval_eq_ok {range : Option (ℕ × ℕ)} {response : ServerMessages D F env.fft.Err}
    {t' : Server D}
    (h : (handleClientAppendOrEditEvalRequest env old new point columns range).run t =
      .ok response t') :
    ∃ oldFile newFile, t.disk old.idUlid = some oldFile ∧ t.disk new.idUlid = some newFile ∧
      Shows env old new oldFile newFile response range := by
  unfold handleClientAppendOrEditEvalRequest at h
  obtain ⟨_, -, h⟩ := run_lift_bind_ok.mp h
  obtain ⟨_, -, h⟩ := run_lift_bind_ok.mp h
  obtain ⟨oldFile, hold, h⟩ := run_read_bind_ok.mp h
  obtain ⟨newFile, hnew, h⟩ := run_read_bind_ok.mp h
  obtain ⟨oldCommit, -, h⟩ := run_lift_bind_ok.mp h
  obtain ⟨newCommit, -, h⟩ := run_lift_bind_ok.mp h
  obtain ⟨oldEvaluation, -, h⟩ := run_lift_bind_ok.mp h
  obtain ⟨newEvaluation, -, h⟩ := run_lift_bind_ok.mp h
  refine ⟨oldFile, newFile, hold, hnew, ?_⟩
  cases range with
  | none =>
    obtain ⟨row, hrow, h⟩ := run_lift_bind_ok.mp h
    rw [← (run_pure_ok.mp h).1]
    exact ⟨_, rfl, hrow⟩
  | some range =>
    obtain ⟨rows, hrows, h⟩ := run_lift_bind_ok.mp h
    rw [← (run_pure_ok.mp h).1]
    exact ⟨_, rfl, hrows⟩

theorem serve_requestEditEvaluation {range : ℕ × ℕ}
    {transmission : ServerMessages D F env.fft.Err} {evaluations : Evaluations D F (List UInt8)}
    (h : (serve env (.requestEditEvaluation old new point columns range) t).1 = some transmission)
    (hselect : editEvaluation transmission = some evaluations) :
    ∃ oldFile, t.disk old.idUlid = some oldFile ∧
      originalRows env old oldFile range.1 range.2 = .ok evaluations.other := by
  obtain ⟨t', hrun, -⟩ := run_of_serve h fun error herror => by
    rw [herror] at hselect
    cases hselect
  change (handleClientAppendOrEditEvalRequest env old new point columns (some range)).run t = _
    at hrun
  obtain ⟨oldFile, newFile, hold, -, evaluations', hselect', hrows⟩ := handleEval_eq_ok hrun
  obtain rfl := Option.some.inj (hselect'.symm.trans hselect)
  exact ⟨oldFile, hold, hrows⟩

theorem serve_requestAppendEvaluation {transmission : ServerMessages D F env.fft.Err}
    {evaluations : Evaluations D F (List F)}
    (h : (serve env (.requestAppendEvaluation old new point columns) t).1 = some transmission)
    (hselect : appendEvaluation transmission = some evaluations) :
    ∃ newFile, t.disk new.idUlid = some newFile ∧
      appendedRow env old new (convertByteVecToFieldElementsVec newFile) =
        .ok evaluations.other := by
  obtain ⟨t', hrun, -⟩ := run_of_serve h fun error herror => by
    rw [herror] at hselect
    cases hselect
  change (handleClientAppendOrEditEvalRequest env old new point columns none).run t = _ at hrun
  obtain ⟨oldFile, newFile, -, hnew, evaluations', hselect', hrow⟩ := handleEval_eq_ok hrun
  obtain rfl := Option.some.inj (hselect'.symm.trans hselect)
  exact ⟨newFile, hnew, hrow⟩

end Shown

section Edits

variable [DecidableEq F] {env : Environment F} {fileMetadata : FileMetadata D}
  {file edit rows : List UInt8} {start first last : ℕ}

def editedRows (env : Environment F) (fileMetadata : FileMetadata D) (start len : ℕ) : ℕ × ℕ :=
  (start / fileMetadata.numColumns / (env.capacity / 8),
    (start + len) / fileMetadata.numColumns / (env.capacity / 8))

def AsksForEdited (env : Environment F) (fileMetadata : FileMetadata D) (start len : ℕ)
    (q : ClientMessages D F) : Prop :=
  ∀ old new point columns range, q = .requestEditEvaluation old new point columns range →
    old = fileMetadata ∧ point = env.evaluationPoint ∧
      range = editedRows env fileMetadata start len

omit [Field F] [DataField F] [DecidableEq F] in
theorem sends_divide_bind {P : ClientMessages D F → Prop} {a b : ℕ} {β : Type}
    {f : ℕ → Client D F Err β} (hf : Sends P (f (a / b))) :
    Sends P (checked (divide a b) >>= f) := by
  unfold divide assert
  split
  · exact hf
  · exact trivial

theorem sends_editFile : Sends (AsksForEdited env fileMetadata start edit.length)
    (editFile env fileMetadata edit start : Client D F Err _) := by
  have hother {q : ClientMessages D F} (hq : ∀ old new point columns range,
      q ≠ .requestEditEvaluation old new point columns range) :
      AsksForEdited env fileMetadata start edit.length q :=
    fun old new point columns range h => absurd h (hq old new point columns range)
  have hanswer (edited : FileMetadata D) (accepted : Bool) :
      AsksForEdited env fileMetadata start edit.length
        (.editOrAppendResponse fileMetadata edited accepted) := hother (by simp)
  unfold editFile
  iterate 2 refine Sends.bind (sends_checked _) fun _ => ?_
  apply Sends.bind (sends_request (hother (by simp)) _ _)
  intro edited
  unfold judgeEdit
  iterate 6 refine Sends.bind (sends_checked _) fun _ => ?_
  refine sends_divide_bind (sends_divide_bind ?_)
  refine Sends.bind (sends_request ?_ _ _) fun evaluations => ?_
  · rintro old new point columns range h
    injection h with hold _ hpoint _ hrange
    exact ⟨hold.symm, hpoint.symm, hrange.symm⟩
  iterate 3 refine Sends.bind (sends_checked _) fun _ => ?_
  dsimp only
  split
  · refine Sends.bind ?_ fun _ => Sends.bind (sends_checked _) fun _ => ⟨hanswer _ _, trivial⟩
    unfold expectedEditDifference
    iterate 5 refine Sends.bind (sends_checked _) fun _ => ?_
    exact trivial
  · exact ⟨hanswer _ _, trivial⟩

/-- The server can show the rows that the client asks for. They are whole rows and hold the edited
bytes where the client looks for them, and at every point the client makes the difference of the
two evaluations of them. An edit that changes nothing is given up. -/
def EditExchange (env : Environment F) (fileMetadata : FileMetadata D) (file edit : List UInt8)
    (start : ℕ) : Prop :=
  let (first, last) := editedRows env fileMetadata start edit.length
  let edited := (Change.edit edit start).content file
  ∃ rows, originalRows env fileMetadata file first last = .ok rows ∧
    edit.length ≤ rows.length ∧
    rows.length % (env.capacity / 8 * fileMetadata.numColumns) = 0 ∧
    (rows.drop (start % (env.capacity / 8 * fileMetadata.numColumns))).take edit.length =
      (file.drop start).take edit.length ∧
    ∀ x, (expectedEditDifference { env with evaluationPoint := x } fileMetadata edit start first
        rows : Client D F env.fft.Err F) =
      if edited = file then bail "no data was edited" else
        pure (evaluateFieldPolynomialAtPoint (convertByteVecToFieldElementsVec edited) x -
          evaluateFieldPolynomialAtPoint (convertByteVecToFieldElementsVec file) x)

omit [DecidableEq F] in
/-- The slice ends with the last row asked for, so all of that row has to be there. -/
theorem originalRows_eq_ok (hcols : 0 < fileMetadata.numColumns) (hle : first ≤ last) :
    originalRows env fileMetadata file first last = .ok rows ↔
      (last + 1) * rowBytes F fileMetadata.numColumns ≤ file.length ∧
      rows = (file.take ((last + 1) * rowBytes F fileMetadata.numColumns)).drop
        (first * rowBytes F fileMetadata.numColumns) := by
  have hpos := Nat.mul_pos (show 0 < last + 1 by omega) (rowBytes_pos (F := F) hcols)
  have hbytes (n : ℕ) : n * fileMetadata.numColumns * (env.capacity / 8) =
      n * rowBytes F fileMetadata.numColumns := by
    rw [env.capacity_div, Nat.mul_assoc, rowBytes]
  have hmono := Nat.mul_le_mul_right (rowBytes F fileMetadata.numColumns)
    (show first ≤ last + 1 by omega)
  unfold originalRows
  simp only [hbytes, checkedSub_of (show 1 ≤ _ from hpos), ok_bind,
    slice_eq_ok]
  constructor
  · rintro ⟨-, hin, hrows⟩
    have hend : min ((last + 1) * rowBytes F fileMetadata.numColumns - 1) file.length + 1 =
        (last + 1) * rowBytes F fileMetadata.numColumns := by omega
    rw [hend] at hin hrows
    exact ⟨hin, hrows⟩
  · rintro ⟨hin, hrows⟩
    have hend : min ((last + 1) * rowBytes F fileMetadata.numColumns - 1) file.length + 1 =
        (last + 1) * rowBytes F fileMetadata.numColumns := by omega
    rw [hend]
    exact ⟨hmono, hin, hrows⟩

omit [Field F] [DataField F] [DecidableEq F] in
theorem content_edit_middle {before after : List UInt8} {offset : ℕ}
    (h : offset + edit.length ≤ rows.length) :
    (Change.edit edit (before.length + offset)).content (before ++ rows ++ after) =
      before ++ (rows.take offset ++ edit ++ rows.drop (offset + edit.length)) ++ after := by
  have htake : (before ++ rows ++ after).take (before.length + offset) =
      before ++ rows.take offset := by
    rw [List.append_assoc, List.take_length_add_append, List.take_append_of_le_length (by omega)]
  rw [Change.content, htake, Nat.add_assoc, drop_middle before after h]
  simp only [List.append_assoc]

theorem expectedEditDifference_eq {before : List UInt8} (after : List UInt8) {offset : ℕ}
    (hbefore : before.length = first * rowBytes F fileMetadata.numColumns)
    (hrows : dataByteCapacity F ∣ rows.length) (hfit : offset + edit.length ≤ rows.length)
    (hstart : start % (env.capacity / 8 * fileMetadata.numColumns) = offset)
    (hcols : 0 < fileMetadata.numColumns) (x : F) :
    let edited := rows.take offset ++ edit ++ rows.drop (offset + edit.length)
    (expectedEditDifference { env with evaluationPoint := x } fileMetadata edit start first rows :
      Client D F Err F) = if edited = rows then bail "no data was edited" else
        pure (evaluateFieldPolynomialAtPoint
            (convertByteVecToFieldElementsVec (before ++ edited ++ after)) x -
          evaluateFieldPolynomialAtPoint
            (convertByteVecToFieldElementsVec (before ++ rows ++ after)) x) := by
  intro edited
  have hlen : edited.length = rows.length := by
    simp only [edited, List.length_append, List.length_take, List.length_drop]
    omega
  have hne : env.capacity / 8 * fileMetadata.numColumns ≠ 0 := by
    rw [env.capacity_div]
    exact (Nat.mul_pos capacity_pos hcols).ne'
  have hdvd : dataByteCapacity F ∣ before.length := by
    rw [hbefore, rowBytes, ← Nat.mul_assoc]
    exact Nat.dvd_mul_left _ _
  have hdegree : before.length / dataByteCapacity F = first * fileMetadata.numColumns := by
    rw [hbefore, rowBytes, ← Nat.mul_assoc, Nat.mul_div_cancel _ capacity_pos]
  have hcount : (convertByteVecToFieldElementsVec rows : List F).length =
      (convertByteVecToFieldElementsVec edited : List F).length := by
    simp only [convertByteVecToFieldElementsVec, length_fromByteVec, hlen]
  have hsame : (convertByteVecToFieldElementsVec edited : List F) ≠
      convertByteVecToFieldElementsVec rows ↔ ¬edited = rows :=
    not_congr ⟨fromByteVec_injective hlen, congrArg _⟩
  unfold expectedEditDifference
  simp only [remainder, assert_of hne, ok_bind, pure_eq_ok, checked_ok, pure_bind, hstart,
    spliceBytes, assert_of hfit]
  rw [ensureThat_bind, if_pos hlen, ensureThat_bind, if_pos hcount, ensureThat_bind]
  by_cases hunchanged : edited = rows
  · rw [if_neg fun h => hsame.mp h hunchanged, if_pos hunchanged]
  · rw [if_pos (hsame.mpr hunchanged), if_neg hunchanged]
    congr 1
    rw [evaluateWithElevatedDegree_eq, evaluateWithElevatedDegree_eq, ← mul_sub,
      evaluateFieldPolynomialAtPoint_eq, evaluateFieldPolynomialAtPoint_eq, ← hdegree]
    exact (value_exchange after hdvd hrows hlen x).symm

omit [DecidableEq F] in
theorem editedRows_eq (env : Environment F) (fileMetadata : FileMetadata D) (start len : ℕ) :
    editedRows env fileMetadata start len =
      (start / rowBytes F fileMetadata.numColumns,
        (start + len) / rowBytes F fileMetadata.numColumns) := by
  rw [editedRows, env.capacity_div, Nat.div_div_eq_div_mul, Nat.div_div_eq_div_mul]
  rfl

omit [DecidableEq F] in
theorem editedRows_le (env : Environment F) (fileMetadata : FileMetadata D) (start len : ℕ) :
    (editedRows env fileMetadata start len).1 ≤ (editedRows env fileMetadata start len).2 := by
  rw [editedRows_eq]
  exact Nat.div_le_div_right (Nat.le_add_right _ _)

theorem EditExchange.whole_row (hcols : 1 ≤ fileMetadata.numColumns)
    (h : EditExchange env fileMetadata file edit start) :
    ((start + edit.length) / rowBytes F fileMetadata.numColumns + 1) *
      rowBytes F fileMetadata.numColumns ≤ file.length := by
  obtain ⟨rows, hshown, -⟩ := h
  have hwhole := ((originalRows_eq_ok hcols (editedRows_le _ _ _ _)).mp hshown).1
  rwa [editedRows_eq] at hwhole

theorem editExchange_of_whole_row (hcols : 1 ≤ fileMetadata.numColumns)
    (hwhole : ((start + edit.length) / rowBytes F fileMetadata.numColumns + 1) *
      rowBytes F fileMetadata.numColumns ≤ file.length) :
    EditExchange env fileMetadata file edit start := by
  have hle := editedRows_le env fileMetadata start edit.length
  unfold EditExchange
  rw [editedRows_eq] at hle ⊢
  set width := rowBytes F fileMetadata.numColumns with hwidth
  have hpos : 0 < width := rowBytes_pos hcols
  have hline : env.capacity / 8 * fileMetadata.numColumns = width := by
    rw [env.capacity_div, Nat.mul_comm, hwidth, rowBytes]
  rw [hline]
  -- the file is cut before the first row and behind the last row that is asked for
  have hmono := Nat.mul_le_mul_right width
    (show start / width ≤ (start + edit.length) / width + 1 by omega)
  obtain ⟨before, rows, after, hfile, hbefore, hrows, hslice⟩ := exists_cut hmono hwhole
  have hstart : before.length + start % width = start := by
    rw [hbefore]
    exact Nat.div_add_mod' start width
  have hfit : start % width + edit.length ≤ rows.length := by
    have hend := Nat.div_add_mod' (start + edit.length) width
    have hlt := Nat.mod_lt (start + edit.length) hpos
    rw [Nat.add_mul, Nat.one_mul] at hrows
    omega
  have hlines : width ∣ rows.length := by
    rw [hrows, ← Nat.sub_mul]
    exact Nat.dvd_mul_left _ _
  have hcontent : (Change.edit edit start).content file = before ++ (rows.take (start % width) ++
      edit ++ rows.drop (start % width + edit.length)) ++ after := by
    rw [← hfile, ← content_edit_middle hfit, hstart]
  have hdrop : file.drop start = rows.drop (start % width) ++ after := by
    have hcut := drop_middle before after (show start % width ≤ rows.length by omega)
    rwa [hstart, hfile] at hcut
  refine ⟨rows, (originalRows_eq_ok hcols hle).mpr ⟨hwhole, hslice⟩, by omega,
    Nat.mod_eq_zero_of_dvd hlines, ?_, fun x => ?_⟩
  · rw [hdrop, List.take_append_of_le_length]
    rw [List.length_drop]
    omega
  · have hdvd : dataByteCapacity F ∣ rows.length := (Nat.dvd_mul_left _ _).trans hlines
    have hsame : (Change.edit edit start).content file = file ↔
        rows.take (start % width) ++ edit ++ rows.drop (start % width + edit.length) = rows := by
      rw [hcontent]
      conv_lhs => rw [← hfile]
      rw [List.append_left_inj, List.append_right_inj]
    rw [expectedEditDifference_eq after hbefore hdvd hfit (congrArg (start % ·) hline) hcols x,
      ← hcontent, hfile]
    exact if_congr hsame.symm rfl rfl

/-- The exchange works exactly when the row that holds the byte behind the edit is a whole row of
the file. -/
theorem edit_exchange_iff (hcols : 1 ≤ fileMetadata.numColumns) :
    EditExchange env fileMetadata file edit start ↔
      ((start + edit.length) / rowBytes F fileMetadata.numColumns + 1) *
        rowBytes F fileMetadata.numColumns ≤ file.length :=
  ⟨EditExchange.whole_row hcols, editExchange_of_whole_row hcols⟩

theorem edit_of_first_row : EditExchange fermatEnvironment (firstUpload 3 1 2 3 6) [1, 2, 3] [9] 0 :=
  (edit_exchange_iff (by decide)).mpr (by decide)

/-- A file of one byte in a row of seven. -/
theorem edit_of_short_row_panics : ¬∃ env : Environment WriteableFt63,
    EditExchange env (firstUpload 1 1 2 1 1) [1] [2] 0 := by
  rintro ⟨env, h⟩
  exact absurd (h.whole_row le_rfl) (by decide)

end Edits

section Appends

variable {env : Environment F} {old new : FileMetadata D} {file dataToAppend : List UInt8}
  {elements row : List F}

structure Describes (F : Type) [Field F] [DataField F] (fileMetadata : FileMetadata D)
    (file : List UInt8) : Prop where
  size : fileMetadata.filesizeInBytes = file.length
  rows : fileMetadata.numRows = divCeil file.length (rowBytes F fileMetadata.numColumns)

theorem describes_of_consistent {t : Server D} (h : Consistent env t new file) :
    Describes F new file := by
  obtain ⟨commit, hcommit, -⟩ := h.root
  obtain ⟨hcols, -⟩ := shape_of_commitOf hcommit
  refine ⟨h.size, ?_⟩
  rw [h.rows, h.size, divCeil_divCeil _ capacity_pos hcols, rowBytes]

theorem describes_uploaded {t t' : Server D} {filename : String} {pre enc : ℕ}
    (h : (handleClientUploadNewFile env filename file pre enc).run t =
      .ok (.compactCommit new) t') : Describes F new file ∧ new.numColumns = pre := by
  obtain ⟨new', ⟨hresponse, -⟩, hconsistent, -, hcols, -⟩ := consistent_uploaded h
  obtain rfl := ServerMessages.compactCommit.inj hresponse
  exact ⟨describes_of_consistent hconsistent, hcols⟩

theorem describes_appended {t t' : Server D}
    (h : (handleClientAppendToFile env old dataToAppend).run t = .ok (.compactCommit new) t') :
    ∃ file, t.disk old.idUlid = some file ∧ Describes F new (file ++ dataToAppend) ∧
      new.numColumns = old.numColumns := by
  obtain ⟨file, hfile, new', ⟨hresponse, -⟩, hconsistent, hcols⟩ := consistent_appended h
  obtain rfl := ServerMessages.compactCommit.inj hresponse
  exact ⟨file, hfile, describes_of_consistent hconsistent, hcols⟩

/-- The server can show a row. It holds the coefficient that the append completes, if there is
one, where the client looks for it, and at every point the client makes the difference of the two
evaluations of it. -/
def AppendExchange (env : Environment F) (old new : FileMetadata D)
    (file dataToAppend : List UInt8) : Prop :=
  let degree := old.filesizeInBytes / (env.capacity / 8)
  let newCoefficients : List F := convertByteVecToFieldElementsVec (file ++ dataToAppend)
  ∃ row, appendedRow env old new newCoefficients = .ok row ∧
    (old.filesizeInBytes % (env.capacity / 8) ≠ 0 → ∃ coefficient,
      row[degree % old.numColumns]? = some coefficient ∧
        newCoefficients[degree]? = some coefficient) ∧
    ∀ x, ∃ completed, (completedCoefficient { env with evaluationPoint := x } old new row :
        Client D F env.fft.Err _) = pure completed ∧
      completed.1 + evaluateFieldPolynomialAtPointWithElevatedDegree
          (convertByteVecToFieldElementsVec (completed.2 ++ dataToAppend)) x degree =
        evaluateFieldPolynomialAtPoint newCoefficients x -
          evaluateFieldPolynomialAtPoint (convertByteVecToFieldElementsVec file) x

def lastShown (env : Environment F) (old new : FileMetadata D) : ℕ :=
  if old.numRows < new.numRows then old.numRows * old.numColumns - 1
  else divCeil new.filesizeInBytes env.capacity

theorem appendedRow_eq_ok (hcols : 1 ≤ old.numColumns) (hrows : 1 ≤ old.numRows) :
    appendedRow env old new elements = .ok row ↔
      (old.numRows - 1) * old.numColumns ≤ lastShown env old new + 1 ∧
      lastShown env old new < elements.length ∧
      row = (elements.take (lastShown env old new + 1)).drop
        ((old.numRows - 1) * old.numColumns) := by
  have hpos : 1 ≤ old.numRows * old.numColumns := Nat.mul_pos hrows hcols
  have hrun : appendedRow env old new elements = slice elements
      ((old.numRows - 1) * old.numColumns) (lastShown env old new + 1) := by
    rw [appendedRow, checkedSub_of hrows]
    by_cases hmore : old.numRows < new.numRows
    · simp only [lastShown, if_pos hmore, checkedSub_of hpos, ok_bind, pure_eq_ok]
    · simp only [lastShown, if_neg hmore, ok_bind, pure_eq_ok]
  rw [hrun, slice_eq_ok, Nat.add_one_le_iff]

theorem completedCoefficient_eq {coefficient : F} (hcols : 1 ≤ old.numColumns)
    (hoffset : old.filesizeInBytes % (env.capacity / 8) ≠ 0)
    (hrow : row[old.filesizeInBytes / (env.capacity / 8) % old.numColumns]? = some coefficient)
    (x : F) :
    let bytes := convertFieldElementsVecToByteVec [coefficient]
      (old.filesizeInBytes % (env.capacity / 8))
    (completedCoefficient { env with evaluationPoint := x } old new row : Client D F Err _) =
      pure (0 - evaluateFieldPolynomialAtPointWithElevatedDegree
        (convertByteVecToFieldElementsVec bytes) x (old.filesizeInBytes / (env.capacity / 8)),
          bytes) := by
  intro bytes
  have hlt : old.filesizeInBytes % (env.capacity / 8) < env.capacity / 8 := by
    apply Nat.mod_lt
    rw [env.capacity_div]
    exact capacity_pos
  have hone : (convertByteVecToFieldElementsVec bytes : List F).length = 1 :=
    length_convert_convert (Nat.pos_of_ne_zero hoffset) (env.capacity_div ▸ hlt.le)
  have hcols' : old.numColumns ≠ 0 := by omega
  unfold completedCoefficient
  simp only [if_pos hoffset, remainder, assert_of hcols', ok_bind, pure_eq_ok, checked_ok,
    pure_bind, index_eq_ok.mpr hrow]
  rw [if_neg (not_not.mpr hone)]

/-- The evaluations of the two files differ by those of their last elements alone, in the place of
the first of them. -/
theorem appended_value {whole : List UInt8} (rest dataToAppend : List UInt8)
    (hdvd : dataByteCapacity F ∣ whole.length) (x : F) :
    value (fromByteVec (whole ++ rest ++ dataToAppend) : List F) x -
        value (fromByteVec (whole ++ rest)) x =
      x ^ (whole.length / dataByteCapacity F) *
        (value (fromByteVec (rest ++ dataToAppend)) x - value (fromByteVec rest) x) := by
  rw [List.append_assoc, value_fromByteVec_append hdvd, value_fromByteVec_append hdvd]
  ring

theorem appended_difference (hcols : 1 ≤ old.numColumns)
    (hsize : old.filesizeInBytes = file.length)
    (hentry : old.filesizeInBytes % (env.capacity / 8) ≠ 0 → ∃ coefficient,
      row[old.filesizeInBytes / (env.capacity / 8) % old.numColumns]? = some coefficient ∧
        (convertByteVecToFieldElementsVec (file ++ dataToAppend) : List F)[
          old.filesizeInBytes / (env.capacity / 8)]? = some coefficient) (x : F) :
    ∃ completed, (completedCoefficient { env with evaluationPoint := x } old new row :
        Client D F Err _) = pure completed ∧
      completed.1 + evaluateFieldPolynomialAtPointWithElevatedDegree
          (convertByteVecToFieldElementsVec (completed.2 ++ dataToAppend)) x
          (old.filesizeInBytes / (env.capacity / 8)) =
        evaluateFieldPolynomialAtPoint
            (convertByteVecToFieldElementsVec (file ++ dataToAppend)) x -
          evaluateFieldPolynomialAtPoint (convertByteVecToFieldElementsVec file) x := by
  obtain ⟨whole, rest, hfile, hdvd, hdegree, hrest⟩ := exists_whole_elements F file
  have hdifference := appended_value rest dataToAppend hdvd x
  rw [← hfile, hdegree] at hdifference
  by_cases hoffset : old.filesizeInBytes % (env.capacity / 8) = 0
  · -- the old file ends with a whole element
    have hnil : rest = [] := by
      rw [hsize, env.capacity_div] at hoffset
      exact List.eq_nil_of_length_eq_zero (hrest.trans hoffset)
    refine ⟨(0, []), ?_, ?_⟩
    · unfold completedCoefficient
      exact if_neg (not_not.mpr hoffset)
    · rw [hnil, List.nil_append, fromByteVec_nil, value_nil, sub_zero] at hdifference
      rw [evaluateFieldPolynomialAtPoint_eq, evaluateFieldPolynomialAtPoint_eq,
        evaluateWithElevatedDegree_eq, zero_add, List.nil_append, hsize, env.capacity_div]
      exact hdifference.symm
  · obtain ⟨coefficient, hrow, hcoefficient⟩ := hentry hoffset
    have hne : rest ≠ [] := by
      rintro rfl
      rw [hsize, env.capacity_div] at hoffset
      exact hoffset hrest.symm
    have hle : rest.length ≤ dataByteCapacity F := by
      rw [hrest]
      exact (Nat.mod_lt _ capacity_pos).le
    obtain ⟨head, hhead, hbytes⟩ := exists_head_fromByteVec (F := F) hne hle dataToAppend
    obtain rfl : coefficient = head := by
      have hlen : (fromByteVec whole : List F).length = file.length / dataByteCapacity F := by
        rw [length_fromByteVec, divCeil_of_dvd capacity_pos hdvd, hdegree]
      rw [convertByteVecToFieldElementsVec, hfile, List.append_assoc, fromByteVec_append hdvd,
        hsize, env.capacity_div, List.getElem?_append_right hlen.le, hlen, Nat.sub_self,
        ← List.head?_eq_getElem?, hhead] at hcoefficient
      exact (Option.some.inj hcoefficient).symm
    refine ⟨_, completedCoefficient_eq hcols hoffset hrow x, ?_⟩
    simp only [hsize, env.capacity_div, ← hrest, hbytes, evaluateFieldPolynomialAtPoint_eq,
      evaluateWithElevatedDegree_eq, convertByteVecToFieldElementsVec, hdifference]
    ring

structure ShownInside (env : Environment F) (old new : FileMetadata D) : Prop where
  start_le : (old.numRows - 1) * old.numColumns ≤ lastShown env old new + 1
  last_lt : lastShown env old new < divCeil new.filesizeInBytes (dataByteCapacity F)
  completed : old.filesizeInBytes % dataByteCapacity F ≠ 0 →
    old.filesizeInBytes / dataByteCapacity F ≤ lastShown env old new

theorem Describes.rows_pos (h : Describes F old file) (hcols : 1 ≤ old.numColumns)
    (hne : file ≠ []) : 1 ≤ old.numRows := by
  rw [h.rows]
  refine (lt_divCeil_iff (rowBytes_pos hcols)).mpr ?_
  rw [Nat.zero_mul]
  exact List.length_pos_iff.mpr hne

/-- The coefficient that is completed lies in the last row of the old file. -/
theorem Describes.completed_position (h : Describes F old file) (hcols : 1 ≤ old.numColumns)
    (hne : file ≠ []) (hoffset : old.filesizeInBytes % dataByteCapacity F ≠ 0) :
    (old.numRows - 1) * old.numColumns +
        old.filesizeInBytes / dataByteCapacity F % old.numColumns =
      old.filesizeInBytes / dataByteCapacity F ∧
    old.filesizeInBytes / dataByteCapacity F < old.numRows * old.numColumns := by
  have hrows := h.rows_pos hcols hne
  have hcount : divCeil (old.filesizeInBytes / dataByteCapacity F + 1) old.numColumns =
      old.numRows := by
    have hdvd : ¬dataByteCapacity F ∣ old.filesizeInBytes := fun hdvd =>
      hoffset (Nat.mod_eq_zero_of_dvd hdvd)
    rw [← divCeil_of_not_dvd capacity_pos hdvd, divCeil_divCeil _ capacity_pos hcols, h.rows,
      h.size]
    rfl
  have hstart : (old.numRows - 1) * old.numColumns <
      old.filesizeInBytes / dataByteCapacity F + 1 :=
    (lt_divCeil_iff hcols).mp (by omega)
  have hend : old.filesizeInBytes / dataByteCapacity F + 1 ≤ old.numRows * old.numColumns :=
    (divCeil_le_iff hcols).mp hcount.le
  have hdiv : old.filesizeInBytes / dataByteCapacity F / old.numColumns = old.numRows - 1 := by
    refine Nat.div_eq_of_lt_le (by omega) ?_
    rw [Nat.sub_add_cancel hrows]
    omega
  rw [← hdiv]
  exact ⟨Nat.div_add_mod' _ _, by omega⟩

theorem appendExchange_iff_inside (hcols : 1 ≤ old.numColumns) (hne : file ≠ [])
    (hold : Describes F old file) (hnew : new.filesizeInBytes = (file ++ dataToAppend).length) :
    AppendExchange env old new file dataToAppend ↔ ShownInside env old new := by
  have hrows := hold.rows_pos hcols hne
  have hlen : (convertByteVecToFieldElementsVec (file ++ dataToAppend) : List F).length =
      divCeil new.filesizeInBytes (dataByteCapacity F) := by
    rw [convertByteVecToFieldElementsVec, length_fromByteVec, hnew]
  unfold AppendExchange
  constructor
  · rintro ⟨row, hshown, hentry, -⟩
    obtain ⟨hstart, hlast, rfl⟩ := (appendedRow_eq_ok hcols hrows).mp hshown
    refine ⟨hstart, hlen ▸ hlast, ?_⟩
    intro hoffset
    obtain ⟨hposition, -⟩ := hold.completed_position hcols hne hoffset
    rw [env.capacity_div] at hentry
    obtain ⟨coefficient, hrow, -⟩ := hentry hoffset
    rw [List.getElem?_drop, hposition] at hrow
    obtain ⟨hlt, -⟩ := List.getElem?_eq_some_iff.mp hrow
    rw [List.length_take] at hlt
    omega
  · intro hinside
    have hshown : appendedRow env old new
        (convertByteVecToFieldElementsVec (file ++ dataToAppend) : List F) =
        .ok (((convertByteVecToFieldElementsVec (file ++ dataToAppend)).take
          (lastShown env old new + 1)).drop ((old.numRows - 1) * old.numColumns)) :=
      (appendedRow_eq_ok hcols hrows).mpr ⟨hinside.start_le, hlen ▸ hinside.last_lt, rfl⟩
    have hentry : old.filesizeInBytes % (env.capacity / 8) ≠ 0 → ∃ coefficient,
        (((convertByteVecToFieldElementsVec (file ++ dataToAppend) : List F).take
          (lastShown env old new + 1)).drop ((old.numRows - 1) * old.numColumns))[
            old.filesizeInBytes / (env.capacity / 8) % old.numColumns]? = some coefficient ∧
        (convertByteVecToFieldElementsVec (file ++ dataToAppend) : List F)[
          old.filesizeInBytes / (env.capacity / 8)]? = some coefficient := by
      rw [env.capacity_div]
      intro hoffset
      have hle := hinside.completed hoffset
      have hlt := hinside.last_lt
      obtain ⟨hposition, -⟩ := hold.completed_position hcols hne hoffset
      rw [List.getElem?_drop, hposition, List.getElem?_take_of_lt (by omega)]
      exact ⟨_, List.getElem?_eq_getElem (by omega), List.getElem?_eq_getElem (by omega)⟩
    exact ⟨_, hshown, hentry, fun x => appended_difference hcols hold.size hentry x⟩

theorem shownInside_of_more_rows (hcols : 1 ≤ old.numColumns) (hne : file ≠ [])
    (hold : Describes F old file) (hnew : Describes F new (file ++ dataToAppend))
    (hsame : new.numColumns = old.numColumns) (hmore : old.numRows < new.numRows) :
    ShownInside env old new := by
  have hpos : 1 ≤ old.numRows * old.numColumns := Nat.mul_pos (hold.rows_pos hcols hne) hcols
  have hbefore := Nat.mul_le_mul_right old.numColumns (Nat.sub_le old.numRows 1)
  have hroom : old.numRows * old.numColumns <
      divCeil new.filesizeInBytes (dataByteCapacity F) := by
    rw [hnew.rows, hsame, rowBytes, ← divCeil_divCeil _ capacity_pos hcols,
      lt_divCeil_iff hcols, ← hnew.size] at hmore
    exact hmore
  have hlast : lastShown env old new = old.numRows * old.numColumns - 1 := if_pos hmore
  refine ⟨by omega, by omega, ?_⟩
  intro hoffset
  obtain ⟨-, hlt⟩ := hold.completed_position hcols hne hoffset
  omega

/-- The exchange works when the new file has more rows. With as many rows as before, the index that
divides bytes by bits has to lie in the new file, at or behind the completed coefficient and not
before the last row. -/
theorem append_exchange_iff (hcols : 1 ≤ old.numColumns) (hne : file ≠ [])
    (hold : Describes F old file) (hnew : Describes F new (file ++ dataToAppend))
    (hsame : new.numColumns = old.numColumns) :
    AppendExchange env old new file dataToAppend ↔ old.numRows < new.numRows ∨
      ((old.numRows - 1) * old.numColumns ≤ divCeil new.filesizeInBytes env.capacity + 1 ∧
        divCeil new.filesizeInBytes env.capacity <
          divCeil new.filesizeInBytes (dataByteCapacity F) ∧
        (old.filesizeInBytes % dataByteCapacity F ≠ 0 →
          old.filesizeInBytes / dataByteCapacity F ≤
            divCeil new.filesizeInBytes env.capacity)) := by
  rw [appendExchange_iff_inside hcols hne hold hnew.size]
  by_cases hmore : old.numRows < new.numRows
  · exact iff_of_true (shownInside_of_more_rows hcols hne hold hnew hsame hmore) (.inl hmore)
  · have hlast : lastShown env old new = divCeil new.filesizeInBytes env.capacity := if_neg hmore
    rw [← hlast]
    constructor
    · intro h
      exact .inr ⟨h.start_le, h.last_lt, h.completed⟩
    · rintro (h | ⟨hstart, hlt, hcompleted⟩)
      · exact absurd h hmore
      · exact ⟨hstart, hlt, hcompleted⟩

theorem append_of_next_row :
    AppendExchange fermatEnvironment (firstUpload 1 1 2 1 2) (firstUpload 2 1 2 2 4) [1] [2] := by
  have hold : Describes (ZMod 257) (firstUpload 1 1 2 1 2) [1] := ⟨rfl, by decide⟩
  have hnew : Describes (ZMod 257) (firstUpload 2 1 2 2 4) ([1] ++ [2]) := ⟨rfl, by decide⟩
  exact (append_exchange_iff (by decide) (by decide) hold hnew rfl).mpr (.inl (by decide))

/-- One byte appended to one byte in a row of seven. -/
theorem append_in_same_row_panics : ¬∃ env : Environment WriteableFt63, env.capacity = 62 ∧
    AppendExchange env (firstUpload 1 1 2 1 2) (firstUpload 1 1 2 2 4) [1] [2] := by
  rintro ⟨env, hcapacity, h⟩
  have hold : Describes WriteableFt63 (firstUpload 1 1 2 1 2) [1] := ⟨rfl, by decide⟩
  have hlt := ((appendExchange_iff_inside (by decide) (by decide) hold rfl).mp h).last_lt
  rw [lastShown, hcapacity] at hlt
  exact absurd hlt (by decide)

end Appends

end NetworkExchanges
