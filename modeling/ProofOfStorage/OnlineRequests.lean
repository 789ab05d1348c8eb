import ProofOfStorage.FoundationPanics
import ProofOfStorage.OnlineChecks

/-! # Requests for columns

The sizes of a request are checked before anything is computed; its column numbers are used as
they came.
-/
namespace OnlineRequests

open FoundationFaults FoundationSlices FoundationPanics CommitmentTypes CommitmentMerkle
  CommitmentProof CommitmentCompleteness OnlineColumns OnlineChecks

variable {D : Digest} {F : Type}

def requestedIndices : CommitRequestType → List ℕ
  | .commit => []
  | .leaves requested => requested
  | .columnsWithPath requested => requested
  | .columnsWithoutPath requested => requested

/-- What the conversion demands of specified dimensions. -/
structure ValidSizes (numPreEncodedColumns numEncodedColumns : ℕ) : Prop where
  one_le : 1 ≤ numPreEncodedColumns
  two_le : 2 ≤ numEncodedColumns
  isPowerOfTwo : isPowerOfTwo numEncodedColumns = true
  lt : numPreEncodedColumns < numEncodedColumns

/-- A request that should be refused. -/
def Malformed (fieldData : List F) (request : CommitRequestType) (nPre nEnc : ℕ) : Prop :=
  fieldData = [] ∨ ¬ValidSizes nPre nEnc ∨ ∃ c ∈ requestedIndices request, nEnc ≤ c

/-- A request is refused with an error when it is malformed, and answered otherwise. -/
structure Handled {ε α : Type} (malformed : Prop) (answer : Fallible ε α) : Prop where
  refused : malformed → ∃ e, answer = .error (.error e)
  answered : ¬malformed → ∃ out, answer = .ok out
  returns : answer ≠ .error .panic

theorem handled_of_error {ε α : Type} {malformed : Prop} {answer : Fallible ε α} {e : ε}
    (hmalformed : malformed) (h : answer = .error (.error e)) : Handled malformed answer :=
  ⟨fun _ => ⟨e, h⟩, fun hwell => absurd hmalformed hwell, by simp [h]⟩

theorem handled_of_ok {ε α : Type} {malformed : Prop} {answer : Fallible ε α} {out : α}
    (hwell : ¬malformed) (h : answer = .ok out) : Handled malformed answer :=
  ⟨fun hmalformed => absurd hmalformed hwell, fun _ => ⟨out, h⟩, by simp [h]⟩

section Loops

variable {ε α β : Type} {m : List F}

theorem noError_reads (position : α → ℕ) (f : α → F → β) (ps : List α) :
    NoError (ps.mapM (fun p => do return f p (← index m (position p))) : Fallible ε (List β)) :=
  noError_mapM fun _ _ => noError_bind noError_index fun _ => noError_ok _

/-- A loop over rows that keeps one value for each request and reads one entry for it. A last
row that looks outside the matrix makes it panic, whatever the rows before it have found. -/
theorem readRows_panics (parts : ℕ → List β → List α) (position : ℕ → α → ℕ) (f : α → F → β)
    {n last : ℕ} {start : List β}
    (hparts : ∀ row running, running.length = n → (parts row running).length = n)
    (hlast : ∀ running, running.length = n → ∃ p ∈ parts last running, m.length ≤ position last p)
    (hstart : start.length = n) :
    ((List.range (last + 1)).foldlM (fun running row => (parts row running).mapM fun p => do
      return f p (← index m (position row p))) start : Fallible ε (List β)) = .error .panic := by
  rw [List.range_succ]
  apply foldlM_panics (I := fun running => running.length = n) ?_ ?_ hstart
  · intro running hlength row _
    refine ⟨noError_reads _ f _, ?_⟩
    intro out hout
    rw [← (mapM_eq_ok.mp hout).length_eq, hparts row running hlength]
  · intro running hlength
    obtain ⟨p, hp, houtside⟩ := hlast running hlength
    apply mapM_panics (fun _ _ => noError_bind noError_index fun _ => noError_ok _) hp
    exact bind_eq_panic.mpr (.inl (index_eq_panic.mpr houtside))

variable {requested : List ℕ} {last nEnc c : ℕ}

theorem length_le_entry (hm : m.length = (last + 1) * nEnc) (hc : nEnc ≤ c) :
    m.length ≤ last * nEnc + c := by
  rw [hm, Nat.add_mul, Nat.one_mul]
  omega

theorem collectColumns_panics (hm : m.length = (last + 1) * nEnc) (hc : c ∈ requested)
    (hout : nEnc ≤ c) :
    ((List.range (last + 1)).foldlM (fun columns row => (columns.zip requested).mapM fun p => do
        return p.1 ++ [← index m (row * nEnc + p.2)])
      (List.replicate requested.length []) : Fallible ε (List (List F))) = .error .panic := by
  apply readRows_panics (fun _ columns => columns.zip requested)
    (fun row p => row * nEnc + p.2) (fun p x => p.1 ++ [x]) (n := requested.length)
  · intro row columns hlength
    rw [List.length_zip, hlength, Nat.min_self]
  · intro columns hlength
    obtain ⟨column, hmem⟩ := exists_mem_zip hlength hc
    refine ⟨(column, c), ?_, length_le_entry hm hout⟩
    rw [← List.zip_swap]
    exact List.mem_map_of_mem (f := Prod.swap) hmem
  · rw [List.length_replicate]

theorem feedRows_panics [FieldHash F] (hm : m.length = (last + 1) * nEnc) (hc : c ∈ requested)
    (hout : nEnc ≤ c) :
    ((List.range (last + 1)).foldlM (fun digests row => feedRow m
        (requested.map fun columnIndex => row * nEnc + columnIndex) digests)
      (List.replicate requested.length (Hasher.newColumn : Hasher D)) :
        Fallible ε (List (Hasher D))) = .error .panic := by
  apply readRows_panics
    (fun row digests => (requested.map fun columnIndex => row * nEnc + columnIndex).zip digests)
    (fun _ p => p.1) (fun p x => digestUpdate x p.2) (n := requested.length)
  · intro row digests hlength
    rw [List.length_zip, List.length_map, hlength, Nat.min_self]
  · intro digests hlength
    obtain ⟨digest, hmem⟩ := exists_mem_zip (x := last * nEnc + c) (by simpa using hlength)
      (List.mem_map_of_mem hc)
    exact ⟨_, hmem, length_le_entry hm hout⟩
  · rw [List.length_replicate]

end Loops

section Requests

variable [Field F] {fft : FieldFFT F} {sqrtCeil : ℕ → ℕ} {fieldData : List F} {nPre nEnc : ℕ}
  {request : CommitRequestType}

omit [Field F] in
theorem matrixDimensions_of_valid (h : ValidSizes nPre nEnc) (dataLen : ℕ) :
    matrixDimensions fft sqrtCeil dataLen (.specified nPre nEnc) = .ok (nPre, nEnc) :=
  matrixDimensions_specified_eq_ok.mpr ⟨h.one_le, h.two_le, h.isPowerOfTwo, h.lt, rfl⟩

omit [Field F] in
theorem matrixDimensions_of_not_valid (h : ¬ValidSizes nPre nEnc) (dataLen : ℕ) :
    ∃ e, matrixDimensions fft sqrtCeil dataLen (.specified nPre nEnc) = .error (.error e) := by
  apply exists_error_of
  · simp [matrixDimensions, bind_eq_panic, ensure_ne_panic]
  · intro dims hdims
    obtain ⟨hone, htwo, hpow, hlt, -⟩ := matrixDimensions_specified_eq_ok.mp hdims
    exact h ⟨hone, htwo, hpow, hlt⟩

/-- The precomputation exists for every power of two up to the size of the transform. -/
def PrecomputesUpTo (fft : FieldFFT F) (maxSize : ℕ) : Prop :=
  ∀ n ≤ maxSize, isPowerOfTwo n = true →
    ∃ pc, fft.precompFft n = .ok pc ∧ n = 2 ^ fft.getLogLen pc

omit [Field F] in
theorem newFromDims_of_valid {ε : Type} {maxSize : ℕ} (hfft : PrecomputesUpTo fft maxSize)
    (hmax : nEnc ≤ maxSize) (h : ValidSizes nPre nEnc) :
    ∃ encoding, (newFromDims fft nPre nEnc : Fallible ε _) = .ok encoding := by
  obtain ⟨pc, hpc, hlen⟩ := hfft nEnc hmax h.isPowerOfTwo
  have hdims : ligeroDimsOk nPre nEnc = true := by simp [ligeroDimsOk, h.lt, h.isPowerOfTwo]
  refine ⟨ligeroEncoding fft nPre nEnc pc, ?_⟩
  rw [newFromDims, assert_of hdims, ok_bind, unwrap_eq_ok.mpr hpc, ok_bind, assert_of hlen]
  rfl

variable [PrimeField F]

theorem convert_refuses (h : fieldData = [] ∨ ¬ValidSizes nPre nEnc) :
    ∃ e, convertFileDataToCommit fft D sqrtCeil fieldData request (.specified nPre nEnc) =
      .error (.error e) := by
  by_cases hdata : fieldData = []
  · exact ⟨.message "Cannot convert empty file to commit", by subst hdata; rfl⟩
  · have hpos : fieldData.length > 0 := List.length_pos_iff.mpr hdata
    obtain ⟨e, he⟩ : ∃ e, matrixDimensions fft sqrtCeil fieldData.length (.specified nPre nEnc) =
        .error (.error e) := matrixDimensions_of_not_valid (h.resolve_left hdata) _
    refine ⟨e, ?_⟩
    simp only [convertFileDataToCommit, ensure_of hpos, ok_bind, he]
    rfl

variable {maxSize : ℕ}

theorem convert_answers (hfft : PrecomputesUpTo fft maxSize) (hmax : nEnc ≤ maxSize)
    (hword : nEnc < 2 ^ 64) (hdata : fieldData ≠ []) (hvalid : ValidSizes nPre nEnc)
    (hrequested : ∀ c ∈ requestedIndices request, c < nEnc) :
    ∃ out, convertFileDataToCommit fft D sqrtCeil fieldData request (.specified nPre nEnc) =
      .ok out := by
  obtain ⟨encoding, hencoding⟩ : ∃ encoding, (newFromDims fft nPre nEnc :
      Fallible (ConversionError fft.Err) _) = .ok encoding :=
    newFromDims_of_valid hfft hmax hvalid
  -- Specified dimensions do not take a square root, so any function may stand for it.
  have hdims : matrixDimensions fft id fieldData.length (.specified nPre nEnc) = .ok (nPre, nEnc) :=
    matrixDimensions_of_valid hvalid _
  obtain ⟨comm, hc, -, hcommit, houtputs⟩ :=
    convert_outputs (D := D) (fun _ h => h) hdata hdims hword hencoding
  cases request with
  | commit => exact ⟨_, hcommit⟩
  | leaves requested => exact ⟨_, (houtputs requested hrequested).1⟩
  | columnsWithPath requested => exact ⟨_, (houtputs requested hrequested).2.1⟩
  | columnsWithoutPath requested => exact ⟨_, (houtputs requested hrequested).2.2⟩

/-- A column number past the row is never refused: every kind of request panics on it. -/
theorem convert_panics (hfft : PrecomputesUpTo fft maxSize) (hmax : nEnc ≤ maxSize)
    (hword : nEnc < 2 ^ 64) (hdata : fieldData ≠ []) (hvalid : ValidSizes nPre nEnc) {c : ℕ}
    (hc : c ∈ requestedIndices request) (hout : nEnc ≤ c) :
    convertFileDataToCommit fft D sqrtCeil fieldData request (.specified nPre nEnc) =
      .error .panic := by
  obtain ⟨encoding, hencoding⟩ : ∃ encoding, (newFromDims fft nPre nEnc :
      Fallible (ConversionError fft.Err) _) = .ok encoding :=
    newFromDims_of_valid hfft hmax hvalid
  obtain ⟨comm, hcommit, -, -, -, hcols, -⟩ :=
    commit_ligero (D := D) hdata hvalid.one_le hword hencoding
  obtain ⟨m, hm⟩ := encodedCoefs_total hvalid.one_le hencoding fieldData
  have hlength := (encodedCoefs_eq_ok rfl hm).length_eq
  obtain ⟨last, hlast⟩ : ∃ last, divCeil fieldData.length nPre = last + 1 := by
    have hrow : 0 < divCeil fieldData.length nPre := by
      rw [lt_divCeil_iff hvalid.one_le, Nat.zero_mul]
      exact List.length_pos_iff.mpr hdata
    exact ⟨divCeil fieldData.length nPre - 1, by omega⟩
  have hdims : matrixDimensions fft sqrtCeil fieldData.length (.specified nPre nEnc) =
      .ok (nPre, nEnc) := matrixDimensions_of_valid hvalid _
  obtain ⟨-, hopened, hleaves, hvalues⟩ := convert_eq (D := D) hdata hdims hencoding
  rw [hlast] at hm hlength hleaves hvalues
  cases request with
  | commit => cases hc
  | leaves requested =>
    have hc : c ∈ requested := hc
    rw [hleaves]
    simp only [hm, ok_bind, feedRows_panics hlength hc hout, error_bind]
  | columnsWithPath requested =>
    have hc : c ∈ requested := hc
    have hopen : unwrap (openColumn comm c : Fallible (ProverError fft.Err) _) =
        (.error .panic : Fallible (ConversionError fft.Err) _) := by
      have hnot : ¬c < comm.nCols := by omega
      simp [openColumn, ensure, hnot, fail, unwrap]
    rw [hopened, hcommit]
    simp only [mapErr, ok_bind, mapM_panics (fun _ _ => noError_unwrap) hc hopen, error_bind]
  | columnsWithoutPath requested =>
    have hc : c ∈ requested := hc
    rw [hvalues]
    simp only [hm, ok_bind, collectColumns_panics hlength hc hout, error_bind]

/-- The conversion handles a request as it should if and only if it does not reach the column
numbers, or finds all of them inside a row. -/
theorem request_handled_iff (D : Digest) (sqrtCeil : ℕ → ℕ) (fieldData : List F)
    (request : CommitRequestType) (nPre nEnc : ℕ) (hfft : PrecomputesUpTo fft maxSize)
    (hmax : nEnc ≤ maxSize) (hword : nEnc < 2 ^ 64) :
    Handled (Malformed fieldData request nPre nEnc)
      (convertFileDataToCommit fft D sqrtCeil fieldData request (.specified nPre nEnc)) ↔
    fieldData = [] ∨ ¬ValidSizes nPre nEnc ∨ ∀ c ∈ requestedIndices request, c < nEnc := by
  by_cases hchecks : fieldData = [] ∨ ¬ValidSizes nPre nEnc
  · obtain ⟨e, he⟩ : ∃ e, convertFileDataToCommit fft D sqrtCeil fieldData request
        (.specified nPre nEnc) = .error (.error e) := convert_refuses hchecks
    have hmalformed : Malformed fieldData request nPre nEnc := hchecks.imp_right .inl
    exact iff_of_true (handled_of_error hmalformed he) (hchecks.imp_right .inl)
  · rw [not_or, not_not] at hchecks
    obtain ⟨hdata, hvalid⟩ := hchecks
    constructor
    · intro hhandled
      refine .inr (.inr ?_)
      intro c hc
      by_contra hout
      exact hhandled.returns (convert_panics hfft hmax hword hdata hvalid hc (not_lt.mp hout))
    · rintro (hempty | hinvalid | hrequested)
      · exact absurd hempty hdata
      · exact absurd hvalid hinvalid
      · obtain ⟨out, hout⟩ : ∃ out, convertFileDataToCommit fft D sqrtCeil fieldData request
            (.specified nPre nEnc) = .ok out :=
          convert_answers hfft hmax hword hdata hvalid hrequested
        refine handled_of_ok ?_ hout
        rintro (hempty | hinvalid | ⟨c, hc, hle⟩)
        · exact hdata hempty
        · exact hinvalid hvalid
        · exact absurd (hrequested c hc) (not_lt.mpr hle)

end Requests

theorem precomputesUpTo_fermatFft : PrecomputesUpTo fermatFft 256 := by
  intro n hn hpow
  refine ⟨log2 n, if_pos ⟨hpow, hn⟩, ?_⟩
  show n = 2 ^ log2 n
  rw [log2_eq]
  exact beq_iff_eq.mp hpow

theorem request_handled_small :
    Handled (Malformed [(3 : ZMod 257), 5, 7] (.leaves [3, 1, 3]) 2 4)
      (convertFileDataToCommit fermatFft byteSum Nat.sqrt [3, 5, 7] (.leaves [3, 1, 3])
        (.specified 2 4)) :=
  (request_handled_iff byteSum Nat.sqrt _ _ 2 4 precomputesUpTo_fermatFft (by decide)
    (by decide)).mpr (.inr (.inr (by decide)))

/-- Column 2 of a row of two, which in the first of three rows is the first entry of the second
row: it is no error for any kind of request that has column numbers. -/
theorem column_past_row_panics :
    ¬ Handled (Malformed [(3 : ZMod 257), 5, 7] (.columnsWithPath [2]) 1 2)
      (convertFileDataToCommit fermatFft byteSum Nat.sqrt [3, 5, 7] (.columnsWithPath [2])
        (.specified 1 2)) ∧
    ¬ Handled (Malformed [(3 : ZMod 257), 5, 7] (.columnsWithoutPath [2]) 1 2)
      (convertFileDataToCommit fermatFft byteSum Nat.sqrt [3, 5, 7] (.columnsWithoutPath [2])
        (.specified 1 2)) ∧
    ¬ Handled (Malformed [(3 : ZMod 257), 5, 7] (.leaves [2]) 1 2)
      (convertFileDataToCommit fermatFft byteSum Nat.sqrt [3, 5, 7] (.leaves [2])
        (.specified 1 2)) := by
  have hpanics : ∀ request, 2 ∈ requestedIndices request →
      convertFileDataToCommit fermatFft byteSum Nat.sqrt [3, 5, 7] request (.specified 1 2) =
        .error .panic := fun request hmem =>
    convert_panics precomputesUpTo_fermatFft (by decide) (by decide) (List.cons_ne_nil _ _)
      ⟨by decide, by decide, by decide, by decide⟩ hmem le_rfl
  have hmem : 2 ∈ [2] := List.mem_singleton_self 2
  exact ⟨fun h => h.returns (hpanics _ hmem), fun h => h.returns (hpanics _ hmem),
    fun h => h.returns (hpanics _ hmem)⟩

end OnlineRequests
