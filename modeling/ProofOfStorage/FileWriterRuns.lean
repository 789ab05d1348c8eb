import ProofOfStorage.FileWriter

/-! # Runs of the encoded-file writer

Which rows reach the file, for every way of feeding the writer.
-/
namespace FileWriterRuns

open FoundationFaults FoundationRuns FoundationSlices FoundationPositionalFiles
open CommitmentTypes CommitmentMerkle OnlineColumns FileFields FileDigests FileRows FileWriter

variable {D : Digest} {F Err : Type} [Field F] [DataField F]

section Progress

variable {encoding : LcEncoding F Err} {pre enc k : ℕ} {b s : List UInt8}
  {w : EncodedFileWriter D F Err}

/-- Of the string `b` that the writer was created for, the prefix `s` has been received and the
first `k` rows have been processed. -/
structure Progress (encoding : LcEncoding F Err) (pre enc : ℕ) (b s : List UInt8) (k : ℕ)
    (w : EncodedFileWriter D F Err) : Prop where
  encoding_eq : w.encoding = encoding
  preEncodedSize_eq : w.preEncodedSize = pre
  encodedSize_eq : w.encodedSize = enc
  rowCapacity_eq : w.rowCapacity = divCeil b.length (rowBytes F pre) * 2
  bufferSize_eq : w.outgoingFieldBufferSize = min (2 ^ 10) (divCeil b.length (rowBytes F pre))
  received : w.bytesReceived = s.length
  waiting : w.incomingByteBuffer = s.drop (k * rowBytes F pre)
  tracks : Tracks w.columnDigestAccumulator enc ((encodedRows encoding pre enc b).take k)
  buffers : Buffers enc ((encodedRows encoding pre enc b).take k) w

/-- One row more, if the bytes waiting start with it. -/
theorem Progress.processCurrentRow {finalize : Bool} (hs : Sized encoding pre enc)
    (h : Progress encoding pre enc b s k w) (hk : k < divCeil b.length (rowBytes F pre))
    (hstart : k * rowBytes F pre < s.length)
    (hrow : codeword encoding enc (row (rowBytes F pre) s k) =
      codeword encoding enc (row (rowBytes F pre) b k)) :
    Runs (processCurrentRow finalize) w fun _ w' => Progress encoding pre enc b s (k + 1) w' ∧
      w'.rowsWritten = if flushes w (k + 1) finalize then k + 1 else w.rowsWritten := by
  obtain rfl := h.encoding_eq
  have hrb := rowBytes_pos (F := F) hs.pos
  have hle : (row (rowBytes F pre) s k).length ≤ rowBytes F pre := length_row_le _ _ _
  have hne : row (rowBytes F pre) s k ≠ [] := by
    apply List.length_pos_iff.mp
    rw [length_row]
    omega
  have hlen : ((encodedRows w.encoding pre enc b).take k).length = k := by
    rw [List.length_take, length_encodedRows]
    omega
  have hnext : (encodedRows w.encoding pre enc b).take (k + 1) =
      (encodedRows w.encoding pre enc b).take k ++
        [codeword w.encoding enc (row (rowBytes F pre) s k)] := by
    rw [List.take_add_one, getElem?_encodedRows hk, hrow]
    rfl
  obtain ⟨acc, hacc, htracks⟩ :=
    @Tracks.update Err _ _ _ _ _ _ _ _ h.tracks (hs.length_codeword hle)
  have hencode := encodeCurrentRow_runs (w := w) hs h.preEncodedSize_eq
    h.encodedSize_eq (by rw [h.waiting, row]) hne
  unfold FileWriter.processCurrentRow
  simp only [runs_bind]
  refine hencode.mono ?_
  rintro _ w₁ ⟨rfl, rfl⟩
  simp only [runs_get, runs_lift, runs_modify]
  refine ⟨acc, hacc, ?_⟩
  have hbuffers : Buffers enc ((encodedRows w.encoding pre enc b).take k)
      { w with
        bytesWritten := w.bytesWritten + (row (rowBytes F pre) s k).length
        incomingByteBuffer := w.incomingByteBuffer.drop (rowBytes F pre)
        columnDigestAccumulator := acc } :=
    ⟨h.buffers.written_le, h.buffers.waiting, h.buffers.stored⟩
  have hcap : ((encodedRows w.encoding pre enc b).take k).length + 1 < w.rowCapacity := by
    rw [hlen, h.rowCapacity_eq]
    omega
  refine (hbuffers.bufferedWriteRow (lt_trans hs.pos hs.lt) (hs.length_codeword hle) hcap).mono ?_
  rintro _ w₂ ⟨hbuf, hframe⟩
  rw [hlen] at hframe
  rw [← hnext] at hbuf
  rw [hframe] at hbuf ⊢
  refine ⟨⟨rfl, h.preEncodedSize_eq, h.encodedSize_eq, h.rowCapacity_eq, h.bufferSize_eq,
    h.received, ?_, ?_, hbuf.written_le, hbuf.waiting, hbuf.stored⟩, rfl⟩
  · rw [h.waiting, List.drop_drop, Nat.add_mul, Nat.one_mul]
  · rw [hnext]
    exact htracks

/-- How many of `k` processed rows are in the file when only full buffers are written. -/
def flushedRows (rows k : ℕ) : ℕ := k / min (2 ^ 10) rows * min (2 ^ 10) rows

theorem flushedRows_succ {rows : ℕ} (hrows : 0 < rows) (k : ℕ) :
    (if min (2 ^ 10) rows ≤ k + 1 - flushedRows rows k then k + 1 else flushedRows rows k) =
      flushedRows rows (k + 1) := by
  unfold flushedRows
  have hpos : 0 < min (2 ^ 10) rows := by omega
  generalize min (2 ^ 10) rows = size at *
  have hdiv := Nat.div_add_mod' k size
  have hmod := Nat.mod_lt k hpos
  by_cases hfull : k % size + 1 = size
  · have hnext : k + 1 = (k / size + 1) * size := by
      rw [Nat.add_mul, Nat.one_mul]
      omega
    rw [if_pos (by omega), hnext, Nat.mul_div_cancel _ hpos]
  · have hnext : (k + 1) / size = k / size := by
      apply Nat.div_eq_of_lt_le
      · omega
      · rw [Nat.add_mul, Nat.one_mul]
        omega
    rw [if_neg (by omega), hnext]

/-- Between two calls every full row is processed and every full buffer is written. -/
structure Settled (encoding : LcEncoding F Err) (pre enc : ℕ) (b s : List UInt8)
    (w : EncodedFileWriter D F Err) : Prop where
  progress : Progress encoding pre enc b s (s.length / rowBytes F pre) w
  written : w.rowsWritten =
    flushedRows (divCeil b.length (rowBytes F pre)) (s.length / rowBytes F pre)

theorem row_prefix_eq {n r : ℕ} (h : s <+: b) (hr : (r + 1) * n ≤ s.length) :
    (s.drop (r * n)).take n = row n b r := by
  obtain ⟨t, rfl⟩ := h
  rw [Nat.add_mul, Nat.one_mul] at hr
  rw [row, List.drop_append_of_le_length (by omega), List.take_append_of_le_length]
  rw [List.length_drop]
  omega

theorem Progress.processFullRows (hs : Sized encoding pre enc) (hpre : s <+: b)
    (h : Progress encoding pre enc b s k w) (hk : k * rowBytes F pre ≤ s.length)
    (hw : w.rowsWritten = flushedRows (divCeil b.length (rowBytes F pre)) k) :
    Runs processFullRows w fun _ w' => Settled encoding pre enc b s w' := by
  have hrb := rowBytes_pos (F := F) hs.pos
  unfold FileWriter.processFullRows
  simp only [runs_bind, runs_get]
  refine (runs_repeatWhile
    (fun w => ∃ k, Progress encoding pre enc b s k w ∧ k * rowBytes F pre ≤ s.length ∧
      w.rowsWritten = flushedRows (divCeil b.length (rowBytes F pre)) k)
    (fun w => w.incomingByteBuffer.length) ?_ ⟨k, h, hk, hw⟩ (Nat.lt_succ_self _)).mono ?_
  · rintro w ⟨k, h, hk, hw⟩ hcond
    have hfull : k * rowBytes F pre + rowBytes F pre ≤ s.length := by
      have hlen := of_decide_eq_true hcond
      rw [h.preEncodedSize_eq, h.waiting, List.length_drop] at hlen
      change s.length - k * rowBytes F pre ≥ rowBytes F pre at hlen
      omega
    have hfull' : (k + 1) * rowBytes F pre ≤ s.length := by
      rw [Nat.add_mul, Nat.one_mul]
      exact hfull
    have hkR : k < divCeil b.length (rowBytes F pre) := by
      rw [lt_divCeil_iff hrb]
      have := hpre.length_le
      omega
    have hrow : row (rowBytes F pre) s k = row (rowBytes F pre) b k := row_prefix_eq hpre hfull'
    refine (h.processCurrentRow hs hkR (by omega) (by rw [hrow])).mono ?_
    rintro _ w' ⟨h', hw'⟩
    refine ⟨⟨k + 1, h', hfull', ?_⟩, ?_⟩
    · have hstep := flushedRows_succ (show 0 < divCeil b.length (rowBytes F pre) by omega) k
      rw [hw', ← hstep]
      simp only [flushes, h.bufferSize_eq, hw, Bool.false_eq_true, or_false]
    · rw [h'.waiting, h.waiting, List.length_drop, List.length_drop, Nat.add_mul, Nat.one_mul]
      omega
  · rintro _ w' ⟨⟨k, h, hk, hw⟩, hcond⟩
    have hfew : s.length < (k + 1) * rowBytes F pre := by
      have hlen := of_decide_eq_false hcond
      rw [h.preEncodedSize_eq, h.waiting, List.length_drop] at hlen
      change ¬s.length - k * rowBytes F pre ≥ rowBytes F pre at hlen
      rw [Nat.add_mul, Nat.one_mul]
      omega
    have hdiv : s.length / rowBytes F pre = k := Nat.div_eq_of_lt_le hk hfew
    exact ⟨hdiv.symm ▸ h, hdiv.symm ▸ hw⟩

theorem Progress.receive {bytes : List UInt8} (h : Progress encoding pre enc b s k w)
    (hk : k * rowBytes F pre ≤ s.length) : Progress encoding pre enc b (s ++ bytes) k
      { w with
        bytesReceived := w.bytesReceived + bytes.length
        incomingByteBuffer := w.incomingByteBuffer ++ bytes } := by
  refine { h with received := ?_, waiting := ?_, buffers := ?_ }
  · rw [List.length_append, ← h.received]
  · rw [List.drop_append_of_le_length hk, ← h.waiting]
  · exact ⟨h.buffers.written_le, h.buffers.waiting, h.buffers.stored⟩

theorem Settled.pushBytes {bytes : List UInt8} (hs : Sized encoding pre enc)
    (hpre : s ++ bytes <+: b) (h : Settled encoding pre enc b s w) :
    Runs (pushBytes bytes) w fun _ w' => Settled encoding pre enc b (s ++ bytes) w' := by
  have hk := Nat.div_mul_le_self s.length (rowBytes F pre)
  unfold FileWriter.pushBytes
  simp only [runs_bind, runs_modify]
  refine (h.progress.receive hk).processFullRows hs hpre ?_ h.written
  rw [List.length_append]
  omega

theorem Settled.consumeByteIterator {bytes : List UInt8} (hs : Sized encoding pre enc)
    (hpre : s ++ bytes <+: b) (h : Settled encoding pre enc b s w) :
    Runs (consumeByteIterator bytes) w fun _ w' =>
      Settled encoding pre enc b (s ++ bytes) w' := by
  unfold FileWriter.consumeByteIterator
  simp only [runs_bind, runs_pure]
  refine runs_forEach (fun seen w => Settled encoding pre enc b (s ++ seen) w) ?_
    (by rwa [List.append_nil])
  intro seen byte w₁ hseen h₁
  have hk := Nat.div_mul_le_self (s ++ seen).length (rowBytes F pre)
  have hpre₁ : (s ++ seen) ++ [byte] <+: b := by
    rw [List.append_assoc]
    exact ((List.prefix_append_right_inj s).mpr hseen).trans hpre
  rw [← List.append_assoc]
  simp only [runs_bind, runs_modify]
  refine (h₁.progress.receive hk).processFullRows hs hpre₁ ?_ h₁.written
  have hlen : (s ++ seen ++ [byte]).length = (s ++ seen).length + 1 := by
    rw [List.length_append, List.length_singleton]
  omega

theorem Settled.forEach {α : Type} {xs : List α} {bytes : α → List UInt8}
    {feed : α → Writing D F Err Unit} (hfit : xs.flatMap bytes <+: b)
    (hfeed : ∀ x ∈ xs, ∀ s w, s ++ bytes x <+: b → Settled encoding pre enc b s w →
      Runs (feed x) w fun _ w' => Settled encoding pre enc b (s ++ bytes x) w')
    (h : Settled encoding pre enc b [] w) :
    Runs (forEach xs feed) w fun _ w' => Settled encoding pre enc b (xs.flatMap bytes) w' := by
  refine runs_forEach (fun seen w => Settled encoding pre enc b (seen.flatMap bytes) w) ?_ h
  intro seen x w₁ hseen h₁
  have hpart := (hseen.flatMap bytes).trans hfit
  rw [List.flatMap_append, List.flatMap_singleton] at hpart ⊢
  exact hfeed x (hseen.subset (by simp)) _ _ hpart h₁

theorem exists_new {fft : FieldFFT F} {encoding : LcEncoding F fft.Err} (hpos : 0 < pre)
    (hencoding : (newFromDims fft pre enc : Fallible (FileError fft.Err) _) = .ok encoding)
    (originalFileSize : ℕ) (targetFile : List UInt8) :
    ∃ w, new fft D pre enc originalFileSize targetFile = .ok w ∧ w.encoding = encoding := by
  obtain ⟨hlt, hpow, -⟩ := newFromDims_eq_ok hencoding
  rw [new, assert_of hpow, ok_bind, assert_of hlt, ok_bind, assert_of hpos, ok_bind, hencoding,
    ok_bind]
  exact ⟨_, rfl, rfl⟩

theorem settled_new {fft : FieldFFT F} {w : EncodedFileWriter D F fft.Err}
    {targetFile : List UInt8} (h : new fft D pre enc b.length targetFile = .ok w) :
    Sized w.encoding pre enc ∧ Settled w.encoding pre enc b [] w := by
  obtain ⟨_, -, h⟩ := bind_eq_ok.mp h
  obtain ⟨_, -, h⟩ := bind_eq_ok.mp h
  obtain ⟨_, hpos, h⟩ := bind_eq_ok.mp h
  obtain ⟨encoding, hencoding, h⟩ := bind_eq_ok.mp h
  obtain rfl := Except.ok.inj h
  have hpos := assert_eq_ok.mp hpos
  have hrows : divCeil (divCeil b.length (DataField.dataByteCapacity F)) pre =
      divCeil b.length (rowBytes F pre) := divCeil_divCeil _ DataField.capacity_pos hpos
  refine ⟨Sized.of_newFromDims hpos hencoding, ⟨⟨rfl, rfl, rfl, by rw [hrows], by rw [hrows], rfl,
    by simp, ?_, ?_, ?_, ?_⟩, by simp [flushedRows]⟩⟩
  · simpa using tracks_new enc
  · simp
  · symm
    refine List.eq_replicate_iff.mpr ⟨by simp, ?_⟩
    intro column hcolumn
    obtain ⟨c, -, rfl⟩ := List.mem_map.mp hcolumn
    simp [columnOf]
  · intro r row hrow
    simp at hrow

structure Finished (encoding : LcEncoding F Err) (pre enc : ℕ) (b : List UInt8)
    (w : EncodedFileWriter D F Err) : Prop where
  progress : Progress encoding pre enc b b (divCeil b.length (rowBytes F pre)) w
  written : w.rowsWritten = if rowBytes F pre ∣ b.length then
    flushedRows (divCeil b.length (rowBytes F pre)) (divCeil b.length (rowBytes F pre))
    else divCeil b.length (rowBytes F pre)

/-- After the last row of `s`, by a writer that may have been created for a longer string. -/
structure Drained (encoding : LcEncoding F Err) (pre enc : ℕ) (b s : List UInt8)
    (w : EncodedFileWriter D F Err) : Prop where
  progress : Progress encoding pre enc b s (divCeil s.length (rowBytes F pre)) w
  written : w.rowsWritten = if rowBytes F pre ∣ s.length then
    flushedRows (divCeil b.length (rowBytes F pre)) (divCeil s.length (rowBytes F pre))
    else divCeil s.length (rowBytes F pre)

theorem Drained.finished (h : Drained encoding pre enc b b w) : Finished encoding pre enc b w :=
  ⟨h.progress, h.written⟩

/-- The capacity is that of the announced length, the bytes are those received. -/
theorem Drained.metadata_eq (h : Drained encoding pre enc b s w) :
    getEncodedFileMetadata w = ⟨0, pre, enc, if rowBytes F pre ∣ s.length then
        flushedRows (divCeil b.length (rowBytes F pre)) (divCeil s.length (rowBytes F pre))
        else divCeil s.length (rowBytes F pre),
      divCeil b.length (rowBytes F pre) * 2, s.length⟩ := by
  rw [getEncodedFileMetadata, h.progress.preEncodedSize_eq, h.progress.encodedSize_eq, h.written,
    h.progress.rowCapacity_eq, h.progress.received]

theorem Drained.incoming_nil (hs : Sized encoding pre enc) (h : Drained encoding pre enc b s w) :
    w.incomingByteBuffer = [] := by
  rw [h.progress.waiting]
  exact List.drop_eq_nil_of_le (le_divCeil_mul _ (rowBytes_pos hs.pos))

theorem Settled.processPartialRow {n : ℕ} (hs : Sized encoding pre enc)
    (hb : b = s ++ .replicate n 0) (h : Settled encoding pre enc b s w)
    (hleft : w.incomingByteBuffer ≠ []) :
    Runs (processCurrentRow true) w fun _ w' => Drained encoding pre enc b s w' := by
  have hrb := rowBytes_pos (F := F) hs.pos
  have hle : s.length ≤ b.length := by
    rw [hb, List.length_append]
    exact Nat.le_add_right _ _
  have hlen := List.length_pos_iff.mpr hleft
  rw [h.progress.waiting, List.length_drop] at hlen
  have hdvd : ¬rowBytes F pre ∣ s.length := by
    intro hdvd
    rw [Nat.div_mul_cancel hdvd] at hlen
    omega
  have hrows := divCeil_of_not_dvd hrb hdvd
  have hk : s.length / rowBytes F pre < divCeil b.length (rowBytes F pre) := by
    rw [lt_divCeil_iff hrb]
    omega
  have hrow : codeword encoding enc (row (rowBytes F pre) s (s.length / rowBytes F pre)) =
      codeword encoding enc (row (rowBytes F pre) b (s.length / rowBytes F pre)) := by
    rw [hb, codeword_row_append_zeros hs.lt (Nat.div_mul_le_self _ _)]
  refine (h.progress.processCurrentRow hs hk (by omega) hrow).mono ?_
  rintro _ w' ⟨h', hw'⟩
  rw [← hrows] at h' hw'
  rw [if_pos (.inr rfl)] at hw'
  exact ⟨h', by rw [hw', if_neg hdvd]⟩

theorem Settled.drained (hs : Sized encoding pre enc) (h : Settled encoding pre enc b s w)
    (hnil : w.incomingByteBuffer = []) : Drained encoding pre enc b s w := by
  have hwait := h.progress.waiting
  rw [hnil] at hwait
  have hle : s.length ≤ s.length / rowBytes F pre * rowBytes F pre :=
    List.drop_eq_nil_iff.mp hwait.symm
  have hdvd : rowBytes F pre ∣ s.length :=
    Dvd.intro_left _ (le_antisymm (Nat.div_mul_le_self _ _) hle)
  have hrows := divCeil_of_dvd (rowBytes_pos hs.pos) hdvd
  have hprogress := h.progress
  have hwritten := h.written
  rw [← hrows] at hprogress hwritten
  exact ⟨hprogress, by rw [hwritten, if_pos hdvd]⟩

theorem Settled.processRest {n : ℕ} (hs : Sized encoding pre enc) (hb : b = s ++ .replicate n 0)
    (h : Settled encoding pre enc b s w) :
    Runs processRest w fun _ w' => Drained encoding pre enc b s w' := by
  unfold FileWriter.processRest
  simp only [runs_bind, runs_get, runs_lift, assert_eq_ok, exists_const]
  refine (runs_repeatWhile
    (fun w => Settled encoding pre enc b s w ∨ Drained encoding pre enc b s w)
    (fun w => w.incomingByteBuffer.length) ?_ (.inl h) (Nat.lt_succ_self _)).mono ?_
  · rintro w (h | h) hcond
    · have hleft : w.incomingByteBuffer ≠ [] := by
        rintro hnil
        rw [hnil] at hcond
        cases hcond
      refine (h.processPartialRow hs hb hleft).mono ?_
      intro _ w' hdrained
      refine ⟨.inr hdrained, ?_⟩
      rw [hdrained.incoming_nil hs]
      exact List.length_pos_iff.mpr hleft
    · rw [h.incoming_nil hs] at hcond
      cases hcond
  · rintro _ w' ⟨h | h, hcond⟩
    · have hnil : w'.incomingByteBuffer = [] := by simpa using hcond
      exact ⟨by rw [hnil]; rfl, h.drained hs hnil⟩
    · exact ⟨by rw [h.incoming_nil hs]; rfl, h⟩

inductive Feed where
  | pushBytes (bytes : List UInt8)
  | consumeByteIterator (bytes : List UInt8)

def Feed.bytes : Feed → List UInt8
  | .pushBytes bytes => bytes
  | .consumeByteIterator bytes => bytes

def Feed.run : Feed → Writing D F Err Unit
  | .pushBytes bytes => FileWriter.pushBytes bytes
  | .consumeByteIterator bytes => FileWriter.consumeByteIterator bytes

inductive Finalizer where
  | columnDigest
  | commit
  | merkleTree

inductive Finalized (D : Digest) where
  | columnDigest (digests : List D.Output)
  | commit (root : D.Output)
  | merkleTree (tree : MerkleTree D)

def Finalizer.run : Finalizer → Writing D F Err (EncodedFileMetadata × Finalized D)
  | .columnDigest => do
    let (metadata, digests) ← finalizeToColumnDigest
    return (metadata, .columnDigest digests)
  | .commit => do
    let (metadata, root) ← finalizeToCommit
    return (metadata, .commit root)
  | .merkleTree => do
    let (metadata, tree) ← finalizeToMerkleTree
    return (metadata, .merkleTree tree)

/-- What a finalizer returns when the columns have the digests `leaves`. -/
def Finalizer.Returns (Err : Type) (leaves : List D.Output) : Finalizer → Finalized D → Prop
  | .columnDigest, out => out = .columnDigest leaves
  | .commit, out => ∃ tree root, (MerkleTree.new leaves : Fallible (FileError Err) _) = .ok tree ∧
      (tree.root : Fallible (FileError Err) _) = .ok root ∧ out = .commit root
  | .merkleTree, out => ∃ tree, (MerkleTree.new leaves : Fallible (FileError Err) _) = .ok tree ∧
      out = .merkleTree tree

def writeFile (feeds : List Feed) (finalizer : Finalizer) :
    Writing D F Err (EncodedFileMetadata × Finalized D) := do
  let _ ← forEach feeds Feed.run
  finalizer.run

theorem Settled.feed (hs : Sized encoding pre enc) {feed : Feed} (hpre : s ++ feed.bytes <+: b)
    (h : Settled encoding pre enc b s w) :
    Runs feed.run w fun _ w' => Settled encoding pre enc b (s ++ feed.bytes) w' := by
  cases feed with
  | pushBytes bytes => exact h.pushBytes hs hpre
  | consumeByteIterator bytes => exact h.consumeByteIterator hs hpre

theorem Drained.tracks {n : ℕ} (hs : Sized encoding pre enc) (hb : b = s ++ .replicate n 0)
    (h : Drained encoding pre enc b s w) :
    Tracks w.columnDigestAccumulator enc (encodedRows encoding pre enc s) := by
  have htracks := h.progress.tracks
  rwa [hb, take_encodedRows_append_zeros hs] at htracks

theorem Settled.finalize {n : ℕ} (hs : Sized encoding pre enc) (hb : b = s ++ .replicate n 0)
    (h : Settled encoding pre enc b s w) (finalizer : Finalizer) :
    Runs finalizer.run w fun result w' =>
      Drained encoding pre enc b s w' ∧ result.1 = getEncodedFileMetadata w' ∧
      finalizer.Returns Err (columnLeaves D enc (encodedRows encoding pre enc s)) result.2 := by
  have hrest := h.processRest hs hb
  have hwidth : (columnLeaves D enc (encodedRows encoding pre enc s)).length = enc :=
    length_columnLeaves _ _
  have htwo : 2 ≤ (columnLeaves D enc (encodedRows encoding pre enc s)).length := by
    have hpos := hs.pos
    have hlt := hs.lt
    omega
  obtain ⟨nodes, k, -, -, htree⟩ := @MerkleTree.new_eq Err D _ (hwidth.symm ▸ hs.pow) htwo
  cases finalizer with
  | columnDigest =>
    simp only [Finalizer.run, finalizeToColumnDigest, runs_bind, runs_get, runs_pure]
    refine hrest.mono fun _ w' hfin => ⟨hfin, trivial, ?_⟩
    rw [(hfin.tracks hs hb).getColumnDigests]
    rfl
  | commit =>
    simp only [Finalizer.run, finalizeToCommit, runs_bind, runs_get, runs_lift, runs_pure]
    apply hrest.mono
    intro _ w' hfin
    obtain ⟨root, hroot⟩ := MerkleTree.root_new htree htwo
    rw [(hfin.tracks hs hb).finalizeToCommit, htree, ok_bind]
    exact ⟨root, hroot, hfin, trivial, _, root, htree, hroot, rfl⟩
  | merkleTree =>
    simp only [Finalizer.run, finalizeToMerkleTree, runs_bind, runs_get, runs_lift, runs_pure]
    apply hrest.mono
    intro _ w' hfin
    rw [(hfin.tracks hs hb).finalizeToMerkleTree]
    exact ⟨_, htree, hfin, trivial, _, htree, rfl⟩

theorem Settled.finalizeToMerkleTree {n : ℕ} (hs : Sized encoding pre enc)
    (hb : b = s ++ .replicate n 0) (h : Settled encoding pre enc b s w) :
    Runs finalizeToMerkleTree w fun result _ =>
      result.1 = ⟨0, pre, enc, if rowBytes F pre ∣ s.length then
          flushedRows (divCeil b.length (rowBytes F pre)) (divCeil s.length (rowBytes F pre))
          else divCeil s.length (rowBytes F pre),
        divCeil b.length (rowBytes F pre) * 2, s.length⟩ ∧
      (MerkleTree.new (columnLeaves D enc (encodedRows encoding pre enc s)) :
        Fallible (FileError Err) _) = .ok result.2 := by
  have hfinal := h.finalize hs hb .merkleTree
  simp only [Finalizer.run, runs_bind, runs_pure] at hfinal
  refine hfinal.mono ?_
  rintro ⟨metadata, tree⟩ w' ⟨hdrained, hmetadata, tree', htree, hsame⟩
  obtain rfl : tree = tree' := by injection hsame
  exact ⟨hmetadata.trans hdrained.metadata_eq, htree⟩

theorem writeFile_finished (hs : Sized encoding pre enc) (h : Settled encoding pre enc b [] w)
    {feeds : List Feed} (hfeeds : feeds.flatMap Feed.bytes = b) (finalizer : Finalizer) :
    Runs (writeFile feeds finalizer) w fun result w' =>
      Finished encoding pre enc b w' ∧ result.1 = getEncodedFileMetadata w' ∧
      finalizer.Returns Err (columnLeaves D enc (encodedRows encoding pre enc b)) result.2 := by
  unfold writeFile
  simp only [runs_bind]
  have hfeed : Runs (forEach feeds Feed.run) w fun _ w' =>
      Settled encoding pre enc b (feeds.flatMap Feed.bytes) w' := by
    apply h.forEach (by rw [hfeeds])
    intro feed _ s w hpart hsettled
    exact hsettled.feed hs hpart
  rw [hfeeds] at hfeed
  refine hfeed.mono ?_
  intro _ w₁ h₁
  refine (h₁.finalize hs (n := 0) (List.append_nil b).symm finalizer).mono ?_
  rintro result w' ⟨hdrained, hresult⟩
  exact ⟨hdrained.finished, hresult⟩

end Progress

/-- The metadata counts every byte and every row, and the file holds the codeword of every row in
the transposed layout. -/
structure RowsKept (encoding : LcEncoding F Err) (pre enc : ℕ) (b : List UInt8)
    (metadata : EncodedFileMetadata) (file : List UInt8) : Prop where
  bytes : metadata.bytesOfData = b.length
  rows : metadata.rowsWritten = divCeil b.length (rowBytes F pre)
  cells : ∀ r < metadata.rowsWritten, ∃ word,
    encoding.encode (paddedElements enc (row (rowBytes F pre) b r)) = .ok word ∧
    ∀ c < enc, readAt file ((c * metadata.rowCapacity + r) * writtenBytesWidth F)
      (writtenBytesWidth F) = reprBytes (word.getD c 0)

theorem flushedRows_self_iff {rows : ℕ} (hrows : 0 < rows) :
    flushedRows rows rows = rows ↔ ¬(1024 < rows ∧ ¬1024 ∣ rows) := by
  unfold flushedRows
  by_cases hlt : 1024 < rows
  · rw [Nat.min_eq_left (by omega), show 2 ^ 10 = 1024 from rfl]
    constructor
    · rintro h ⟨-, hnot⟩
      exact hnot ⟨rows / 1024, by omega⟩
    · intro h
      by_contra hne
      exact h ⟨hlt, fun hdvd => hne (Nat.div_mul_cancel hdvd)⟩
  · rw [Nat.min_eq_right (by omega), Nat.div_self hrows, Nat.one_mul]
    exact ⟨fun _ h => hlt h.1, fun _ => rfl⟩

theorem Finished.rowsKept_iff {encoding : LcEncoding F Err} {pre enc : ℕ} {b : List UInt8}
    {w : EncodedFileWriter D F Err} (hs : Sized encoding pre enc) (hb : b ≠ [])
    (h : Finished encoding pre enc b w) :
    RowsKept encoding pre enc b (getEncodedFileMetadata w) w.fileToWriteTo ↔
      ¬(rowBytes F pre ∣ b.length ∧ 1024 < divCeil b.length (rowBytes F pre) ∧
        ¬1024 ∣ divCeil b.length (rowBytes F pre)) := by
  have hrows : 0 < divCeil b.length (rowBytes F pre) := by
    rw [lt_divCeil_iff (rowBytes_pos hs.pos), Nat.zero_mul]
    exact List.length_pos_iff.mpr hb
  have hall : w.rowsWritten = divCeil b.length (rowBytes F pre) ↔
      ¬(rowBytes F pre ∣ b.length ∧ 1024 < divCeil b.length (rowBytes F pre) ∧
        ¬1024 ∣ divCeil b.length (rowBytes F pre)) := by
    rw [h.written]
    by_cases hdvd : rowBytes F pre ∣ b.length
    · rw [if_pos hdvd, flushedRows_self_iff hrows]
      exact ⟨fun hn hand => hn hand.2, fun hn hand => hn ⟨hdvd, hand⟩⟩
    · rw [if_neg hdvd]
      exact ⟨fun _ hand => hdvd hand.1, fun _ => rfl⟩
  rw [← hall]
  constructor
  · intro hkept
    exact hkept.rows
  · intro hwritten
    refine ⟨h.progress.received, hwritten, ?_⟩
    intro r hr
    change r < w.rowsWritten at hr
    have hstored := h.progress.buffers.stored
    have hle : (row (rowBytes F pre) b r).length ≤ rowBytes F pre := length_row_le _ _ _
    refine ⟨_, hs.encode_paddedElements hle, ?_⟩
    intro c hc
    have hget : (((encodedRows encoding pre enc b).take (divCeil b.length (rowBytes F pre))).take
        w.rowsWritten)[r]? = some (codeword encoding enc (row (rowBytes F pre) b r)) := by
      rw [List.getElem?_take_of_lt hr, List.getElem?_take_of_lt (by omega),
        getElem?_encodedRows (by omega)]
    have hcell := (hstored r _ hget c hc).readAt_eq
    rw [length_reprBytes] at hcell
    exact hcell

/-- The file is complete unless it ends with a full row and has more than 1024 rows, but not a
multiple of 1024: then the rows of the last, partly filled buffers never reach it. -/
theorem writer_keeps_rows_iff {fft : FieldFFT F} {pre enc : ℕ} {b targetFile : List UInt8}
    {w : EncodedFileWriter D F fft.Err} (hb : b ≠ [])
    (hnew : new fft D pre enc b.length targetFile = .ok w) {feeds : List Feed}
    (hfeeds : feeds.flatMap Feed.bytes = b) (finalizer : Finalizer) :
    Runs (writeFile feeds finalizer) w fun result w' =>
      (RowsKept w.encoding pre enc b result.1 w'.fileToWriteTo ↔
        ¬(rowBytes F pre ∣ b.length ∧ 1024 < divCeil b.length (rowBytes F pre) ∧
          ¬1024 ∣ divCeil b.length (rowBytes F pre))) := by
  obtain ⟨hs, hsettled⟩ := settled_new hnew
  refine (writeFile_finished hs hsettled hfeeds finalizer).mono ?_
  rintro ⟨metadata, out⟩ w' ⟨hfinished, hmetadata, -⟩
  change metadata = getEncodedFileMetadata w' at hmetadata
  rw [hmetadata]
  exact hfinished.rowsKept_iff hs hb

theorem writer_keeps_three_rows : ∃ w, new fermatFft byteSum 1 2 3 [] = .ok w ∧
    Runs (writeFile [.pushBytes [1], .consumeByteIterator [2, 3]] .merkleTree) w
      fun result w' => RowsKept w.encoding 1 2 [1, 2, 3] result.1 w'.fileToWriteTo := by
  obtain ⟨w, hnew⟩ : ∃ w, new fermatFft byteSum 1 2 ([1, 2, 3] : List UInt8).length [] = .ok w :=
    ⟨_, rfl⟩
  refine ⟨w, hnew, (writer_keeps_rows_iff (by decide) hnew rfl .merkleTree).mono ?_⟩
  intro result w' hiff
  exact hiff.mpr (by decide)

/-- One row more than the buffers hold, and no partial row behind it. -/
theorem writer_loses_row : ∃ w, new fermatFft byteSum 1 2 1025 [] = .ok w ∧
    Runs (writeFile [.pushBytes (.replicate 1025 7)] .merkleTree) w fun result w' =>
      result.1.rowsWritten = 1024 ∧
      ¬RowsKept w.encoding 1 2 (.replicate 1025 7) result.1 w'.fileToWriteTo := by
  obtain ⟨w, hnew⟩ : ∃ w, new fermatFft byteSum 1 2 1025 [] = .ok w := ⟨_, rfl⟩
  have hlen : (List.replicate 1025 (7 : UInt8)).length = 1025 := List.length_replicate
  obtain ⟨hs, hsettled⟩ := settled_new (b := List.replicate 1025 7) (hlen.symm ▸ hnew)
  refine ⟨w, hnew,
    (writeFile_finished hs hsettled (List.flatMap_singleton _ _) .merkleTree).mono ?_⟩
  rintro ⟨metadata, out⟩ w' ⟨hfinished, hmetadata, -⟩
  have hwritten := hfinished.written
  rw [hlen] at hwritten
  change metadata = getEncodedFileMetadata w' at hmetadata
  rw [hmetadata]
  refine ⟨hwritten, ?_⟩
  intro hkept
  have hrows : w'.rowsWritten = divCeil (List.replicate 1025 (7 : UInt8)).length
    (rowBytes (ZMod 257) 1) := hkept.rows
  rw [hlen, hwritten] at hrows
  exact absurd hrows (by decide)

end FileWriterRuns
