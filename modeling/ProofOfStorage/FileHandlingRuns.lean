import ProofOfStorage.FileHandling

/-! # Runs of the file handler

Every sequence of calls keeps the files in agreement and changes the stored bytes as a plain byte
string would change.
-/
namespace FileHandlingRuns

open FoundationFaults FoundationRuns FoundationSlices FoundationPositionalFiles
open CommitmentTypes CommitmentMerkle OnlineColumns FileFields FileDigests FileRows
open FileWriter FileReader FileHandling

/-- `b` with the bytes from `start` on replaced. -/
def splice (b : List UInt8) (start : ℕ) (bytes : List UInt8) : List UInt8 :=
  b.take start ++ bytes ++ b.drop (start + bytes.length)

section Bytes

variable {b bytes : List UInt8} {start n : ℕ}

theorem length_splice (h : start + bytes.length ≤ b.length) :
    (splice b start bytes).length = b.length := by
  simp only [splice, List.length_append, List.length_take, List.length_drop]
  omega

theorem writeAt_eq_splice (h : start + bytes.length ≤ b.length) :
    writeAt b start bytes = splice b start bytes := by
  cases bytes with
  | nil => simp [writeAt, splice]
  | cons x xs =>
    have hgap : start - b.length = 0 := by omega
    simp [writeAt, splice, hgap]

theorem row_splice_before {r : ℕ} (h : start + bytes.length ≤ b.length)
    (hr : r < start / n) : row n (splice b start bytes) r = row n b r := by
  apply row_congr
  intro c hc
  have hrow := Nat.mul_le_mul_right n (show r + 1 ≤ start / n from hr)
  have hdiv := Nat.div_mul_le_self start n
  rw [Nat.add_mul, Nat.one_mul] at hrow
  rw [← writeAt_eq_splice h]
  exact getElem?_writeAt_outside (by omega) (.inl (by omega))

theorem row_splice_after {r : ℕ} (hn : 0 < n) (h : start + bytes.length ≤ b.length)
    (hr : divCeil (start + bytes.length) n ≤ r) : row n (splice b start bytes) r = row n b r := by
  apply row_congr
  intro c hc
  have hle := (divCeil_le_iff hn).mp hr
  rcases Nat.lt_or_ge (r * n + c) b.length with hlt | hge
  · rw [← writeAt_eq_splice h]
    exact getElem?_writeAt_outside hlt (.inr (by omega))
  · rw [List.getElem?_eq_none hge, List.getElem?_eq_none (by rw [length_splice h]; exact hge)]

theorem row_append_before {r : ℕ} (hr : r < b.length / n) : row n (b ++ bytes) r = row n b r := by
  apply row_congr
  intro c hc
  have hrow := Nat.mul_le_mul_right n (show r + 1 ≤ b.length / n from hr)
  have hdiv := Nat.div_mul_le_self b.length n
  rw [Nat.add_mul, Nat.one_mul] at hrow
  exact List.getElem?_append_left (by omega)

theorem div_le_divCeil (a n : ℕ) : a / n ≤ divCeil a n := by
  rcases Nat.eq_zero_or_pos n with rfl | hn
  · simp
  · exact Nat.div_le_div_right (by omega)

end Bytes

variable {D : Digest} {F Err : Type} [Field F] [DataField F]

section Calls

variable {h : FileHandler D F Err} {b : List UInt8}

omit [Field F] [DataField F] in
theorem mixed_self_of_take {old new : List (List F)} {s : ℕ} (h : new.take s = old.take s) :
    mixed old new s = old := by
  rw [mixed, h, List.take_append_drop]

omit [Field F] [DataField F] in
theorem mixed_of_drop {old new : List (List F)} {e : ℕ} (h : old.drop e = new.drop e) :
    mixed old new e = new := by
  rw [mixed, h, List.take_append_drop]

theorem rows_le_capacity (ha : Agrees h b) :
    divCeil b.length (rowBytes F h.preEncodedSize) ≤ h.rowCapacity := by
  have hcap := ha.encodes.stores.capacity
  rw [length_rowsOf, ha.encodes.rowCapacity_eq] at hcap
  exact hcap

omit [Field F] [DataField F] in
theorem putRow_self {rows : List (List F)} {t : ℕ} {row : List F} (hrow : rows[t]? = some row) :
    putRow rows t row = rows := by
  obtain ⟨ht, rfl⟩ := List.getElem?_eq_some_iff.mp hrow
  rw [putRow, List.cons_getElem_drop_succ, List.take_append_drop]

theorem Describes.withReader (hd : Describes h b) (r : EncodedFileReader F Err) :
    Describes { h with encodedFileReadWriter := r } b :=
  ⟨hd.sized, hd.unencoded, hd.totalDataBytes_eq, hd.rowsWritten_eq⟩

/-- A loop that encodes rows `s` to `e` of `b` again leaves the encoding of `b`, when the file
held the right rows outside that range. -/
theorem runs_reencodeRows (hd : Describes h b) {body : ℕ → Handling D F Err Unit}
    (hbody : ∀ t h' rows, Describes h' b → t < divCeil b.length (rowBytes F h'.preEncodedSize) →
      Encodes h' rows → t ≤ rows.length → t < h'.rowCapacity → Runs (body t) h' fun _ h'' =>
        Encodes h'' (putRow rows t (codeword h'.encoding h'.encodedSize
          (row (rowBytes F h'.preEncodedSize) b t))) ∧
        h'' = { h' with encodedFileReadWriter := h''.encodedFileReadWriter })
    {old : List (List F)} {s e : ℕ} (he : Encodes h old) (hse : s ≤ e)
    (hrows : e ≤ divCeil b.length (rowBytes F h.preEncodedSize)) (hcap : e ≤ h.rowCapacity)
    (hstart : (rowsOf h b).take s = old.take s) (hend : old.drop e = (rowsOf h b).drop e) :
    Runs (forEach (List.range' s (e - s)) body) h fun _ h' => Encodes h' (rowsOf h b) ∧
      h' = { h with encodedFileReadWriter := h'.encodedFileReadWriter } := by
  have hloop : Runs (forEach (List.range' s (e - s)) body) h fun _ h' =>
      Encodes h' (mixed old (rowsOf h b) (s + (e - s))) ∧
      h' = { h with encodedFileReadWriter := h'.encodedFileReadWriter } := by
    refine runs_replaceRows ?_ (by rw [mixed_self_of_take hstart]; exact he)
    intro t h' ht hframe he'
    have hlt : t < divCeil b.length (rowBytes F h.preEncodedSize) := by omega
    have hlen : t ≤ (mixed old (rowsOf h b) t).length := by
      rw [mixed, List.length_append, List.length_take, length_rowsOf]
      omega
    generalize h'.encodedFileReadWriter = r at hframe
    subst hframe
    have hd' := Describes.withReader hd r
    have htcap : t < h.rowCapacity := by omega
    have hput : putRow (mixed old (rowsOf h b) t) t (codeword h.encoding h.encodedSize
        (row (rowBytes F h.preEncodedSize) b t)) = mixed old (rowsOf h b) (t + 1) :=
      putRow_mixed (getElem?_encodedRows hlt)
    refine (hbody t _ _ hd' hlt he' hlen htcap).mono ?_
    rintro _ h'' ⟨he'', hframe'⟩
    exact ⟨hput ▸ he'', hframe'⟩
  rw [Nat.add_sub_cancel' hse, mixed_of_drop hend] at hloop
  exact hloop

structure Keeps (h h' : FileHandler D F Err) : Prop where
  preEncodedSize : h'.preEncodedSize = h.preEncodedSize
  metadata : h'.metadataFile.isSome = h.metadataFile.isSome

theorem runs_recalculateMerkleTree (hd : Describes h b) (he : Encodes h (rowsOf h b)) :
    Runs recalculateMerkleTree h fun tree h' =>
      tree = h'.merkleTree ∧ Agrees h' b ∧
      h' = { h with merkleTree := h'.merkleTree, merkleTreeFile := h'.merkleTreeFile } := by
  refine he.recalculateMerkleTree.mono ?_
  rintro tree h' ⟨htree, hframe⟩
  generalize h'.merkleTreeFile = file at hframe
  subst hframe
  exact ⟨rfl, ⟨⟨hd.sized, hd.unencoded, hd.totalDataBytes_eq, hd.rowsWritten_eq⟩,
    ⟨he.stores, he.encoding_eq, he.rowCapacity_eq⟩, htree⟩, rfl⟩

theorem runs_editBytes (ha : Agrees h b) {start : ℕ} {bytes : List UInt8}
    (hle : start + bytes.length ≤ b.length) :
    Runs (editBytes start bytes) h fun result h' =>
      result.1 = (b.drop start).take bytes.length ∧ result.2 = h'.merkleTree ∧
      Agrees h' (splice b start bytes) ∧ Keeps h h' := by
  have hrb := rowBytes_pos (F := F) ha.describes.sized.pos
  have hlen := length_splice hle
  have horiginal : readInto b start (.replicate bytes.length 0) =
      (b.drop start).take bytes.length := by
    rw [readInto_of_le (by rw [List.length_replicate]; exact hle), List.length_replicate]
    rfl
  have hspan : start / rowBytes F h.preEncodedSize ≤
      divCeil (start + bytes.length) (rowBytes F h.preEncodedSize) :=
    le_trans (Nat.div_le_div_right (Nat.le_add_right _ _)) (div_le_divCeil _ _)
  have hrows : divCeil (start + bytes.length) (rowBytes F h.preEncodedSize) ≤
      divCeil b.length (rowBytes F h.preEncodedSize) := Nat.div_le_div_right (by omega)
  have hstart : (rowsOf h (splice b start bytes)).take (start / rowBytes F h.preEncodedSize) =
      (rowsOf h b).take (start / rowBytes F h.preEncodedSize) :=
    take_encodedRows_congr (hlen.symm ▸ hspan.trans hrows) (hspan.trans hrows)
      fun r hr => row_splice_before hle hr
  have hend : (rowsOf h b).drop (divCeil (start + bytes.length) (rowBytes F h.preEncodedSize)) =
      (rowsOf h (splice b start bytes)).drop
        (divCeil (start + bytes.length) (rowBytes F h.preEncodedSize)) :=
    drop_encodedRows_congr hlen.symm fun r hr => (row_splice_after hrb hle hr).symm
  have hd : Describes { h with unencodedFile := some (writeAt b start bytes) }
      (splice b start bytes) :=
    ⟨ha.describes.sized, by rw [writeAt_eq_splice hle], hlen.symm ▸ ha.describes.totalDataBytes_eq,
      hlen.symm ▸ ha.describes.rowsWritten_eq⟩
  have hloop := runs_reencodeRows hd (fun _ _ _ hd' _ => hd'.reencodeEditedRow)
    ⟨ha.encodes.stores, ha.encodes.encoding_eq, ha.encodes.rowCapacity_eq⟩ hspan
    (hlen.symm ▸ hrows) (hrows.trans (rows_le_capacity ha)) hstart hend
  unfold FileHandling.editBytes
  simp only [runs_bind, runs_get, runs_lift, runs_modify, runs_pure, ensure_eq_ok, exists_const,
    ha.describes.unencoded, Option.isSome_some, Option.getD_some, horiginal]
  refine ⟨trivial, ha.describes.totalDataBytes_eq ▸ hle, hloop.mono ?_⟩
  rintro _ h₁ ⟨he, hframe⟩
  generalize h₁.encodedFileReadWriter = r at hframe
  subst hframe
  refine (runs_recalculateMerkleTree (Describes.withReader hd r) he).mono ?_
  rintro tree h₂ ⟨htree, hagrees, hframe⟩
  exact ⟨trivial, htree, hagrees, by rw [hframe], by rw [hframe]⟩

theorem le_of_run_editBytes {h' : FileHandler D F Err} {start : ℕ} {bytes : List UInt8}
    {result : List UInt8 × MerkleTree D} (hrun : (editBytes start bytes).run h = .ok result h') :
    start + bytes.length ≤ h.totalDataBytes := by
  obtain ⟨_, _, hget, hrun⟩ := run_bind_ok.mp hrun
  cases hget
  obtain ⟨_, _, hfile, hrun⟩ := run_bind_ok.mp hrun
  obtain ⟨-, rfl⟩ := run_lift_ok.mp hfile
  obtain ⟨_, _, hensure, -⟩ := run_bind_ok.mp hrun
  exact ensure_eq_ok.mp (run_lift_ok.mp hensure).1

theorem runs_makeRoom {rows : List (List F)} (he : Encodes h rows) (endRow : ℕ) :
    Runs (makeRoom endRow) h fun _ h' => Encodes h' rows ∧ endRow ≤ h'.rowCapacity ∧
      h' = { h with
        rowCapacity := h'.rowCapacity
        encodedFileReadWriter := h'.encodedFileReadWriter } := by
  obtain ⟨hstores, hencoding, hcapacity⟩ := he
  unfold makeRoom
  rw [runs_bind, runs_get]
  by_cases hgrow : endRow > h.rowCapacity
  · rw [if_pos hgrow]
    simp only [runs_bind, runs_onReader, runs_modify]
    refine (hstores.setNewCapacity (by omega : _ ≤ endRow * 2)).mono ?_
    rintro _ r ⟨hstores', hencoding', hcapacity'⟩
    exact ⟨⟨hstores', hencoding'.trans hencoding, hcapacity'⟩, by omega, trivial⟩
  · rw [if_neg hgrow, runs_pure]
    exact ⟨⟨hstores, hencoding, hcapacity⟩, Nat.le_of_not_lt hgrow, rfl⟩

theorem runs_appendRows (ha : Agrees h b) (bytes : List UInt8) :
    Runs (appendRows bytes) h fun tree h' =>
      tree = h'.merkleTree ∧ Agrees h' (b ++ bytes) ∧ Keeps h h' := by
  have htotal := ha.describes.totalDataBytes_eq
  have hlen : (b ++ bytes).length = h.totalDataBytes + bytes.length := by
    rw [List.length_append, htotal]
  have hspan : h.totalDataBytes / rowBytes F h.preEncodedSize ≤
      divCeil b.length (rowBytes F h.preEncodedSize) := htotal ▸ div_le_divCeil _ _
  have hrows : divCeil b.length (rowBytes F h.preEncodedSize) ≤
      divCeil (h.totalDataBytes + bytes.length) (rowBytes F h.preEncodedSize) :=
    Nat.div_le_div_right (by omega)
  have hstart : (rowsOf h (b ++ bytes)).take (h.totalDataBytes / rowBytes F h.preEncodedSize) =
      (rowsOf h b).take (h.totalDataBytes / rowBytes F h.preEncodedSize) :=
    take_encodedRows_congr (hlen ▸ hspan.trans hrows) hspan
      fun r hr => row_append_before (htotal ▸ hr)
  have hend : (rowsOf h b).drop
        (divCeil (h.totalDataBytes + bytes.length) (rowBytes F h.preEncodedSize)) =
      (rowsOf h (b ++ bytes)).drop
        (divCeil (h.totalDataBytes + bytes.length) (rowBytes F h.preEncodedSize)) := by
    rw [List.drop_eq_nil_of_le (by rw [length_rowsOf]; exact hrows),
      List.drop_eq_nil_of_le (by rw [length_rowsOf, hlen])]
  unfold FileHandling.appendRows
  simp only [runs_bind, runs_get, runs_lift, runs_modify, ha.describes.unencoded]
  refine ⟨b, rfl, ?_⟩
  have he : Encodes { h with unencodedFile := some (b ++ bytes) } (rowsOf h b) :=
    ⟨ha.encodes.stores, ha.encodes.encoding_eq, ha.encodes.rowCapacity_eq⟩
  refine (runs_makeRoom he _).mono ?_
  rintro _ h₁ ⟨he₁, hcap, hframe⟩
  generalize h₁.encodedFileReadWriter = r at hframe
  generalize hc : h₁.rowCapacity = cap at hframe hcap
  subst hframe
  have hd : Describes { h with
      unencodedFile := some (b ++ bytes)
      rowCapacity := cap
      encodedFileReadWriter := r
      totalDataBytes := h.totalDataBytes + bytes.length
      rowsWritten := divCeil (h.totalDataBytes + bytes.length) (rowBytes F h.preEncodedSize) }
      (b ++ bytes) :=
    ⟨ha.describes.sized, rfl, hlen.symm, by rw [hlen]⟩
  have hloop := runs_reencodeRows hd (fun _ _ _ hd' ht he' hle hcap' =>
      hd'.reencodeRow he' (hd'.rowsWritten_eq ▸ ht) hle hcap')
    ⟨he₁.stores, he₁.encoding_eq, he₁.rowCapacity_eq⟩ (hspan.trans hrows) (hlen ▸ le_rfl) hcap
    hstart hend
  refine hloop.mono ?_
  rintro _ h₂ ⟨he₂, hframe⟩
  generalize h₂.encodedFileReadWriter = r' at hframe
  subst hframe
  refine (runs_recalculateMerkleTree (Describes.withReader hd r') he₂).mono ?_
  rintro tree h₃ ⟨htree, hagrees, hframe⟩
  exact ⟨htree, hagrees, by rw [hframe], by rw [hframe]⟩

omit [Field F] [DataField F] in
theorem run_writeMetadata {h' : FileHandler D F Err} {json : EncodedFileMetadata → List UInt8}
    {u : Unit} : (writeMetadata json).run h = .ok u h' ↔ ∃ file, h.metadataFile = some file ∧
      h' = { h with metadataFile := some (writeAt file 0 (json (getEncodedMetadata h))) } := by
  constructor
  · intro hrun
    obtain ⟨_, _, hget, hrun⟩ := run_bind_ok.mp hrun
    cases hget
    obtain ⟨file, _, hopen, hrun⟩ := run_bind_ok.mp hrun
    obtain ⟨hopen, rfl⟩ := run_lift_ok.mp hopen
    cases hfile : h.metadataFile with
    | none =>
      rw [hfile] at hopen
      cases hopen
    | some content =>
      rw [hfile] at hopen
      cases hopen
      exact ⟨file, rfl, (run_modify_ok.mp hrun).symm⟩
  · rintro ⟨file, hfile, rfl⟩
    have hopen : (openFile h.metadataFile : Fallible (FileError Err) _) = .ok file := by
      rw [hfile]
      rfl
    unfold writeMetadata
    exact run_bind_ok.mpr ⟨h, h, rfl, run_bind_ok.mpr ⟨file, h, run_lift_of_ok hopen,
      EStateM.run_modify ..⟩⟩

/-- An append that succeeds has found the metadata file. -/
theorem run_appendBytes (ha : Agrees h b) {json : EncodedFileMetadata → List UInt8}
    {bytes : List UInt8} {tree : MerkleTree D} {h' : FileHandler D F Err}
    (hrun : (appendBytes json bytes).run h = .ok tree h') :
    h.metadataFile.isSome = true ∧ Agrees h' (b ++ bytes) ∧ Keeps h h' := by
  obtain ⟨tree, h₁, hrows, hrun⟩ := run_bind_ok.mp hrun
  obtain ⟨-, hagrees, hkeeps⟩ := (runs_appendRows ha bytes).of_run hrows
  obtain ⟨_, h₂, hwrite, hpure⟩ := run_bind_ok.mp hrun
  obtain ⟨file, hfile, rfl⟩ := run_writeMetadata.mp hwrite
  obtain ⟨-, rfl⟩ := run_pure_ok.mp hpure
  have hsome : h.metadataFile.isSome = true := by
    rw [← hkeeps.metadata, hfile]
    rfl
  obtain ⟨⟨hsized, hunencoded, htotal, hwritten⟩, he, htree⟩ := hagrees
  exact ⟨hsome, ⟨⟨hsized, hunencoded, htotal, hwritten⟩,
    ⟨he.stores, he.encoding_eq, he.rowCapacity_eq⟩, htree⟩, hkeeps.preEncodedSize, hsome.symm⟩

theorem appendBytes_total (ha : Agrees h b) (json : EncodedFileMetadata → List UInt8)
    (bytes : List UInt8) (hmeta : h.metadataFile.isSome = true) :
    ∃ tree h', (appendBytes json bytes).run h = .ok tree h' := by
  obtain ⟨tree, h₁, hrows, -, -, hkeeps⟩ := runs_appendRows ha bytes
  obtain ⟨file, hfile⟩ := Option.isSome_iff_exists.mp (hkeeps.metadata.trans hmeta)
  exact ⟨tree, _, run_bind_ok.mpr ⟨tree, h₁, hrows,
    run_bind_ok.mpr ⟨(), _, run_writeMetadata.mpr ⟨file, hfile, rfl⟩, rfl⟩⟩⟩

theorem accumulateRow_eq (hs : Sized h.encoding h.preEncodedSize h.encodedSize)
    {s : ColumnDigestAccumulator D × ℕ} {rows : List (List F)}
    (hacc : Tracks s.1 h.encodedSize rows)
    {bytes : List UInt8} (hbytes : bytes.length ≤ rowBytes F h.preEncodedSize) :
    ∃ acc, accumulateRow h s bytes = .ok (acc, s.2 + bytes.length) ∧
      Tracks acc h.encodedSize (rows ++ [codeword h.encoding h.encodedSize bytes]) := by
  have hfew := length_fromByteVec_le hbytes
  have hcopy : (copyFromSlice (.replicate h.encodedSize 0) (fromByteVec bytes : List F) :
      Fallible (FileError Err) _) = .ok (paddedElements h.encodedSize bytes) :=
    copyFromSlice_replicate.mpr ⟨hfew.trans hs.lt.le, rfl⟩
  obtain ⟨acc, hupdate, htracks⟩ :
      ∃ acc, (s.1.update (codeword h.encoding h.encodedSize bytes) :
        Fallible (FileError Err) _) = .ok acc ∧
      Tracks acc h.encodedSize (rows ++ [codeword h.encoding h.encodedSize bytes]) :=
    hacc.update (hs.length_codeword hbytes)
  refine ⟨acc, ?_, htracks⟩
  rw [accumulateRow, hcopy, ok_bind, hs.encode_paddedElements hbytes, mapErr, ok_bind, hupdate]
  rfl

theorem verifyAllFilesAgree_eq_ok (ha : Agrees h b) : verifyAllFilesAgree h = .ok () := by
  have hs := ha.describes.sized
  have hloop : ∃ s, (chunks (rowBytes F h.preEncodedSize) b).foldlM (accumulateRow h)
        (.new h.encodedSize .all, 0) = .ok s ∧
      Tracks s.1 h.encodedSize ((chunks (rowBytes F h.preEncodedSize) b).map
        (codeword h.encoding h.encodedSize)) ∧
      s.2 = (chunks (rowBytes F h.preEncodedSize) b).flatten.length := by
    refine foldlM_reaches (fun seen (s : ColumnDigestAccumulator D × ℕ) =>
      Tracks s.1 h.encodedSize (seen.map (codeword h.encoding h.encodedSize)) ∧
      s.2 = seen.flatten.length) ⟨tracks_new _, rfl⟩ ?_
    rintro seen bytes s ⟨rest, hrest⟩ ⟨hacc, htotal⟩
    have hmem : bytes ∈ chunks (rowBytes F h.preEncodedSize) b := by
      rw [← hrest]
      simp
    obtain ⟨acc, hrun, htracks⟩ := accumulateRow_eq hs hacc (length_le_of_mem_chunks hmem)
    refine ⟨_, hrun, ?_, ?_⟩
    · rw [List.map_append, List.map_singleton]
      exact htracks
    · rw [List.flatten_append, List.length_append, List.flatten_singleton, htotal]
  obtain ⟨⟨acc, total⟩, hrun, hacc, htotal⟩ := hloop
  rw [flatten_chunks (rowBytes_pos hs.pos), ← ha.describes.totalDataBytes_eq] at htotal
  have hencoded : processFileToMerkleTree D h.encodedFileReadWriter = .ok h.merkleTree := by
    rw [ha.encodes.stores.processFileToMerkleTree, ha.tree]
  have hunencoded : (acc.finalizeToMerkleTree : Fallible (FileError Err) _) = .ok h.merkleTree := by
    rw [hacc.finalizeToMerkleTree]
    exact ha.tree
  rw [rowBytes, Nat.mul_comm] at hrun
  simp only [verifyAllFilesAgree, bind_eq_ok, ensure_eq_ok, exists_const]
  exact ⟨_, hencoded, MerkleTree.eq_self _, b, by rw [ha.describes.unencoded, openFile],
    _, hrun, htotal, _, hunencoded, MerkleTree.eq_self _⟩

theorem lt_of_run_reencodeRow {h' : FileHandler D F Err} {t : ℕ} {u : Unit}
    (hrun : (reencodeRow t).run h = .ok u h') : t < h.rowsWritten := by
  obtain ⟨_, _, hget, hrun⟩ := run_bind_ok.mp hrun
  cases hget
  obtain ⟨_, _, hensure, -⟩ := run_bind_ok.mp hrun
  exact ensure_eq_ok.mp (run_lift_ok.mp hensure).1

theorem runs_reencodeRow (ha : Agrees h b) {t : ℕ} (ht : t < h.rowsWritten) :
    Runs (reencodeRow t) h fun _ h' => Agrees h' b ∧ Keeps h h' := by
  have hrows := ha.describes.rowsWritten_eq ▸ ht
  have hle : t ≤ (rowsOf h b).length := by
    rw [length_rowsOf]
    exact hrows.le
  have hroom := rows_le_capacity ha
  refine (ha.describes.reencodeRow ha.encodes ht hle (by omega)).mono ?_
  rintro _ h' ⟨he, hframe⟩
  have hsame : putRow (rowsOf h b) t (codeword h.encoding h.encodedSize
      (row (rowBytes F h.preEncodedSize) b t)) = rowsOf h b :=
    putRow_self (getElem?_encodedRows hrows)
  rw [hsame] at he
  generalize h'.encodedFileReadWriter = r at hframe
  subst hframe
  exact ⟨⟨⟨ha.describes.sized, ha.describes.unencoded, ha.describes.totalDataBytes_eq,
    ha.describes.rowsWritten_eq⟩, he, ha.tree⟩, rfl, rfl⟩

end Calls

inductive HandlerCall where
  | editBytes (byteStart : ℕ) (unencodedBytesToAdd : List UInt8)
  | appendBytes (bytesToAdd : List UInt8)
  | reencodeRow (rowIndex : ℕ)

namespace HandlerCall

def run (json : EncodedFileMetadata → List UInt8) : HandlerCall → Handling D F Err (List UInt8)
  | editBytes byteStart unencodedBytesToAdd => do
    let (originalBytes, _) ← FileHandling.editBytes byteStart unencodedBytesToAdd
    return originalBytes
  | appendBytes bytesToAdd => do
    let _ ← FileHandling.appendBytes json bytesToAdd
    return []
  | reencodeRow rowIndex => do
    FileHandling.reencodeRow rowIndex
    return []

/-- What the call is for: its effect on the bytes alone. -/
def apply (b : List UInt8) : HandlerCall → List UInt8
  | editBytes byteStart unencodedBytesToAdd => splice b byteStart unencodedBytesToAdd
  | appendBytes bytesToAdd => b ++ bytesToAdd
  | reencodeRow _ => b

def replaced (b : List UInt8) : HandlerCall → List UInt8
  | editBytes byteStart unencodedBytesToAdd =>
    (b.drop byteStart).take unencodedBytesToAdd.length
  | appendBytes _ => []
  | reencodeRow _ => []

/-- An edit stays inside the bytes and a row to encode again is a row of them. -/
def InRange (n : ℕ) (b : List UInt8) : HandlerCall → Prop
  | editBytes byteStart unencodedBytesToAdd => byteStart + unencodedBytesToAdd.length ≤ b.length
  | appendBytes _ => True
  | reencodeRow rowIndex => rowIndex < divCeil b.length n

instance (n : ℕ) (b : List UInt8) (call : HandlerCall) : Decidable (call.InRange n b) :=
  match call with
  | editBytes .. => inferInstanceAs (Decidable (_ ≤ _))
  | appendBytes _ => inferInstanceAs (Decidable True)
  | reencodeRow _ => inferInstanceAs (Decidable (_ < _))

end HandlerCall

def runCalls (json : EncodedFileMetadata → List UInt8) (calls : List HandlerCall) :
    Handling D F Err (List (List UInt8)) := forEach calls (HandlerCall.run json)

def applyCalls (b : List UInt8) (calls : List HandlerCall) : List UInt8 :=
  calls.foldl HandlerCall.apply b

def replacedByCalls (b : List UInt8) : List HandlerCall → List (List UInt8)
  | [] => []
  | call :: calls => call.replaced b :: replacedByCalls (call.apply b) calls

def AllInRange (n : ℕ) (b : List UInt8) : List HandlerCall → Prop
  | [] => True
  | call :: calls => call.InRange n b ∧ AllInRange n (call.apply b) calls

section Sequences

variable {h h' : FileHandler D F Err} {b : List UInt8}

theorem run_call (ha : Agrees h b) {json : EncodedFileMetadata → List UInt8} {call : HandlerCall}
    {out : List UInt8} (hrun : (call.run json).run h = .ok out h') :
    call.InRange (rowBytes F h.preEncodedSize) b ∧ out = call.replaced b ∧
      Agrees h' (call.apply b) ∧ Keeps h h' := by
  cases call with
  | editBytes byteStart bytes =>
    obtain ⟨result, h₁, hedit, hpure⟩ := run_bind_ok.mp hrun
    obtain ⟨rfl, rfl⟩ := run_pure_ok.mp hpure
    have hle := le_of_run_editBytes hedit
    rw [ha.describes.totalDataBytes_eq] at hle
    obtain ⟨horiginal, -, hagrees, hkeeps⟩ := (runs_editBytes ha hle).of_run hedit
    exact ⟨hle, horiginal, hagrees, hkeeps⟩
  | appendBytes bytes =>
    obtain ⟨tree, h₁, happend, hpure⟩ := run_bind_ok.mp hrun
    obtain ⟨rfl, rfl⟩ := run_pure_ok.mp hpure
    obtain ⟨-, hagrees, hkeeps⟩ := run_appendBytes ha happend
    exact ⟨trivial, rfl, hagrees, hkeeps⟩
  | reencodeRow rowIndex =>
    obtain ⟨_, h₁, hrow, hpure⟩ := run_bind_ok.mp hrun
    obtain ⟨rfl, rfl⟩ := run_pure_ok.mp hpure
    have hlt := lt_of_run_reencodeRow hrow
    obtain ⟨hagrees, hkeeps⟩ := (runs_reencodeRow ha hlt).of_run hrow
    rw [ha.describes.rowsWritten_eq] at hlt
    exact ⟨hlt, rfl, hagrees, hkeeps⟩

/-- With its metadata file in place, the handler carries out every call in range. -/
theorem call_total (ha : Agrees h b) (json : EncodedFileMetadata → List UInt8) {call : HandlerCall}
    (hmeta : h.metadataFile.isSome = true) (hin : call.InRange (rowBytes F h.preEncodedSize) b) :
    ∃ out h', (call.run json).run h = .ok out h' := by
  cases call with
  | editBytes byteStart bytes =>
    obtain ⟨result, h₁, hedit, -⟩ := runs_editBytes ha hin
    exact ⟨result.1, h₁, run_bind_ok.mpr ⟨result, h₁, hedit, rfl⟩⟩
  | appendBytes bytes =>
    obtain ⟨tree, h₁, happend⟩ := appendBytes_total ha json bytes hmeta
    exact ⟨[], h₁, run_bind_ok.mpr ⟨tree, h₁, happend, rfl⟩⟩
  | reencodeRow rowIndex =>
    have hlt : rowIndex < h.rowsWritten := by
      rw [ha.describes.rowsWritten_eq]
      exact hin
    obtain ⟨_, h₁, hrow, -⟩ := runs_reencodeRow ha hlt
    exact ⟨[], h₁, run_bind_ok.mpr ⟨(), h₁, hrow, rfl⟩⟩

/-- Induction over the calls: agreement is kept from one call to the next. -/
theorem run_calls {json : EncodedFileMetadata → List UInt8} {calls : List HandlerCall}
    {outs : List (List UInt8)} (ha : Agrees h b)
    (hrun : (runCalls json calls).run h = .ok outs h') :
    Agrees h' (applyCalls b calls) ∧ outs = replacedByCalls b calls := by
  unfold runCalls forEach at hrun
  induction calls generalizing h h' b outs with
  | nil =>
    rw [List.mapM_nil] at hrun
    obtain ⟨rfl, rfl⟩ := run_pure_ok.mp hrun
    exact ⟨ha, rfl⟩
  | cons call calls ih =>
    rw [List.mapM_cons] at hrun
    obtain ⟨out, h₁, hcall, hrun⟩ := run_bind_ok.mp hrun
    obtain ⟨outs₁, h₂, hcalls, hpure⟩ := run_bind_ok.mp hrun
    obtain ⟨rfl, rfl⟩ := run_pure_ok.mp hpure
    obtain ⟨-, rfl, ha₁, -⟩ := run_call ha hcall
    obtain ⟨ha₂, rfl⟩ := ih ha₁ hcalls
    exact ⟨ha₂, rfl⟩

theorem calls_total (json : EncodedFileMetadata → List UInt8) {calls : List HandlerCall}
    (ha : Agrees h b) (hmeta : h.metadataFile.isSome = true)
    (hin : AllInRange (rowBytes F h.preEncodedSize) b calls) :
    ∃ outs h', (runCalls json calls).run h = .ok outs h' := by
  unfold runCalls forEach
  induction calls generalizing h b with
  | nil => exact ⟨[], h, by rw [List.mapM_nil]; rfl⟩
  | cons call calls ih =>
    obtain ⟨out, h₁, hcall⟩ := call_total ha json hmeta hin.1
    obtain ⟨-, -, ha₁, hkeeps⟩ := run_call ha hcall
    obtain ⟨outs, h₂, hcalls⟩ :=
      ih ha₁ (hkeeps.metadata.trans hmeta) (hkeeps.preEncodedSize ▸ hin.2)
    refine ⟨out :: outs, h₂, ?_⟩
    rw [List.mapM_cons]
    exact run_bind_ok.mpr ⟨out, h₁, hcall, run_bind_ok.mpr ⟨outs, h₂, hcalls, rfl⟩⟩

/-- After calls that succeed the files agree again: the bytes have changed as a plain byte string
changes and each edit has returned the bytes it replaced. Calls in range do succeed. -/
theorem handler_calls_agree (ha : Agrees h b) (json : EncodedFileMetadata → List UInt8)
    (calls : List HandlerCall) :
    (∀ outs h', (runCalls json calls).run h = .ok outs h' →
      Agrees h' (applyCalls b calls) ∧ h'.unencodedFile = some (applyCalls b calls) ∧
      verifyAllFilesAgree h' = .ok () ∧ outs = replacedByCalls b calls) ∧
    (h.metadataFile.isSome = true → AllInRange (rowBytes F h.preEncodedSize) b calls →
      ∃ outs h', (runCalls json calls).run h = .ok outs h') := by
  constructor
  · intro outs h' hrun
    obtain ⟨hagrees, houts⟩ := run_calls ha hrun
    exact ⟨hagrees, hagrees.describes.unencoded, verifyAllFilesAgree_eq_ok hagrees, houts⟩
  · intro hmeta hin
    exact calls_total json ha hmeta hin

end Sequences

theorem exists_agrees_nil : ∃ h : FileHandler byteSum (ZMod 257) fermatFft.Err,
    h.preEncodedSize = 1 ∧ h.metadataFile.isSome = true ∧ Agrees h [] := by
  obtain ⟨encoding, hencoding⟩ : ∃ encoding,
      (newFromDims fermatFft 1 2 : Fallible (FileError fermatFft.Err) _) = .ok encoding := ⟨_, rfl⟩
  have hs := Sized.of_newFromDims (by decide) hencoding
  have hwidth : (columnLeaves byteSum 2 (encodedRows encoding 1 2 [])).length = 2 :=
    length_columnLeaves _ _
  obtain ⟨nodes, k, -, -, htree⟩ := @MerkleTree.new_eq fermatFft.Err byteSum
    (columnLeaves byteSum 2 (encodedRows encoding 1 2 [])) (hwidth.symm ▸ by decide)
    (hwidth.symm ▸ by decide)
  have hnil : encodedRows encoding 1 2 ([] : List UInt8) = [] := by
    rw [encodedRows, chunks_nil (rowBytes_pos hs.pos), List.map_nil]
  have hstores : Stores 1 2 (encodedRows encoding 1 2 []) ⟨encoding, [], 1, 2, 0, 0⟩ := by
    rw [hnil]
    exact ⟨hs, rfl, rfl, rfl, le_rfl, fun t row hrow => by cases hrow⟩
  have hrows : 0 = divCeil ([] : List UInt8).length (rowBytes (ZMod 257) 1) := by decide
  exact ⟨⟨0, 1, 2, 0, 0, 0, encoding, some [], ⟨encoding, [], 1, 2, 0, 0⟩, _, none, some []⟩, rfl,
    rfl, ⟨hs, rfl, rfl, hrows⟩, ⟨hstores, rfl, rfl⟩, htree⟩

theorem exists_agrees (b : List UInt8) : ∃ h : FileHandler byteSum (ZMod 257) fermatFft.Err,
    h.preEncodedSize = 1 ∧ Agrees h b := by
  obtain ⟨h, hpre, hmeta, ha⟩ := exists_agrees_nil
  obtain ⟨tree, h', hrun⟩ := appendBytes_total ha (fun _ => []) b hmeta
  obtain ⟨-, ha', hkeeps⟩ := run_appendBytes ha hrun
  exact ⟨h', hkeeps.preEncodedSize.trans hpre, ha'⟩

theorem handler_calls_agree_small : ∃ h : FileHandler byteSum (ZMod 257) fermatFft.Err,
    Agrees h [] ∧ ∃ outs h', (runCalls (fun _ => []) [.appendBytes [3, 5], .editBytes 1 [7],
      .reencodeRow 0, .appendBytes [1, 2, 4], .editBytes 2 []]).run h = .ok outs h' ∧
    Agrees h' [3, 7, 1, 2, 4] ∧ verifyAllFilesAgree h' = .ok () ∧
    outs = [[], [5], [], [], []] := by
  obtain ⟨h, hpre, hmeta, ha⟩ := exists_agrees_nil
  obtain ⟨hagree, htotal⟩ := handler_calls_agree ha (fun _ => []) [.appendBytes [3, 5],
    .editBytes 1 [7], .reencodeRow 0, .appendBytes [1, 2, 4], .editBytes 2 []]
  rw [hpre] at htotal
  obtain ⟨outs, h', hrun⟩ :=
    htotal hmeta ⟨trivial, by decide, by decide, trivial, by decide, trivial⟩
  obtain ⟨ha', -, hverify, houts⟩ := hagree outs h' hrun
  exact ⟨h, ha, outs, h', hrun, ha', hverify, houts⟩

end FileHandlingRuns
