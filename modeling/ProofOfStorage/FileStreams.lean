import ProofOfStorage.FoundationIterators
import ProofOfStorage.FileWriterRuns

/-! # Committing to a stream of field elements

The row generator encodes one row at a time in one buffer. It gives the digests of the in-memory
commitment and of the encoded-file writer.
-/
namespace FileStreams

open FoundationFaults FoundationRuns FoundationSlices FoundationPositionalFiles FoundationIterators
open CommitmentTypes CommitmentMerkle CommitmentProof OnlineColumns FileFields FileDigests FileRows
  FileWriter FileWriterRuns

instance fieldIterator {F : Type} [Field F] [DataField F] : ItemIterator (FieldGeneratorIter F) F :=
  ⟨FieldGeneratorIter.next⟩

structure RowGeneratorIter (I F Err : Type) where
  fieldIterator : I
  coefsBuffer : List F
  coefBufferPosition : ℕ
  unencodedLen : ℕ
  encoding : LcEncoding F Err

variable {ε I F Err : Type} {D : Digest} [Field F] [ItemIterator I F]

namespace RowGeneratorIter

def newLigero (fft : FieldFFT F) (fieldIterator : I) (numPreEncoded numEncoded : ℕ) :
    Fallible ε (RowGeneratorIter I F fft.Err) := do
  let encoding ← newFromDims fft numPreEncoded numEncoded
  return {
    fieldIterator := fieldIterator
    coefsBuffer := .replicate numEncoded 0
    coefBufferPosition := 0
    unencodedLen := numPreEncoded
    encoding := encoding }

def fill (it : RowGeneratorIter I F Err) : ℕ → Fallible ε (RowGeneratorIter I F Err)
  | 0 => return it
  | room + 1 =>
    match ItemIterator.next it.fieldIterator with
    | (none, rest) => return { it with fieldIterator := rest }
    | (some fieldElement, rest) => do
      assert (it.coefBufferPosition < it.coefsBuffer.length)
      fill { it with
        fieldIterator := rest
        coefsBuffer := it.coefsBuffer.set it.coefBufferPosition fieldElement
        coefBufferPosition := it.coefBufferPosition + 1 } room

/-- The buffer is encoded in place, handed out and filled with zeros again. -/
def next (it : RowGeneratorIter I F Err) :
    Fallible ε (Option (List F) × RowGeneratorIter I F Err) := do
  let it ← it.fill (it.unencodedLen - it.coefBufferPosition)
  if it.coefBufferPosition = 0 then
    return (none, it)
  let encoded ← unwrap (it.encoding.encode it.coefsBuffer)
  return (some encoded,
    { it with coefsBuffer := .replicate encoded.length 0, coefBufferPosition := 0 })

/-- `for row in self`; a loop that outlasts its bound on the number of rounds has no result. -/
def forRows {σ : Type} (body : σ → List F → Fallible ε σ) :
    ℕ → RowGeneratorIter I F Err → σ → Fallible ε σ
  | 0, _, _ => panicked
  | rounds + 1, it, s => do
    let (row, it) ← it.next
    match row with
    | none => return s
    | some row => forRows body rounds it (← body s row)

section Digests

variable [FieldHash F] (D) (rounds : ℕ) (it : RowGeneratorIter I F Err)

def getColumnDigests : Fallible ε (List D.Output) := do
  let digests ← forRows
    (fun digests row => unwrap (digests.update row : Fallible (FileError Err) _)) rounds it
    (.new it.coefsBuffer.length .all : ColumnDigestAccumulator D)
  return digests.getColumnDigests

def getSpecifiedColumnDigests (columnIndices : List ℕ) : Fallible ε (List D.Output) := do
  let digests ← forRows (fun digests row => feedRow row columnIndices digests) rounds it
    (.replicate columnIndices.length (Hasher.newColumn : Hasher D))
  return digests.map Hasher.finalize

def convertToCommitRoot : Fallible ε D.Output := do
  let leaves ← it.getColumnDigests D rounds
  let nodesOfTree ← merkleTree leaves (.replicate (leaves.length - 1) D.defaultOutput)
  match nodesOfTree.getLast? with
  | some root => return root
  | none => panicked

end Digests

/-- Between two rows: the buffer is empty and the field iterator still yields `xs`. -/
structure Ready (encoding : LcEncoding F Err) (pre enc : ℕ) (xs : List F)
    (it : RowGeneratorIter I F Err) : Prop where
  encoding_eq : it.encoding = encoding
  unencodedLen_eq : it.unencodedLen = pre
  position_eq : it.coefBufferPosition = 0
  buffer_eq : it.coefsBuffer = .replicate enc 0
  yields : Yields it.fieldIterator xs

variable {encoding : LcEncoding F Err} {pre enc : ℕ} {xs : List F}
  {it : RowGeneratorIter I F Err}

def padTo (enc : ℕ) (seen : List F) : List F := seen ++ .replicate (enc - seen.length) 0

omit [ItemIterator I F] in
theorem padTo_set {seen : List F} (h : seen.length < enc) (x : F) :
    (padTo enc seen).set seen.length x = padTo enc (seen ++ [x]) := by
  obtain ⟨k, hk⟩ := Nat.exists_eq_add_of_lt h
  have hroom : enc - seen.length = k + 1 := by omega
  have hrest : enc - (seen ++ [x]).length = k := by
    rw [List.length_append, List.length_singleton]
    omega
  rw [padTo, padTo, hroom, hrest, List.replicate_succ, List.set_append_right _ _ le_rfl,
    Nat.sub_self, List.set_cons_zero, List.append_assoc, List.singleton_append]

theorem fill_eq {seen : List F} (room : ℕ) (hyields : Yields it.fieldIterator xs)
    (hbuffer : it.coefsBuffer = padTo enc seen) (hposition : it.coefBufferPosition = seen.length)
    (hroom : seen.length + room ≤ enc) :
    ∃ rest, Yields rest (xs.drop room) ∧ (it.fill room : Fallible ε _) = .ok { it with
      fieldIterator := rest
      coefsBuffer := padTo enc (seen ++ xs.take room)
      coefBufferPosition := (seen ++ xs.take room).length } := by
  induction room generalizing it seen xs with
  | zero =>
    refine ⟨it.fieldIterator, hyields, ?_⟩
    rw [List.take_zero, List.append_nil, ← hbuffer, ← hposition]
    rfl
  | succ room ih =>
    cases xs with
    | nil =>
      obtain ⟨hnext, hrest⟩ := hyields.nil
      refine ⟨_, hrest, ?_⟩
      rw [List.take_nil, List.append_nil, ← hbuffer, ← hposition, fill]
      rw [show ItemIterator.next it.fieldIterator = (none, (ItemIterator.next it.fieldIterator).2)
        from Prod.ext hnext rfl]
      rfl
    | cons x xs =>
      obtain ⟨hnext, hrest⟩ := hyields.cons
      have hlt : it.coefBufferPosition < it.coefsBuffer.length := by
        rw [hbuffer, hposition, padTo, List.length_append, List.length_replicate]
        omega
      obtain ⟨rest, hyields', hrun⟩ := @ih xs { it with
          fieldIterator := (ItemIterator.next it.fieldIterator).2
          coefsBuffer := it.coefsBuffer.set it.coefBufferPosition x
          coefBufferPosition := it.coefBufferPosition + 1 } (seen ++ [x]) hrest
        (by rw [hbuffer, hposition]; exact padTo_set (by omega) x)
        (by rw [hposition, List.length_append, List.length_singleton])
        (by rw [List.length_append, List.length_singleton]; omega)
      refine ⟨rest, hyields', ?_⟩
      rw [fill, show ItemIterator.next it.fieldIterator =
        (some x, (ItemIterator.next it.fieldIterator).2) from Prod.ext hnext rfl]
      simp only [assert_of hlt, ok_bind, hrun, List.take_succ_cons, List.append_assoc,
        List.singleton_append]

theorem Ready.next (hs : Sized encoding pre enc) (h : Ready encoding pre enc xs it) :
    ∃ it', (it.next : Fallible ε _) = .ok
        (if xs = [] then none else some (elementsCodeword encoding enc (xs.take pre)), it') ∧
      Ready encoding pre enc (xs.drop pre) it' := by
  have hpos := hs.pos
  have hlt := hs.lt
  have hle : (xs.take pre).length ≤ pre := List.length_take_le _ _
  have hbuffer : it.coefsBuffer = padTo enc [] := h.buffer_eq
  obtain ⟨rest, hyields, hfill⟩ := fill_eq (ε := ε) pre h.yields hbuffer h.position_eq (by
    rw [List.length_nil]
    omega)
  rw [List.nil_append] at hfill
  have hroom : it.unencodedLen - it.coefBufferPosition = pre := by
    rw [h.unencodedLen_eq, h.position_eq, Nat.sub_zero]
  rw [RowGeneratorIter.next, hroom, hfill, ok_bind]
  by_cases hxs : xs = []
  · -- the field iterator is at its end
    subst hxs
    rw [List.take_nil]
    exact ⟨_, rfl, h.encoding_eq, h.unencodedLen_eq, rfl, rfl, hyields⟩
  · have hne : ¬(xs.take pre).length = 0 := by
      have := List.length_pos_iff.mpr hxs
      rw [List.length_take]
      omega
    have hencode : (unwrap (it.encoding.encode (padTo enc (xs.take pre))) : Fallible ε _) =
        .ok (elementsCodeword encoding enc (xs.take pre)) := by
      rw [unwrap_eq_ok, h.encoding_eq]
      exact hs.encode_elements hle
    simp only [if_neg hne, hencode, ok_bind, if_neg hxs]
    refine ⟨_, rfl, h.encoding_eq, h.unencodedLen_eq, rfl, ?_, hyields⟩
    change List.replicate _ _ = _
    rw [hs.length_elementsCodeword hle]

theorem Ready.forRows {σ : Type} (hs : Sized encoding pre enc)
    (body : σ → List F → Fallible ε σ) {rounds : ℕ} (h : Ready encoding pre enc xs it)
    (hrounds : xs.length < rounds) (s : σ) : it.forRows body rounds s =
      ((chunks pre xs).map (elementsCodeword encoding enc)).foldlM body s := by
  induction rounds generalizing it xs s with
  | zero => omega
  | succ rounds ih =>
    obtain ⟨it', hnext, hready⟩ := h.next (ε := ε) hs
    rw [RowGeneratorIter.forRows, hnext, ok_bind]
    by_cases hxs : xs = []
    · subst hxs
      rw [chunks_nil hs.pos]
      rfl
    · have hless : (xs.drop pre).length < rounds := by
        have hpos := List.length_pos_iff.mpr hxs
        have hpre := hs.pos
        rw [List.length_drop]
        omega
      simp only [if_neg hxs]
      rw [chunks_cons hs.pos hxs, List.map_cons, List.foldlM_cons]
      exact congrArg _ (funext fun s => ih hready hless s)

omit [ItemIterator I F] in
theorem length_of_seen (hs : Sized encoding pre enc) {seen : List (List F)} {row : List F}
    (h : seen ++ [row] <+: (chunks pre xs).map (elementsCodeword encoding enc)) :
    row.length = enc := by
  have hmem : row ∈ (chunks pre xs).map (elementsCodeword encoding enc) :=
    h.subset (List.mem_append_right _ (List.mem_singleton_self row))
  obtain ⟨c, hc, rfl⟩ := List.mem_map.mp hmem
  exact hs.length_elementsCodeword (length_le_of_mem_chunks hc)

theorem ready_newLigero {fft : FieldFFT F} {encoding : LcEncoding F fft.Err} {fieldIterator : I}
    (hencoding : (newFromDims fft pre enc : Fallible ε _) = .ok encoding)
    (hyields : Yields fieldIterator xs) :
    ∃ it, (newLigero fft fieldIterator pre enc : Fallible ε _) = .ok it ∧
      Ready encoding pre enc xs it := by
  rw [newLigero, hencoding, ok_bind]
  exact ⟨_, rfl, rfl, rfl, rfl, rfl, hyields⟩

section Digests

variable [FieldHash F] {rounds : ℕ}

theorem Ready.getColumnDigests (hs : Sized encoding pre enc) (h : Ready encoding pre enc xs it)
    (hrounds : xs.length < rounds) : (it.getColumnDigests D rounds : Fallible ε _) =
      .ok (columnLeaves D enc ((chunks pre xs).map (elementsCodeword encoding enc))) := by
  have hwidth : it.coefsBuffer.length = enc := by rw [h.buffer_eq, List.length_replicate]
  rw [RowGeneratorIter.getColumnDigests, h.forRows hs _ hrounds, hwidth]
  have hloop : ∃ acc, (((chunks pre xs).map (elementsCodeword encoding enc)).foldlM
        (fun acc row => unwrap (acc.update row : Fallible (FileError Err) _)) (.new enc .all) :
        Fallible ε (ColumnDigestAccumulator D)) = .ok acc ∧
      Tracks acc enc ((chunks pre xs).map (elementsCodeword encoding enc)) := by
    refine foldlM_reaches (fun seen acc => Tracks acc enc seen) (tracks_new enc) ?_
    intro seen row acc hseen htracks
    obtain ⟨acc', hupdate, htracks'⟩ : ∃ acc', (acc.update row : Fallible (FileError Err) _) =
        .ok acc' ∧ Tracks acc' enc (seen ++ [row]) := htracks.update (length_of_seen hs hseen)
    exact ⟨acc', unwrap_eq_ok.mpr hupdate, htracks'⟩
  obtain ⟨acc, hrun, htracks⟩ := hloop
  rw [hrun, ok_bind, htracks.getColumnDigests]
  rfl

def columnHashers (D : Digest) (columnIndices : List ℕ) (rows : List (List F)) : List (Hasher D) :=
  columnIndices.map fun c => ⟨columnPreimage D (columnOf rows c)⟩

omit [ItemIterator I F] in
theorem feedRow_columnHashers {seen : List (List F)} {row : List F} {columnIndices : List ℕ}
    (h : ∀ c ∈ columnIndices, c < row.length) :
    (feedRow row columnIndices (columnHashers D columnIndices seen) : Fallible ε _) =
      .ok (columnHashers D columnIndices (seen ++ [row])) := by
  have hzip : columnIndices.zip (columnHashers D columnIndices seen) =
      columnIndices.map fun c => (c, ⟨columnPreimage D (columnOf seen c)⟩) :=
    zip_map_self columnIndices _
  rw [feedRow_eq h, hzip, List.map_map]
  congr 1
  apply List.map_congr_left
  intro c _
  rw [Function.comp_apply, digestUpdate_columnPreimage, columnOf_concat]

theorem Ready.getSpecifiedColumnDigests (hs : Sized encoding pre enc)
    (h : Ready encoding pre enc xs it) (hrounds : xs.length < rounds) {columnIndices : List ℕ}
    (hcolumns : ∀ c ∈ columnIndices, c < enc) :
    (it.getSpecifiedColumnDigests D rounds columnIndices : Fallible ε _) =
      .ok (columnIndices.map fun c => columnLeaf D
        (columnOf ((chunks pre xs).map (elementsCodeword encoding enc)) c)) := by
  have hstart : List.replicate columnIndices.length (Hasher.newColumn : Hasher D) =
      columnHashers D columnIndices ([] : List (List F)) := by
    simp [columnHashers, columnOf, newColumn_eq (F := F)]
  have hloop : ∃ digests, (((chunks pre xs).map (elementsCodeword encoding enc)).foldlM
        (fun digests row => feedRow row columnIndices digests)
        (List.replicate columnIndices.length Hasher.newColumn) : Fallible ε _) = .ok digests ∧
      digests = columnHashers D columnIndices
        ((chunks pre xs).map (elementsCodeword encoding enc)) := by
    refine foldlM_reaches (fun seen digests => digests = columnHashers D columnIndices seen)
      hstart ?_
    rintro seen row _ hseen rfl
    refine ⟨_, feedRow_columnHashers fun c hc => ?_, rfl⟩
    rw [length_of_seen hs hseen]
    exact hcolumns c hc
  obtain ⟨digests, hrun, hdigests⟩ := hloop
  rw [RowGeneratorIter.getSpecifiedColumnDigests, h.forRows hs _ hrounds, hrun, hdigests, ok_bind,
    columnHashers, List.map_map]
  rfl

theorem Ready.convertToCommitRoot (hs : Sized encoding pre enc)
    (h : Ready encoding pre enc xs it) (hrounds : xs.length < rounds) {tree : MerkleTree D}
    (htree : (MerkleTree.new (columnLeaves D enc
      ((chunks pre xs).map (elementsCodeword encoding enc))) : Fallible (FileError Err) _) =
        .ok tree) :
    (it.convertToCommitRoot D rounds : Fallible (FileError Err) _) = tree.root := by
  obtain ⟨_, -, hnew⟩ := bind_eq_ok.mp htree
  obtain ⟨_, htwo, hnew⟩ := bind_eq_ok.mp hnew
  obtain ⟨nodes, hnodes, hnew⟩ := bind_eq_ok.mp hnew
  obtain rfl := Except.ok.inj hnew
  obtain ⟨hlen, -⟩ := MerkleTree.len_new htree
  have htwo := ensure_eq_ok.mp htwo
  have hne : nodes ≠ [] := by
    rintro rfl
    simp only [MerkleTree.len, List.append_nil] at hlen
    omega
  rw [RowGeneratorIter.convertToCommitRoot, h.getColumnDigests hs hrounds, ok_bind, hnodes, ok_bind,
    MerkleTree.root, List.getLast?_append_of_ne_nil _ hne]
  rfl

end Digests

end RowGeneratorIter

section Agreement

variable [DataField F] {fft : FieldFFT F} {pre enc : ℕ} {b : List UInt8}

theorem yields_new (b : List UInt8) :
    Yields (FieldGeneratorIter.new b : FieldGeneratorIter F) (fromByteVec b) := by
  induction hn : b.length using Nat.strong_induction_on generalizing b with
  | _ n ih =>
    by_cases hb : b = []
    · rw [hb, fromByteVec_nil]
      exact yields_nil_of_fixed FieldGeneratorIter.next_new_nil
    · have hpos := List.length_pos_iff.mpr hb
      have hcap : 0 < DataField.dataByteCapacity F := DataField.capacity_pos
      have hnext : ItemIterator.next (FieldGeneratorIter.new b : FieldGeneratorIter F) = _ :=
        FieldGeneratorIter.next_new hb
      rw [yields_iff, hnext, fromByteVec_cons hb]
      exact ⟨rfl, ih _ (by rw [List.length_drop]; omega) _ rfl⟩

theorem commit_digests {ε : Type} {elements : List F} {encoding : LcEncoding F fft.Err}
    (hdata : elements ≠ []) (hpre : 0 < pre) (hword : enc < 2 ^ 64)
    (hencoding : (newFromDims fft pre enc : Fallible ε _) = .ok encoding) :
    ∃ (comm : LcCommit D F) (root : D.Output), commit D elements encoding = .ok comm ∧
      (getRoot comm : Fallible ε _) = .ok ⟨root⟩ ∧ comm.hashes.take enc =
        columnLeaves D enc ((chunks pre elements).map (elementsCodeword encoding enc)) ∧
      (MerkleTree.new (comm.hashes.take enc) : Fallible (FileError fft.Err) _) =
        .ok ⟨comm.hashes, enc⟩ ∧
      (MerkleTree.root ⟨comm.hashes, enc⟩ : Fallible (FileError fft.Err) _) = .ok root := by
  obtain ⟨hlt, hpow, -⟩ := newFromDims_eq_ok hencoding
  obtain ⟨comm, hcommit, hcommitted, hrows, -, rfl, -, hmatrix⟩ :=
    commit_ligero (D := D) hdata hpre hword hencoding
  obtain ⟨k, hk⟩ := exists_two_pow_succ hpow hcommitted.two_le
  have htree := hcommitted.merkleized.tree
  rw [hk, Nat.clog_pow 2 _ Nat.one_lt_two] at htree
  have hlast := htree.getLast?_eq
  refine ⟨comm, htree.levelOrder.root, hcommit, ?_, ?_, ?_, ?_⟩
  · rw [getRoot, hlast]
  · rw [hcommitted.merkleized.take_hashes, hrows, columnLeaves]
    apply List.map_congr_left
    intro c hc
    rw [columnOf_codewords hmatrix (List.mem_range.mp hc)]
  · rw [hk]
    exact MerkleTree.new_take_leaves htree
  · rw [MerkleTree.root, hlast]

theorem rowGenerator_gives {encoding : LcEncoding F fft.Err} {tree : MerkleTree D}
    (hpre : 0 < pre)
    (hencoding : (newFromDims fft pre enc : Fallible (FileError fft.Err) _) = .ok encoding)
    (htree : (MerkleTree.new (columnLeaves D enc (encodedRows encoding pre enc b)) :
      Fallible (FileError fft.Err) _) = .ok tree) :
    ∃ it, (RowGeneratorIter.newLigero fft (FieldGeneratorIter.new b : FieldGeneratorIter F)
        pre enc : Fallible (FileError fft.Err) _) = .ok it ∧ ∀ rounds, b.length < rounds →
      (it.getColumnDigests D rounds : Fallible (FileError fft.Err) _) =
        .ok (columnLeaves D enc (encodedRows encoding pre enc b)) ∧
      (it.convertToCommitRoot D rounds : Fallible (FileError fft.Err) _) = tree.root ∧
      ∀ columnIndices : List ℕ, (∀ c ∈ columnIndices, c < enc) →
        (it.getSpecifiedColumnDigests D rounds columnIndices : Fallible (FileError fft.Err) _) =
          .ok (columnIndices.map fun c =>
            columnLeaf D (columnOf (encodedRows encoding pre enc b) c)) := by
  have hs := Sized.of_newFromDims hpre hencoding
  obtain ⟨it, hnew, hready⟩ := RowGeneratorIter.ready_newLigero hencoding (yields_new b)
  refine ⟨it, hnew, ?_⟩
  intro rounds hrounds
  have hlen : (fromByteVec b : List F).length < rounds := by
    rw [length_fromByteVec]
    exact lt_of_le_of_lt (divCeil_le_self _ DataField.capacity_pos) hrounds
  rw [encodedRows_eq hpre] at htree ⊢
  exact ⟨hready.getColumnDigests hs hlen, hready.convertToCommitRoot hs hlen htree,
    fun columnIndices hcolumns => hready.getSpecifiedColumnDigests hs hlen hcolumns⟩

theorem leaves_at {hashes : List D.Output} {rows : List (List F)}
    (hleaves : hashes.take enc = columnLeaves D enc rows) {columnIndices : List ℕ}
    (hcolumns : ∀ c ∈ columnIndices, c < enc) :
    (columnIndices.map fun c => columnLeaf D (columnOf rows c)) =
      columnIndices.map fun c => hashes.getD c D.defaultOutput := by
  apply List.map_congr_left
  intro c hc
  have hlt := hcolumns c hc
  have hget : (hashes.take enc)[c]? = some (columnLeaf D (columnOf rows c)) := by
    rw [hleaves, columnLeaves, List.getElem?_map, List.getElem?_range hlt, Option.map_some]
  rw [List.getElem?_take_of_lt hlt] at hget
  rw [List.getD_eq_getElem?_getD, hget, Option.getD_some]

omit [Field F] [DataField F] in
theorem eq_of_returns {finalizer : Finalizer} {leaves : List D.Output} {out : Finalized D}
    {tree : MerkleTree D} {root : D.Output}
    (htree : (MerkleTree.new leaves : Fallible (FileError fft.Err) _) = .ok tree)
    (hroot : (tree.root : Fallible (FileError fft.Err) _) = .ok root) :
    finalizer.Returns fft.Err leaves out → out = match finalizer with
      | .columnDigest => .columnDigest leaves
      | .commit => .commit root
      | .merkleTree => .merkleTree tree := by
  intro hreturns
  cases finalizer with
  | columnDigest => exact hreturns
  | commit =>
    obtain ⟨tree', root', htree', hroot', rfl⟩ := hreturns
    obtain rfl := Except.ok.inj (htree.symm.trans htree')
    exact congrArg _ (Except.ok.inj (hroot'.symm.trans hroot))
  | merkleTree =>
    obtain ⟨tree', htree', rfl⟩ := hreturns
    exact congrArg _ (Except.ok.inj (htree'.symm.trans htree))

/-- The commitment of the whole file, the row generator over its bytes and the encoded-file writer,
however the bytes are fed to it, agree on the column digests, the tree and the root. -/
theorem streamed_commitments_agree {encoding : LcEncoding F fft.Err} (hb : b ≠ [])
    (hpre : 0 < pre) (hword : enc < 2 ^ 64)
    (hencoding : (newFromDims fft pre enc : Fallible (FileError fft.Err) _) = .ok encoding) :
    ∃ (comm : LcCommit D F) (root : D.Output),
      commit D (fromByteVec b) encoding = .ok comm ∧
      (getRoot comm : Fallible (FileError fft.Err) _) = .ok ⟨root⟩ ∧
      (∃ it, (RowGeneratorIter.newLigero fft (FieldGeneratorIter.new b : FieldGeneratorIter F)
          pre enc : Fallible (FileError fft.Err) _) = .ok it ∧ ∀ rounds, b.length < rounds →
        (it.getColumnDigests D rounds : Fallible (FileError fft.Err) _) =
          .ok (comm.hashes.take enc) ∧
        (it.convertToCommitRoot D rounds : Fallible (FileError fft.Err) _) = .ok root ∧
        ∀ columnIndices : List ℕ, (∀ c ∈ columnIndices, c < enc) →
          (it.getSpecifiedColumnDigests D rounds columnIndices : Fallible (FileError fft.Err) _) =
            .ok (columnIndices.map fun c => comm.hashes.getD c D.defaultOutput)) ∧
      ∀ targetFile, ∃ w, new fft D pre enc b.length targetFile = .ok w ∧
        ∀ feeds : List Feed, feeds.flatMap Feed.bytes = b → ∀ finalizer : Finalizer,
          Runs (writeFile feeds finalizer) w fun result _ => result.2 = match finalizer with
            | .columnDigest => .columnDigest (comm.hashes.take enc)
            | .commit => .commit root
            | .merkleTree => .merkleTree ⟨comm.hashes, enc⟩ := by
  have hdata : (fromByteVec b : List F) ≠ [] := fromByteVec_ne_nil hb
  obtain ⟨comm, root, hcommit, hgetRoot, hleaves, htree, hroot⟩ :=
    commit_digests (D := D) hdata hpre hword hencoding
  rw [← encodedRows_eq hpre] at hleaves
  refine ⟨comm, root, hcommit, hgetRoot, ?_, fun targetFile => ?_⟩
  · rw [hleaves] at htree
    obtain ⟨it, hnew, hrun⟩ := rowGenerator_gives hpre hencoding htree
    refine ⟨it, hnew, ?_⟩
    intro rounds hrounds
    obtain ⟨hdigests, hcommitRoot, hspecified⟩ := hrun rounds hrounds
    refine ⟨hleaves ▸ hdigests, hcommitRoot.trans hroot, ?_⟩
    intro columnIndices hcolumns
    rw [hspecified columnIndices hcolumns, leaves_at hleaves hcolumns]
  · obtain ⟨w, hnew, rfl⟩ := exists_new (D := D) hpre hencoding b.length targetFile
    obtain ⟨hs, hsettled⟩ := settled_new hnew
    refine ⟨w, hnew, ?_⟩
    intro feeds hfeeds finalizer
    refine (writeFile_finished hs hsettled hfeeds finalizer).mono ?_
    rintro ⟨metadata, out⟩ w' ⟨-, -, hreturns⟩
    rw [← hleaves] at hreturns
    exact eq_of_returns htree hroot hreturns

theorem streamed_commitments_agree_small : ∃ (comm : LcCommit byteSum (ZMod 257))
    (encoding : LcEncoding (ZMod 257) Unit) (root : byteSum.Output),
    commit byteSum (fromByteVec [1, 2, 3]) encoding = .ok comm ∧
    ∃ w, new fermatFft byteSum 1 2 3 [] = .ok w ∧
      Runs (writeFile [.pushBytes [1], .consumeByteIterator [2, 3]] .commit) w
        fun result _ => result.2 = .commit root := by
  obtain ⟨encoding, hencoding⟩ : ∃ encoding, (newFromDims fermatFft 1 2 :
    Fallible (FileError Unit) _) = .ok encoding := ⟨_, rfl⟩
  obtain ⟨comm, root, hcommit, -, -, hwriter⟩ := streamed_commitments_agree (D := byteSum)
    (b := [1, 2, 3]) (List.cons_ne_nil _ _) (by decide) (by decide) hencoding
  obtain ⟨w, hnew, hruns⟩ := hwriter []
  exact ⟨comm, encoding, root, hcommit, w, hnew,
    hruns [.pushBytes [1], .consumeByteIterator [2, 3]] rfl .commit⟩

end Agreement

end FileStreams
