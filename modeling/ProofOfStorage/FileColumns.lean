import ProofOfStorage.FileHandlingRuns

/-! # Reading the digests or the columns of a stored file

A digest is looked up in the table that holds the leaves and the inner nodes of the tree. A column
is read from the encoded file and opened by a path.
-/
namespace FileColumns

open FoundationFaults FoundationSlices FoundationPositionalFiles CommitmentTypes CommitmentMerkle
open OnlineColumns FileFields FileDigests FileRows FileReader FileHandling FileHandlingRuns

variable {D : Digest} {F Err : Type} [Field F] [DataField F]

section Reads

variable (h : FileHandler D F Err)

def getMerkleTree : Fallible (FileError Err) (MerkleTree D) := .ok h.merkleTree

def getCommitRoot : Fallible (FileError Err) (LcRoot D) := do
  let root ← (← getMerkleTree h).root
  return ⟨root⟩

def columnIndices : ColumnsToCareAbout → List ℕ
  | .all => List.range h.encodedSize
  | .only columnIndices => columnIndices

def readOnlyDigests (columnsToCareAbout : ColumnsToCareAbout) :
    Fallible (FileError Err) (List D.Output) := do
  let tree ← getMerkleTree h
  (columnIndices h columnsToCareAbout).mapM fun col => index tree.digests col

def internalGetMerklePathForColumn (columnIndex : ℕ) :
    Fallible (FileError Err) (List D.Output) := do
  ensure (columnIndex < h.encodedSize) (.message "column index out of bounds")
  match ← h.merkleTree.getPath columnIndex with
  | some path => return path
  | none => fail (.message "no path found for such an index")

def internalOpenColumn (columnIndex : ℕ) : Fallible (FileError Err) (LcColumn D F) := do
  let col ← getEncodedColumnWithoutPath h.encodedFileReadWriter columnIndex
  let path ← internalGetMerklePathForColumn h columnIndex
  return ⟨col, path⟩

/-- The columns are opened in parallel and collected in the order of the request. -/
def readFullColumns (columnsToCareAbout : ColumnsToCareAbout) :
    Fallible (FileError Err) (List (LcColumn D F)) :=
  (columnIndices h columnsToCareAbout).mapM (internalOpenColumn h)

/-- The two reads succeed on the same requests, digest by digest of the columns, and every column
is opened under the root. -/
structure ReadsAgree (request : ColumnsToCareAbout) : Prop where
  succeed : (∃ digests, readOnlyDigests h request = .ok digests) ↔
    ∃ columns, readFullColumns h request = .ok columns
  digests_eq : ∀ digests columns, readOnlyDigests h request = .ok digests →
    readFullColumns h request = .ok columns → digests = columns.map hashColumnToDigest
  verified : ∀ columns, readFullColumns h request = .ok columns → ∃ root,
    getCommitRoot h = .ok root ∧ List.Forall₂
      (fun c column => verifyColumnPath column c root.root = true) (columnIndices h request) columns

end Reads

variable {h : FileHandler D F Err} {b : List UInt8} {request : ColumnsToCareAbout}

theorem hashTree_of_agrees (ha : Agrees h b) : ∃ k, h.encodedSize = 2 ^ k ∧
    h.merkleTree.width = 2 ^ k ∧ HashTree k h.merkleTree.digests ∧
    h.merkleTree.digests.length = 2 * h.encodedSize - 1 ∧
    ∀ c < h.encodedSize, h.merkleTree.digests.getD c D.defaultOutput =
      columnLeaf D (columnOf (rowsOf h b) c) := by
  obtain ⟨k, hlen, hwidth, htree, hleaves⟩ := MerkleTree.hashTree_new ha.tree
  rw [length_columnLeaves] at hlen hleaves
  refine ⟨k + 1, hlen, hwidth, htree, ?_, ?_⟩
  · have hsize := htree.length_eq
    rw [pow_succ] at hsize
    omega
  · intro c hc
    rw [hleaves c hc, columnLeaves, List.getD_eq_getElem _ _ (by simpa using hc)]
    simp

/-- Every entry of the table can be read as a digest, the inner nodes too. -/
theorem readOnlyDigests_succeeds (ha : Agrees h b) :
    (∃ digests, readOnlyDigests h request = .ok digests) ↔
      ∀ c ∈ columnIndices h request, c < 2 * h.encodedSize - 1 := by
  obtain ⟨k, -, -, -, hlen, -⟩ := hashTree_of_agrees ha
  rw [readOnlyDigests, getMerkleTree, ok_bind, exists_mapM_eq_ok, ← hlen]
  refine forall₂_congr fun c _ => ?_
  constructor
  · rintro ⟨digest, hdigest⟩
    exact (List.getElem?_eq_some_iff.mp (index_eq_ok.mp hdigest)).1
  · intro hc
    exact ⟨_, index_of_lt hc⟩

theorem readOnlyDigests_eq (ha : Agrees h b)
    (hin : ∀ c ∈ columnIndices h request, c < h.encodedSize) : readOnlyDigests h request =
      .ok ((columnIndices h request).map fun c => columnLeaf D (columnOf (rowsOf h b) c)) := by
  obtain ⟨k, -, -, -, hlen, hleaves⟩ := hashTree_of_agrees ha
  rw [readOnlyDigests, getMerkleTree, ok_bind]
  apply mapM_of_forall
  intro c hc
  have hlt : c < h.merkleTree.digests.length := by
    have := hin c hc
    omega
  rw [index_of_lt hlt, ← hleaves c (hin c hc), List.getD_eq_getElem _ _ hlt]

theorem internalOpenColumn_eq (ha : Agrees h b) {k : ℕ} (hwidth : h.merkleTree.width = 2 ^ k)
    (htree : HashTree k h.merkleTree.digests) (hsize : h.encodedSize = 2 ^ k) {c : ℕ}
    (hc : c < h.encodedSize) :
    internalOpenColumn h c = .ok ⟨columnOf (rowsOf h b) c, htree.levelOrder.path c⟩ := by
  have hpath : internalGetMerklePathForColumn h c = .ok (htree.levelOrder.path c) := by
    rw [internalGetMerklePathForColumn, ensure_of hc, ok_bind, MerkleTree.getPath_eq hwidth htree,
      if_pos (by rw [hwidth, ← hsize]; exact hc)]
    rfl
  rw [internalOpenColumn, ha.encodes.stores.getEncodedColumnWithoutPath hc, ok_bind, hpath]
  rfl

theorem lt_of_internalOpenColumn {c : ℕ} {column : LcColumn D F}
    (hopen : internalOpenColumn h c = .ok column) : c < h.encodedSize := by
  obtain ⟨col, -, hrest⟩ := bind_eq_ok.mp hopen
  obtain ⟨path, hpath, -⟩ := bind_eq_ok.mp hrest
  obtain ⟨_, hensure, -⟩ := bind_eq_ok.mp hpath
  exact ensure_eq_ok.mp hensure

theorem readFullColumns_succeeds (ha : Agrees h b) :
    (∃ columns, readFullColumns h request = .ok columns) ↔
      ∀ c ∈ columnIndices h request, c < h.encodedSize := by
  obtain ⟨k, hsize, hwidth, htree, -⟩ := hashTree_of_agrees ha
  rw [readFullColumns, exists_mapM_eq_ok]
  refine forall₂_congr fun c _ => ?_
  constructor
  · rintro ⟨column, hopen⟩
    exact lt_of_internalOpenColumn hopen
  · intro hc
    exact ⟨_, internalOpenColumn_eq ha hwidth htree hsize hc⟩

theorem readsAgree_of_lt (ha : Agrees h b)
    (hin : ∀ c ∈ columnIndices h request, c < h.encodedSize) : ReadsAgree h request := by
  obtain ⟨k, hsize, hwidth, htree, -, hleaves⟩ := hashTree_of_agrees ha
  have hdigests := readOnlyDigests_eq ha hin
  have hcolumns : readFullColumns h request = .ok ((columnIndices h request).map fun c =>
      ⟨columnOf (rowsOf h b) c, htree.levelOrder.path c⟩) :=
    mapM_of_forall fun c hc => internalOpenColumn_eq ha hwidth htree hsize (hin c hc)
  refine ⟨⟨fun _ => ⟨_, hcolumns⟩, fun _ => ⟨_, hdigests⟩⟩, ?_, ?_⟩
  · intro digests columns hread hopened
    obtain rfl := Except.ok.inj (hdigests.symm.trans hread)
    obtain rfl := Except.ok.inj (hcolumns.symm.trans hopened)
    rw [List.map_map]
    apply List.map_congr_left
    intro c _
    rw [Function.comp_apply, hashColumnToDigest_eq]
  · intro columns hopened
    obtain rfl := Except.ok.inj (hcolumns.symm.trans hopened)
    have hroot : getCommitRoot h = .ok ⟨htree.levelOrder.root⟩ := by
      rw [getCommitRoot, getMerkleTree, ok_bind, MerkleTree.root_eq htree]
      rfl
    refine ⟨_, hroot, ?_⟩
    rw [List.forall₂_map_right_iff, List.forall₂_same]
    intro c hc
    have hclimb := htree.levelOrder.climb_path (hsize ▸ hin c hc)
    rw [HashTree.levelOrder_table, hleaves c (hin c hc)] at hclimb
    exact verifyColumnPath_iff.mpr hclimb

/-- The two reads agree on a request exactly when it names columns only, or when it reaches past
the last inner node of the tree, where both fail. -/
theorem reads_agree_iff (ha : Agrees h b) (request : ColumnsToCareAbout) :
    ReadsAgree h request ↔ (∀ c ∈ columnIndices h request, c < h.encodedSize) ∨
      ∃ c ∈ columnIndices h request, 2 * h.encodedSize - 1 ≤ c := by
  constructor
  · intro hagree
    by_cases hpast : ∃ c ∈ columnIndices h request, 2 * h.encodedSize - 1 ≤ c
    · exact .inr hpast
    · have hread := (readOnlyDigests_succeeds ha).mpr fun c hc =>
        Nat.lt_of_not_le fun hle => hpast ⟨c, hc, hle⟩
      exact .inl ((readFullColumns_succeeds ha).mp (hagree.succeed.mp hread))
  · rintro (hin | ⟨c, hc, hpast⟩)
    · exact readsAgree_of_lt ha hin
    · have hnodigests : ¬∃ digests, readOnlyDigests h request = .ok digests := by
        rw [readOnlyDigests_succeeds ha]
        intro hall
        exact absurd (hall c hc) (Nat.not_lt.mpr hpast)
      have hnocolumns : ¬∃ columns, readFullColumns h request = .ok columns := by
        rw [readFullColumns_succeeds ha]
        intro hall
        have := hall c hc
        omega
      refine ⟨iff_of_false hnodigests hnocolumns, ?_, ?_⟩
      · intro digests columns hread
        exact absurd ⟨digests, hread⟩ hnodigests
      · intro columns hopened
        exact absurd ⟨columns, hopened⟩ hnocolumns

theorem exists_agrees_byte : ∃ h : FileHandler byteSum (ZMod 257) fermatFft.Err,
    h.encodedSize = 2 ∧ Agrees h [5] := by
  obtain ⟨encoding, hencoding⟩ : ∃ encoding,
      (newFromDims fermatFft 1 2 : Fallible (FileError fermatFft.Err) _) = .ok encoding := ⟨_, rfl⟩
  have hs := Sized.of_newFromDims (by decide) hencoding
  have hrows : encodedRows encoding 1 2 [5] = [[5, 5]] := by
    obtain rfl := Except.ok.inj hencoding
    decide +kernel
  obtain ⟨nodes, k, -, -, htree⟩ := @MerkleTree.new_eq fermatFft.Err byteSum
    (columnLeaves byteSum 2 (encodedRows encoding 1 2 [5])) (by rw [length_columnLeaves]; decide)
    (by rw [length_columnLeaves])
  have hstores : Stores 1 2 (encodedRows encoding 1 2 [5])
      ⟨encoding, ([5, 5] : List (ZMod 257)).flatMap reprBytes, 1, 2, 1, 1⟩ := by
    rw [hrows]
    exact ⟨hs, rfl, rfl, rfl, le_rfl, holdsRows_singleton length_reprBytes [5, 5]⟩
  have hcount : 1 = divCeil ([5] : List UInt8).length (rowBytes (ZMod 257) 1) := by decide
  exact ⟨⟨0, 1, 2, 1, 1, 1, encoding, some [5], ⟨encoding, _, 1, 2, 1, 1⟩, _, none, some []⟩, rfl,
    ⟨hs, rfl, rfl, hcount⟩, ⟨hstores, rfl, rfl⟩, htree⟩

theorem reads_agree_small : ∃ h : FileHandler byteSum (ZMod 257) fermatFft.Err, Agrees h [5] ∧
    ReadsAgree h (.only [1, 0, 1]) ∧ ReadsAgree h (.only [0, 3]) := by
  obtain ⟨h, hsize, ha⟩ := exists_agrees_byte
  refine ⟨h, ha, (reads_agree_iff ha _).mpr (.inl ?_), (reads_agree_iff ha _).mpr (.inr ?_)⟩
  · rw [hsize]
    simp [columnIndices]
  · rw [hsize]
    exact ⟨3, by simp [columnIndices], le_rfl⟩

/-- Column 2 of two columns does not exist, but its digest is read: it is the root. -/
theorem root_read_as_digest : ∃ (h : FileHandler byteSum (ZMod 257) fermatFft.Err)
    (root : byteSum.Output), Agrees h [5] ∧ h.encodedSize = 2 ∧ getCommitRoot h = .ok ⟨root⟩ ∧
    readOnlyDigests h (.only [2]) = .ok [root] ∧
    ∀ columns, readFullColumns h (.only [2]) ≠ .ok columns := by
  obtain ⟨h, hsize, ha⟩ := exists_agrees_byte
  obtain ⟨k, -, -, htree, hlen, -⟩ := hashTree_of_agrees ha
  have hlast : h.merkleTree.digests[2]? = some htree.levelOrder.root := by
    have hget := htree.getLast?_eq
    rwa [List.getLast?_eq_getElem?, hlen, hsize] at hget
  refine ⟨h, htree.levelOrder.root, ha, hsize, ?_, ?_, ?_⟩
  · rw [getCommitRoot, getMerkleTree, ok_bind, MerkleTree.root_eq htree]
    rfl
  · rw [readOnlyDigests, getMerkleTree, ok_bind, mapM_eq_ok]
    exact .cons (index_eq_ok.mpr hlast) .nil
  · intro columns hopened
    have hin := (readFullColumns_succeeds ha).mp ⟨columns, hopened⟩
    rw [hsize] at hin
    exact absurd (hin 2 (by simp [columnIndices])) (by decide)

end FileColumns
