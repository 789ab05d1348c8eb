import ProofOfStorage.CommitmentMerkle
import ProofOfStorage.FileFields

/-! # Running column digests and stored Merkle trees -/
namespace FileDigests

open FoundationFaults FoundationSlices FoundationPositionalFiles CommitmentTypes CommitmentMerkle
open FileFields

/-- The errors of the code that works on files. A check without a message names its condition. -/
inductive FileError (Err : Type) where
  | message (text : String)
  | condition (expression : String)
  | io
  | encode (e : Err)
  deriving DecidableEq, Repr

variable {Err F : Type} {D : Digest}

/-- The leaves come first, as in the digest vector of a commitment. -/
structure MerkleTree (D : Digest) where
  digests : List D.Output
  width : ℕ
  deriving DecidableEq

namespace MerkleTree

def new (childrenLeaves : List D.Output) : Fallible (FileError Err) (MerkleTree D) := do
  let width := childrenLeaves.length
  ensure (isPowerOfTwo width = true) (.message "Input needs to be a power of two.")
  ensure (width ≥ 2) (.message "input needs to be at least two.")
  let parentLeaves ← merkleTree childrenLeaves (.replicate (width - 1) D.defaultOutput)
  return ⟨childrenLeaves ++ parentLeaves, width⟩

def root (tree : MerkleTree D) : Fallible (FileError Err) D.Output :=
  match tree.digests.getLast? with
  | some digest => .ok digest
  | none => panicked

def getPath (tree : MerkleTree D) (index : ℕ) :
    Fallible (FileError Err) (Option (List D.Output)) :=
  if index ≥ tree.width then .ok none
  else some <$> collectPath (log2 tree.width) tree.digests index

def len (tree : MerkleTree D) : ℕ := tree.digests.length

def toBytes (tree : MerkleTree D) : List UInt8 := tree.digests.flatMap Vector.toList

/-- Bytes behind the last whole digest are ignored. -/
def fromBytes (D : Digest) (bytes : List UInt8) : Fallible (FileError Err) (MerkleTree D) := do
  assert (D.outputSize ≠ 0)
  let numDigests := bytes.length / D.outputSize
  ensure (isPowerOfTwo (numDigests + 1) = true) (.message "input size must be a power of two")
  ensure (numDigests > 2) (.message "Merkle tree must be a non-trivial binary tree")
  let digests := (List.range numDigests).map fun i =>
    padded D.outputSize (readAt bytes (i * D.outputSize) D.outputSize)
  return ⟨digests, (numDigests + 1) / 2⟩

/-- Two trees are compared by their width and their common digests. -/
def eq (tree other : MerkleTree D) : Bool :=
  tree.width == other.width && (tree.digests.zip other.digests).all fun p => p.1 == p.2

end MerkleTree

inductive ColumnsToCareAbout where
  | all
  | only (columns : List ℕ)
  deriving DecidableEq

structure ColumnDigestAccumulator (D : Digest) where
  columnDigests : List (Hasher D)
  columnsToCareAbout : ColumnsToCareAbout

namespace ColumnDigestAccumulator

def new (numberOfEncodedColumns : ℕ) : ColumnsToCareAbout → ColumnDigestAccumulator D
  | .all => ⟨.replicate numberOfEncodedColumns Hasher.newColumn, .all⟩
  | .only indices => ⟨.replicate indices.length Hasher.newColumn, .only indices⟩

/-- With a selection of columns, an index is used both in the row and among the digests. -/
def update [FieldHash F] (acc : ColumnDigestAccumulator D) (encodedRow : List F) :
    Fallible (FileError Err) (ColumnDigestAccumulator D) := do
  ensure (encodedRow.length = acc.columnDigests.length) (.message "incorrect length of input")
  match acc.columnsToCareAbout with
  | .all =>
    return { acc with columnDigests := List.zipWith digestUpdate encodedRow acc.columnDigests }
  | .only columns =>
    let columnDigests ← columns.foldlM (fun columnDigests columnsIndex => do
      let element ← index encodedRow columnsIndex
      let digest ← index columnDigests columnsIndex
      return columnDigests.set columnsIndex (digestUpdate element digest)) acc.columnDigests
    return { acc with columnDigests := columnDigests }

def getColumnDigests (acc : ColumnDigestAccumulator D) : List D.Output :=
  acc.columnDigests.map Hasher.finalize

def finalizeToMerkleTree (acc : ColumnDigestAccumulator D) :
    Fallible (FileError Err) (MerkleTree D) := do
  ensure (acc.columnsToCareAbout = .all)
    (.message "cannot commit to a tree if not all columns have been tracked")
  MerkleTree.new acc.getColumnDigests

def finalizeToCommit (acc : ColumnDigestAccumulator D) : Fallible (FileError Err) D.Output := do
  ensure (acc.columnsToCareAbout = .all)
    (.message "cannot commit to a root if not all columns have been tracked")
  let tree ← acc.finalizeToMerkleTree
  tree.root

end ColumnDigestAccumulator

theorem isPowerOfTwo_iff {v : ℕ} : isPowerOfTwo v = true ↔ ∃ k, v = 2 ^ k := by
  constructor
  · intro h
    exact ⟨_, beq_iff_eq.mp h⟩
  · rintro ⟨k, rfl⟩
    exact beq_iff_eq.mpr (nextPowerOfTwo_two_pow k).symm

theorem exists_two_pow_succ {v : ℕ} (h : isPowerOfTwo v = true) (hv : 2 ≤ v) :
    ∃ k, v = 2 ^ (k + 1) := by
  obtain ⟨k, rfl⟩ := isPowerOfTwo_iff.mp h
  cases k with
  | zero => simp at hv
  | succ k => exact ⟨k, rfl⟩

namespace MerkleTree

theorem eq_self (tree : MerkleTree D) : tree.eq tree = true := by
  have hzip : tree.digests.zip tree.digests = tree.digests.map fun d => (d, d) := by
    simpa using zip_map_self tree.digests id
  rw [eq, hzip, beq_self_eq_true, Bool.true_and, List.all_map, List.all_eq_true]
  intro d _
  exact beq_self_eq_true d

theorem new_eq {leaves : List D.Output} (hpow : isPowerOfTwo leaves.length = true)
    (htwo : 2 ≤ leaves.length) : ∃ nodes k, leaves.length = 2 ^ (k + 1) ∧
      InnerNodes (k + 1) leaves nodes ∧
      (new leaves : Fallible (FileError Err) _) = .ok ⟨leaves ++ nodes, leaves.length⟩ := by
  obtain ⟨k, hk⟩ := exists_two_pow_succ hpow htwo
  obtain ⟨nodes, hrun, hnodes⟩ := merkleTree_eq (ε := FileError Err)
    (.replicate (leaves.length - 1) D.defaultOutput) hk (by rw [List.length_replicate, hk])
  refine ⟨nodes, k, hk, hnodes, ?_⟩
  rw [new, ensure_of hpow, ok_bind, ensure_of htwo, ok_bind, hrun, ok_bind]
  rfl

theorem new_eq_ok {leaves : List D.Output} {tree : MerkleTree D}
    (h : (new leaves : Fallible (FileError Err) _) = .ok tree) : ∃ nodes k,
      leaves.length = 2 ^ (k + 1) ∧ InnerNodes (k + 1) leaves nodes ∧
      tree = ⟨leaves ++ nodes, leaves.length⟩ := by
  obtain ⟨_, hpow, h'⟩ := bind_eq_ok.mp h
  obtain ⟨_, htwo, -⟩ := bind_eq_ok.mp h'
  obtain ⟨nodes, k, hk, hnodes, hrun⟩ := @new_eq Err D leaves (ensure_eq_ok.mp hpow)
    (ensure_eq_ok.mp htwo)
  exact ⟨nodes, k, hk, hnodes, Except.ok.inj (h.symm.trans hrun)⟩

theorem new_take_leaves {hashes : List D.Output} {k : ℕ} (h : HashTree (k + 1) hashes) :
    (new (hashes.take (2 ^ (k + 1))) : Fallible (FileError Err) _) =
      .ok ⟨hashes, 2 ^ (k + 1)⟩ := by
  have hdouble : 2 ^ (k + 2) = 2 * 2 ^ (k + 1) := by ring
  have htwo : 2 ≤ 2 ^ (k + 1) := Nat.le_self_pow (by omega) 2
  have hsize := h.length_eq
  have hlen : (hashes.take (2 ^ (k + 1))).length = 2 ^ (k + 1) := by
    rw [List.length_take]
    omega
  obtain ⟨nodes, j, hj, hnodes, hnew⟩ := @new_eq Err D (hashes.take (2 ^ (k + 1)))
    (isPowerOfTwo_iff.mpr ⟨k + 1, hlen⟩) (by omega)
  have hkj : k + 1 = j + 1 := Nat.pow_right_injective le_rfl (hlen.symm.trans hj)
  rw [← hkj] at hnodes
  have hsame : hashes.take (2 ^ (k + 1)) ++ nodes = hashes := by
    apply (hnodes.hashTree hlen).unique h
    intro i hi
    have hi' : i < (hashes.take (2 ^ (k + 1))).length := by omega
    rw [List.getD_append _ _ _ _ hi', List.getD_eq_getElem _ _ hi', List.getElem_take,
      ← List.getD_eq_getElem _ D.defaultOutput]
  rw [hnew, hsame, hlen]

theorem len_new {leaves : List D.Output} {tree : MerkleTree D}
    (h : (new leaves : Fallible (FileError Err) _) = .ok tree) :
    tree.len = leaves.length * 2 - 1 ∧ tree.width = leaves.length := by
  obtain ⟨nodes, k, hk, hnodes, rfl⟩ := new_eq_ok h
  have hlen := hnodes.length_eq
  refine ⟨?_, rfl⟩
  rw [len, List.length_append]
  omega

theorem length_toBytes (tree : MerkleTree D) : tree.toBytes.length = tree.len * D.outputSize :=
  length_flatMap_repr (fun digest => digest.length_toList) tree.digests

theorem outputSize_of_fromBytes {bytes : List UInt8} {tree : MerkleTree D}
    (h : (fromBytes D bytes : Fallible (FileError Err) _) = .ok tree) : D.outputSize ≠ 0 := by
  obtain ⟨_, hsize, -⟩ := bind_eq_ok.mp h
  exact assert_eq_ok.mp hsize

theorem fromBytes_toBytes {leaves : List D.Output} {tree : MerkleTree D} (hsize : D.outputSize ≠ 0)
    (h : (new leaves : Fallible (FileError Err) _) = .ok tree) :
    (fromBytes D tree.toBytes : Fallible (FileError Err) _) = .ok tree := by
  obtain ⟨hlen, hwidth⟩ := len_new h
  obtain ⟨-, k, hk, -⟩ := new_eq_ok h
  have htwo : 2 ≤ 2 ^ (k + 1) := Nat.le_self_pow (by omega) 2
  have hnum : tree.toBytes.length / D.outputSize = tree.len := by
    rw [length_toBytes, Nat.mul_div_cancel _ (Nat.pos_of_ne_zero hsize)]
  have hdouble : tree.len + 1 = 2 ^ (k + 2) := by
    rw [pow_succ, ← hk]
    omega
  have hdigests : (List.range tree.len).map (fun i =>
      padded D.outputSize (readAt tree.toBytes (i * D.outputSize) D.outputSize)) =
      tree.digests := by
    apply List.ext_getElem (by simp [len])
    intro i hi hi'
    have hheld : HoldsAt tree.toBytes (i * D.outputSize) tree.digests[i].toList :=
      holdsAt_flatMap (fun digest => digest.length_toList) tree.digests
        (List.getElem?_eq_getElem hi')
    have hread := hheld.readAt_eq
    rw [Vector.length_toList] at hread
    rw [List.getElem_map, List.getElem_range, hread, padded_toList]
  have hhalf : (tree.len + 1) / 2 = tree.width := by omega
  simp only [fromBytes, assert_of hsize, ok_bind, hnum, hdigests, hhalf,
    ensure_of (isPowerOfTwo_iff.mpr ⟨_, hdouble⟩), ensure_of (show tree.len > 2 by omega)]
  rfl

theorem root_new {leaves : List D.Output} {tree : MerkleTree D}
    (h : (new leaves : Fallible (FileError Err) _) = .ok tree) (htwo : 2 ≤ leaves.length) :
    ∃ digest, (tree.root : Fallible (FileError Err) _) = .ok digest := by
  have hlen := (len_new h).1
  unfold len at hlen
  have hne : tree.digests ≠ [] := List.length_pos_iff.mp (by omega)
  exact ⟨tree.digests.getLast hne, by rw [root, List.getLast?_eq_getLast_of_ne_nil hne]⟩

theorem hashTree_new {leaves : List D.Output} {tree : MerkleTree D}
    (h : (new leaves : Fallible (FileError Err) _) = .ok tree) :
    ∃ k, leaves.length = 2 ^ (k + 1) ∧ tree.width = 2 ^ (k + 1) ∧
      HashTree (k + 1) tree.digests ∧
      ∀ i < leaves.length, tree.digests.getD i D.defaultOutput = leaves.getD i D.defaultOutput := by
  obtain ⟨nodes, k, hk, hnodes, rfl⟩ := new_eq_ok h
  refine ⟨k, hk, hk, hnodes.hashTree hk, ?_⟩
  intro i hi
  exact List.getD_append _ _ _ _ hi

section Paths

variable {tree : MerkleTree D} {k : ℕ}

theorem root_eq (h : HashTree k tree.digests) :
    (tree.root : Fallible (FileError Err) _) = .ok h.levelOrder.root := by
  rw [root, h.getLast?_eq]

theorem getPath_eq (hw : tree.width = 2 ^ k) (h : HashTree k tree.digests) (index : ℕ) :
    (tree.getPath index : Fallible (FileError Err) _) =
      .ok (if index < tree.width then some (h.levelOrder.path index) else none) := by
  unfold getPath
  by_cases hlt : index < tree.width
  · have hlog : log2 tree.width = k := by rw [log2_eq, hw, Nat.clog_pow 2 _ Nat.one_lt_two]
    rw [if_neg (Nat.not_le.mpr hlt), if_pos hlt, hlog, collectPath_eq h (hw ▸ hlt)]
    rfl
  · rw [if_pos (Nat.not_lt.mp hlt), if_neg hlt]

end Paths

/-- A tree that was stored and read back has the same digests, width and root, a path to the root
for each of its leaves, and no other path. -/
theorem tree_survives_storage (hsize : D.outputSize ≠ 0) {leaves : List D.Output}
    (hpow : isPowerOfTwo leaves.length = true) (htwo : 2 ≤ leaves.length) :
    ∃ tree reloaded root, (new leaves : Fallible (FileError Err) _) = .ok tree ∧
      (fromBytes D tree.toBytes : Fallible (FileError Err) _) = .ok reloaded ∧
      reloaded.digests = tree.digests ∧ reloaded.width = tree.width ∧
      tree.width = leaves.length ∧
      (tree.root : Fallible (FileError Err) _) = .ok root ∧
      (reloaded.root : Fallible (FileError Err) _) = .ok root ∧
      ∀ index, (∀ leaf, leaves[index]? = some leaf → ∃ path,
          (reloaded.getPath index : Fallible (FileError Err) _) = .ok (some path) ∧
          path.length = Nat.log 2 tree.width ∧ walkPath leaf index path = root) ∧
        (tree.width ≤ index →
          (reloaded.getPath index : Fallible (FileError Err) _) = .ok none) := by
  obtain ⟨nodes, _, -, -, hnew⟩ := @new_eq Err D leaves hpow htwo
  obtain ⟨k, hk, hw, htree, hleaves⟩ := hashTree_new hnew
  refine ⟨_, _, htree.levelOrder.root, hnew, fromBytes_toBytes hsize hnew, rfl, rfl, rfl,
    root_eq htree, root_eq htree, ?_⟩
  intro index
  constructor
  · intro leaf hleaf
    obtain ⟨hlt, rfl⟩ := List.getElem?_eq_some_iff.mp hleaf
    refine ⟨htree.levelOrder.path index, ?_, ?_, ?_⟩
    · rw [getPath_eq hw htree, if_pos hlt]
    · rw [FoundationMerkleTrees.LevelOrder.length_path, hw, Nat.log_pow Nat.one_lt_two]
    · have hclimb := htree.levelOrder.climb_path (hk ▸ hlt)
      rw [HashTree.levelOrder_table, hleaves index hlt, List.getD_eq_getElem _ _ hlt] at hclimb
      rw [walkPath_eq_climb, hclimb]
  · intro hge
    rw [getPath_eq hw htree, if_neg (Nat.not_lt.mpr hge)]

/-- Four leaves: the second is opened, a fifth is not there. -/
theorem tree_survives_storage_small : ∃ tree reloaded root,
    (new ([#v[1], #v[2], #v[3], #v[4]] : List byteSum.Output) : Fallible (FileError Unit) _) =
      .ok tree ∧
    (fromBytes byteSum tree.toBytes : Fallible (FileError Unit) _) = .ok reloaded ∧
    (reloaded.root : Fallible (FileError Unit) _) = .ok root ∧
    (∃ path, (reloaded.getPath 1 : Fallible (FileError Unit) _) = .ok (some path) ∧
      path.length = 2 ∧ walkPath #v[2] 1 path = root) ∧
    (reloaded.getPath 4 : Fallible (FileError Unit) _) = .ok none := by
  obtain ⟨tree, reloaded, root, hnew, hread, -, -, hwidth, -, hroot, hpaths⟩ :=
    @tree_survives_storage Unit byteSum (by decide) [#v[1], #v[2], #v[3], #v[4]] (by decide)
      (by decide)
  rw [hwidth] at hpaths
  exact ⟨tree, reloaded, root, hnew, hread, hroot, (hpaths 1).1 _ rfl, (hpaths 4).2 (by decide)⟩

end MerkleTree

section Columns

variable [Zero F] [FieldHash F]

def columnLeaves (D : Digest) (n : ℕ) (rows : List (List F)) : List D.Output :=
  (List.range n).map fun c => columnLeaf D (columnOf rows c)

@[simp] theorem length_columnLeaves (n : ℕ) (rows : List (List F)) :
    (columnLeaves D n rows).length = n := by simp [columnLeaves]

def Tracks (acc : ColumnDigestAccumulator D) (n : ℕ) (rows : List (List F)) : Prop :=
  acc.columnsToCareAbout = .all ∧
    acc.columnDigests = (List.range n).map fun c => ⟨columnPreimage D (columnOf rows c)⟩

theorem tracks_new (n : ℕ) : Tracks (.new n .all : ColumnDigestAccumulator D) n
    ([] : List (List F)) := by
  refine ⟨rfl, ?_⟩
  simp only [ColumnDigestAccumulator.new, columnOf, List.map_nil, List.map_const',
    List.length_range, newColumn_eq (F := F)]

theorem Tracks.update {acc : ColumnDigestAccumulator D} {n : ℕ} {rows : List (List F)}
    {row : List F} (h : Tracks acc n rows) (hrow : row.length = n) :
    ∃ acc', (acc.update row : Fallible (FileError Err) _) = .ok acc' ∧
      Tracks acc' n (rows ++ [row]) := by
  obtain ⟨hall, hdigests⟩ := h
  have hlen : row.length = acc.columnDigests.length := by
    rw [hdigests, List.length_map, List.length_range, hrow]
  refine ⟨⟨List.zipWith digestUpdate row acc.columnDigests, .all⟩, ?_, rfl, ?_⟩
  · rw [ColumnDigestAccumulator.update, ensure_of hlen, ok_bind, hall]
    rfl
  · rw [hdigests, zipWith_map_range hrow _ _ 0]
    apply List.map_congr_left
    intro c _
    rw [digestUpdate_columnPreimage, columnOf_concat]

theorem Tracks.getColumnDigests {acc : ColumnDigestAccumulator D} {n : ℕ} {rows : List (List F)}
    (h : Tracks acc n rows) : acc.getColumnDigests = columnLeaves D n rows := by
  rw [ColumnDigestAccumulator.getColumnDigests, h.2, List.map_map]
  rfl

theorem Tracks.finalizeToMerkleTree {acc : ColumnDigestAccumulator D} {n : ℕ}
    {rows : List (List F)} (h : Tracks acc n rows) :
    (acc.finalizeToMerkleTree : Fallible (FileError Err) _) =
      MerkleTree.new (columnLeaves D n rows) := by
  rw [ColumnDigestAccumulator.finalizeToMerkleTree, ensure_of h.1, ok_bind, h.getColumnDigests]

theorem Tracks.finalizeToCommit {acc : ColumnDigestAccumulator D} {n : ℕ} {rows : List (List F)}
    (h : Tracks acc n rows) : (acc.finalizeToCommit : Fallible (FileError Err) _) =
      MerkleTree.new (columnLeaves D n rows) >>= MerkleTree.root := by
  rw [ColumnDigestAccumulator.finalizeToCommit, ensure_of h.1, ok_bind, h.finalizeToMerkleTree]

end Columns

end FileDigests
