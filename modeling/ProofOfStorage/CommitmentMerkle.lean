import ProofOfStorage.FoundationMerkleTrees
import ProofOfStorage.FoundationSlices
import ProofOfStorage.CommitmentTypes

/-! # Column hashes, the Merkle tree and column openings -/
namespace CommitmentMerkle

open FoundationFaults FoundationSlices FoundationMerkleTrees CommitmentTypes

variable {ε F : Type} {D : Digest}

def logMinNcols : ℕ := 5

def nextPowerOfTwo (v : ℕ) : ℕ := 2 ^ Nat.clog 2 v

def isPowerOfTwo (v : ℕ) : Bool := v == nextPowerOfTwo v

def log2 (v : ℕ) : ℕ := Nat.log2 (nextPowerOfTwo v)

def feedRow [FieldHash F] (comm : List F) (positions : List ℕ) (digests : List (Hasher D)) :
    Fallible ε (List (Hasher D)) :=
  (positions.zip digests).mapM fun p => do
    let x ← index comm p.1
    return digestUpdate x p.2

/-- The slice `hashes` is overwritten, so only its length matters. -/
def hashColumns [FieldHash F] (comm : List F) (hashes : List D.Output)
    (nRows nCols offset : ℕ) : Fallible ε (List D.Output) :=
  if _h : hashes.length ≤ 2 ^ logMinNcols then do
    let digests ← (List.range nRows).foldlM
      (fun digests row => feedRow comm
        ((List.range hashes.length).map fun col => row * nCols + offset + col) digests)
      (List.replicate hashes.length Hasher.newColumn)
    return digests.map Hasher.finalize
  else do
    let halfCols := hashes.length / 2
    let lo ← hashColumns comm (hashes.take halfCols) nRows nCols offset
    let hi ← hashColumns comm (hashes.drop halfCols) nRows nCols (offset + halfCols)
    return lo ++ hi
termination_by hashes.length
decreasing_by
  all_goals simp only [List.length_take, List.length_drop, logMinNcols] at _h ⊢; omega

def hashPair (D : Digest) (l r : D.Output) : D.Output :=
  ((Hasher.new.update l.toList).update r.toList : Hasher D).finalize

def merkleLayer (ins outs : List D.Output) : Fallible ε (List D.Output) := do
  assert (ins.length = 2 * outs.length)
  if _h : ins.length ≤ 2 ^ logMinNcols then
    (List.range outs.length).mapM fun idx => do
      let l ← index ins (2 * idx)
      let r ← index ins (2 * idx + 1)
      return hashPair D l r
  else
    let outl ← merkleLayer (ins.take (ins.length / 2)) (outs.take (outs.length / 2))
    let outr ← merkleLayer (ins.drop (ins.length / 2)) (outs.drop (outs.length / 2))
    return outl ++ outr
termination_by ins.length
decreasing_by
  all_goals simp only [List.length_take, List.length_drop, logMinNcols] at _h ⊢; omega

def merkleTree (ins outs : List D.Output) : Fallible ε (List D.Output) := do
  assert (ins.length = outs.length + 1)
  let mid := (outs.length + 1) / 2
  let layer ← merkleLayer ins (outs.take mid)
  if _h : outs.drop mid = [] then
    return layer
  else
    let rest ← merkleTree layer (outs.drop mid)
    return layer ++ rest
termination_by outs.length
decreasing_by
  have hne : outs.drop ((outs.length + 1) / 2) ≠ [] := _h
  have hpos := List.length_pos_iff.mpr hne
  simp only [List.length_drop] at hpos ⊢
  omega

def merkleize [FieldHash F] (comm : LcCommit D F) : Fallible ε (LcCommit D F) := do
  let leaves ← slice comm.hashes 0 comm.nCols
  let leaves ← hashColumns comm.comm leaves comm.nRows comm.nCols 0
  let hashes := leaves ++ comm.hashes.drop comm.nCols
  let lenPlusOne := hashes.length + 1
  assert (isPowerOfTwo lenPlusOne)
  let hin := hashes.take (lenPlusOne / 2)
  let hout ← merkleTree hin (hashes.drop (lenPlusOne / 2))
  return { comm with hashes := hin ++ hout }

/-- `(column & !1) | (!column & 1)`: the lowest bit is cleared and its complement put there. -/
def otherColumn (column : ℕ) : ℕ := (column - column % 2) + (1 - column % 2)

def collectPath : ℕ → List D.Output → ℕ → Fallible ε (List D.Output)
  | 0, _, column => do
    assert (column = 0)
    return []
  | pathLen + 1, hashes, column => do
    let p ← index hashes (otherColumn column)
    let rest ← collectPath pathLen (hashes.drop ((hashes.length + 1) / 2)) (column / 2)
    return p :: rest

def openColumn {Err : Type} (comm : LcCommit D F) (column : ℕ) :
    Fallible (ProverError Err) (LcColumn D F) := do
  ensure (column < comm.nCols) .columnNumber
  let path ← collectPath (log2 comm.nCols) comm.hashes column
  return ⟨stepBy comm.nCols (comm.comm.drop column), path⟩

/-- The walk of the verifiers along a path: the running hash and the remaining column bits. -/
def walkPath (hash : D.Output) (col : ℕ) (path : List D.Output) : D.Output :=
  (path.foldl (fun s p =>
    (if s.2 % 2 = 0 then hashPair D s.1 p else hashPair D p s.1, s.2 / 2)) (hash, col)).1

def verifyColumnPath [FieldHash F] (column : LcColumn D F) (colNum : ℕ) (root : D.Output) :
    Bool :=
  let digest := column.col.foldl (fun h e => digestUpdate e h) Hasher.newColumn
  walkPath digest.finalize colNum column.path == root

def columnPreimage [FieldHash F] (D : Digest) (col : List F) : List UInt8 :=
  D.defaultOutput.toList ++ col.flatMap FieldHash.toHashRepr

def columnLeaf [FieldHash F] (D : Digest) (col : List F) : D.Output :=
  D.hash (columnPreimage D col)

theorem newColumn_eq [FieldHash F] :
    (Hasher.newColumn : Hasher D) = ⟨columnPreimage D ([] : List F)⟩ := by
  simp [Hasher.newColumn, Hasher.new, Hasher.update, columnPreimage]

theorem digestUpdate_columnPreimage [FieldHash F] (x : F) (col : List F) :
    digestUpdate x (⟨columnPreimage D col⟩ : Hasher D) = ⟨columnPreimage D (col ++ [x])⟩ := by
  simp [digestUpdate, Hasher.update, columnPreimage]

theorem fed_foldl_digestUpdate [FieldHash F] (col : List F) (h : Hasher D) :
    (col.foldl (fun h e => digestUpdate e h) h).fed =
      h.fed ++ col.flatMap FieldHash.toHashRepr := by
  induction col generalizing h with
  | nil => simp
  | cons x col ih => simp [ih]

theorem finalize_foldl_newColumn [FieldHash F] (col : List F) :
    (col.foldl (fun h e => digestUpdate e h) (Hasher.newColumn : Hasher D)).finalize =
      columnLeaf D col := by
  unfold Hasher.finalize columnLeaf
  rw [fed_foldl_digestUpdate]
  rfl

theorem columnPreimage_injective [Field F] [PrimeField F] :
    Function.Injective (columnPreimage (F := F) D) := fun _ _ h =>
  flatMap_toHashRepr_injective (List.append_cancel_left h)

theorem range_halves (n : ℕ) :
    List.range n = List.range (n / 2) ++ (List.range (n - n / 2)).map (n / 2 + ·) := by
  rw [← List.range_add, Nat.add_sub_cancel' (Nat.div_le_self n 2)]

section Columns

variable [FieldHash F] [Zero F]

theorem feedRow_eq {comm : List F} {positions : List ℕ} {digests : List (Hasher D)}
    (h : ∀ p ∈ positions, p < comm.length) :
    (feedRow comm positions digests : Fallible ε _) = .ok
      ((positions.zip digests).map fun p => digestUpdate (comm.getD p.1 0) p.2) := by
  apply mapM_of_forall
  intro p hp
  have hlt := h p.1 (List.of_mem_zip hp).1
  rw [index_of_lt hlt, List.getD_eq_getElem _ _ hlt]
  rfl

theorem feedRows_eq {comm : List F} (cs : List ℕ) {nRows nCols : ℕ}
    (h : ∀ r < nRows, ∀ c ∈ cs, r * nCols + c < comm.length) :
    ((List.range nRows).foldlM
      (fun digests row => feedRow comm (cs.map fun c => row * nCols + c) digests)
      (List.replicate cs.length (Hasher.newColumn : Hasher D)) : Fallible ε _) =
      .ok (cs.map fun c => ⟨columnPreimage D (column nCols nRows comm c)⟩) := by
  induction nRows with
  | zero => simp [column, newColumn_eq (F := F)]
  | succ n ih =>
    have hlast : ∀ p ∈ cs.map fun c => n * nCols + c, p < comm.length := by
      intro p hp
      obtain ⟨c, hc, rfl⟩ := List.mem_map.mp hp
      exact h n (by omega) c hc
    rw [List.range_succ, List.foldlM_append, ih fun r hr => h r (by omega)]
    simp only [ok_bind, List.foldlM_cons, List.foldlM_nil, feedRow_eq hlast, List.zip_map',
      List.map_map, pure_eq_ok]
    congr 1
    apply List.map_congr_left
    intro c _
    simp [digestUpdate_columnPreimage, column, List.range_succ]

theorem hashColumns_eq {comm : List F} {hashes : List D.Output} {nRows nCols offset : ℕ}
    (h : ∀ r < nRows, r * nCols + offset + hashes.length ≤ comm.length) :
    (hashColumns comm hashes nRows nCols offset : Fallible ε _) =
      .ok ((List.range hashes.length).map fun col =>
        columnLeaf D (column nCols nRows comm (offset + col))) := by
  induction hn : hashes.length using Nat.strong_induction_on generalizing hashes offset with
  | h n ih =>
    rw [hashColumns]
    by_cases hsmall : hashes.length ≤ 2 ^ logMinNcols
    · rw [dif_pos hsmall]
      have hin : ∀ r < nRows, ∀ c ∈ (List.range hashes.length).map fun col => offset + col,
          r * nCols + c < comm.length := by
        intro r hr c hc
        obtain ⟨col, hcol, rfl⟩ := List.mem_map.mp hc
        have hrow := h r hr
        have hlt := List.mem_range.mp hcol
        omega
      have hfeed := feedRows_eq (ε := ε) (D := D) _ hin
      simp only [List.map_map, List.length_map, List.length_range, Function.comp_def,
        ← Nat.add_assoc] at hfeed
      rw [hfeed, hn]
      simp [columnLeaf, Hasher.finalize]
    · rw [dif_neg hsmall]
      have hbig : 32 < hashes.length := by simpa [logMinNcols] using hsmall
      have hlo := @ih (hashes.length / 2) (by omega) (hashes.take (hashes.length / 2)) offset
        (by intro r hr; have := h r hr; simp only [List.length_take]; omega)
        (by simp only [List.length_take]; omega)
      have hhi := @ih (hashes.length - hashes.length / 2) (by omega)
        (hashes.drop (hashes.length / 2)) (offset + hashes.length / 2)
        (by intro r hr; have := h r hr; simp only [List.length_drop]; omega)
        (by simp only [List.length_drop])
      simp only [hlo, hhi, ok_bind, pure_eq_ok, ← hn]
      conv_rhs => rw [range_halves]
      simp [Function.comp_def, Nat.add_assoc]

end Columns

theorem hashPairs_eq {ins : List D.Output} {n : ℕ} (h : 2 * n ≤ ins.length) :
    ((List.range n).mapM fun idx => do
      return hashPair D (← index ins (2 * idx)) (← index ins (2 * idx + 1)) : Fallible ε _) =
      .ok ((List.range n).map fun j =>
        hashPair D (ins.getD (2 * j) D.defaultOutput) (ins.getD (2 * j + 1) D.defaultOutput)) := by
  apply mapM_of_forall
  intro j hj
  have hj := List.mem_range.mp hj
  rw [index_of_lt (by omega), index_of_lt (by omega), List.getD_eq_getElem _ _ (by omega),
    List.getD_eq_getElem _ _ (by omega)]
  rfl

theorem merkleLayer_eq (ins : List D.Output) {outs : List D.Output} {k : ℕ}
    (hout : outs.length = 2 ^ k)
    (hin : ins.length = 2 * outs.length) :
    (merkleLayer ins outs : Fallible ε _) = .ok ((List.range outs.length).map fun j =>
      hashPair D (ins.getD (2 * j) D.defaultOutput) (ins.getD (2 * j + 1) D.defaultOutput)) := by
  induction k generalizing ins outs with
  | zero =>
    rw [merkleLayer, assert_of hin, ok_bind, dif_pos (by simp [logMinNcols]; omega)]
    exact hashPairs_eq hin.ge
  | succ k ih =>
    have hk : 2 ^ (k + 1) = 2 * 2 ^ k := by ring
    rw [merkleLayer, assert_of hin, ok_bind]
    split
    · exact hashPairs_eq hin.ge
    · have hl := @ih (ins.take (ins.length / 2)) (outs.take (outs.length / 2))
        (by simp only [List.length_take]; omega) (by simp only [List.length_take]; omega)
      have hr := @ih (ins.drop (ins.length / 2)) (outs.drop (outs.length / 2))
        (by simp only [List.length_drop]; omega) (by simp only [List.length_drop]; omega)
      simp only [hl, hr, ok_bind, pure_eq_ok]
      conv_rhs => rw [range_halves]
      simp only [List.map_append, List.map_map, List.length_take, List.length_drop,
        Nat.min_eq_left (Nat.div_le_self _ 2)]
      congr 2
      · apply List.map_congr_left
        intro j hj
        have hj := List.mem_range.mp hj
        simp [List.getElem?_take_of_lt (show 2 * j < ins.length / 2 by omega),
          List.getElem?_take_of_lt (show 2 * j + 1 < ins.length / 2 by omega)]
      · apply List.map_congr_left
        intro j _
        simp only [List.getD_eq_getElem?_getD, List.getElem?_drop, Function.comp_apply,
          show ins.length / 2 + 2 * j = 2 * (outs.length / 2 + j) by omega,
          show ins.length / 2 + (2 * j + 1) = 2 * (outs.length / 2 + j) + 1 by omega]

/-- The inner nodes of a tree with `2 ^ k` leaves: each is the hash of its two children in
the level-order table. -/
structure InnerNodes (k : ℕ) (ins outs : List D.Output) : Prop where
  length_eq : outs.length = 2 ^ k - 1
  parent : ∀ i, i + 1 < 2 ^ k → outs.getD i D.defaultOutput =
    hashPair D ((ins ++ outs).getD (2 * i) D.defaultOutput)
      ((ins ++ outs).getD (2 * i + 1) D.defaultOutput)

theorem InnerNodes.cons {k : ℕ} {ins layer rest : List D.Output}
    (hin : ins.length = 2 ^ (k + 1)) (hlayer : layer.length = 2 ^ k)
    (hnode : ∀ j < 2 ^ k, layer.getD j D.defaultOutput =
      hashPair D (ins.getD (2 * j) D.defaultOutput) (ins.getD (2 * j + 1) D.defaultOutput))
    (hrest : InnerNodes k layer rest) : InnerNodes (k + 1) ins (layer ++ rest) := by
  have hk : 2 ^ (k + 1) = 2 * 2 ^ k := by ring
  have hlen := hrest.length_eq
  refine ⟨by rw [List.length_append]; omega, ?_⟩
  intro i hi
  rcases Nat.lt_or_ge i (2 ^ k) with hlow | hhigh
  · rw [List.getD_append _ _ _ _ (by omega), List.getD_append _ _ _ _ (by omega),
      List.getD_append _ _ _ _ (by omega), hnode i hlow]
  · obtain ⟨j, rfl⟩ := Nat.exists_eq_add_of_le hhigh
    have habove : ∀ i, (ins ++ (layer ++ rest)).getD (2 ^ (k + 1) + i) D.defaultOutput =
        (layer ++ rest).getD i D.defaultOutput := by
      intro i
      rw [List.getD_append_right _ _ _ _ (by omega), hin, Nat.add_sub_cancel_left]
    rw [List.getD_append_right layer _ _ _ (by omega), hlayer, Nat.add_sub_cancel_left,
      show 2 * (2 ^ k + j) = 2 ^ (k + 1) + 2 * j by omega, Nat.add_assoc, habove, habove]
    exact hrest.parent j (by omega)

theorem merkleTree_eq {ins : List D.Output} (outs : List D.Output) {k : ℕ}
    (hin : ins.length = 2 ^ (k + 1))
    (hout : outs.length = 2 ^ (k + 1) - 1) :
    ∃ nodes, (merkleTree ins outs : Fallible ε _) = .ok nodes ∧ InnerNodes (k + 1) ins nodes := by
  induction k generalizing ins outs with
  | zero =>
    have hmid : (outs.length + 1) / 2 = 1 := by omega
    have hone : (outs.take 1).length = 1 := by simp only [List.length_take]; omega
    have hlayer := merkleLayer_eq (ε := ε) (k := 0) ins hone (by omega)
    have hdrop : outs.drop 1 = [] := List.drop_eq_nil_of_le (by omega)
    rw [merkleTree, assert_of (by omega), ok_bind]
    simp only [hmid, hlayer, ok_bind, hdrop, ↓reduceDIte, pure_eq_ok, hone]
    refine ⟨_, rfl, ?_⟩
    have hnil : InnerNodes 0 (D := D) ((List.range 1).map fun j => hashPair D
        (ins.getD (2 * j) D.defaultOutput) (ins.getD (2 * j + 1) D.defaultOutput)) [] :=
      ⟨rfl, fun i hi => by simp at hi⟩
    have h := InnerNodes.cons hin (by simp) (fun j hj => by
      have h0 : j = 0 := by simpa using hj
      subst h0
      simp) hnil
    rwa [List.append_nil] at h
  | succ k ih =>
    have hk : 2 ^ (k + 2) = 2 * 2 ^ (k + 1) := by ring
    have hpos : 2 ≤ 2 ^ (k + 1) := Nat.le_self_pow (by omega) 2
    have hmid : (outs.length + 1) / 2 = 2 ^ (k + 1) := by omega
    have htake : (outs.take (2 ^ (k + 1))).length = 2 ^ (k + 1) := by
      simp only [List.length_take]; omega
    have hlayer := merkleLayer_eq (ε := ε) (k := k + 1) ins htake (by omega)
    have hdrop : outs.drop (2 ^ (k + 1)) ≠ [] := by
      apply List.length_pos_iff.mp
      simp only [List.length_drop]
      omega
    rw [merkleTree, assert_of (by omega), ok_bind]
    simp only [hmid, hlayer, ok_bind, hdrop, ↓reduceDIte, pure_eq_ok, htake]
    obtain ⟨rest, hrun, hrest⟩ := @ih ((List.range (2 ^ (k + 1))).map fun j => hashPair D
        (ins.getD (2 * j) D.defaultOutput) (ins.getD (2 * j + 1) D.defaultOutput))
      (outs.drop (2 ^ (k + 1))) (by simp) (by simp only [List.length_drop]; omega)
    refine ⟨_, by rw [hrun, ok_bind], InnerNodes.cons hin (by simp) (fun j hj => ?_) hrest⟩
    simp [hj]

/-- The digest vector of a commitment: a hash tree with `2 ^ k` leaves in level order. -/
structure HashTree (k : ℕ) (hashes : List D.Output) : Prop where
  length_eq : hashes.length + 1 = 2 ^ (k + 1)
  parent : ∀ i, i + 1 < 2 ^ k → hashes.getD (2 ^ k + i) D.defaultOutput =
    hashPair D (hashes.getD (2 * i) D.defaultOutput) (hashes.getD (2 * i + 1) D.defaultOutput)

def HashTree.levelOrder {k : ℕ} {hashes : List D.Output} (h : HashTree k hashes) :
    LevelOrder (hashPair D) k := ⟨fun i => hashes.getD i D.defaultOutput, h.parent⟩

@[simp] theorem HashTree.levelOrder_table {k : ℕ} {hashes : List D.Output}
    (h : HashTree k hashes) (i : ℕ) :
    h.levelOrder.table i = hashes.getD i D.defaultOutput := rfl

theorem InnerNodes.hashTree {k : ℕ} {ins outs : List D.Output} (hin : ins.length = 2 ^ k)
    (h : InnerNodes k ins outs) : HashTree k (ins ++ outs) := by
  have hk : 2 ^ (k + 1) = 2 * 2 ^ k := by ring
  have hpos : 0 < 2 ^ k := Nat.two_pow_pos k
  refine ⟨by rw [List.length_append, h.length_eq]; omega, ?_⟩
  intro i hi
  rw [List.getD_append_right _ _ _ _ (by omega), hin, Nat.add_sub_cancel_left]
  exact h.parent i hi

theorem HashTree.unique {k : ℕ} {hashes hashes' : List D.Output} (h : HashTree k hashes)
    (h' : HashTree k hashes') (hleaves : ∀ i < 2 ^ k,
      hashes.getD i D.defaultOutput = hashes'.getD i D.defaultOutput) : hashes = hashes' := by
  have hlen := h.length_eq
  have hlen' := h'.length_eq
  have hdouble : 2 ^ (k + 1) = 2 * 2 ^ k := by ring
  have hall : ∀ i < hashes.length,
      hashes.getD i D.defaultOutput = hashes'.getD i D.defaultOutput := by
    intro i
    induction i using Nat.strong_induction_on with
    | _ i ih =>
      intro hi
      rcases Nat.lt_or_ge i (2 ^ k) with hleaf | hinner
      · exact hleaves i hleaf
      · -- an inner node is below its children in the table
        obtain ⟨j, rfl⟩ := Nat.exists_eq_add_of_le hinner
        rw [h.parent j (by omega), h'.parent j (by omega), ih (2 * j) (by omega) (by omega),
          ih (2 * j + 1) (by omega) (by omega)]
  apply List.ext_getElem (by omega)
  intro i hi hi'
  rw [← List.getD_eq_getElem _ D.defaultOutput hi, ← List.getD_eq_getElem _ D.defaultOutput hi']
  exact hall i hi

theorem HashTree.upper {k : ℕ} {hashes : List D.Output} (h : HashTree (k + 1) hashes) :
    HashTree k (hashes.drop (2 ^ (k + 1))) := by
  have hk : 2 ^ (k + 2) = 2 ^ (k + 1) + 2 ^ (k + 1) := by ring
  have hlen := h.length_eq
  refine ⟨by rw [List.length_drop]; omega, ?_⟩
  intro i hi
  have hp := h.levelOrder.upper.parent i hi
  simpa only [LevelOrder.upper_table, HashTree.levelOrder_table, List.getD_eq_getElem?_getD,
    List.getElem?_drop] using hp

theorem HashTree.getLast?_eq {k : ℕ} {hashes : List D.Output} (h : HashTree k hashes) :
    hashes.getLast? = some h.levelOrder.root := by
  have hlen := h.length_eq
  have hpos : 2 ≤ 2 ^ (k + 1) := Nat.le_self_pow (by omega) 2
  have hlast : hashes.length - 1 < hashes.length := by omega
  rw [List.getLast?_eq_getElem?, List.getElem?_eq_getElem hlast, LevelOrder.root,
    HashTree.levelOrder_table, ← List.getD_eq_getElem _ D.defaultOutput hlast]
  congr 2
  omega

theorem otherColumn_eq_sibling (column : ℕ) : otherColumn column = sibling column := by
  unfold otherColumn sibling
  split <;> omega

theorem collectPath_eq {k : ℕ} {hashes : List D.Output} (h : HashTree k hashes) {column : ℕ}
    (hc : column < 2 ^ k) :
    (collectPath k hashes column : Fallible ε _) = .ok (h.levelOrder.path column) := by
  induction k generalizing hashes column with
  | zero =>
    have h0 : column = 0 := by simpa using hc
    rw [collectPath, assert_of h0]
    rfl
  | succ k ih =>
    have hk : 2 ^ (k + 1) = 2 * 2 ^ k := by ring
    have hk' : 2 ^ (k + 2) = 2 ^ (k + 1) + 2 ^ (k + 1) := by ring
    have hlen := h.length_eq
    have hother : otherColumn column < hashes.length := by
      rw [otherColumn]
      omega
    have hhalf : (hashes.length + 1) / 2 = 2 ^ (k + 1) := by omega
    rw [collectPath, index_of_lt hother, ok_bind, hhalf, ih h.upper (by omega), ok_bind,
      LevelOrder.path, HashTree.levelOrder_table, ← otherColumn_eq_sibling,
      List.getD_eq_getElem _ _ hother]
    congr 2
    unfold HashTree.levelOrder LevelOrder.upper
    congr 1
    simp [List.getD_eq_getElem?_getD]

theorem walkPath_eq_climb (hash : D.Output) (col : ℕ) (path : List D.Output) :
    walkPath hash col path = climb (hashPair D) hash col path := by
  unfold walkPath
  induction path generalizing hash col with
  | nil => rfl
  | cons p path ih => rw [List.foldl_cons, climb, ih]

theorem verifyColumnPath_iff [FieldHash F] {column : LcColumn D F} {colNum : ℕ}
    {root : D.Output} : verifyColumnPath column colNum root = true ↔
      climb (hashPair D) (columnLeaf D column.col) colNum column.path = root := by
  simp only [verifyColumnPath, finalize_foldl_newColumn, walkPath_eq_climb, beq_iff_eq]

@[simp] theorem log2_eq (v : ℕ) : log2 v = Nat.clog 2 v := by
  rw [log2, nextPowerOfTwo, Nat.log2_two_pow]

theorem le_nextPowerOfTwo (v : ℕ) : v ≤ nextPowerOfTwo v := Nat.le_pow_clog (by decide) v

theorem nextPowerOfTwo_two_pow (k : ℕ) : nextPowerOfTwo (2 ^ k) = 2 ^ k := by
  rw [nextPowerOfTwo, Nat.clog_pow 2 k (by decide)]

structure Merkleized [FieldHash F] [Zero F] (comm : LcCommit D F) : Prop where
  tree : HashTree (Nat.clog 2 comm.nCols) comm.hashes
  leaf : ∀ c < comm.nCols, comm.hashes.getD c D.defaultOutput =
    columnLeaf D (column comm.nCols comm.nRows comm.comm c)

section Merkleize

variable [FieldHash F] [Zero F]

theorem Merkleized.take_hashes {comm : LcCommit D F} (h : Merkleized comm) :
    comm.hashes.take comm.nCols = (List.range comm.nCols).map fun c =>
      columnLeaf D (column comm.nCols comm.nRows comm.comm c) := by
  have hle := le_nextPowerOfTwo comm.nCols
  have hsize := h.tree.length_eq
  have hdouble : 2 ^ (Nat.clog 2 comm.nCols + 1) = 2 * 2 ^ Nat.clog 2 comm.nCols := by ring
  rw [nextPowerOfTwo] at hle
  apply List.ext_getElem
  · rw [List.length_take, List.length_map, List.length_range]
    omega
  · intro c hc hc'
    have hlen : c < comm.hashes.length := by
      rw [List.length_take] at hc
      omega
    rw [List.length_map, List.length_range] at hc'
    have hleaf := h.leaf c hc'
    rw [List.getD_eq_getElem _ _ hlen] at hleaf
    rw [List.getElem_take, hleaf, List.getElem_map, List.getElem_range]

theorem Merkleized.getElem?_hashes {comm : LcCommit D F} (h : Merkleized comm) {c : ℕ}
    (hc : c < comm.nCols) :
    comm.hashes[c]? = some (columnLeaf D (column comm.nCols comm.nRows comm.comm c)) := by
  rw [← List.getElem?_take_of_lt hc, h.take_hashes, List.getElem?_map, List.getElem?_range hc,
    Option.map_some]

theorem hashLeaves_eq {comm : LcCommit D F}
    (hcomm : comm.comm.length = comm.nRows * comm.nCols)
    (hhashes : comm.nCols ≤ comm.hashes.length) :
    (hashColumns comm.comm (comm.hashes.take comm.nCols) comm.nRows comm.nCols 0 : Fallible ε _) =
      .ok ((List.range comm.nCols).map fun c =>
        columnLeaf D (column comm.nCols comm.nRows comm.comm c)) := by
  have htake : (comm.hashes.take comm.nCols).length = comm.nCols := by
    rw [List.length_take]
    omega
  rw [hashColumns_eq, htake]
  · simp only [Nat.zero_add]
  · intro r hr
    have hrow := Nat.mul_le_mul_right comm.nCols (show r + 1 ≤ comm.nRows by omega)
    rw [Nat.add_mul] at hrow
    rw [hcomm, htake, Nat.add_zero]
    omega

/-- Hashing needs at least two columns: with one, the tree has no inner layer to fill. -/
theorem merkleize_eq (comm : LcCommit D F) (hcols : 2 ≤ comm.nCols)
    (hcomm : comm.comm.length = comm.nRows * comm.nCols)
    (hhashes : comm.hashes.length = 2 * nextPowerOfTwo comm.nCols - 1) :
    ∃ hashes, (merkleize comm : Fallible ε _) = .ok { comm with hashes } ∧
      Merkleized { comm with hashes } := by
  obtain ⟨k, hk⟩ : ∃ k, Nat.clog 2 comm.nCols = k + 1 :=
    Nat.exists_eq_succ_of_ne_zero (Nat.clog_pos (by decide) hcols).ne'
  have hpow : nextPowerOfTwo comm.nCols = 2 ^ (k + 1) := by rw [nextPowerOfTwo, hk]
  have hle := le_nextPowerOfTwo comm.nCols
  have hdouble : 2 ^ (k + 2) = 2 * 2 ^ (k + 1) := by ring
  have hlen : comm.hashes.length + 1 = 2 ^ (k + 2) := by omega
  have hslice : (slice comm.hashes 0 comm.nCols : Fallible ε _) =
      .ok (comm.hashes.take comm.nCols) := slice_eq_ok.mpr ⟨by omega, by omega, by simp⟩
  have hleaves := hashLeaves_eq (ε := ε) hcomm (by omega)
  set leaves := (List.range comm.nCols).map fun c =>
    columnLeaf D (column comm.nCols comm.nRows comm.comm c) with hleavesdef
  set hashes := leaves ++ comm.hashes.drop comm.nCols with hhashesdef
  have hlenHashes : hashes.length = comm.hashes.length := by
    simp only [hhashesdef, hleavesdef, List.length_append, List.length_map, List.length_range,
      List.length_drop]
    omega
  have hmid : (hashes.length + 1) / 2 = 2 ^ (k + 1) := by omega
  have hins : (hashes.take (2 ^ (k + 1))).length = 2 ^ (k + 1) := by
    rw [List.length_take]
    omega
  obtain ⟨nodes, hrun, hnodes⟩ := merkleTree_eq (ε := ε) (hashes.drop (2 ^ (k + 1))) hins
    (by rw [List.length_drop]; omega)
  have hpow2 : isPowerOfTwo (hashes.length + 1) = true := by
    rw [isPowerOfTwo, hlenHashes, hlen, nextPowerOfTwo_two_pow, beq_self_eq_true]
  refine ⟨hashes.take (2 ^ (k + 1)) ++ nodes, ?_, ?_, ?_⟩
  · simp only [merkleize, hslice, hleaves, ok_bind, ← hhashesdef, hmid,
      assert_of hpow2, hrun, pure_eq_ok]
  · show HashTree (Nat.clog 2 comm.nCols) _
    rw [hk]
    exact hnodes.hashTree hins
  · intro c hc
    have hc : c < comm.nCols := hc
    have hlt : c < (hashes.take (2 ^ (k + 1))).length := by omega
    have hleaf : c < leaves.length := by simpa [hleavesdef] using hc
    show (hashes.take (2 ^ (k + 1)) ++ nodes).getD c _ = _
    rw [List.getD_append _ _ _ _ hlt, List.getD_eq_getElem _ _ hlt, List.getElem_take,
      List.getElem_append_left hleaf]
    simp [hleavesdef]

theorem merkleize_two_le {comm comm' : LcCommit D F}
    (hcomm : comm.comm.length = comm.nRows * comm.nCols)
    (hhashes : comm.hashes.length = 2 * nextPowerOfTwo comm.nCols - 1)
    (h : (merkleize comm : Fallible ε _) = .ok comm') : 2 ≤ comm.nCols := by
  by_contra hsmall
  have hone : Nat.clog 2 comm.nCols = 0 := Nat.clog_of_right_le_one (by omega) 2
  have hlen : comm.hashes.length = 1 := by rw [hhashes, nextPowerOfTwo, hone]; rfl
  have hslice : (slice comm.hashes 0 comm.nCols : Fallible ε _) =
      .ok (comm.hashes.take comm.nCols) := slice_eq_ok.mpr ⟨by omega, by omega, by simp⟩
  have hleaves := hashLeaves_eq (ε := ε) hcomm (by omega)
  unfold merkleize at h
  rw [hslice, ok_bind, hleaves, ok_bind] at h
  obtain ⟨_, -, h⟩ := bind_eq_ok.mp h
  obtain ⟨nodes, htree, -⟩ := bind_eq_ok.mp h
  -- One leaf is hashed into an empty layer, which the layer's length check refuses.
  unfold merkleTree at htree
  obtain ⟨_, hlens, htree⟩ := bind_eq_ok.mp htree
  obtain ⟨layer, hlayer, -⟩ := bind_eq_ok.mp htree
  unfold merkleLayer at hlayer
  obtain ⟨_, hassert, -⟩ := bind_eq_ok.mp hlayer
  simp only [assert_eq_ok, List.length_take, List.length_drop, List.length_append,
    List.length_map, List.length_range] at hassert hlens
  omega

theorem merkleize_eq_ok {comm comm' : LcCommit D F}
    (hcomm : comm.comm.length = comm.nRows * comm.nCols)
    (hhashes : comm.hashes.length = 2 * nextPowerOfTwo comm.nCols - 1)
    (h : (merkleize comm : Fallible ε _) = .ok comm') :
    2 ≤ comm.nCols ∧ ∃ hashes, comm' = { comm with hashes } ∧ Merkleized comm' := by
  have hcols := merkleize_two_le hcomm hhashes h
  obtain ⟨hashes, hrun, htree⟩ := merkleize_eq (ε := ε) comm hcols hcomm hhashes
  rw [hrun] at h
  cases h
  exact ⟨hcols, hashes, rfl, htree⟩

theorem openColumn_eq {Err : Type} {comm : LcCommit D F} (h : Merkleized comm)
    (hcomm : comm.comm.length = comm.nRows * comm.nCols) {c : ℕ} (hc : c < comm.nCols) :
    (openColumn comm c : Fallible (ProverError Err) _) = .ok
      ⟨column comm.nCols comm.nRows comm.comm c, h.tree.levelOrder.path c⟩ := by
  have hlt : c < 2 ^ Nat.clog 2 comm.nCols := lt_of_lt_of_le hc (le_nextPowerOfTwo comm.nCols)
  rw [openColumn, ensure_of hc, ok_bind, log2_eq, collectPath_eq h.tree hlt, ok_bind,
    stepBy_drop hcomm hc]
  rfl

theorem Merkleized.verify_opening {comm : LcCommit D F} (h : Merkleized comm) {c : ℕ}
    (hc : c < comm.nCols) :
    verifyColumnPath ⟨column comm.nCols comm.nRows comm.comm c, h.tree.levelOrder.path c⟩ c
      h.tree.levelOrder.root = true := by
  have hlt : c < 2 ^ Nat.clog 2 comm.nCols := lt_of_lt_of_le hc (le_nextPowerOfTwo comm.nCols)
  rw [verifyColumnPath_iff, ← h.leaf c hc]
  exact h.tree.levelOrder.climb_path hlt

end Merkleize

end CommitmentMerkle
