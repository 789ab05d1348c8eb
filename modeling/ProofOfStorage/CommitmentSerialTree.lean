import ProofOfStorage.CommitmentMerkle

/-! # The layout of the digest vector, and the serial hasher

Behind the column digests of a width that is no power of two the leaves keep the default digest.
The serial hasher of the tests fills the same vector layer by layer.
-/
namespace CommitmentSerialTree

open FoundationFaults FoundationSlices CommitmentTypes CommitmentMerkle

variable {ε F : Type} {D : Digest}

/-- The loop over the layers. Every round shortens what is left, so its length bounds the
rounds. -/
def serialLayers : ℕ → List D.Output → List D.Output → Fallible ε (List D.Output)
  | 0, _, outs => .ok outs
  | rounds + 1, ins, outs =>
    if outs.isEmpty then .ok outs
    else do
      let layer ← (List.range (ins.length / 2)).mapM fun idx => do
        let l ← index ins (2 * idx)
        let r ← index ins (2 * idx + 1)
        assert (idx < outs.length)
        return hashPair D l r
      let outs := layer ++ outs.drop layer.length
      let mid := (outs.length + 1) / 2
      let rest ← serialLayers rounds (outs.take mid) (outs.drop mid)
      return outs.take mid ++ rest

def merkleizeSer [FieldHash F] (comm : LcCommit D F) : Fallible ε (LcCommit D F) := do
  let leaves ← (List.range (min comm.nCols comm.hashes.length)).mapM fun col => do
    let digest ← (List.range comm.nRows).foldlM (fun digest row => do
      let x ← index comm.comm (row * comm.nCols + col)
      return digestUpdate x digest) (Hasher.newColumn : Hasher D)
    return digest.finalize
  let hashes := leaves ++ comm.hashes.drop leaves.length
  assert (comm.nCols ≤ hashes.length)
  let ins := hashes.take comm.nCols
  let outs := hashes.drop comm.nCols
  let outs ← serialLayers outs.length ins outs
  return { comm with hashes := ins ++ outs }

theorem serialLayers_eq {k rounds : ℕ} {ins outs : List D.Output} (hin : ins.length = 2 ^ k)
    (hout : outs.length = 2 ^ k - 1) (hrounds : k ≤ rounds) :
    ∃ nodes, (serialLayers rounds ins outs : Fallible ε _) = .ok nodes ∧
      InnerNodes k ins nodes := by
  induction k generalizing rounds ins outs with
  | zero =>
    obtain rfl : outs = [] := List.eq_nil_of_length_eq_zero hout
    have hnil : InnerNodes 0 ins ([] : List D.Output) := ⟨rfl, fun i hi => by simp at hi⟩
    cases rounds with
    | zero => exact ⟨[], rfl, hnil⟩
    | succ rounds => exact ⟨[], rfl, hnil⟩
  | succ k ih =>
    have hk : 2 ^ (k + 1) = 2 * 2 ^ k := by ring
    have hpos : 0 < 2 ^ k := Nat.two_pow_pos k
    obtain ⟨rounds, rfl⟩ := Nat.exists_eq_add_of_le' (Nat.one_le_of_lt hrounds)
    have hhalf : ins.length / 2 = 2 ^ k := by omega
    have hempty : outs.isEmpty = false := by
      cases outs with
      | nil =>
        rw [List.length_nil] at hout
        omega
      | cons x outs => rfl
    set layer := (List.range (2 ^ k)).map fun j => hashPair D
      (ins.getD (2 * j) D.defaultOutput) (ins.getD (2 * j + 1) D.defaultOutput) with hlayerdef
    have hlayerlen : layer.length = 2 ^ k := by simp [hlayerdef]
    have hlayer : ((List.range (2 ^ k)).mapM fun idx => do
        let l ← index ins (2 * idx)
        let r ← index ins (2 * idx + 1)
        assert (idx < outs.length)
        return hashPair D l r : Fallible ε _) = .ok layer := by
      apply mapM_of_forall
      intro j hj
      have hj := List.mem_range.mp hj
      rw [index_of_lt (by omega), index_of_lt (by omega), List.getD_eq_getElem _ _ (by omega),
        List.getD_eq_getElem _ _ (by omega), ok_bind, ok_bind, assert_of (by omega)]
      rfl
    have hnode : ∀ j < 2 ^ k, layer.getD j D.defaultOutput = hashPair D
        (ins.getD (2 * j) D.defaultOutput) (ins.getD (2 * j + 1) D.defaultOutput) := by
      intro j hj
      simp [hlayerdef, hj]
    have hmid : ((layer ++ outs.drop layer.length).length + 1) / 2 = layer.length := by
      rw [List.length_append, List.length_drop, hlayerlen, hout]
      omega
    obtain ⟨rest, hrun, hrest⟩ := @ih rounds layer (outs.drop layer.length) hlayerlen
      (by rw [List.length_drop, hout, hlayerlen]; omega) (by omega)
    refine ⟨layer ++ rest, ?_, InnerNodes.cons hin hlayerlen hnode hrest⟩
    rw [serialLayers, hempty, if_neg (by decide), hhalf, hlayer, ok_bind]
    simp only [hmid, List.take_left, List.drop_left, hrun, ok_bind, pure_eq_ok]

section Layout

variable [FieldHash F] [Zero F]

/-- Hashing replaces the column digests; the other leaves are as they were. -/
theorem merkleize_leaf_beyond {comm comm' : LcCommit D F}
    (hcomm : comm.comm.length = comm.nRows * comm.nCols)
    (hhashes : comm.hashes.length = 2 * nextPowerOfTwo comm.nCols - 1)
    (h : (merkleize comm : Fallible ε _) = .ok comm') {c : ℕ} (hc : comm.nCols ≤ c)
    (hlt : c < nextPowerOfTwo comm.nCols) : comm'.hashes[c]? = comm.hashes[c]? := by
  have hle := le_nextPowerOfTwo comm.nCols
  have hleaves := hashLeaves_eq (ε := ε) hcomm (by omega)
  have hslice : (slice comm.hashes 0 comm.nCols : Fallible ε _) =
      .ok (comm.hashes.take comm.nCols) := slice_eq_ok.mpr ⟨by omega, by omega, by simp⟩
  unfold merkleize at h
  rw [hslice, ok_bind, hleaves, ok_bind] at h
  obtain ⟨_, -, h⟩ := bind_eq_ok.mp h
  obtain ⟨nodes, -, h⟩ := bind_eq_ok.mp h
  obtain rfl := Except.ok.inj h
  set leaves := (List.range comm.nCols).map fun c =>
    columnLeaf D (column comm.nCols comm.nRows comm.comm c) with hleavesdef
  have hlen : leaves.length = comm.nCols := by simp [hleavesdef]
  have hsize : (leaves ++ comm.hashes.drop comm.nCols).length = comm.hashes.length := by
    rw [List.length_append, List.length_drop, hlen]
    omega
  have hmid : (comm.hashes.length + 1) / 2 = nextPowerOfTwo comm.nCols := by omega
  have hin : ((leaves ++ comm.hashes.drop comm.nCols).take (nextPowerOfTwo comm.nCols)).length =
      nextPowerOfTwo comm.nCols := by
    rw [List.length_take, hsize]
    omega
  show (((leaves ++ comm.hashes.drop comm.nCols).take
    (((leaves ++ comm.hashes.drop comm.nCols).length + 1) / 2)) ++ nodes)[c]? = _
  rw [hsize, hmid, List.getElem?_append_left (by rw [hin]; exact hlt),
    List.getElem?_take_of_lt hlt, List.getElem?_append_right (by omega), List.getElem?_drop, hlen]
  congr 1
  omega

theorem serialColumn_eq {comm : LcCommit D F} (hcomm : comm.comm.length = comm.nRows * comm.nCols)
    {col n : ℕ} (hcol : col < comm.nCols) (hn : n ≤ comm.nRows) :
    ((List.range n).foldlM (fun digest row => do
      let x ← index comm.comm (row * comm.nCols + col)
      return digestUpdate x digest) (Hasher.newColumn : Hasher D) : Fallible ε _) =
      .ok ⟨columnPreimage D (column comm.nCols n comm.comm col)⟩ := by
  induction n with
  | zero => simp [column, newColumn_eq (F := F)]
  | succ n ih =>
    have hin : n * comm.nCols + col < comm.comm.length := by
      rw [hcomm]
      exact flat_lt hn hcol
    rw [List.range_succ, List.foldlM_append, ih (by omega), ok_bind, List.foldlM_cons,
      index_of_lt hin, ok_bind]
    simp [digestUpdate_columnPreimage, column, List.range_succ, hin]

theorem serialLeaves_eq {comm : LcCommit D F}
    (hcomm : comm.comm.length = comm.nRows * comm.nCols) :
    ((List.range comm.nCols).mapM fun col => do
      let digest ← (List.range comm.nRows).foldlM (fun digest row => do
        let x ← index comm.comm (row * comm.nCols + col)
        return digestUpdate x digest) (Hasher.newColumn : Hasher D)
      return digest.finalize : Fallible ε _) =
      .ok ((List.range comm.nCols).map fun c =>
        columnLeaf D (column comm.nCols comm.nRows comm.comm c)) := by
  apply mapM_of_forall
  intro col hcol
  rw [serialColumn_eq hcomm (List.mem_range.mp hcol) le_rfl]
  rfl

theorem merkleizeSer_eq {comm : LcCommit D F} {k : ℕ} (hcols : comm.nCols = 2 ^ k)
    (hcomm : comm.comm.length = comm.nRows * comm.nCols)
    (hhashes : comm.hashes.length = 2 * nextPowerOfTwo comm.nCols - 1) :
    ∃ hashes, (merkleizeSer comm : Fallible ε _) = .ok { comm with hashes } ∧
      Merkleized { comm with hashes } := by
  have hpos : 0 < 2 ^ k := Nat.two_pow_pos k
  have hpow : nextPowerOfTwo comm.nCols = 2 ^ k := by rw [hcols, nextPowerOfTwo_two_pow]
  have hclog : Nat.clog 2 comm.nCols = k := by rw [hcols, Nat.clog_pow 2 k (by decide)]
  have hmin : min comm.nCols comm.hashes.length = comm.nCols := by omega
  set leaves := (List.range comm.nCols).map fun c =>
    columnLeaf D (column comm.nCols comm.nRows comm.comm c) with hleavesdef
  have hlen : leaves.length = 2 ^ k := by simp [hleavesdef, hcols]
  have hlong : leaves.length = comm.nCols := hlen.trans hcols.symm
  have hfits : comm.nCols ≤ (leaves ++ comm.hashes.drop comm.nCols).length := by
    rw [List.length_append, hlong]
    omega
  have hrest : (comm.hashes.drop comm.nCols).length = 2 ^ k - 1 := by
    rw [List.length_drop]
    omega
  have hlt : k < 2 ^ k := Nat.lt_two_pow_self
  obtain ⟨nodes, hrun, hnodes⟩ := serialLayers_eq (ε := ε) hlen hrest (show k ≤ 2 ^ k - 1 by omega)
  refine ⟨leaves ++ nodes, ?_, ?_, ?_⟩
  · unfold merkleizeSer
    rw [hmin, serialLeaves_eq hcomm, ← hleavesdef, ok_bind, hlong]
    simp only [assert_of hfits, ok_bind, List.take_left' hlong, List.drop_left' hlong, hrest, hrun,
      pure_eq_ok]
  · show HashTree (Nat.clog 2 comm.nCols) (leaves ++ nodes)
    rw [hclog]
    exact hnodes.hashTree hlen
  · intro c hc
    have hleaf : c < leaves.length := by
      rw [hlong]
      exact hc
    show (leaves ++ nodes).getD c D.defaultOutput = _
    rw [List.getD_append _ _ _ _ hleaf, List.getD_eq_getElem _ _ hleaf]
    simp [hleavesdef]

/-- What `merkleize` leaves in a fresh digest vector: the column digests, default digests up to
the width of the tree, and above them each node over its two children. For a full width the serial
hasher leaves the same. -/
theorem merkleize_layout {comm : LcCommit D F} (hcols : 2 ≤ comm.nCols)
    (hcomm : comm.comm.length = comm.nRows * comm.nCols)
    (hhashes : comm.hashes = .replicate (2 * nextPowerOfTwo comm.nCols - 1) D.defaultOutput) :
    ∃ hashes, (merkleize comm : Fallible ε _) = .ok { comm with hashes } ∧
      hashes.length = 2 * nextPowerOfTwo comm.nCols - 1 ∧
      (∀ c < comm.nCols, hashes[c]? =
        some (columnLeaf D (column comm.nCols comm.nRows comm.comm c))) ∧
      (∀ c < nextPowerOfTwo comm.nCols, comm.nCols ≤ c → hashes[c]? = some D.defaultOutput) ∧
      (∀ i, i + 1 < nextPowerOfTwo comm.nCols → ∃ l r, hashes[2 * i]? = some l ∧
        hashes[2 * i + 1]? = some r ∧
        hashes[nextPowerOfTwo comm.nCols + i]? = some (hashPair D l r)) ∧
      (isPowerOfTwo comm.nCols = true →
        (merkleizeSer comm : Fallible ε _) = .ok { comm with hashes }) := by
  have hsize : comm.hashes.length = 2 * nextPowerOfTwo comm.nCols - 1 := by
    rw [hhashes, List.length_replicate]
  obtain ⟨hashes, hrun, hmerkle⟩ := merkleize_eq (ε := ε) comm hcols hcomm hsize
  have hle := le_nextPowerOfTwo comm.nCols
  have hlen : hashes.length + 1 = 2 * nextPowerOfTwo comm.nCols := by
    rw [nextPowerOfTwo, ← pow_succ']
    exact hmerkle.tree.length_eq
  have hget : ∀ i < hashes.length, hashes[i]? = some (hashes.getD i D.defaultOutput) := by
    intro i hi
    rw [List.getD_eq_getElem _ _ hi, List.getElem?_eq_getElem hi]
  refine ⟨hashes, hrun, by omega, ?_, ?_, ?_, ?_⟩
  · intro c hc
    have hleaf : hashes.getD c D.defaultOutput = _ := hmerkle.leaf c hc
    rw [hget c (by omega), hleaf]
  · intro c hlt hc
    have hbeyond : hashes[c]? = comm.hashes[c]? := merkleize_leaf_beyond hcomm hsize hrun hc hlt
    rw [hbeyond, hhashes, List.getElem?_replicate, if_pos (by omega)]
  · intro i hi
    have hparent : hashes.getD (nextPowerOfTwo comm.nCols + i) D.defaultOutput = _ :=
      hmerkle.tree.parent i hi
    refine ⟨_, _, hget _ (by omega), hget _ (by omega), ?_⟩
    rw [hget _ (by omega), hparent]
  · intro hpow
    obtain ⟨hashes', hser, hmerkle'⟩ := merkleizeSer_eq (ε := ε) (beq_iff_eq.mp hpow) hcomm hsize
    have hsame : hashes = hashes' := by
      apply hmerkle.tree.unique hmerkle'.tree
      intro c hc
      have hcol : c < comm.nCols := by
        rw [beq_iff_eq.mp hpow]
        exact hc
      exact (hmerkle.leaf c hcol).trans (hmerkle'.leaf c hcol).symm
    rw [hser, hsame]

end Layout

theorem merkleize_layout_small : ∃ hashes, (merkleize (⟨[3, 5, 7], [3, 5], 1, 3, 2,
      .replicate 7 byteSum.defaultOutput⟩ : LcCommit byteSum (ZMod 257)) : Fallible Empty _) =
      .ok ⟨[3, 5, 7], [3, 5], 1, 3, 2, hashes⟩ ∧ hashes[3]? = some byteSum.defaultOutput ∧
    ∃ l r, hashes[4]? = some l ∧ hashes[5]? = some r ∧
      hashes[6]? = some (hashPair byteSum l r) := by
  obtain ⟨hashes, hrun, -, -, hdefault, hparent, -⟩ := merkleize_layout (ε := Empty)
    (show 2 ≤ (⟨[3, 5, 7], [3, 5], 1, 3, 2, .replicate 7 byteSum.defaultOutput⟩ :
      LcCommit byteSum (ZMod 257)).nCols by decide) rfl rfl
  exact ⟨hashes, hrun, hdefault 3 (by decide) (by decide), hparent 2 (by decide)⟩

/-- A tree over one column has no layer to fill, and the length check of the layer fails. -/
theorem merkleize_one_column : ¬∃ comm', (merkleize (⟨[3], [3], 1, 1, 1,
    [byteSum.defaultOutput]⟩ : LcCommit byteSum (ZMod 257)) : Fallible Empty _) = .ok comm' := by
  intro ⟨comm', h⟩
  have hcols := merkleize_two_le rfl rfl h
  exact absurd hcols (by decide)

end CommitmentSerialTree
