import ProofOfStorage.FoundationTreeWalks
import ProofOfStorage.CommitmentOpenings

/-! # What an opening shows of a commitment

The path of an opening is followed whatever its length is. Against the root of a commitment this
shows the committed column all the same, unless two different things have the same digest. The
bytes of a column and of a node can only agree when the column has the length of a digest.
-/
namespace CommitmentBinding

open FoundationFaults FoundationSlices FoundationMerkleTrees FoundationTreeWalks
open CommitmentTypes CommitmentMerkle CommitmentProof CommitmentOpenings

variable {D : Digest} {F Err : Type}

inductive Hashed (D : Digest) (F : Type) where
  | column (col : List F)
  | node (pair : D.Output × D.Output)

theorem Hashed.column_ne_node (col : List F) (pair : D.Output × D.Output) :
    Hashed.column col ≠ .node pair := by
  intro h
  cases h

/-- The bytes do not tell a column from a node. -/
def Hashed.bytes [FieldHash F] : Hashed D F → List UInt8
  | .column col => columnPreimage D col
  | .node pair => nodePreimage pair

/-- Two different things with one digest. -/
def Clash [FieldHash F] (as bs : List (Hashed D F)) : Prop :=
  ∃ a ∈ as, ∃ b ∈ bs, a ≠ b ∧ D.hash a.bytes = D.hash b.bytes

def hashedFor [FieldHash F] (opened : LcColumn D F) (colNum : ℕ) : List (Hashed D F) :=
  .column opened.col ::
    (combined (hashPair D) (columnLeaf D opened.col) colNum opened.path).map .node

def committedFor [Zero F] (comm : LcCommit D F) : List (Hashed D F) :=
  (List.range comm.nCols).map (fun c => .column (column comm.nCols comm.nRows comm.comm c)) ++
    (List.range (comm.nCols - 1)).map fun j => .node
      (comm.hashes.getD (2 * j) D.defaultOutput, comm.hashes.getD (2 * j + 1) D.defaultOutput)

section Bytes

theorem map_bytes_hashedFor [FieldHash F] (opened : LcColumn D F) (colNum : ℕ) :
    (hashedFor opened colNum).map Hashed.bytes = hashedStrings opened colNum := by
  rw [hashedStrings, walkInputs_eq, hashedFor, List.map_cons, List.map_map]
  rfl

variable [PrimeField F]

theorem length_columnPreimage (col : List F) : (columnPreimage D col).length =
    D.outputSize + col.length * PrimeField.reprWidth F := by
  have hwidth : ∀ x ∈ col, (FieldHash.toHashRepr x).length = PrimeField.reprWidth F :=
    fun x _ => (PrimeField.toRepr x).length_toList
  rw [columnPreimage, List.length_append, Vector.length_toList, List.length_flatMap,
    List.map_congr_left hwidth, List.map_const', List.sum_replicate, smul_eq_mul]

theorem length_nodePreimage (pair : D.Output × D.Output) :
    (nodePreimage pair).length = D.outputSize + D.outputSize := by
  rw [nodePreimage, List.length_append, Vector.length_toList, Vector.length_toList]

def Hashed.TellsApart : Hashed D F → Prop
  | .column col => col.length * PrimeField.reprWidth F ≠ D.outputSize
  | .node _ => True

theorem columnPreimage_ne_nodePreimage {col : List F} {pair : D.Output × D.Output}
    (h : col.length * PrimeField.reprWidth F ≠ D.outputSize) :
    columnPreimage D col ≠ nodePreimage pair := by
  intro heq
  have hlen := congrArg List.length heq
  rw [length_columnPreimage, length_nodePreimage] at hlen
  exact h (Nat.add_left_cancel hlen)

variable [Field F]

theorem Hashed.bytes_ne {a b : Hashed D F} (ha : a.TellsApart) (hb : b.TellsApart) (hne : a ≠ b) :
    a.bytes ≠ b.bytes := by
  intro heq
  cases a with
  | column col =>
    cases b with
    | column col' => exact hne (congrArg _ (columnPreimage_injective heq))
    | node pair => exact columnPreimage_ne_nodePreimage ha heq
  | node pair =>
    cases b with
    | column col => exact columnPreimage_ne_nodePreimage hb heq.symm
    | node pair' => exact hne (congrArg _ (nodePreimage_injective heq))

theorem Clash.collision {as bs : List (Hashed D F)} (h : Clash as bs)
    (ha : ∀ a ∈ as, a.TellsApart) (hb : ∀ b ∈ bs, b.TellsApart) :
    ∃ s ∈ as.map Hashed.bytes, ∃ t ∈ bs.map Hashed.bytes, s ≠ t ∧ D.hash s = D.hash t := by
  obtain ⟨a, hamem, b, hbmem, hne, heq⟩ := h
  exact ⟨_, List.mem_map_of_mem hamem, _, List.mem_map_of_mem hbmem,
    Hashed.bytes_ne (ha a hamem) (hb b hbmem) hne, heq⟩

end Bytes

section Binding

variable [Field F] [PrimeField F] {comm : LcCommit D F}

theorem two_pow_clog {n : ℕ} (h : isPowerOfTwo n = true) : 2 ^ Nat.clog 2 n = n :=
  (beq_iff_eq.mp h).symm

theorem opened_column_eq (hm : Merkleized comm) (hpow : isPowerOfTwo comm.nCols = true)
    {opened : LcColumn D F} {c : ℕ} (hc : c < comm.nCols)
    (h : verifyColumnPath opened c hm.tree.levelOrder.root = true) :
    opened.col = column comm.nCols comm.nRows comm.comm c ∨
      Clash (hashedFor opened c) (committedFor comm) := by
  have hcols := two_pow_clog hpow
  have hnode {j : ℕ} (hj : j + 1 < 2 ^ Nat.clog 2 comm.nCols) :
      Hashed.node (children hm.tree.levelOrder j) ∈ committedFor comm := by
    refine List.mem_append_right _ (List.mem_map.mpr ⟨j, ?_, rfl⟩)
    rw [List.mem_range]
    omega
  have hcolumn {j : ℕ} (hj : j < comm.nCols) :
      Hashed.column (column comm.nCols comm.nRows comm.comm j) ∈ committedFor comm :=
    List.mem_append_left _ (List.mem_map.mpr ⟨j, List.mem_range.mpr hj, rfl⟩)
  have hwalk {p : D.Output × D.Output}
      (hp : p ∈ combined (hashPair D) (columnLeaf D opened.col) c opened.path) :
      Hashed.node p ∈ hashedFor opened c := List.mem_cons_of_mem _ (List.mem_map_of_mem hp)
  rw [verifyColumnPath_iff] at h
  rcases start_of_climb hm.tree.levelOrder (hc.trans_eq hcols.symm) h with hleaf | ⟨j, hj, hinner⟩ |
    ⟨p, hp, j, hj, hbelow⟩ | ⟨p, hp, j, hj, hne, hclash⟩
  · rw [HashTree.levelOrder_table, hm.leaf c hc] at hleaf
    by_cases hsame : opened.col = column comm.nCols comm.nRows comm.comm c
    · exact .inl hsame
    · exact .inr ⟨_, List.mem_cons_self, _, hcolumn hc, fun heq => hsame (Hashed.column.inj heq),
        hleaf⟩
  · exact .inr ⟨_, List.mem_cons_self, _, hnode hj, Hashed.column_ne_node _ _, hinner⟩
  · rw [HashTree.levelOrder_table, hm.leaf j (hcols ▸ hj)] at hbelow
    exact .inr ⟨_, hwalk hp, _, hcolumn (hcols ▸ hj), (Hashed.column_ne_node _ _).symm, hbelow⟩
  · exact .inr ⟨_, hwalk hp, _, hnode hj, fun heq => hne (Hashed.node.inj heq), hclash⟩

/-- Position binding without a look at the length of the path, for columns whose bytes are not as
many as those of a digest: two different byte strings with one digest are the only way round it. -/
theorem opening_shows_column {enc : LcEncoding F Err} {coefficients : List F} {root : LcRoot D}
    {opened : LcColumn D F} {c : ℕ} (hcommit : commit D coefficients enc = .ok comm)
    (hroot : (getRoot comm : Fallible (ProverError Err) _) = .ok root)
    (hpow : isPowerOfTwo comm.nCols = true) (hc : c < comm.nCols)
    (hrows : comm.nRows * PrimeField.reprWidth F ≠ D.outputSize)
    (hopened : opened.col.length * PrimeField.reprWidth F ≠ D.outputSize)
    (h : verifyColumnPath opened c root.root = true) :
    opened.col = column comm.nCols comm.nRows comm.comm c ∨
      ∃ s ∈ hashedStrings opened c, ∃ t ∈ (committedFor comm).map Hashed.bytes,
        s ≠ t ∧ D.hash s = D.hash t := by
  obtain ⟨hcommitted, -⟩ := commit_eq_ok hcommit
  rw [getRoot, hcommitted.merkleized.tree.getLast?_eq] at hroot
  obtain rfl := Except.ok.inj hroot
  rcases opened_column_eq hcommitted.merkleized hpow hc h with hcolumn | hclash
  · exact .inl hcolumn
  · rw [← map_bytes_hashedFor]
    refine .inr (hclash.collision (fun a ha => ?_) fun b hb => ?_)
    · rcases List.mem_cons.mp ha with rfl | ha
      · exact hopened
      · obtain ⟨pair, -, rfl⟩ := List.mem_map.mp ha
        exact trivial
    · rcases List.mem_append.mp hb with hb | hb
      · obtain ⟨j, -, rfl⟩ := List.mem_map.mp hb
        rwa [Hashed.TellsApart, length_column]
      · obtain ⟨j, -, rfl⟩ := List.mem_map.mp hb
        exact trivial

theorem opening_shows_column_small : ∃ comm : LcCommit byteSum (ZMod 257),
    commit byteSum [3, 5, 7] twoPoint = .ok comm ∧
    ∃ s ∈ hashedStrings (D := byteSum) (F := ZMod 257) ⟨[15], [#v[15]]⟩ 1,
      ∃ t ∈ (committedFor comm).map Hashed.bytes, s ≠ t ∧ byteSum.hash s = byteSum.hash t := by
  have hdecided : (match commit byteSum [3, 5, 7] (twoPoint (F := ZMod 257)) with
    | .ok comm => decide (comm.nRows = 3 ∧ comm.nCols = 2 ∧ comm.comm = [3, 3, 5, 5, 7, 7]) &&
      comm.hashes.getLast? == some #v[30]
    | .error _ => false) = true := by decide +kernel
  split at hdecided
  case h_2 => cases hdecided
  case h_1 comm hcommit =>
    obtain ⟨hshape, hlast⟩ := Bool.and_eq_true_iff.mp hdecided
    obtain ⟨hrows, hcols, hcomm⟩ := of_decide_eq_true hshape
    have hroot : (getRoot comm : Fallible (ProverError Unit) _) = .ok ⟨#v[30]⟩ := by
      rw [getRoot, beq_iff_eq.mp hlast]
    have haccepted : verifyColumnPath (D := byteSum) (F := ZMod 257) ⟨[15], [#v[15]]⟩ 1 #v[30] =
        true := rfl
    refine ⟨comm, hcommit, (opening_shows_column hcommit hroot (by rw [hcols]; rfl)
      (by rw [hcols]; decide) (by rw [hrows]; decide) (by decide) haccepted).resolve_left ?_⟩
    rw [hrows, hcols, hcomm]
    decide

end Binding

end CommitmentBinding
