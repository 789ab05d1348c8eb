import ProofOfStorage.CommitmentCompleteness
import ProofOfStorage.FileStreams

/-! # Opening columns of a stream

The values of the requested columns are collected in the order of the request and taken off its
end, so that the openings come out in reverse.
-/
namespace FileOpenings

open FoundationFaults FoundationSlices FoundationPositionalFiles FoundationIterators
open CommitmentTypes CommitmentMerkle CommitmentProof CommitmentCompleteness OnlineColumns
open FileFields FileDigests FileRows FileStreams

variable {ε I F Err : Type} {D : Digest} [Field F] [DataField F] [ItemIterator I F]

section Columns

variable (Err) (specifiedColumns : List ℕ)

def collectRow (s : ColumnDigestAccumulator D × List (List F)) (row : List F) :
    Fallible ε (ColumnDigestAccumulator D × List (List F)) := do
  let digests ← unwrap (s.1.update row : Fallible (FileError Err) _)
  let columnValues ← (s.2.zip specifiedColumns).mapM fun p => do
    return p.1 ++ [← index row p.2]
  return (digests, columnValues)

/-- The body of the loop over the reversed request: the values at the end are paired with the path
of column `i`. -/
def popColumn (tree : MerkleTree D) (s : List (List F) × List (LcColumn D F)) (i : ℕ) :
    Fallible ε (List (List F) × List (LcColumn D F)) := do
  match s.1.getLast? with
  | none => panicked
  | some col =>
    match ← unwrap (tree.getPath i : Fallible (FileError Err) _) with
    | none => panicked
    | some path => return (s.1.dropLast, s.2 ++ [⟨col, path⟩])

variable {Err}

def getFullColumns (D : Digest) (rounds : ℕ) (it : RowGeneratorIter I F Err) :
    Fallible ε (List (LcColumn D F)) := do
  let (digests, columnValues) ← it.forRows (collectRow Err specifiedColumns) rounds
    (.new it.coefsBuffer.length .all, .replicate specifiedColumns.length [])
  let tree ← unwrap (digests.finalizeToMerkleTree : Fallible (FileError Err) _)
  let (_, result) ← specifiedColumns.reverse.foldlM (popColumn Err tree) (columnValues, [])
  assert (result.length = specifiedColumns.length)
  return result

end Columns

variable {encoding : LcEncoding F Err} {pre enc : ℕ} {xs : List F} {columns : List ℕ}

omit [ItemIterator I F] in
theorem collectRow_eq {rows : List (List F)} {row : List F} {acc : ColumnDigestAccumulator D}
    (htracks : Tracks acc enc rows) (hrow : row.length = enc) (hcolumns : ∀ c ∈ columns, c < enc) :
    ∃ acc', (collectRow Err columns (acc, columns.map (columnOf rows)) row : Fallible ε _) =
        .ok (acc', columns.map (columnOf (rows ++ [row]))) ∧ Tracks acc' enc (rows ++ [row]) := by
  obtain ⟨acc', hupdate, htracks'⟩ : ∃ acc', (acc.update row : Fallible (FileError Err) _) =
    .ok acc' ∧ Tracks acc' enc (rows ++ [row]) := htracks.update hrow
  have hvalues : (((columns.map (columnOf rows)).zip columns).mapM fun p => do
      return p.1 ++ [← index row p.2] : Fallible ε _) =
      .ok (columns.map fun c => columnOf rows c ++ [row.getD c 0]) := by
    apply mapM_zip_extend
    intro c hc
    have hlt : c < row.length := hrow ▸ hcolumns c hc
    rw [index_of_lt hlt, List.getD_eq_getElem _ _ hlt]
  have hunwrap : (unwrap (acc.update row : Fallible (FileError Err) _) : Fallible ε _) = .ok acc' :=
    unwrap_eq_ok.mpr hupdate
  refine ⟨acc', ?_, htracks'⟩
  have hlonger : columns.map (columnOf (rows ++ [row])) =
      columns.map fun c => columnOf rows c ++ [row.getD c 0] :=
    List.map_congr_left fun c _ => columnOf_concat rows row c
  rw [collectRow, hunwrap, ok_bind, hvalues, hlonger]
  rfl

theorem forRows_collects {it : RowGeneratorIter I F Err} {rounds : ℕ} (hs : Sized encoding pre enc)
    (h : it.Ready encoding pre enc xs) (hrounds : xs.length < rounds)
    (hcolumns : ∀ c ∈ columns, c < enc) :
    ∃ acc, (it.forRows (collectRow Err columns) rounds
        (.new it.coefsBuffer.length .all, .replicate columns.length []) :
          Fallible ε (ColumnDigestAccumulator D × List (List F))) =
        .ok (acc, columns.map (columnOf ((chunks pre xs).map (elementsCodeword encoding enc)))) ∧
      Tracks acc enc ((chunks pre xs).map (elementsCodeword encoding enc)) := by
  have hwidth : it.coefsBuffer.length = enc := by rw [h.buffer_eq, List.length_replicate]
  have hstart : List.replicate columns.length [] = columns.map (columnOf ([] : List (List F))) :=
    List.map_const'.symm
  rw [h.forRows hs _ hrounds, hwidth, hstart]
  have hloop : ∃ s, (((chunks pre xs).map (elementsCodeword encoding enc)).foldlM
        (collectRow Err columns) (.new enc .all, columns.map (columnOf [])) :
          Fallible ε (ColumnDigestAccumulator D × List (List F))) = .ok s ∧
      Tracks s.1 enc ((chunks pre xs).map (elementsCodeword encoding enc)) ∧
      s.2 = columns.map (columnOf ((chunks pre xs).map (elementsCodeword encoding enc))) := by
    refine foldlM_reaches (fun seen (s : ColumnDigestAccumulator D × List (List F)) =>
      Tracks s.1 enc seen ∧ s.2 = columns.map (columnOf seen)) ⟨tracks_new enc, rfl⟩ ?_
    rintro seen row ⟨acc, _⟩ hseen ⟨htracks, rfl⟩
    obtain ⟨acc', hrow, htracks'⟩ :=
      collectRow_eq htracks (RowGeneratorIter.length_of_seen hs hseen) hcolumns
    exact ⟨_, hrow, htracks', rfl⟩
  obtain ⟨⟨acc, _⟩, hrun, htracks, rfl⟩ := hloop
  exact ⟨acc, hrun, htracks⟩

omit [Field F] [DataField F] in
/-- The loop over the reversed request empties the collected values. -/
theorem popColumns_eq {tree : MerkleTree D} {k : ℕ} (hw : tree.width = 2 ^ k)
    (h : HashTree k tree.digests) (col : ℕ → List F) (hcolumns : ∀ c ∈ columns, c < tree.width)
    (result : List (LcColumn D F)) :
    (columns.reverse.foldlM (popColumn Err tree) (columns.map col, result) : Fallible ε _) =
      .ok ([], result ++ (columns.map fun c => ⟨col c, h.levelOrder.path c⟩).reverse) := by
  induction columns using List.reverseRecOn generalizing result with
  | nil => simp
  | append_singleton columns c ih =>
    have hpath : (unwrap (tree.getPath c : Fallible (FileError Err) _) : Fallible ε _) =
        .ok (some (h.levelOrder.path c)) := by
      rw [unwrap_eq_ok, MerkleTree.getPath_eq hw h, if_pos (hcolumns c (by simp))]
    have hpop : (popColumn Err tree ((columns ++ [c]).map col, result) c : Fallible ε _) =
        .ok (columns.map col, result ++ [⟨col c, h.levelOrder.path c⟩]) := by
      simp only [popColumn, List.map_append, List.map_cons, List.map_nil, List.getLast?_concat,
        hpath, ok_bind, List.dropLast_concat, pure_eq_ok]
    rw [List.reverse_concat, List.foldlM_cons, hpop, ok_bind,
      ih (fun c hc => hcolumns c (List.mem_append_left _ hc))]
    simp

/-- All openings are right, but the last one comes first. -/
theorem getFullColumns_eq {it : RowGeneratorIter I F Err} {rounds : ℕ}
    (hs : Sized encoding pre enc) (h : it.Ready encoding pre enc xs) (hrounds : xs.length < rounds)
    (hcolumns : ∀ c ∈ columns, c < enc) {tree : MerkleTree D} {k : ℕ}
    (htree : (MerkleTree.new (columnLeaves D enc
      ((chunks pre xs).map (elementsCodeword encoding enc))) : Fallible (FileError Err) _) =
        .ok tree) (hw : tree.width = 2 ^ k) (hhash : HashTree k tree.digests) :
    (getFullColumns columns D rounds it : Fallible ε _) = .ok (columns.map fun c =>
      ⟨columnOf ((chunks pre xs).map (elementsCodeword encoding enc)) c,
        hhash.levelOrder.path c⟩).reverse := by
  obtain ⟨acc, hrun, htracks⟩ := forRows_collects (ε := ε) (D := D) hs h hrounds hcolumns
  have hwidth : tree.width = enc := by
    rw [(MerkleTree.len_new htree).2, length_columnLeaves]
  have hfinal : (unwrap (acc.finalizeToMerkleTree : Fallible (FileError Err) _) : Fallible ε _) =
      .ok tree := by
    rw [unwrap_eq_ok, htracks.finalizeToMerkleTree]
    exact htree
  have hbelow : ∀ c ∈ columns, c < tree.width := fun c hc => hwidth ▸ hcolumns c hc
  simp only [getFullColumns, hrun, ok_bind, hfinal, popColumns_eq hw hhash _ hbelow,
    List.nil_append, List.length_reverse, List.length_map, assert_of, pure_eq_ok]

section Mirrored

variable {α β : Type} {f : α → Fallible ε β} {g : α → β} {l : List α}

theorem forall₂_reverse_iff (hf : ∀ x ∈ l, f x = .ok (g x)) :
    List.Forall₂ (fun x y => f x = .ok y) l (l.map g).reverse ↔
      ∀ p ∈ l.zip l.reverse, f p.1 = f p.2 := by
  rw [← List.map_reverse, List.forall₂_map_right_iff, List.forall₂_iff_zip]
  constructor
  · rintro ⟨-, hall⟩ ⟨x, y⟩ hp
    have hy : y ∈ l := List.mem_reverse.mp (List.of_mem_zip hp).2
    exact (hall hp).trans (hf y hy).symm
  · intro hmirrored
    refine ⟨(List.length_reverse).symm, ?_⟩
    intro x y hp
    have hy : y ∈ l := List.mem_reverse.mp (List.of_mem_zip hp).2
    exact (hmirrored _ hp).trans (hf y hy)

theorem reverse_of_mirrored (hf : ∀ x ∈ l, f x = .ok (g x))
    (hmirrored : ∀ p ∈ l.zip l.reverse, f p.1 = f p.2) : (l.map g).reverse = l.map g := by
  have hanswers := (forall₂_reverse_iff hf).mpr hmirrored
  have hown : l.mapM f = .ok (l.map g) := mapM_of_forall hf
  exact Except.ok.inj ((mapM_eq_ok.mpr hanswers).symm.trans hown)

end Mirrored

section Answers

variable {fft : FieldFFT F} {elements : List F} {fieldIterator : I}

/-- The streamed openings answer the request exactly when the columns at mirrored places of the
request have the same opening. -/
theorem full_columns_answer_iff {encoding : LcEncoding F fft.Err} (hdata : elements ≠ [])
    (hpre : 0 < pre) (hword : enc < 2 ^ 64)
    (hencoding : (newFromDims fft pre enc : Fallible (FileError fft.Err) _) = .ok encoding)
    (hyields : Yields fieldIterator elements) (hcolumns : ∀ c ∈ columns, c < enc) :
    ∃ (comm : LcCommit D F) (root : D.Output) (it : RowGeneratorIter I F fft.Err)
      (received : List (LcColumn D F)), commit D elements encoding = .ok comm ∧
      (RowGeneratorIter.newLigero fft fieldIterator pre enc : Fallible (FileError fft.Err) _) =
        .ok it ∧
      (∀ rounds, elements.length < rounds →
        (it.convertToCommitRoot D rounds : Fallible (FileError fft.Err) _) = .ok root ∧
        (getFullColumns columns D rounds it : Fallible (FileError fft.Err) _) = .ok received) ∧
      ((List.Forall₂ (fun c column =>
          (openColumn comm c : Fallible (ProverError fft.Err) _) = .ok column) columns received ∧
        (clientOnlineVerifyColumnPaths ⟨root⟩ columns received :
          Fallible (VerifierError fft.Err) Unit) = .ok ()) ↔
        ∀ p ∈ columns.zip columns.reverse,
          (openColumn comm p.1 : Fallible (ProverError fft.Err) _) = openColumn comm p.2) := by
  have hs := Sized.of_newFromDims hpre hencoding
  obtain ⟨comm, hcommit, hc, hrows, -, rfl, -, hmatrix⟩ :=
    commit_ligero (D := D) hdata hpre hword hencoding
  obtain ⟨_, root, hcommit', hgetRoot, hleaves, htree, hroot⟩ :=
    commit_digests (D := D) hdata hpre hword hencoding
  obtain rfl := Except.ok.inj (hcommit.symm.trans hcommit')
  obtain rfl : hc.merkleized.tree.levelOrder.root = root :=
    LcRoot.mk.inj (Except.ok.inj ((getRoot_eq hc).symm.trans hgetRoot))
  obtain ⟨hcomm, -, -, -⟩ := checkComm_eq_ok.mp hc.check
  have hopen : ∀ c ∈ columns, (openColumn comm c : Fallible (ProverError fft.Err) _) =
      .ok (honestColumn hc c) := fun c hmem => openColumn_eq hc.merkleized hcomm (hcolumns c hmem)
  obtain ⟨it, hnew, hready⟩ := RowGeneratorIter.ready_newLigero hencoding hyields
  rw [hleaves] at htree
  refine ⟨comm, hc.merkleized.tree.levelOrder.root, it, (columns.map (honestColumn hc)).reverse,
    hcommit, hnew, ?_, ?_⟩
  · intro rounds hrounds
    refine ⟨(hready.convertToCommitRoot hs hrounds htree).trans hroot, ?_⟩
    have hwidth : comm.nCols = 2 ^ Nat.clog 2 comm.nCols := beq_iff_eq.mp hs.pow
    rw [getFullColumns_eq hs hready hrounds hcolumns htree hwidth hc.merkleized.tree]
    refine congrArg (fun l => Except.ok (List.reverse l)) (List.map_congr_left ?_)
    intro c hmem
    rw [columnOf_codewords hmatrix (hcolumns c hmem), honestColumn, hrows]
  · rw [forall₂_reverse_iff hopen]
    constructor
    · exact And.left
    · intro hmirrored
      refine ⟨hmirrored, ?_⟩
      have hsame : (columns.map (honestColumn hc)).reverse = columns.map (honestColumn hc) :=
        reverse_of_mirrored hopen hmirrored
      rw [hsame, clientOnlineVerifyColumnPaths_eq_ok]
      exact ⟨List.length_map _, verifyPaths_honest hc hcolumns⟩

theorem full_columns_answer_palindrome : ∃ (comm : LcCommit byteSum (ZMod 257))
    (root : byteSum.Output) (it : RowGeneratorIter (FieldGeneratorIter (ZMod 257)) (ZMod 257) Unit)
    (received : List (LcColumn byteSum (ZMod 257))),
    (RowGeneratorIter.newLigero fermatFft (FieldGeneratorIter.new [1, 2, 3]) 2 4 :
      Fallible (FileError Unit) _) = .ok it ∧
    (it.convertToCommitRoot byteSum 4 : Fallible (FileError Unit) _) = .ok root ∧
    (getFullColumns [0, 1, 0] byteSum 4 it : Fallible (FileError Unit) _) = .ok received ∧
    List.Forall₂ (fun c column => (openColumn comm c : Fallible (ProverError Unit) _) = .ok column)
      [0, 1, 0] received ∧
    (clientOnlineVerifyColumnPaths ⟨root⟩ [0, 1, 0] received :
      Fallible (VerifierError Unit) Unit) = .ok () := by
  obtain ⟨encoding, hencoding⟩ : ∃ encoding, (newFromDims fermatFft 2 4 :
    Fallible (FileError Unit) _) = .ok encoding := ⟨_, rfl⟩
  have hcolumns : ∀ c ∈ [0, 1, 0], c < 4 := by decide
  obtain ⟨comm, root, it, received, -, hnew, hrun, hiff⟩ := full_columns_answer_iff (D := byteSum)
    (fromByteVec_ne_nil (List.cons_ne_nil _ _)) (by decide) (by decide) hencoding
    (yields_new [1, 2, 3]) hcolumns
  obtain ⟨hroot, hreceived⟩ := hrun 4 (by decide)
  obtain ⟨hopened, haccepted⟩ := hiff.mpr (by simp)
  exact ⟨comm, root, it, received, hnew, hroot, hreceived, hopened, haccepted⟩

def byteHorner : Digest := ⟨1, fun bytes => #v[bytes.foldl (fun h b => 3 * h + b) 1]⟩

/-- Two different columns come back in the wrong order, and the client rejects them. -/
theorem full_columns_swapped :
    ∃ encoding, (newFromDims fermatFft 2 4 : Fallible (FileError Unit) _) = .ok encoding ∧
    ∃ it, (RowGeneratorIter.newLigero fermatFft (FieldGeneratorIter.new [1, 2, 3] :
      FieldGeneratorIter (ZMod 257)) 2 4 : Fallible (FileError Unit) _) = .ok it ∧
    (it.convertToCommitRoot byteHorner 4 : Fallible (FileError Unit) _) = .ok #v[222] ∧
    (∃ comm, commit byteHorner (fromByteVec [1, 2, 3]) encoding = .ok comm ∧
      (openColumn comm 0 : Fallible (ProverError Unit) _) = .ok ⟨[3, 3], [#v[5], #v[246]]⟩ ∧
      (openColumn comm 1 : Fallible (ProverError Unit) _) = .ok ⟨[256, 3], [#v[77], #v[246]]⟩) ∧
    (getFullColumns [0, 1] byteHorner 4 it : Fallible (FileError Unit) _) =
      .ok [⟨[256, 3], [#v[77], #v[246]]⟩, ⟨[3, 3], [#v[5], #v[246]]⟩] ∧
    (clientOnlineVerifyColumnPaths (D := byteHorner) (F := ZMod 257) ⟨#v[222]⟩ [0, 1]
      [⟨[256, 3], [#v[77], #v[246]]⟩, ⟨[3, 3], [#v[5], #v[246]]⟩] :
        Fallible (VerifierError Unit) Unit) = .error (.error .columnEval) := by
  refine ⟨_, rfl, _, rfl, ?_⟩
  decide +kernel

end Answers

end FileOpenings
