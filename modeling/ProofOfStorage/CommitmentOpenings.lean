import ProofOfStorage.CommitmentProof

/-! # What an accepted opening binds

Leaves and inner nodes are hashed by one function, and the verifiers follow a path of any
length. Openings of equal length bind their column; the shape itself is not checked.
-/
namespace CommitmentOpenings

open FoundationFaults FoundationMerkleTrees FoundationInnerProducts CommitmentTypes
  CommitmentMerkle CommitmentProof

variable {D : Digest} {F Err : Type}

def walkInputs (hash : D.Output) (col : ℕ) : List D.Output → List (List UInt8)
  | [] => []
  | p :: path =>
    let fed := if col % 2 = 0 then hash.toList ++ p.toList else p.toList ++ hash.toList
    fed :: walkInputs (D.hash fed) (col / 2) path

/-- The byte strings that a check of an opened column hashes: the column, then the nodes. -/
def hashedStrings [FieldHash F] (column : LcColumn D F) (colNum : ℕ) : List (List UInt8) :=
  columnPreimage D column.col :: walkInputs (columnLeaf D column.col) colNum column.path

def nodePreimage (pair : D.Output × D.Output) : List UInt8 := pair.1.toList ++ pair.2.toList

theorem hashPair_eq (l r : D.Output) : hashPair D l r = D.hash (nodePreimage (l, r)) := rfl

theorem nodePreimage_injective : Function.Injective (nodePreimage (D := D)) := by
  intro a b h
  obtain ⟨hl, hr⟩ := List.append_inj h (by rw [Vector.length_toList, Vector.length_toList])
  exact Prod.ext (Vector.toList_inj.mp hl) (Vector.toList_inj.mp hr)

theorem walkInputs_eq (hash : D.Output) (col : ℕ) (path : List D.Output) :
    walkInputs hash col path = (combined (hashPair D) hash col path).map nodePreimage := by
  induction path generalizing hash col with
  | nil => rfl
  | cons p path ih =>
    have hfed : (if col % 2 = 0 then hash.toList ++ p.toList else p.toList ++ hash.toList) =
        nodePreimage (ordered col hash p) := by
      unfold ordered
      split <;> rfl
    rw [walkInputs, combined, List.map_cons, hfed, ih, hashPair_eq]

theorem verifyColumnPath_iff_hashedStrings [FieldHash F] {column : LcColumn D F} {colNum : ℕ}
    {root : D.Output} : verifyColumnPath column colNum root = true ↔
      (hashedStrings column colNum).getLast?.map D.hash = some root := by
  have hlast : ∀ (fed : List UInt8) (i : ℕ) (path : List D.Output),
      (fed :: walkInputs (D.hash fed) i path).getLast?.map D.hash =
        some (climb (hashPair D) (D.hash fed) i path) := by
    intro fed i path
    induction path generalizing fed i with
    | nil => rfl
    | cons p path ih =>
      rw [walkInputs, List.getLast?_cons_cons, ih, climb]
      split <;> rfl
  rw [verifyColumnPath_iff, hashedStrings, columnLeaf, hlast, Option.some_inj]

/-- Position binding: two openings of one column number, of equal path length and accepted for
one root, are the same opening, or the two checks hash two byte strings to one digest. -/
theorem opening_binding [Field F] [PrimeField F] {root : D.Output} {colNum : ℕ}
    {a b : LcColumn D F} (hlen : a.path.length = b.path.length)
    (ha : verifyColumnPath a colNum root = true) (hb : verifyColumnPath b colNum root = true) :
    (a.col = b.col ∧ a.path = b.path) ∨
      ∃ s ∈ hashedStrings a colNum, ∃ t ∈ hashedStrings b colNum, s ≠ t ∧ D.hash s = D.hash t := by
  rw [verifyColumnPath_iff] at ha hb
  rcases climb_binding hlen (ha.trans hb.symm) with ⟨hleaf, hpath⟩ | ⟨p, hp, q, hq, hne, heq⟩
  · by_cases hcol : columnPreimage D a.col = columnPreimage D b.col
    · exact .inl ⟨columnPreimage_injective hcol, hpath⟩
    · exact .inr ⟨_, List.mem_cons_self, _, List.mem_cons_self, hcol, hleaf⟩
  · refine .inr ⟨nodePreimage p, ?_, nodePreimage q, ?_, nodePreimage_injective.ne hne, heq⟩
    · rw [hashedStrings, walkInputs_eq]
      exact List.mem_cons_of_mem _ (List.mem_map_of_mem hp)
    · rw [hashedStrings, walkInputs_eq]
      exact List.mem_cons_of_mem _ (List.mem_map_of_mem hq)

theorem opening_binding_small :
    (∃ s ∈ hashedStrings (D := byteSum) (F := ZMod 257) ⟨[3, 5], [#v[7]]⟩ 1,
      ∃ t ∈ hashedStrings (D := byteSum) (F := ZMod 257) ⟨[8], [#v[7]]⟩ 1,
        s ≠ t ∧ byteSum.hash s = byteSum.hash t) := by
  have ha : verifyColumnPath (D := byteSum) (F := ZMod 257) ⟨[3, 5], [#v[7]]⟩ 1 #v[15] = true := rfl
  have hb : verifyColumnPath (D := byteSum) (F := ZMod 257) ⟨[8], [#v[7]]⟩ 1 #v[15] = true := rfl
  refine (opening_binding ?_ ha hb).resolve_left fun h => absurd h.1 (by decide)
  rfl

/-- Every opened column has one entry per row and one digest per level of the tree. -/
def Shaped (outerTensor : List F) (proof : LcEvalProof D F) : Prop :=
  ∀ column ∈ proof.columns,
    column.col.length = outerTensor.length ∧ column.path.length = log2 proof.getNCols

def lengthened (column : LcColumn D F) : LcColumn D F :=
  { column with path := column.path ++ [D.defaultOutput] }

theorem verifyColumnPath_lengthened [FieldHash F] {column : LcColumn D F} {c : ℕ}
    {root : D.Output} (hc : c < 2 ^ column.path.length)
    (h : verifyColumnPath column c root = true) :
    verifyColumnPath (lengthened column) c (hashPair D root D.defaultOutput) = true := by
  rw [verifyColumnPath_iff] at h ⊢
  rw [lengthened, climb_append, h, Nat.div_eq_of_lt hc]
  rfl

section Verifier

variable [Field F] [FieldHash F] [DecidableEq F] {C : Challenges F} {enc : LcEncoding F Err}
  {root : D.Output} {outer inner : List F} {proof : LcEvalProof D F} {tr tr' : C.Transcript}
  {v : F}

theorem verify_eq_ok : (verify C enc root outer inner proof).run tr = .ok v tr' ↔
    (enc.getNColOpens = proof.columns.length ∧ enc.getNColOpens ≠ 0) ∧
    (∃ first, proof.columns[0]? = some first ∧ outer.length = first.col.length) ∧
    inner.length = proof.getNPerRow ∧ enc.dimsOk proof.getNPerRow proof.getNCols = true ∧
    0 < proof.getNCols ∧ ∃ tests tr₁ pEvalFft, (forEach (List.range enc.getNDegreeTests)
        (verifyDegreeTest C enc proof outer.length proof.getNCols)).run tr = .ok tests tr₁ ∧
      enc.encode (resize proof.getNCols proof.pEval) = .ok pEvalFft ∧
      (∀ p ∈ (columnsAt C enc proof.getNCols
          (transcriptUpdates C enc.labelPE proof.pEval tr₁)).1.zip proof.columns,
        (verifyColumn root outer tests pEvalFft p.1 p.2 : Fallible (VerifierError Err) Unit) =
          .ok ()) ∧
      v = dot inner proof.pEval ∧ tr' = (columnsAt C enc proof.getNCols
        (transcriptUpdates C enc.labelPE proof.pEval tr₁)).2 := by
  unfold verify
  constructor
  · intro h
    obtain ⟨_, hopens, h⟩ := run_lift_bind_ok.mp h
    obtain ⟨first, hfirst, h⟩ := run_lift_bind_ok.mp h
    obtain ⟨_, hinner, h⟩ := run_lift_bind_ok.mp h
    obtain ⟨_, houter, h⟩ := run_lift_bind_ok.mp h
    obtain ⟨_, hdims, h⟩ := run_lift_bind_ok.mp h
    obtain ⟨tests, tr₁, htests, h⟩ := run_bind_ok.mp h
    obtain ⟨_, tr₂, hmodify, h⟩ := run_bind_ok.mp h
    obtain rfl := run_modify_ok.mp hmodify
    obtain ⟨cols, tr₃, hcols, h⟩ := run_bind_ok.mp h
    have hpos : 0 < proof.getNCols := by
      obtain ⟨_, _, -, hdraw⟩ := run_bind_ok.mp hcols
      obtain ⟨_, hassert, -⟩ := run_lift_bind_ok.mp hdraw
      exact assert_eq_ok.mp hassert
    rw [run_drawColumns C hpos] at hcols
    cases hcols
    obtain ⟨word, hword, h⟩ := run_lift_bind_ok.mp h
    obtain ⟨_, hchecks, h⟩ := run_lift_bind_ok.mp h
    obtain ⟨rfl, rfl⟩ := run_pure_ok.mp h
    rw [ensure_eq_ok] at hopens hinner houter hdims
    rw [← houter] at htests
    refine ⟨hopens, ⟨first, index_eq_ok.mp hfirst, houter⟩, hinner, hdims, hpos, tests, tr₁, word,
      htests, mapErr_eq_ok.mp hword, forM_eq_ok.mp hchecks, ?_, rfl⟩
    rw [foldl_zip_eq_dot, zero_add]
  · rintro ⟨hopens, ⟨first, hfirst, houter⟩, hinner, hdims, hpos, tests, tr₁, word, htests, hword,
      hchecks, rfl, rfl⟩
    rw [run_bind_of_ok (run_lift_of_ok (ensure_of hopens _)),
      run_bind_of_ok (run_lift_of_ok (index_eq_ok.mpr hfirst)),
      run_bind_of_ok (run_lift_of_ok (ensure_of hinner _)),
      run_bind_of_ok (run_lift_of_ok (ensure_of houter _)),
      run_bind_of_ok (run_lift_of_ok (ensure_of hdims _)), ← houter, run_bind_of_ok htests,
      run_bind_of_ok (EStateM.run_modify ..), run_bind_of_ok (run_drawColumns C hpos _),
      run_bind_of_ok (run_lift_of_ok (mapErr_eq_ok.mpr hword)),
      run_bind_of_ok (run_lift_of_ok ((forM_eq_ok (u := ())).mpr hchecks)), foldl_zip_eq_dot,
      zero_add]
    rfl

/-- Any accepted proof of the right shape can be prolonged: the verifier accepts every path one
digest longer, for the root one level up. -/
theorem exists_misshapen (h : (verify C enc root outer inner proof).run tr = .ok v tr') :
    ∃ (root' : D.Output) (proof' : LcEvalProof D F),
      (verify C enc root' outer inner proof').run tr = .ok v tr' ∧ ¬Shaped outer proof' := by
  by_cases hshaped : Shaped outer proof
  · obtain ⟨hopens, ⟨first, hfirst, houter⟩, hinner, hdims, hpos, tests, tr₁, word, htests, hword,
      hchecks, hv, htr⟩ := verify_eq_ok.mp h
    set longer : LcEvalProof D F := { proof with columns := proof.columns.map lengthened } with hl
    refine ⟨hashPair D root D.defaultOutput, longer, verify_eq_ok.mpr ⟨?_, ⟨lengthened first, ?_,
      houter⟩, hinner, hdims, hpos, tests, tr₁, word, htests, hword, ?_, hv, htr⟩, ?_⟩
    · rwa [hl, List.length_map]
    · rw [hl, List.getElem?_map, hfirst]
      rfl
    · rintro ⟨c, column'⟩ hp
      rw [hl, List.zip_map_right] at hp
      obtain ⟨⟨c, column⟩, hmem, heq⟩ := List.mem_map.mp hp
      obtain ⟨rfl, rfl⟩ := Prod.mk.inj heq
      obtain ⟨hvalues, heval, hpath⟩ := verifyColumn_eq_ok.mp (hchecks _ hmem)
      obtain ⟨hc, hcolumn⟩ := List.of_mem_zip hmem
      refine verifyColumn_eq_ok.mpr ⟨hvalues, heval, verifyColumnPath_lengthened ?_ hpath⟩
      rw [(hshaped column hcolumn).2, log2_eq]
      exact lt_of_lt_of_le (columnsAt_lt C hpos _ c hc) (le_nextPowerOfTwo _)
    · intro hlonger
      have hmem : first ∈ proof.columns := List.mem_of_getElem? hfirst
      have hpath := (hshaped first hmem).2
      have hpath' := (hlonger (lengthened first) (List.mem_map_of_mem hmem)).2
      have hsame : longer.getNCols = proof.getNCols := rfl
      rw [lengthened, List.length_append, List.length_singleton, hsame] at hpath'
      omega
  · exact ⟨root, proof, h, hshaped⟩

/-- A code that sends the zero row to zeros, for every matrix with rows of `nPerRow` entries. -/
def EncodesZeros (enc : LcEncoding F Err) (nPerRow : ℕ) : Prop :=
  ∀ nCols, enc.dimsOk nPerRow nCols = true →
    enc.encode (.replicate nCols 0) = .ok (.replicate nCols 0)

omit [FieldHash F] [DecidableEq F] in
theorem dot_zeros (a : List F) (n : ℕ) : dot a (.replicate n 0) = 0 := by
  rw [dot_eq_sum _ le_rfl]
  exact Finset.sum_eq_zero fun i _ => by rw [FoundationSlices.getD_replicate_zero, mul_zero]

omit [FieldHash F] [DecidableEq F] in
theorem resize_zeros (n k : ℕ) : resize n (.replicate k (0 : F)) = .replicate n 0 := by
  rw [resize, List.take_replicate, List.length_replicate, List.replicate_append_replicate]
  congr 1
  omega

/-- Proofs of zeros are accepted: every column is zero and its path is empty. -/
theorem exists_accepted (C : Challenges F) (outer inner : List F) (tr : C.Transcript) {nCols : ℕ}
    (hzeros : EncodesZeros enc inner.length) (hopens : enc.getNColOpens ≠ 0) (hpos : 0 < nCols)
    (hdims : enc.dimsOk inner.length nCols = true) :
    ∃ (root : D.Output) (proof : LcEvalProof D F) (v : F) (tr' : C.Transcript),
      (verify C enc root outer inner proof).run tr = .ok v tr' := by
  have hcode := hzeros nCols hdims
  set opened : LcColumn D F := ⟨.replicate outer.length 0, []⟩ with hopened
  set proof : LcEvalProof D F := ⟨nCols, .replicate inner.length 0,
    .replicate enc.getNDegreeTests [], .replicate enc.getNColOpens opened⟩ with hproof
  -- An empty combination appends nothing, so each round only draws its tensor.
  let st : ℕ → C.Transcript := fun i => Nat.rec tr (fun _ s => (tensorAt C enc outer.length s).2) i
  have htests : (forEach (List.range enc.getNDegreeTests)
      (verifyDegreeTest C enc proof outer.length nCols)).run tr =
      .ok ((List.range enc.getNDegreeTests).map fun i =>
        ((tensorAt C enc outer.length (st i)).1, .replicate nCols 0)) (st enc.getNDegreeTests) := by
    refine run_forEach_range.mpr ⟨by simp, st, rfl, rfl, fun i hi =>
      ⟨_, by rw [List.getElem?_map, List.getElem?_range hi]; rfl, ?_⟩⟩
    have hvec : proof.pRandomVec[i]? = some [] := by
      rw [hproof, List.getElem?_replicate, if_pos hi]
    have hword : enc.encode (resize nCols []) = .ok (.replicate nCols 0) := by
      rw [← hcode]
      exact congrArg enc.encode (resize_zeros nCols 0)
    exact run_verifyDegreeTest_of hvec hword _
  refine ⟨columnLeaf D opened.col, proof, _, _, verify_eq_ok.mpr ⟨⟨?_, hopens⟩, ⟨opened, ?_, ?_⟩,
    ?_, ?_, hpos, _, _, .replicate nCols 0, htests, ?_, ?_, rfl, rfl⟩⟩
  · rw [hproof, List.length_replicate]
  · rw [hproof, List.getElem?_replicate, if_pos (Nat.pos_of_ne_zero hopens)]
  · rw [hopened, List.length_replicate]
  · rw [LcEvalProof.getNPerRow, hproof, List.length_replicate]
  · rwa [LcEvalProof.getNPerRow, hproof, List.length_replicate]
  · rw [← hcode]
    exact congrArg enc.encode (resize_zeros nCols inner.length)
  · rintro ⟨c, column⟩ hp
    obtain ⟨hc, hcolumn⟩ := List.of_mem_zip hp
    obtain rfl := List.eq_of_mem_replicate hcolumn
    have hentry : ∀ a : List F, (List.replicate nCols (0 : F))[c]? = some (dot a opened.col) := by
      intro a
      rw [List.getElem?_replicate, if_pos (columnsAt_lt C hpos _ c hc), hopened, dot_zeros]
    refine verifyColumn_eq_ok.mpr ⟨fun test htest => ?_, hentry outer, verifyColumnPath_iff.mpr rfl⟩
    obtain ⟨i, -, rfl⟩ := List.mem_map.mp htest
    exact hentry _

end Verifier

end CommitmentOpenings
