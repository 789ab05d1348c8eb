import ProofOfStorage.BrakedownDimensions
import ProofOfStorage.OnlinePolynomials
import Mathlib.Data.List.Iterate

/-! # Commitments with the expander code

An encoding is made for a number of coefficients, of the two row lengths that were tried for them
the one whose proofs are smaller. The verifier makes it again from the sizes in the proof.
-/
namespace BrakedownCommitment

open FoundationFaults FoundationSlices FoundationInnerProducts FoundationPolynomials
open CommitmentTypes CommitmentMerkle CommitmentProof CommitmentCompleteness OnlineColumns
open OnlinePolynomials BrakedownEncode BrakedownDimensions

variable {D : Digest} {F ε Err : Type} [Field F] {S : Sprs F}

section Lengths

variable {code postcode : S.CsMat} {codes : S.CsMat × S.CsMat} {xi w : List F}

theorem length_multiplyInto {inStart outStart : ℕ}
    (h : (multiplyInto S code inStart outStart xi : Fallible ε _) = .ok w) :
    w.length = xi.length := by
  obtain ⟨_, hout, h⟩ := bind_eq_ok.mp h
  obtain ⟨_, hrows, h⟩ := bind_eq_ok.mp h
  obtain ⟨_, -, h⟩ := bind_eq_ok.mp h
  obtain ⟨product, -, h⟩ := bind_eq_ok.mp h
  obtain ⟨_, hproduct, h⟩ := bind_eq_ok.mp h
  obtain rfl := Except.ok.inj h
  have hout := assert_eq_ok.mp hout
  have hrows := assert_eq_ok.mp hrows
  have hproduct := assert_eq_ok.mp hproduct
  rw [List.length_drop] at hrows
  rw [List.length_append, List.length_append, List.length_take, List.length_drop, List.length_drop,
    hproduct]
  omega

theorem length_precodeStep {s s' : List F × ℕ}
    (h : (precodeStep S s code : Fallible ε _) = .ok s') : s'.1.length = s.1.length := by
  obtain ⟨xi, hxi, h⟩ := bind_eq_ok.mp h
  obtain rfl := Except.ok.inj h
  exact length_multiplyInto hxi

theorem length_reedSolomon (xi xo : List F) : (reedSolomon xi xo).length = xo.length := by
  rw [reedSolomon_eq, evaluations, List.length_ofFn]

theorem length_baseCode {s : List F × ℕ} {s' : List F × ℕ × ℕ}
    (h : (baseCode S code postcode s : Fallible ε _) = .ok s') : s'.1.length = s.1.length := by
  obtain ⟨input, -, h⟩ := bind_eq_ok.mp h
  obtain ⟨inArr, -, h⟩ := bind_eq_ok.mp h
  obtain ⟨outArr, hout, h⟩ := bind_eq_ok.mp h
  obtain rfl := Except.ok.inj h
  obtain ⟨hlo, hhi, rfl⟩ := slice_eq_ok.mp hout
  simp only [List.length_append, length_reedSolomon, List.length_take, List.length_drop]
  omega

theorem length_postcodeStep {s s' : List F × ℕ × ℕ}
    (h : (postcodeStep S s codes : Fallible ε _) = .ok s') : s'.1.length = s.1.length := by
  obtain ⟨-, -, h⟩ := bind_eq_ok.mp h
  obtain ⟨xi, hxi, h⟩ := bind_eq_ok.mp h
  obtain rfl := Except.ok.inj h
  exact length_multiplyInto hxi

omit [Field F] in
theorem length_rounds {α β : Type} {step : List F × α → β → Fallible ε (List F × α)}
    (hstep : ∀ s b s', step s b = .ok s' → s'.1.length = s.1.length) {l : List β}
    {s s' : List F × α} (h : l.foldlM step s = .ok s') : s'.1.length = s.1.length := by
  induction l generalizing s with
  | nil =>
    obtain rfl := Except.ok.inj h
    rfl
  | cons b l ih =>
    rw [List.foldlM_cons] at h
    obtain ⟨s₁, hfirst, hrest⟩ := bind_eq_ok.mp h
    exact (ih hrest).trans (hstep s b s₁ hfirst)

theorem length_encode {precodes postcodes : List S.CsMat}
    (h : (encode S xi precodes postcodes : Fallible ε _) = .ok w) : w.length = xi.length := by
  obtain ⟨length, -, h⟩ := bind_eq_ok.mp h
  obtain ⟨-, -, h⟩ := bind_eq_ok.mp h
  obtain ⟨s, hforth, h⟩ := bind_eq_ok.mp h
  obtain ⟨precode, -, h⟩ := bind_eq_ok.mp h
  obtain ⟨postcode, -, h⟩ := bind_eq_ok.mp h
  obtain ⟨s₁, hbase, h⟩ := bind_eq_ok.mp h
  obtain ⟨s₂, hback, h⟩ := bind_eq_ok.mp h
  obtain ⟨first, -, h⟩ := bind_eq_ok.mp h
  obtain ⟨-, -, h⟩ := bind_eq_ok.mp h
  obtain ⟨-, -, h⟩ := bind_eq_ok.mp h
  obtain rfl := Except.ok.inj h
  have hdown := length_rounds (fun _ _ _ hround => length_precodeStep hround) hforth
  have hup := length_rounds (fun _ _ _ hround => length_postcodeStep hround) hback
  exact hup.trans ((length_baseCode hbase).trans hdown)

end Lengths

section Encoding

/-- Field and constants of a code as the encodings need them; how many columns are opened is
computed with floating-point numbers. -/
structure Soundness where
  nColOpens : ℕ
  flog2 : ℕ

variable (spec : SdigSpecification) (densities : Densities) (gen : CodeGenerator S)
  (sound : Soundness)

def degreeTests (len : ℕ) : Fallible ε ℕ := nDegreeTests 128 len sound.flog2

def rowsOf (len np : ℕ) : Fallible ε ℕ := do
  assert (np ≠ 0)
  let nr := (len + np - 1) / np
  assert (np * nr ≥ len)
  assert (np * (← checkedSub nr 1) < len)
  return nr

def rowLength (len np1 : ℕ) : Fallible ε ℕ := do
  let np1 := if np1 > len then len else np1
  let nr1 ← rowsOf len np1
  let nd1 ← degreeTests sound (np1 * 2)
  let np2 := np1 / 2
  let nr2 ← rowsOf len np2
  let nd2 ← degreeTests sound (np2 * 2)
  let sz1 := sound.nColOpens * nr1 + (1 + nd1) * np1
  let sz2 := sound.nColOpens * nr2 + (1 + nd2) * np2
  return if sz1 < sz2 then np1 else np2

def newFromNp1 (fuel len np1 seed : ℕ) : Option (Fallible ε (SdigEncoding S)) :=
  match (rowLength sound len np1 : Fallible ε ℕ) with
  | .error e => some (.error e)
  | .ok nPerRow =>
    (generate spec densities gen fuel nPerRow seed).map fun codes => do
      let (precodes, postcodes) ← codes
      let first ← index precodes 0
      assert (nPerRow = S.cols first)
      let nCols ← codewordLength S precodes postcodes
      return ⟨nPerRow, nCols, precodes, postcodes⟩

/-- The label macro does not substitute inside its string literals. An encoding that `newFromNp1`
made panics neither where its sizes are checked nor where its tests are counted. -/
def lcEncoding (encoding : SdigEncoding S) : LcEncoding F Err where
  labelDT := "$l//DT".toUTF8.toList
  labelPR := "$l//PR".toUTF8.toList
  labelPE := "$l//PE".toUTF8.toList
  labelCO := "$l//CO".toUTF8.toList
  encode v := encode S v encoding.precodes encoding.postcodes
  length_encode := length_encode
  getDims len := ((len + encoding.nPerRow - 1) / encoding.nPerRow, encoding.nPerRow, encoding.nCols)
  dimsOk n m := (dimsOk encoding n m : Fallible Empty Bool).toOption.getD false
  getNColOpens := sound.nColOpens
  getNDegreeTests := (degreeTests sound encoding.nCols : Fallible Empty ℕ).toOption.getD 0

end Encoding

section Sizes

variable {spec : SdigSpecification} {densities : Densities} {gen : CodeGenerator S}
  {sound : Soundness} {len np n : ℕ}

omit [Field F] in
theorem rowsOf_eq (hlen : 0 < len) (hnp : 0 < np) :
    (rowsOf len np : Fallible ε ℕ) = .ok (divCeil len np) := by
  have hrows : (len + np - 1) / np = divCeil len np := rfl
  have hpos : 0 < divCeil len np := (lt_divCeil_iff hnp).mpr (by omega)
  have hge : np * divCeil len np ≥ len := by
    rw [Nat.mul_comm]
    exact le_divCeil_mul len hnp
  have hlt : np * (divCeil len np - 1) < len := by
    rw [Nat.mul_comm]
    exact (lt_divCeil_iff hnp).mp (Nat.sub_lt hpos Nat.one_pos)
  have hsub : (checkedSub (divCeil len np) 1 : Fallible ε ℕ) = .ok (divCeil len np - 1) :=
    checkedSub_of hpos
  unfold rowsOf
  simp only [hrows, hsub, assert_of hnp.ne', assert_of hge, assert_of hlt, ok_bind, pure_eq_ok]

theorem degreeTests_eq (h : log2 (2 * len) < sound.flog2) (hnp : np ≤ len) :
    (degreeTests sound (np * 2) : Fallible ε ℕ) = 
      .ok (divCeil 128 (sound.flog2 - log2 (np * 2))) := by
  have hmono : log2 (np * 2) ≤ log2 (2 * len) := by
    rw [log2_eq, log2_eq]
    exact Nat.clog_mono_right 2 (by omega)
  exact nDegreeTests_eq_ok.mpr ⟨hmono.trans_lt h, rfl⟩

theorem exists_rowLength {baselen np1 : ℕ} (hnp1 : 2 * baselen + 1 < np1)
    (hlen : 2 * baselen + 1 < len) (hfield : log2 (2 * len) < sound.flog2) :
    ∃ n, (rowLength sound len np1 : Fallible ε ℕ) = .ok n ∧ baselen < n ∧ n ≤ len := by
  have hpos : 0 < len := by omega
  obtain ⟨np, hnp⟩ : ∃ np, np = if np1 > len then len else np1 := ⟨_, rfl⟩
  have hbound : 2 * baselen + 1 < np ∧ np ≤ len := by
    rw [hnp]
    split <;> omega
  obtain ⟨hlower, hupper⟩ := hbound
  have hrows := rowsOf_eq (ε := ε) hpos (show 0 < np by omega)
  have hrows' := rowsOf_eq (ε := ε) hpos (show 0 < np / 2 by omega)
  have htests : (degreeTests sound (np * 2) : Fallible ε ℕ) = _ := degreeTests_eq hfield hupper
  have htests' : (degreeTests sound (np / 2 * 2) : Fallible ε ℕ) = _ :=
    degreeTests_eq hfield (by omega)
  unfold rowLength
  simp only [← hnp, hrows, htests, hrows', htests', ok_bind, pure_eq_ok]
  refine ⟨_, rfl, ?_⟩
  split <;> omega

theorem expand_le (h : spec ∈ sdigCodes) (hn : spec.baselen < n) : expand spec n ≤ 2 * n := by
  simp only [sdigCodes, List.mem_cons, List.not_mem_nil, or_false] at h
  rcases h with rfl | rfl | rfl | rfl | rfl | rfl
  all_goals
    simp only [expand, ceilMuldiv, sdigCode1, sdigCode2, sdigCode3, sdigCode4, sdigCode5,
      sdigCode6] at hn ⊢
    omega

end Sizes

section Commitments

variable {spec : SdigSpecification} {densities : Densities} {gen : CodeGenerator S}
  {sound : Soundness} {m n : ℕ} {codes : List (S.CsMat × S.CsMat)}

def encodingOf (S : Sprs F) (m n : ℕ) (codes : List (S.CsMat × S.CsMat)) : SdigEncoding S :=
  ⟨n, codeLength S.rows S.cols m codes, codes.map Prod.fst, codes.map Prod.snd⟩

theorem newFromNp1_of_chains {fuel len np1 seed : ℕ} (hcodes : codes ≠ [])
    (h : Chains S.rows S.cols m n codes)
    (hlength : (rowLength sound len np1 : Fallible ε ℕ) = .ok n)
    (hgen : (generate spec densities gen fuel n seed : Option (Fallible ε _)) =
      some (.ok (codes.map Prod.fst, codes.map Prod.snd))) :
    (newFromNp1 spec densities gen sound fuel len np1 seed : Option (Fallible ε _)) =
      some (.ok (encodingOf S m n codes)) := by
  obtain ⟨code, hfirst, hcols⟩ := first_of_chains (ε := ε) hcodes h
  have hword := codewordLength_eq (ε := ε) hcodes h
  unfold newFromNp1
  rw [hlength]
  dsimp only
  rw [hgen, Option.map_some]
  simp only [ok_bind, hfirst, assert_of hcols.symm, hword, pure_eq_ok]
  rfl

theorem exists_commit [FieldHash F] (hcodes : codes ≠ []) (h : Chains S.rows S.cols m n codes)
    (hpos : 0 < n) (hlt : n < codeLength S.rows S.cols m codes)
    (hword : codeLength S.rows S.cols m codes ≤ 2 ^ 63) {coeffs : List F} (hne : coeffs ≠ []) :
    ∃ comm, commit D coeffs (lcEncoding sound (encodingOf S m n codes) : LcEncoding F Err) =
        .ok comm ∧ comm.nRows = divCeil coeffs.length n ∧ comm.nPerRow = n ∧
          comm.nCols = codeLength S.rows S.cols m codes := by
  have hlen : 0 < coeffs.length := List.length_pos_iff.mpr hne
  have hrows : 0 < divCeil coeffs.length n := (lt_divCeil_iff hpos).mpr (by omega)
  have hdims := dimsOk_of_chains (ε := Empty) hcodes h hlt
  apply commit_total
  · rfl
  · exact le_divCeil_mul _ hpos
  · exact (lt_divCeil_iff hpos).mp (Nat.sub_lt hrows Nat.one_pos)
  · exact congrArg (fun x => (Except.toOption x).getD false) hdims
  · exact hlt.le
  · omega
  · exact hword
  · exact fun v hv => ⟨_, encode_eq hcodes h v hv⟩

end Commitments

section EndToEnd

def innerTensor (x : F) (nPerRow : ℕ) : List F := List.iterate (· * x) 1 nPerRow

/-- The powers across the rows start over behind the last one along a row. -/
def outerTensor (x : F) (nPerRow nRows : ℕ) : List F :=
  List.iterate (· * (x * (innerTensor x nPerRow).getLastD 0)) 1 nRows

theorem iterate_eq_powers (x : F) (n : ℕ) :
    List.iterate (· * x) 1 n = (List.range n).map (x ^ ·) := by
  refine List.ext_getElem (by simp) fun i hi _ => ?_
  rw [List.getElem_iterate, List.getElem_map, List.getElem_range, mul_right_iterate_apply_one]

theorem outerTensor_eq (x : F) {nPerRow : ℕ} (h : 0 < nPerRow) (nRows : ℕ) :
    outerTensor x nPerRow nRows = (List.range nRows).map ((x ^ nPerRow) ^ ·) := by
  obtain ⟨k, rfl⟩ := Nat.exists_eq_succ_of_ne_zero h.ne'
  have hlast : (innerTensor x (k + 1)).getLastD 0 = x ^ k := by
    rw [innerTensor, iterate_eq_powers, List.range_succ, List.map_append, List.map_singleton,
      List.getLastD_concat]
  rw [outerTensor, hlast, ← pow_succ', iterate_eq_powers]

variable (C : Challenges F) {enc : LcEncoding F Err} {comm : LcCommit D F} [FieldHash F]
  [DecidableEq F]

theorem exists_proof (hc : Committed enc comm) (hlin : LinearOnRows enc comm.nPerRow comm.nCols)
    (hopens : 0 < enc.getNColOpens) {outer inner : List F} (houter : outer.length = comm.nRows)
    (hinner : inner.length = comm.nPerRow) (tr : C.Transcript) :
    ∃ proof tr', (prove C enc comm outer).run tr = .ok proof tr' ∧
      proof.getNPerRow = comm.nPerRow ∧ proof.getNCols = comm.nCols ∧
      (verify C enc hc.merkleized.tree.levelOrder.root outer inner proof).run tr =
        .ok (FoundationInnerProducts.dot inner
          (combine comm.nPerRow comm.nRows comm.coeffs outer)) tr' := by
  obtain ⟨ps, tr₁, htests⟩ : ∃ ps tr₁, (forEach (List.range enc.getNDegreeTests) fun _ =>
      proveDegreeTest C enc comm).run tr = .ok ps tr₁ :=
    forEach_total (fun _ _ s => ⟨_, _, run_proveDegreeTest C hc s⟩) tr
  refine ⟨_, _, run_prove C hc houter htests, length_combine .., rfl, ?_⟩
  exact run_verify C hc hlin hopens houter hinner htests

theorem exists_evaluation {coeffs : List F} (hcommit : commit D coeffs enc = .ok comm)
    (hc : Committed enc comm) (hlin : LinearOnRows enc comm.nPerRow comm.nCols)
    (hopens : 0 < enc.getNColOpens) (hpos : 0 < comm.nPerRow)
    (hlen : coeffs.length ≤ comm.nRows * comm.nPerRow) (x : F) (tr : C.Transcript) :
    ∃ proof tr', (prove C enc comm (outerTensor x comm.nPerRow comm.nRows)).run tr =
        .ok proof tr' ∧
      proof.getNPerRow = comm.nPerRow ∧ proof.getNCols = comm.nCols ∧
      (verify C enc hc.merkleized.tree.levelOrder.root (outerTensor x comm.nPerRow comm.nRows)
        (innerTensor x comm.nPerRow) proof).run tr = .ok (value coeffs x) tr' := by
  obtain ⟨-, hentries⟩ := commit_eq_ok hcommit
  have houter := outerTensor_eq x hpos comm.nRows
  have hinner : innerTensor x comm.nPerRow = _ := iterate_eq_powers x comm.nPerRow
  obtain ⟨proof, tr', hprove, hproofRow, hproofCols, hverify⟩ := exists_proof C hc hlin hopens
    (show (outerTensor x comm.nPerRow comm.nRows).length = comm.nRows by simp [houter])
    (show (innerTensor x comm.nPerRow).length = comm.nPerRow by simp [hinner]) tr
  refine ⟨proof, tr', hprove, hproofRow, hproofCols, ?_⟩
  rw [hverify, houter, hinner, dot_combine_powers hentries, ← value_rows hlen]

/-- A commitment is made, proved and opened at any point: the verifier makes the encoding again of
the sizes in the proof and finds the value of the polynomial. -/
theorem end_to_end {spec : SdigSpecification} (hspec : spec ∈ sdigCodes) (densities : Densities)
    (gen : CodeGenerator S) (sound : Soundness) (hopens : 0 < sound.nColOpens) (coeffs : List F)
    (np1 fuel seed : ℕ) (hnp1 : 2 * spec.baselen + 1 < np1)
    (hlen : 2 * spec.baselen + 1 < coeffs.length) (hfuel : coeffs.length < fuel)
    (hword : 2 * coeffs.length ≤ 2 ^ 63) (hfield : log2 (2 * coeffs.length) < sound.flog2) :
    ∃ (encoding : SdigEncoding S) (comm : LcCommit D F) (root : LcRoot D),
      (newFromNp1 spec densities gen sound fuel coeffs.length np1 seed :
        Option (Fallible ε _)) = some (.ok encoding) ∧
      commit D coeffs (lcEncoding sound encoding : LcEncoding F Err) = .ok comm ∧
      (getRoot comm : Fallible ε _) = .ok root ∧
      ∀ (x : F) (tr : C.Transcript), ∃ proof tr',
        (prove C (lcEncoding sound encoding : LcEncoding F Err) comm
          (outerTensor x comm.nPerRow comm.nRows)).run tr = .ok proof tr' ∧
        (newFromDims spec densities gen fuel proof.getNPerRow proof.getNCols seed :
          Option (Fallible ε _)) = some (.ok encoding) ∧
        (verify C (lcEncoding sound encoding : LcEncoding F Err) root.root
          (outerTensor x comm.nPerRow comm.nRows) (innerTensor x comm.nPerRow) proof).run tr =
            .ok (value coeffs x) tr' := by
  have hcontracts := contracts_of_mem hspec
  obtain ⟨n, hlength, hn, hle⟩ := exists_rowLength (ε := ε) hnp1 hlen hfield
  obtain ⟨sizes, last, hdescends, hrun⟩ := exists_descends hcontracts hn
  obtain ⟨codes, hcodes, hchain, hcode, hgen⟩ := hdescends.exists_codes (ε := ε) densities
    hcontracts (hrun fuel (by omega)) gen seed
  have hroom : n < codeLength S.rows S.cols (expand spec last) codes := by
    have hgrows := hcontracts.expand_gt hn
    omega
  have hsize : codeLength S.rows S.cols (expand spec last) codes ≤ 2 ^ 63 := by
    have hbound := expand_le hspec hn
    omega
  have hpos : 0 < n := by omega
  have hne : coeffs ≠ [] := by
    intro hnil
    rw [hnil] at hlen
    cases hlen
  obtain ⟨comm, hcommit, hrows, hper, hcols⟩ : ∃ comm : LcCommit D F, commit D coeffs
      (lcEncoding sound (encodingOf S (expand spec last) n codes) : LcEncoding F Err) =
        .ok comm ∧ _ := exists_commit hcodes hchain hpos hroom hsize hne
  obtain ⟨hc, -⟩ := commit_eq_ok hcommit
  have hlin : LinearOnRows (lcEncoding sound (encodingOf S (expand spec last) n codes) :
      LcEncoding F Err) comm.nPerRow comm.nCols := by
    rw [hper, hcols]
    exact linearOnRows_of_chains hcodes hchain fun _ => rfl
  have hlen' : coeffs.length ≤ comm.nRows * comm.nPerRow := by
    rw [hrows, hper]
    exact le_divCeil_mul _ hpos
  refine ⟨_, comm, _, newFromNp1_of_chains hcodes hchain hlength hgen, hcommit, getRoot_eq hc,
    fun x tr => ?_⟩
  obtain ⟨proof, tr', hprove, hproofRow, hproofCols, hverify⟩ :=
    exists_evaluation C hcommit hc hlin hopens (hper ▸ hpos) hlen' x tr
  refine ⟨proof, tr', hprove, ?_, hverify⟩
  rw [hproofRow, hproofCols, hper, hcols]
  exact newFromDims_of_chains hcodes hchain hgen

/-- Matrices with the given number of entries in every column, which change with the state. -/
def bandGenerator : CodeGenerator (dense (ZMod 257)) where
  Rng := ℕ
  seedFromU64 seed stream := seed + stream
  genCode n m d rng := (⟨(m, n), fun row column =>
    if (row.val + column.val + rng) % m < d then (row.val + 3 * column.val + rng + 1 : ℕ) else 0⟩,
    rng + 1)
  cols_genCode _ _ _ _ := rfl
  rows_genCode _ _ _ _ := rfl

theorem end_to_end_small : ∃ (encoding : SdigEncoding (dense (ZMod 257)))
    (comm : LcCommit byteSum (ZMod 257)) (root : LcRoot byteSum),
    (newFromNp1 sdigCode3 ⟨fun _ => 1, fun _ => 1, fun _ => 1⟩ bandGenerator ⟨1, 8⟩ 43 42 50 0 :
      Option (Fallible Empty _)) = some (.ok encoding) ∧
    commit byteSum (.replicate 42 1) (lcEncoding ⟨1, 8⟩ encoding : LcEncoding (ZMod 257) Empty) =
      .ok comm ∧
    (getRoot comm : Fallible Empty _) = .ok root ∧
    ∃ proof tr', (verify counting (lcEncoding ⟨1, 8⟩ encoding : LcEncoding (ZMod 257) Empty)
      root.root (outerTensor 2 comm.nPerRow comm.nRows) (innerTensor 2 comm.nPerRow) proof).run
        (0 : ℕ) = .ok (value (.replicate 42 1) 2) tr' := by
  obtain ⟨encoding, comm, root, hnew, hcommit, hroot, hproofs⟩ := end_to_end (ε := Empty)
    (D := byteSum) counting (show sdigCode3 ∈ sdigCodes by simp [sdigCodes])
    ⟨fun _ => 1, fun _ => 1, fun _ => 1⟩ bandGenerator ⟨1, 8⟩ Nat.one_pos
    (.replicate 42 1) 50 43 0 (by decide) (by decide) (by decide) (by decide) (by decide)
  obtain ⟨proof, tr', -, -, hverify⟩ := hproofs 2 (0 : ℕ)
  exact ⟨encoding, comm, root, hnew, hcommit, hroot, proof, tr', hverify⟩

end EndToEnd

end BrakedownCommitment
