import ProofOfStorage.BrakedownEncode

/-! # The sizes of the expander code

The sizes shrink by a rate down to the base length, and every codeword has the length that another
rate gives for its input. Products by a rate are rounded up. What is computed with floating-point
numbers only bounds the number of nonzero entries.
-/
namespace BrakedownDimensions

open FoundationFaults FoundationSlices BrakedownEncode

structure SdigSpecification where
  alphaNum : ℕ
  alphaDen : ℕ
  betaNum : ℕ
  betaDen : ℕ
  rNum : ℕ
  rDen : ℕ
  baselen : ℕ

def sdigCode1 : SdigSpecification := ⟨239, 2000, 71, 2500, 71, 50, 20⟩
def sdigCode2 : SdigSpecification := ⟨69, 500, 111, 2500, 147, 100, 20⟩
def sdigCode3 : SdigSpecification := ⟨89, 500, 61, 1000, 1521, 1000, 20⟩
def sdigCode4 : SdigSpecification := ⟨1, 5, 41, 500, 41, 25, 20⟩
def sdigCode5 : SdigSpecification := ⟨211, 1000, 97, 1000, 202, 125, 20⟩
def sdigCode6 : SdigSpecification := ⟨119, 500, 241, 2000, 43, 25, 20⟩

def sdigCodes : List SdigSpecification :=
  [sdigCode1, sdigCode2, sdigCode3, sdigCode4, sdigCode5, sdigCode6]

/-- The floating-point parts of the row densities, rounded up: the bounds from a row size, and the
quotient by the size of the field. -/
structure Densities where
  cnBound : ℕ → ℕ
  dnBound : ℕ → ℕ
  overLog2p : ℕ → ℕ

variable {ε : Type}

def ceilMuldiv (n num den : ℕ) : ℕ := (n * num + den - 1) / den

abbrev Dims := ℕ × ℕ × ℕ

section Sizes

variable (spec : SdigSpecification) (densities : Densities)

/-- The iteration that is collected while the sizes are above the base length; `none` when they
still are after `fuel` rounds. -/
def collectSizes : ℕ → ℕ → Option (List ℕ)
  | 0, _ => none
  | fuel + 1, ni =>
    if ni > spec.baselen then
      (collectSizes fuel (ceilMuldiv ni spec.alphaNum spec.alphaDen)).map (ni :: ·)
    else some []

def preDim (nm : ℕ × ℕ) : Dims :=
  let (ni, mi) := nm
  let cn := min
    (max (ceilMuldiv ni (32 * spec.betaNum) (25 * spec.betaDen))
      (4 + ceilMuldiv ni spec.betaNum spec.betaDen))
    (densities.cnBound ni)
  (ni, mi, min cn mi)

def preDims (tmp : List ℕ) : Fallible ε (List Dims) := do
  let tmp ← match tmp.getLast? with
    | some ni => do
      let last := ceilMuldiv ni spec.alphaNum spec.alphaDen
      assert (last ≤ spec.baselen)
      pure (tmp ++ [last])
    | none => pure tmp
  assert (tmp.length > 1)
  return (tmp.zip tmp.tail).map (preDim spec densities)

def postDim (dims : Dims) : Fallible ε Dims := do
  let (ni, mi, _) := dims
  let niprime := ceilMuldiv mi spec.rNum spec.rDen
  let miprime ← checkedSub (← checkedSub (ceilMuldiv ni spec.rNum spec.rDen) ni) niprime
  let tmp1 := ceilMuldiv ni (2 * spec.betaNum) spec.betaDen
  let tmp2 := (← checkedSub (ceilMuldiv ni spec.rNum spec.rDen) ni) + 110
  let dn := min (tmp1 + densities.overLog2p tmp2) (densities.dnBound ni)
  return (niprime, miprime, min dn miprime)

def getDims (fuel n : ℕ) : Option (Fallible ε (List Dims × List Dims)) :=
  if n > spec.baselen then
    (collectSizes spec fuel n).map fun tmp => do
      let preDims ← preDims spec densities tmp
      let postDims ← preDims.mapM (postDim spec densities)
      assert (preDims.length = postDims.length)
      return (preDims, postDims)
  else some panicked

end Sizes

/-! The sizes from `n` on, without the loop. -/

def shrink (spec : SdigSpecification) (n : ℕ) : ℕ := ceilMuldiv n spec.alphaNum spec.alphaDen

def expand (spec : SdigSpecification) (n : ℕ) : ℕ := ceilMuldiv n spec.rNum spec.rDen

/-- The sizes above the base length from `n` on, and the first size that is not above it. -/
inductive Descends (spec : SdigSpecification) : ℕ → List ℕ → ℕ → Prop where
  | last {n : ℕ} (hn : spec.baselen < n) (hlast : shrink spec n ≤ spec.baselen) :
    Descends spec n [n] (shrink spec n)
  | next {n last : ℕ} {sizes : List ℕ} (hn : spec.baselen < n)
    (hrest : Descends spec (shrink spec n) sizes last) : Descends spec n (n :: sizes) last

/-- Above the base length sizes shrink, and a codeword has room for its input and the codeword of
the next size. -/
structure Contracts (spec : SdigSpecification) : Prop where
  shrink_pos : ∀ {n}, spec.baselen < n → 0 < shrink spec n
  shrink_lt : ∀ {n}, spec.baselen < n → shrink spec n < n
  expand_gt : ∀ {n}, spec.baselen < n → n + expand spec (shrink spec n) < expand spec n
  expand_pos : ∀ {n}, 0 < n → 0 < expand spec n

theorem contracts_of_mem {spec : SdigSpecification} (h : spec ∈ sdigCodes) : Contracts spec := by
  simp only [sdigCodes, List.mem_cons, List.not_mem_nil, or_false] at h
  rcases h with rfl | rfl | rfl | rfl | rfl | rfl
  all_goals
    constructor
    all_goals
      intro n hn
      simp only [shrink, expand, ceilMuldiv, sdigCode1, sdigCode2, sdigCode3, sdigCode4, sdigCode5,
        sdigCode6] at hn ⊢
      omega

section Descent

variable {spec : SdigSpecification} {densities : Densities} {n last : ℕ} {sizes : List ℕ}

theorem exists_descends (hspec : Contracts spec) (hn : spec.baselen < n) :
    ∃ sizes last, Descends spec n sizes last ∧
      ∀ fuel, n < fuel → collectSizes spec fuel n = some sizes := by
  induction n using Nat.strong_induction_on with
  | _ n ih =>
    have hlt := hspec.shrink_lt hn
    by_cases hlast : shrink spec n ≤ spec.baselen
    · refine ⟨_, _, .last hn hlast, ?_⟩
      intro fuel hfuel
      obtain ⟨fuel, rfl⟩ := Nat.exists_eq_add_of_lt hfuel
      have hstop : collectSizes spec (n + fuel) (shrink spec n) = some [] := by
        obtain ⟨k, hk⟩ := Nat.exists_eq_add_of_lt (show 0 < n + fuel by omega)
        rw [hk, Nat.zero_add, collectSizes, if_neg (by omega)]
      change (if n > spec.baselen then
        (collectSizes spec (n + fuel) (shrink spec n)).map (n :: ·) else some []) = _
      rw [if_pos hn, hstop, Option.map_some]
    · obtain ⟨sizes, last, hrest, hrun⟩ := ih _ hlt (by omega)
      refine ⟨_, _, .next hn hrest, ?_⟩
      intro fuel hfuel
      obtain ⟨fuel, rfl⟩ := Nat.exists_eq_add_of_lt hfuel
      change (if n > spec.baselen then
        (collectSizes spec (n + fuel) (shrink spec n)).map (n :: ·) else some []) = _
      rw [if_pos hn, hrun _ (by omega), Option.map_some]

theorem Descends.baselen_lt (h : Descends spec n sizes last) : spec.baselen < n := by
  cases h with
  | last hn => exact hn
  | next hn => exact hn

theorem Descends.getLast (h : Descends spec n sizes last) :
    ∃ ni, sizes.getLast? = some ni ∧ shrink spec ni = last ∧ last ≤ spec.baselen := by
  induction h with
  | last hn hlast => exact ⟨_, rfl, rfl, hlast⟩
  | next hn hrest ih =>
    obtain ⟨ni, hni, hlast⟩ := ih
    refine ⟨ni, ?_, hlast⟩
    rw [List.getLast?_cons, hni]
    rfl

theorem Descends.zip_tail (h : Descends spec n sizes last) :
    (sizes ++ [last]).zip (sizes ++ [last]).tail = sizes.map fun ni => (ni, shrink spec ni) := by
  induction h with
  | last hn hlast => rfl
  | next hn hrest ih =>
    cases hrest with
    | last hn' hlast => rfl
    | next hn' hrest =>
      simp only [List.cons_append, List.tail_cons, List.zip_cons_cons, List.map_cons] at ih ⊢
      rw [ih]

def roundDims (spec : SdigSpecification) (densities : Densities) (ni : ℕ) : Dims × Dims :=
  let tmp1 := ceilMuldiv ni (2 * spec.betaNum) spec.betaDen
  let tmp2 := expand spec ni - ni + 110
  let miprime := expand spec ni - ni - expand spec (shrink spec ni)
  (preDim spec densities (ni, shrink spec ni), expand spec (shrink spec ni), miprime,
    min (min (tmp1 + densities.overLog2p tmp2) (densities.dnBound ni)) miprime)

theorem Descends.preDims_eq (h : Descends spec n sizes last) :
    (preDims spec densities sizes : Fallible ε _) =
      .ok (sizes.map fun ni => (roundDims spec densities ni).1) := by
  obtain ⟨ni, hni, hlast, hle⟩ := h.getLast
  have hsize : (sizes ++ [last]).length > 1 := by
    cases h <;> simp
  have hceil : ceilMuldiv ni spec.alphaNum spec.alphaDen = last := hlast
  unfold preDims
  simp only [hni, hceil, assert_of hle, ok_bind, pure_eq_ok, assert_of hsize, h.zip_tail,
    List.map_map]
  rfl

theorem postDim_eq (hspec : Contracts spec) {ni : ℕ} (hni : spec.baselen < ni) :
    (postDim spec densities (roundDims spec densities ni).1 : Fallible ε _) =
      .ok (roundDims spec densities ni).2 := by
  have hroom := hspec.expand_gt hni
  have hfirst : ni ≤ ceilMuldiv ni spec.rNum spec.rDen := by
    change ni ≤ expand spec ni
    omega
  have hsecond : ceilMuldiv (shrink spec ni) spec.rNum spec.rDen ≤
      ceilMuldiv ni spec.rNum spec.rDen - ni := by
    change expand spec (shrink spec ni) ≤ expand spec ni - ni
    omega
  unfold postDim roundDims preDim
  simp only [checkedSub_of hfirst, checkedSub_of hsecond, ok_bind, pure_eq_ok]
  rfl

theorem Descends.forall_lt (h : Descends spec n sizes last) : ∀ ni ∈ sizes, spec.baselen < ni := by
  induction h with
  | last hn hlast =>
    intro ni hni
    rw [List.mem_singleton.mp hni]
    exact hn
  | next hn hrest ih =>
    intro ni hni
    rcases List.mem_cons.mp hni with rfl | hmem
    · exact hn
    · exact ih ni hmem

theorem Descends.getDims_eq (hspec : Contracts spec) (h : Descends spec n sizes last) {fuel : ℕ}
    (hrun : collectSizes spec fuel n = some sizes) :
    (getDims spec densities fuel n : Option (Fallible ε _)) =
      some (.ok (sizes.map fun ni => (roundDims spec densities ni).1,
        sizes.map fun ni => (roundDims spec densities ni).2)) := by
  have hpost : ((sizes.map fun ni => (roundDims spec densities ni).1).mapM
      (postDim spec densities) : Fallible ε _) =
        .ok (sizes.map fun ni => (roundDims spec densities ni).2) := by
    rw [List.mapM_map]
    apply mapM_of_forall
    intro ni hni
    exact postDim_eq hspec (h.forall_lt ni hni)
  unfold getDims
  rw [if_pos h.baselen_lt, hrun, Option.map_some, h.preDims_eq, ok_bind, hpost, ok_bind,
    assert_of (by simp), ok_bind, pure_eq_ok]

def inputs (dims : Dims) : ℕ := dims.1

def outputs (dims : Dims) : ℕ := dims.2.1

variable (densities) in
/-- The rounded-up products telescope: a codeword is as long as the product of its input. -/
theorem Descends.chains (hspec : Contracts spec) (h : Descends spec n sizes last) :
    Chains outputs inputs (expand spec last) n (sizes.map (roundDims spec densities)) ∧
      codeLength outputs inputs (expand spec last) (sizes.map (roundDims spec densities)) =
        expand spec n := by
  have hround : ∀ {ni}, spec.baselen < ni → ni + expand spec (shrink spec ni) +
      (expand spec ni - ni - expand spec (shrink spec ni)) = expand spec ni := by
    intro ni hni
    have hroom := hspec.expand_gt hni
    omega
  induction h with
  | last hn hlast => exact ⟨⟨rfl, rfl, trivial⟩, hround hn⟩
  | next hn hrest ih =>
    obtain ⟨hchain, hlength⟩ := ih
    refine ⟨⟨rfl, hlength.symm, hchain⟩, ?_⟩
    rw [List.map_cons, codeLength, hlength]
    exact hround hn

variable (densities) in
theorem roundDims_pos (hspec : Contracts spec) {ni : ℕ} (hni : spec.baselen < ni) :
    ∀ dims ∈ [(roundDims spec densities ni).1, (roundDims spec densities ni).2],
      0 < inputs dims ∧ 0 < outputs dims := by
  have hshrink := hspec.shrink_pos hni
  have hexpand := hspec.expand_pos hshrink
  have hroom := hspec.expand_gt hni
  intro dims hdims
  rcases List.mem_pair.mp hdims with rfl | rfl
  · exact ⟨Nat.zero_lt_of_lt hni, hshrink⟩
  · refine ⟨hexpand, ?_⟩
    change 0 < expand spec ni - ni - expand spec (shrink spec ni)
    omega

theorem Descends.last_pos (hspec : Contracts spec) (h : Descends spec n sizes last) :
    0 < last := by
  induction h with
  | last hn hlast => exact hspec.shrink_pos hn
  | next hn hrest ih => exact ih

end Descent

/-! The matrices that are generated for the dimensions, and the encoding made of them. -/

variable {F : Type} [Field F]

/-- Random sparse matrices of a given shape, drawn from a stream of numbers. -/
structure CodeGenerator (S : Sprs F) where
  Rng : Type
  seedFromU64 : ℕ → ℕ → Rng
  genCode : ℕ → ℕ → ℕ → Rng → S.CsMat × Rng
  cols_genCode : ∀ n m d rng, S.cols (genCode n m d rng).1 = n
  rows_genCode : ∀ n m d rng, S.rows (genCode n m d rng).1 = m

structure SdigEncoding (S : Sprs F) where
  nPerRow : ℕ
  nCols : ℕ
  precodes : List S.CsMat
  postcodes : List S.CsMat

section Generate

variable {S : Sprs F} (spec : SdigSpecification) (densities : Densities) (gen : CodeGenerator S)

def genCodes (seed : ℕ) (round : (Dims × Dims) × ℕ) : S.CsMat × S.CsMat :=
  let (((ni, mi, cn), (nip, mip, dn)), i) := round
  let (precode, rng) := gen.genCode ni mi cn (gen.seedFromU64 seed i)
  let (postcode, _) := gen.genCode nip mip dn rng
  (precode, postcode)

def generate (fuel n seed : ℕ) : Option (Fallible ε (List S.CsMat × List S.CsMat)) :=
  (getDims spec densities fuel n).map fun dims => do
    let (preDims, postDims) ← dims
    assert (preDims.isEmpty = false)
    return ((preDims.zip postDims).zipIdx.map (genCodes gen seed)).unzip

def newFromDims (fuel nPerRow nCols seed : ℕ) : Option (Fallible ε (SdigEncoding S)) :=
  (generate spec densities gen fuel nPerRow seed).map fun codes => do
    let (precodes, postcodes) ← codes
    let first ← index precodes 0
    assert (nPerRow = S.cols first)
    assert (nCols = (← codewordLength S precodes postcodes))
    return ⟨nPerRow, nCols, precodes, postcodes⟩

def dimsOk (encoding : SdigEncoding S) (nPerRow nCols : ℕ) : Fallible ε Bool := do
  let ok := nPerRow < nCols
  let np1 := nPerRow == encoding.nPerRow
  let first ← index encoding.precodes 0
  let np2 := nPerRow == S.cols first
  let nc1 := nCols == encoding.nCols
  let length ← codewordLength S encoding.precodes encoding.postcodes
  let nc2 := nCols == length
  return ok && np1 && np2 && nc1 && nc2

end Generate
section Generated

variable {S : Sprs F} {spec : SdigSpecification} {densities : Densities} {n m : ℕ}

def SameShape (S : Sprs F) (dims : Dims × Dims) (code : S.CsMat × S.CsMat) : Prop :=
  (S.cols code.1 = inputs dims.1 ∧ S.rows code.1 = outputs dims.1) ∧
    S.cols code.2 = inputs dims.2 ∧ S.rows code.2 = outputs dims.2

theorem sameShape_genCodes (gen : CodeGenerator S) (seed : ℕ) (dims : List (Dims × Dims)) (i : ℕ) :
    List.Forall₂ (SameShape S) dims ((dims.zipIdx i).map (genCodes gen seed)) := by
  induction dims generalizing i with
  | nil => exact .nil
  | cons d dims ih =>
    rw [List.zipIdx_cons, List.map_cons]
    refine .cons ⟨⟨?_, ?_⟩, ?_, ?_⟩ (ih (i + 1))
    · exact gen.cols_genCode _ _ _ _
    · exact gen.rows_genCode _ _ _ _
    · exact gen.cols_genCode _ _ _ _
    · exact gen.rows_genCode _ _ _ _

theorem chains_of_sameShape {dims : List (Dims × Dims)} {codes : List (S.CsMat × S.CsMat)}
    (hshape : List.Forall₂ (SameShape S) dims codes) (h : Chains outputs inputs m n dims) :
    Chains S.rows S.cols m n codes ∧
      codeLength S.rows S.cols m codes = codeLength outputs inputs m dims := by
  induction hshape generalizing n with
  | nil => exact ⟨trivial, rfl⟩
  | cons hd hrest ih =>
    obtain ⟨⟨hcols, hrows⟩, hcols', hrows'⟩ := hd
    obtain ⟨hfirst, hpost, hchain⟩ := h
    obtain ⟨hchain', hlength⟩ := ih hchain
    refine ⟨⟨hcols.trans hfirst, ?_, ?_⟩, ?_⟩
    · rw [hcols', hlength]
      exact hpost
    · rw [hrows]
      exact hchain'
    · rw [codeLength, codeLength, hlength, hcols, hrows']

variable (densities) in
theorem Descends.exists_codes (hspec : Contracts spec) {sizes : List ℕ} {last fuel : ℕ}
    (h : Descends spec n sizes last) (hrun : collectSizes spec fuel n = some sizes)
    (gen : CodeGenerator S) (seed : ℕ) : ∃ codes, codes ≠ [] ∧
      Chains S.rows S.cols (expand spec last) n codes ∧
      codeLength S.rows S.cols (expand spec last) codes = expand spec n ∧
      (generate spec densities gen fuel n seed : Option (Fallible ε _)) =
        some (.ok (codes.map Prod.fst, codes.map Prod.snd)) := by
  obtain ⟨hchain, hlength⟩ := h.chains densities hspec
  have hshape := sameShape_genCodes gen seed (sizes.map (roundDims spec densities)) 0
  obtain ⟨hchain', hlength'⟩ := chains_of_sameShape hshape hchain
  have hsizes : sizes ≠ [] := by
    cases h <;> exact List.cons_ne_nil _ _
  refine ⟨_, ?_, hchain', hlength'.trans hlength, ?_⟩
  · intro hnil
    apply hsizes
    simpa using hnil
  · have hpre : (sizes.map fun ni => (roundDims spec densities ni).1).isEmpty = false := by
      simpa using hsizes
    have hzip : (sizes.map fun ni => (roundDims spec densities ni).1).zip
        (sizes.map fun ni => (roundDims spec densities ni).2) =
          sizes.map (roundDims spec densities) := List.zip_map'
    unfold generate
    rw [h.getDims_eq hspec hrun, Option.map_some]
    simp only [ok_bind, assert_of hpre, hzip, pure_eq_ok, List.unzip_eq_map]

theorem first_of_chains {codes : List (S.CsMat × S.CsMat)} (hcodes : codes ≠ [])
    (h : Chains S.rows S.cols m n codes) : ∃ code,
      (index (codes.map Prod.fst) 0 : Fallible ε _) = .ok code ∧ S.cols code = n := by
  cases codes with
  | nil => exact absurd rfl hcodes
  | cons code codes => exact ⟨code.1, rfl, h.1⟩

theorem dimsOk_of_chains {codes : List (S.CsMat × S.CsMat)} (hcodes : codes ≠ [])
    (h : Chains S.rows S.cols m n codes) (hlt : n < codeLength S.rows S.cols m codes) :
    (dimsOk ⟨n, codeLength S.rows S.cols m codes, codes.map Prod.fst, codes.map Prod.snd⟩ n
      (codeLength S.rows S.cols m codes) : Fallible ε _) = .ok true := by
  have hlength := codewordLength_eq (ε := ε) hcodes h
  obtain ⟨code, hfirst, hcols⟩ := first_of_chains (ε := ε) hcodes h
  unfold dimsOk
  simp only [hfirst, ok_bind, hlength, hcols, pure_eq_ok, hlt, decide_true, beq_self_eq_true,
    Bool.and_self]

theorem newFromDims_of_chains {gen : CodeGenerator S} {codes : List (S.CsMat × S.CsMat)}
    {fuel seed : ℕ} (hcodes : codes ≠ []) (h : Chains S.rows S.cols m n codes)
    (hgen : (generate spec densities gen fuel n seed : Option (Fallible ε _)) =
      some (.ok (codes.map Prod.fst, codes.map Prod.snd))) :
    (newFromDims spec densities gen fuel n (codeLength S.rows S.cols m codes) seed :
      Option (Fallible ε _)) = some (.ok ⟨n, codeLength S.rows S.cols m codes,
        codes.map Prod.fst, codes.map Prod.snd⟩) := by
  have hlength := codewordLength_eq (ε := ε) hcodes h
  obtain ⟨code, hfirst, hcols⟩ := first_of_chains (ε := ε) hcodes h
  unfold newFromDims
  rw [hgen, Option.map_some]
  simp only [ok_bind, hfirst, assert_of hcols.symm, hlength, assert_of, pure_eq_ok]

/-- The dimensions of a code fit together at every size, and the code made of them is accepted. -/
theorem dimensions_fit (hspec : spec ∈ sdigCodes) (densities : Densities)
    (hn : spec.baselen < n) : ∃ preDims postDims last,
      (∀ fuel, n < fuel → (getDims spec densities fuel n : Option (Fallible ε _)) =
        some (.ok (preDims, postDims))) ∧
      (∃ dims, preDims.getLast? = some dims ∧ outputs dims = last) ∧
      0 < last ∧ last ≤ spec.baselen ∧
      (∀ dims ∈ preDims ++ postDims, 0 < inputs dims ∧ 0 < outputs dims) ∧
      preDims.length = postDims.length ∧
      Chains outputs inputs (ceilMuldiv last spec.rNum spec.rDen) n (preDims.zip postDims) ∧
      n < ceilMuldiv n spec.rNum spec.rDen ∧
      ∀ {F : Type} [Field F] {S : Sprs F} (gen : CodeGenerator S) (seed fuel : ℕ), n < fuel →
        ∃ precodes postcodes,
          (generate spec densities gen fuel n seed : Option (Fallible ε _)) =
            some (.ok (precodes, postcodes)) ∧
          (codewordLength S precodes postcodes : Fallible ε _) =
            .ok (ceilMuldiv n spec.rNum spec.rDen) ∧
          (newFromDims spec densities gen fuel n (ceilMuldiv n spec.rNum spec.rDen) seed :
            Option (Fallible ε _)) = some (.ok
              ⟨n, ceilMuldiv n spec.rNum spec.rDen, precodes, postcodes⟩) ∧
          (dimsOk ⟨n, ceilMuldiv n spec.rNum spec.rDen, precodes, postcodes⟩ n
            (ceilMuldiv n spec.rNum spec.rDen) : Fallible ε _) = .ok true := by
  have hcontracts := contracts_of_mem hspec
  obtain ⟨sizes, last, h, hrun⟩ := exists_descends hcontracts hn
  have hroom : n < expand spec n := by
    have := hcontracts.expand_gt hn
    omega
  refine ⟨_, _, last, fun fuel hfuel => h.getDims_eq hcontracts (hrun fuel hfuel), ?_,
    h.last_pos hcontracts, ?_, ?_, by simp, ?_, hroom, ?_⟩
  · obtain ⟨ni, hni, hlast, -⟩ := h.getLast
    rw [List.getLast?_map, hni]
    exact ⟨_, rfl, hlast⟩
  · obtain ⟨-, -, -, hle⟩ := h.getLast
    exact hle
  · intro dims hdims
    rw [List.mem_append, List.mem_map, List.mem_map] at hdims
    rcases hdims with ⟨ni, hni, rfl⟩ | ⟨ni, hni, rfl⟩
    · exact roundDims_pos densities hcontracts (h.forall_lt ni hni) _ (by simp)
    · exact roundDims_pos densities hcontracts (h.forall_lt ni hni) _ (by simp)
  · rw [List.zip_map']
    exact (h.chains densities hcontracts).1
  · intro F _ S gen seed fuel hfuel
    obtain ⟨codes, hcodes, hchain, hlength, hgen⟩ :=
      h.exists_codes (ε := ε) densities hcontracts (hrun fuel hfuel) gen seed
    have hcodeword := codewordLength_eq (ε := ε) hcodes hchain
    have hnew := newFromDims_of_chains hcodes hchain hgen
    have hok := dimsOk_of_chains (ε := ε) hcodes hchain (by rw [hlength]; exact hroom)
    rw [hlength] at hcodeword hnew hok
    exact ⟨_, _, hgen, hcodeword, hnew, hok⟩

theorem dimensions_fit_small : ∃ preDims postDims last,
    (getDims sdigCode4 ⟨fun _ => 1, fun _ => 1, fun _ => 1⟩ 22 21 : Option (Fallible Empty _)) =
      some (.ok (preDims, postDims)) ∧
    (0 < last ∧ last ≤ 20) ∧
    Chains outputs inputs (ceilMuldiv last 41 25) 21 (preDims.zip postDims) ∧
    21 < ceilMuldiv 21 41 25 := by
  obtain ⟨preDims, postDims, last, hrun, -, hpos, hle, -, -, hchain, hlt, -⟩ :=
    dimensions_fit (ε := Empty) (n := 21) (show sdigCode4 ∈ sdigCodes by simp [sdigCodes])
      ⟨fun _ => 1, fun _ => 1, fun _ => 1⟩ (by decide)
  exact ⟨preDims, postDims, last, hrun 22 (by decide), ⟨hpos, hle⟩, hchain, hlt⟩

end Generated

end BrakedownDimensions
