import ProofOfStorage.BrakedownCommitment
import ProofOfStorage.FileDigests
import ProofOfStorage.OnlineRequests

/-! # Encodings for a number of coefficients

Of two numbers of columns, one half of the other, the one is taken with which proofs are smaller.
A row has half as many coefficients as there are columns.
-/
namespace LigeroCommitment

open FoundationFaults FoundationSlices FoundationInnerProducts FoundationPolynomials
open CommitmentTypes CommitmentMerkle CommitmentProof CommitmentCompleteness OnlineColumns
open OnlinePolynomials OnlineRequests FileDigests BrakedownCommitment

variable {F ε : Type} (fft : FieldFFT F)

/-- What is computed with floating-point numbers. The number of degree tests depends on the number
of columns, so this number is guessed first. -/
structure Estimates where
  guessedCols (len : ℕ) : ℕ
  leastCols (len degreeTests : ℕ) : ℕ

section Sizes

variable (est : Estimates) (s : ℕ)

def columnTests (nCols : ℕ) : Fallible ε ℕ := nDegreeTests 128 nCols fft.flog2

/-- The larger number of columns, if the transform goes up to it. -/
def firstCols (len : ℕ) : Fallible ε (Option ℕ) := do
  assert (nColOpens * len < 2 ^ 64)
  let ndt ← columnTests fft (est.guessedCols len)
  let nc := nextPowerOfTwo (est.leastCols len ndt)
  if nc > 2 ^ 63 then return none
  else
    assert (s < 64)
    return if nc > 2 ^ s then none else some nc

def chooseDims (len nc1 : ℕ) : Fallible ε (ℕ × ℕ × ℕ) := do
  let np1 := nc1 * 1 / 2
  let nr1 ← rowsOf len np1
  let nd1 ← columnTests fft nc1
  let nc2 := nc1 / 2
  let np2 := np1 / 2
  let nr2 ← rowsOf len np2
  let nd2 ← columnTests fft nc2
  assert (isPowerOfTwo nc2 = true)
  let sz1 := nColOpens * nr1 + (1 + nd1) * np1
  let sz2 := nColOpens * nr2 + (1 + nd2) * np2
  return if sz1 < sz2 then (nr1, np1, nc1) else (nr2, np2, nc2)

def getDims (len : ℕ) : Fallible ε (Option (ℕ × ℕ × ℕ)) := do
  match ← firstCols fft est s len with
  | none => return none
  | some nc1 => return some (← chooseDims fft len nc1)

def unwrapped {α : Type} : Option α → Fallible ε α
  | none => panicked
  | some a => .ok a

def new (len : ℕ) : Fallible ε (LcEncoding F fft.Err) := do
  let (_, nPerRow, nCols) ← unwrapped (← getDims fft est s len)
  newFromDims fft nPerRow nCols

def newMl (nVars : ℕ) : Fallible ε (LcEncoding F fft.Err) := do
  assert (nVars < 64)
  let nMonomials := 2 ^ nVars
  let (nRows, nPerRow, nCols) ← unwrapped (← getDims fft est s nMonomials)
  assert (isPowerOfTwo nRows = true)
  assert (isPowerOfTwo nPerRow = true)
  assert (nRows * nPerRow = nMonomials)
  newFromDims fft nPerRow nCols

end Sizes

section Choice

variable {fft} {est : Estimates} {s len k : ℕ}

theorem rowsOf_eq_ok {np nr : ℕ} :
    (rowsOf len np : Fallible ε ℕ) = .ok nr ↔ 0 < len ∧ 0 < np ∧ nr = divCeil len np := by
  constructor
  · intro h
    obtain ⟨_, hnp, -⟩ := bind_eq_ok.mp h
    have hnp : 0 < np := Nat.pos_of_ne_zero (assert_eq_ok.mp hnp)
    rcases Nat.eq_zero_or_pos len with rfl | hlen
    · obtain ⟨_, -, h⟩ := bind_eq_ok.mp h
      obtain ⟨_, -, h⟩ := bind_eq_ok.mp h
      obtain ⟨_, hsub, -⟩ := bind_eq_ok.mp h
      obtain ⟨_, hone, -⟩ := bind_eq_ok.mp hsub
      have hone := assert_eq_ok.mp hone
      rw [Nat.div_eq_of_lt (by omega)] at hone
      cases hone
    · rw [rowsOf_eq hlen hnp] at h
      exact ⟨hlen, hnp, (Except.ok.inj h).symm⟩
  · rintro ⟨hlen, hnp, rfl⟩
    exact rowsOf_eq hlen hnp

theorem columnTests_eq_ok {nCols nd : ℕ} : (columnTests fft nCols : Fallible ε ℕ) = .ok nd ↔
    log2 nCols < fft.flog2 ∧ nd = divCeil 128 (fft.flog2 - log2 nCols) :=
  nDegreeTests_eq_ok

/-- The number of columns from which the sizes are chosen. -/
def colsFor (fft : FieldFFT F) (est : Estimates) (len : ℕ) : ℕ :=
  nextPowerOfTwo (est.leastCols len (divCeil 128 (fft.flog2 - log2 (est.guessedCols len))))

theorem firstCols_eq_some {nc : ℕ} :
    (firstCols fft est s len : Fallible ε _) = .ok (some nc) ↔
      nColOpens * len < 2 ^ 64 ∧ log2 (est.guessedCols len) < fft.flog2 ∧ s < 64 ∧
        colsFor fft est len ≤ 2 ^ s ∧ nc = colsFor fft est len := by
  constructor
  · intro h
    obtain ⟨_, hword, h⟩ := bind_eq_ok.mp h
    obtain ⟨ndt, htests, h⟩ := bind_eq_ok.mp h
    obtain ⟨hguess, rfl⟩ := columnTests_eq_ok.mp htests
    refine ⟨assert_eq_ok.mp hword, hguess, ?_⟩
    dsimp only at h
    split at h
    · cases h
    · obtain ⟨_, hshift, h⟩ := bind_eq_ok.mp h
      have h := Except.ok.inj h
      split at h
      · cases h
      · exact ⟨assert_eq_ok.mp hshift, not_lt.mp ‹_›, (Option.some.inj h).symm⟩
  · rintro ⟨hword, hguess, hshift, hle, rfl⟩
    have hbound : 2 ^ s ≤ 2 ^ 63 := Nat.pow_le_pow_right (by decide) (by omega)
    have htests : (columnTests fft (est.guessedCols len) : Fallible ε ℕ) = .ok _ :=
      columnTests_eq_ok.mpr ⟨hguess, rfl⟩
    have hcols : nextPowerOfTwo (est.leastCols len (divCeil 128 (fft.flog2 -
      log2 (est.guessedCols len)))) = colsFor fft est len := rfl
    unfold firstCols
    simp only [assert_of hword, htests, ok_bind, hcols]
    rw [if_neg (not_lt.mpr (hle.trans hbound)), assert_of hshift, ok_bind,
      if_neg (not_lt.mpr hle)]
    rfl

theorem log2_two_pow (k : ℕ) : log2 (2 ^ k) = k := by
  rw [log2_eq, Nat.clog_pow 2 k (by decide)]

theorem divCeil_two_pow (a b : ℕ) : divCeil (2 ^ a) (2 ^ b) = 2 ^ (a - b) := by
  have hpos : 0 < 2 ^ b := by positivity
  rcases le_total b a with hle | hle
  · rw [← pow_sub_mul_pow 2 hle, divCeil_mul _ hpos]
  · have hpow : 2 ^ a ≤ 2 ^ b := Nat.pow_le_pow_right (by decide) hle
    rw [Nat.sub_eq_zero_of_le hle, pow_zero]
    apply le_antisymm
    · exact (divCeil_le_iff hpos).mpr (by omega)
    · exact (lt_divCeil_iff hpos).mpr (by rw [Nat.zero_mul]; positivity)

theorem halve_two_pow (k : ℕ) : 2 ^ (k + 1) / 2 = 2 ^ k := by
  rw [pow_succ, Nat.mul_div_cancel _ (by decide)]

theorem chooseDims_eq (hlen : 0 < len) (hk : k + 2 < fft.flog2) :
    ∃ j, k ≤ j ∧ j ≤ k + 1 ∧ (chooseDims fft len (2 ^ (k + 2)) : Fallible ε _) =
      .ok (divCeil len (2 ^ j), 2 ^ j, 2 ^ (j + 1)) := by
  have hrows (j : ℕ) : (rowsOf len (2 ^ j) : Fallible ε ℕ) = .ok (divCeil len (2 ^ j)) :=
    rowsOf_eq hlen (by positivity)
  have htests (j : ℕ) (hj : j ≤ k + 2) : (columnTests fft (2 ^ j) : Fallible ε ℕ) = .ok _ :=
    columnTests_eq_ok.mpr ⟨by rw [log2_two_pow]; omega, rfl⟩
  have hpow : isPowerOfTwo (2 ^ (k + 1)) = true := isPowerOfTwo_iff.mpr ⟨_, rfl⟩
  unfold chooseDims
  simp only [mul_one, halve_two_pow, hrows, htests _ le_rfl, htests (k + 1) (by omega),
    assert_of hpow, ok_bind, pure_eq_ok]
  split
  · exact ⟨k + 1, by omega, le_rfl, rfl⟩
  · exact ⟨k, le_rfl, by omega, rfl⟩

theorem of_chooseDims {dims : ℕ × ℕ × ℕ}
    (h : (chooseDims fft len (2 ^ k) : Fallible ε _) = .ok dims) :
    0 < len ∧ 2 ≤ k ∧ k < fft.flog2 := by
  obtain ⟨_, hrows, h⟩ := bind_eq_ok.mp h
  obtain ⟨_, htests, h⟩ := bind_eq_ok.mp h
  obtain ⟨_, hrows', -⟩ := bind_eq_ok.mp h
  have hlt := (columnTests_eq_ok.mp htests).1
  rw [log2_two_pow] at hlt
  have hpos := (rowsOf_eq_ok.mp hrows').2.1
  refine ⟨(rowsOf_eq_ok.mp hrows).1, ?_, hlt⟩
  by_contra hk
  -- With one or two columns half a row is empty, and the number of rows is divided by it.
  obtain rfl | rfl : k = 0 ∨ k = 1 := by omega
  · simp at hpos
  · simp at hpos

/-- When sizes are found for a number of coefficients. -/
structure Sized (fft : FieldFFT F) (est : Estimates) (s len : ℕ) : Prop where
  pos : 0 < len
  word : nColOpens * len < 2 ^ 64
  guess : log2 (est.guessedCols len) < fft.flog2
  shift : s < 64
  four_le : 4 ≤ colsFor fft est len
  le_size : colsFor fft est len ≤ 2 ^ s
  tests : log2 (colsFor fft est len) < fft.flog2

/-- The row length is a power of two, half of the number of columns and at least a quarter of the
number from which the sizes are chosen. -/
theorem Sized.getDims_eq (h : Sized fft est s len) : ∃ j, 2 ^ (j + 1) ≤ 2 ^ s ∧
    colsFor fft est len ≤ 2 ^ (j + 2) ∧ (getDims fft est s len : Fallible ε _) =
      .ok (some (divCeil len (2 ^ j), 2 ^ j, 2 ^ (j + 1))) := by
  obtain ⟨k, hk⟩ : ∃ k, colsFor fft est len = 2 ^ k := ⟨_, rfl⟩
  have hlarge := h.four_le
  have htests := h.tests
  have hle := h.le_size
  rw [hk] at hlarge hle
  rw [hk, log2_two_pow] at htests
  obtain ⟨k, rfl⟩ : ∃ k', k = k' + 2 :=
    Nat.exists_eq_add_of_le' ((Nat.pow_le_pow_iff_right (a := 2) (by decide)).mp
      (show 2 ^ 2 ≤ 2 ^ k from hlarge))
  have hfirst : (firstCols fft est s len : Fallible ε _) = .ok (some (2 ^ (k + 2))) :=
    firstCols_eq_some.mpr ⟨h.word, h.guess, h.shift, h.le_size, hk.symm⟩
  obtain ⟨j, hlower, hupper, hchoose⟩ := chooseDims_eq (ε := ε) h.pos htests
  have hcols : 2 ^ (j + 1) ≤ 2 ^ (k + 2) := Nat.pow_le_pow_right (by decide) (by omega)
  refine ⟨j, hcols.trans hle, hk.le.trans (Nat.pow_le_pow_right (by decide) (by omega)), ?_⟩
  unfold getDims
  simp only [hfirst, hchoose, ok_bind, pure_eq_ok]

theorem sized_of_getDims {dims : ℕ × ℕ × ℕ}
    (h : (getDims fft est s len : Fallible ε _) = .ok (some dims)) : Sized fft est s len := by
  obtain ⟨nc, hfirst, h⟩ := bind_eq_ok.mp h
  cases nc with
  | none => cases h
  | some nc =>
    obtain ⟨hword, hguess, hshift, hle, rfl⟩ := firstCols_eq_some.mp hfirst
    obtain ⟨chosen, hchoose, -⟩ := bind_eq_ok.mp h
    obtain ⟨k, hk⟩ : ∃ k, colsFor fft est len = 2 ^ k := ⟨_, rfl⟩
    rw [hk] at hchoose
    obtain ⟨hpos, htwo, hlt⟩ := of_chooseDims hchoose
    refine ⟨hpos, hword, hguess, hshift, ?_, hle, ?_⟩
    · rw [hk]
      exact (show 2 ^ 2 ≤ 2 ^ k from Nat.pow_le_pow_right (by decide) htwo)
    · rwa [hk, log2_two_pow]

end Choice

section Encodings

variable {fft} {est : Estimates} {s len nVars : ℕ}

/-- Of the three assertions of `newMl` only the one about the product can fail. -/
theorem assertions_of_getDims {nRows nPerRow nCols : ℕ}
    (h : (getDims fft est s (2 ^ nVars) : Fallible ε _) = .ok (some (nRows, nPerRow, nCols))) :
    isPowerOfTwo nRows = true ∧ isPowerOfTwo nPerRow = true ∧
      (nRows * nPerRow = 2 ^ nVars ↔ nPerRow ≤ 2 ^ nVars) := by
  obtain ⟨j, -, -, heq⟩ := (sized_of_getDims h).getDims_eq (ε := ε)
  obtain ⟨rfl, hper⟩ := Prod.mk.inj (Option.some.inj (Except.ok.inj (h.symm.trans heq)))
  obtain ⟨rfl, -⟩ := Prod.mk.inj hper
  rw [divCeil_two_pow]
  refine ⟨isPowerOfTwo_iff.mpr ⟨_, rfl⟩, isPowerOfTwo_iff.mpr ⟨_, rfl⟩, ?_⟩
  constructor
  · intro hproduct
    rw [← hproduct]
    exact Nat.le_mul_of_pos_left _ (by positivity)
  · intro hle
    exact pow_sub_mul_pow 2 ((Nat.pow_le_pow_iff_right (by decide)).mp hle)

theorem unwrapped_eq_ok {α : Type} {x : Option α} {a : α} :
    (unwrapped x : Fallible ε α) = .ok a ↔ x = some a := by
  cases x <;> simp [unwrapped, panicked]

theorem exists_newFromDims (hfft : PrecomputesUpTo fft (2 ^ s)) {j : ℕ}
    (hj : 2 ^ (j + 1) ≤ 2 ^ s) :
    ∃ encoding, (newFromDims fft (2 ^ j) (2 ^ (j + 1)) : Fallible ε _) = .ok encoding := by
  have hdouble : 2 ^ (j + 1) = 2 * 2 ^ j := by ring
  have hpos : 0 < 2 ^ j := by positivity
  exact newFromDims_of_valid hfft hj
    ⟨hpos, by omega, isPowerOfTwo_iff.mpr ⟨_, rfl⟩, by omega⟩

theorem Sized.exists_new (hfft : PrecomputesUpTo fft (2 ^ s)) (h : Sized fft est s len) :
    ∃ encoding, (new fft est s len : Fallible ε _) = .ok encoding := by
  obtain ⟨j, hle, -, hdims⟩ := h.getDims_eq (ε := ε)
  obtain ⟨encoding, hencoding⟩ := exists_newFromDims (ε := ε) hfft hle
  refine ⟨encoding, ?_⟩
  unfold new
  rw [hdims, ok_bind, unwrapped_eq_ok.mpr rfl, ok_bind]
  exact hencoding

/-- An encoding is made for a number of coefficients exactly when sizes are found. -/
theorem new_returns_iff (hfft : PrecomputesUpTo fft (2 ^ s)) :
    (∃ encoding, (new fft est s len : Fallible ε _) = .ok encoding) ↔ Sized fft est s len := by
  refine ⟨fun ⟨encoding, h⟩ => ?_, fun h => h.exists_new hfft⟩
  obtain ⟨found, hdims, h⟩ := bind_eq_ok.mp h
  obtain ⟨dims, hfound, -⟩ := bind_eq_ok.mp h
  obtain rfl := unwrapped_eq_ok.mp hfound
  exact sized_of_getDims hdims

def forTwo : Estimates := ⟨fun _ => 50, fun _ _ => 7⟩

theorem sized_two : Sized fermatFft forTwo 8 2 := by
  refine ⟨?_, ?_, ?_, ?_, ?_, ?_, ?_⟩ <;> decide

theorem new_returns_iff_two :
    ∃ encoding, (new fermatFft forTwo 8 2 : Fallible Empty _) = .ok encoding :=
  (new_returns_iff precomputesUpTo_fermatFft).mpr sized_two

/-- For monomials the sizes have to be such that no row is longer than all of them. -/
theorem newMl_returns_iff (hfft : PrecomputesUpTo fft (2 ^ s)) :
    ((∃ encoding, (newMl fft est s nVars : Fallible ε _) = .ok encoding) ↔
      nVars < 64 ∧ Sized fft est s (2 ^ nVars) ∧ ∃ j ≤ nVars,
        (getDims fft est s (2 ^ nVars) : Fallible ε _) =
          .ok (some (2 ^ (nVars - j), 2 ^ j, 2 ^ (j + 1)))) ∧
    ∀ nRows nPerRow nCols,
      (getDims fft est s (2 ^ nVars) : Fallible ε _) = .ok (some (nRows, nPerRow, nCols)) →
        isPowerOfTwo nRows = true ∧ isPowerOfTwo nPerRow = true ∧
          (nRows * nPerRow = 2 ^ nVars ↔ nPerRow ≤ 2 ^ nVars) := by
  refine ⟨?_, fun _ _ _ hdims => assertions_of_getDims hdims⟩
  constructor
  · rintro ⟨encoding, h⟩
    obtain ⟨_, hvars, h⟩ := bind_eq_ok.mp h
    obtain ⟨found, hdims, h⟩ := bind_eq_ok.mp h
    obtain ⟨dims, hfound, hchecks⟩ := bind_eq_ok.mp h
    obtain rfl := unwrapped_eq_ok.mp hfound
    have hsized := sized_of_getDims hdims
    obtain ⟨j, -, -, heq⟩ := hsized.getDims_eq (ε := ε)
    obtain rfl := Option.some.inj (Except.ok.inj (hdims.symm.trans heq))
    obtain ⟨_, -, hchecks⟩ := bind_eq_ok.mp hchecks
    obtain ⟨_, -, hchecks⟩ := bind_eq_ok.mp hchecks
    obtain ⟨_, hproduct, -⟩ := bind_eq_ok.mp hchecks
    have hdvd : 2 ^ j ∣ 2 ^ nVars := Dvd.intro_left _ (assert_eq_ok.mp hproduct)
    have hj := (Nat.pow_dvd_pow_iff_le_right (by decide)).mp hdvd
    refine ⟨assert_eq_ok.mp hvars, hsized, j, hj, ?_⟩
    rw [heq, divCeil_two_pow]
  · rintro ⟨hvars, hsized, j, hj, hdims⟩
    obtain ⟨j', hle, -, heq⟩ := hsized.getDims_eq (ε := ε)
    have hsame := Option.some.inj (Except.ok.inj (hdims.symm.trans heq))
    have hper : 2 ^ j = 2 ^ j' := congrArg (fun dims => dims.2.1) hsame
    obtain rfl := Nat.pow_right_injective le_rfl hper
    obtain ⟨encoding, hencoding⟩ := exists_newFromDims (ε := ε) hfft hle
    refine ⟨encoding, ?_⟩
    unfold newMl
    simp only [assert_of hvars, hdims, ok_bind, unwrapped_eq_ok.mpr rfl,
      assert_of (isPowerOfTwo_iff.mpr ⟨_, rfl⟩), assert_of (pow_sub_mul_pow 2 hj)]
    exact hencoding

theorem newMl_returns_iff_one :
    ∃ encoding, (newMl fermatFft forTwo 8 1 : Fallible Empty _) = .ok encoding :=
  (newMl_returns_iff precomputesUpTo_fermatFft).1.mpr ⟨by decide, sized_two, 1, le_rfl, rfl⟩

theorem dims_of_made {encoding : LcEncoding F fft.Err}
    (h : (new fft est s len : Fallible ε _) = .ok encoding ∨
      ∃ nVars, len = 2 ^ nVars ∧ (newMl fft est s nVars : Fallible ε _) = .ok encoding) :
    0 < len ∧ ∃ j, 2 ^ (j + 1) ≤ 2 ^ 63 ∧
      (newFromDims fft (2 ^ j) (2 ^ (j + 1)) : Fallible ε _) = .ok encoding := by
  obtain ⟨dims, hdims, hmade⟩ : ∃ dims : ℕ × ℕ × ℕ,
      (getDims fft est s len : Fallible ε _) = .ok (some dims) ∧
        (newFromDims fft dims.2.1 dims.2.2 : Fallible ε _) = .ok encoding := by
    rcases h with h | ⟨nVars, rfl, h⟩
    · obtain ⟨found, hdims, h⟩ := bind_eq_ok.mp h
      obtain ⟨dims, hfound, hrest⟩ := bind_eq_ok.mp h
      obtain rfl := unwrapped_eq_ok.mp hfound
      exact ⟨dims, hdims, hrest⟩
    · obtain ⟨_, -, h⟩ := bind_eq_ok.mp h
      obtain ⟨found, hdims, h⟩ := bind_eq_ok.mp h
      obtain ⟨dims, hfound, hchecks⟩ := bind_eq_ok.mp h
      obtain rfl := unwrapped_eq_ok.mp hfound
      obtain ⟨_, -, hchecks⟩ := bind_eq_ok.mp hchecks
      obtain ⟨_, -, hchecks⟩ := bind_eq_ok.mp hchecks
      obtain ⟨_, -, hrest⟩ := bind_eq_ok.mp hchecks
      exact ⟨dims, hdims, hrest⟩
  have hsized := sized_of_getDims hdims
  obtain ⟨j, hle, -, heq⟩ := hsized.getDims_eq (ε := ε)
  obtain rfl := Option.some.inj (Except.ok.inj (hdims.symm.trans heq))
  have hshift := hsized.shift
  exact ⟨hsized.pos, j, hle.trans (Nat.pow_le_pow_right (by decide) (by omega)), hmade⟩

end Encodings

section EndToEnd

variable {D : Digest} [Field F] [FieldHash F] [DecidableEq F] (C : Challenges F) {fft}
  {est : Estimates} {s : ℕ} {coefficients : List F} {encoding : LcEncoding F fft.Err}

/-- An encoding that was made for a number of coefficients commits to that many. The commitment
is proved and opened at any point with the encoding that the sizes in the proof give. -/
theorem opened_end_to_end (hfft : TransformsLinearly fft)
    (hmade : (new fft est s coefficients.length : Fallible ε _) = .ok encoding ∨
      ∃ nVars, coefficients.length = 2 ^ nVars ∧
        (newMl fft est s nVars : Fallible ε _) = .ok encoding) :
    ∃ (comm : LcCommit D F) (root : LcRoot D),
      commit D coefficients encoding = .ok comm ∧
      (getRoot comm : Fallible ε _) = .ok root ∧
      ∀ (x : F) (tr : C.Transcript), ∃ proof tr',
        (prove C encoding comm (outerTensor x comm.nPerRow comm.nRows)).run tr = .ok proof tr' ∧
        (newFromDims fft proof.getNPerRow proof.getNCols : Fallible ε _) = .ok encoding ∧
        (verify C encoding root.root (outerTensor x comm.nPerRow comm.nRows)
          (innerTensor x comm.nPerRow) proof).run tr = .ok (value coefficients x) tr' := by
  obtain ⟨hlen, j, hword, hdims⟩ := dims_of_made hmade
  obtain ⟨hlt, hpow, pc, hpc, hcols, rfl⟩ := newFromDims_eq_ok hdims
  have hpos : 0 < 2 ^ j := by positivity
  have hrows : 0 < divCeil coefficients.length (2 ^ j) := (lt_divCeil_iff hpos).mpr (by omega)
  have hok : (ligeroEncoding fft (2 ^ j) (2 ^ (j + 1)) pc).dimsOk (2 ^ j) (2 ^ (j + 1)) = true := by
    simp [ligeroEncoding, ligeroDimsOk, hlt, hpow, ← hcols]
  have hget : (ligeroEncoding fft (2 ^ j) (2 ^ (j + 1)) pc).getDims coefficients.length =
      (divCeil coefficients.length (2 ^ j), 2 ^ j, 2 ^ (j + 1)) := rfl
  obtain ⟨comm, hcommit, hn, hper, hc⟩ := commit_total (D := D) _ coefficients hget
    (le_divCeil_mul _ hpos) ((lt_divCeil_iff hpos).mp (Nat.sub_lt hrows Nat.one_pos)) hok hlt.le
    (by omega) hword fun v hv => fft.fftIoPc_total (hv.trans hcols)
  obtain ⟨hcommitted, -⟩ := commit_eq_ok hcommit
  have hlin : LinearOnRows (ligeroEncoding fft (2 ^ j) (2 ^ (j + 1)) pc) comm.nPerRow
      comm.nCols := by
    rw [hper, hc]
    exact linearOnRows_of_linear hfft hdims
  have hfits : coefficients.length ≤ comm.nRows * comm.nPerRow := by
    rw [hn, hper]
    exact le_divCeil_mul _ hpos
  refine ⟨comm, _, hcommit, getRoot_eq hcommitted, fun x tr => ?_⟩
  obtain ⟨proof, tr', hprove, hproofRow, hproofCols, hverify⟩ := exists_evaluation C hcommit
    hcommitted hlin (show 0 < nColOpens by decide) (hper ▸ hpos) hfits x tr
  refine ⟨proof, tr', hprove, ?_, hverify⟩
  rw [hproofRow, hproofCols, hper, hc]
  exact hdims

theorem fermatFft_linear : TransformsLinearly fermatFft := by
  rintro len (k : ℕ) -
  show ∃ L : (Fin (2 ^ k) → ZMod 257) →ₗ[ZMod 257] (Fin (2 ^ k) → ZMod 257),
    ∀ x : Fin (2 ^ k) → ZMod 257, (if (List.ofFn x).length = 2 ^ k then
      .ok ((List.range (List.ofFn x).length).map fun j => ((List.range (List.ofFn x).length).map
        fun i => (List.ofFn x).getD i 0 * fermatRoot k ^ (i * bitReverse k j)).sum)
      else fail ()) = (.ok (List.ofFn (L x)) : Fallible Unit _)
  refine ⟨LinearMap.pi fun j => ∑ i : Fin (2 ^ k),
    fermatRoot k ^ (i.val * bitReverse k j.val) • LinearMap.proj i, fun x => ?_⟩
  have hlen : (List.ofFn x).length = 2 ^ k := List.length_ofFn
  rw [if_pos hlen]
  refine congrArg Except.ok (List.ext_getElem ?_ fun j hj hj' => ?_)
  · rw [List.length_map, List.length_range, hlen]
    exact List.length_ofFn.symm
  have hterms (f : ℕ → ZMod 257) :
      (List.range (2 ^ k)).map f = List.ofFn fun i : Fin (2 ^ k) => f i.val :=
    List.ext_getElem (by simp) fun i hi hi' => by simp
  rw [List.getElem_map, List.getElem_range, List.getElem_ofFn, hlen, hterms, List.sum_ofFn,
    LinearMap.pi_apply, LinearMap.sum_apply]
  refine Finset.sum_congr rfl fun i _ => ?_
  rw [LinearMap.smul_apply, LinearMap.proj_apply, smul_eq_mul, mul_comm,
    List.getD_eq_getElem _ _ (hlen.symm ▸ i.2), List.getElem_ofFn]

theorem opened_end_to_end_two : ∃ (encoding : LcEncoding (ZMod 257) Unit)
    (comm : LcCommit byteSum (ZMod 257)) (root : LcRoot byteSum),
    (new fermatFft forTwo 8 2 : Fallible Empty _) = .ok encoding ∧
    commit byteSum [1, -1] encoding = .ok comm ∧ (getRoot comm : Fallible Empty _) = .ok root ∧
    ∃ proof tr', (verify counting encoding root.root (outerTensor (-1) comm.nPerRow comm.nRows)
      (innerTensor (-1) comm.nPerRow) proof).run (0 : ℕ) = .ok (value [1, -1] (-1)) tr' := by
  obtain ⟨encoding, hnew⟩ : ∃ encoding,
      (new fermatFft forTwo 8 ([1, -1] : List (ZMod 257)).length : Fallible Empty _) =
        .ok encoding := sized_two.exists_new precomputesUpTo_fermatFft
  obtain ⟨comm, root, hcommit, hroot, hproofs⟩ := opened_end_to_end (D := byteSum) counting
    fermatFft_linear (.inl hnew)
  obtain ⟨proof, tr', -, -, hverify⟩ := hproofs (-1) (0 : ℕ)
  exact ⟨encoding, comm, root, hnew, hcommit, hroot, proof, tr', hverify⟩

end EndToEnd

end LigeroCommitment
