import ProofOfStorage.FoundationLinearLists
import ProofOfStorage.CommitmentCompleteness
import Mathlib.LinearAlgebra.Matrix.Notation

/-! # The expander code in one buffer

The input and its precode products are laid out forwards, the innermost product is encoded by
evaluation, and the postcode products follow on the way back.
-/
namespace BrakedownEncode

open FoundationFaults FoundationSlices FoundationPolynomials FoundationLinearLists
open CommitmentTypes CommitmentCompleteness

/-- Sparse matrices come from another crate; a product with a vector of another length panics. -/
structure Sprs (F : Type) [Field F] where
  CsMat : Type
  rows : CsMat → ℕ
  cols : CsMat → ℕ
  entry : (code : CsMat) → Matrix (Fin (rows code)) (Fin (cols code)) F
  dot : CsMat → List F → Option (List F)
  dot_eq : ∀ (code : CsMat) {v : List F}, v.length = cols code →
    dot code v = some (List.ofFn ((entry code).mulVec fun j => v.getD j 0))

variable {ε F : Type} [Field F]

/-- The Reed-Solomon loop; the previous entries of the output are not read. -/
def reedSolomonFrom (xi : List F) (x : F) : List F → List F
  | [] => []
  | _ :: xo => xi.foldr (fun c r => r * x + c) 0 :: reedSolomonFrom xi (x + 1) xo

def reedSolomon (xi xo : List F) : List F := reedSolomonFrom xi 1 xo

def last {α : Type} (l : List α) : Fallible ε α :=
  match l.getLast? with
  | some x => .ok x
  | none => panicked

section Buffer

variable (S : Sprs F)

def dot (code : S.CsMat) (v : List F) : Fallible ε (List F) :=
  match S.dot code v with
  | some w => .ok w
  | none => panicked

def codewordLength (precodes postcodes : List S.CsMat) : Fallible ε ℕ := do
  assert (precodes.isEmpty = false)
  assert (precodes.length = postcodes.length)
  let first ← index precodes 0
  let lastPostcode ← last postcodes
  return S.cols first + S.cols lastPostcode +
    ((precodes.take (precodes.length - 1)).map S.rows).sum + (postcodes.map S.rows).sum

/-- The buffer is split at `outStart`; the product with what is left of it from `inStart` on is
copied to what is right of it. -/
def multiplyInto (code : S.CsMat) (inStart outStart : ℕ) (xi : List F) : Fallible ε (List F) := do
  assert (outStart ≤ xi.length)
  let inArr := xi.take outStart
  let outArr := xi.drop outStart
  assert (S.rows code ≤ outArr.length)
  assert (inStart ≤ inArr.length)
  let product ← dot S code (inArr.drop inStart)
  assert (product.length = S.rows code)
  return inArr ++ (product ++ outArr.drop (S.rows code))

def precodeStep (s : List F × ℕ) (precode : S.CsMat) : Fallible ε (List F × ℕ) := do
  let inEnd := s.2 + S.cols precode
  let xi ← multiplyInto S precode s.2 inEnd s.1
  return (xi, inEnd)

/-- The last precode goes to temporary storage; its length is counted as if it were in the
buffer. -/
def baseCode (precode postcode : S.CsMat) (s : List F × ℕ) : Fallible ε (List F × ℕ × ℕ) := do
  let inEnd := s.2 + S.cols precode
  let input ← slice s.1 s.2 inEnd
  let inArr ← dot S precode input
  let outEnd := inEnd + S.cols postcode
  let outArr ← slice s.1 inEnd outEnd
  return (s.1.take inEnd ++ reedSolomon inArr outArr ++ s.1.drop outEnd,
    inEnd + S.rows precode, outEnd)

def postcodeStep (s : List F × ℕ × ℕ) (codes : S.CsMat × S.CsMat) :
    Fallible ε (List F × ℕ × ℕ) := do
  assert (S.rows codes.1 ≤ s.2.1)
  let inStart := s.2.1 - S.rows codes.1
  let xi ← multiplyInto S codes.2 inStart s.2.2 s.1
  return (xi, inStart, s.2.2 + S.rows codes.2)

def encode (xi : List F) (precodes postcodes : List S.CsMat) : Fallible ε (List F) := do
  let length ← codewordLength S precodes postcodes
  assert (xi.length = length)
  let s ← (precodes.take (precodes.length - 1)).foldlM (precodeStep S) (xi, 0)
  let precode ← last precodes
  let postcode ← last postcodes
  let s ← baseCode S precode postcode s
  let (xi, inStart, outStart) ← (precodes.reverse.zip postcodes.reverse).foldlM (postcodeStep S) s
  let first ← index precodes 0
  assert (inStart = S.cols first)
  assert (outStart = xi.length)
  return xi

/-! The recursive code: `m` values of the innermost polynomial, and in every round the input, its
encoded precode product and the postcode product of that. -/

def product (code : S.CsMat) (v : List F) : List F :=
  List.ofFn ((S.entry code).mulVec fun j => v.getD j 0)

def evaluations (m : ℕ) (y : List F) : List F := List.ofFn fun k : Fin m => value y (k + 1)

def recursiveCode (m : ℕ) : List (S.CsMat × S.CsMat) → List F → List F
  | [], y => evaluations m y
  | (precode, postcode) :: codes, x =>
    let z := recursiveCode m codes (product S precode x)
    x ++ z ++ product S postcode z

end Buffer

section Shapes

variable {M : Type} (rows cols : M → ℕ)

def codeLength (m : ℕ) : List (M × M) → ℕ
  | [] => m
  | (precode, postcode) :: codes => cols precode + codeLength m codes + rows postcode

/-- The precodes map each size to the next, and a postcode takes the codeword of the size its
precode gives. -/
def Chains (m : ℕ) : ℕ → List (M × M) → Prop
  | _, [] => True
  | n, (precode, postcode) :: codes =>
    cols precode = n ∧ cols postcode = codeLength rows cols m codes ∧ Chains m (rows precode) codes

end Shapes

theorem reedSolomon_eq (xi xo : List F) : reedSolomon xi xo = evaluations xo.length xi := by
  have hhorner : ∀ x : F, xi.foldr (fun c r => r * x + c) 0 = value xi x := by
    intro x
    induction xi with
    | nil => rfl
    | cons c xi ih =>
      rw [List.foldr_cons, ih, value_cons]
      ring
  have hfrom : ∀ x : F, reedSolomonFrom xi x xo =
      List.ofFn fun k : Fin xo.length => value xi (x + k) := by
    induction xo with
    | nil =>
      intro x
      rfl
    | cons r xo ih =>
      intro x
      rw [reedSolomonFrom, hhorner, ih, List.length_cons, List.ofFn_succ]
      simp only [Fin.val_zero, Nat.cast_zero, add_zero, Fin.val_succ, Nat.cast_add, Nat.cast_one,
        add_assoc, add_comm (1 : F)]
  rw [reedSolomon, hfrom, evaluations]
  simp only [add_comm (1 : F)]

section Rounds

variable {S : Sprs F} {m n : ℕ} {codes : List (S.CsMat × S.CsMat)}

theorem dot_of_length {code : S.CsMat} {v : List F} (h : v.length = S.cols code) :
    (dot S code v : Fallible ε _) = .ok (product S code v) := by
  rw [dot, S.dot_eq code h]
  rfl

@[simp] theorem length_product (code : S.CsMat) (v : List F) :
    (product S code v).length = S.rows code := List.length_ofFn

@[simp] theorem length_evaluations (m : ℕ) (y : List F) : (evaluations m y).length = m :=
  List.length_ofFn

theorem linear_recursiveCode (h : Chains S.rows S.cols m n codes) :
    Linear n (codeLength S.rows S.cols m codes) (recursiveCode S m codes) := by
  induction codes generalizing n with
  | nil => exact Linear.values _
  | cons code codes ih =>
    obtain ⟨precode, postcode⟩ := code
    obtain ⟨rfl, hcols, hchain⟩ := h
    have hinner : Linear (S.cols precode) (codeLength S.rows S.cols m codes)
        fun x => recursiveCode S m codes (product S precode x) :=
      (ih hchain).comp (Linear.mulVec (S.entry precode))
    have houter : Linear (codeLength S.rows S.cols m codes) (S.rows postcode)
        (product S postcode) := by
      rw [← hcols]
      exact Linear.mulVec (S.entry postcode)
    exact (Linear.id.append hinner).append (houter.comp hinner)

theorem length_recursiveCode (h : Chains S.rows S.cols m n codes) {x : List F} (hx : x.length = n) :
    (recursiveCode S m codes x).length = codeLength S.rows S.cols m codes :=
  (linear_recursiveCode h).length_eq hx

theorem multiplyInto_eq {code : S.CsMat} {before v rest : List F} (hv : v.length = S.cols code)
    (hrest : S.rows code ≤ rest.length) :
    (multiplyInto S code before.length (before ++ v).length (before ++ v ++ rest) :
      Fallible ε _) = .ok (before ++ v ++ (product S code v ++ rest.drop (S.rows code))) := by
  have hsplit : (before ++ v).length ≤ (before ++ v ++ rest).length := by simp
  have hstart : before.length ≤ (before ++ v).length := by simp
  unfold multiplyInto
  simp only [assert_of hsplit, ok_bind, List.take_left, List.drop_left, assert_of hrest,
    assert_of hstart, dot_of_length hv, assert_of (length_product code v), pure_eq_ok]

theorem precodeStep_eq {precode : S.CsMat} {before x rest : List F} (hx : x.length = S.cols precode)
    (hrest : S.rows precode ≤ rest.length) :
    (precodeStep S (before ++ x ++ rest, before.length) precode : Fallible ε _) =
      .ok (before ++ x ++ (product S precode x ++ rest.drop (S.rows precode)),
        (before ++ x).length) := by
  have hend : before.length + S.cols precode = (before ++ x).length := by
    rw [List.length_append, hx]
  unfold precodeStep
  simp only [hend, multiplyInto_eq hx hrest, ok_bind, pure_eq_ok]

theorem baseCode_eq {precode postcode : S.CsMat} {before x rest : List F}
    (hx : x.length = S.cols precode) (hrest : S.cols postcode ≤ rest.length) :
    (baseCode S precode postcode (before ++ x ++ rest, before.length) : Fallible ε _) =
      .ok (before ++ x ++ evaluations (S.cols postcode) (product S precode x) ++
          rest.drop (S.cols postcode),
        (before ++ x).length + S.rows precode, (before ++ x).length + S.cols postcode) := by
  have hend : before.length + S.cols precode = (before ++ x).length := by
    rw [List.length_append, hx]
  have hinput : (slice (before ++ x ++ rest) before.length (before ++ x).length :
      Fallible ε _) = .ok x := by
    apply slice_eq_ok.mpr
    refine ⟨by simp, by simp, ?_⟩
    rw [List.take_left, List.drop_left]
  have houtput : (slice (before ++ x ++ rest) (before ++ x).length
      ((before ++ x).length + S.cols postcode) : Fallible ε _) =
        .ok (rest.take (S.cols postcode)) := by
    apply slice_eq_ok.mpr
    have hlen : (before ++ x ++ rest).length = (before ++ x).length + rest.length :=
      List.length_append
    refine ⟨by omega, by omega, ?_⟩
    · rw [List.take_length_add_append, List.drop_left]
  unfold baseCode
  simp only [hend, hinput, ok_bind, dot_of_length hx, houtput, pure_eq_ok, List.take_left,
    List.drop_length_add_append, reedSolomon_eq, List.length_take, Nat.min_eq_left hrest]

/-- The cursor goes back over the input of the postcode, and its product goes behind it. -/
theorem postcodeStep_eq {precode postcode : S.CsMat} {before z rest : List F}
    (hz : z.length = S.cols postcode) (hrest : S.rows postcode ≤ rest.length) :
    (postcodeStep S (before ++ z ++ rest, before.length + S.rows precode, (before ++ z).length)
      (precode, postcode) : Fallible ε _) =
      .ok (before ++ z ++ (product S postcode z ++ rest.drop (S.rows postcode)),
        before.length, (before ++ z).length + S.rows postcode) := by
  have hback : S.rows precode ≤ before.length + S.rows precode := Nat.le_add_left _ _
  unfold postcodeStep
  simp only [assert_of hback, ok_bind, Nat.add_sub_cancel, multiplyInto_eq hz hrest, pure_eq_ok]

variable (S) in
def rounds : List (S.CsMat × S.CsMat) → List F × ℕ → Fallible ε (List F × ℕ × ℕ)
  | [], _ => panicked
  | [code], s => do
    let s ← baseCode S code.1 code.2 s
    postcodeStep S s code
  | code :: next :: codes, s => do
    let s ← precodeStep S s code.1
    let s ← rounds (next :: codes) s
    postcodeStep S s code

theorem loops_eq_rounds (codes : List (S.CsMat × S.CsMat)) (code : S.CsMat × S.CsMat)
    (s : List F × ℕ) : (do
      let s ← (((code :: codes).map Prod.fst).take codes.length).foldlM (precodeStep S) s
      let precode ← last ((code :: codes).map Prod.fst)
      let postcode ← last ((code :: codes).map Prod.snd)
      let s ← baseCode S precode postcode s
      (code :: codes).reverse.foldlM (postcodeStep S) s : Fallible ε _) =
    rounds S (code :: codes) s := by
  induction codes generalizing code s with
  | nil => simp [rounds, last]
  | cons next codes ih =>
    have hlast : ∀ (f : S.CsMat × S.CsMat → S.CsMat) first,
        (last (first :: (next :: codes).map f) : Fallible ε _) = last ((next :: codes).map f) := by
      intro f first
      simp [last, List.getLast?_cons_cons]
    rw [rounds, List.map_cons, List.map_cons (f := Prod.snd), List.length_cons,
      List.take_succ_cons, List.foldlM_cons]
    simp only [bind_assoc, ← ih, hlast, List.reverse_cons (a := code), List.foldlM_append,
      List.foldlM_cons, List.foldlM_nil, bind_ok, pure_eq_ok]

/-- The rounds leave the codeword of the input where the input starts, and both cursors behind
what they have passed. -/
theorem rounds_eq {before x rest : List F} (hcodes : codes ≠ [])
    (h : Chains S.rows S.cols m n codes) (hx : x.length = n)
    (hroom : codeLength S.rows S.cols m codes ≤ x.length + rest.length) :
    (rounds S codes (before ++ x ++ rest, before.length) : Fallible ε _) =
      .ok (before ++ recursiveCode S m codes x ++
          rest.drop (codeLength S.rows S.cols m codes - x.length),
        (before ++ x).length, before.length + codeLength S.rows S.cols m codes) := by
  induction codes generalizing n before x rest with
  | nil => exact absurd rfl hcodes
  | cons code codes ih =>
    obtain ⟨precode, postcode⟩ := code
    obtain ⟨rfl, hcols, hchain⟩ := h
    set y := product S precode x with hy
    set z := recursiveCode S m codes y with hz
    have hylen : y.length = S.rows precode := length_product precode x
    have hzlen : z.length = S.cols postcode := (length_recursiveCode hchain hylen).trans hcols.symm
    have hcode : recursiveCode S m ((precode, postcode) :: codes) x =
        x ++ z ++ product S postcode z := rfl
    have hlength : codeLength S.rows S.cols m ((precode, postcode) :: codes) =
        x.length + z.length + S.rows postcode := by
      rw [codeLength, hx, hzlen, hcols]
    rw [hlength] at hroom ⊢
    have hback : S.rows postcode ≤ (rest.drop z.length).length := by
      rw [List.length_drop]
      omega
    have hinner : (rounds S ((precode, postcode) :: codes) (before ++ x ++ rest, before.length) :
        Fallible ε _) = postcodeStep S (before ++ x ++ z ++ rest.drop z.length,
          (before ++ x).length + S.rows precode, (before ++ x ++ z).length)
            (precode, postcode) := by
      cases codes with
      | nil =>
        have hbase : (before ++ x).length + S.cols postcode = (before ++ x ++ z).length := by
          rw [← hzlen]
          exact List.length_append.symm
        have hroom' : S.cols postcode ≤ rest.length := by omega
        have hvalues : evaluations (S.cols postcode) y = z := by
          rw [hz, hcols]
          rfl
        rw [rounds, baseCode_eq hx hroom', ok_bind, hbase, ← hy, hvalues, hzlen]
      | cons next codes =>
        have hnext := hchain.1
        have hyle : S.rows precode ≤ z.length := by
          rw [hzlen, hcols, ← hnext, codeLength]
          omega
        have hrest : codeLength S.rows S.cols m (next :: codes) ≤
            y.length + (rest.drop (S.rows precode)).length := by
          rw [List.length_drop, hylen, ← hcols, ← hzlen]
          omega
        have hz' : codeLength S.rows S.cols m (next :: codes) = z.length := by rw [hzlen, hcols]
        have hin : (before ++ x ++ y).length = (before ++ x).length + S.rows precode := by
          rw [← hylen]
          exact List.length_append
        have hout : (before ++ x).length + z.length = (before ++ x ++ z).length :=
          List.length_append.symm
        rw [rounds, precodeStep_eq hx (by omega), ok_bind, ← hy, ← List.append_assoc,
          ih (by simp) hchain hylen hrest, ok_bind, hz', List.drop_drop, hylen,
          Nat.add_sub_cancel' hyle, hin, hout, hz]
    rw [hinner, postcodeStep_eq hzlen hback, hcode, List.drop_drop]
    have hskip : x.length + z.length + S.rows postcode - x.length =
        z.length + S.rows postcode := by omega
    rw [hskip]
    simp only [List.length_append, List.append_assoc, Nat.add_assoc]

theorem le_codeLength (hcodes : codes ≠ []) (h : Chains S.rows S.cols m n codes) :
    n ≤ codeLength S.rows S.cols m codes := by
  cases codes with
  | nil => exact absurd rfl hcodes
  | cons code codes =>
    rw [← h.1, codeLength]
    omega

theorem zip_reverse_map (codes : List (S.CsMat × S.CsMat)) :
    (codes.map Prod.fst).reverse.zip (codes.map Prod.snd).reverse = codes.reverse := by
  rw [← List.map_reverse, ← List.map_reverse, List.zip_map', List.map_id']

theorem codewordLength_eq (hcodes : codes ≠ []) (h : Chains S.rows S.cols m n codes) :
    (codewordLength S (codes.map Prod.fst) (codes.map Prod.snd) : Fallible ε _) =
      .ok (codeLength S.rows S.cols m codes) := by
  have hsum : ∀ (codes : List (S.CsMat × S.CsMat)) (code : S.CsMat × S.CsMat) (n : ℕ),
      Chains S.rows S.cols m n (code :: codes) →
      ∃ lastCode, (code :: codes).getLast? = some lastCode ∧
        S.cols code.1 + S.cols lastCode.2 +
          ((((code :: codes).map Prod.fst).take codes.length).map S.rows).sum +
          (((code :: codes).map Prod.snd).map S.rows).sum =
            codeLength S.rows S.cols m (code :: codes) := by
    intro codes
    induction codes with
    | nil =>
      intro code n h
      refine ⟨code, rfl, ?_⟩
      have hlast : S.cols code.2 = m := h.2.1
      simp [codeLength, hlast]
    | cons next codes ih =>
      intro code n h
      obtain ⟨lastCode, hlast, hlength⟩ := ih next _ h.2.2
      refine ⟨lastCode, by rw [List.getLast?_cons_cons, hlast], ?_⟩
      have hnext : S.cols next.1 = S.rows code.1 := h.2.2.1
      rw [codeLength, ← hlength, hnext]
      simp only [List.map_cons, List.length_cons, List.take_succ_cons, List.sum_cons]
      omega
  cases codes with
  | nil => exact absurd rfl hcodes
  | cons code codes =>
    obtain ⟨lastCode, hlast, hlength⟩ := hsum codes code n h
    have hpost : last ((code :: codes).map Prod.snd) = (.ok lastCode.2 : Fallible ε _) := by
      rw [last, List.getLast?_map, hlast]
      rfl
    have hcount : (code :: codes).length - 1 = codes.length := rfl
    have hfirst : (index ((code :: codes).map Prod.fst) 0 : Fallible ε _) = .ok code.1 := rfl
    unfold codewordLength
    rw [assert_of (by simp), ok_bind, assert_of (by simp), ok_bind, hfirst, ok_bind, hpost,
      ok_bind, List.length_map, hcount, hlength, pure_eq_ok]

theorem encode_eq (hcodes : codes ≠ []) (h : Chains S.rows S.cols m n codes) (xi : List F)
    (hxi : xi.length = codeLength S.rows S.cols m codes) :
    (encode S xi (codes.map Prod.fst) (codes.map Prod.snd) : Fallible ε _) =
      .ok (recursiveCode S m codes (xi.take n)) := by
  have hlength := codewordLength_eq (ε := ε) hcodes h
  have hle := le_codeLength hcodes h
  have htake : (xi.take n).length = n := by
    rw [List.length_take]
    omega
  have hrest : (xi.drop n).length = codeLength S.rows S.cols m codes - n := by
    rw [List.length_drop, hxi]
  have hrun : (rounds S codes ([] ++ xi.take n ++ xi.drop n, ([] : List F).length) :
      Fallible ε _) = _ := rounds_eq hcodes h htake (by omega)
  have hdrop : (xi.drop n).drop (codeLength S.rows S.cols m codes - n) = [] := by
    rw [List.drop_eq_nil_iff]
    omega
  rw [List.nil_append, List.take_append_drop, List.nil_append, htake, hdrop, List.append_nil,
    List.length_nil, Nat.zero_add] at hrun
  have hout := length_recursiveCode h htake
  cases codes with
  | nil => exact absurd rfl hcodes
  | cons code codes =>
    have hloops := loops_eq_rounds (ε := ε) codes code (xi, 0)
    have hcount : (code :: codes).length - 1 = codes.length := rfl
    have hfirst : (index ((code :: codes).map Prod.fst) 0 : Fallible ε _) = .ok code.1 := rfl
    have hcols : n = S.cols code.1 := h.1.symm
    unfold encode
    rw [hlength, ok_bind, assert_of hxi, ok_bind, zip_reverse_map, List.length_map, hcount]
    rw [hrun] at hloops
    obtain ⟨s, hforth, precode, hpre, postcode, hpost, s', hbase, hback⟩ :
        ∃ s, _ ∧ ∃ precode, _ ∧ ∃ postcode, _ ∧ ∃ s', _ ∧ _ := by
      simpa only [bind_eq_ok] using hloops
    rw [hforth, ok_bind, hpre, ok_bind, hpost, ok_bind, hbase, ok_bind, hback]
    simp only [ok_bind, hfirst, assert_of hcols, assert_of hout.symm, pure_eq_ok]

/-- The buffer ends up with the codeword of its first entries, which is linear in them and owes
nothing to the other entries. -/
theorem encode_eq_recursiveCode (hcodes : codes ≠ []) (h : Chains S.rows S.cols m n codes) :
    (codewordLength S (codes.map Prod.fst) (codes.map Prod.snd) : Fallible ε _) =
        .ok (codeLength S.rows S.cols m codes) ∧
      (∀ xi : List F, xi.length = codeLength S.rows S.cols m codes →
        (encode S xi (codes.map Prod.fst) (codes.map Prod.snd) : Fallible ε _) =
          .ok (recursiveCode S m codes (xi.take n))) ∧
      Linear n (codeLength S.rows S.cols m codes) (recursiveCode S m codes) :=
  ⟨codewordLength_eq hcodes h, encode_eq hcodes h, linear_recursiveCode h⟩

/-- A commitment with this code has an encoding that is linear on padded rows, which is what honest
proofs need. -/
theorem linearOnRows_of_chains (hcodes : codes ≠ []) (h : Chains S.rows S.cols m n codes)
    {Err : Type} {enc : LcEncoding F Err} (henc : ∀ v : List F, enc.encode v =
      encode S v (codes.map Prod.fst) (codes.map Prod.snd)) :
    LinearOnRows enc n (codeLength S.rows S.cols m codes) := by
  obtain ⟨L, hL⟩ := (linear_recursiveCode h).exists_linearMap
  have hle := le_codeLength hcodes h
  refine ⟨L, ?_⟩
  intro x
  have hlen : (List.ofFn x).length = n := List.length_ofFn
  have hpadded : (List.ofFn x ++ .replicate (codeLength S.rows S.cols m codes - n) 0).length =
      codeLength S.rows S.cols m codes := by
    rw [List.length_append, hlen, List.length_replicate]
    omega
  rw [henc, encode_eq hcodes h _ hpadded, List.take_left' hlen, hL]

end Rounds

def dense (F : Type) [Field F] : Sprs F where
  CsMat := Σ size : ℕ × ℕ, Matrix (Fin size.1) (Fin size.2) F
  rows code := code.1.1
  cols code := code.1.2
  entry code := code.2
  dot code v :=
    if v.length = code.1.2 then some (List.ofFn (code.2.mulVec fun j => v.getD j 0)) else none
  dot_eq _ _ h := if_pos h

theorem encode_small : (encode (dense (ZMod 257)) [1, 2, 3, 7, 7, 7, 7, 7, 7]
      [⟨(2, 3), !![1, 0, 1; 0, 2, 0]⟩, ⟨(1, 2), !![1, 1]⟩]
      [⟨(1, 5), !![1, 0, 0, 0, 1]⟩, ⟨(1, 2), !![1, 3]⟩] : Fallible Empty _) =
    .ok [1, 2, 3, 4, 4, 8, 8, 32, 36] := by
  have hchain : Chains (dense (ZMod 257)).rows (dense (ZMod 257)).cols 2 3
      [(⟨(2, 3), !![1, 0, 1; 0, 2, 0]⟩, ⟨(1, 5), !![1, 0, 0, 0, 1]⟩),
        (⟨(1, 2), !![1, 1]⟩, ⟨(1, 2), !![1, 3]⟩)] :=
    ⟨rfl, rfl, rfl, rfl, trivial⟩
  have h := encode_eq_recursiveCode (ε := Empty) (by simp) hchain
  refine (h.2.1 [1, 2, 3, 7, 7, 7, 7, 7, 7] rfl).trans ?_
  decide

end BrakedownEncode
