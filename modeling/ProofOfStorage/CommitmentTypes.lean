import ProofOfStorage.FoundationSlices
import Mathlib.Algebra.Field.ZMod
import Mathlib.Tactic.NormNum.Prime

/-! # Data of the linear-code polynomial commitment

Hash functions, transcripts, seeded generators and encodings come from other crates and are
parameters. Sizes are natural numbers: every product formed here is the length of an
allocated vector.
-/
namespace CommitmentTypes

open FoundationFaults

/-- A hash function, as a function of the whole byte string it was fed. -/
structure Digest where
  outputSize : ℕ
  hash : List UInt8 → Vector UInt8 outputSize

abbrev Digest.Output (D : Digest) := Vector UInt8 D.outputSize

def Digest.defaultOutput (D : Digest) : D.Output := Vector.replicate D.outputSize 0

/-- A running hasher holds the bytes it was fed since it was created or reset. -/
structure Hasher (D : Digest) where
  fed : List UInt8

variable {D : Digest} {F : Type}

def Hasher.new : Hasher D := ⟨[]⟩

def Hasher.update (h : Hasher D) (bytes : List UInt8) : Hasher D := ⟨h.fed ++ bytes⟩

def Hasher.finalize (h : Hasher D) : D.Output := D.hash h.fed

/-- The hasher of a column before its first element: column hashes start with a block of
zeros. -/
def Hasher.newColumn : Hasher D := Hasher.new.update D.defaultOutput.toList

class FieldHash (F : Type) where
  toHashRepr : F → List UInt8

def digestUpdate [FieldHash F] (x : F) (h : Hasher D) : Hasher D :=
  h.update (FieldHash.toHashRepr x)

/-- The byte form that `ff` derives: a fixed-width array from which the element is read back. -/
class PrimeField (F : Type) where
  reprWidth : ℕ
  toRepr : F → Vector UInt8 reprWidth
  fromRepr : Vector UInt8 reprWidth → Option F
  fromRepr_toRepr : ∀ x, fromRepr (toRepr x) = some x

instance [PrimeField F] : FieldHash F := ⟨fun x => (PrimeField.toRepr x).toList⟩

/-- An encoding works in place, so it returns as many entries as it was given. -/
structure LcEncoding (F Err : Type) where
  labelDT : List UInt8
  labelPR : List UInt8
  labelPE : List UInt8
  labelCO : List UInt8
  encode : List F → Fallible Err (List F)
  length_encode : ∀ {v w}, encode v = .ok w → w.length = v.length
  getDims : ℕ → ℕ × ℕ × ℕ
  dimsOk : ℕ → ℕ → Bool
  getNColOpens : ℕ
  getNDegreeTests : ℕ

inductive ProverError (Err : Type) where
  | tooBig
  | encode (e : Err)
  | commit
  | columnNumber
  | outerTensor
  deriving DecidableEq, Repr

inductive VerifierError (Err : Type) where
  | numColOpens
  | columnPath
  | columnEval
  | columnDegree
  | outerTensor
  | innerTensor
  | encodingDims
  | encode (e : Err)
  deriving DecidableEq, Repr

structure LcCommit (D : Digest) (F : Type) where
  comm : List F
  coeffs : List F
  nRows : ℕ
  nCols : ℕ
  nPerRow : ℕ
  hashes : List D.Output

structure LcRoot (D : Digest) where
  root : D.Output

structure LcColumn (D : Digest) (F : Type) where
  col : List F
  path : List D.Output
  deriving DecidableEq

structure LcEvalProof (D : Digest) (F : Type) where
  nCols : ℕ
  pEval : List F
  pRandomVec : List (List F)
  columns : List (LcColumn D F)

def LcEvalProof.getNCols (proof : LcEvalProof D F) : ℕ := proof.nCols

def LcEvalProof.getNPerRow (proof : LcEvalProof D F) : ℕ := proof.pEval.length

/-- Transcripts and the generators seeded from them, as deterministic functions: the `k`-th
element drawn after seeding is a function of the seed and of `k`. -/
structure Challenges (F : Type) where
  Transcript : Type
  Seed : Type
  appendMessage : Transcript → List UInt8 → List UInt8 → Transcript
  challengeBytes : Transcript → List UInt8 → Seed × Transcript
  randomField : Seed → ℕ → F
  sampleUniform : ℕ → Seed → ℕ → ℕ
  sampleUniform_lt : ∀ {n}, 0 < n → ∀ key k, sampleUniform n key k < n

@[simp] theorem fed_update (h : Hasher D) (bytes : List UInt8) :
    (h.update bytes).fed = h.fed ++ bytes := rfl

@[simp] theorem fed_new : (Hasher.new : Hasher D).fed = [] := rfl

@[simp] theorem fed_digestUpdate [FieldHash F] (x : F) (h : Hasher D) :
    (digestUpdate x h).fed = h.fed ++ FieldHash.toHashRepr x := rfl

theorem toRepr_injective [PrimeField F] : Function.Injective (PrimeField.toRepr (F := F)) := by
  intro x y h
  have hx := PrimeField.fromRepr_toRepr x
  rw [h, PrimeField.fromRepr_toRepr] at hx
  exact (Option.some.inj hx).symm

theorem reprWidth_pos [Field F] [PrimeField F] : 0 < PrimeField.reprWidth F := by
  by_contra h
  have h0 : PrimeField.reprWidth F = 0 := by omega
  have heq : PrimeField.toRepr (0 : F) = PrimeField.toRepr (1 : F) := by
    ext i hi
    omega
  exact zero_ne_one (toRepr_injective heq)

theorem flatMap_toHashRepr_injective [Field F] [PrimeField F] :
    Function.Injective fun xs : List F => xs.flatMap FieldHash.toHashRepr :=
  FoundationSlices.flatMap_injective (f := FieldHash.toHashRepr (F := F)) reprWidth_pos
    (fun x => (PrimeField.toRepr x).length_toList)
    (fun _ _ h => toRepr_injective (Vector.toList_inj.mp h))

/-! A small instance of every parameter, to run the definitions on: integers modulo the Fermat
prime 257, a byte sum, a transcript that counts its calls and the two-point transform. -/

instance fact_prime_fermat : Fact (Nat.Prime 257) := ⟨by norm_num⟩

instance : PrimeField (ZMod 257) where
  reprWidth := 2
  toRepr x := #v[UInt8.ofNat (x.val % 256), UInt8.ofNat (x.val / 256)]
  fromRepr v :=
    if v[0].toNat + 256 * v[1].toNat < 257 then some (v[0].toNat + 256 * v[1].toNat : ℕ) else none
  fromRepr_toRepr x := by
    have hlt := ZMod.val_lt x
    have hlow : (UInt8.ofNat (x.val % 256)).toNat = x.val % 256 := by simp
    have hhigh : (UInt8.ofNat (x.val / 256)).toNat = x.val / 256 := by
      simp only [UInt8.toNat_ofNat']
      omega
    have hsum : x.val % 256 + 256 * (x.val / 256) = x.val := by omega
    simp only [Vector.getElem_mk, List.getElem_toArray, List.getElem_cons_zero,
      List.getElem_cons_succ, hlow, hhigh, hsum, if_pos hlt, ZMod.natCast_zmod_val]

def byteSum : Digest := ⟨1, fun bytes => #v[bytes.sum]⟩

def counting : Challenges (ZMod 257) where
  Transcript := ℕ
  Seed := ℕ
  appendMessage tr _ _ := tr + 1
  challengeBytes tr _ := (tr, tr + 1)
  randomField key k := (key + k : ℕ)
  sampleUniform n key k := (key + k) % n
  sampleUniform_lt h _ _ := Nat.mod_lt _ h

/-- Rows of one coefficient `a` become `a + 0` and `a - 0`. -/
def twoPoint [Field F] : LcEncoding F Unit where
  labelDT := []
  labelPR := []
  labelPE := []
  labelCO := []
  encode
    | [a, b] => .ok [a + b, a - b]
    | _ => fail ()
  length_encode {v w} h := by
    rcases v with _ | ⟨a, _ | ⟨b, _ | ⟨c, v⟩⟩⟩ <;> simp [fail] at h
    subst h
    rfl
  getDims len := (len, 1, 2)
  dimsOk nPerRow nCols := nPerRow == 1 && nCols == 2
  getNColOpens := 1
  getNDegreeTests := 1

end CommitmentTypes
