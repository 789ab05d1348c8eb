import ProofOfStorage.CommitmentTypes
import ProofOfStorage.FoundationPanics

/-! # Commitments and proofs on the wire

What is sent is a wrapped copy in which a digest is a string of bytes of any length. Reading
it back collects the bytes into a digest, which panics at every other length than its own.
-/
namespace CommitmentWire

open FoundationFaults FoundationPanics CommitmentTypes

variable {D : Digest} {F ε X W : Type}

/-- `collect::<Output<D>>()` of another crate: `none` is its panic. That it takes the digest's
length only is assumed; generic-array 0.14.7 cuts longer input. -/
structure OutputArrays (D : Digest) where
  fromIter : List UInt8 → Option D.Output
  fromIter_toList : ∀ out : D.Output, fromIter out.toList = some out
  fromIter_eq_none : ∀ {bytes}, bytes.length ≠ D.outputSize → fromIter bytes = none

/-- A derived pair of `serialize` and `deserialize`, over any format. -/
structure Derived (W : Type) where
  Wire : Type
  Err : Type
  serialize : W → Except Err Wire
  deserialize : Wire → Except Err W
  lossless : ∀ {w wire}, serialize w = .ok wire → deserialize wire = .ok w

structure WrappedOutput where
  bytes : List UInt8
  deriving DecidableEq, Repr

structure WrappedLcColumn (F : Type) where
  col : List F
  path : List WrappedOutput
  deriving DecidableEq, Repr

structure WrappedLcCommit (F : Type) where
  comm : List F
  coeffs : List F
  nRows : ℕ
  nCols : ℕ
  nPerRow : ℕ
  hashes : List WrappedOutput
  deriving DecidableEq, Repr

structure WrappedLcEvalProof (F : Type) where
  nCols : ℕ
  pEval : List F
  pRandomVec : List (List F)
  columns : List (WrappedLcColumn F)
  deriving DecidableEq, Repr

def LcRoot.wrapped (x : LcRoot D) : WrappedOutput := ⟨x.root.toList⟩

def LcColumn.wrapped (x : LcColumn D F) : WrappedLcColumn F :=
  ⟨x.col, x.path.map fun h => ⟨h.toList⟩⟩

def LcCommit.wrapped (x : LcCommit D F) : WrappedLcCommit F :=
  { comm := x.comm, coeffs := x.coeffs, nRows := x.nRows, nCols := x.nCols, nPerRow := x.nPerRow,
    hashes := x.hashes.map fun h => ⟨h.toList⟩ }

def LcEvalProof.wrapped (x : LcEvalProof D F) : WrappedLcEvalProof F :=
  ⟨x.nCols, x.pEval, x.pRandomVec, x.columns.map LcColumn.wrapped⟩

section Unwrapping

variable (arrays : OutputArrays D)

def collect (bytes : List UInt8) : Fallible ε D.Output :=
  match arrays.fromIter bytes with
  | some out => .ok out
  | none => panicked

def WrappedOutput.unwrap (w : WrappedOutput) : Fallible ε (LcRoot D) := do
  return ⟨← collect arrays w.bytes⟩

def WrappedLcColumn.unwrap (w : WrappedLcColumn F) : Fallible ε (LcColumn D F) := do
  let path ← w.path.mapM fun v => collect arrays v.bytes
  return ⟨w.col, path⟩

def WrappedLcCommit.unwrap (w : WrappedLcCommit F) : Fallible ε (LcCommit D F) := do
  let hashes ← w.hashes.mapM fun c => do return (← c.unwrap arrays).root
  return ⟨w.comm, w.coeffs, w.nRows, w.nCols, w.nPerRow, hashes⟩

def WrappedLcEvalProof.unwrap (w : WrappedLcEvalProof F) : Fallible ε (LcEvalProof D F) := do
  let columns ← w.columns.mapM fun c => c.unwrap arrays
  return ⟨w.nCols, w.pEval, w.pRandomVec, columns⟩

end Unwrapping

section Formats

def returned {Err : Type} (r : Except Err X) : Fallible Err X :=
  match r with
  | .ok x => .ok x
  | .error e => fail e

def serializeWrapped (serde : Derived W) (wrapped : X → W) (x : X) :
    Fallible serde.Err serde.Wire :=
  returned (serde.serialize (wrapped x))

def deserializeWrapped (serde : Derived W) (unwrap : W → Fallible serde.Err X)
    (wire : serde.Wire) : Fallible serde.Err X := do
  unwrap (← returned (serde.deserialize wire))

variable (arrays : OutputArrays D)

def LcRoot.serialize (serde : Derived WrappedOutput) (x : LcRoot D) :
    Fallible serde.Err serde.Wire :=
  serializeWrapped serde LcRoot.wrapped x

def LcRoot.deserialize (serde : Derived WrappedOutput) (wire : serde.Wire) :
    Fallible serde.Err (LcRoot D) :=
  deserializeWrapped serde (WrappedOutput.unwrap arrays) wire

def LcColumn.serialize (serde : Derived (WrappedLcColumn F)) (x : LcColumn D F) :
    Fallible serde.Err serde.Wire :=
  serializeWrapped serde LcColumn.wrapped x

def LcColumn.deserialize (serde : Derived (WrappedLcColumn F)) (wire : serde.Wire) :
    Fallible serde.Err (LcColumn D F) :=
  deserializeWrapped serde (WrappedLcColumn.unwrap arrays) wire

def LcCommit.serialize (serde : Derived (WrappedLcCommit F)) (x : LcCommit D F) :
    Fallible serde.Err serde.Wire :=
  serializeWrapped serde LcCommit.wrapped x

def LcCommit.deserialize (serde : Derived (WrappedLcCommit F)) (wire : serde.Wire) :
    Fallible serde.Err (LcCommit D F) :=
  deserializeWrapped serde (WrappedLcCommit.unwrap arrays) wire

def LcEvalProof.serialize (serde : Derived (WrappedLcEvalProof F)) (x : LcEvalProof D F) :
    Fallible serde.Err serde.Wire :=
  serializeWrapped serde LcEvalProof.wrapped x

def LcEvalProof.deserialize (serde : Derived (WrappedLcEvalProof F)) (wire : serde.Wire) :
    Fallible serde.Err (LcEvalProof D F) :=
  deserializeWrapped serde (WrappedLcEvalProof.unwrap arrays) wire

end Formats

/-! The byte strings in a wrapped value that are to become digests. -/

def WrappedOutput.digests (w : WrappedOutput) : List (List UInt8) := [w.bytes]

def WrappedLcColumn.digests (w : WrappedLcColumn F) : List (List UInt8) :=
  w.path.flatMap WrappedOutput.digests

def WrappedLcCommit.digests (w : WrappedLcCommit F) : List (List UInt8) :=
  w.hashes.flatMap WrappedOutput.digests

def WrappedLcEvalProof.digests (w : WrappedLcEvalProof F) : List (List UInt8) :=
  w.columns.flatMap WrappedLcColumn.digests

/-- Every byte string is as long as a digest. -/
def Fits (D : Digest) (digests : List (List UInt8)) : Prop :=
  ∀ bytes ∈ digests, bytes.length = D.outputSize

instance (D : Digest) (digests : List (List UInt8)) : Decidable (Fits D digests) :=
  inferInstanceAs (Decidable (∀ _ ∈ _, _))

/-- Unwrapping undoes wrapping, returns no error, and returns a value when the digests fit. -/
structure Faithful (D : Digest) (wrapped : X → W) (unwrap : W → Fallible ε X)
    (digests : W → List (List UInt8)) : Prop where
  unwrap_wrapped : ∀ x, unwrap (wrapped x) = .ok x
  noError : ∀ w, NoError (unwrap w)
  exists_ok_iff : ∀ w, (∃ x, unwrap w = .ok x) ↔ Fits D (digests w)

section Levels

variable {wrapped : X → W} {unwrap : W → Fallible ε X} {digests : W → List (List UInt8)}

theorem faithful_collect (arrays : OutputArrays D) :
    Faithful D (fun out : D.Output => WrappedOutput.mk out.toList)
      (fun v => (collect arrays v.bytes : Fallible ε D.Output)) WrappedOutput.digests := by
  constructor
  · intro out
    simp [collect, arrays.fromIter_toList]
  · intro v
    unfold collect
    cases arrays.fromIter v.bytes with
    | none => exact noError_panicked
    | some out => exact noError_ok out
  · intro v
    rw [Fits, WrappedOutput.digests, List.forall_mem_singleton]
    constructor
    · rintro ⟨out, hout⟩
      by_contra hne
      simp [collect, arrays.fromIter_eq_none hne, panicked] at hout
    · intro hlength
      obtain ⟨out, hbytes⟩ : ∃ out : D.Output, out.toList = v.bytes :=
        ⟨⟨v.bytes.toArray, by simpa using hlength⟩, rfl⟩
      exact ⟨out, by simp [collect, ← hbytes, arrays.fromIter_toList]⟩

theorem Faithful.mapM (h : Faithful D wrapped unwrap digests) :
    Faithful D (List.map wrapped) (fun ws => ws.mapM unwrap) (List.flatMap digests) := by
  constructor
  · intro xs
    rw [List.mapM_map]
    exact (mapM_of_forall (g := id) fun x _ => h.unwrap_wrapped x).trans (by rw [List.map_id])
  · intro ws
    exact noError_mapM fun w _ => h.noError w
  · intro ws
    simp only [exists_mapM_eq_ok, h.exists_ok_iff, Fits, List.mem_flatMap]
    constructor
    · rintro hall bytes ⟨w, hw, hbytes⟩
      exact hall w hw bytes hbytes
    · intro hall w hw bytes hbytes
      exact hall bytes ⟨w, hw, hbytes⟩

theorem Faithful.record {X' W' : Type} {wrapped' : X' → W'} {part : X' → X} {field : W' → W}
    {build : W' → X → X'} (h : Faithful D wrapped unwrap digests)
    (hfield : ∀ x, field (wrapped' x) = wrapped (part x))
    (hbuild : ∀ x, build (wrapped' x) (part x) = x) :
    Faithful D wrapped' (fun w => do return build w (← unwrap (field w)))
      (fun w => digests (field w)) := by
  constructor
  · intro x
    rw [hfield, h.unwrap_wrapped, ok_bind, hbuild, pure_eq_ok]
  · intro w
    exact noError_bind (h.noError _) fun _ => noError_ok _
  · intro w
    rw [← h.exists_ok_iff]
    simp only [bind_eq_ok, pure_eq_ok, Except.ok.injEq]
    constructor
    · rintro ⟨_, x, hx, rfl⟩
      exact ⟨x, hx⟩
    · rintro ⟨x, hx⟩
      exact ⟨_, x, hx, rfl⟩

end Levels

section Types

variable (arrays : OutputArrays D)

theorem faithful_root : Faithful D LcRoot.wrapped
    (WrappedOutput.unwrap arrays : _ → Fallible ε (LcRoot D)) WrappedOutput.digests :=
  (faithful_collect arrays).record (fun _ => rfl) (fun _ => rfl)

theorem faithful_column : Faithful D LcColumn.wrapped
    (WrappedLcColumn.unwrap arrays : _ → Fallible ε (LcColumn D F)) WrappedLcColumn.digests :=
  (faithful_collect arrays).mapM.record (fun _ => rfl) (fun _ => rfl)

theorem root_unwrap (w : WrappedOutput) :
    (do return (← w.unwrap arrays).root : Fallible ε D.Output) = collect arrays w.bytes := by
  simp [WrappedOutput.unwrap]

theorem faithful_commit : Faithful D LcCommit.wrapped
    (WrappedLcCommit.unwrap arrays : _ → Fallible ε (LcCommit D F)) WrappedLcCommit.digests := by
  have hroots : (WrappedLcCommit.unwrap arrays : _ → Fallible ε (LcCommit D F)) = fun w => do
      return ⟨w.comm, w.coeffs, w.nRows, w.nCols, w.nPerRow,
        ← w.hashes.mapM fun c => collect arrays c.bytes⟩ := by
    funext w
    simp only [WrappedLcCommit.unwrap, root_unwrap]
  rw [hroots]
  exact (faithful_collect arrays).mapM.record (fun _ => rfl) (fun _ => rfl)

theorem faithful_evalProof : Faithful D LcEvalProof.wrapped
    (WrappedLcEvalProof.unwrap arrays : _ → Fallible ε (LcEvalProof D F))
    WrappedLcEvalProof.digests :=
  (faithful_column arrays).mapM.record (fun _ => rfl) (fun _ => rfl)

end Types

/-- Values survive the wire; what a peer sends is refused without a panic exactly when its
digests have the length of a digest. -/
structure Converts (D : Digest) (serde : Derived W) (wrapped : X → W)
    (unwrap : W → Fallible serde.Err X) (serialize : X → Fallible serde.Err serde.Wire)
    (deserialize : serde.Wire → Fallible serde.Err X) (digests : W → List (List UInt8)) :
    Prop where
  unwrap_wrapped : ∀ x, unwrap (wrapped x) = .ok x
  deserialize_serialize : ∀ x wire, serialize x = .ok wire → deserialize wire = .ok x
  sent_iff : ∀ w wire, serde.serialize w = .ok wire →
    (deserialize wire ≠ .error .panic ↔ Fits D (digests w))
  received_iff : ∀ wire, deserialize wire ≠ .error .panic ↔
    ∀ w, serde.deserialize wire = .ok w → Fits D (digests w)

section Wires

variable {serde : Derived W} {wrapped : X → W} {unwrap : W → Fallible serde.Err X}
  {digests : W → List (List UInt8)}

theorem deserializeWrapped_of_ok {wire : serde.Wire} {w : W}
    (h : serde.deserialize wire = .ok w) : deserializeWrapped serde unwrap wire = unwrap w := by
  rw [deserializeWrapped, h]
  rfl

theorem Faithful.ne_panic_iff (h : Faithful D wrapped unwrap digests) {wire : serde.Wire} {w : W}
    (hread : serde.deserialize wire = .ok w) :
    deserializeWrapped serde unwrap wire ≠ .error .panic ↔ Fits D (digests w) := by
  rw [deserializeWrapped_of_ok hread, Ne, eq_panic_iff_of_noError (h.noError w), not_not,
    h.exists_ok_iff]

theorem Faithful.converts (h : Faithful D wrapped unwrap digests) :
    Converts D serde wrapped unwrap (serializeWrapped serde wrapped)
      (deserializeWrapped serde unwrap) digests := by
  refine ⟨h.unwrap_wrapped, ?_, fun w wire hsent => h.ne_panic_iff (serde.lossless hsent), ?_⟩
  · intro x wire hsent
    have hwire : serde.serialize (wrapped x) = .ok wire := by
      unfold serializeWrapped returned fail at hsent
      cases hresult : serde.serialize (wrapped x) with
      | ok _ => simpa [hresult] using hsent
      | error _ => simp [hresult] at hsent
    rw [deserializeWrapped_of_ok (serde.lossless hwire), h.unwrap_wrapped]
  · intro wire
    cases hread : serde.deserialize wire with
    | ok w =>
      rw [h.ne_panic_iff hread]
      simp
    | error e => simp [deserializeWrapped, returned, fail, hread]

end Wires

/-- Roots, columns, commitments and evaluation proofs survive the wire. A received value is
read or refused, and never panics, if and only if each of its digests has the right length. -/
theorem wire_conversions_safe_iff (arrays : OutputArrays D) (roots : Derived WrappedOutput)
    (columns : Derived (WrappedLcColumn F)) (commits : Derived (WrappedLcCommit F))
    (proofs : Derived (WrappedLcEvalProof F)) :
    Converts D roots LcRoot.wrapped (WrappedOutput.unwrap arrays) (LcRoot.serialize roots)
      (LcRoot.deserialize arrays roots) WrappedOutput.digests ∧
    Converts D columns LcColumn.wrapped (WrappedLcColumn.unwrap arrays)
      (LcColumn.serialize columns) (LcColumn.deserialize arrays columns)
      WrappedLcColumn.digests ∧
    Converts D commits LcCommit.wrapped (WrappedLcCommit.unwrap arrays)
      (LcCommit.serialize commits) (LcCommit.deserialize arrays commits)
      WrappedLcCommit.digests ∧
    Converts D proofs LcEvalProof.wrapped (WrappedLcEvalProof.unwrap arrays)
      (LcEvalProof.serialize proofs) (LcEvalProof.deserialize arrays proofs)
      WrappedLcEvalProof.digests :=
  ⟨(faithful_root arrays).converts, (faithful_column arrays).converts,
    (faithful_commit arrays).converts, (faithful_evalProof arrays).converts⟩

def exactArrays (D : Digest) : OutputArrays D where
  fromIter bytes := if h : bytes.toArray.size = D.outputSize then some ⟨bytes.toArray, h⟩ else none
  fromIter_toList out := by simp [Vector.toList]
  fromIter_eq_none h := dif_neg (by simpa using h)

def plain (W : Type) : Derived W where
  Wire := W
  Err := Empty
  serialize := .ok
  deserialize := .ok
  lossless h := h.symm ▸ rfl

theorem wire_conversions_safe_small :
    LcEvalProof.deserialize (exactArrays byteSum) (plain (WrappedLcEvalProof (ZMod 257)))
      ⟨2, [0], [], [⟨[5], [⟨[7]⟩]⟩]⟩ ≠ .error .panic :=
  ((wire_conversions_safe_iff (F := ZMod 257) (exactArrays byteSum) (plain _) (plain _) (plain _)
    (plain _)).2.2.2.sent_iff ⟨2, [0], [], [⟨[5], [⟨[7]⟩]⟩]⟩ _ rfl).mpr (by decide)

/-- An empty digest in the path of an opened column, inside a received evaluation proof. -/
theorem short_digest_panics :
    ∃ w wire, (plain (WrappedLcEvalProof (ZMod 257))).serialize w = .ok wire ∧
      LcEvalProof.deserialize (exactArrays byteSum) (plain _) wire = .error .panic :=
  ⟨⟨2, [0], [], [⟨[5], [⟨[]⟩]⟩]⟩, _, rfl, rfl⟩

end CommitmentWire
