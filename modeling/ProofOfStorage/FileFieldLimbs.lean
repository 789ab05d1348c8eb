import ProofOfStorage.FileFields
import Mathlib.Data.Nat.Digits.Lemmas

/-! # Data bytes in the words of a field element

A derived field is a struct of 64-bit words whose value is the Montgomery form of the element.
Data bytes are put into the words directly, so the value can be too large for the field.
-/
namespace FileFieldLimbs

open FoundationFaults FoundationSlices
open FileFields (padded padded_toList flatMap_padded_chunks leBytes fromLeBytes length_leBytes
  fromLeBytes_leBytes leBytes_fromLeBytes fromLeBytes_lt writeableFt63Modulus)

inductive ByteOrder where
  | bigEndian
  | littleEndian

variable {ε : Type} {n modulus : ℕ} {endianness : ByteOrder}

def limbValue (x : Vector UInt64 n) : ℕ := Nat.ofDigits (2 ^ 64) (x.toList.map UInt64.toNat)

def reprValue (endianness : ByteOrder) {w : ℕ} (bytes : Vector UInt8 w) : ℕ :=
  match endianness with
  | .bigEndian => fromLeBytes bytes.toList.reverse
  | .littleEndian => fromLeBytes bytes.toList

/-- What `ff_derive` makes of a struct of words: byte forms of the canonical value. Reading accepts
the values below the modulus and makes the reduced element. -/
structure Derived (n modulus : ℕ) (endianness : ByteOrder) where
  toRepr : Vector UInt64 n → Vector UInt8 (8 * n)
  fromRepr : Vector UInt8 (8 * n) → Option (Vector UInt64 n)
  words_pos : 0 < n
  toRepr_lt : ∀ x, reprValue endianness (toRepr x) < modulus
  toRepr_modEq : ∀ x,
    reprValue endianness (toRepr x) * 2 ^ (64 * n) ≡ limbValue x [MOD modulus]
  fromRepr_isSome : ∀ bytes,
    (fromRepr bytes).isSome = true ↔ reprValue endianness bytes < modulus
  fromRepr_reduced : ∀ {bytes x}, fromRepr bytes = some x → limbValue x < modulus ∧
    limbValue x ≡ reprValue endianness bytes * 2 ^ (64 * n) [MOD modulus]

structure DataBytes (n : ℕ) where
  dataByteCapacity : ℕ
  fromDataBytes : Vector UInt8 dataByteCapacity → Vector UInt64 n
  toDataBytes : Vector UInt64 n → Vector UInt8 dataByteCapacity
  capacity_pos : 0 < dataByteCapacity
  toDataBytes_fromDataBytes : ∀ buf, toDataBytes (fromDataBytes buf) = buf
  fromDataBytes_le : ∀ x, limbValue (fromDataBytes (toDataBytes x)) ≤ limbValue x

def fromByteVec (f : DataBytes n) (vec : List UInt8) : List (Vector UInt64 n) :=
  (chunks f.dataByteCapacity vec).map fun byteChunk => f.fromDataBytes (padded _ byteChunk)

def fieldVecToByteVec (f : DataBytes n) (fieldVec : List (Vector UInt64 n)) : List UInt8 :=
  fieldVec.flatMap fun fieldElement => (f.toDataBytes fieldElement).toList

def convertFieldElementsVecToByteVec (f : DataBytes n) (fieldElements : List (Vector UInt64 n))
    (expectedLength : ℕ) : List UInt8 := (fieldVecToByteVec f fieldElements).take expectedLength

def fieldVecToRawBytes (d : Derived n modulus endianness) (fieldVec : List (Vector UInt64 n)) :
    List UInt8 := fieldVec.flatMap fun f => (d.toRepr f).toList

/-- Bytes that represent no element stop the program. -/
def rawBytesToFieldVec (d : Derived n modulus endianness) (rawBytes : List UInt8) :
    Fallible ε (List (Vector UInt64 n)) :=
  (chunks (8 * n) rawBytes).mapM fun byteChunk =>
    match d.fromRepr (padded _ byteChunk) with
    | some x => .ok x
    | none => panicked

theorem limbValue_injective : Function.Injective (limbValue : Vector UInt64 n → ℕ) := by
  intro x y h
  have hdigits : x.toList.map UInt64.toNat = y.toList.map UInt64.toNat := by
    refine Nat.ofDigits_inj_of_len_eq (b := 2 ^ 64) (by norm_num) (by simp) ?_ ?_ h
    · intro d hd
      obtain ⟨w, -, rfl⟩ := List.mem_map.mp hd
      exact w.toNat_lt
    · intro d hd
      obtain ⟨w, -, rfl⟩ := List.mem_map.mp hd
      exact w.toNat_lt
  have hinj : Function.Injective UInt64.toNat := fun _ _ => UInt64.toNat_inj.mp
  exact Vector.toList_inj.mp (List.map_injective_iff.mpr hinj hdigits)

section Storage

variable {f : DataBytes n} {d : Derived n modulus endianness}

theorem exists_fromRepr_toRepr (d : Derived n modulus endianness) (x : Vector UInt64 n) :
    ∃ y, d.fromRepr (d.toRepr x) = some y ∧ limbValue y = limbValue x % modulus := by
  obtain ⟨y, hy⟩ := Option.isSome_iff_exists.mp ((d.fromRepr_isSome _).mpr (d.toRepr_lt x))
  obtain ⟨hlt, hmod⟩ := d.fromRepr_reduced hy
  have hsame : limbValue y % modulus = limbValue x % modulus := hmod.trans (d.toRepr_modEq x)
  rw [Nat.mod_eq_of_lt hlt] at hsame
  exact ⟨y, hy, hsame⟩

theorem fromRepr_toRepr_of_reduced {x : Vector UInt64 n} (h : limbValue x < modulus) :
    d.fromRepr (d.toRepr x) = some x := by
  obtain ⟨y, hy, hvalue⟩ := exists_fromRepr_toRepr d x
  rw [Nat.mod_eq_of_lt h] at hvalue
  rw [hy, limbValue_injective hvalue]

theorem rawBytesToFieldVec_fieldVecToRawBytes {xs : List (Vector UInt64 n)}
    (h : ∀ x ∈ xs, limbValue x < modulus) :
    (rawBytesToFieldVec d (fieldVecToRawBytes d xs) : Fallible ε _) = .ok xs := by
  have hwidth : ∀ x : Vector UInt64 n, (d.toRepr x).toList.length = 8 * n := fun x =>
    (d.toRepr x).length_toList
  have hpos := d.words_pos
  unfold rawBytesToFieldVec fieldVecToRawBytes
  rw [chunks_flatMap (by omega) hwidth, List.mapM_map]
  have hread : ∀ x ∈ xs, (match d.fromRepr (padded (8 * n) (d.toRepr x).toList) with
      | some x => .ok x
      | none => panicked : Fallible ε (Vector UInt64 n)) = .ok (id x) := by
    intro x hx
    rw [padded_toList, fromRepr_toRepr_of_reduced (h x hx)]
    rfl
  have hall := mapM_of_forall hread
  rw [List.map_id] at hall
  exact hall

theorem fieldVecToByteVec_fromByteVec (f : DataBytes n) (vec : List UInt8) :
    fieldVecToByteVec f (fromByteVec f vec) = vec ++
      .replicate (divCeil vec.length f.dataByteCapacity * f.dataByteCapacity - vec.length) 0 := by
  rw [← flatMap_padded_chunks f.capacity_pos]
  simp only [fieldVecToByteVec, fromByteVec, List.flatMap_def, List.map_map, Function.comp_def,
    f.toDataBytes_fromDataBytes]

/-- The element of one array of data bytes is reduced. -/
def Reduced (modulus : ℕ) (f : DataBytes n) (buf : Vector UInt8 f.dataByteCapacity) : Prop :=
  limbValue (f.fromDataBytes buf) < modulus

/-- Written as raw bytes and read back, the element gives its data bytes. -/
def ReadBack (d : Derived n modulus endianness) (f : DataBytes n)
    (buf : Vector UInt8 f.dataByteCapacity) : Prop :=
  ∃ x, (rawBytesToFieldVec d (fieldVecToRawBytes d [f.fromDataBytes buf]) : Fallible Empty _) =
    .ok [x] ∧ f.toDataBytes x = buf

/-- Data bytes survive exactly when their element is reduced: reducing it makes it smaller, and
no smaller element has the same data bytes. -/
theorem readBack_iff (d : Derived n modulus endianness) (f : DataBytes n)
    (buf : Vector UInt8 f.dataByteCapacity) : ReadBack d f buf ↔ Reduced modulus f buf := by
  constructor
  · rintro ⟨x, hx, hbuf⟩
    by_contra hlarge
    have hle := f.fromDataBytes_le x
    rw [hbuf] at hle
    obtain ⟨y, hy, hvalue⟩ := exists_fromRepr_toRepr d (f.fromDataBytes buf)
    have hpos := d.words_pos
    have hread : (rawBytesToFieldVec d (fieldVecToRawBytes d [f.fromDataBytes buf]) :
        Fallible Empty _) = .ok [y] := by
      unfold rawBytesToFieldVec fieldVecToRawBytes
      rw [chunks_flatMap (by omega) fun x => (d.toRepr x).length_toList]
      rw [List.map_singleton, List.mapM_cons, padded_toList, hy]
      rfl
    obtain rfl : x = y := by
      injection hx.symm.trans hread with hlist
      injection hlist
    have hmod : limbValue (f.fromDataBytes buf) % modulus < modulus := by
      apply Nat.mod_lt
      exact Nat.lt_of_le_of_lt (Nat.zero_le _) (d.toRepr_lt x)
    rw [Reduced, Nat.not_lt] at hlarge
    omega
  · intro hreduced
    refine ⟨_, rawBytesToFieldVec_fieldVecToRawBytes ?_, f.toDataBytes_fromDataBytes buf⟩
    intro x hx
    rw [List.mem_singleton.mp hx]
    exact hreduced

end Storage

section Words

theorem fromLeBytes_append (bytes rest : List UInt8) : fromLeBytes (bytes ++ rest) =
    fromLeBytes bytes + 256 ^ bytes.length * fromLeBytes rest := by
  induction bytes with
  | nil => simp [fromLeBytes]
  | cons byte bytes ih =>
    rw [List.cons_append, fromLeBytes, fromLeBytes, ih, List.length_cons, pow_succ]
    ring

def fromBeBytes (bytes : List UInt8) : UInt64 := .ofNat (fromLeBytes bytes.reverse)

def toBeBytes (w : UInt64) : List UInt8 := (leBytes 8 w.toNat).reverse

@[simp] theorem length_toBeBytes (w : UInt64) : (toBeBytes w).length = 8 := by
  rw [toBeBytes, List.length_reverse, length_leBytes]

theorem toNat_ofNat_fromLeBytes {bytes : List UInt8} (h : bytes.length ≤ 8) :
    (UInt64.ofNat (fromLeBytes bytes)).toNat = fromLeBytes bytes := by
  have hlt : fromLeBytes bytes < 2 ^ 64 := by
    calc fromLeBytes bytes < 256 ^ bytes.length := fromLeBytes_lt bytes
      _ ≤ 256 ^ 8 := Nat.pow_le_pow_right (by norm_num) h
      _ = 2 ^ 64 := by norm_num
  rw [UInt64.toNat_ofNat', Nat.mod_eq_of_lt hlt]

theorem toNat_fromBeBytes {bytes : List UInt8} (h : bytes.length = 8) :
    (fromBeBytes bytes).toNat = fromLeBytes bytes.reverse :=
  toNat_ofNat_fromLeBytes (by rw [List.length_reverse, h])

theorem toBeBytes_fromBeBytes {bytes : List UInt8} (h : bytes.length = 8) :
    toBeBytes (fromBeBytes bytes) = bytes := by
  have hback := leBytes_fromLeBytes bytes.reverse
  rw [List.length_reverse, h] at hback
  rw [toBeBytes, toNat_fromBeBytes h, hback, List.reverse_reverse]

theorem fromLeBytes_reverse_toBeBytes (w : UInt64) :
    fromLeBytes (toBeBytes w).reverse = w.toNat := by
  rw [toBeBytes, List.reverse_reverse, fromLeBytes_leBytes, Nat.mod_eq_of_lt]
  exact w.toNat_lt

def words : ℕ → ℕ → List UInt64
  | 0, _ => []
  | n + 1, v => .ofNat v :: words n (v / 2 ^ 64)

@[simp] theorem length_words (n v : ℕ) : (words n v).length = n := by
  induction n generalizing v with
  | zero => rfl
  | succ n ih => simp [words, ih]

def limbs (n v : ℕ) : Vector UInt64 n := ⟨(words n v).toArray, by simp⟩

theorem limbValue_limbs {v : ℕ} (h : v < 2 ^ (64 * n)) : limbValue (limbs n v) = v := by
  have hwords : ∀ (n v : ℕ), Nat.ofDigits (2 ^ 64) ((words n v).map UInt64.toNat) =
      v % (2 ^ 64) ^ n := by
    intro n
    induction n with
    | zero =>
      intro v
      simp [words, Nat.mod_one]
    | succ n ih =>
      intro v
      have hlow : (UInt64.ofNat v).toNat = v % 2 ^ 64 := UInt64.toNat_ofNat'
      have hsplit : v % (2 ^ 64) ^ (n + 1) = v % 2 ^ 64 + 2 ^ 64 * (v / 2 ^ 64 % (2 ^ 64) ^ n) := by
        rw [pow_succ', Nat.mod_mul]
      rw [hsplit, words, List.map_cons, Nat.ofDigits_cons, ih, hlow]
  have hvalue : limbValue (limbs n v) = v % (2 ^ 64) ^ n := hwords n v
  rw [hvalue, ← pow_mul, Nat.mod_eq_of_lt h]

def reprOf (endianness : ByteOrder) (w v : ℕ) : Vector UInt8 w :=
  match endianness with
  | .bigEndian => ⟨(leBytes w v).reverse.toArray, by simp⟩
  | .littleEndian => ⟨(leBytes w v).toArray, by simp⟩

theorem reprValue_reprOf (endianness : ByteOrder) {w v : ℕ} (h : v < 256 ^ w) :
    reprValue endianness (reprOf endianness w v) = v := by
  have hvalue : fromLeBytes (leBytes w v) = v := by
    rw [fromLeBytes_leBytes, Nat.mod_eq_of_lt h]
  cases endianness with
  | bigEndian => simp [reprValue, reprOf, hvalue]
  | littleEndian => simp [reprValue, reprOf, hvalue]

/-- The number whose Montgomery form the words hold. -/
def canonical (modulus : ℕ) (x : Vector UInt64 n) : ℕ :=
  ((limbValue x : ZMod modulus) * ((2 ^ (64 * n) : ℕ) : ZMod modulus)⁻¹).val

theorem canonical_modEq (x : Vector UInt64 n) [NeZero modulus] (hodd : Odd modulus) :
    canonical modulus x * 2 ^ (64 * n) ≡ limbValue x [MOD modulus] := by
  have hcoprime := (Nat.coprime_two_left.mpr hodd).pow_left (64 * n)
  have hunit := ZMod.coe_mul_inv_eq_one _ hcoprime
  apply (ZMod.natCast_eq_natCast_iff _ _ _).mp
  rw [Nat.cast_mul, canonical, ZMod.natCast_zmod_val, mul_assoc, mul_comm _⁻¹, hunit, mul_one]

theorem canonical_lt (x : Vector UInt64 n) [NeZero modulus] : canonical modulus x < modulus :=
  ZMod.val_lt _

/-- Montgomery arithmetic modulo an odd number that the words can hold. -/
def montgomery (endianness : ByteOrder) (n modulus : ℕ) [NeZero modulus] (hpos : 0 < n)
    (hodd : Odd modulus) (hfits : modulus ≤ 2 ^ (64 * n)) :
    Derived n modulus endianness :=
  have hvalue : ∀ x : Vector UInt64 n, reprValue endianness
      (reprOf endianness (8 * n) (canonical modulus x)) = canonical modulus x := by
    intro x
    apply reprValue_reprOf
    have hwidth : 256 ^ (8 * n) = 2 ^ (64 * n) := by
      rw [show 256 = 2 ^ 8 from rfl, ← pow_mul]
      ring_nf
    rw [hwidth]
    exact (canonical_lt x).trans_le hfits
  { toRepr := fun x => reprOf endianness _ (canonical modulus x)
    fromRepr := fun bytes =>
      if reprValue endianness bytes < modulus then
        some (limbs n (reprValue endianness bytes * 2 ^ (64 * n) % modulus))
      else none
    words_pos := hpos
    toRepr_lt := by
      intro x
      rw [hvalue]
      exact canonical_lt x
    toRepr_modEq := by
      intro x
      rw [hvalue]
      exact canonical_modEq x hodd
    fromRepr_isSome := by simp
    fromRepr_reduced := by
      intro bytes x h
      split at h
      · obtain rfl := Option.some_inj.mp h
        have hlt := Nat.mod_lt (reprValue endianness bytes * 2 ^ (64 * n))
          (Nat.pos_of_ne_zero (NeZero.ne modulus))
        rw [limbValue_limbs (hlt.trans_le hfits)]
        exact ⟨hlt, Nat.mod_modEq _ _⟩
      · cases h }

end Words

namespace Ft253_192

abbrev ft253_192Modulus : ℕ :=
  14474011154664524421669271390699307717822958659997404088829842556525106692097

def fromDataBytes (buf : Vector UInt8 31) : Vector UInt64 4 :=
  let zeroPadded := buf.toList ++ [0]
  .ofFn fun i => fromBeBytes (row 8 zeroPadded i)

/-- The last word gives all its bytes but the lowest. -/
def toDataBytes (x : Vector UInt64 4) : Vector UInt8 31 :=
  ⟨(toBeBytes x[0] ++ toBeBytes x[1] ++ toBeBytes x[2] ++ (toBeBytes x[3]).take 7).toArray,
    by simp⟩

theorem toList_toDataBytes (x : Vector UInt64 4) : (toDataBytes x).toList =
    toBeBytes x[0] ++ toBeBytes x[1] ++ toBeBytes x[2] ++ (toBeBytes x[3]).take 7 := by
  simp [toDataBytes]

theorem limbValue_eq (x : Vector UInt64 4) : limbValue x = x[0].toNat + 2 ^ 64 * (x[1].toNat +
    2 ^ 64 * (x[2].toNat + 2 ^ 64 * x[3].toNat)) := by
  have hwords : x.toList = [x[0], x[1], x[2], x[3]] := by
    apply List.ext_getElem (by simp)
    intro i hi hi'
    rw [Vector.length_toList] at hi
    interval_cases i <;> rfl
  rw [limbValue, hwords]
  simp [Nat.ofDigits_cons]

theorem toDataBytes_append (x : Vector UInt64 4) : (toDataBytes x).toList ++ [(0 : UInt8)] =
    [toBeBytes x[0], toBeBytes x[1], toBeBytes x[2], (toBeBytes x[3]).take 7 ++ [0]].flatten := by
  simp [toDataBytes]

theorem row_padded (x : Vector UInt64 4) {i : ℕ} (hi : i < 4) :
    row 8 ((toDataBytes x).toList ++ [(0 : UInt8)]) i =
      [toBeBytes x[0], toBeBytes x[1], toBeBytes x[2],
        (toBeBytes x[3]).take 7 ++ [0]].getD i [] := by
  rw [toDataBytes_append, row_flatten _ hi]
  simp

theorem toDataBytes_fromDataBytes (buf : Vector UInt8 31) :
    toDataBytes (fromDataBytes buf) = buf := by
  have hlen : (buf.toList ++ [0]).length = 32 := by simp
  have hrow : ∀ i < 4, (row 8 (buf.toList ++ [0]) i).length = 8 := by
    intro i hi
    rw [length_row, hlen]
    omega
  have hword : ∀ (i : ℕ) (hi : i < 4),
      toBeBytes (fromDataBytes buf)[i] = row 8 (buf.toList ++ [0]) i := by
    intro i hi
    rw [fromDataBytes, Vector.getElem_ofFn, toBeBytes_fromBeBytes (hrow i hi)]
  have hbytes : (buf.toList ++ [0]).take (8 + 8 + 8 + 7) = buf.toList :=
    List.take_left' Vector.length_toList
  apply Vector.toList_inj.mp
  refine Eq.trans ?_ hbytes
  rw [toList_toDataBytes, hword 0 (by decide), hword 1 (by decide), hword 2 (by decide),
    hword 3 (by decide)]
  simp only [List.take_add, row, List.take_take]
  rfl

theorem fromDataBytes_le (x : Vector UInt64 4) :
    limbValue (fromDataBytes (toDataBytes x)) ≤ limbValue x := by
  have hlow : ∀ w : UInt64, (fromBeBytes (toBeBytes w)).toNat = w.toNat := by
    intro w
    rw [toNat_fromBeBytes (length_toBeBytes w), fromLeBytes_reverse_toBeBytes]
  have hhigh : (fromBeBytes ((toBeBytes x[3]).take 7 ++ [0])).toNat ≤ x[3].toNat := by
    have hsplit := List.take_append_drop 7 (toBeBytes x[3])
    obtain ⟨c, hc⟩ : ∃ c, (toBeBytes x[3]).drop 7 = [c] := by
      apply List.length_eq_one_iff.mp
      simp
    rw [hc] at hsplit
    rw [toNat_fromBeBytes (by simp), ← fromLeBytes_reverse_toBeBytes x[3], ← hsplit]
    simp only [List.reverse_append, List.reverse_singleton, List.singleton_append, fromLeBytes]
    simp
  rw [limbValue_eq, limbValue_eq]
  simp only [fromDataBytes, Vector.getElem_ofFn, row_padded _ (show 0 < 4 by decide),
    row_padded _ (show 1 < 4 by decide), row_padded _ (show 2 < 4 by decide),
    row_padded _ (show 3 < 4 by decide), List.getD_cons_zero, List.getD_cons_succ, hlow]
  omega

theorem exists_last_word (buf : Vector UInt8 31) :
    ∃ m < 256 ^ 6, (fromDataBytes buf)[3].toNat = 256 * m + 256 ^ 7 * buf[24].toNat := by
  have hrow : row 8 (buf.toList ++ [0]) 3 = buf[24] :: ((buf.toList.drop 25) ++ [0]) := by
    have hcons : buf.toList.drop 24 = buf[24] :: buf.toList.drop 25 := by
      rw [List.drop_eq_getElem_cons (by simp)]
      rfl
    rw [row, List.drop_append_of_le_length (by simp), hcons, List.cons_append,
      List.take_of_length_le (by simp)]
  have hlen : ((buf.toList.drop 25).reverse).length = 6 := by simp
  refine ⟨fromLeBytes (buf.toList.drop 25).reverse, ?_, ?_⟩
  · rw [← hlen]
    exact fromLeBytes_lt _
  · have hword : (fromDataBytes buf)[3] = fromBeBytes (row 8 (buf.toList ++ [0]) 3) := by
      rw [fromDataBytes, Vector.getElem_ofFn]
    rw [hword, toNat_fromBeBytes (by rw [length_row]; simp), hrow, List.reverse_cons,
      List.reverse_append, List.reverse_singleton, List.singleton_append, List.cons_append,
      fromLeBytes, fromLeBytes_append, hlen]
    simp only [fromLeBytes]
    simp
    ring

/-- The value stays below the modulus as long as the top byte of the last word is below 32. -/
theorem limbValue_lt_iff (buf : Vector UInt8 31) :
    limbValue (fromDataBytes buf) < ft253_192Modulus ↔ buf[24] < 32 := by
  obtain ⟨m, hm, hlast⟩ := exists_last_word buf
  have h0 := (fromDataBytes buf)[0].toNat_lt
  have h1 := (fromDataBytes buf)[1].toNat_lt
  have h2 := (fromDataBytes buf)[2].toNat_lt
  rw [limbValue_eq, hlast, UInt8.lt_iff_toNat_lt]
  have h32 : (32 : UInt8).toNat = 32 := rfl
  rw [h32]
  unfold ft253_192Modulus
  norm_num at hm ⊢
  omega

def dataBytes : DataBytes 4 where
  dataByteCapacity := 31
  fromDataBytes := fromDataBytes
  toDataBytes := toDataBytes
  capacity_pos := by decide
  toDataBytes_fromDataBytes := toDataBytes_fromDataBytes
  fromDataBytes_le := fromDataBytes_le

/-- Thirty-one bytes are one too many for the way they are laid out: they are kept exactly when
byte 24 leaves the top bits of the last word free. -/
theorem reduced_and_readBack_iff (d : Derived 4 ft253_192Modulus .bigEndian)
    (buf : Vector UInt8 31) :
    Reduced ft253_192Modulus dataBytes buf ∧ ReadBack d dataBytes buf ↔ buf[24] < 32 := by
  have hreduced : Reduced ft253_192Modulus dataBytes buf ↔ buf[24] < 32 := limbValue_lt_iff buf
  have hread := readBack_iff d dataBytes buf
  rw [hread, and_self, hreduced]

instance : NeZero ft253_192Modulus := ⟨by norm_num⟩

def ft253_192 : Derived 4 ft253_192Modulus .bigEndian :=
  montgomery _ 4 _ (by decide) (by decide) (by norm_num)

theorem not_reduced_of_ones : ¬Reduced ft253_192Modulus dataBytes (.replicate 31 0xFF) ∧
    ¬ReadBack ft253_192 dataBytes (.replicate 31 0xFF) := by
  have hlarge : ¬Reduced ft253_192Modulus dataBytes (.replicate 31 0xFF) := by
    intro h
    have hbyte := (limbValue_lt_iff _).mp h
    rw [Vector.getElem_replicate] at hbyte
    exact absurd hbyte (by decide)
  exact ⟨hlarge, fun h => hlarge ((readBack_iff _ _ _).mp h)⟩

end Ft253_192
namespace WriteableFt63

def fromDataBytes (buf : Vector UInt8 7) : Vector UInt64 1 :=
  let zeroPadded := buf.toList ++ [0]
  #v[.ofNat (fromLeBytes zeroPadded)]

def toDataBytes (x : Vector UInt64 1) : Vector UInt8 7 :=
  ⟨((leBytes 8 x.head.toNat).take 7).toArray, by simp⟩

theorem limbValue_eq (x : Vector UInt64 1) : limbValue x = x.head.toNat := by
  have hwords : x.toList = [x.head] := by
    apply List.ext_getElem (by simp)
    intro i hi hi'
    rw [Vector.length_toList] at hi
    interval_cases i
    rfl
  rw [limbValue, hwords]
  simp

theorem limbValue_fromDataBytes (buf : Vector UInt8 7) :
    limbValue (fromDataBytes buf) = fromLeBytes buf.toList := by
  have hword : (fromDataBytes buf).head = .ofNat (fromLeBytes (buf.toList ++ [0])) := rfl
  rw [limbValue_eq, hword, toNat_ofNat_fromLeBytes (by simp), fromLeBytes_append]
  simp [fromLeBytes]

/-- Seven bytes are too few to reach the modulus. -/
theorem limbValue_lt (buf : Vector UInt8 7) :
    limbValue (fromDataBytes buf) < writeableFt63Modulus := by
  have hlt := fromLeBytes_lt buf.toList
  rw [Vector.length_toList] at hlt
  rw [limbValue_fromDataBytes]
  exact hlt.trans (by norm_num)

theorem toList_toDataBytes (x : Vector UInt64 1) :
    (toDataBytes x).toList = leBytes 7 (limbValue x) := by
  have htake : ∀ n v, (leBytes (n + 1) v).take n = leBytes n v := by
    intro n
    induction n with
    | zero => simp [leBytes]
    | succ n ih =>
      intro v
      rw [leBytes, List.take_succ_cons, ih, leBytes]
  rw [limbValue_eq, ← htake]
  rfl

theorem toDataBytes_fromDataBytes (buf : Vector UInt8 7) :
    toDataBytes (fromDataBytes buf) = buf := by
  have hbytes := leBytes_fromLeBytes buf.toList
  rw [Vector.length_toList] at hbytes
  apply Vector.toList_inj.mp
  rw [toList_toDataBytes, limbValue_fromDataBytes, hbytes]

theorem fromDataBytes_le (x : Vector UInt64 1) :
    limbValue (fromDataBytes (toDataBytes x)) ≤ limbValue x := by
  rw [limbValue_fromDataBytes, toList_toDataBytes, fromLeBytes_leBytes]
  exact Nat.mod_le _ _

def dataBytes : DataBytes 1 where
  dataByteCapacity := 7
  fromDataBytes := fromDataBytes
  toDataBytes := toDataBytes
  capacity_pos := Nat.succ_pos 6
  toDataBytes_fromDataBytes := toDataBytes_fromDataBytes
  fromDataBytes_le := fromDataBytes_le

theorem limbValue_lt_of_mem {v : List UInt8} {x : Vector UInt64 1}
    (h : x ∈ fromByteVec dataBytes v) : limbValue x < writeableFt63Modulus := by
  obtain ⟨chunk, -, rfl⟩ := List.mem_map.mp h
  exact limbValue_lt _

/-- Every byte string fills reduced elements, which give it back from memory and from their raw
bytes. -/
theorem stored_without_loss (d : Derived 1 writeableFt63Modulus .littleEndian) (v : List UInt8) :
    (∀ x ∈ fromByteVec dataBytes v, limbValue x < writeableFt63Modulus) ∧
      fieldVecToByteVec dataBytes (fromByteVec dataBytes v) =
        v ++ .replicate (divCeil v.length 7 * 7 - v.length) 0 ∧
      convertFieldElementsVecToByteVec dataBytes (fromByteVec dataBytes v) v.length = v ∧
      (rawBytesToFieldVec d (fieldVecToRawBytes d (fromByteVec dataBytes v)) : Fallible ε _) =
        .ok (fromByteVec dataBytes v) := by
  have hbytes := fieldVecToByteVec_fromByteVec dataBytes v
  refine ⟨fun x => limbValue_lt_of_mem, hbytes, ?_, ?_⟩
  · rw [convertFieldElementsVecToByteVec, hbytes, List.take_left' rfl]
  · exact rawBytesToFieldVec_fieldVecToRawBytes fun x => limbValue_lt_of_mem

instance : NeZero writeableFt63Modulus := ⟨by norm_num⟩

def writeableFt63 : Derived 1 writeableFt63Modulus .littleEndian :=
  montgomery _ 1 _ Nat.one_pos (by decide) (by norm_num)

def denote (x : Vector UInt64 1) : FileFields.WriteableFt63 :=
  (limbValue x : FileFields.WriteableFt63) * FileFields.montgomeryRadix⁻¹

theorem denote_fromDataBytes (buf : Vector UInt8 7) :
    denote (fromDataBytes buf) = FileFields.DataField.fromDataBytes buf := by
  rw [denote, limbValue_fromDataBytes]
  rfl

theorem map_denote_fromByteVec (v : List UInt8) :
    (fromByteVec dataBytes v).map denote = FileFields.fromByteVec v := by
  rw [fromByteVec, List.map_map]
  apply List.map_congr_left
  intro chunk _
  exact denote_fromDataBytes _

theorem val_denote_mul (x : Vector UInt64 1) (h : limbValue x < writeableFt63Modulus) :
    (denote x * FileFields.montgomeryRadix).val = limbValue x := by
  rw [denote, inv_mul_cancel_right₀ FileFields.montgomeryRadix_ne_zero, ZMod.val_natCast,
    Nat.mod_eq_of_lt h]

theorem toDataBytes_denote {x : Vector UInt64 1} (h : limbValue x < writeableFt63Modulus) :
    FileFields.DataField.toDataBytes (denote x) = toDataBytes x := by
  apply Vector.toList_inj.mp
  rw [toList_toDataBytes, ← val_denote_mul x h]
  rfl

theorem fieldVecToByteVec_map_denote {xs : List (Vector UInt64 1)}
    (h : ∀ x ∈ xs, limbValue x < writeableFt63Modulus) :
    FileFields.fieldVecToByteVec (xs.map denote) = fieldVecToByteVec dataBytes xs := by
  rw [FileFields.fieldVecToByteVec, fieldVecToByteVec, List.flatMap_map]
  apply List.flatMap_congr
  intro x hx
  rw [toDataBytes_denote (h x hx)]
  rfl

theorem cast_radix :
    ((2 ^ (64 * 1) : ℕ) : FileFields.WriteableFt63) = FileFields.montgomeryRadix := by
  rw [Nat.cast_pow, Nat.cast_ofNat, FileFields.montgomeryRadix]

section Derived

variable (d : Derived 1 writeableFt63Modulus .littleEndian)

theorem toRepr_denote (x : Vector UInt64 1) :
    CommitmentTypes.PrimeField.toRepr (denote x) = d.toRepr x := by
  have hcanonical : (denote x).val = reprValue .littleEndian (d.toRepr x) := by
    have hmod := (ZMod.natCast_eq_natCast_iff _ _ _).mpr (d.toRepr_modEq x)
    rw [Nat.cast_mul, cast_radix] at hmod
    rw [denote, ← hmod, mul_inv_cancel_right₀ FileFields.montgomeryRadix_ne_zero,
      ZMod.val_natCast, Nat.mod_eq_of_lt (d.toRepr_lt x)]
  have hbytes := leBytes_fromLeBytes (d.toRepr x).toList
  rw [Vector.length_toList] at hbytes
  apply Vector.toList_inj.mp
  refine Eq.trans ?_ hbytes
  change leBytes 8 (denote x).val = _
  rw [hcanonical]
  rfl

theorem fieldVecToRawBytes_map_denote (xs : List (Vector UInt64 1)) :
    FileFields.fieldVecToRawBytes (xs.map denote) = fieldVecToRawBytes d xs := by
  rw [FileFields.fieldVecToRawBytes, fieldVecToRawBytes, List.flatMap_map]
  apply List.flatMap_congr
  intro x _
  rw [FileFields.reprBytes, toRepr_denote d]

theorem map_denote_fromRepr (bytes : Vector UInt8 8) :
    (d.fromRepr bytes).map denote = CommitmentTypes.PrimeField.fromRepr bytes := by
  have hfrom : (CommitmentTypes.PrimeField.fromRepr bytes : Option FileFields.WriteableFt63) =
      if reprValue .littleEndian bytes < writeableFt63Modulus then
        some ((reprValue .littleEndian bytes : ℕ) : FileFields.WriteableFt63) else none := rfl
  have hsome := d.fromRepr_isSome bytes
  rw [hfrom]
  cases hread : d.fromRepr bytes with
  | none =>
    have hlarge : ¬reprValue .littleEndian bytes < writeableFt63Modulus := by
      intro hlt
      rw [hread] at hsome
      exact absurd (hsome.mpr hlt) (by decide)
    rw [if_neg hlarge]
    rfl
  | some x =>
    rw [hread] at hsome
    have hmod := (ZMod.natCast_eq_natCast_iff _ _ _).mpr (d.fromRepr_reduced hread).2
    rw [Nat.cast_mul, cast_radix] at hmod
    rw [if_pos (hsome.mp rfl), Option.map_some, denote, hmod,
      mul_inv_cancel_right₀ FileFields.montgomeryRadix_ne_zero]

end Derived

end WriteableFt63

end FileFieldLimbs
