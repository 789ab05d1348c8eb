import ProofOfStorage.CommitmentTypes
import ProofOfStorage.FoundationPositionalFiles
import Mathlib.NumberTheory.LucasPrimality
import Mathlib.Tactic.ReduceModChar

/-! # Bytes stored in field elements -/
namespace FileFields

open FoundationFaults FoundationSlices FoundationPositionalFiles CommitmentTypes

/-- A field whose elements hold a fixed number of bytes without loss. -/
class DataField (F : Type) [Field F] extends PrimeField F where
  dataByteCapacity : ℕ
  fromDataBytes : Vector UInt8 dataByteCapacity → F
  toDataBytes : F → Vector UInt8 dataByteCapacity
  capacity_pos : 0 < dataByteCapacity
  toDataBytes_fromDataBytes : ∀ v, toDataBytes (fromDataBytes v) = v
  fromDataBytes_zero : fromDataBytes (.replicate dataByteCapacity 0) = 0

open DataField

variable {ε F : Type} [Field F] [DataField F]

/-- The size of an element in memory, which is the size of its byte form. -/
def writtenBytesWidth (F : Type) [Field F] [DataField F] : ℕ := PrimeField.reprWidth F

/-- `default()` overwritten from the start by a chunk. -/
def padded (n : ℕ) (chunk : List UInt8) : Vector UInt8 n := .ofFn fun i => chunk.getD i 0

def fromByteVec (vec : List UInt8) : List F :=
  (chunks (dataByteCapacity F) vec).map fun byteChunk => fromDataBytes (padded _ byteChunk)

def fieldVecToByteVec (fieldVec : List F) : List UInt8 :=
  fieldVec.flatMap fun fieldElement => (toDataBytes fieldElement).toList

def convertByteVecToFieldElementsVec (byteVec : List UInt8) : List F := fromByteVec byteVec

def convertFieldElementsVecToByteVec (fieldElements : List F) (expectedLength : ℕ) : List UInt8 :=
  (fieldVecToByteVec fieldElements).take expectedLength

def reprBytes (x : F) : List UInt8 := (PrimeField.toRepr x).toList

def fieldVecToRawBytes (fieldVec : List F) : List UInt8 := fieldVec.flatMap reprBytes

theorem fieldVecToByteVec_append (xs ys : List F) :
    fieldVecToByteVec (xs ++ ys) = fieldVecToByteVec xs ++ fieldVecToByteVec ys :=
  List.flatMap_append

def rawBytesToFieldVec (rawBytes : List UInt8) : Fallible ε (List F) :=
  (chunks (writtenBytesWidth F) rawBytes).mapM fun byteChunk =>
    match PrimeField.fromRepr (padded _ byteChunk) with
    | some x => .ok x
    | none => panicked

structure FieldGeneratorIter (F : Type) [Field F] [DataField F] where
  inner : List UInt8
  buffer : Vector UInt8 (dataByteCapacity F)
  bufferPos : ℕ

namespace FieldGeneratorIter

def new (inner : List UInt8) : FieldGeneratorIter F := ⟨inner, .replicate _ 0, 0⟩

def fill (buffer : Vector UInt8 (dataByteCapacity F)) (bufferPos : ℕ) :
    List UInt8 → FieldGeneratorIter F
  | [] => ⟨[], buffer, bufferPos⟩
  | byte :: inner =>
    if h : bufferPos < dataByteCapacity F then
      fill (buffer.set bufferPos byte h) (bufferPos + 1) inner
    else ⟨byte :: inner, buffer, bufferPos⟩

def next (it : FieldGeneratorIter F) : Option F × FieldGeneratorIter F :=
  let it := fill it.buffer it.bufferPos it.inner
  if it.bufferPos = 0 then (none, it)
  else (some (fromDataBytes it.buffer), ⟨it.inner, .replicate _ 0, 0⟩)

/-- `collect`; every element takes at least one byte, so the bytes left bound the rounds. -/
def collect : ℕ → FieldGeneratorIter F → List F
  | 0, _ => []
  | rounds + 1, it =>
    match it.next with
    | (none, _) => []
    | (some x, it) => x :: collect rounds it

end FieldGeneratorIter

@[simp] theorem length_reprBytes (x : F) : (reprBytes x).length = writtenBytesWidth F :=
  (PrimeField.toRepr x).length_toList

theorem writtenBytesWidth_pos : 0 < writtenBytesWidth F := reprWidth_pos

theorem padded_toList {n : ℕ} (v : Vector UInt8 n) : padded n v.toList = v := by
  ext i hi
  simp [padded]

theorem padded_nil (n : ℕ) : padded n [] = .replicate n 0 := by
  ext i hi
  simp [padded]

theorem padded_toList_eq {n : ℕ} {l : List UInt8} (h : l.length ≤ n) :
    (padded n l).toList = l ++ .replicate (n - l.length) 0 := by
  refine List.ext_getElem ?_ fun i hi hi' => ?_
  · rw [Vector.length_toList, List.length_append, List.length_replicate]
    omega
  · by_cases hlt : i < l.length
    · simp [padded, hlt]
    · have hge : l.length ≤ i := by omega
      rw [List.getElem_append_right hge]
      simp [padded, hge]

theorem flatMap_padded_chunks {n : ℕ} (hn : 0 < n) (l : List UInt8) :
    (chunks n l).flatMap (fun c => (padded n c).toList) =
      l ++ .replicate (divCeil l.length n * n - l.length) 0 := by
  induction hlen : l.length using Nat.strong_induction_on generalizing l with
  | _ len ih =>
    by_cases hl : l = []
    · subst hl
      obtain rfl : 0 = len := hlen
      have hzero : divCeil 0 n = 0 := divCeil_zero hn
      rw [chunks_nil hn, hzero]
      simp
    · have hpos := List.length_pos_iff.mpr hl
      have hfirst := padded_toList_eq (show (l.take n).length ≤ n by simp)
      have hrest := ih (l.length - n) (by omega) (l.drop n) List.length_drop
      rw [chunks_cons hn hl, List.flatMap_cons, hfirst, hrest]
      rcases Nat.lt_or_ge n l.length with hlong | hshort
      · have hfull : n - (l.take n).length = 0 := by
          rw [List.length_take]
          omega
        have hcount : divCeil len n = divCeil (l.length - n) n + 1 := by
          rw [← divCeil_add _ hn]
          congr 1
          omega
        have hzeros : (divCeil (l.length - n) n + 1) * n - len =
            divCeil (l.length - n) n * n - (l.length - n) := by
          rw [Nat.add_mul, Nat.one_mul]
          omega
        rw [hfull, List.replicate_zero, List.append_nil, ← List.append_assoc,
          List.take_append_drop, hcount, hzeros]
      · have hzero : divCeil (l.length - n) n = 0 := by
          rw [Nat.sub_eq_zero_of_le hshort, divCeil_zero hn]
        rw [List.drop_eq_nil_of_le hshort, List.take_of_length_le hshort, hzero,
          divCeil_of_le (by omega) (by omega), hlen]
        simp

@[simp] theorem length_fromByteVec (vec : List UInt8) :
    (fromByteVec vec : List F).length = divCeil vec.length (dataByteCapacity F) := by
  simp [fromByteVec]

theorem fromByteVec_nil : (fromByteVec [] : List F) = [] := by
  rw [fromByteVec, chunks_nil capacity_pos, List.map_nil]

theorem fromByteVec_cons {vec : List UInt8} (h : vec ≠ []) : (fromByteVec vec : List F) =
    fromDataBytes (padded _ (vec.take (dataByteCapacity F))) ::
      fromByteVec (vec.drop (dataByteCapacity F)) := by
  rw [fromByteVec, chunks_cons capacity_pos h, List.map_cons, fromByteVec]

theorem fromByteVec_ne_nil {vec : List UInt8} (h : vec ≠ []) : (fromByteVec vec : List F) ≠ [] := by
  rw [fromByteVec_cons h]
  exact List.cons_ne_nil _ _

theorem fromByteVec_append {vec : List UInt8} (h : dataByteCapacity F ∣ vec.length)
    (rest : List UInt8) :
    (fromByteVec (vec ++ rest) : List F) = fromByteVec vec ++ fromByteVec rest := by
  rw [fromByteVec, chunks_append capacity_pos h, List.map_append, fromByteVec, fromByteVec]

theorem length_convert_convert {x : F} {n : ℕ} (hpos : 0 < n) (hle : n ≤ dataByteCapacity F) :
    (convertByteVecToFieldElementsVec (convertFieldElementsVecToByteVec [x] n) : List F).length =
      1 := by
  have hlen : (convertFieldElementsVecToByteVec [x] n).length = n := by
    simp [convertFieldElementsVecToByteVec, fieldVecToByteVec, hle]
  rw [convertByteVecToFieldElementsVec, length_fromByteVec, hlen, divCeil_of_le hpos hle]

theorem exists_head_fromByteVec {vec : List UInt8} (h : vec ≠ [])
    (hle : vec.length ≤ dataByteCapacity F) (rest : List UInt8) :
    ∃ x, (fromByteVec (vec ++ rest) : List F).head? = some x ∧
      convertFieldElementsVecToByteVec [x] vec.length = vec := by
  have hne : vec ++ rest ≠ [] := List.append_ne_nil_of_left_ne_nil h rest
  refine ⟨_, by rw [fromByteVec_cons hne, List.head?_cons], ?_⟩
  rw [convertFieldElementsVecToByteVec, fieldVecToByteVec, List.flatMap_singleton,
    toDataBytes_fromDataBytes]
  refine List.ext_getElem ?_ fun i hi hi' => ?_
  · rw [List.length_take, Vector.length_toList, Nat.min_eq_left hle]
  · simp [padded, List.getElem?_append_left hi', hi']

theorem getD_fromByteVec (vec : List UInt8) (i : ℕ) :
    (fromByteVec vec : List F).getD i 0 =
      fromDataBytes (padded _ (row (dataByteCapacity F) vec i)) := by
  rcases Nat.lt_or_ge i (divCeil vec.length (dataByteCapacity F)) with hi | hi
  · rw [List.getD_eq_getElem?_getD, fromByteVec, List.getElem?_map, getElem?_chunks hi]
    rfl
  · have hle := (divCeil_le_iff capacity_pos).mp hi
    have hrow : row (dataByteCapacity F) vec i = [] := by
      apply List.eq_nil_of_length_eq_zero
      rw [length_row]
      omega
    rw [List.getD_eq_default _ _ (by rw [length_fromByteVec]; exact hi), hrow, padded_nil,
      fromDataBytes_zero]

theorem fromByteVec_append_zeros (vec : List UInt8) (k : ℕ) :
    (fromByteVec (vec ++ .replicate k 0) : List F) = fromByteVec vec ++
      .replicate (divCeil (vec.length + k) (dataByteCapacity F) -
        divCeil vec.length (dataByteCapacity F)) 0 := by
  have hmono : divCeil vec.length (dataByteCapacity F) ≤
      divCeil (vec.length + k) (dataByteCapacity F) :=
    divCeil_mono capacity_pos (Nat.le_add_right _ k)
  apply ext_getD 0
  · simp [hmono]
  · intro i
    rw [getD_append_zeros, getD_fromByteVec, getD_fromByteVec]
    congr 1
    ext j hj
    simp only [padded, Vector.getElem_ofFn, getD_row hj, getD_append_zeros]

theorem fieldVecToByteVec_eq (vec : List UInt8) :
    fieldVecToByteVec (fromByteVec vec : List F) = vec ++
      .replicate (divCeil vec.length (dataByteCapacity F) * dataByteCapacity F - vec.length) 0 := by
  rw [← flatMap_padded_chunks capacity_pos]
  simp only [fieldVecToByteVec, fromByteVec, List.flatMap_def, List.map_map, Function.comp_def,
    toDataBytes_fromDataBytes]

theorem fieldVecToByteVec_fromByteVec (vec : List UInt8) (i : ℕ) :
    (fieldVecToByteVec (fromByteVec vec : List F)).getD i 0 = vec.getD i 0 := by
  rw [fieldVecToByteVec_eq, getD_append_zeros]

theorem fromByteVec_injective {vec vec' : List UInt8} (hlen : vec.length = vec'.length)
    (h : (fromByteVec vec : List F) = fromByteVec vec') : vec = vec' := by
  apply ext_getD 0 hlen
  intro i
  have hbyte := fieldVecToByteVec_fromByteVec (F := F) vec i
  rw [h, fieldVecToByteVec_fromByteVec] at hbyte
  exact hbyte.symm

theorem rawBytesToFieldVec_fieldVecToRawBytes (xs : List F) :
    (rawBytesToFieldVec (fieldVecToRawBytes xs) : Fallible ε (List F)) = .ok xs := by
  unfold rawBytesToFieldVec fieldVecToRawBytes
  rw [chunks_flatMap writtenBytesWidth_pos length_reprBytes, List.mapM_map]
  have hread : ∀ x ∈ xs, (match PrimeField.fromRepr (padded _ (reprBytes x)) with
      | some x => .ok x
      | none => panicked : Fallible ε F) = .ok (id x) := by
    intro x _
    rw [reprBytes, padded_toList, PrimeField.fromRepr_toRepr]
    rfl
  have hall := mapM_of_forall hread
  rw [List.map_id] at hall
  exact hall

theorem length_le_of_injective {m n : ℕ} {f : Vector UInt8 m → Vector UInt8 n}
    (hf : Function.Injective f) : m ≤ n := by
  have hof : Function.Injective fun v : Fin m → Fin 256 =>
      Vector.ofFn fun i => UInt8.ofFin (v i) := by
    intro v v' h
    funext i
    have hbyte := congrArg (fun w => w[i]) h
    simp only [Fin.getElem_fin, Vector.getElem_ofFn] at hbyte
    exact congrArg UInt8.toFin hbyte
  have hto : Function.Injective fun (w : Vector UInt8 n) (i : Fin n) => (w.get i).toFin := by
    intro w w' h
    ext i hi
    exact congrArg UInt8.toNat (UInt8.toFin_inj.mp (congrFun h ⟨i, hi⟩))
  have hcard := Fintype.card_le_of_injective _ (hto.comp (hf.comp hof))
  simp only [Fintype.card_fun, Fintype.card_fin] at hcard
  exact (Nat.pow_le_pow_iff_right (by decide)).mp hcard

theorem capacity_le_width : dataByteCapacity F ≤ writtenBytesWidth F := by
  apply length_le_of_injective (f := fun v => PrimeField.toRepr (fromDataBytes v : F))
  intro v v' h
  have hbytes := congrArg toDataBytes (toRepr_injective h)
  rwa [toDataBytes_fromDataBytes, toDataBytes_fromDataBytes] at hbytes

namespace FieldGeneratorIter

theorem padded_set {n : ℕ} {seen : List UInt8} (h : seen.length < n) (byte : UInt8) :
    (padded n seen).set seen.length byte h = padded n (seen ++ [byte]) := by
  ext i hi
  rw [Vector.getElem_set]
  simp only [padded, Vector.getElem_ofFn]
  by_cases heq : seen.length = i
  · subst heq
    simp
  · rw [if_neg heq]
    rcases Nat.lt_or_ge i seen.length with hlt | hge
    · rw [List.getD_append _ _ _ _ hlt]
    · rw [List.getD_eq_default _ _ hge, List.getD_eq_default]
      rw [List.length_append, List.length_singleton]
      omega

theorem fill_eq (inner seen : List UInt8) (hseen : seen.length ≤ dataByteCapacity F) :
    (fill (padded _ seen) seen.length inner : FieldGeneratorIter F) =
      ⟨inner.drop (dataByteCapacity F - seen.length),
        padded _ (seen ++ inner.take (dataByteCapacity F - seen.length)),
        min (dataByteCapacity F) (seen.length + inner.length)⟩ := by
  induction inner generalizing seen with
  | nil => simp [fill, hseen]
  | cons byte inner ih =>
    unfold fill
    by_cases hlt : seen.length < dataByteCapacity F
    · rw [dif_pos hlt]
      obtain ⟨k, hk⟩ := Nat.exists_eq_add_of_lt hlt
      have hroom : dataByteCapacity F - seen.length = k + 1 := by omega
      have hrest : dataByteCapacity F - (seen ++ [byte]).length = k := by
        rw [List.length_append, List.length_singleton]
        omega
      have hlen : (seen ++ [byte]).length = seen.length + 1 := by simp
      have hstep := ih (seen ++ [byte]) (by omega)
      rw [hrest, hlen] at hstep
      rw [padded_set hlt, hstep, hroom, List.drop_succ_cons, List.take_succ_cons,
        List.append_assoc, List.singleton_append, List.length_cons]
      congr 2
      omega
    · rw [dif_neg hlt]
      have hroom : dataByteCapacity F - seen.length = 0 := by omega
      have hfull : seen.length = dataByteCapacity F := by omega
      rw [hroom, List.drop_zero, List.take_zero, List.append_nil, hfull,
        Nat.min_eq_left (Nat.le_add_right _ _)]

theorem next_new_nil : (new [] : FieldGeneratorIter F).next = (none, new []) := rfl

theorem next_new {bytes : List UInt8} (h : bytes ≠ []) :
    (new bytes : FieldGeneratorIter F).next =
      (some (fromDataBytes (padded _ (bytes.take (dataByteCapacity F)))),
        new (bytes.drop (dataByteCapacity F))) := by
  have hcap : 0 < dataByteCapacity F := capacity_pos
  have hpos := List.length_pos_iff.mpr h
  have hfill := fill_eq (F := F) bytes [] (Nat.zero_le _)
  rw [padded_nil, List.length_nil, Nat.sub_zero, List.nil_append, Nat.zero_add] at hfill
  have hne : ¬min (dataByteCapacity F) bytes.length = 0 := by omega
  unfold next new
  rw [hfill, if_neg hne]

/-- The iterator yields the elements that the slice conversion makes of the chunks. -/
theorem collect_new (rounds : ℕ) (bytes : List UInt8) (h : bytes.length < rounds) :
    collect rounds (new bytes : FieldGeneratorIter F) = fromByteVec bytes := by
  have hcap : 0 < dataByteCapacity F := capacity_pos
  induction rounds generalizing bytes with
  | zero => omega
  | succ rounds ih =>
    unfold collect
    by_cases hempty : bytes = []
    · rw [hempty, next_new_nil, fromByteVec_nil]
    · have hpos := List.length_pos_iff.mpr hempty
      rw [next_new hempty, fromByteVec_cons hempty]
      exact congrArg _ (ih (bytes.drop (dataByteCapacity F)) (by rw [List.length_drop]; omega))

end FieldGeneratorIter

/-! The field of the storage server: the data bytes are the low bytes of the internal, Montgomery
form of an element, and its byte form is little endian. -/

def leBytes : ℕ → ℕ → List UInt8
  | 0, _ => []
  | n + 1, v => UInt8.ofNat v :: leBytes n (v / 256)

def fromLeBytes : List UInt8 → ℕ
  | [] => 0
  | byte :: bytes => byte.toNat + 256 * fromLeBytes bytes

@[simp] theorem length_leBytes (n v : ℕ) : (leBytes n v).length = n := by
  induction n generalizing v with
  | zero => rfl
  | succ n ih => simp [leBytes, ih]

theorem fromLeBytes_leBytes (n v : ℕ) : fromLeBytes (leBytes n v) = v % 256 ^ n := by
  induction n generalizing v with
  | zero => simp [leBytes, fromLeBytes, Nat.mod_one]
  | succ n ih =>
    have hbyte : (UInt8.ofNat v).toNat = v % 256 := by simp
    rw [leBytes, fromLeBytes, ih, hbyte, Nat.pow_succ', Nat.mod_mul]

theorem leBytes_fromLeBytes (bytes : List UInt8) :
    leBytes bytes.length (fromLeBytes bytes) = bytes := by
  induction bytes with
  | nil => rfl
  | cons byte bytes ih =>
    have hlt := byte.toNat_lt
    have hhead : UInt8.ofNat (byte.toNat + 256 * fromLeBytes bytes) = byte := by
      apply UInt8.toNat_inj.mp
      rw [UInt8.toNat_ofNat']
      omega
    have htail : (byte.toNat + 256 * fromLeBytes bytes) / 256 = fromLeBytes bytes := by omega
    rw [List.length_cons, leBytes, fromLeBytes, hhead, htail, ih]

theorem fromLeBytes_lt (bytes : List UInt8) : fromLeBytes bytes < 256 ^ bytes.length := by
  induction bytes with
  | nil => simp [fromLeBytes]
  | cons byte bytes ih =>
    have hlt := byte.toNat_lt
    rw [fromLeBytes, List.length_cons, Nat.pow_succ']
    omega

theorem fromLeBytes_replicate_zero (n : ℕ) : fromLeBytes (.replicate n 0) = 0 := by
  induction n with
  | zero => rfl
  | succ n ih => simp [List.replicate_succ, fromLeBytes, ih]

abbrev writeableFt63Modulus : ℕ := 5102708120182849537

abbrev WriteableFt63 := ZMod writeableFt63Modulus

theorem prime_dvd_order {q : ℕ} (hq : q.Prime) (hd : q ∣ writeableFt63Modulus - 1) :
    q = 2 ∨ q = 3 ∨ q = 31 ∨ q = 8317 := by
  have hfac : writeableFt63Modulus - 1 = 2 ^ 41 * 3 ^ 2 * 31 * 8317 := by norm_num
  rw [hfac, hq.dvd_mul, hq.dvd_mul, hq.dvd_mul] at hd
  rcases hd with ((hd | hd) | hd) | hd
  · exact .inl ((Nat.prime_dvd_prime_iff_eq hq (by norm_num)).mp (hq.dvd_of_dvd_pow hd))
  · exact .inr (.inl ((Nat.prime_dvd_prime_iff_eq hq (by norm_num)).mp (hq.dvd_of_dvd_pow hd)))
  · exact .inr (.inr (.inl ((Nat.prime_dvd_prime_iff_eq hq (by norm_num)).mp hd)))
  · exact .inr (.inr (.inr ((Nat.prime_dvd_prime_iff_eq hq (by norm_num)).mp hd)))

/-- Ten generates the multiplicative group, so the modulus is prime. -/
theorem prime_writeableFt63Modulus : Nat.Prime 5102708120182849537 := by
  refine lucas_primality _ 10 ?_ fun q hq hd => ?_
  · simp only [Nat.reduceSub]
    reduce_mod_char
  · rcases prime_dvd_order hq hd with rfl | rfl | rfl | rfl
    all_goals
      simp only [Nat.reduceSub, Nat.reduceDiv]
      reduce_mod_char
      decide

instance fact_prime_writeableFt63Modulus : Fact (Nat.Prime writeableFt63Modulus) :=
  ⟨prime_writeableFt63Modulus⟩

instance : PrimeField WriteableFt63 where
  reprWidth := 8
  toRepr x := ⟨(leBytes 8 x.val).toArray, by simp⟩
  fromRepr v :=
    if fromLeBytes v.toList < writeableFt63Modulus then some (fromLeBytes v.toList : ℕ) else none
  fromRepr_toRepr x := by
    have hlt := ZMod.val_lt x
    have hval : fromLeBytes (leBytes 8 x.val) = x.val := by
      rw [fromLeBytes_leBytes, Nat.mod_eq_of_lt (hlt.trans (by norm_num))]
    simp only [Vector.toList_mk, hval, if_pos hlt, ZMod.natCast_zmod_val]

/-- An element `x` is kept as `x * 2 ^ 64`. -/
def montgomeryRadix : WriteableFt63 := 2 ^ 64

theorem montgomeryRadix_ne_zero : montgomeryRadix ≠ 0 := by
  apply pow_ne_zero
  decide

instance : DataField WriteableFt63 where
  dataByteCapacity := 7
  fromDataBytes buf := (fromLeBytes buf.toList : ℕ) * montgomeryRadix⁻¹
  toDataBytes x := ⟨(leBytes 7 (x * montgomeryRadix).val).toArray, by simp⟩
  capacity_pos := by decide
  toDataBytes_fromDataBytes v := by
    have hlt := fromLeBytes_lt v.toList
    rw [Vector.length_toList] at hlt
    have hval : (fromLeBytes v.toList * montgomeryRadix⁻¹ * montgomeryRadix : WriteableFt63).val =
        fromLeBytes v.toList := by
      rw [inv_mul_cancel_right₀ montgomeryRadix_ne_zero, ZMod.val_natCast,
        Nat.mod_eq_of_lt (hlt.trans (by norm_num))]
    have hbytes := leBytes_fromLeBytes v.toList
    rw [Vector.length_toList] at hbytes
    apply Vector.toList_inj.mp
    simp only [Vector.toList_mk, hval, hbytes]
  fromDataBytes_zero := by
    rw [Vector.toList_replicate, fromLeBytes_replicate_zero, Nat.cast_zero, zero_mul]

instance : DataField (ZMod 257) where
  dataByteCapacity := 1
  fromDataBytes buf := (buf[0].toNat : ℕ)
  toDataBytes x := #v[UInt8.ofNat x.val]
  capacity_pos := by decide
  toDataBytes_fromDataBytes v := by
    have hlt := v[0].toNat_lt
    ext i hi
    obtain rfl : i = 0 := by omega
    have hmod : v[0].toNat % 257 = v[0].toNat := Nat.mod_eq_of_lt (by omega)
    simp only [Vector.getElem_mk, List.getElem_toArray, List.getElem_cons_zero, ZMod.val_natCast,
      hmod, UInt8.ofNat_toNat]
  fromDataBytes_zero := by simp

end FileFields
