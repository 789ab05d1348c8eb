import ProofOfStorage.FoundationReedSolomon
import ProofOfStorage.OnlinePolynomials

/-! # The rows of a file are Reed–Solomon codewords

The transform of a field gives the values of a polynomial at roots of unity, so an encoded row is
determined by as many of its entries as the row had before.
-/
namespace OnlineCodewords

open FoundationFaults FoundationSlices FoundationInnerProducts FoundationPolynomials
open FoundationReedSolomon CommitmentTypes CommitmentMerkle CommitmentProof CommitmentCompleteness
open OnlineColumns OnlinePolynomials

variable {D : Digest} {F Err ε : Type} [Field F]

/-- The transform of a polynomial is the list of its values at different points. -/
def EvaluatesAt (fft : FieldFFT F) (points : ℕ → List F) : Prop :=
  ∀ {len pc}, fft.precompFft len = .ok pc → len = 2 ^ fft.getLogLen pc → (points len).Nodup ∧
    ∀ v : List F, v.length = len → fft.fftIoPc pc v = .ok ((points len).map (value v))

structure EncodesAt (encoding : LcEncoding F Err) (nEnc : ℕ) (points : List F) : Prop where
  nodup : points.Nodup
  length_eq : points.length = nEnc
  encode : ∀ v : List F, v.length = nEnc → encoding.encode v = .ok (points.map (value v))

theorem encodesAt_of_newFromDims {fft : FieldFFT F} {points : ℕ → List F}
    (hfft : EvaluatesAt fft points) {nPre nEnc : ℕ} {encoding : LcEncoding F fft.Err}
    (h : (newFromDims fft nPre nEnc : Fallible ε _) = .ok encoding) :
    EncodesAt encoding nEnc (points nEnc) := by
  obtain ⟨-, -, pc, hpc, hlen, rfl⟩ := newFromDims_eq_ok h
  obtain ⟨hnodup, hvalues⟩ := hfft hpc hlen
  refine ⟨hnodup, ?_, hvalues⟩
  have hzeros := fft.length_fftIoPc (hvalues (.replicate nEnc 0) List.length_replicate)
  rwa [List.length_map, List.length_replicate] at hzeros

theorem value_append_zeros (l : List F) (k : ℕ) (x : F) :
    value (l ++ .replicate k 0) x = value l x := by
  rw [value_eq_sum (l := l) (n := l.length + k) (by omega), value, List.length_append,
    List.length_replicate]
  exact Finset.sum_congr rfl fun i _ => by rw [getD_append_zeros]

/-- The columns at which two rows have the same entries once they are encoded. -/
def agreeing [DecidableEq F] (points l m : List F) : Finset ℕ :=
  (Finset.range points.length).filter fun c =>
    value l (points.getD c 0) = value m (points.getD c 0)

/-- Two different rows agree at fewer columns than they have entries. -/
theorem card_agreeing_lt [DecidableEq F] {points l m : List F} {k : ℕ} (hnodup : points.Nodup)
    (hl : l.length = k) (hm : m.length = k) (hne : l ≠ m) : (agreeing points l m).card < k := by
  by_contra hmany
  have hinside : ∀ c ∈ (agreeing points l m).toList, c < points.length ∧
      value l (points.getD c 0) = value m (points.getD c 0) := by
    intro c hc
    obtain ⟨hlt, hvalue⟩ := Finset.mem_filter.mp (Finset.mem_toList.mp hc)
    exact ⟨Finset.mem_range.mp hlt, hvalue⟩
  apply hne
  have hnodup' : ((agreeing points l m).toList.map fun c => points.getD c 0).Nodup := by
    refine List.Nodup.map_on ?_ (Finset.nodup_toList _)
    intro c hc d hd heq
    have hc := (hinside c hc).1
    have hd := (hinside d hd).1
    rw [List.getD_eq_getElem _ _ hc, List.getD_eq_getElem _ _ hd] at heq
    exact (hnodup.getElem_inj_iff).mp heq
  refine eq_of_values_eq hnodup' ?_ hl hm ?_
  · rw [List.length_map, Finset.length_toList]
    exact Nat.le_of_not_lt hmany
  · intro x hx
    obtain ⟨c, hc, rfl⟩ := List.mem_map.mp hx
    exact (hinside c hc).2

section Encodings

variable {encoding : LcEncoding F Err} {nPre nEnc : ℕ} {points : List F}

theorem EncodesAt.linearOnRows (h : EncodesAt encoding nEnc points) (hle : nPre ≤ nEnc) :
    LinearOnRows encoding nPre nEnc := by
  refine ⟨LinearMap.pi fun j => ∑ i : Fin nPre, points.getD j 0 ^ i.val • LinearMap.proj i, ?_⟩
  intro x
  have hlen : (List.ofFn x ++ List.replicate (nEnc - nPre) 0).length = nEnc := by
    rw [List.length_append, List.length_ofFn, List.length_replicate, Nat.add_sub_cancel' hle]
  rw [h.encode _ hlen]
  refine congrArg Except.ok (List.ext_getElem ?_ ?_)
  · rw [List.length_map, h.length_eq, List.length_ofFn]
  intro c hc hc'
  rw [List.length_map] at hc
  rw [List.getElem_map, value_append_zeros, value, List.length_ofFn, List.getElem_ofFn,
    LinearMap.pi_apply, LinearMap.sum_apply, Finset.sum_range]
  refine Finset.sum_congr rfl fun i _ => ?_
  rw [LinearMap.smul_apply, LinearMap.proj_apply, smul_eq_mul, mul_comm,
    List.getD_eq_getElem _ _ hc, List.getD_eq_getElem _ _ (by rw [List.length_ofFn]; exact i.2),
    List.getElem_ofFn]

theorem EncodesAt.entry (h : EncodesAt encoding nEnc points) {l w : List F} {k c : ℕ}
    (hlen : l.length + k = nEnc) (hrun : encoding.encode (l ++ .replicate k 0) = .ok w)
    (hc : c < nEnc) : w.getD c 0 = value l (points.getD c 0) := by
  rw [h.encode _ (by rw [List.length_append, List.length_replicate, hlen])] at hrun
  have hcpoints : c < points.length := h.length_eq ▸ hc
  rw [← Except.ok.inj hrun, List.getD_eq_getElem _ _ (by rwa [List.length_map]),
    List.getElem_map, value_append_zeros, List.getD_eq_getElem _ _ hcpoints]

end Encodings

def signs : List (ZMod 257) := [1, -1]

theorem butterfly_evaluatesAt : EvaluatesAt butterfly fun _ => signs := by
  intro len pc _ hlen
  obtain rfl : len = 2 := hlen
  refine ⟨by decide, fun v hv => ?_⟩
  obtain ⟨a, b, rfl⟩ := List.length_eq_two.mp hv
  show Except.ok [a + b, a - b] = Except.ok [value [a, b] 1, value [a, b] (-1)]
  simp only [value_cons, value_nil]
  ring_nf

end OnlineCodewords
