import ProofOfStorage.FoundationSlices

/-! # Buffered readers

The inner reader delivers its data in pieces, one for each request. A read of the buffered
reader takes from the piece it holds, and asks for the next one only when that is used up.
-/
namespace FoundationBufReaders

open FoundationSlices

variable {α : Type}

structure BufReader (α : Type) where
  buf : List α
  inner : List (List α)

namespace BufReader

def fillBuf : BufReader α → BufReader α
  | ⟨[], piece :: inner⟩ => ⟨piece, inner⟩
  | r => r

/-- A read into a slice of `n` items, with what it has read and the reader after it. Requests
of at least a whole buffer, which would go to the inner reader directly, are left out. -/
def read (n : ℕ) (r : BufReader α) : List α × BufReader α :=
  (r.fillBuf.buf.take n, { r.fillBuf with buf := r.fillBuf.buf.drop n })

def left (r : BufReader α) : ℕ := r.buf.length + r.inner.flatten.length

theorem left_fillBuf (r : BufReader α) : r.fillBuf.left = r.left := by
  unfold fillBuf
  split
  · simp [left]
  · rfl

theorem left_read (n : ℕ) (r : BufReader α) : (r.read n).1.length + (r.read n).2.left = r.left := by
  have htake := congrArg List.length (List.take_append_drop n r.fillBuf.buf)
  rw [List.length_append] at htake
  rw [← left_fillBuf r]
  simp only [read, left]
  omega

theorem left_lt {n : ℕ} {r : BufReader α} (h : (r.read n).1 ≠ []) : (r.read n).2.left < r.left := by
  have hpos := List.length_pos_iff.mpr h
  have hleft := left_read n r
  omega

/-- The results of reads until one is empty. -/
def reads (n : ℕ) (r : BufReader α) : List (List α) :=
  if _h : (r.read n).1 = [] then [] else (r.read n).1 :: reads n (r.read n).2
termination_by r.left
decreasing_by exact left_lt _h

theorem reads_of_nil {n : ℕ} {r : BufReader α} (h : (r.read n).1 = []) : r.reads n = [] := by
  rw [reads, dif_pos h]

theorem reads_of_ne_nil {n : ℕ} {r : BufReader α} (h : (r.read n).1 ≠ []) :
    r.reads n = (r.read n).1 :: (r.read n).2.reads n := by
  rw [reads, dif_neg h]

theorem fillBuf_of_ne_nil {r : BufReader α} (h : r.buf ≠ []) : r.fillBuf = r := by
  unfold fillBuf
  split
  · exact absurd rfl h
  · rfl

theorem read_of_ne_nil {r : BufReader α} (h : r.buf ≠ []) (n : ℕ) :
    r.read n = (r.buf.take n, ⟨r.buf.drop n, r.inner⟩) := by
  rw [read, fillBuf_of_ne_nil h]

theorem reads_fill {piece : List α} (h : piece ≠ []) (n : ℕ) (inner : List (List α)) :
    reads n ⟨[], piece :: inner⟩ = reads n ⟨piece, inner⟩ := by
  have hread : read n ⟨[], piece :: inner⟩ = read n ⟨piece, inner⟩ := by
    rw [read_of_ne_nil (r := ⟨piece, inner⟩) h]
    rfl
  rw [reads, hread, ← reads]

/-- Piece by piece, the reads are the chunks of the pieces: none goes over the end of one. -/
theorem reads_eq {n : ℕ} (hn : 0 < n) {r : BufReader α} (h : ∀ piece ∈ r.inner, piece ≠ []) :
    r.reads n = chunks n r.buf ++ r.inner.flatMap (chunks n) := by
  induction hleft : r.left using Nat.strong_induction_on generalizing r with
  | h k ih =>
    have hstep : ∀ r : BufReader α, (∀ piece ∈ r.inner, piece ≠ []) → r.left = k → r.buf ≠ [] →
        r.reads n = chunks n r.buf ++ r.inner.flatMap (chunks n) := by
      intro r hpieces hk hbuf
      have hread := read_of_ne_nil hbuf n
      have hne : (r.read n).1 ≠ [] := by
        have hpos := List.length_pos_iff.mpr hbuf
        rw [hread, ← List.length_pos_iff, List.length_take]
        omega
      have hrest := ih _ (hk ▸ left_lt hne) (by rw [hread]; exact hpieces) rfl
      rw [reads_of_ne_nil hne, hrest, hread, chunks_cons hn hbuf, List.cons_append]
    rcases r with ⟨_ | ⟨x, buf⟩, inner⟩
    · rcases inner with _ | ⟨piece, inner⟩
      · have hread : (read n (⟨[], []⟩ : BufReader α)).1 = [] := List.take_nil
        rw [reads_of_nil hread, chunks_nil hn]
        rfl
      · have hpiece := h piece List.mem_cons_self
        rw [reads_fill hpiece, hstep ⟨piece, inner⟩ (fun p hp => h p (List.mem_cons_of_mem _ hp))
          (by simpa [left] using hleft) hpiece, chunks_nil hn, List.flatMap_cons]
        rfl
    · exact hstep _ h hleft (List.cons_ne_nil x buf)

end BufReader

end FoundationBufReaders
