import Mathlib.Data.Nat.Digits.Lemmas
import Mathlib.Data.List.GetD

/-! # Numbers written in the digits of an alphabet -/
namespace FoundationNumerals

variable {α : Type} [Inhabited α]

/-- The most significant digit comes first, with leading zeros up to `width` digits. -/
def numeral (alphabet : List α) (width n : ℕ) : List α :=
  (Nat.digitsAppend alphabet.length width n).reverse.map fun d => alphabet.getD d default

def value [BEq α] (alphabet text : List α) : ℕ :=
  Nat.ofDigits alphabet.length (text.reverse.map fun c => alphabet.idxOf c)

variable {alphabet rest : List α} {width m n : ℕ}

theorem length_numeral : (numeral alphabet width n).length =
    max (Nat.digits alphabet.length n).length width := by
  simp only [numeral, Nat.digitsAppend, List.length_map, List.length_reverse, List.length_append,
    List.length_replicate]
  omega

theorem length_numeral_of_lt (h : 1 < alphabet.length) (hn : n < alphabet.length ^ width) :
    (numeral alphabet width n).length = width := by
  rw [numeral, List.length_map, List.length_reverse, Nat.length_digitsAppend h width hn]

theorem length_numeral_le (h : m ≤ n) :
    (numeral alphabet width m).length ≤ (numeral alphabet width n).length := by
  rw [length_numeral, length_numeral]
  exact max_le_max_right _ (Nat.le_length_digits_le alphabet.length m n h)

theorem mem_of_mem_numeral (h : 1 < alphabet.length) {c : α}
    (hc : c ∈ numeral alphabet width n) : c ∈ alphabet := by
  obtain ⟨d, hd, rfl⟩ := List.mem_map.mp hc
  have hlt := Nat.lt_of_mem_digitsAppend h width d (List.mem_reverse.mp hd)
  rw [List.getD_eq_getElem _ _ hlt]
  exact List.getElem_mem hlt

theorem value_numeral [BEq α] [LawfulBEq α] (h : 1 < alphabet.length) (hnodup : alphabet.Nodup) :
    value alphabet (numeral alphabet width n) = n := by
  have hdigits : (Nat.digitsAppend alphabet.length width n).map (fun d =>
      alphabet.idxOf (alphabet.getD d default)) = Nat.digitsAppend alphabet.length width n := by
    conv_rhs => rw [← List.map_id (Nat.digitsAppend alphabet.length width n)]
    apply List.map_congr_left
    intro d hd
    have hlt := Nat.lt_of_mem_digitsAppend h width d hd
    rw [List.getD_eq_getElem _ _ hlt]
    exact hnodup.idxOf_getElem d hlt
  rw [value, numeral, ← List.map_reverse, List.reverse_reverse, List.map_map]
  change Nat.ofDigits _ ((Nat.digitsAppend alphabet.length width n).map _) = n
  unfold Function.comp
  rw [hdigits, Nat.digitsAppend, Nat.ofDigits_append_replicate_zero, Nat.ofDigits_digits]

section Reading

variable [DecidableEq α]

theorem takeWhile_numeral (h : 1 < alphabet.length) (hrest : ∀ c ∈ rest.head?, c ∉ alphabet) :
    (numeral alphabet width n ++ rest).takeWhile (· ∈ alphabet) = numeral alphabet width n := by
  have hall : ∀ c ∈ numeral alphabet width n, decide (c ∈ alphabet) = true :=
    fun c hc => decide_eq_true (mem_of_mem_numeral h hc)
  rw [List.takeWhile_append_of_pos hall]
  cases rest with
  | nil => simp
  | cons c rest => simp [hrest c rfl]

theorem dropWhile_numeral (h : 1 < alphabet.length) (hrest : ∀ c ∈ rest.head?, c ∉ alphabet) :
    (numeral alphabet width n ++ rest).dropWhile (· ∈ alphabet) = rest := by
  have hall : ∀ c ∈ numeral alphabet width n, decide (c ∈ alphabet) = true :=
    fun c hc => decide_eq_true (mem_of_mem_numeral h hc)
  rw [List.dropWhile_append_of_pos hall]
  cases rest with
  | nil => rfl
  | cons c rest => simp [hrest c rfl]

end Reading

end FoundationNumerals
