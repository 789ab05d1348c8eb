import ProofOfStorage.FoundationFaults

/-! # Iterators by what they yield -/
namespace FoundationIterators

open FoundationFaults

class ItemIterator (I : Type) (α : outParam Type) where
  next : I → Option α × I

open ItemIterator

variable {I α : Type} [ItemIterator I α] {it : I} {x : α} {xs : List α}

def answer (it : I) : ℕ → Option α
  | 0 => (next it).1
  | k + 1 => answer (next it).2 k

/-- The iterator yields `xs` and then nothing, however often it is asked. -/
def Yields (it : I) (xs : List α) : Prop := ∀ k, answer it k = xs[k]?

theorem yields_iff : Yields it xs ↔ (next it).1 = xs.head? ∧ Yields (next it).2 xs.tail := by
  constructor
  · intro h
    refine ⟨(h 0).trans List.head?_eq_getElem?.symm, fun k => ?_⟩
    rw [List.getElem?_tail]
    exact h (k + 1)
  · rintro ⟨hhead, htail⟩ (_ | k)
    · exact hhead.trans List.head?_eq_getElem?
    · rw [← List.getElem?_tail]
      exact htail k

theorem Yields.nil (h : Yields it ([] : List α)) :
    (next it).1 = none ∧ Yields (next it).2 ([] : List α) := yields_iff.mp h

theorem Yields.cons (h : Yields it (x :: xs)) :
    (next it).1 = some x ∧ Yields (next it).2 xs := yields_iff.mp h

theorem yields_nil_of_fixed (h : next it = (none, it)) : Yields it ([] : List α) := by
  intro k
  induction k with
  | zero => exact congrArg Prod.fst h
  | succ k ih =>
    rw [answer, h]
    exact ih

end FoundationIterators
