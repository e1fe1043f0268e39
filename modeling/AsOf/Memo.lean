import AsOf.Count
import AsOf.Entry

/-!
# Memos

A memo keeps the answers of earlier lookups by the instant asked about, and
starts over when it is full.  It remembers also that nothing is in effect.
-/

namespace AsOf

/-- The answers of earlier lookups, the latest first. -/
structure Memo (V : Type) where
  answers : List (Instant × Option (Entry V)) := []

namespace Memo

variable {V : Type}

def empty : Memo V := {}

def size (memo : Memo V) : Nat :=
  memo.answers.length

/-- The answer kept for an instant, none if it is not known. -/
def find? (memo : Memo V) (key : Instant) : Option (Option (Entry V)) :=
  memo.answers.lookup key

/-- Keep an answer, after dropping all others if the memo is full. -/
def remember (memo : Memo V) (capacity : Positive) (key : Instant) (found : Option (Entry V)) :
    Memo V :=
  if capacity.val ≤ memo.size then { answers := [(key, found)] }
  else { answers := (key, found) :: memo.answers }

@[simp] theorem find?_empty (key : Instant) : (empty : Memo V).find? key = none := rfl

theorem find?_remember_self (memo : Memo V) (capacity : Positive) (key : Instant)
    (found : Option (Entry V)) :
    (memo.remember capacity key found).find? key = some found := by
  unfold remember find?
  split <;> simp

theorem find?_remember_of_ne (memo : Memo V) (capacity : Positive) {key other : Instant}
    (found : Option (Entry V)) (h : other ≠ key) :
    (memo.remember capacity key found).find? other =
      if capacity.val ≤ memo.size then none else memo.find? other := by
  have hbeq : (other == key) = false := beq_false_of_ne h
  unfold remember find?
  split <;> simp [List.lookup_cons, hbeq]

theorem size_remember_le (memo : Memo V) (capacity : Positive) (key : Instant)
    (found : Option (Entry V)) :
    (memo.remember capacity key found).size ≤ capacity.val := by
  have hpos := capacity.pos
  unfold remember
  split
  · exact hpos
  · rename_i h
    exact Nat.not_le.mp h

end Memo
end AsOf
