/-!
# Sets of code points

A set of code points is written as the list of its closed ranges.  The ranges
ascend and neither overlap nor meet, so that a search may stop at the first range
beyond the code point it looks for; the main statement says that nothing is
missed by that.
-/

namespace AsOf
namespace Text

/-- Closed ranges of code points. -/
abbrev CodeRanges := List (Nat × Nat)

namespace CodeRanges

/-- Whether the ranges ascend and lie apart. -/
def ascending : CodeRanges -> Bool
  | [] => true
  | (first, last) :: rest =>
      decide (first ≤ last) && rest.head?.all (fun next => last + 1 < next.1) && ascending rest

def count (ranges : CodeRanges) : Nat :=
  ranges.foldl (fun total range => total + (range.2 + 1 - range.1)) 0

/-- Whether a code point lies in one of the ranges, searched from the lowest. -/
def contains : CodeRanges -> Nat -> Bool
  | [], _ => false
  | (first, last) :: rest, n =>
      if n < first then false
      else if n ≤ last then true
      else contains rest n

theorem lt_of_ascending {range : Nat × Nat} {rest : CodeRanges}
    (h : ascending (range :: rest) = true) :
    forall next, next ∈ rest -> range.2 < next.1 := by
  induction rest generalizing range with
  | nil =>
      intro next hnext
      cases hnext
  | cons second rest ih =>
      intro next hnext
      simp only [ascending, List.head?_cons, Option.all_some, Bool.and_eq_true,
        decide_eq_true_eq] at h
      have hsecond : ascending (second :: rest) = true := by
        simp only [ascending, Bool.and_eq_true, decide_eq_true_eq]
        exact h.2
      cases hnext with
      | head =>
          exact Nat.lt_of_succ_lt h.1.2
      | tail _ hrest =>
          have hlater := ih hsecond next hrest
          omega

theorem contains_iff {ranges : CodeRanges} (h : ascending ranges = true) (n : Nat) :
    contains ranges n = true ↔ exists range, range ∈ ranges ∧ range.1 ≤ n ∧ n ≤ range.2 := by
  induction ranges with
  | nil =>
      simp [contains]
  | cons range rest ih =>
      have hlater := lt_of_ascending h
      simp only [ascending, Bool.and_eq_true, decide_eq_true_eq] at h
      have hrest := ih h.2
      unfold contains
      split
      · rename_i hbefore
        constructor
        · intro hfalse
          cases hfalse
        · intro h
          rcases h with ⟨found, hfound, hfirst, _⟩
          cases hfound with
          | head =>
              omega
          | tail _ hmem =>
              have hgap := hlater found hmem
              omega
      · split
        · rename_i hfirst hlast
          exact ⟨fun _ => ⟨range, List.mem_cons_self, Nat.not_lt.mp hfirst, hlast⟩, fun _ => rfl⟩
        · rename_i hfirst hlast
          rw [hrest]
          constructor
          · intro h
            rcases h with ⟨found, hmem, hin⟩
            exact ⟨found, List.mem_cons_of_mem _ hmem, hin⟩
          · intro h
            rcases h with ⟨found, hmem, hin⟩
            cases hmem with
            | head =>
                exact absurd hin.2 hlast
            | tail _ hmem =>
                exact ⟨found, hmem, hin⟩

end CodeRanges
end Text
end AsOf
