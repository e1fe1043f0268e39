import AsOf.Proofs.Replica.Advance
import AsOf.Proofs.Shape

/-!
# Walks descend

Nothing is assumed of an archive here.  A walk goes on only from an entry that lies before the one
it stands at, so that it hands out ever earlier entries, of which there are no more than instants
on the line.  What is not an entry ends it.  Together with the page loops of a replica these are
all loops of the library, and each of them comes to an end.
-/

namespace AsOf

variable {m n : Type -> Type} [Monad m] [Monad n] {V U W : Type} [Performs m W] [Performs n U]

/-!
## Walks that are pulled again and again
-/

/-- What a walk yields at each of some pulls, which may find the world in any state. -/
def Walk.outcomes (archive : Archive m V) (walk : Walk) :
    List W -> List (Option (Except QueryError (Entry V)))
  | [] => []
  | w :: rest =>
      let r := (perform (Walk.pull archive walk) w).1
      r.1 :: r.2.outcomes archive rest

def handedOut (outcomes : List (Option (Except QueryError (Entry V)))) : List (Entry V) :=
  outcomes.filterMap fun
    | some (.ok e) => some e
    | some (.error _) | none => none

variable {archive : Archive m V} {walk : Walk} {worlds : List W}

theorem Walk.outcomes_cons (archive : Archive m V) (walk : Walk) (w : W) (worlds : List W) :
    exists r walk', walk.Steps walk' r ∧
      walk.outcomes archive (w :: worlds) = r :: walk'.outcomes archive worlds :=
  ⟨_, _, Walk.after_pull archive walk, rfl⟩

theorem Walk.outcomes_ended (hended : walk.next = none) :
    forall r, r ∈ walk.outcomes archive worlds -> r = none := by
  have hpull : forall w, perform (Walk.pull archive walk) w = ((none, walk), w) := fun w => by
    simp only [Walk.pull, hended, Performs.perform_pure]
  induction worlds with
  | nil => exact fun r hr => absurd hr List.not_mem_nil
  | cons w rest ih =>
      intro r hr
      rw [Walk.outcomes, hpull w] at hr
      rcases List.mem_cons.mp hr with rfl | hr
      · rfl
      · exact ih r hr

theorem handedOut_of_none {outcomes : List (Option (Except QueryError (Entry V)))}
    (h : forall r, r ∈ outcomes -> r = none) : handedOut outcomes = [] := by
  apply List.filterMap_eq_nil_iff.mpr
  intro r hr
  rw [h r hr]

theorem Walk.promises_outcomes (archive : Archive m V) (walk : Walk) (worlds : List W) :
    walk.Promises (handedOut (walk.outcomes archive worlds)) := by
  induction worlds generalizing walk with
  | nil => exact walk.promises_nil
  | cons w rest ih =>
      rcases walk.outcomes_cons archive w rest with ⟨r, walk', hsteps, heq⟩
      rw [heq]
      have hended : walk'.next = none ->
          walk.Promises (handedOut (walk'.outcomes archive rest)) := by
        intro hnone
        rw [handedOut_of_none (outcomes_ended hnone)]
        exact walk.promises_nil
      match r, hsteps with
      | some (.ok e), hsteps => exact (ih walk').cons hsteps
      | some (.error _), hnone => exact hended hnone
      | none, hnone => exact hended hnone

/-- Only an entry is followed by anything but the end of a walk. -/
theorem Walk.outcomes_pairwise (archive : Archive m V) (walk : Walk) (worlds : List W) :
    (walk.outcomes archive worlds).Pairwise fun r later =>
      (exists e, r = some (.ok e)) ∨ later = none := by
  induction worlds generalizing walk with
  | nil => exact List.Pairwise.nil
  | cons w rest ih =>
      rcases walk.outcomes_cons archive w rest with ⟨r, walk', hsteps, heq⟩
      rw [heq]
      refine List.pairwise_cons.mpr ⟨fun later hlater => ?_, ih walk'⟩
      match r, hsteps with
      | some (.ok e), _ => exact Or.inl ⟨e, rfl⟩
      | some (.error _), hended => exact Or.inr (outcomes_ended hended later hlater)
      | none, hended => exact Or.inr (outcomes_ended hended later hlater)

theorem length_le_of_descending {entries : List (Entry V)} (h : Descending entries) :
    entries.length ≤ Instant.earliest.remaining + 1 := by
  have hascending : (entries.map Entry.key).reverse.Pairwise (· < ·) :=
    List.pairwise_reverse.mpr (List.pairwise_map.mpr h)
  have hle := Instant.length_le_of_ascending hascending fun key _ => key.earliest_le
  simpa using hle

/-!
## All loops
-/

open Source in
/--
Whatever a source answers, reading forward and pulling a scan make no more calls than their first
start allows, and the pages of one read or of one whole scan begin at ever later instants, whatever
happens between its pulls.  Whatever an archive answers, a walk yields ever earlier entries, and
nothing after its end or a failure.
-/
theorem loops_end (replica : Replica m V) (archive : Archive n V) :
    (forall goal mark s w, After (replica.recorded.fetchUntil goal mark).run (s, ([], w))
      (fun _ p' => (starts p'.2.1).Pairwise (· < ·) ∧
        p'.2.1.length ≤ 3 * (mark.start.remaining + 1))) ∧
    (forall scan s w, After (replica.recorded.pull scan) (s, ([], w))
      (fun _ p' => p'.2.1.length ≤ 3 * scan.measure)) ∧
    (forall key moments,
      (starts (Replica.browse replica.recorded.pull (.startAt key) moments).calls).Pairwise
        (· < ·) ∧
      (Replica.browse replica.recorded.pull (.startAt key) moments).calls.length ≤
        3 * (key.remaining + 1)) ∧
    (forall (walk : Walk) (worlds : List U),
      Descending (handedOut (walk.outcomes archive worlds)) ∧
      (handedOut (walk.outcomes archive worlds)).length ≤ Instant.earliest.remaining + 1 ∧
      (walk.outcomes archive worlds).Pairwise fun r later =>
        (exists e, r = some (.ok e)) ∨ later = none) := by
  refine ⟨fun goal mark s w => ?_, fun scan s w => ?_, fun key moments => ?_,
    fun walk worlds => ?_⟩
  · apply After.imp (Replica.after_fetchUntil_calls replica goal mark s [] w)
    intro _ p' hpost
    rcases hpost with ⟨more, hcalls, hascends⟩
    rw [hcalls]
    exact ⟨hascends.ascending, hascends.length_le⟩
  · apply After.imp (Replica.after_pull_calls replica scan s [] w)
    intro _ p' hpost
    rcases hpost with ⟨more, hcalls, hadvances⟩
    rw [hcalls]
    exact hadvances.length_le
  · have hascends := ((Replica.advances_browse replica (.startAt key) moments).going _ rfl).1
    exact ⟨hascends.ascending, hascends.length_le⟩
  · have hdescending := (walk.promises_outcomes archive worlds).1
    exact ⟨hdescending, length_le_of_descending hdescending, walk.outcomes_pairwise archive worlds⟩

end AsOf
