import AsOf.Proofs.Confined

/-!
# Where failures come from

Nothing is assumed of an archive here.  It may fail as it likes, and a walk or a direct
request hands its failures on.  Of the failures that the layers above it add, none says
that there is nothing to continue from, as long as there is a run to continue.
-/

namespace AsOf

variable {m : Type -> Type} [Monad m] {V W : Type} [Performs m W] {w : W}

/-!
## Failures of an archive
-/

namespace Archive

variable {archive : Archive m V}

def Reports (archive : Archive m V) (e : QueryError) : Prop :=
  (exists key w, After (archive.lookup key).run w (fun r _ => r = .error e)) ∨
    exists scan w, After (archive.pull scan) w (fun r _ => r.1 = some (.error e))

/-- A failure to continue a run is not made up by the layers above the archive. -/
def Warrants (archive : Archive m V) (e : QueryError) : Prop :=
  forall key units, e = .breach key units .nothingToContinue -> archive.Reports e

theorem Reports.warrants {e : QueryError} (h : archive.Reports e) : archive.Warrants e :=
  fun _ _ _ => h

theorem warrants_breach {key : Instant} {units : Nat} {cause : Breach}
    (hne : cause ≠ .nothingToContinue) : archive.Warrants (.breach key units cause) := by
  intro key' units' heq
  cases heq
  exact absurd rfl hne

end Archive

/-!
## Failures of walks and direct requests
-/

namespace View

variable (view : View m V) (options : Options) (key : Instant)

/-- A view comes up with no failure to continue a run unless its archive does. -/
theorem confines_warrants : view.Confines (fun _ => True) view.archive.Warrants where
  lookup key w _ := by
    apply After.imp (after_perform (view.archive.lookup key).run w)
    intro r w' hr
    cases r with
    | ok found => exact ⟨trivial, trivial, fun _ _ _ _ => Archive.warrants_breach (by decide)⟩
    | error e => exact ⟨trivial, Archive.Reports.warrants (Or.inl ⟨key, w, hr.symm⟩), trivial⟩
  previousKey _ _ _ := after_of_forall fun _ _ => trivial
  scanFrom _ _ _ := after_of_forall fun _ _ => trivial
  pull scan w _ := ⟨trivial, fun _ he => Archive.Reports.warrants (Or.inr ⟨scan, w, he⟩)⟩
  highest _ _ := after_of_forall fun _ _ => trivial
  current _ _ := after_of_forall fun _ _ => trivial
  noData _ _ _ _ heq := by cases heq
  keyMismatch _ _ _ _ heq := by cases heq

theorem warrants_walkAll (wanted : Entry V -> Bool) (count : Nat) (walk : Walk) :
    After (Pull.gather (Walk.pull view.archive) wanted count walk).run w
      (fun r _ => WhenError view.archive.Warrants r) :=
  (view.confines_warrants.walk.gather wanted count walk).whenError w

theorem warrants_trailing (a : Instant) (count : Nat) :
    After (view.trailing a count).run w (fun r _ => WhenError view.archive.Warrants r) :=
  (view.confines_warrants.trailing a count).whenError w

theorem warrants_furtherBack (a : Instant) (count : Nat) {run : List (Entry V)} (hne : run ≠ []) :
    After (view.furtherBack a count run).run w
      (fun r _ => WhenError view.archive.Warrants r) :=
  (view.confines_warrants.furtherBack a count run fun hnil => absurd hnil hne).whenError w

theorem warrants_entry :
    After (view.entry options key).run w (fun r _ => WhenError view.archive.Warrants r) :=
  (view.confines_warrants.entry options key).whenError w

theorem warrants_previousEntry (distance : Nat) :
    After (view.previousEntry options key distance).run w
      (fun r _ => WhenError view.archive.Warrants r) :=
  (view.confines_warrants.previousEntry options key distance).whenError w

theorem warrants_nextEntries (count : Nat) :
    After (view.nextEntries options key count).run w
      (fun r _ => WhenError view.archive.Warrants r) :=
  (view.confines_warrants.nextEntries options key count).whenError w

theorem warrants_nextEntry (distance : Nat) :
    After (view.nextEntry options key distance).run w
      (fun r _ => WhenError view.archive.Warrants r) :=
  (view.confines_warrants.nextEntry options key distance).whenError w

end View
end AsOf
