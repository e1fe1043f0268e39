import AsOf.Proofs.Confined
import AsOf.Proofs.Engine.Session

/-!
# Engines over a view whose failures are confined

An engine keeps up what its view does, whatever its window holds, and comes up with no failures
but those of the view, and that there is nothing to continue from.
-/

namespace AsOf

variable {m : Type -> Type} [Monad m] {V W α : Type} [Performs m W] {J : W -> Prop}
  {fails : QueryError -> Prop} {view : View m V}

namespace Windowed

variable (h : view.Confines J fails)
  (hnothing : forall key units, fails (.breach key units .nothingToContinue))
  (options : Options) (key : Instant)

theorem confined_commit {step : State V -> ExceptT QueryError m (Outcome V)}
    (hstep : forall s, Confined J fails (fun _ => True) (step s)) :
    Confined (fun p => J p.2) fails (fun _ => True) (commit step) := by
  unfold commit
  apply Confined.get.bind
  intro s _
  apply (Confined.handOn (hstep s)).bind
  intro out _
  exact (Confined.set out.2).bind fun _ _ => .pure trivial

theorem confined_bypass {request : ExceptT QueryError m α}
    (hrequest : Confined J fails (fun _ => True) request) :
    Confined (fun p => J p.2) fails (fun _ => True) (bypass request : Request m (State V) α) :=
  (Confined.modify _).bind fun _ _ => .handOn hrequest

include h

section Runs

include hnothing

theorem confined_furtherBack (a : Instant) (count : Nat) (run : List (Entry V))
    {f : List (Entry V) -> ExceptT QueryError m (Outcome V)}
    (hf : forall older, Confined J fails (fun _ => True) (f older)) :
    Confined J fails (fun _ => True) (view.furtherBack a count run >>= f) :=
  (h.furtherBack a count run fun _ => hnothing a count).bind fun older _ => hf older

theorem confined_runAtSame (a : Instant) (count : Nat) (s : State V) :
    Confined J fails (fun _ => True) (runAtSame view a count s) := by
  unfold runAtSame
  dsimp only
  split
  · apply confined_furtherBack h hnothing
    intro older
    split <;> exact .pure trivial
  · exact .pure trivial

theorem confined_runOnto (newer : List (Entry V)) (a : Instant) (count : Nat) (s : State V) :
    Confined J fails (fun _ => True) (runOnto view newer a count s) := by
  unfold runOnto
  dsimp only
  split
  · exact confined_furtherBack h hnothing a count _ fun _ => .pure trivial
  · exact .pure trivial

theorem confined_runAfter (newest a : Instant) (count : Nat) (s : State V) :
    Confined J fails (fun _ => True) (runAfter view newest a count s) := by
  unfold runAfter
  apply (h.walk.gather _ count _).bind
  intro out _
  dsimp only
  split
  · exact confined_runOnto h hnothing out.1 a count s
  · exact .pure trivial

theorem confined_runInside (a : Instant) (count : Nat) (s : State V) :
    Confined J fails (fun _ => True) (runInside view a count s) := by
  unfold runInside
  dsimp only
  split
  · apply confined_furtherBack h hnothing
    intro older
    split <;> exact .pure trivial
  · exact .pure trivial

omit hnothing in
theorem confined_runOutside (a : Instant) (count : Nat) (s : State V) :
    Confined J fails (fun _ => True) (runOutside view a count s) :=
  (h.trailing a count).bind fun _ _ => .pure trivial

omit hnothing in
theorem confined_sync :
    Confined (fun p => J p.2) fails (fun _ => True)
      (liftM (sync view) : Request m (State V) Unit) := by
  apply Confined.lift
  intro p hp
  rcases p with ⟨s, w⟩
  unfold sync
  apply after_bind.mpr
  apply after_state_monadLift.mpr
  exact After.imp (h.current w hp) fun _ _ hw' => after_state_modify.mpr hw'

theorem confined_run (count : Nat) :
    Confined (fun p => J p.2) fails (fun _ => True) (run view options key count) := by
  unfold run
  apply (Confined.look (h.adjust options key)).bind
  intro a _
  apply (confined_sync h).bind
  intro _ _
  apply Confined.get.bind
  intro s _
  split
  · exact confined_commit (confined_runAtSame h hnothing a count)
  · exact confined_commit (confined_runAfter h hnothing _ a count)
  · exact confined_commit (confined_runInside h hnothing a count)
  · exact (Confined.modify _).bind fun _ _ => confined_commit (confined_runOutside h a count)

theorem confined_previousEntry (distance : Nat) :
    Confined (fun p => J p.2) fails (fun _ => True) (previousEntry view options key distance) := by
  unfold previousEntry
  split
  · exact confined_bypass (h.previousEntry options key 0)
  · exact (confined_run h hnothing options key _).bind fun _ _ => .pure trivial

theorem confined_previousEntries (count : Nat) :
    Confined (fun p => J p.2) fails (fun _ => True) (previousEntries view options key count) := by
  unfold previousEntries
  split
  · exact .pure trivial
  · exact confined_bypass (h.previousEntry options key 0).map
  · exact (confined_run h hnothing options key _).bind fun _ _ => .pure trivial

end Runs
end Windowed

namespace Engine

theorem confined_dispatch {direct : ExceptT QueryError m α}
    {windowed : Request m (Windowed.State V) α}
    (hdirect : Confined J fails (fun _ => True) direct)
    (hwindowed : Confined (fun p => J p.2) fails (fun _ => True) windowed) :
    Confined (fun p => J p.2) fails (fun _ => True) (dispatch direct windowed) := by
  intro p hp
  rcases p with ⟨state, w⟩
  cases state with
  | direct requests => exact after_dispatch_direct.mpr (hdirect w hp)
  | windowed s => exact after_dispatch_windowed.mpr (hwindowed (s, w) hp)

theorem Question.confined_put (h : view.Confines J fails)
    (hnothing : forall key units, fails (.breach key units .nothingToContinue))
    (options : Options) (key : Instant) (q : Question) :
    Confined (fun p => J p.2) fails (fun _ => True) (q.put view options key) := by
  cases q with
  | entry =>
      exact confined_dispatch (h.entry options key) (Windowed.confined_bypass (h.entry options key))
  | previousEntry distance =>
      exact confined_dispatch (h.previousEntry options key distance)
        (Windowed.confined_previousEntry h hnothing options key distance)
  | previousEntries count =>
      exact confined_dispatch (h.previousEntries options key count)
        (Windowed.confined_previousEntries h hnothing options key count)
  | nextEntry distance =>
      exact confined_dispatch (h.nextEntry options key distance)
        (.handOn (h.nextEntry options key distance))
  | nextEntries count =>
      exact confined_dispatch (h.nextEntries options key count)
        (.handOn (h.nextEntries options key count))

end Engine
end AsOf
