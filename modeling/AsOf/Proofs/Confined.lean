import AsOf.Engine.View
import AsOf.Proofs.Perform

/-!
# Failures that are confined

An action is confined if it keeps something up and fails only in some ways.  What a view needs of
its archive for that is little: lookups and scans are confined themselves, and a lookup that
names an entry after its key is a breach that may be reported.
-/

namespace AsOf

variable {m : Type -> Type} [Monad m] {V W σ α β ε : Type} [Performs m W] {J : W -> Prop}
  {fails : ε -> Prop} {w : W}

def Sustained (J : W -> Prop) (x : m α) : Prop :=
  forall w, J w -> After x w (fun _ w' => J w')

/-- An action keeps something up, and gives something good or fails in one of some ways. -/
def Confined (J : W -> Prop) (fails : ε -> Prop) (good : α -> Prop) (x : ExceptT ε m α) : Prop :=
  forall w, J w -> After x.run w (fun r w' => J w' ∧ WhenError fails r ∧ WhenOk good r)

def Pull.Confined (J : W -> Prop) (fails : QueryError -> Prop) (pull : Pull m α σ) : Prop :=
  forall state w, J w ->
    After (pull state) w (fun r w' => J w' ∧ forall e, r.1 = some (.error e) -> fails e)

namespace Confined

variable {good : α -> Prop} {better : β -> Prop} {x : ExceptT ε m α} {f : α -> ExceptT ε m β}

theorem pure {a : α} (ha : good a) :
    Confined J fails good (Pure.pure a : ExceptT ε m α) :=
  fun _ hw => after_except_pure.mpr ⟨hw, trivial, ha⟩

theorem throw {e : ε} (he : fails e) :
    Confined J fails good (MonadExcept.throw e : ExceptT ε m α) :=
  fun _ hw => after_except_throw.mpr ⟨hw, he, trivial⟩

theorem bind (hx : Confined J fails good x)
    (hf : forall a, good a -> Confined J fails better (f a)) :
    Confined J fails better (x >>= f) := by
  intro w hw
  apply after_except_bind.mpr
  apply After.imp (hx w hw)
  intro r w' hr
  cases r with
  | ok a => exact hf a hr.2.2 w' hr.1
  | error e => exact ⟨hr.1, hr.2.1, trivial⟩

theorem map {f : α -> β} (hx : Confined J fails (fun _ => True) x) :
    Confined J fails (fun _ => True) (f <$> x) := by
  intro w hw
  apply after_except_map.mpr
  apply After.imp (hx w hw)
  intro r w' hr
  cases r with
  | ok a => exact ⟨hr.1, trivial, trivial⟩
  | error e => exact ⟨hr.1, hr.2.1, trivial⟩

theorem lift {x : m α} (hx : Sustained J x) :
    Confined J fails (fun _ => True) (liftM x : ExceptT ε m α) :=
  fun w hw => after_except_lift.mpr (After.imp (hx w hw) fun _ _ hw' => ⟨hw', trivial, trivial⟩)

theorem settled {r : Except ε α} (hr : WhenError fails r) :
    Confined J fails (fun _ => True) (ExceptT.mk (Pure.pure r) : ExceptT ε m α) := by
  intro w hw
  apply after_except_mk.mpr
  apply after_pure.mpr
  cases r with
  | ok a => exact ⟨hw, trivial, trivial⟩
  | error e => exact ⟨hw, hr, trivial⟩

theorem whenError {x : ExceptT ε m α} (hx : Confined (fun _ : W => True) fails good x) (w : W) :
    After x.run w (fun r _ => WhenError fails r) :=
  After.imp (hx w trivial) fun _ _ hr => hr.2.1

end Confined

/-!
## Requests
-/

section Requests

variable {fails : QueryError -> Prop} {good : α -> Prop}

theorem Confined.handOn {below : ExceptT QueryError m α} (hx : Confined J fails good below) :
    Confined (fun p => J p.2) fails good (Request.handOn below : Request m σ α) :=
  fun p hp => after_request_handOn.mpr (hx p.2 hp)

theorem Confined.get :
    Confined (fun p => J p.2) fails (fun _ => True) (MonadState.get : Request m σ σ) :=
  fun _ hp => after_request_get.mpr ⟨hp, trivial, trivial⟩

theorem Confined.set (s : σ) :
    Confined (fun p => J p.2) fails (fun _ => True) (MonadStateOf.set s : Request m σ PUnit) :=
  fun _ hp => after_request_set.mpr ⟨hp, trivial, trivial⟩

theorem Confined.modify (f : σ -> σ) :
    Confined (fun p => J p.2) fails (fun _ => True) (modify f : Request m σ PUnit) :=
  fun _ hp => after_request_modify.mpr ⟨hp, trivial, trivial⟩

theorem Confined.look {x : m α} (hx : Sustained J x) :
    Confined (fun p => J p.2) fails (fun _ => True) (liftM x : Request m σ α) :=
  fun p hp => after_request_lift.mpr (After.imp (hx p.2 hp) fun _ _ hw' => ⟨hw', trivial, trivial⟩)

end Requests

/-!
## Walks
-/

/-- A failure to gather is one of those with which pulling fails. -/
theorem Pull.Confined.gather {fails : QueryError -> Prop} {pull : Pull m α σ}
    (h : pull.Confined J fails) (wanted : α -> Bool) (n : Nat) (state : σ) :
    AsOf.Confined J fails (fun _ => True) (pull.gather wanted n state) := by
  induction n generalizing state with
  | zero => exact .pure trivial
  | succ n ih =>
      intro w hw
      unfold Pull.gather
      apply after_except_bind.mpr
      apply after_except_lift.mpr
      apply After.imp (h state w hw)
      intro out w' hout
      rcases out with ⟨r, next⟩
      rcases hout with ⟨hw', hfails⟩
      rcases r with _ | e | a
      · exact after_except_pure.mpr ⟨hw', trivial, trivial⟩
      · exact after_except_throw.mpr ⟨hw', hfails e rfl, trivial⟩
      · dsimp only
        split
        · exact (ih next).bind (fun _ _ => .pure trivial) w' hw'
        · exact after_except_pure.mpr ⟨hw', trivial, trivial⟩

structure View.Confines (view : View m V) (J : W -> Prop) (fails : QueryError -> Prop) :
    Prop where
  lookup : forall key, Confined J fails
    (fun found => forall e, found = some e -> key < e.key ->
      forall units, fails (.breach key units .entryAfterKey))
    (view.archive.lookup key)
  previousKey : forall key, Sustained J (view.archive.previousKey key)
  scanFrom : forall key, Sustained J (view.archive.scanFrom key)
  pull : Pull.Confined J fails view.archive.pull
  highest : Sustained J view.horizon.highest
  current : Sustained J view.epoch.current
  noData : forall key units, fails (.noData key units)
  keyMismatch : forall key found, fails (.keyMismatch key found)

namespace View

variable {view : View m V} {fails : QueryError -> Prop} (h : view.Confines J fails)
  (options : Options) (key : Instant)

include h

theorem Confines.walk : Pull.Confined J fails (Walk.pull view.archive) := by
  intro walk w hw
  unfold Walk.pull
  cases walk.next with
  | none => exact after_pure.mpr ⟨hw, fun e he => by cases he⟩
  | some key =>
      apply after_bind.mpr
      apply After.imp (h.lookup key w hw)
      intro r w' hr
      rcases hr with ⟨hw', herror, hok⟩
      rcases r with e | _ | found
      · refine after_pure.mpr ⟨hw', fun e' he => ?_⟩
        cases he
        exact herror
      · exact after_pure.mpr ⟨hw', fun e he => by cases he⟩
      · dsimp only
        split
        · rename_i hlate
          refine after_pure.mpr ⟨hw', fun e he => ?_⟩
          cases he
          exact hok found rfl hlate walk.units
        · split
          · apply after_bind.mpr
            apply After.imp (h.previousKey found.key w' hw')
            exact fun k w'' hw'' => after_pure.mpr ⟨hw'', fun e he => by cases he⟩
          · exact after_pure.mpr ⟨hw', fun e he => by cases he⟩

theorem Confines.trailing (a : Instant) (count : Nat) :
    Confined J fails (fun _ => True) (view.trailing a count) :=
  (h.walk.gather _ count (.startAt a count)).map

theorem Confines.furtherBack (a : Instant) (count : Nat) (run : List (Entry V))
    (hnone : run = [] -> fails (.breach a count .nothingToContinue)) :
    Confined J fails (fun _ => True) (view.furtherBack a count run) := by
  unfold View.furtherBack
  cases hlast : run.getLast? with
  | none => exact .throw (hnone (List.getLast?_eq_none_iff.mp hlast))
  | some oldest =>
      have hbefore : Sustained J (Walk.before view.archive oldest.key count) := by
        intro w hw
        apply after_bind.mpr
        exact After.imp (h.previousKey oldest.key w hw) fun _ _ hw' => after_pure.mpr hw'
      exact (Confined.lift hbefore).bind fun walk _ => (h.walk.gather _ _ walk).map

/-!
## Direct requests
-/

theorem Confines.adjust : Sustained J (view.adjust options key) := by
  intro w hw
  unfold View.adjust
  split
  · exact after_pure.mpr hw
  · apply after_bind.mpr
    exact After.imp (h.highest w hw) fun _ _ hw' => after_pure.mpr hw'

theorem Confines.highest_options : Sustained J (view.highest options) := by
  intro w hw
  unfold View.highest
  split
  · exact after_pure.mpr hw
  · exact h.highest w hw

theorem Confines.demand (a : Instant) (found : Option (Entry V)) :
    WhenError fails (options.demand.apply a found) := by
  cases found with
  | none =>
      unfold Demand.apply Demand.require
      dsimp only
      split
      · exact h.noData a 0
      · trivial
  | some e =>
      unfold Demand.apply
      dsimp only
      split
      · split
        · exact h.keyMismatch a e.key
        · trivial
      · trivial

theorem Confines.entry : Confined J fails (fun _ => True) (view.entry options key) := by
  unfold View.entry
  apply (Confined.lift (h.adjust options key)).bind
  intro a _
  apply (h.lookup a).bind
  intro found hfound
  split
  · rename_i hlate
    cases found with
    | none => cases hlate
    | some e => exact .throw (hfound e rfl (of_decide_eq_true hlate) 0)
  · exact .settled (h.demand options a found)

theorem Confines.previousEntry (distance : Nat) :
    Confined J fails (fun _ => True) (view.previousEntry options key distance) := by
  unfold View.previousEntry
  apply (Confined.lift (h.adjust options key)).bind
  exact fun a _ => (h.trailing a _).bind fun _ _ => .pure trivial

theorem Confines.previousEntries (count : Nat) :
    Confined J fails (fun _ => True) (view.previousEntries options key count) := by
  unfold View.previousEntries
  apply (Confined.lift (h.adjust options key)).bind
  exact fun a _ => (h.trailing a _).bind fun _ _ => .pure trivial

theorem Confines.nextEntries (count : Nat) :
    Confined J fails (fun _ => True) (view.nextEntries options key count) := by
  unfold View.nextEntries
  apply (Confined.lift (h.highest_options options)).bind
  intro highest _
  apply (Confined.lift (h.adjust options key)).bind
  intro a _
  apply (Confined.lift (h.scanFrom a)).bind
  exact fun scan _ => (h.pull.gather _ count scan).map

theorem Confines.nextEntry (distance : Nat) :
    Confined J fails (fun _ => True) (view.nextEntry options key distance) := by
  unfold View.nextEntry
  exact (h.nextEntries options key _).bind fun _ _ => .pure trivial

end View
end AsOf
