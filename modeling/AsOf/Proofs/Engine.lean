import AsOf.Engine
import AsOf.Proofs.Engine.Windowed

/-!
# Both kinds of engines give the same answers

A direct engine keeps nothing, and a windowed engine keeps a window of the series.
Each request to either yields what the series says, or a failure of the archive,
and leaves an engine that can be asked again.  What the series says is read from the
base of the window on, which makes no difference for a window up to its anchor.
-/

namespace AsOf
namespace Engine

open Outlook

variable {m : Type -> Type} [Monad m] {V W α : Type} [Performs m W] {o : Outlook W V}
  {view : View m V} {live : W -> view.archive.Scan -> Prop} {p p' : State V × W} {w : W}
  {P : Series V -> Window V -> Prop}

theorem State.window_clear {engine : State V} {s : Windowed.State V}
    (hs : engine.clear = .windowed s) :
    exists t, engine = .windowed t ∧ s.window = .empty ∧ s.epoch = t.epoch := by
  cases engine with
  | direct n => cases hs
  | windowed t =>
      cases hs
      exact ⟨t, rfl, rfl, rfl⟩

theorem State.window_raiseMaximum {engine : State V} {s : Windowed.State V} {size : Nat}
    (hs : engine.raiseMaximum size = .windowed s) :
    exists t, engine = .windowed t ∧ s.window = t.window ∧ s.epoch = t.epoch := by
  cases engine with
  | direct n => cases hs
  | windowed t =>
      cases hs
      exact ⟨t, rfl, rfl, rfl⟩

def State.base : State V -> Nat -> Instant -> Instant
  | .direct _, _, a => a
  | .windowed s, epoch, a => s.base epoch a

@[simp] theorem State.base_direct (n epoch : Nat) (a : Instant) :
    (direct n : State V).base epoch a = a := rfl

def Kept (P : Series V -> Window V -> Prop) (o : Outlook W V) (p : State V × W) : Prop :=
  forall s, p.1 = .windowed s -> Windowed.Kept P o (s, p.2)

def Attached (P : Series V -> Window V -> Prop) (o : Outlook W V) (p : State V × W) : Prop :=
  forall s, p.1 = .windowed s -> P (o.series p.2) s.window

inductive Serves (P : Series V -> Window V -> Prop) (o : Outlook W V) :
    State V × W -> State V × W -> Prop where
  | direct {n n' : Nat} {w w' : W} (follows : o.Follows w w') :
      Serves P o (.direct n, w) (.direct n', w')
  | windowed {s s' : Windowed.State V} {w w' : W} (serves : Windowed.Serves P o (s, w) (s', w')) :
      Serves P o (.windowed s, w) (.windowed s', w')

/-- A window of the series up to its anchor is read from its base on as from the instant. -/
theorem Kept.downFrom_base (hkept : Kept Window.Of o p) (a : Instant) :
    (o.series p.2).downFrom (p.1.base (o.epoch p.2) a) = (o.series p.2).downFrom a := by
  rcases p with ⟨engine, w⟩
  cases engine with
  | direct n => rfl
  | windowed s =>
      unfold State.base Windowed.State.base Windowed.State.observeEpoch
      dsimp only
      split
      · rename_i heq
        exact (hkept s rfl heq.symm).downFrom_base a
      · rfl

theorem Serves.follows (h : Serves P o p p') : o.Follows p.2 p'.2 := by
  cases h with
  | direct follows => exact follows
  | windowed serves => exact serves.follows

theorem Serves.kept (h : Serves P o p p') (hp : Kept P o p) : Kept P o p' := by
  cases h with
  | direct follows =>
      intro s hs
      cases hs
  | @windowed s s' w w' serves =>
      intro _ hs hepoch
      cases hs
      rcases serves.state with hheld | ⟨hwindow, hsame⟩
      · exact hheld.window
      · have hw : s.epoch = o.epoch w := by
          rw [← hsame]
          exact hepoch.trans serves.follows.epoch
        rw [show s'.window = s.window from hwindow, show o.series w' = o.series w from
          serves.follows.series]
        exact hp s rfl hw

theorem Serves.attached (h : Serves P o p p') (hp : Attached P o p) : Attached P o p' := by
  cases h with
  | direct follows =>
      intro s hs
      cases hs
  | @windowed s s' w w' serves =>
      intro _ hs
      cases hs
      rcases serves.state with hheld | ⟨hwindow, -⟩
      · exact hheld.window
      · rw [show s'.window = s.window from hwindow, show o.series w' = o.series w from
          serves.follows.series]
        exact hp s rfl

theorem Serves.epoch (h : Serves P o p p') {s' : Windowed.State V} (hs' : p'.1 = .windowed s') :
    s'.epoch = o.epoch p'.2 ∨ exists s, p.1 = .windowed s ∧ s'.epoch = s.epoch := by
  cases h with
  | direct follows => cases hs'
  | windowed serves =>
      cases hs'
      rcases serves.state with hheld | ⟨-, hsame⟩
      · exact Or.inl hheld.epoch
      · exact Or.inr ⟨_, rfl, hsame⟩

theorem Serves.epoch_le (h : Serves P o p p')
    (hp : forall s, p.1 = .windowed s -> s.epoch ≤ o.epoch p.2) :
    forall s, p'.1 = .windowed s -> s.epoch ≤ o.epoch p'.2 := by
  intro s' hs'
  rcases h.epoch hs' with heq | ⟨s, hs, hsame⟩
  · exact Nat.le_of_eq heq
  · rw [hsame, h.follows.epoch]
    exact hp s hs

theorem Serves.epoch_eq (h : Serves P o p p')
    (hp : forall s, p.1 = .windowed s -> s.epoch = o.epoch p.2) :
    forall s, p'.1 = .windowed s -> s.epoch = o.epoch p'.2 := by
  intro s' hs'
  rcases h.epoch hs' with heq | ⟨s, hs, hsame⟩
  · exact heq
  · rw [hsame, h.follows.epoch]
    exact hp s hs

theorem Serves.kind (h : Serves P o p p') : p'.1.kind = p.1.kind := by
  cases h with
  | direct follows => rfl
  | windowed serves => rfl

theorem kind_start (view : View m V) (kind : Kind) (maximum : Option Positive) :
    After (start view kind maximum) w (fun engine _ => engine.kind = kind) := by
  cases kind with
  | direct => exact after_pure.mpr rfl
  | windowed =>
      unfold Engine.start
      simp only [after_bind, after_pure]
      exact after_of_forall fun _ _ => rfl

theorem after_start (hepoch : view.epoch.Shows o) (hready : o.ready w) (kind : Kind)
    (maximum : Option Positive) :
    After (start view kind maximum) w (fun engine w' => o.Follows w w' ∧
      forall s, engine = .windowed s -> s.epoch = o.epoch w' ∧ s.window = .empty) := by
  cases kind with
  | direct =>
      apply after_pure.mpr
      constructor
      · exact Follows.refl o w
      · intro s hs
        cases hs
  | windowed =>
      unfold Engine.start
      simp only [after_bind, after_pure]
      apply After.imp (hepoch w hready)
      intro _ w' hpost
      rcases hpost with ⟨rfl, hw'⟩
      constructor
      · exact hw'
      · intro s hs
        cases hs
        exact ⟨hw'.epoch.symm, rfl⟩

theorem after_dispatch_direct {direct : ExceptT QueryError m α}
    {windowed : Request m (Windowed.State V) α} {n : Nat}
    {post : Except QueryError α -> State V × W -> Prop} :
    After (dispatch direct windowed).run (.direct n, w) post ↔
      After direct.run w (fun r w' => post r (.direct (n + 1), w')) := by
  show After (direct.run >>= fun r => pure (r, State.direct (n + 1))) w
    (fun r w' => post r.1 (r.2, w')) ↔ _
  simp only [after_bind, after_pure]

theorem after_dispatch_windowed {direct : ExceptT QueryError m α}
    {windowed : Request m (Windowed.State V) α} {s : Windowed.State V}
    {post : Except QueryError α -> State V × W -> Prop} :
    After (dispatch direct windowed).run (.windowed s, w) post ↔
      After windowed.run (s, w) (fun r p => post r (.windowed p.1, p.2)) := by
  show After (windowed.run.run s >>= fun r => pure (r.1, State.windowed r.2)) w
    (fun r w' => post r.1 (r.2, w')) ↔ _
  simp only [after_bind, after_pure]
  exact Iff.rfl

theorem after_dispatch {direct : ExceptT QueryError m α}
    {windowed : Request m (Windowed.State V) α} {post : Except QueryError α -> W -> Prop}
    (hdirect : After direct.run p.2 (fun r w' => o.Follows p.2 w' ∧ post r w'))
    (hwindowed : forall s, p.1 = .windowed s -> After windowed.run (s, p.2) (fun r p' =>
      Windowed.Serves P o (s, p.2) p' ∧ post r p'.2)) :
    After (dispatch direct windowed).run p (fun r p' => Serves P o p p' ∧ post r p'.2) := by
  rcases p with ⟨state, w⟩
  cases state with
  | direct n =>
      apply after_dispatch_direct.mpr
      exact After.imp hdirect fun r w' hr => ⟨.direct hr.1, hr.2⟩
  | windowed s =>
      apply after_dispatch_windowed.mpr
      exact After.imp (hwindowed s rfl) fun r p' hr => ⟨.windowed hr.1, hr.2⟩

theorem after_handOn {direct : ExceptT QueryError m α} {post : Except QueryError α -> W -> Prop}
    (hdirect : After direct.run p.2 (fun r w' => o.Follows p.2 w' ∧ post r w')) :
    After (dispatch direct (.handOn direct)).run p (fun r p' => Serves P o p p' ∧ post r p'.2) := by
  apply after_dispatch hdirect
  intro s hs
  apply after_request_handOn.mpr
  apply After.imp hdirect
  exact fun r w' hr => ⟨⟨hr.1, Or.inr ⟨rfl, rfl⟩⟩, hr.2⟩

section Requests

variable (h : view.Reads o live) (hready : o.ready p.2)

include h hready

theorem after_entry (options : Options) (key : Instant) :
    After (entry view options key).run p (fun r p' => Serves P o p p' ∧
      o.Returns p.2 p'.2 (options.demand.verdict (o.about p.2 options key)
        ((o.series p.2).latestUpTo (o.about p.2 options key))) r) :=
  after_dispatch (View.after_entry h hready options key)
    fun s _ => Windowed.after_entry (p := (s, p.2)) h hready options key

/-!
## Runs from the base of the window on
-/

section Base

variable (hP : forall series, Window.Shaping series (P series)) (hkept : Kept P o p)

include hP hkept

theorem after_previousEntry_base (options : Options) (key : Instant) (distance : Nat) :
    After (previousEntry view options key distance).run p (fun r p' => Serves P o p p' ∧
      o.Delivers p.2 p'.2 (· = (o.series p.2).entryBack
        (if distance = 0 then o.about p.2 options key
          else p.1.base (o.epoch p.2) (o.about p.2 options key))
        (min distance (Count.limit - 1))) r) := by
  rcases p with ⟨engine, w⟩
  cases engine with
  | direct n =>
      apply after_dispatch_direct.mpr
      apply After.imp (View.after_previousEntry h hready options key distance)
      intro r w' hr
      simp only [State.base_direct, ite_self]
      exact ⟨.direct hr.1, hr.2⟩
  | windowed s =>
      apply after_dispatch_windowed.mpr
      apply After.imp (Windowed.after_previousEntry (p := (s, w)) h hready hP (hkept s rfl) options
        key distance)
      exact fun r p' hr => ⟨.windowed hr.1, hr.2⟩

theorem after_previousEntries_base (options : Options) (key : Instant) (count : Nat) :
    After (previousEntries view options key count).run p (fun r p' => Serves P o p p' ∧
      o.Delivers p.2 p'.2 (· = (o.series p.2).lastUpTo
        (if count ≤ 1 then o.about p.2 options key
          else p.1.base (o.epoch p.2) (o.about p.2 options key)) count) r) := by
  rcases p with ⟨engine, w⟩
  cases engine with
  | direct n =>
      apply after_dispatch_direct.mpr
      apply After.imp (View.after_previousEntries h hready options key count)
      intro r w' hr
      simp only [State.base_direct, ite_self]
      exact ⟨.direct hr.1, hr.2⟩
  | windowed s =>
      apply after_dispatch_windowed.mpr
      apply After.imp (Windowed.after_previousEntries (p := (s, w)) h hready hP (hkept s rfl)
        options key count)
      exact fun r p' hr => ⟨.windowed hr.1, hr.2⟩

end Base

/-!
## Runs from the instant of the request on
-/

theorem after_previousEntry (hkept : Kept Window.Of o p) (options : Options) (key : Instant)
    (distance : Nat) :
    After (previousEntry view options key distance).run p (fun r p' => Serves Window.Of o p p' ∧
      o.Delivers p.2 p'.2
        (· = (o.series p.2).entryBack (o.about p.2 options key)
          (min distance (Count.limit - 1))) r) := by
  apply After.imp (after_previousEntry_base h hready Window.shaping_of hkept options key distance)
  intro r p' hpost
  refine ⟨hpost.1, hpost.2.imp fun found hfound => hfound.trans ?_⟩
  unfold Series.entryBack
  rw [apply_ite (o.series p.2).downFrom, hkept.downFrom_base, ite_self]

theorem after_previousEntries (hkept : Kept Window.Of o p) (options : Options) (key : Instant)
    (count : Nat) :
    After (previousEntries view options key count).run p (fun r p' => Serves Window.Of o p p' ∧
      o.Delivers p.2 p'.2
        (· = (o.series p.2).lastUpTo (o.about p.2 options key) count) r) := by
  apply After.imp (after_previousEntries_base h hready Window.shaping_of hkept options key count)
  intro r p' hpost
  refine ⟨hpost.1, hpost.2.imp fun run hrun => hrun.trans ?_⟩
  rw [Series.lastUpTo_eq, Series.lastUpTo_eq, apply_ite (o.series p.2).downFrom,
    hkept.downFrom_base, ite_self]

end Requests

end Engine
end AsOf
