import AsOf.Proofs.Engine
import AsOf.Proofs.Ledger
import AsOf.Proofs.Run

/-!
# An engine in use

A session is an engine with its world.  Between two requests the engine may be
cleared, the maximum of its window may be raised, and the world may move: the
horizon may go anywhere, the epoch may advance, and another series may take the
place of the present one.  If the engine is cleared or the epoch advances before a
request sees another series, the engine answers as a direct one does.
-/

namespace AsOf
namespace Engine

open Outlook

variable {m : Type -> Type} [Monad m] {V W : Type} [Performs m W] {o : Outlook W V}

/-!
## Questions to an engine
-/

inductive Question where
  | entry
  | previousEntry (distance : Nat)
  | previousEntries (count : Nat)
  | nextEntry (distance : Nat)
  | nextEntries (count : Nat)

namespace Question

def Reply (V : Type) : Question -> Type
  | entry | previousEntry _ | nextEntry _ => Option (Entry V)
  | previousEntries _ | nextEntries _ => List (Entry V)

def put (view : View m V) (options : Options) (key : Instant) :
    (q : Question) -> Request m (State V) (q.Reply V)
  | entry => Engine.entry view options key
  | previousEntry distance => Engine.previousEntry view options key distance
  | previousEntries count => Engine.previousEntries view options key count
  | nextEntry distance => Engine.nextEntry view options key distance
  | nextEntries count => Engine.nextEntries view options key count

/--
The reply to a question is the one of the series, or a failure that happened on the
way to it.  Of the entries after an instant nothing is said.
-/
def Answered (o : Outlook W V) (options : Options) (key : Instant) (w w' : W) :
    (q : Question) -> Except QueryError (q.Reply V) -> Prop
  | entry, r =>
      o.Returns w w' (options.demand.verdict (o.about w options key)
        ((o.series w).latestUpTo (o.about w options key))) r
  | previousEntry distance, r =>
      o.Delivers w w'
        (· = (o.series w).entryBack (o.about w options key)
          (min distance (Count.limit - 1))) r
  | previousEntries count, r =>
      o.Delivers w w' (· = (o.series w).lastUpTo (o.about w options key) count) r
  | nextEntry _, _ | nextEntries _, _ => True

theorem after_put {view : View m V} {live : W -> view.archive.Scan -> Prop}
    {p : State V × W} (h : view.Reads o live) (hready : o.ready p.2) (hkept : Kept Window.Of o p)
    (options : Options) (key : Instant) (q : Question) :
    After (q.put view options key).run p (fun r p' =>
      Serves Window.Of o p p' ∧ q.Answered o options key p.2 p'.2 r) := by
  cases q with
  | entry => exact after_entry h hready options key
  | previousEntry distance => exact after_previousEntry h hready hkept options key distance
  | previousEntries count => exact after_previousEntries h hready hkept options key count
  | nextEntry distance =>
      have hnext := View.follows_nextEntry h hready options key distance
      have hposted := hnext.imp (q := fun _ w' => o.Follows p.2 w' ∧ True)
        fun _ _ hw' => ⟨hw', trivial⟩
      exact after_handOn hposted
  | nextEntries count =>
      have hnext := View.follows_nextEntries h hready options key count
      have hposted := hnext.imp (q := fun _ w' => o.Follows p.2 w' ∧ True)
        fun _ _ hw' => ⟨hw', trivial⟩
      exact after_handOn hposted

end Question

/-!
## Sessions
-/

structure Session (W V : Type) where
  world : W
  engine : State V
  /-- The series of the last request, none if nothing of it is kept. -/
  attached : Option (Series V) := none

inductive Command (W : Type) where
  | ask (options : Options) (key : Instant) (q : Question)
  | clear
  | raiseMaximum (size : Nat)
  | move (world : W)

namespace Session

variable {view : View m V} {live : W -> view.archive.Scan -> Prop} {x : Session W V}
  {c : Command W}

def here (x : Session W V) : State V × W :=
  (x.engine, x.world)

def start (view : View m V) (kind : Kind) (maximum : Option Positive) (w : W) : Session W V :=
  let r := perform (Engine.start view kind maximum) w
  { world := r.2, engine := r.1 }

def step (view : View m V) (o : Outlook W V) (x : Session W V) : Command W -> Session W V
  | .ask options key q =>
      let p := (perform (q.put view options key).run x.here).2
      { world := p.2, engine := p.1, attached := some (o.series p.2) }
  | .clear =>
      { x with engine := x.engine.clear, attached := none }
  | .raiseMaximum size =>
      { x with engine := x.engine.raiseMaximum size }
  | .move w =>
      { x with
        world := w
        attached := if o.epoch w = o.epoch x.world then x.attached else none }

/-- Nothing is asked about another series than before, unless what was kept is dropped. -/
def Allowed (o : Outlook W V) (x : Session W V) : Command W -> Prop
  | .ask _ _ _ => x.attached = none ∨ x.attached = some (o.series x.world)
  | .clear | .raiseMaximum _ => True
  | .move w => o.ready w ∧ o.epoch x.world ≤ o.epoch w

/-- The engine answers a question from the series, and so does every direct engine. -/
def Agrees (view : View m V) (o : Outlook W V) (x : Session W V) : Command W -> Prop
  | .ask options key q => forall engine, engine = x.engine ∨ engine.kind = .direct ->
      After (q.put view options key).run (engine, x.world)
        (fun r p => q.Answered o options key x.world p.2 r)
  | _ => True

/-!
## What holds between commands
-/

structure Right (o : Outlook W V) (x : Session W V) : Prop where
  ready : o.ready x.world
  epoch : forall s, x.engine = .windowed s -> s.epoch ≤ o.epoch x.world
  window : forall s series, x.engine = .windowed s -> s.epoch = o.epoch x.world ->
    x.attached = none ∨ x.attached = some series -> s.window.Of series

theorem Right.kept (hx : x.Right o)
    (hseries : x.attached = none ∨ x.attached = some (o.series x.world)) :
    Kept Window.Of o x.here :=
  fun s hs hepoch => hx.window s _ hs hepoch hseries

theorem right_start (h : view.Reads o live) (kind : Kind) (maximum : Option Positive) {w : W}
    (hready : o.ready w) : (start view kind maximum w).Right o := by
  have hstart := after_start h.epoch hready kind maximum
  constructor
  · exact hstart.1.ready hready
  · intro s hs
    exact Nat.le_of_eq (hstart.2 s hs).1
  · intro s series hs _ _
    rw [(hstart.2 s hs).2]
    exact Window.of_empty series

theorem Right.clear (hx : x.Right o) : (x.step view o .clear).Right o where
  ready := hx.ready
  epoch := by
    intro s hs
    rcases State.window_clear hs with ⟨t, ht, -, hepoch⟩
    exact hepoch ▸ hx.epoch t ht
  window := by
    intro s series hs _ _
    rcases State.window_clear hs with ⟨t, -, hempty, -⟩
    rw [hempty]
    exact Window.of_empty series

theorem Right.raiseMaximum (hx : x.Right o) (size : Nat) :
    (x.step view o (.raiseMaximum size)).Right o where
  ready := hx.ready
  epoch := by
    intro s hs
    rcases State.window_raiseMaximum hs with ⟨t, ht, -, hepoch⟩
    exact hepoch ▸ hx.epoch t ht
  window := by
    intro s series hs hepoch hattached
    rcases State.window_raiseMaximum hs with ⟨t, ht, hwindow, hsame⟩
    rw [hwindow]
    exact hx.window t series ht (hsame ▸ hepoch) hattached

theorem Right.move (hx : x.Right o) {w : W} (hready : o.ready w)
    (hle : o.epoch x.world ≤ o.epoch w) : (x.step view o (.move w)).Right o where
  ready := hready
  epoch s hs := Nat.le_trans (hx.epoch s hs) hle
  window := by
    intro s series hs hepoch hattached
    have hsame : o.epoch w = o.epoch x.world :=
      Nat.le_antisymm (hepoch ▸ hx.epoch s hs) hle
    have hepoch' : s.epoch = o.epoch x.world := hepoch.trans hsame
    simp only [step, if_pos hsame] at hattached
    exact hx.window s series hs hepoch' hattached

theorem Right.ask (h : view.Reads o live) (hx : x.Right o) (options : Options) (key : Instant)
    (q : Question) (hseries : x.attached = none ∨ x.attached = some (o.series x.world)) :
    (x.step view o (.ask options key q)).Right o := by
  have hserves := (Question.after_put h hx.ready (hx.kept hseries) options key q).1
  have hkept := hserves.kept (hx.kept hseries)
  have hfollows := hserves.follows
  constructor
  · exact hfollows.ready hx.ready
  · intro s' hs'
    exact hserves.epoch_le hx.epoch s' hs'
  · intro s' series hs' hepoch hattached
    rcases hattached with hnone | hsome
    · cases hnone
    · cases hsome
      exact hkept s' hs' hepoch

/-- A command that is allowed is answered as by a direct engine and leaves the session right. -/
theorem right_step (h : view.Reads o live) (hx : x.Right o) (hallowed : x.Allowed o c) :
    x.Agrees view o c ∧ (x.step view o c).Right o := by
  cases c with
  | ask options key q =>
      constructor
      · intro engine hengine
        have hkept : Kept Window.Of o (engine, x.world) := by
          rcases hengine with rfl | hdirect
          · exact hx.kept hallowed
          · intro s heq
            subst heq
            cases hdirect
        exact (Question.after_put (p := (engine, x.world)) h hx.ready hkept options key q).2
      · exact hx.ask h options key q hallowed
  | clear => exact ⟨trivial, hx.clear⟩
  | raiseMaximum size => exact ⟨trivial, hx.raiseMaximum size⟩
  | move w => exact ⟨trivial, hx.move hallowed.1 hallowed.2⟩

/--
Every engine answers as a direct one does: in every session in which what was kept is
dropped before a request sees another series, the entries up to an instant are those
of the present series, unless a lookup made for them fails.
-/
theorem answers_as_direct (h : view.Reads o live) (kind : Kind) (maximum : Option Positive)
    {w : W} {commands : List (Command W)} (hready : o.ready w)
    (hallowed : Each (step view o) (Allowed o) (start view kind maximum w) commands) :
    Each (step view o) (Agrees view o) (start view kind maximum w) commands :=
  each_of_kept (fun _ _ hx hc => right_step h hx hc) (right_start h kind maximum hready) hallowed

def replaced : List (Command (Ledger Int)) :=
  [.ask {} (.ofNanos 35) (.previousEntries 2),
    .ask {} (.ofNanos 45) (.previousEntries 4),
    .clear,
    .move { Ledger.holding [15, 25, 35] with outages := [false, true] },
    .ask {} (.ofNanos 40) (.previousEntries 3),
    .ask {} (.ofNanos 40) (.previousEntries 3),
    .raiseMaximum 5,
    .move { Ledger.holding [5, 50] with epoch := 1, bound := some (.ofNanos 20) },
    .ask { future := true } (.ofNanos 60) (.previousEntry 1)]

theorem answers_as_direct_on_ledger :
    let o := Ledger.outlook Ledger.Open
    let x := start Ledger.view .windowed (some ⟨2, by decide⟩) (Ledger.holding [10, 20, 30, 40])
    Each (step Ledger.view o) (Agrees Ledger.view o) x replaced := by
  apply answers_as_direct (Ledger.reads_view Ledger.closed_open)
  · show Ledger.Open _
    decide
  · have hother : Ledger.Open { Ledger.holding [15, 25, 35] with outages := [false, true] } := by
      decide
    have hrevised : Ledger.Open
        { Ledger.holding [5, 50] with epoch := 1, bound := some (.ofNanos 20) } := by
      decide
    exact ⟨Or.inl rfl, Or.inr rfl, trivial, ⟨hother, Nat.le_refl 0⟩, Or.inl rfl, Or.inr rfl,
      trivial, ⟨hrevised, Nat.zero_le 1⟩, Or.inl rfl, trivial⟩

end Session
end Engine
end AsOf
