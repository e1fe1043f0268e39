import AsOf.Proofs.Engine
import AsOf.Proofs.Engine.Order
import AsOf.Proofs.Twin

/-!
# Engines after a reset

An engine over an archive whose calls go alike goes alike itself, from windows that are
the same and from windows that are of no use any more: empty ones, and those of an epoch that
has passed.  The first run that looks at the window finds both of them empty.  Nothing but the
reports reads the counters.
-/

namespace AsOf

variable {m : Type -> Type} [Monad m] {V W α β σ : Type} [Performs m W] {count : W -> Nat}
  {alike : W -> W -> Prop} {view : View m V} {w v : W}

structure View.Steadfast (view : View m V) (count : W -> Nat) (alike : W -> W -> Prop) :
    Prop where
  count_eq : forall w v, alike w v -> count w = count v
  lookup : forall key, Steady count alike alike (view.archive.lookup key).run
  previousKey : forall key, Steady count alike alike (view.archive.previousKey key)
  scanFrom : forall key, Steady count alike alike (view.archive.scanFrom key)
  pull : forall scan, Steady count alike alike (view.archive.pull scan)
  horizon : Steady count alike alike view.horizon.highest
  epoch : Steady count alike alike view.epoch.current
  current : forall w, After view.epoch.current w (fun n _ => n = count w)

/-!
## Requests of a view
-/

theorem steady_gather {pull : Pull m α σ} (hpull : forall s, Steady count alike alike (pull s))
    (wanted : α -> Bool) (n : Nat) (s : σ) :
    Steady count alike alike (Pull.gather pull wanted n s).run := by
  induction n generalizing s with
  | zero => exact steady_except_pure _
  | succ n ih =>
      unfold Pull.gather
      apply (hpull s).lift_bind
      intro r
      rcases r with ⟨_ | e | item, next⟩
      · exact steady_except_pure _
      · exact steady_except_throw _
      · dsimp only
        split
        · exact (ih next).except_bind fun _ => steady_except_pure _
        · exact steady_except_pure _

theorem steady_take {pull : Pull m α σ} (hpull : forall s, Steady count alike alike (pull s))
    (n : Nat) (s : σ) : Steady count alike alike (Pull.take pull n s).run :=
  (steady_gather hpull _ n s).except_map

namespace View.Steadfast

variable (h : view.Steadfast count alike) (options : Options) (key : Instant)

include h

theorem walk (walk : Walk) : Steady count alike alike (Walk.pull view.archive walk) := by
  unfold Walk.pull
  split
  · exact steady_pure _
  · rename_i key _
    apply (h.lookup key).bind
    intro r
    rcases r with e | _ | e
    · exact steady_pure _
    · exact steady_pure _
    · dsimp only
      split
      · exact steady_pure _
      · split
        · exact (h.previousKey e.key).bind fun _ => steady_pure _
        · exact steady_pure _

theorem adjust : Steady count alike alike (view.adjust options key) := by
  unfold View.adjust
  split
  · exact steady_pure _
  · exact h.horizon.bind fun _ => steady_pure _

theorem highest : Steady count alike alike (view.highest options) := by
  unfold View.highest
  split
  · exact steady_pure _
  · exact h.horizon

theorem entry : Steady count alike alike (view.entry options key).run := by
  unfold View.entry
  apply (h.adjust options key).lift_bind
  intro adjusted
  apply (h.lookup adjusted).except_bind
  intro found
  split
  · exact steady_except_throw _
  · exact steady_pure _

theorem trailing (adjusted : Instant) (size : Nat) :
    Steady count alike alike (view.trailing adjusted size).run :=
  steady_take h.walk size _

theorem furtherBack (adjusted : Instant) (size : Nat) (run : List (Entry V)) :
    Steady count alike alike (view.furtherBack adjusted size run).run := by
  unfold View.furtherBack
  split
  · exact steady_except_throw _
  · rename_i oldest _
    have hbefore : Steady count alike alike (Walk.before view.archive oldest.key size) :=
      (h.previousKey oldest.key).bind fun _ => steady_pure _
    exact hbefore.lift_bind fun walk => steady_take h.walk _ walk

theorem previousEntry (distance : Nat) :
    Steady count alike alike (view.previousEntry options key distance).run := by
  unfold View.previousEntry
  apply (h.adjust options key).lift_bind
  exact fun adjusted => (h.trailing adjusted _).except_bind fun _ => steady_except_pure _

theorem previousEntries (size : Nat) :
    Steady count alike alike (view.previousEntries options key size).run := by
  unfold View.previousEntries
  apply (h.adjust options key).lift_bind
  exact fun adjusted => (h.trailing adjusted size).except_bind fun _ => steady_except_pure _

theorem nextEntries (size : Nat) :
    Steady count alike alike (view.nextEntries options key size).run := by
  unfold View.nextEntries
  apply (h.highest options).lift_bind
  intro highest
  apply (h.adjust options key).lift_bind
  intro adjusted
  apply (h.scanFrom adjusted).lift_bind
  intro scan
  exact (steady_gather h.pull _ size scan).except_map

theorem nextEntry (distance : Nat) :
    Steady count alike alike (view.nextEntry options key distance).run :=
  (h.nextEntries options key _).except_bind fun _ => steady_except_pure _

end View.Steadfast

/-!
## Windows that differ in their counters
-/

namespace Windowed

variable {s t : State V} {a : Instant} {size : Nat}

namespace State

def uncounted (s : State V) : State V :=
  { s with counters := {}, bypassed := 0 }

theorem uncounted_growToFit (s : State V) (required : Nat) :
    (s.growToFit required).uncounted = (s.uncounted.growToFit required).uncounted := by
  have hsame : s.uncounted.maximum = s.maximum := rfl
  unfold growToFit
  rw [hsame]
  cases s.maximum with
  | none => rfl
  | some maximum =>
      dsimp only
      split <;> rfl

theorem uncounted_reshape (s : State V) (a : Instant) (run : List (Entry V)) :
    (s.reshape a run).uncounted = (s.uncounted.reshape a run).uncounted := by
  unfold reshape
  show uncounted (if run.isEmpty || (run.length == 1 && 1 < s.window.size) then s else _) =
    uncounted (if run.isEmpty || (run.length == 1 && 1 < s.window.size) then _ else _)
  split
  · rfl
  · exact congrArg (fun grown : State V => { grown with window := grown.window.replace a run })
      (s.uncounted_growToFit run.length)

theorem uncounted_append (s : State V) (a : Instant) (newer : List (Entry V)) (required : Nat) :
    (s.append a newer required).uncounted = (s.uncounted.append a newer required).uncounted :=
  congrArg (fun grown : State V =>
    let window := grown.window.extendNewer a newer
    { grown with window := grown.maximum.elim window window.trimOldest })
    (s.uncounted_growToFit required)

theorem uncounted_prepend (s : State V) (older : List (Entry V)) (required : Nat) :
    (s.prepend older required).uncounted = (s.uncounted.prepend older required).uncounted :=
  congrArg (fun grown : State V =>
    let window := grown.window.extendOlder older
    { grown with window := grown.maximum.elim window window.trimNewest })
    (s.uncounted_growToFit required)

end State

theorem State.read_eq {β : Type} (hst : s.uncounted = t.uncounted) (f : State V -> β)
    (hread : forall s, f s.uncounted = f s) : f s = f t := by
  rw [← hread s, hst, hread t]

theorem State.window_eq (hst : s.uncounted = t.uncounted) : s.window = t.window :=
  read_eq hst State.window fun _ => rfl

structure Outcomes (epoch : Nat) (out out' : Outcome V) : Prop where
  run : out.1 = out'.1
  state : out.2.uncounted = out'.2.uncounted
  epoch : out.2.epoch = epoch

theorem outcomes_reshape (hst : s.uncounted = t.uncounted) (a : Instant) (run : List (Entry V)) :
    Outcomes s.epoch (run, s.reshape a run) (run, t.reshape a run) where
  run := rfl
  state := by
    show (s.reshape a run).uncounted = (t.reshape a run).uncounted
    rw [s.uncounted_reshape, hst, ← t.uncounted_reshape]
  epoch := s.epoch_reshape a run

theorem outcomes_append (hst : s.uncounted = t.uncounted) (a : Instant)
    (run newer : List (Entry V)) (required : Nat) :
    Outcomes s.epoch (run, s.append a newer required) (run, t.append a newer required) where
  run := rfl
  state := by
    show (s.append a newer required).uncounted = (t.append a newer required).uncounted
    rw [s.uncounted_append, hst, ← t.uncounted_append]
  epoch := s.epoch_append a newer required

theorem outcomes_prepend (hst : s.uncounted = t.uncounted) (run older : List (Entry V))
    (required : Nat) :
    Outcomes s.epoch (run, s.prepend older required) (run, t.prepend older required) where
  run := rfl
  state := by
    show (s.prepend older required).uncounted = (t.prepend older required).uncounted
    rw [s.uncounted_prepend, hst, ← t.uncounted_prepend]
  epoch := s.epoch_prepend older required

def Together (count : W -> Nat) (alike : W -> W -> Prop) (epoch : Nat)
    (x y : ExceptT QueryError m (Outcome V)) (w v : W) : Prop :=
  Twin (Matched (Outcomes epoch)) (fun w' v' => alike w' v' ∧ count w ≤ count w') x.run y.run w v

theorem Together.pure {epoch : Nat} {out out' : Outcome V} (hout : Outcomes epoch out out')
    (hw : alike w v) :
    Together count alike epoch (pure out : ExceptT QueryError m _) (pure out') w v :=
  twin_pure hout ⟨hw, Nat.le_refl _⟩

theorem Together.bind {epoch : Nat} {x : ExceptT QueryError m α}
    {f g : α -> ExceptT QueryError m (Outcome V)} (hx : Steady count alike alike x.run)
    (hw : alike w v)
    (hf : forall a w v, alike w v -> Together count alike epoch (f a) (g a) w v) :
    Together count alike epoch (x >>= f) (x >>= g) w v := by
  have hmatched := hx w v hw
  refine Twin.except_bind ⟨matched_of_eq hmatched.1, hmatched.2⟩ (fun _ _ hpost => hpost) ?_
  intro a b w' v' hab hpost
  cases hab
  exact (hf a w' v' hpost.1).imp fun _ _ hpost' => ⟨hpost'.1, Nat.le_trans hpost.2 hpost'.2⟩

section Runs

variable (h : view.Steadfast count alike) (hst : s.uncounted = t.uncounted) (hw : alike w v)

include h hst hw

theorem together_runAtSame :
    Together count alike s.epoch (runAtSame view a size s) (runAtSame view a size t) w v := by
  unfold runAtSame
  rw [State.window_eq hst]
  dsimp only
  split
  · apply Together.bind (h.furtherBack a size _) hw
    intro older w v hw
    split
    · exact .pure ⟨rfl, hst, rfl⟩ hw
    · exact .pure (outcomes_reshape (s := s.countPartialHit) (t := t.countPartialHit) hst a _) hw
  · exact .pure ⟨rfl, hst, rfl⟩ hw

theorem together_runOnto (newer : List (Entry V)) :
    Together count alike s.epoch (runOnto view newer a size s) (runOnto view newer a size t)
      w v := by
  unfold runOnto
  rw [State.window_eq hst]
  dsimp only
  split
  · apply Together.bind (h.furtherBack a size _) hw
    intro older w v hw
    exact .pure (outcomes_reshape (s := s.countPartialHit) (t := t.countPartialHit) hst a _) hw
  · refine .pure ?_ hw
    split
    · exact outcomes_append (s := s.countHit) (t := t.countHit) hst a _ newer _
    · exact outcomes_append (s := s.countPartialHit) (t := t.countPartialHit) hst a _ newer _

theorem together_runAfter (newest : Instant) :
    Together count alike s.epoch (runAfter view newest a size s) (runAfter view newest a size t)
      w v := by
  unfold runAfter
  apply Together.bind (steady_gather h.walk _ size _) hw
  intro r w v hw
  dsimp only
  split
  · exact together_runOnto h hst hw r.1
  · exact .pure (outcomes_reshape (s := s.countMiss) (t := t.countMiss) hst a r.1) hw

theorem together_runInside :
    Together count alike s.epoch (runInside view a size s) (runInside view a size t) w v := by
  unfold runInside
  rw [State.window_eq hst]
  dsimp only
  split
  · apply Together.bind (h.furtherBack a size _) hw
    intro older w v hw
    split
    · exact .pure ⟨rfl, hst, rfl⟩ hw
    · exact .pure (outcomes_prepend (s := s.countPartialHit) (t := t.countPartialHit) hst _ older _)
        hw
  · exact .pure ⟨rfl, hst, rfl⟩ hw

theorem together_runOutside :
    Together count alike s.epoch (runOutside view a size s) (runOutside view a size t) w v := by
  unfold runOutside
  apply Together.bind (h.trailing a size) hw
  intro run w v hw
  exact .pure (outcomes_reshape hst a run) hw

end Runs

/-!
## Windows that are of no use
-/

structure Close (count : W -> Nat) (alike : W -> W -> Prop) (p q : State V × W) : Prop where
  below : alike p.2 q.2
  memory : p.1.uncounted = q.1.uncounted
  epoch : p.1.epoch ≤ count p.2

def Lapsed (count : W -> Nat) (p : State V × W) : Prop :=
  p.1.epoch < count p.2 ∨ p.1.window = .empty

/-- States of one maximum that the next run cannot tell apart. -/
structure Renewed (count : W -> Nat) (alike : W -> W -> Prop) (p q : State V × W) : Prop where
  below : alike p.2 q.2
  maximum : p.1.maximum = q.1.maximum
  epoch : p.1.epoch ≤ count p.2 ∧ q.1.epoch ≤ count q.2
  window : p.1.window = q.1.window ∧ p.1.epoch = q.1.epoch ∨ Lapsed count p ∧ Lapsed count q

theorem Close.renewed {p q : State V × W} (hcount : forall w v, alike w v -> count w = count v)
    (hpq : Close count alike p q) : Renewed count alike p q where
  below := hpq.below
  maximum := State.read_eq hpq.memory State.maximum fun _ => rfl
  epoch := by
    rw [← State.read_eq hpq.memory State.epoch fun _ => rfl, ← hcount _ _ hpq.below]
    exact ⟨hpq.epoch, hpq.epoch⟩
  window := Or.inl ⟨State.window_eq hpq.memory, State.read_eq hpq.memory State.epoch fun _ => rfl⟩

theorem Renewed.change {p q : State V × W} {g : State V -> State V}
    (h : Renewed count alike p q) (hmaximum : (g p.1).maximum = (g q.1).maximum)
    (hepoch : forall s, (g s).epoch = s.epoch) (hwindow : forall s, (g s).window = s.window) :
    Renewed count alike (g p.1, p.2) (g q.1, q.2) where
  below := h.below
  maximum := hmaximum
  epoch := by
    show (g p.1).epoch ≤ count p.2 ∧ (g q.1).epoch ≤ count q.2
    rw [hepoch, hepoch]
    exact h.epoch
  window := by
    unfold Lapsed
    dsimp only
    rw [hepoch, hepoch, hwindow, hwindow]
    exact h.window

theorem Renewed.later {p q : State V × W} (h : Renewed count alike p q) (hbelow : alike w v)
    (hp : count p.2 ≤ count w) (hq : count q.2 ≤ count v) :
    Renewed count alike (p.1, w) (q.1, v) where
  below := hbelow
  maximum := h.maximum
  epoch := ⟨Nat.le_trans h.epoch.1 hp, Nat.le_trans h.epoch.2 hq⟩
  window := h.window.imp id fun hlapsed =>
    ⟨hlapsed.1.imp (fun hlt => Nat.lt_of_lt_of_le hlt hp) id,
      hlapsed.2.imp (fun hlt => Nat.lt_of_lt_of_le hlt hq) id⟩

theorem State.epoch_observeEpoch (s : State V) (n : Nat) : (s.observeEpoch n).epoch = n := by
  unfold State.observeEpoch
  split
  · rename_i heq
    exact heq.symm
  · rfl

theorem State.maximum_observeEpoch (s : State V) (n : Nat) :
    (s.observeEpoch n).maximum = s.maximum := by
  unfold State.observeEpoch
  split <;> rfl

theorem State.uncounted_congr (hwindow : s.window = t.window) (hmaximum : s.maximum = t.maximum)
    (hepoch : s.epoch = t.epoch) : s.uncounted = t.uncounted := by
  unfold uncounted
  rw [hwindow, hmaximum, hepoch]

theorem Lapsed.window_observeEpoch {w : W} (h : Lapsed count (s, w)) :
    (s.observeEpoch (count w)).window = .empty := by
  unfold State.observeEpoch
  split
  · rename_i heq
    exact h.resolve_left fun hlt => Nat.ne_of_gt hlt heq
  · rfl

theorem Renewed.observed (h : Renewed count alike (s, w) (t, v)) (hcount : count w = count v) :
    (s.observeEpoch (count w)).uncounted = (t.observeEpoch (count w)).uncounted := by
  apply State.uncounted_congr
  · rcases h.window with ⟨hwindow, hepoch⟩ | ⟨hs, ht⟩
    · have hwindow : s.window = t.window := hwindow
      have hepoch : s.epoch = t.epoch := hepoch
      unfold State.observeEpoch
      rw [hepoch]
      split
      · exact hwindow
      · rfl
    · rw [hs.window_observeEpoch, hcount, ht.window_observeEpoch]
  · rw [State.maximum_observeEpoch, State.maximum_observeEpoch]
    exact h.maximum
  · rw [State.epoch_observeEpoch, State.epoch_observeEpoch]

theorem perform_sync (view : View m V) (s : State V) (w : W) :
    perform (sync view) (s, w) =
      let e := perform view.epoch.current w
      (⟨⟩, s.observeEpoch e.1, e.2) := by
  apply perform_eq
  unfold sync
  simp only [after_bind, after_state_monadLift, after_state_modify]
  exact rfl

theorem steady_commit {step : State V -> ExceptT QueryError m (Outcome V)}
    (hstep : forall s t w v, s.uncounted = t.uncounted -> alike w v ->
      Together count alike s.epoch (step s) (step t) w v) :
    Steady (count ∘ Prod.snd) (Close count alike) (Close count alike) (commit step).run := by
  have hset : forall (out : Outcome V) (p : State V × W), perform (do
      set out.2
      return out.1 : Request m (State V) (List (Entry V))).run p = (.ok out.1, out.2, p.2) := by
    intro out p
    rcases p with ⟨s, w⟩
    apply perform_eq
    exact after_except_bind.mpr (after_request_set.mpr (after_except_pure.mpr rfl))
  intro p q hpq
  rcases p with ⟨s, w⟩
  rcases q with ⟨t, v⟩
  have hhanded := (hstep s t w v hpq.memory hpq.below).handOn s t
  have hcommit : Twin (Matched Eq) (fun p' q' => Close count alike p' q' ∧ count w ≤ count p'.2)
      (commit step).run (commit step).run (s, w) (t, v) := by
    unfold commit
    apply Twin.get_bind
    refine Twin.except_bind hhanded ?_ ?_
    · intro p' q' hpost
      rcases p' with ⟨_, w'⟩
      rcases q' with ⟨_, v'⟩
      rcases hpost with ⟨rfl, rfl, hbelow, hle⟩
      exact ⟨⟨hbelow, hpq.memory, Nat.le_trans hpq.epoch hle⟩, hle⟩
    · intro out out' p' q' hout hpost
      rcases hpost with ⟨-, -, hbelow, hle⟩
      show Twin _ _ (do set out.2; return out.1 : Request m (State V) (List (Entry V))).run
        (do set out'.2; return out'.1 : Request m (State V) (List (Entry V))).run p' q'
      unfold Twin
      rw [hset, hset]
      refine ⟨hout.run, ⟨hbelow, hout.state, ?_⟩, hle⟩
      show out.2.epoch ≤ count p'.2
      rw [hout.epoch]
      exact Nat.le_trans hpq.epoch hle
  exact ⟨hcommit.1.eq, hcommit.2⟩

section Requests

variable (h : view.Steadfast count alike) (options : Options) (key : Instant)

include h

theorem steady_call {x : m α} (hx : Steady count alike alike x) :
    Steady (count ∘ Prod.snd) (Renewed count alike) (Renewed count alike)
      (StateT.lift x : StateT (State V) m α) := by
  apply steady_lift
  intro p q hpq
  apply (hx p.2 q.2 hpq.below).imp
  intro w v hpost
  rcases hpost with ⟨hbelow, hle⟩
  refine ⟨hpq.later hbelow hle ?_, hle⟩
  rw [← h.count_eq _ _ hpq.below, ← h.count_eq _ _ hbelow]
  exact hle

theorem steady_sync :
    Steady (count ∘ Prod.snd) (Renewed count alike) (Close count alike)
      (sync view : StateT (State V) m Unit) := by
  intro p q hpq
  rcases p with ⟨s, w⟩
  rcases q with ⟨t, v⟩
  rcases h.epoch w v hpq.below with ⟨hsame, hbelow, hle⟩
  have hcurrent : (perform view.epoch.current w).1 = count w := h.current w
  unfold Twin
  rw [perform_sync, perform_sync]
  dsimp only
  rw [← hsame, hcurrent]
  refine ⟨rfl, ⟨hbelow, hpq.observed (h.count_eq w v hpq.below), ?_⟩, hle⟩
  show (s.observeEpoch (count w)).epoch ≤ _
  rw [State.epoch_observeEpoch]
  exact hle

theorem steady_run (size : Nat) :
    Steady (count ∘ Prod.snd) (Renewed count alike) (Renewed count alike)
      (run view options key size).run := by
  have hplace : forall (adjusted : Instant) (place : Place),
      Steady (count ∘ Prod.snd) (Close count alike) (Close count alike)
        (commit (runAt view adjusted size place)).run := by
    intro adjusted place
    apply steady_commit
    intro s t w v hst hw
    cases place with
    | same => exact together_runAtSame h hst hw
    | after newest => exact together_runAfter h hst hw newest
    | inside => exact together_runInside h hst hw
    | outside => exact together_runOutside h hst hw
  unfold run
  apply (steady_call h (h.adjust options key)).lift_bind
  intro adjusted
  apply (steady_sync h).lift_bind
  intro _
  refine (steady_reading State.uncounted (fun _ => rfl) (fun _ _ hpq => hpq.memory)
    fun s => ?_).imp (fun _ _ hpq => hpq) fun _ _ hpq => Close.renewed h.count_eq hpq
  split
  · exact hplace adjusted .same
  · exact hplace adjusted (.after _)
  · exact hplace adjusted .inside
  · have hcount : Steady (m := StateT (State V) m) (count ∘ Prod.snd) (Close count alike)
        (Close count alike) (modify State.countMiss) :=
      steady_modify fun p q hpq => ⟨hpq.below, hpq.memory, hpq.epoch⟩
    exact hcount.lift_bind fun _ => hplace adjusted .outside

theorem steady_bypass {request : ExceptT QueryError m α}
    (hrequest : Steady count alike alike request.run) :
    Steady (count ∘ Prod.snd) (Renewed count alike) (Renewed count alike)
      (bypass request : Request m (State V) α).run := by
  have hcount : Steady (m := StateT (State V) m) (count ∘ Prod.snd) (Renewed count alike)
      (Renewed count alike) (modify State.countBypass) :=
    steady_modify fun p q hpq => hpq.change hpq.maximum (fun _ => rfl) fun _ => rfl
  exact hcount.lift_bind fun _ => steady_call h hrequest

theorem steady_entry :
    Steady (count ∘ Prod.snd) (Renewed count alike) (Renewed count alike)
      (entry view options key).run :=
  steady_bypass h (h.entry options key)

theorem steady_previousEntry (distance : Nat) :
    Steady (count ∘ Prod.snd) (Renewed count alike) (Renewed count alike)
      (previousEntry view options key distance).run := by
  unfold previousEntry
  split
  · exact steady_bypass h (h.previousEntry options key 0)
  · exact (steady_run h options key _).except_bind fun _ => steady_except_pure _

theorem steady_previousEntries (size : Nat) :
    Steady (count ∘ Prod.snd) (Renewed count alike) (Renewed count alike)
      (previousEntries view options key size).run := by
  unfold previousEntries
  split
  · exact steady_except_pure _
  · exact steady_bypass h (h.previousEntry options key 0).except_map
  · exact (steady_run h options key _).except_bind fun _ => steady_except_pure _

end Requests

end Windowed

/-!
## Engines of either kind
-/

namespace Engine

inductive Renewed (count : W -> Nat) (alike : W -> W -> Prop) :
    Kind -> State V × W -> State V × W -> Prop where
  | direct {n k : Nat} {w v : W} (below : alike w v) :
      Renewed count alike .direct (.direct n, w) (.direct k, v)
  | windowed {s t : Windowed.State V} {w v : W}
      (renewed : Windowed.Renewed count alike (s, w) (t, v)) :
      Renewed count alike .windowed (.windowed s, w) (.windowed t, v)

section Dispatch

variable {direct : ExceptT QueryError m α} {windowed : Request m (Windowed.State V) α}

theorem perform_dispatch_direct (n : Nat) (w : W) :
    perform (dispatch direct windowed).run (.direct n, w) =
      ((perform direct.run w).1, .direct (n + 1), (perform direct.run w).2) :=
  perform_eq (after_dispatch_direct.mpr rfl)

theorem perform_dispatch_windowed (s : Windowed.State V) (w : W) :
    perform (dispatch direct windowed).run (.windowed s, w) =
      let r := perform windowed.run (s, w)
      (r.1, .windowed r.2.1, r.2.2) :=
  perform_eq (after_dispatch_windowed.mpr rfl)

end Dispatch

/-- Engines under a relation that holds of each kind apart are dispatched alike. -/
theorem steady_dispatch {kind : Kind} {direct : ExceptT QueryError m α}
    {windowed : Request m (Windowed.State V) α}
    (hdirect : Steady count alike alike direct.run)
    (hwindowed : Steady (count ∘ Prod.snd) (Windowed.Renewed count alike)
      (Windowed.Renewed count alike) windowed.run) :
    Steady (count ∘ Prod.snd) (Renewed count alike kind) (Renewed count alike kind)
      (dispatch direct windowed).run := by
  intro p q hpq
  cases hpq with
  | @direct n k w v below =>
      rcases hdirect w v below with ⟨hanswer, hbelow, hle⟩
      unfold Twin
      rw [perform_dispatch_direct, perform_dispatch_direct]
      exact ⟨hanswer, .direct hbelow, hle⟩
  | @windowed s t w v renewed =>
      rcases hwindowed _ _ renewed with ⟨hanswer, hrenewed, hle⟩
      unfold Twin
      rw [perform_dispatch_windowed, perform_dispatch_windowed]
      exact ⟨hanswer, .windowed hrenewed, hle⟩

section Requests

variable {kind : Kind} (h : view.Steadfast count alike) (options : Options) (key : Instant)

include h

theorem steady_entry :
    Steady (count ∘ Prod.snd) (Renewed count alike kind) (Renewed count alike kind)
      (entry view options key).run :=
  steady_dispatch (h.entry options key) (Windowed.steady_entry h options key)

theorem steady_previousEntry (distance : Nat) :
    Steady (count ∘ Prod.snd) (Renewed count alike kind) (Renewed count alike kind)
      (previousEntry view options key distance).run :=
  steady_dispatch (h.previousEntry options key distance)
    (Windowed.steady_previousEntry h options key distance)

theorem steady_previousEntries (size : Nat) :
    Steady (count ∘ Prod.snd) (Renewed count alike kind) (Renewed count alike kind)
      (previousEntries view options key size).run :=
  steady_dispatch (h.previousEntries options key size)
    (Windowed.steady_previousEntries h options key size)

theorem steady_nextEntry (distance : Nat) :
    Steady (count ∘ Prod.snd) (Renewed count alike kind) (Renewed count alike kind)
      (nextEntry view options key distance).run :=
  steady_dispatch (h.nextEntry options key distance)
    (Windowed.steady_call h (h.nextEntry options key distance))

theorem steady_nextEntries (size : Nat) :
    Steady (count ∘ Prod.snd) (Renewed count alike kind) (Renewed count alike kind)
      (nextEntries view options key size).run :=
  steady_dispatch (h.nextEntries options key size)
    (Windowed.steady_call h (h.nextEntries options key size))

end Requests

/-!
## Changes of an engine
-/

theorem Renewed.below {kind : Kind} {p q : State V × W} (h : Renewed count alike kind p q) :
    alike p.2 q.2 := by
  cases h with
  | direct below => exact below
  | windowed renewed => exact renewed.below

theorem Renewed.maximum_eq {kind : Kind} {p q : State V × W}
    (h : Renewed count alike kind p q) : p.1.maximum = q.1.maximum := by
  cases h with
  | direct below => rfl
  | windowed renewed => exact renewed.maximum

theorem Renewed.later {kind : Kind} {p q : State V × W} (h : Renewed count alike kind p q)
    (hbelow : alike w v) (hp : count p.2 ≤ count w) (hq : count q.2 ≤ count v) :
    Renewed count alike kind (p.1, w) (q.1, v) := by
  cases h with
  | direct below => exact .direct hbelow
  | windowed renewed => exact .windowed (renewed.later hbelow hp hq)

theorem steady_lift {kind : Kind} (hcount : forall w v, alike w v -> count w = count v) {x : m α}
    (hx : Steady count alike alike x) :
    Steady (count ∘ Prod.snd) (Renewed count alike kind) (Renewed count alike kind)
      (StateT.lift x : StateT (State V) m α) := by
  apply AsOf.steady_lift
  intro p q hpq
  apply (hx p.2 q.2 hpq.below).imp
  intro w v hpost
  rcases hpost with ⟨hbelow, hle⟩
  refine ⟨hpq.later hbelow hle ?_, hle⟩
  rw [← hcount _ _ hpq.below, ← hcount _ _ hbelow]
  exact hle

theorem Renewed.raiseMaximum {kind : Kind} {p q : State V × W}
    (h : Renewed count alike kind p q) (size : Nat) :
    Renewed count alike kind (p.1.raiseMaximum size, p.2) (q.1.raiseMaximum size, q.2) := by
  cases h with
  | direct below => exact .direct below
  | windowed renewed =>
      refine .windowed (renewed.change (g := (·.raiseMaximum size)) ?_ (fun _ => rfl) fun _ => rfl)
      exact congrArg (Option.map fun maximum => max maximum size) renewed.maximum

theorem Renewed.clear {kind : Kind} {p q : State V × W} (h : Renewed count alike kind p q) :
    Renewed count alike kind (p.1.clear, p.2) (q.1.clear, q.2) := by
  cases h with
  | direct below => exact .direct below
  | windowed renewed =>
      exact .windowed ⟨renewed.below, renewed.maximum, renewed.epoch, Or.inr ⟨Or.inr rfl,
        Or.inr rfl⟩⟩

end Engine
end AsOf
