import AsOf.Proofs.Engine.Course

/-!
# Failed requests are undone

A request that fails leaves window, anchor and maximum as they were, wherever in its walk the
archive failed; only a window of a past epoch is gone.  An engine goes on from there as if
it had not been asked.  Of the view nothing is assumed but that its calls do not turn the epoch
back.
-/

namespace AsOf

variable {m : Type -> Type} [Monad m] {V W : Type} [Performs m W] {count : W -> Nat} {w : W}

/-- A view whose calls do not lower a count, which is the count that its epoch names. -/
structure View.Forward (view : View m V) (count : W -> Nat) : Prop where
  lookup : forall key, Onward count (view.archive.lookup key).run
  previousKey : forall key, Onward count (view.archive.previousKey key)
  scanFrom : forall key, Onward count (view.archive.scanFrom key)
  pull : forall scan, Onward count (view.archive.pull scan)
  horizon : Onward count view.horizon.highest
  epoch : forall w, After view.epoch.current w (fun n w' => n = count w ∧ count w ≤ count w')

theorem Onward.steady {α : Type} {x : m α} (h : Onward count x) : Steady count Eq Eq x := by
  intro w v hwv
  cases hwv
  exact ⟨rfl, rfl, h w⟩

theorem View.Forward.steadfast {view : View m V} (h : view.Forward count) :
    view.Steadfast count Eq where
  count_eq _ _ hwv := congrArg count hwv
  lookup key := (h.lookup key).steady
  previousKey key := (h.previousKey key).steady
  scanFrom key := (h.scanFrom key).steady
  pull scan := (h.pull scan).steady
  horizon := h.horizon.steady
  epoch := Onward.steady fun w => (h.epoch w).2
  current w := (h.epoch w).1

namespace Windowed

variable {s t : State V}

/-- What a failed request leaves: everything, but no window of an epoch that has passed. -/
structure Undone (passed : Prop) (s t : State V) : Prop where
  maximum : t.maximum = s.maximum
  window : ¬ passed -> t.window = s.window
  cleared : passed -> t.window = .empty

theorem undone_onset (view : View m V) (options : Options) (key : Instant) (s : State V) (w : W) :
    Undone ((seen view options key w).1 ≠ s.epoch) s (s.onset view options key w) := by
  have hwindow : (s.onset view options key w).window = _ := s.window_entered _ _
  constructor
  · exact s.maximum_entered _ _
  · intro hsame
    rw [hwindow, if_pos (Classical.not_not.mp hsame)]
  · intro hpassed
    rw [hwindow, if_neg hpassed]

theorem le_seen {view : View m V} (h : view.Steadfast count Eq) (options : Options) (key : Instant)
    (w : W) : count w ≤ (seen view options key w).1 := by
  have hadjust := (h.adjust options key w w rfl).2.2
  have hcurrent := h.current (perform (view.adjust options key) w).2
  exact Nat.le_trans hadjust (Nat.le_of_eq (Eq.symm hcurrent))

theorem renewed_onset {view : View m V} (h : view.Steadfast count Eq) {options : Options}
    {key : Instant} {w w' : W} (hs : s.epoch ≤ count w)
    (ht : (s.onset view options key w).epoch ≤ count w') :
    Renewed count Eq (s.onset view options key w, w') (s, w') := by
  have hepoch : (s.onset view options key w).epoch = (seen view options key w).1 :=
    s.epoch_entered _ _
  have hle := Nat.le_trans hs (le_seen h options key w)
  have hundone := undone_onset view options key s w
  rw [hepoch] at ht
  refine ⟨rfl, hundone.maximum, ⟨hepoch ▸ ht, Nat.le_trans hle ht⟩, ?_⟩
  by_cases hpassed : (seen view options key w).1 ≠ s.epoch
  · have hlt : s.epoch < (seen view options key w).1 :=
      Nat.lt_of_le_of_ne hle (Ne.symm hpassed)
    exact Or.inr ⟨Or.inr (hundone.cleared hpassed), Or.inl (Nat.lt_of_lt_of_le hlt ht)⟩
  · exact Or.inl ⟨hundone.window hpassed, hepoch.trans (Classical.not_not.mp hpassed)⟩

end Windowed

namespace Engine

open Windowed

variable {view : View m V} {p p' : State V × W} {q : Question} {options : Options} {key : Instant}

namespace Question

theorem steady_put (h : view.Steadfast count Eq) (kind : Kind) (options : Options) (key : Instant)
    (q : Question) :
    Steady (count ∘ Prod.snd) (Renewed count Eq kind) (Renewed count Eq kind)
      (q.put view options key).run := by
  cases q with
  | entry => exact steady_entry h options key
  | previousEntry distance => exact steady_previousEntry h options key distance
  | previousEntries size => exact steady_previousEntries h options key size
  | nextEntry distance => exact steady_nextEntry h options key distance
  | nextEntries size => exact steady_nextEntries h options key size

/-- What a failed question leaves, given whether it looked at the window in a new epoch. -/
theorem undone_put (view : View m V) (options : Options) (key : Instant) (q : Question)
    (s : Windowed.State V) (w : W) :
    After (q.put view options key).run (.windowed s, w) (fun r p' => forall e, r = .error e ->
      exists t, p'.1 = .windowed t ∧
        Undone (¬ q.Idle ∧ (seen view options key w).1 ≠ s.epoch) s t ∧
        (t.uncounted = s.uncounted ∨ t = s.onset view options key w)) := by
  cases hreach : q.reach with
  | none =>
      have hidle := reach_eq_none_iff.mp hreach
      apply After.imp (uncounted_put_of_idle view options key hidle s w)
      intro r p' ht e _
      rcases ht with ⟨t, ht, huncounted⟩
      have hundone : Undone (¬ q.Idle ∧ (seen view options key w).1 ≠ s.epoch) s t :=
        ⟨State.maximum_eq huncounted, fun _ => State.window_eq huncounted,
          fun hpassed => absurd hidle hpassed.1⟩
      exact ⟨t, ht, hundone, Or.inl huncounted⟩
  | some size =>
      have hbusy : ¬ q.Idle := by
        intro hidle
        rw [reach_eq_none_iff.mpr hidle] at hreach
        cases hreach
      have honset := undone_onset view options key s w
      unfold After
      rw [perform_put_outcome view hreach]
      intro e he
      dsimp only at he ⊢
      generalize outcome view options key size s w = result at he ⊢
      rcases result with ⟨r, w'⟩
      cases r with
      | ok out => cases he
      | error e' =>
          refine ⟨_, rfl, ⟨honset.maximum, fun hsame => ?_, fun hpassed => ?_⟩, Or.inr rfl⟩
          · exact honset.window fun hne => hsame ⟨hbusy, hne⟩
          · exact honset.cleared hpassed.2

end Question

namespace Command

/-!
## Runs of commands
-/

def heard (view : View m V) (p : State V × W) :
    Command W -> Option ((q : Question) × Except QueryError (q.Reply V))
  | ask options key q => some ⟨q, (perform (q.put view options key).run p).1⟩
  | clear | raiseMaximum _ | move _ => none

def transcript (view : View m V) (p : State V × W) :
    List (Command W) -> List (Option ((q : Question) × Except QueryError (q.Reply V))) × W
  | [] => ([], p.2)
  | c :: rest =>
      let later := transcript view (c.carryOut view p) rest
      (c.heard view p :: later.1, later.2)

def Forth (count : W -> Nat) (p : State V × W) : Command W -> Prop
  | move w => count p.2 ≤ count w
  | _ => True

theorem renewed_carryOut (h : view.Steadfast count Eq) {kind : Kind}
    (hpq : Renewed count Eq kind p p') {c : Command W} (hforth : Forth count p c) :
    c.heard view p = c.heard view p' ∧
      Renewed count Eq kind (c.carryOut view p) (c.carryOut view p') := by
  cases c with
  | ask options key q =>
      rcases q.steady_put h kind options key p p' hpq with ⟨hreply, hrenewed, -⟩
      constructor
      · show some (Sigma.mk q _) = some (Sigma.mk q _)
        rw [hreply]
      · exact hrenewed
  | clear => exact ⟨rfl, hpq.clear⟩
  | raiseMaximum size => exact ⟨rfl, hpq.raiseMaximum size⟩
  | move w => exact ⟨rfl, hpq.later rfl hforth (hpq.below ▸ hforth)⟩

/-- Engines that no request can tell apart go on alike. -/
theorem transcript_eq (h : view.Steadfast count Eq) {kind : Kind}
    (hpq : Renewed count Eq kind p p') {commands : List (Command W)}
    (hforth : Each (carryOut view) (Forth count) p commands) :
    transcript view p commands = transcript view p' commands := by
  induction commands generalizing p p' with
  | nil => exact congrArg (Prod.mk []) hpq.below
  | cons c rest ih =>
      rcases renewed_carryOut h hpq hforth.1 with ⟨hheard, hlater⟩
      unfold transcript
      rw [hheard, ih hlater hforth.2]

/-!
## Failures
-/

/--
If a question fails, the window and the maximum are as they were, but for a window of an epoch
that has passed; and whatever is asked later, from the same world on, is answered as if the
question had not been put.
-/
def Atomic (view : View m V) (count : W -> Nat) (p : State V × W) : Command W -> Prop
  | ask options key q => After (q.put view options key).run p (fun r p' =>
      forall e, r = .error e ->
        (exists s t, p.1 = .windowed s ∧ p'.1 = .windowed t ∧
          Undone (¬ q.Idle ∧ (seen view options key p.2).1 ≠ s.epoch) s t) ∧
        forall later, Each (carryOut view) (Forth count) p' later ->
          transcript view p' later = transcript view (p.1, p'.2) later)
  | _ => True

theorem atomic_carryOut (h : view.Steadfast count Eq) (hp : Renewed count Eq .windowed p p)
    (c : Command W) : Atomic view count p c := by
  cases c with
  | ask options key q =>
      rcases p with ⟨engine, w⟩
      cases hp with
      | @windowed s _ _ _ hs =>
          have hafter := (q.steady_put h .windowed options key _ _ (.windowed hs)).2
          have hundone := q.undone_put view options key s w
          unfold Atomic After at *
          intro e he
          rcases hundone e he with ⟨t, ht, hleft, hsame⟩
          refine ⟨⟨s, t, rfl, ht, hleft⟩, fun later hforth => ?_⟩
          rcases hafter with ⟨hrenewed, hle⟩
          generalize (perform (q.put view options key).run (.windowed s, w)).2 = p'
            at ht hrenewed hle hforth ⊢
          rcases p' with ⟨engine, w'⟩
          cases ht
          have hback : Renewed count Eq .windowed (.windowed t, w') (.windowed s, w') := by
            cases hrenewed with
            | windowed ht =>
                rcases hsame with huncounted | rfl
                · exact .windowed (Close.renewed h.count_eq ⟨rfl, huncounted, ht.epoch.1⟩)
                · exact .windowed (renewed_onset h hs.epoch.1 ht.epoch.1)
          exact transcript_eq h hback hforth
  | clear => trivial
  | raiseMaximum size => trivial
  | move w => trivial

theorem renewed_start (h : view.Forward count) (maximum : Option Positive) (w : W) :
    After (start view .windowed maximum) w (fun engine w' =>
      Renewed count Eq .windowed (engine, w') (engine, w')) := by
  apply after_bind.mpr
  apply After.imp (h.epoch w)
  intro n w' hn
  rcases hn with ⟨rfl, hle⟩
  exact after_pure.mpr (.windowed ⟨rfl, rfl, ⟨hle, hle⟩, Or.inl ⟨rfl, rfl⟩⟩)

/--
Over every archive, whatever it answers and wherever it fails: a request that fails is undone.
The window, its anchor and the maximum are as they were before it, except that a window of an
epoch that has passed is gone, and nothing that is asked later tells whether it was made.
-/
theorem failures_undone (h : view.Forward count) (maximum : Option Positive) (w : W)
    {commands : List (Command W)}
    (hforth : Each (carryOut view) (Forth count) (perform (start view .windowed maximum) w)
      commands) :
    Each (carryOut view) (Atomic view count) (perform (start view .windowed maximum) w) commands :=
  each_of_kept
    (fun _ c hp hc => ⟨atomic_carryOut h.steadfast hp c, (renewed_carryOut h.steadfast hp hc).2⟩)
    (renewed_start h maximum w) hforth

theorem forward_ledger : (Ledger.view : View _ Int).Forward Ledger.epoch where
  lookup _ _ := Nat.le_refl _
  previousKey _ _ := Nat.le_refl _
  scanFrom _ _ := Nat.le_refl _
  pull _ _ := Nat.le_refl _
  horizon _ := Nat.le_refl _
  epoch _ := ⟨rfl, Nat.le_refl _⟩

def failing : List (Command (Ledger Int)) :=
  [.ask {} (.ofNanos 25) (.previousEntries 2),
    .move { Ledger.holding [10, 20, 30, 40] with outages := [true, false, true] },
    .ask {} (.ofNanos 25) (.previousEntries 3),
    .ask {} (.ofNanos 45) (.previousEntries 4),
    .ask {} (.ofNanos 45) (.previousEntry 2),
    .move { Ledger.holding [10, 20, 30, 40] with outages := [true], epoch := 1 },
    .ask {} (.ofNanos 35) (.previousEntries 2),
    .ask {} (.ofNanos 15) .entry]

theorem failures_undone_on_ledger :
    let p := perform (start Ledger.view .windowed (some ⟨2, by decide⟩))
      (Ledger.holding [10, 20, 30, 40])
    Each (carryOut Ledger.view) (Atomic Ledger.view Ledger.epoch) p failing := by
  apply failures_undone forward_ledger
  exact ⟨trivial, Nat.zero_le _, trivial, trivial, trivial, Nat.zero_le _, trivial, trivial,
    trivial⟩

end Command
end Engine
end AsOf
