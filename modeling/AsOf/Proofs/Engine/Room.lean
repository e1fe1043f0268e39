import AsOf.Proofs.Engine.Order
import AsOf.Proofs.Failure

/-!
# Room in a window

Whatever an archive answers, a window keeps to its maximum: the maximum is only ever
raised, and to at least the length of the run that did not fit.  A run is continued only
from an entry that it holds, and a request that has no use for the window leaves it.
-/

namespace AsOf

variable {m : Type -> Type} [Monad m] {V W α : Type} [Performs m W] {w : W}

namespace Windowed

variable {s t u : State V} {a : Instant} {count required : Nat} {run newer older : List (Entry V)}

/-!
## Maxima that are raised
-/

/-- A maximum that has not been lowered, which for none means that there is still none. -/
def Raised : Option Nat -> Option Nat -> Prop
  | none, later => later = none
  | some size, later => exists larger, later = some larger ∧ size ≤ larger

theorem Raised.refl (maximum : Option Nat) : Raised maximum maximum := by
  cases maximum with
  | none => rfl
  | some size => exact ⟨size, rfl, Nat.le_refl size⟩

theorem Raised.trans {first second third : Option Nat} (h : Raised first second)
    (h' : Raised second third) : Raised first third := by
  cases first with
  | none =>
      cases h
      exact h'
  | some size =>
      rcases h with ⟨larger, rfl, hle⟩
      rcases h' with ⟨largest, rfl, hle'⟩
      exact ⟨largest, rfl, Nat.le_trans hle hle'⟩

theorem raised_grown (maximum : Option Nat) {length : Nat} (hlength : length ≤ Count.limit) :
    Raised maximum (grown maximum length) := by
  cases maximum with
  | none => exact rfl
  | some size =>
      refine ⟨_, rfl, ?_⟩
      show size ≤ if length ≤ size then size else min (2 * length) Count.limit
      split <;> omega

namespace State

def Fits (s : State V) : Prop :=
  forall size, s.maximum = some size -> s.window.size ≤ size

structure Stretches (s t : State V) : Prop where
  maximum : Raised s.maximum t.maximum
  fits : s.Fits -> t.Fits

theorem Stretches.trans (h : s.Stretches t) (h' : t.Stretches u) : s.Stretches u where
  maximum := h.maximum.trans h'.maximum
  fits hs := h'.fits (h.fits hs)

theorem stretches_of_eq (hmaximum : t.maximum = s.maximum) (hwindow : t.window = s.window) :
    s.Stretches t where
  maximum := hmaximum ▸ Raised.refl _
  fits hs := by
    unfold Fits
    rw [hmaximum, hwindow]
    exact hs

theorem stretches_of_fits (h : Raised s.maximum t.maximum) (ht : t.Fits) : s.Stretches t where
  maximum := h
  fits _ := ht

theorem fits_of_empty (h : s.window = .empty) : s.Fits := by
  intro size _
  rw [h]
  exact Nat.zero_le size

theorem stretches_clear (s : State V) : s.Stretches s.clear :=
  stretches_of_fits (Raised.refl _) (fits_of_empty rfl)

theorem stretches_observed (h : s.Observed t) : s.Stretches t := by
  have hobserve : forall epoch, s.Stretches (s.observeEpoch epoch) := by
    intro epoch
    unfold observeEpoch
    split
    · exact stretches_of_eq rfl rfl
    · exact stretches_of_fits (Raised.refl _) (fits_of_empty rfl)
  rcases h with ⟨epoch, rfl | rfl⟩
  · exact hobserve epoch
  · exact (hobserve epoch).trans (stretches_of_eq rfl rfl)

theorem stretches_raiseMaximum (s : State V) (size : Nat) :
    s.Stretches (s.raiseMaximum size) := by
  cases hmaximum : s.maximum with
  | none =>
      have hnone : (s.raiseMaximum size).maximum = none := by
        unfold raiseMaximum
        rw [hmaximum]
        rfl
      exact stretches_of_eq (hnone.trans hmaximum.symm) rfl
  | some old =>
      have hraised : (s.raiseMaximum size).maximum = some (max old size) := by
        unfold raiseMaximum
        rw [hmaximum]
        rfl
      constructor
      · rw [hmaximum, hraised]
        exact ⟨_, rfl, Nat.le_max_left ..⟩
      · intro hs larger hlarger
        cases hraised.symm.trans hlarger
        exact Nat.le_trans (hs old hmaximum) (Nat.le_max_left ..)

theorem stretches_reshape (s : State V) (a : Instant) (hrun : run.length ≤ Count.limit) :
    s.Stretches (s.reshape a run) := by
  unfold reshape
  split
  · exact stretches_of_eq rfl rfl
  · have hgrown := s.maximum_growToFit run.length
    apply stretches_of_fits
    · exact hgrown ▸ raised_grown s.maximum hrun
    · exact fun size hsize => room_of_grown hrun (hgrown ▸ hsize)

theorem stretches_append (s : State V) (a : Instant) (newer : List (Entry V))
    (hrequired : required ≤ Count.limit) : s.Stretches (s.append a newer required) := by
  constructor
  · exact s.maximum_growToFit required ▸ raised_grown s.maximum hrequired
  · intro _ size hsize
    have hmaximum : (s.growToFit required).maximum = some size := hsize
    unfold append
    dsimp only
    rw [hmaximum]
    exact Nat.le_trans (Nat.le_of_eq (Window.size_trimOldest _ size)) (Nat.min_le_right _ size)

theorem stretches_prepend (s : State V) (older : List (Entry V))
    (hrequired : required ≤ Count.limit) : s.Stretches (s.prepend older required) := by
  constructor
  · exact s.maximum_growToFit required ▸ raised_grown s.maximum hrequired
  · intro _ size hsize
    have hmaximum : (s.growToFit required).maximum = some size := hsize
    unfold prepend
    dsimp only
    rw [hmaximum]
    exact Nat.le_trans (Nat.le_of_eq (Window.size_trimNewest _ size)) (Nat.min_le_right _ size)

theorem stretches_countHit (s : State V) : s.Stretches s.countHit :=
  stretches_of_eq rfl rfl

theorem stretches_countMiss (s : State V) : s.Stretches s.countMiss :=
  stretches_of_eq rfl rfl

theorem stretches_countPartialHit (s : State V) : s.Stretches s.countPartialHit :=
  stretches_of_eq rfl rfl

end State

/-!
## Runs
-/

def Ends (archive : Archive m V) (s : State V) (r : Except QueryError (Outcome V)) : Prop :=
  WhenOk (fun out => s.Stretches out.2) r ∧ WhenError archive.Warrants r

variable (view : View m V)

theorem ends_ok {run : List (Entry V)} (h : s.Stretches t) :
    After (pure (run, t) : ExceptT QueryError m (Outcome V)).run w
      (fun r _ => Ends view.archive s r) :=
  after_except_pure.mpr ⟨h, trivial⟩

theorem ends_furtherBack {held : List (Entry V)}
    {f : List (Entry V) -> ExceptT QueryError m (Outcome V)} (hne : held ≠ [])
    (hlen : held.length ≤ count)
    (hf : forall older w', (held ++ older).length ≤ count ->
      After (f older).run w' (fun r _ => Ends view.archive s r)) :
    After (view.furtherBack a count held >>= f).run w (fun r _ => Ends view.archive s r) := by
  apply after_bind_both (view.behind_furtherBack a count held)
    (view.warrants_furtherBack a count hne)
  intro older w' hbehind
  apply hf
  have hlength := hbehind.length
  rw [List.length_append]
  omega

section Runs

variable (hcount : count ≤ Count.limit)

include hcount

theorem ends_runAtSame (hne : s.window.entries ≠ []) :
    After (runAtSame view a count s).run w (fun r _ => Ends view.archive s r) := by
  unfold runAtSame
  dsimp only
  split
  · rename_i hshort
    have hheld : s.window.entries.take count ≠ [] := by
      rw [take_of_short hshort]
      exact hne
    apply ends_furtherBack view hheld (Nat.le_of_lt hshort)
    intro older w' hlen
    split
    · exact ends_ok view s.stretches_countHit
    · exact ends_ok view (s.stretches_countPartialHit.trans
        (s.countPartialHit.stretches_reshape a (Nat.le_trans hlen hcount)))
  · exact ends_ok view s.stretches_countHit

theorem ends_runOnto (hne : s.window.entries ≠ []) (hnewer : newer.length < count) :
    After (runOnto view newer a count s).run w (fun r _ => Ends view.archive s r) := by
  have hlen : (newer ++ s.window.entries.take (count - newer.length)).length ≤ count := by
    rw [List.length_append, List.length_take]
    omega
  unfold runOnto
  dsimp only
  split
  · have hheld : newer ++ s.window.entries.take (count - newer.length) ≠ [] := by
      intro hnil
      have htake := List.take_eq_nil_iff.mp (List.append_eq_nil_iff.mp hnil).2
      rcases htake with hzero | hnil
      · omega
      · exact hne hnil
    apply ends_furtherBack view hheld hlen
    intro older w' hlen
    exact ends_ok view (s.stretches_countPartialHit.trans
      (s.countPartialHit.stretches_reshape a (Nat.le_trans hlen hcount)))
  · have hrequired := Nat.le_trans hlen hcount
    cases newer.isEmpty with
    | true =>
        exact ends_ok view (s.stretches_countHit.trans
          (s.countHit.stretches_append a newer hrequired))
    | false =>
        exact ends_ok view (s.stretches_countPartialHit.trans
          (s.countPartialHit.stretches_append a newer hrequired))

theorem ends_runAfter (newest : Instant) (hne : s.window.entries ≠ []) :
    After (runAfter view newest a count s).run w (fun r _ => Ends view.archive s r) := by
  unfold runAfter
  apply after_bind_both (Pull.after_gather_any (Walk.pull view.archive) _ count _)
    (view.warrants_walkAll _ count _)
  intro out w' hout
  rcases hout with ⟨items, hcollect⟩
  rcases out with ⟨newer, met⟩
  dsimp only
  cases met with
  | true =>
      have hexists := exists_of_met (congrArg Prod.snd hcollect.symm)
      rw [← hcollect] at hexists
      rcases hexists with ⟨e, rest, -, -, hlen⟩
      rw [if_pos rfl]
      exact ends_runOnto view hcount hne hlen
  | false =>
      have hrun : newer = items.take count := by
        have hfst := fst_collect_of_not_met (congrArg Prod.snd hcollect.symm)
        rwa [← hcollect] at hfst
      have hlen : newer.length ≤ count := by
        rw [hrun]
        exact List.length_take_le _ _
      rw [if_neg Bool.false_ne_true]
      exact ends_ok view (s.stretches_countMiss.trans
        (s.countMiss.stretches_reshape a (Nat.le_trans hlen hcount)))

theorem ends_runInside {oldest : Entry V} (holdest : s.window.oldest? = some oldest)
    (hle : oldest.key ≤ a) :
    After (runInside view a count s).run w (fun r _ => Ends view.archive s r) := by
  have hlast : (s.window.entries.filter fun e => e.key ≤ a).getLast? = some oldest :=
    Window.getLast?_upTo holdest hle
  unfold runInside
  dsimp only
  generalize (s.window.entries.filter fun e => e.key ≤ a) = held at hlast
  split
  · rename_i hshort
    have hheld : held.take count ≠ [] := by
      rw [take_of_short hshort]
      exact List.ne_nil_of_mem (List.mem_of_getLast? hlast)
    apply ends_furtherBack view hheld (Nat.le_of_lt hshort)
    intro older w' hlen
    split
    · exact ends_ok view s.stretches_countHit
    · exact ends_ok view (s.stretches_countPartialHit.trans
        (s.countPartialHit.stretches_prepend older (Nat.le_trans hlen hcount)))
  · exact ends_ok view s.stretches_countHit

theorem ends_runOutside :
    After (runOutside view a count s).run w (fun r _ => Ends view.archive s r) := by
  unfold runOutside
  apply after_bind_both (view.shaped_trailing a count) (view.warrants_trailing a count)
  intro run w' hrun
  exact ends_ok view (s.stretches_reshape a (Nat.le_trans hrun.length hcount))

theorem ends_runAt (hs : s.Proper) (a : Instant) :
    After (runAt view a count (s.locate a) s).run w (fun r _ => Ends view.archive s r) := by
  have hplace := hs.aligned a
  cases hlocate : s.locate a with
  | same =>
      rw [hlocate] at hplace
      exact ends_runAtSame view hcount hplace.1
  | after newest =>
      rw [hlocate] at hplace
      rcases hplace with ⟨e, hnewest, -, -⟩
      exact ends_runAfter view hcount newest (List.ne_nil_of_mem (List.mem_of_head? hnewest))
  | inside =>
      rw [hlocate] at hplace
      rcases hplace with ⟨oldest, holdest, hle⟩
      exact ends_runInside view hcount holdest hle
  | outside => exact ends_runOutside view hcount

end Runs

/-!
## Requests
-/

structure Leaves (archive : Archive m V) (idle : Prop) (s t : State V)
    (r : Except QueryError α) : Prop where
  state : s.Stretches t
  failure : WhenError archive.Warrants r
  idle : idle -> t.window = s.window ∧ t.maximum = s.maximum

theorem leaves_handOn {request : ExceptT QueryError m α} {p : State V × W} {idle : Prop}
    (hrequest : After request.run p.2 (fun r _ => WhenError view.archive.Warrants r)) :
    After (Request.handOn request : Request m (State V) α).run p
      (fun r p' => Leaves view.archive idle p.1 p'.1 r) := by
  apply after_request_handOn.mpr
  apply After.imp hrequest
  intro r w' hr
  exact ⟨State.stretches_of_eq rfl rfl, hr, fun _ => ⟨rfl, rfl⟩⟩

theorem leaves_bypass {request : ExceptT QueryError m α} {p : State V × W} {idle : Prop}
    (hrequest : After request.run p.2 (fun r _ => WhenError view.archive.Warrants r)) :
    After (bypass request : Request m (State V) α).run p
      (fun r p' => Leaves view.archive idle p.1 p'.1 r) := by
  rcases p with ⟨s, w⟩
  unfold bypass
  apply after_except_bind.mpr
  apply after_request_modify.mpr
  apply after_request_handOn.mpr
  apply After.imp hrequest
  intro r w' hr
  exact ⟨State.stretches_of_eq rfl rfl, hr, fun _ => ⟨rfl, rfl⟩⟩

theorem leaves_run {p : State V × W} (hp : p.1.Proper) (hcount : count ≤ Count.limit)
    (options : Options) (key : Instant) :
    After (Windowed.run view options key count).run p
      (fun r p' => Leaves view.archive False p.1 p'.1 r) := by
  apply after_run_of_places
  intro t w ht
  have hobserved := State.stretches_observed ht
  unfold commit
  simp only [after_except_bind, after_request_get, after_request_handOn]
  apply After.imp (ends_runAt view hcount (hp.observed ht) _)
  intro r w' hr
  cases r with
  | error e => exact ⟨hobserved, hr.2, False.elim⟩
  | ok out =>
      simp only [after_request_set]
      exact after_except_pure.mpr ⟨hobserved.trans hr.1, trivial, False.elim⟩

theorem leaves_run_map {p : State V × W} (hp : p.1.Proper) (hcount : count ≤ Count.limit)
    (options : Options) (key : Instant) (f : List (Entry V) -> α) {idle : Prop}
    (hbusy : ¬ idle) :
    After (do return f (<- Windowed.run view options key count) :
      Request m (State V) α).run p (fun r p' => Leaves view.archive idle p.1 p'.1 r) := by
  apply after_except_bind.mpr
  apply After.imp (leaves_run view hp hcount options key)
  intro r p' hr
  cases r with
  | error e => exact ⟨hr.state, hr.failure, fun hidle => absurd hidle hbusy⟩
  | ok run =>
      apply after_except_pure.mpr
      exact ⟨hr.state, trivial, fun hidle => absurd hidle hbusy⟩

section Requests

variable {p : State V × W} (hp : p.1.Proper) (options : Options) (key : Instant)

include hp

theorem leaves_previousEntry (distance : Nat) :
    After (previousEntry view options key distance).run p
      (fun r p' => Leaves view.archive (distance = 0) p.1 p'.1 r) := by
  unfold previousEntry
  split
  · exact leaves_bypass view (view.warrants_previousEntry options key 0)
  · rename_i hfar
    exact leaves_run_map view hp (Nat.min_le_right ..) options key _ hfar

theorem leaves_previousEntries (hcount : count ≤ Count.limit) :
    After (previousEntries view options key count).run p
      (fun r p' => Leaves view.archive (count ≤ 1) p.1 p'.1 r) := by
  unfold previousEntries
  split
  · refine after_except_pure.mpr ⟨State.stretches_of_eq rfl rfl, trivial, ?_⟩
    exact fun _ => ⟨rfl, rfl⟩
  · apply leaves_bypass
    apply after_except_map.mpr
    exact After.imp (view.warrants_previousEntry options key 0) fun r w' hr => hr.map
  · rename_i hzero hone
    apply leaves_run_map view hp hcount options key
    intro hle
    rcases Nat.le_one_iff_eq_zero_or_eq_one.mp hle with heq | heq
    · exact hzero heq
    · exact hone heq

end Requests
end Windowed

/-!
## Engines with a window in use
-/

namespace Engine

open Windowed

namespace Question

def Counted : Question -> Prop
  | entry => True
  | previousEntry n | previousEntries n | nextEntry n | nextEntries n => n ≤ Count.limit

instance (q : Question) : Decidable q.Counted := by
  cases q <;> unfold Counted <;> infer_instance

/-- A question that has no use for a window. -/
def Idle : Question -> Prop
  | entry | nextEntry _ | nextEntries _ => True
  | previousEntry distance => distance = 0
  | previousEntries count => count ≤ 1

variable (view : View m V)

theorem leaves_put {s : Windowed.State V} (hs : s.Proper) (options : Options) (key : Instant)
    {q : Question} (hcounted : q.Counted) :
    After (q.put view options key).run (.windowed s, w) (fun r p' =>
      exists t, p'.1 = .windowed t ∧ Leaves view.archive q.Idle s t r) := by
  cases q with
  | entry =>
      apply after_dispatch_windowed.mpr
      apply After.imp (leaves_bypass view (view.warrants_entry options key))
      exact fun r p' hr => ⟨p'.1, rfl, hr⟩
  | previousEntry distance =>
      apply after_dispatch_windowed.mpr
      apply After.imp (leaves_previousEntry view hs options key distance)
      exact fun r p' hr => ⟨p'.1, rfl, hr⟩
  | previousEntries count =>
      apply after_dispatch_windowed.mpr
      apply After.imp (leaves_previousEntries view hs options key hcounted)
      exact fun r p' hr => ⟨p'.1, rfl, hr⟩
  | nextEntry distance =>
      apply after_dispatch_windowed.mpr
      apply After.imp (leaves_handOn view (view.warrants_nextEntry options key distance))
      exact fun r p' hr => ⟨p'.1, rfl, hr⟩
  | nextEntries count =>
      apply after_dispatch_windowed.mpr
      apply After.imp (leaves_handOn view (view.warrants_nextEntries options key count))
      exact fun r p' hr => ⟨p'.1, rfl, hr⟩

end Question

namespace Command

def Counted : Command W -> Prop
  | ask _ _ q => q.Counted
  | clear | raiseMaximum _ | move _ => True

instance (c : Command W) : Decidable c.Counted := by
  cases c <;> unfold Counted <;> infer_instance

variable (view : View m V)

/-- Carry out a command over any archive, in a world that may have turned into any other. -/
def carryOut (p : State V × W) : Command W -> State V × W
  | ask options key q => (perform (q.put view options key).run p).2
  | clear => (p.1.clear, p.2)
  | raiseMaximum size => (p.1.raiseMaximum size, p.2)
  | move w => (p.1, w)

/-- A window in order that keeps to its maximum, which has been raised from the first one. -/
structure Orderly (first : Option Nat) (s : Windowed.State V) : Prop where
  window : s.window.Consistent
  fits : s.Fits
  maximum : Raised first s.maximum

/--
A command lowers no maximum, blames no run for a failure that the archive does not report,
and leaves the window to the questions that have a use for it.
-/
def Careful (p : State V × W) (c : Command W) : Prop :=
  Raised p.1.maximum (c.carryOut view p).1.maximum ∧
    match c with
    | ask options key q => After (q.put view options key).run p (fun r p' =>
        WhenError view.archive.Warrants r ∧
          (q.Idle -> p'.1.window? = p.1.window? ∧ p'.1.maximum = p.1.maximum))
    | _ => True

def Kept (first : Option Nat) (p : State V × W) : Prop :=
  exists s, p.1 = .windowed s ∧ s.Proper ∧ s.Fits ∧ Raised first s.maximum

variable {view} {p : State V × W} {first : Option Nat}

theorem Kept.of_stretches {s t : Windowed.State V} (hs : s.Fits) (hfirst : Raised first s.maximum)
    (ht : t.Proper) (hstretches : s.Stretches t) {w : W} :
    Kept first (State.windowed t, w) :=
  ⟨t, rfl, ht, hstretches.fits hs, hfirst.trans hstretches.maximum⟩

/-- Every command is careful, and keeps a window in order and within its maximum. -/
theorem careful_carryOut (hp : Kept first p) {c : Command W} (hcounted : c.Counted) :
    Careful view p c ∧ Kept first (c.carryOut view p) := by
  rcases p with ⟨engine, w⟩
  rcases hp with ⟨s, heq, hproper, hfits, hfirst⟩
  cases heq
  cases c with
  | ask options key q =>
      have hleaves := q.leaves_put view hproper options key (w := w) hcounted
      have hafter := (q.inShape_put view (p := (.windowed s, w)) (fun t ht => by
        cases ht
        exact hproper) options key).1
      rcases hleaves with ⟨t, ht, hleft⟩
      have hmaximum : ((ask options key q).carryOut view (.windowed s, w)).1.maximum =
          t.maximum := congrArg State.maximum ht
      refine ⟨⟨hmaximum ▸ hleft.state.maximum, hleft.failure, fun hidle => ?_⟩, ?_⟩
      · rw [ht]
        exact ⟨congrArg some (hleft.idle hidle).1, (hleft.idle hidle).2⟩
      · exact ⟨t, ht, hafter t ht, hleft.state.fits hfits, hfirst.trans hleft.state.maximum⟩
  | clear =>
      have hclear := s.stretches_clear
      exact ⟨⟨hclear.maximum, trivial⟩, Kept.of_stretches hfits hfirst hproper.clear hclear⟩
  | raiseMaximum size =>
      have hraise := s.stretches_raiseMaximum size
      exact ⟨⟨hraise.maximum, trivial⟩,
        Kept.of_stretches hfits hfirst (hproper.raiseMaximum size) hraise⟩
  | move w' => exact ⟨⟨Raised.refl _, trivial⟩, s, rfl, hproper, hfits, hfirst⟩

theorem kept_start (view : View m V) (maximum : Option Positive) (w : W) :
    Kept (maximum.map Positive.val) (perform (start view .windowed maximum) w) := by
  have hproper := proper_start view .windowed maximum (w := w)
  have hstart : After (start view .windowed maximum) w (fun engine _ => exists s,
      engine = .windowed s ∧ s.window = .empty ∧ s.maximum = maximum.map Positive.val) := by
    unfold start
    simp only [after_bind, after_pure]
    apply after_of_forall
    intro epoch w'
    exact ⟨_, rfl, rfl, rfl⟩
  rcases hstart with ⟨s, hs, hempty, hmaximum⟩
  exact ⟨s, hs, hproper s hs, State.fits_of_empty hempty, hmaximum ▸ Raised.refl _⟩

/--
Over every archive, whatever it answers, and whatever an engine is asked and told: its
window is in order, keeps to its maximum and is touched only by the questions that have a
use for it; the maximum is never lowered; and no run lacks an entry to continue from.
-/
theorem window_keeps_to_maximum (view : View m V) (maximum : Option Positive) (w : W)
    {commands : List (Command W)} (hcounted : forall c, c ∈ commands -> c.Counted) :
    let p := perform (start view .windowed maximum) w
    Throughout (carryOut view) (fun p => exists s, p.1 = .windowed s ∧
        Orderly (maximum.map Positive.val) s) p commands ∧
      Each (carryOut view) (Careful view) p commands := by
  have hstep : forall (p : State V × W) (c : Command W), Kept (maximum.map Positive.val) p ->
      c.Counted -> Careful view p c ∧ Kept (maximum.map Positive.val) (carryOut view p c) :=
    fun _ _ hp hc => careful_carryOut hp hc
  have hstart := kept_start view maximum w
  constructor
  · apply throughout_of_kept (fun p c hp hc => (hstep p c hp hc).2) _ hstart
      (each_of_mem hcounted)
    intro p hp
    rcases hp with ⟨s, hs, hproper, hfits, hfirst⟩
    exact ⟨s, hs, hproper.window, hfits, hfirst⟩
  · exact each_of_kept hstep hstart (each_of_mem hcounted)

abbrev Script := List (Except QueryError (Option (Entry Int)))

def Script.next : StateM Script (Except QueryError (Option (Entry Int))) :=
  modifyGet fun script => (script.headD (.ok none), script.tail)

def scripted : View (StateM Script) Int where
  archive :=
    { Scan := Unit
      lookup := fun _ => ExceptT.mk Script.next
      previousKey := pure
      nextKey := pure
      scanFrom := fun _ => pure ()
      pull := fun scan => do
        match <- Script.next with
        | .ok found => return (found.map .ok, scan)
        | .error e => return (some (.error e), scan)
      clear := pure ()
      component := "script"
      report := pure [] }
  horizon := .unbounded
  epoch := { current := pure 0, advance := pure 0 }

def nanos (n : Int) : Except QueryError (Option (Entry Int)) :=
  .ok (some ⟨.ofNanos n, n⟩)

def unruly : List (Command Script) :=
  [.move [nanos 30, nanos 20, nanos 25],
    .ask {} (.ofNanos 35) (.previousEntries 2),
    .ask {} (.ofNanos 40) (.previousEntries 4),
    .move [nanos 38, nanos 36, nanos 30, nanos 10, nanos 70],
    .ask {} (.ofNanos 45) (.previousEntries 6),
    .move [nanos 38, nanos 30],
    .ask {} (.ofNanos 45) (.previousEntries 3),
    .raiseMaximum 6,
    .ask {} (.ofNanos 60) (.nextEntries 3),
    .move [.error (.breach (.ofNanos 1) 0 .nothingToContinue), nanos 99],
    .ask {} (.ofNanos 50) (.previousEntry 2),
    .clear,
    .ask {} (.ofNanos 50) (.previousEntry 0)]

theorem window_keeps_to_maximum_on_script :
    let p := perform (start scripted .windowed (some ⟨1, by decide⟩)) []
    Throughout (carryOut scripted) (fun p => exists s, p.1 = .windowed s ∧
        Orderly (some 1) s) p unruly ∧
      Each (carryOut scripted) (Careful scripted) p unruly :=
  window_keeps_to_maximum scripted (some ⟨1, by decide⟩) [] (by decide)

end Command
end Engine
end AsOf
