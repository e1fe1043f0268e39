import AsOf.Proofs.Ledger
import AsOf.Proofs.Published
import AsOf.Proofs.Replica.Punctual

/-!
# Two ways to the entry in effect

The entry no positions before the one in effect is the entry in effect.  To ask for it goes another
way: it is walked to, and whether it has to be there is decided by the query and not by the engine.
Over a replica of any source both ways come to the same outcome, save for one: an entry that has to
be there and is not.  The engine reports it missing at the instant that it looked at, and the query
at the instant that it was asked about, which is another one beyond the horizon.
-/

namespace AsOf

variable {m : Type -> Type} [Monad m] {V W A α : Type} [Performs m W]

open Replica (NotAfter)

/-!
## Walks of one step
-/

section Steps

variable {ε σ : Type}

def item : Except ε (Option α) -> Option (Except ε α)
  | .ok found => found.map .ok
  | .error e => some (.error e)

def gathered : Option (Except ε α) -> Except ε (List α)
  | none => .ok []
  | some (.ok a) => .ok [a]
  | some (.error e) => .error e

theorem gathered_item (found : Except ε (Option α)) :
    gathered (item found) = found.map Option.toList := by
  rcases found with e | _ | a <;> rfl

theorem Pull.after_take_one {pull : Pull m α σ} {state : σ} {w : W}
    {outcome : Option (Except QueryError α)}
    (h : After (pull state) w (fun out _ => out.1 = outcome)) :
    After (pull.take 1 state).run w (fun r _ => r = gathered outcome) := by
  apply after_except_map.mpr
  unfold Pull.gather
  apply after_except_bind.mpr
  apply after_except_lift.mpr
  apply After.imp h
  rintro ⟨r, next⟩ w' rfl
  rcases r with _ | e | a
  · exact after_except_pure.mpr rfl
  · exact after_except_throw.mpr rfl
  · dsimp only
    rw [if_pos rfl]
    apply after_except_bind.mpr
    exact after_except_pure.mpr (after_except_pure.mpr rfl)

end Steps

theorem Walk.after_pull_startAt {archive : Archive m V} {a : Instant} {units : Nat} {w : W}
    {found : Except QueryError (Option (Entry V))} (hpunctual : WhenOk (NotAfter a) found)
    (h : After (archive.lookup a).run w (fun r _ => r = found)) :
    After (Walk.pull archive (.startAt a units)) w (fun out _ => out.1 = item found) := by
  unfold Walk.pull
  apply after_bind.mpr
  apply After.imp h
  rintro r w' rfl
  rcases r with e | _ | e
  · exact after_pure.mpr rfl
  · exact after_pure.mpr rfl
  · have hdescends : (Walk.startAt a units).descendsTo e.key = true := rfl
    dsimp only
    rw [if_neg (Std.not_lt.mpr (hpunctual e rfl)), if_pos hdescends]
    apply after_bind.mpr
    exact after_of_forall fun _ _ => after_pure.mpr rfl

/-!
## Both ways through a view
-/

namespace View

variable {view : View m V} {options : Options} {key a : Instant} {w : W}

def inEffect (view : View m V) (options : Options) (key : Instant) :
    ExceptT QueryError m (Option (Entry V)) := do
  let adjusted <- view.adjust options key
  view.archive.lookup adjusted

theorem after_inEffect (view : View m V) (options : Options) (key : Instant) (w : W) :
    After (view.adjust options key) w (fun a w' => a = view.about options key w ∧
      After (view.archive.lookup a).run w'
        (fun r _ => r = (perform (view.inEffect options key).run w).1)) := by
  have hlookup := after_perform (view.inEffect options key).run w
  unfold inEffect at hlookup ⊢
  have hlookup := after_except_lift.mp (after_except_bind.mp hlookup)
  exact (view.adjust_about options key w).and hlookup

variable (hpunctual : WhenOk (NotAfter (view.about options key w))
  (perform (view.inEffect options key).run w).1)

include hpunctual

theorem perform_entry :
    (perform (view.entry options key).run w).1 =
      (perform (view.inEffect options key).run w).1.bind
        (options.demand.verdict (view.about options key w)) := by
  suffices h : After (view.entry options key).run w (fun r _ => r =
      (perform (view.inEffect options key).run w).1.bind
        (options.demand.verdict (view.about options key w))) from h
  unfold entry
  apply after_except_bind.mpr
  apply after_except_lift.mpr
  apply After.imp (view.after_inEffect options key w)
  rintro a w' ⟨rfl, hlookup⟩
  apply after_except_bind.mpr
  apply After.imp hlookup
  rintro r w'' rfl
  cases hr : (perform (view.inEffect options key).run w).1 with
  | error e => rfl
  | ok found =>
      rw [hr] at hpunctual
      have hnone : found.any (fun e => view.about options key w < e.key) = false := by
        cases found with
        | none => rfl
        | some e => simpa using Std.not_lt.mpr (hpunctual e rfl)
      dsimp only
      rw [hnone]
      rw [Demand.apply_eq_verdict]
      exact after_except_mk.mpr (after_pure.mpr rfl)

theorem perform_previousEntry :
    (perform (view.previousEntry options key 0).run w).1 =
      (perform (view.inEffect options key).run w).1 := by
  suffices h : After (view.previousEntry options key 0).run w (fun r _ => r =
      (perform (view.inEffect options key).run w).1) from h
  unfold previousEntry trailing
  apply after_except_bind.mpr
  apply after_except_lift.mpr
  apply After.imp (view.after_inEffect options key w)
  rintro a w' ⟨rfl, hlookup⟩
  apply after_except_bind.mpr
  apply After.imp (Pull.after_take_one (Walk.after_pull_startAt hpunctual hlookup))
  rintro r w'' rfl
  rw [gathered_item]
  rcases (perform (view.inEffect options key).run w).1 with e | _ | e
  · rfl
  · exact after_except_pure.mpr rfl
  · exact after_except_pure.mpr rfl

end View

/-!
## Both ways through an engine
-/

theorem Engine.perform_dispatch_bypass {request : ExceptT QueryError m α} {engine : State V}
    {w : W} :
    (perform (dispatch request (Windowed.bypass request)).run (engine, w)).1 =
      (perform request.run w).1 := by
  suffices h : After (dispatch request (Windowed.bypass request)).run (engine, w)
      (fun r _ => r = (perform request.run w).1) from h
  cases engine with
  | direct n => exact after_dispatch_direct.mpr rfl
  | windowed s =>
      apply after_dispatch_windowed.mpr
      apply after_except_bind.mpr
      apply after_request_modify.mpr
      exact after_request_handOn.mpr rfl

namespace Query

variable {query : Query m V} {key : Instant} {p : Engine.State V × W}

def Agrees (query : Query m V) (key : Instant) (p : Engine.State V × W) : Prop :=
  (perform (query.entry key).run p).1 = (perform (query.previousEntry key 0).run p).1

/-- An entry has to be there, and at the horizon before the instant asked about there is none. -/
structure Displaced (query : Query m V) (key : Instant) (w : W) : Prop where
  required : query.options.demand = .required
  moved : query.view.about query.options key w ≠ key
  nothing : (perform (query.view.inEffect query.options key).run w).1 = .ok none

/--
The entry in effect is what is looked up, put to the demand.  The other way has the same outcome
unless the instant is displaced, and then reports the instant that it was asked about.
-/
structure Parallel (query : Query m V) (key : Instant) (p : Engine.State V × W) : Prop where
  entry : (perform (query.entry key).run p).1 =
    (perform (query.view.inEffect query.options key).run p.2).1.bind
      (query.options.demand.verdict (query.view.about query.options key p.2))
  agrees_iff : query.Agrees key p ↔ ¬ query.Displaced key p.2
  displaced : query.Displaced key p.2 ->
    (perform (query.previousEntry key 0).run p).1 = .error (.noData key 0)

section Outcomes

variable (hpunctual : WhenOk (NotAfter (query.view.about query.options key p.2))
  (perform (query.view.inEffect query.options key).run p.2).1)

include hpunctual

theorem perform_entry : (perform (query.entry key).run p).1 =
    (perform (query.view.inEffect query.options key).run p.2).1.bind
      (query.options.demand.verdict (query.view.about query.options key p.2)) :=
  Engine.perform_dispatch_bypass.trans (View.perform_entry hpunctual)

theorem perform_previousEntry : (perform (query.previousEntry key 0).run p).1 =
    (perform (query.view.inEffect query.options key).run p.2).1.bind
      (query.options.demand.presence key 0) := by
  have hengine : (perform (Engine.previousEntry query.view query.options key 0).run p).1 =
      (perform (query.view.inEffect query.options key).run p.2).1 :=
    Engine.perform_dispatch_bypass.trans (View.perform_previousEntry hpunctual)
  suffices h : After (query.previousEntry key 0).run p (fun r _ => r =
      (perform (query.view.inEffect query.options key).run p.2).1.bind
        (query.options.demand.presence key 0)) from h
  apply after_except_bind.mpr
  apply After.imp (after_perform _ p)
  intro r p' hr
  rw [hengine] at hr
  rw [← hr]
  cases r with
  | error e => rfl
  | ok found => exact after_request_settled.mpr (Demand.require_eq_presence _ key 0 found)

/-- Under a demand for no more than an entry the two ways differ only in what they report. -/
theorem parallel_of_punctual
    (hdemand : query.options.demand = .lenient ∨ query.options.demand = .required) :
    query.Parallel key p where
  entry := perform_entry hpunctual
  agrees_iff := by
    unfold Agrees
    rw [perform_entry hpunctual, perform_previousEntry hpunctual]
    constructor
    · intro heq hdisplaced
      rw [hdisplaced.nothing, hdisplaced.required] at heq
      exact hdisplaced.moved (by injection heq with heq; injection heq)
    · intro hnot
      cases hfound : (perform (query.view.inEffect query.options key).run p.2).1 with
      | error e => rfl
      | ok found =>
          rcases found with _ | e
          · rcases hdemand with hlenient | hrequired
            · rw [hlenient]
              rfl
            · have hsame : query.view.about query.options key p.2 = key :=
                Classical.not_not.mp fun hmoved => hnot ⟨hrequired, hmoved, hfound⟩
              rw [hrequired, hsame]
              rfl
          · rcases hdemand with hlenient | hrequired
            · rw [hlenient]
              rfl
            · rw [hrequired]
              rfl
  displaced hdisplaced := by
    rw [perform_previousEntry hpunctual, hdisplaced.nothing, hdisplaced.required]
    rfl

end Outcomes
end Query

/-!
## Both ways over a replica
-/

namespace Replica

variable {replica : Replica m V}

/-- No later entry is looked up for a request to an engine over a replica. -/
theorem punctual_inEffect (ha : replica.Announces InTime) (horizon : Horizon m) (epoch : Epoch m)
    {p : State V × W} (hp : AtEase p) (options : Options) (key : Instant) :
    WhenOk (NotAfter ((replica.under horizon epoch).about options key p))
      (perform ((replica.under horizon epoch).inEffect options key).run p).1 := by
  let view := replica.under horizon epoch
  have hadjust := (confines_under ha horizon epoch).adjust options key p hp
  suffices h : After (view.adjust options key) p (fun _ _ =>
      WhenOk (NotAfter (view.about options key p)) (perform (view.inEffect options key).run p).1)
    from h
  apply After.imp ((view.after_inEffect options key p).and hadjust)
  rintro a p' ⟨⟨rfl, hlookup⟩, hp'⟩
  suffices h : After (replica.lookup (view.about options key p)).run p' (fun _ _ =>
      WhenOk (NotAfter (view.about options key p)) (perform (view.inEffect options key).run p).1)
    from h
  apply After.imp (hlookup.and (after_lookup_punctual ha hp' _))
  rintro r p'' ⟨rfl, -, hr⟩
  exact hr

namespace Desk

/--
Over a source of any kind, whatever was asked and read before, the two ways to the entry in effect
agree just if the entry is not missing at a horizon before the instant asked about.
-/
theorem paths_agree_iff_not_displaced (replica : Replica m V) (hear : Entry V -> m (Errand V A))
    (effect : A -> m A) (depth : Nat) (horizon : Horizon m) (epoch : Epoch m) (w : W)
    (commands : List (Business W V)) :
    let attended := replica.attended hear effect depth
    Throughout (serve attended horizon epoch)
      (fun x => forall (engine : Engine.State V) (options : Options) (key : Instant),
        options.demand = .lenient ∨ options.demand = .required ->
          Query.Parallel ⟨attended.under horizon epoch, options⟩ key (engine, x.here))
      (opened attended w) commands := by
  intro attended
  have ha : attended.Announces InTime := announces_attended replica depth
  have hstep : forall (x : Desk W V) (c : Business W V), x.Settled -> True ->
      (x.serve attended horizon epoch c).Settled := fun x c hx _ => (settled_serve ha hx c).2
  apply throughout_of_kept hstep _ (settled_opened attended w) each_true
  intro x hx engine options key hdemand
  exact Query.parallel_of_punctual (punctual_inEffect ha horizon epoch hx.memory options key)
    hdemand

def sparse (bound : Option Instant) : Ledger Int :=
  { Ledger.holding [20] with bound := bound }

def strict : Query (StateT (State Int) (StateM (Ledger Int))) Int :=
  ⟨Ledger.plain.under Ledger.horizon Ledger.revisions, { demand := .required }⟩

/-- Within the horizon a missing entry is reported at the instant asked about, on both ways. -/
theorem paths_agree_iff_not_displaced_on_ledger :
    let x := ((opened Ledger.plain (sparse (some (.ofNanos 30)))).serve Ledger.plain Ledger.horizon
      Ledger.revisions (.desk (.lookup (.ofNanos 25))))
    strict.Agrees (.ofNanos 10) (.direct 0, x.here) := by
  intro x
  have hall := (paths_agree_iff_not_displaced (A := Unit) Ledger.plain (fun _ => pure .done) pure 0
    Ledger.horizon Ledger.revisions (sparse (some (.ofNanos 30)))
    [.desk (.lookup (.ofNanos 25))]).2
  have hparallel := hall (.direct 0) { demand := .required } (.ofNanos 10) (Or.inr rfl)
  exact hparallel.agrees_iff.mpr fun hdisplaced => hdisplaced.moved (by decide +kernel)

def reported {α : Type} : Except QueryError α -> Option QueryError
  | .ok _ => none
  | .error e => some e

/-- Beyond a horizon without entries, each way reports a missing entry at another instant. -/
theorem disagreeing_beyond_horizon :
    let x := opened Ledger.plain (sparse (some (.ofNanos 10)))
    ¬ strict.Agrees (.ofNanos 30) (.direct 0, x.here) := by
  intro x hagrees
  have hentry : reported (perform (strict.entry (.ofNanos 30)).run (.direct 0, x.here)).1 =
      some (.noData (.ofNanos 10) 0) := by
    decide +kernel
  have hprevious :
      reported (perform (strict.previousEntry (.ofNanos 30) 0).run (.direct 0, x.here)).1 =
        some (.noData (.ofNanos 30) 0) := by
    decide +kernel
  have hsame := congrArg reported (show _ = _ from hagrees)
  rw [hentry, hprevious] at hsame
  exact absurd hsame (by decide)

end Desk
end Replica
end AsOf
