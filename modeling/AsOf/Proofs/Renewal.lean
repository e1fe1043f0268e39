import AsOf.Proofs.Engine.Renewal
import AsOf.Proofs.Published
import AsOf.Proofs.Recorded
import AsOf.Proofs.Replica.Archive
import AsOf.Proofs.Replica.Renewal

/-!
# Caches after a reset

What goes alike for the replica and for the engine goes alike for the queries and the ranges of
a cache.  The calls to the source are recorded one after another, so that caches which go on
alike from the same record make the same calls in the same order.
-/

namespace AsOf

variable {m : Type -> Type} [Monad m] {V W A α : Type} [Performs m W] {count : W -> Nat}
  {alike : W -> W -> Prop} {w v : W}

/-!
## Queries
-/

namespace Query

variable {query : Query m V}

section Steady

variable {kind : Engine.Kind} (h : query.view.Steadfast count alike)

include h

theorem steady_put (key : Instant) (q : Question) :
    Steady (count ∘ Prod.snd) (Engine.Renewed count alike kind) (Engine.Renewed count alike kind)
      (q.put query key).run := by
  have hentry : Steady (count ∘ Prod.snd) (Engine.Renewed count alike kind)
      (Engine.Renewed count alike kind) (query.entry key).run :=
    Engine.steady_entry h query.options key
  have hprevious : forall distance, Steady (count ∘ Prod.snd) (Engine.Renewed count alike kind)
      (Engine.Renewed count alike kind) (query.previousEntry key distance).run := fun distance =>
    (Engine.steady_previousEntry h query.options key distance).except_bind fun _ => steady_pure _
  have hnext : forall distance, Steady (count ∘ Prod.snd) (Engine.Renewed count alike kind)
      (Engine.Renewed count alike kind) (query.nextEntry key distance).run := fun distance =>
    (Engine.steady_nextEntry h query.options key distance).except_bind fun _ => steady_pure _
  have hearlier : forall size, Steady (count ∘ Prod.snd) (Engine.Renewed count alike kind)
      (Engine.Renewed count alike kind) (query.previousEntries key size).run := fun size =>
    (Engine.steady_previousEntries h query.options key size).except_bind
      fun _ => steady_except_pure _
  have hlater : forall size, Steady (count ∘ Prod.snd) (Engine.Renewed count alike kind)
      (Engine.Renewed count alike kind) (query.nextEntries key size).run := fun size =>
    (Engine.steady_nextEntries h query.options key size).except_bind fun _ => steady_except_pure _
  cases q with
  | entry => exact hentry
  | value => exact hentry.except_map
  | previousEntry distance => exact hprevious distance
  | previousValue distance => exact (hprevious distance).except_map
  | previousKey distance => exact (hprevious distance).except_map
  | nextEntry distance => exact hnext distance
  | nextValue distance => exact (hnext distance).except_map
  | nextKey distance => exact (hnext distance).except_map
  | previousEntries size => exact hearlier size
  | previousValues size => exact (hearlier size).except_map
  | previousKeys size => exact (hearlier size).except_map
  | nextEntries size => exact hlater size
  | nextValues size => exact (hlater size).except_map

theorem steady_between (first last : Instant) :
    Steady count alike alike (query.between first last) := by
  unfold between
  apply (h.adjust query.options last).bind
  intro last
  exact (h.scanFrom first).bind fun _ => steady_pure _

theorem steady_pull (range : Range query.view.archive.Scan) :
    Steady count alike alike (query.pull range) := by
  unfold pull
  dsimp only
  split
  · exact steady_pure _
  · split
    · exact steady_pure _
    · apply (h.pull range.scan).bind
      intro r
      split
      · split
        · exact steady_pure _
        · exact steady_pure _
      · exact steady_pure _

theorem steady_pull_map (f : Entry V -> α) (range : Range query.view.archive.Scan) :
    Steady count alike alike (Pull.map f query.pull range) :=
  (steady_pull h range).bind fun _ => steady_pure _

end Steady

theorem proper_put {p : Engine.State V × W} (hp : p.1.Proper) (key : Instant) (q : Question) :
    After (q.put query key).run p (fun _ p' => p'.1.Proper) := by
  unfold After
  rw [Question.perform_put]
  exact (reveals_whole key hp q).1

end Query

/-!
## The view of a replica
-/

/-- A horizon that is hoisted is read as before, or need not be read. -/
theorem Horizon.highest_hoist {n : Type -> Type} [Monad n]
    (f : forall {α : Type}, m α -> n α) (horizon : Horizon m) :
    (horizon.hoist f).highest = pure none ∨
      (horizon.hoist f).highest = f horizon.highest := by
  cases horizon with
  | unbounded => exact Or.inl rfl
  | pulled read => exact Or.inr rfl
  | pushed read write => exact Or.inr rfl

namespace Replica

variable {replica : Replica m V}

theorem steadfast_view (h : replica.Forward count)
    (hl : forall e, Steady (count ∘ Prod.snd) (Calm count) (Calm count) (replica.listener e)) :
    replica.view.Steadfast (count ∘ Prod.snd) (Renewed count) where
  count_eq p q hpq := congrArg count (drifts_renewed.world p q hpq)
  lookup key := (steady_lookup h hl key).imp (fun _ _ hpq => hpq) fun _ _ => Or.inl
  previousKey key := steady_call drifts_renewed (h.source.previousKey key)
  scanFrom _ := steady_pure _
  pull := steady_pull h hl drifts_renewed (fun _ _ hpq => hpq) fun _ _ => Or.inl
  horizon := by
    rcases replica.horizon.highest_hoist (n := StateT (State V) m) StateT.lift with hnone | hread
    · exact (congrArg (Steady _ _ _) hnone).mpr (steady_pure _)
    · exact (congrArg (Steady _ _ _) hread).mpr (steady_call drifts_renewed h.horizon)
  epoch := steady_call drifts_renewed fun w => (h.epoch.current w).2
  current p := after_state_lift.mpr (After.imp (h.epoch.current p.2) fun _ _ hn => hn.1)

end Replica

/-!
## Calls that are recorded
-/

namespace Source

theorem onward_lift {x : m α} (hx : Onward count x) :
    Onward (count ∘ Prod.snd) (StateT.lift x : StateT (List Call) m α) :=
  fun p => after_state_lift.mpr (hx p.2)

theorem onward_recorded {x : m α} (call : Call) (hx : Onward count x) :
    Onward (count ∘ Prod.snd) (call.recorded x) := by
  intro p
  rcases p with ⟨calls, w⟩
  apply after_bind.mpr
  apply after_state_modify.mpr
  exact after_state_monadLift.mpr (hx w)

theorem forward_recorded {source : Source m V} (h : source.Forward count) :
    source.recorded.Forward (count ∘ Prod.snd) where
  batchFrom start := onward_recorded _ (h.batchFrom start)
  latestUpTo key := onward_recorded _ (h.latestUpTo key)
  previousKey key := onward_recorded _ (h.previousKey key)
  nextKey key := onward_recorded _ (h.nextKey key)
  batchLimit := onward_recorded _ h.batchLimit

end Source

/-!
## Caches and what they are built over
-/

namespace Cache

structure Setting (m : Type -> Type) (V A : Type) where
  source : Source m V
  horizon : Horizon m
  epoch : Epoch m
  /-- The errand that the listener sets about with an entry. -/
  hear : Entry V -> m (Replica.Errand V A)
  effect : A -> m A
  /-- How deep the errands of the listener are nested. -/
  depth : Nat

namespace Setting

structure Forward (setting : Setting m V A) (count : W -> Nat) : Prop where
  source : setting.source.Forward count
  horizon : Onward count setting.horizon.highest
  epoch : setting.epoch.Names count
  hear : forall e, Onward count (setting.hear e)
  effect : forall x, Onward count (setting.effect x)

def replica (setting : Setting m V A) (settings : Replica.Settings) :
    Replica (StateT (List Source.Call) m) V :=
  (Replica.silent setting.source.recorded (setting.horizon.hoist StateT.lift)
    (setting.epoch.hoist StateT.lift) settings).attended (fun e => StateT.lift (setting.hear e))
    (fun x => StateT.lift (setting.effect x)) setting.depth

def cache (setting : Setting m V A) (config : Config) :
    Cache (StateT (Replica.State V) (StateT (List Source.Call) m)) V :=
  ofReplica config (setting.replica config.replica)

variable {setting : Setting m V A}

theorem replica_epoch (settings : Replica.Settings) :
    (setting.replica settings).epoch = setting.epoch.hoist StateT.lift := by
  unfold replica
  cases setting.depth <;> rfl

theorem replica_horizon (settings : Replica.Settings) :
    (setting.replica settings).horizon = setting.horizon.hoist StateT.lift := by
  unfold replica
  cases setting.depth <;> rfl

theorem Forward.after_highest (h : setting.Forward count) (p : List Source.Call × W) :
    After (setting.horizon.hoist StateT.lift : Horizon (StateT (List Source.Call) m)).highest p
      (fun _ p' => p'.1 = p.1 ∧ count p.2 ≤ count p'.2) := by
  apply Horizon.after_hoisted.mpr
  exact After.imp (h.horizon p.2) fun _ _ hle => ⟨rfl, hle⟩

theorem Forward.replica (h : setting.Forward count) (settings : Replica.Settings) :
    (setting.replica settings).Forward (count ∘ Prod.snd) ∧
      forall e, Steady ((count ∘ Prod.snd) ∘ Prod.snd) (Replica.Calm (count ∘ Prod.snd))
        (Replica.Calm (count ∘ Prod.snd)) ((setting.replica settings).listener e) := by
  apply Replica.steady_attended
  · constructor
    · exact Source.forward_recorded h.source
    · exact fun p => After.imp (h.after_highest p) fun _ _ hp => hp.2
    · constructor
      · exact fun p => after_state_lift.mpr (h.epoch.current p.2)
      · exact fun p => after_state_lift.mpr (h.epoch.advance p.2)
  · exact fun x => Source.onward_lift (h.effect x)
  · exact fun e => Source.onward_lift (h.hear e)

theorem Forward.steadfast (h : setting.Forward count) (config : Config) :
    (setting.cache config).view.Steadfast ((count ∘ Prod.snd) ∘ Prod.snd)
      (Replica.Renewed (count ∘ Prod.snd)) :=
  Replica.steadfast_view (h.replica config.replica).1 (h.replica config.replica).2

end Setting

end Cache
end AsOf
