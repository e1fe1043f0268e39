import AsOf.Cache
import AsOf.Proofs.Engine.View
import AsOf.Proofs.Replica.Listening
import AsOf.Proofs.Replica.Scan

/-!
# A replica is a faithful archive

To the layers above, a replica with its world is the world.  Such worlds are spoken
of as long as the replica can be trusted in them, and whatever its requests do leaves
it so.  In all of them the replica answers from the series, and its scans hand out what
they await.

A replica is in use while what it remembers is right and some scans, which were begun
before and are not yet done with, can still be pulled.
-/

namespace AsOf
namespace Replica

open Outlook

variable {m : Type -> Type} [Monad m] {V W : Type} [Performs m W] {o : Outlook W V}
  {next : Instant -> Instant} {held : Scan V -> Prop} {replica : Replica m V}
  {p p' : State V × W}

structure Lasting (o : Outlook W V) (K : State V × W -> Prop) : Prop where
  ready : forall p, K p -> o.ready p.2
  trusted : forall p, K p -> Trusted o p
  advance : forall p p', K p -> Advance o p p' -> K p'
  onward : forall p w, K p -> o.Follows p.2 w -> K (p.1, w)

variable {K : State V × W -> Prop}

theorem follows_part (hw : o.Follows p.2 p'.2) (hready : K p -> K p') :
    (o.part Prod.snd K).Follows p p' :=
  hw.part hready

theorem Lasting.follows_advance (hK : Lasting o K) (ha : Advance o p p') :
    (o.part Prod.snd K).Follows p p' :=
  follows_part ha.follows fun hp => hK.advance p p' hp ha

theorem Lasting.follows_onward (hK : Lasting o K) {w : W} (hw : o.Follows p.2 w) :
    (o.part Prod.snd K).Follows p (p.1, w) :=
  follows_part hw fun hp => hK.onward p w hp hw

def Awaits (o : Outlook W V) (next : Instant -> Instant) (p : State V × W) (scan : Scan V)
    (items : List (Entry V)) : Prop :=
  scan.Fit o next p ∧ items = scan.awaited (o.series p.2)

section Faithful

variable (h : replica.Reads o next) (hl : Listens o replica.listener) (hK : Lasting o K)

include h hl hK

theorem follows_pull {scan : Scan V} (hp : K p) (hscan : scan.Fit o next p) :
    After (replica.pull scan) p (fun r p' => (o.part Prod.snd K).Follows p p' ∧
      Pulled o next scan p.2 p' r ∧ r.2.Fit o next p') := by
  apply After.imp (after_pull h.pages hl (hK.ready p hp) hscan fun _ => hK.trusted p hp)
  intro r p' hpost
  rcases hpost with ⟨hpulled, hfit, ⟨-, rfl⟩ | ⟨-, ha⟩⟩
  · exact ⟨Follows.refl _ p', hpulled, hfit⟩
  · exact ⟨hK.follows_advance ha, hpulled, hfit⟩

theorem faithful_archive (hback : replica.source.StepsBack o) :
    replica.archive.Faithful (o.part Prod.snd K) (fun p scan => scan.Fit o next p) where
  lookup p key hp := by
    apply After.imp (after_lookup h hl (hK.ready p hp) (hK.trusted p hp) key)
    intro r p' hpost
    rcases hpost with ⟨ha, hr⟩
    exact ⟨hK.follows_advance ha, hr.imp fun found hfound => hfound.1⟩
  previousKey p e hp he := by
    apply after_state_monadLift.mpr
    apply After.imp (hback p.2 e (hK.ready p hp) he)
    intro k w' hpost
    rcases hpost with ⟨hw', hk⟩
    exact ⟨hK.follows_onward hw', hk⟩
  scanFrom p key hp := after_pure.mpr ⟨Follows.refl _ p, Scan.fit_startAt key p⟩
  pull p scan hp hscan := by
    apply After.imp (follows_pull h hl hK hp hscan)
    exact fun r p' hr => ⟨hr.1, hr.2.2⟩

theorem scans_archive : replica.archive.Scans (o.part Prod.snd K) (Awaits o next) where
  scanFrom p key hp := by
    apply after_pure.mpr
    exact ⟨Follows.refl _ p, Scan.fit_startAt key p, rfl⟩
  feeds p scan items hp hscan := by
    rcases hscan with ⟨hfit, rfl⟩
    apply After.imp (follows_pull h hl hK hp hfit)
    intro out p' hpost
    rcases out with ⟨r, scan'⟩
    rcases hpost with ⟨hp', hpulled, hfit'⟩
    constructor
    · exact hp'
    · match r, hpulled.outcome with
      | none, houtcome => exact houtcome.1
      | some (.ok e), houtcome =>
          have hseries : o.series p'.2 = o.series p.2 := hp'.series
          exact ⟨scan'.awaited (o.series p.2), houtcome, hfit', by rw [hseries]⟩
      | some (.error e), houtcome => exact houtcome.1

end Faithful

/-!
## The view of a cache
-/

def view (replica : Replica m V) : View (StateT (State V) m) V where
  archive := replica.archive
  horizon := replica.horizon.hoist StateT.lift
  epoch := replica.epoch.hoist StateT.lift

section View

variable (hK : Lasting o K)

include hK

theorem shows_hoisted {horizon : Horizon m} (h : horizon.Shows o) :
    (horizon.hoist StateT.lift : Horizon (StateT (State V) m)).Shows (o.part Prod.snd K) := by
  intro p hp
  have hready := hK.ready p hp
  rcases p with ⟨s, w⟩
  cases horizon with
  | unbounded =>
      exact after_pure.mpr ⟨(after_pure.mp (h w hready)).1, Follows.refl _ _⟩
  | pulled read =>
      apply after_state_lift.mpr
      exact After.imp (h w hready) fun b w' hw' => ⟨hw'.1, hK.follows_onward hw'.2⟩
  | pushed read write =>
      apply after_state_lift.mpr
      exact After.imp (h w hready) fun b w' hw' => ⟨hw'.1, hK.follows_onward hw'.2⟩

theorem shows_lifted {epoch : Epoch m} (h : epoch.Shows o) :
    (epoch.hoist StateT.lift : Epoch (StateT (State V) m)).Shows (o.part Prod.snd K) := by
  intro p hp
  have hready := hK.ready p hp
  rcases p with ⟨s, w⟩
  apply after_state_lift.mpr
  exact After.imp (h w hready) fun n w' hw' => ⟨hw'.1, hK.follows_onward hw'.2⟩

theorem reads_view (h : replica.Reads o next) (hl : Listens o replica.listener)
    (hback : replica.source.StepsBack o) :
    replica.view.Reads (o.part Prod.snd K) (fun p scan => Scan.Fit o next p scan) where
  archive := faithful_archive h hl hK hback
  horizon := shows_hoisted hK h.horizon
  epoch := shows_lifted hK h.epoch

theorem reads_ofReplica (h : replica.Reads o next) (hl : Listens o replica.listener)
    (hback : replica.source.StepsBack o) (config : Cache.Config) :
    (Cache.ofReplica config replica).view.Reads (o.part Prod.snd K)
      (fun p scan => Scan.Fit o next p scan) :=
  show replica.view.Reads _ _ from reads_view hK h hl hback

end View

/-!
## A replica in use
-/

structure Usable (o : Outlook W V) (next : Instant -> Instant) (held : Scan V -> Prop)
    (p : State V × W) : Prop extends Settled o p where
  scans : forall scan, held scan -> scan.Fit o next p

def outlook (o : Outlook W V) (next : Instant -> Instant) (held : Scan V -> Prop) :
    Outlook (State V × W) V :=
  o.part Prod.snd (Usable o next held)

/-- Whatever scan is fit when a request begins can be held until its end. -/
theorem Settled.usable (hp : Settled o p) : Usable o next (fun scan => scan.Fit o next p) p where
  toSettled := hp
  scans _ hscan := hscan

theorem lasting_usable (o : Outlook W V) (next : Instant -> Instant) (held : Scan V -> Prop) :
    Lasting o (Usable o next held) where
  ready _ hp := hp.ready
  trusted _ hp := hp.trusted
  advance _ _ hp ha := {
    toSettled := ha.current.toSettled
    scans := fun scan hscan => (hp.scans scan hscan).advance ha }
  onward _ _ hp hw := {
    ready := hw.ready hp.ready
    sound := hw.series ▸ hp.sound
    scans := fun scan hscan => (hp.scans scan hscan).onward hw.epoch }

end Replica

namespace Cache

variable {m : Type -> Type} [Monad m] {V W : Type} [Performs m W]

/-!
## Changes of a cache over a replica
-/

theorem perform_clear (config : Config) (replica : Replica m V)
    (p : Engine.State V × Replica.State V × W) :
    perform (ofReplica config replica).clear p = (⟨⟩, p.1.clear, p.2.1.forget, p.2.2) := by
  rcases p with ⟨engine, memory, w⟩
  apply perform_eq
  unfold Cache.clear
  apply after_bind.mpr
  apply after_state_modify.mpr
  exact after_state_monadLift.mpr (after_state_modify.mpr rfl)

theorem perform_raiseMaximum (cache : Cache m V) (size : Nat) (p : Engine.State V × W) :
    perform (cache.raiseMaximum size) p =
      ((p.1.raiseMaximum size).maximum, p.1.raiseMaximum size, p.2) := by
  rcases p with ⟨engine, w⟩
  apply perform_eq
  unfold Cache.raiseMaximum
  simp only [after_bind, after_state_modify, after_state_get, after_pure]

end Cache
end AsOf
