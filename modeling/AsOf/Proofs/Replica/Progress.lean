import AsOf.Proofs.Source
import AsOf.Proofs.Replica.Sound

/-!
# Progress of a replica

The steps of a request to a replica only ever learn: they keep what is right about
the state, lose nothing that was loaded, and see the series, the horizon and the
epoch of one world.  A step yields an answer if it makes progress and its answer
is as it should be, or a failure on the way to it; what steps yield is composed
along their sequence.
-/

namespace AsOf
namespace Replica

open Outlook

variable {m : Type -> Type} [Monad m] {V W α β : Type} [Performs m W] {o : Outlook W V}
  {p p' p'' : State V × W}

structure Settled (o : Outlook W V) (p : State V × W) : Prop where
  ready : o.ready p.2
  sound : p.1.Sound (o.series p.2)

structure Current (o : Outlook W V) (p : State V × W) : Prop extends Settled o p where
  epoch : p.1.epoch = o.epoch p.2
  bound : p.1.bound = o.bound p.2

structure Progress (o : Outlook W V) (p p' : State V × W) : Prop where
  follows : o.Follows p.2 p'.2
  sound : p'.1.Sound (o.series p.2)
  retains : p.1.Retains p'.1
  epoch : p'.1.epoch = p.1.epoch
  bound : p'.1.bound = p.1.bound

theorem Progress.settled (h : Progress o p p') (hp : Settled o p) : Settled o p' where
  ready := h.follows.ready hp.ready
  sound := h.follows.series ▸ h.sound

theorem Progress.current (h : Progress o p p') (hp : Current o p) : Current o p' where
  toSettled := h.settled hp.toSettled
  epoch := by rw [h.epoch, hp.epoch, h.follows.epoch]
  bound := by rw [h.bound, hp.bound, h.follows.bound]

theorem Settled.refl (hp : Settled o p) : Progress o p p where
  follows := Follows.refl o p.2
  sound := hp.sound
  retains := State.Retains.refl p.1
  epoch := rfl
  bound := rfl

theorem Progress.trans (h : Progress o p p') (h' : Progress o p' p'') : Progress o p p'' where
  follows := h.follows.trans h'.follows
  sound := h.follows.series ▸ h'.sound
  retains := h.retains.trans h'.retains
  epoch := h'.epoch.trans h.epoch
  bound := h'.bound.trans h.bound

theorem Settled.onward {w : W} (hp : Settled o p) (h : o.Follows p.2 w) :
    Progress o p (p.1, w) :=
  { hp.refl with follows := h }

theorem Progress.of_state {s t : State V} {w : W} (hsound : t.Sound (o.series w))
    (hretains : s.Retains t) (hepoch : t.epoch = s.epoch) (hbound : t.bound = s.bound) :
    Progress o (s, w) (t, w) where
  follows := Follows.refl o w
  sound := hsound
  retains := hretains
  epoch := hepoch
  bound := hbound

theorem Settled.aside {t : State V} (hp : Settled o p) (hloaded : t.loaded = p.1.loaded)
    (hcoverage : t.coverage = p.1.coverage) (hmemo : t.memo = p.1.memo)
    (hepoch : t.epoch = p.1.epoch) (hbound : t.bound = p.1.bound) : Progress o p (t, p.2) :=
  .of_state (hp.sound.congr hloaded hcoverage hmemo) (fun _ he => hloaded ▸ he) hepoch hbound

def Yields (o : Outlook W V) (x : Action m V α) (p : State V × W)
    (good : α -> State V -> Prop) : Prop :=
  After x.run p fun r p' =>
    Progress o p p' ∧ o.Delivers p.2 p'.2 (fun a => good a p'.1) r

variable {x : Action m V α} {f : α -> Action m V β} {good : α -> State V -> Prop}
  {better : β -> State V -> Prop}

theorem Yields.imp {good' : α -> State V -> Prop} (h : Yields o x p good)
    (himp : forall a p', Progress o p p' -> good a p'.1 -> good' a p'.1) :
    Yields o x p good' :=
  After.imp h fun _ p' hr => ⟨hr.1, hr.2.imp fun a ha => himp a p' hr.1 ha⟩

theorem Yields.pure {a : α} (hp : Settled o p) (ha : good a p.1) :
    Yields o (Pure.pure a : Action m V α) p good :=
  after_except_pure.mpr ⟨hp.refl, ha⟩

theorem Yields.bind (hx : Yields o x p good)
    (hf : forall a p', Progress o p p' -> good a p'.1 -> Yields o (f a) p' better) :
    Yields o (x >>= f) p better := by
  apply after_except_bind.mpr
  apply After.imp hx
  intro r p' hr
  cases r with
  | error e =>
      exact hr
  | ok a =>
      apply After.imp (hf a p' hr.1 hr.2)
      intro r' p'' hr'
      exact ⟨hr.1.trans hr'.1, hr'.2.later hr.1.follows hr'.1.follows⟩

theorem Yields.get (hp : Settled o p) :
    Yields o (MonadState.get : Action m V (State V)) p (fun s s' => s = p.1 ∧ s' = p.1) := by
  rcases p with ⟨s, w⟩
  exact after_request_get.mpr ⟨hp.refl, rfl, rfl⟩

theorem Yields.modify {g : State V -> State V} (h : Progress o p (g p.1, p.2)) :
    Yields o (modify g : Action m V PUnit) p (fun _ s' => s' = g p.1) := by
  rcases p with ⟨s, w⟩
  exact after_request_modify.mpr ⟨h, rfl⟩

theorem Yields.ask {key : Instant} {question : ExceptT String m α} {right : α -> Prop}
    (hp : Settled o p)
    (h : After question.run p.2 fun r w' =>
      o.Follows p.2 w' ∧ o.Delivers p.2 w' right (r.mapError (.load key))) :
    Yields o (Replica.ask key question : Action m V α) p (fun a s' => right a ∧ s' = p.1) := by
  rcases p with ⟨s, w⟩
  apply after_request_handOn.mpr
  apply after_except_adapt.mpr
  apply After.imp h
  intro r w' hr
  exact ⟨hp.onward hr.1, hr.2.imp fun _ ha => ⟨ha, rfl⟩⟩

theorem Yields.look {x : m α} {right : α -> Prop} (hp : Settled o p)
    (h : After x p.2 fun a w' => right a ∧ o.Follows p.2 w') :
    Yields o (liftM x : Action m V α) p (fun a s' => right a ∧ s' = p.1) := by
  rcases p with ⟨s, w⟩
  apply after_request_lift.mpr
  apply After.imp h
  intro a w' ha
  exact ⟨hp.onward ha.2, ha.1, rfl⟩

end Replica
end AsOf
