import AsOf.Proofs.Replica.Lookup

/-!
# Listeners that look up

A listener may look up further instants in the replica that tells it of an entry,
and choose them by the answers.  Its lookups store entries as well, of which it is
told in turn; here the nesting is bounded, by a depth of any size.  Every lookup
that it makes is noted with its answer.
-/

namespace AsOf
namespace Replica

open Outlook

inductive Inquiry (V : Type) where
  | done
  | ask (key : Instant) (next : Except QueryError (Option (Entry V)) -> Inquiry V)

variable {m : Type -> Type} [Monad m] {V W : Type}

def Inquiry.conduct (replica : Replica m V) (note : Overheard V -> m Unit) :
    Inquiry V -> StateT (State V) m Unit
  | .done => pure ()
  | .ask key next => do
      let answer <- (replica.lookup key).run
      note ⟨key, answer⟩
      (next answer).conduct replica note

/-- A replica whose listener inquires of it, up to a depth of nested inquiries. -/
def overheard (replica : Replica m V) (note : Overheard V -> m Unit)
    (inquire : Entry V -> Inquiry V) : Nat -> Replica m V
  | 0 => replica.withListener fun _ => pure ()
  | depth + 1 =>
      replica.withListener fun e =>
        (inquire e).conduct (replica.overheard note inquire depth) note

variable [Performs m W] {o : Outlook W V} {next : Instant -> Instant} {replica : Replica m V}
  {note : Overheard V -> m Unit} {inquire : Entry V -> Inquiry V} {p p' : State V × W}

def Quiet (replica : Replica m V) : Prop :=
  forall e, replica.listener e = pure ()

theorem Quiet.listens (hquiet : replica.Quiet) : Listens o replica.listener := by
  intro e p hp
  rw [hquiet e]
  exact after_pure.mpr hp.refl

structure Noted (o : Outlook W V) (x : Overheard V) (w w' : W) : Prop where
  series : o.series w' = o.series w
  bound : o.bound w' = o.bound w
  epoch : o.epoch w' = o.epoch w
  limit : o.limit w' = o.limit w
  failures : o.failures w' = o.failures w
  overheard : o.overheard w' = o.overheard w ++ [x]
  ready : o.ready w -> o.ready w'

/-- The notes of a listener are found among what was overheard. -/
def Notes (o : Outlook W V) (note : Overheard V -> m Unit) : Prop :=
  forall x w, o.ready w -> After (note x) w (fun _ w' => Noted o x w w')

theorem Noted.follows {x : Overheard V} {w w₁ w₂ : W} (hw₁ : o.Follows w w₁)
    (hnoted : Noted o x w₁ w₂)
    (hx : o.Delivers w w₁ (· = (o.series w).latestUpTo x.key) x.answer) : o.Follows w w₂ where
  series := hnoted.series.trans hw₁.series
  bound := hnoted.bound.trans hw₁.bound
  epoch := hnoted.epoch.trans hw₁.epoch
  limit := hnoted.limit.trans hw₁.limit
  failures := by
    rw [hnoted.failures]
    exact hw₁.failures
  ready := fun hw => hnoted.ready (hw₁.ready hw)
  overheard := by
    have hsame : forall y : Overheard V,
        o.Delivers w w₁ (· = (o.series w).latestUpTo y.key) y.answer ->
        o.Delivers w w₂ (· = (o.series w).latestUpTo y.key) y.answer := by
      intro y hy
      cases hanswer : y.answer <;> rw [hanswer] at hy
      · simpa [Delivers, since, hnoted.failures] using hy
      · exact hy
    rcases hw₁.overheard with ⟨more, hmore, hright⟩
    refine ⟨more ++ [x], by rw [hnoted.overheard, hmore, List.append_assoc], ?_⟩
    intro y hy
    rcases List.mem_append.mp hy with hy | hy
    · exact hsame y (hright y hy)
    · exact hsame y (List.mem_singleton.mp hy ▸ hx)

theorem Advance.toProgress (ha : Advance o p p') (hp : Current o p) : Progress o p p' where
  follows := ha.follows
  sound := ha.follows.series ▸ ha.current.sound
  retains := ha.retains hp.epoch
  epoch := by rw [ha.current.epoch, ha.follows.epoch, hp.epoch]
  bound := by rw [ha.current.bound, ha.follows.bound, hp.bound]

theorem after_conduct (h : replica.Reads o next) (hl : Listens o replica.listener)
    (hnotes : Notes o note) (inquiry : Inquiry V) {p : State V × W} (hp : Current o p) :
    After (inquiry.conduct replica note) p (fun _ p' => Progress o p p') := by
  induction inquiry generalizing p with
  | done =>
      exact after_pure.mpr hp.refl
  | ask key following ih =>
      apply after_bind.mpr
      apply After.imp (after_lookup h hl hp.ready hp.trusted key)
      intro r p hpost
      rcases p with ⟨s₁, w₁⟩
      rcases hpost with ⟨hp₁, hr⟩
      apply after_bind.mpr
      apply after_state_monadLift.mpr
      apply After.imp (hnotes ⟨key, r⟩ w₁ hp₁.current.ready)
      intro _ w₂ hnoted
      have hprogress := hp₁.toProgress hp
      have hright := hr.imp fun found (hfound : Resolved (o.series p.2) key found s₁) => hfound.1
      have hall : Progress o p (s₁, w₂) :=
        { hprogress with follows := Noted.follows hprogress.follows hnoted hright }
      apply After.imp (ih r (hall.current hp))
      exact fun _ p' hp' => hall.trans hp'

theorem reads_withListener (h : replica.Reads o next)
    (listener : Entry V -> StateT (State V) m Unit) :
    (replica.withListener listener).Reads o next where
  source := h.source
  horizon := h.horizon
  epoch := h.epoch

/-- A listener that inquires leaves the replica right, at every depth. -/
theorem listens_overheard (h : replica.Reads o next) (hnotes : Notes o note) (depth : Nat) :
    (replica.overheard note inquire depth).Reads o next ∧
      Listens o (replica.overheard note inquire depth).listener := by
  induction depth with
  | zero =>
      exact ⟨reads_withListener h _, fun _ _ hp => after_pure.mpr hp.refl⟩
  | succ depth ih =>
      constructor
      · exact reads_withListener h _
      · intro e p hp
        exact after_conduct ih.1 ih.2 hnotes (inquire e) hp

end Replica
end AsOf
