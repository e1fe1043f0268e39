import AsOf.Entry
import AsOf.Horizon
import AsOf.Epoch
import AsOf.Count
import AsOf.Proofs.Perform
import AsOf.Proofs.Series

/-!
# Outlooks

An outlook says what is to be known of a world: the series that is looked up in
it, the horizon, the epoch, and the failures it has seen.  An action below the
level of requests leaves the first three alone, so that an answer can be compared
with the series of the world in which it was asked for.

An answer is delivered if it is as it should be, or if it is a failure that
happened on the way to it.
-/

namespace AsOf

structure Overheard (V : Type) where
  key : Instant
  answer : Except QueryError (Option (Entry V))

/-- What is to be known of a world. -/
structure Outlook (W V : Type) where
  series : W -> Series V
  bound : W -> Option Instant := fun _ => none
  epoch : W -> Nat := fun _ => 0
  limit : W -> Option Positive := fun _ => none
  /-- The failures of the layer below so far. -/
  failures : W -> List QueryError := fun _ => []
  /-- The lookups that listeners have made so far. -/
  overheard : W -> List (Overheard V) := fun _ => []
  /-- Whether the world is one of those that are spoken of. -/
  ready : W -> Prop := fun _ => True

namespace Outlook

variable {W V α β : Type} {o : Outlook W V} {w w' w'' : W}

def since (o : Outlook W V) (w w' : W) : List QueryError :=
  (o.failures w').drop (o.failures w).length

/-- A result is as it should be, or a failure that happened on the way to it. -/
def Delivers (o : Outlook W V) (w w' : W) (good : α -> Prop) : Except QueryError α -> Prop
  | .ok a => good a
  | .error e => e ∈ o.since w w'

/-- A world that is reached from another by actions below the level of requests. -/
structure Follows (o : Outlook W V) (w w' : W) : Prop where
  series : o.series w' = o.series w
  bound : o.bound w' = o.bound w
  epoch : o.epoch w' = o.epoch w
  limit : o.limit w' = o.limit w
  failures : exists more, o.failures w' = o.failures w ++ more
  overheard : exists more, o.overheard w' = o.overheard w ++ more ∧
    forall x, x ∈ more -> o.Delivers w w' (· = (o.series w).latestUpTo x.key) x.answer
  ready : o.ready w -> o.ready w'

theorem Delivers.imp {good better : α -> Prop} {r : Except QueryError α}
    (h : o.Delivers w w' good r) (himp : forall a, good a -> better a) :
    o.Delivers w w' better r := by
  cases r with
  | ok a => exact himp a h
  | error e => exact h

theorem Delivers.map {good : α -> Prop} {better : β -> Prop} {f : α -> β}
    {r : Except QueryError α} (h : o.Delivers w w' good r)
    (himp : forall a, good a -> better (f a)) : o.Delivers w w' better (r.map f) := by
  cases r with
  | ok a => exact himp a h
  | error e => exact h

theorem mem_since_of_append {more : List QueryError} {e : QueryError}
    (h : o.failures w' = o.failures w ++ more) : e ∈ o.since w w' ↔ e ∈ more := by
  simp [since, h]

theorem mem_since_of_later {e : QueryError} (h : o.Follows w w') (h' : o.Follows w' w'')
    (he : e ∈ o.since w' w'') : e ∈ o.since w w'' := by
  rcases h.failures with ⟨more, hmore⟩
  rcases h'.failures with ⟨later, hlater⟩
  have hall : o.failures w'' = o.failures w ++ (more ++ later) := by
    rw [hlater, hmore, List.append_assoc]
  rw [mem_since_of_append hall]
  exact List.mem_append.mpr (Or.inr ((mem_since_of_append hlater).mp he))

theorem mem_since_of_earlier {e : QueryError} (h : o.Follows w w') (h' : o.Follows w' w'')
    (he : e ∈ o.since w w') : e ∈ o.since w w'' := by
  rcases h.failures with ⟨more, hmore⟩
  rcases h'.failures with ⟨later, hlater⟩
  have hall : o.failures w'' = o.failures w ++ (more ++ later) := by
    rw [hlater, hmore, List.append_assoc]
  rw [mem_since_of_append hall]
  exact List.mem_append.mpr (Or.inl ((mem_since_of_append hmore).mp he))

theorem Delivers.later {good : α -> Prop} {r : Except QueryError α} (h : o.Follows w w')
    (h' : o.Follows w' w'') (hr : o.Delivers w' w'' good r) : o.Delivers w w'' good r := by
  cases r with
  | ok a => exact hr
  | error e => exact mem_since_of_later h h' hr

theorem Delivers.earlier {good : α -> Prop} {r : Except QueryError α} (h : o.Follows w w')
    (h' : o.Follows w' w'') (hr : o.Delivers w w' good r) : o.Delivers w w'' good r := by
  cases r with
  | ok a => exact hr
  | error e => exact mem_since_of_earlier h h' hr

theorem not_mem_since {e : QueryError} (hnone : o.failures w' = []) : ¬ e ∈ o.since w w' := by
  simp [since, hnone]

theorem Delivers.exists_ok {good : α -> Prop} {r : Except QueryError α}
    (h : o.Delivers w w' good r) (hnone : o.failures w' = []) : exists a, r = .ok a ∧ good a := by
  cases r with
  | ok a => exact ⟨a, rfl, h⟩
  | error e => exact absurd h (not_mem_since hnone)

theorem Delivers.eq_ok {a : α} {r : Except QueryError α} (h : o.Delivers w w' (· = a) r)
    (hnone : o.failures w' = []) : r = .ok a := by
  rcases h.exists_ok hnone with ⟨b, rfl, rfl⟩
  rfl

theorem Follows.refl (o : Outlook W V) (w : W) : o.Follows w w where
  series := rfl
  bound := rfl
  epoch := rfl
  limit := rfl
  failures := ⟨[], by simp⟩
  overheard := ⟨[], by simp, by simp⟩
  ready := id

theorem Follows.trans (h : o.Follows w w') (h' : o.Follows w' w'') : o.Follows w w'' where
  series := h'.series.trans h.series
  bound := h'.bound.trans h.bound
  epoch := h'.epoch.trans h.epoch
  limit := h'.limit.trans h.limit
  failures := by
    rcases h.failures with ⟨more, hmore⟩
    rcases h'.failures with ⟨later, hlater⟩
    exact ⟨more ++ later, by rw [hlater, hmore, List.append_assoc]⟩
  overheard := by
    rcases h.overheard with ⟨more, hmore, hright⟩
    rcases h'.overheard with ⟨later, hlater, hright'⟩
    refine ⟨more ++ later, by rw [hlater, hmore, List.append_assoc], ?_⟩
    intro x hx
    rcases List.mem_append.mp hx with hx | hx
    · exact (hright x hx).earlier h h'
    · have hx := (hright' x hx).later h h'
      rwa [h.series] at hx
  ready := fun hw => h'.ready (h.ready hw)

def deaf (o : Outlook W V) : Outlook W V :=
  { o with overheard := fun _ => [] }

theorem Follows.deaf (h : o.Follows w w') : o.deaf.Follows w w' :=
  { h with overheard := ⟨[], rfl, fun _ hx => absurd hx List.not_mem_nil⟩ }

/-- The worlds that are spoken of all hold one series, and nothing in them fails. -/
structure Still (o : Outlook W V) (series : Series V) : Prop where
  series : forall w, o.ready w -> o.series w = series
  failures : forall w, o.ready w -> o.failures w = []

def part {W' : Type} (o : Outlook W V) (part : W' -> W) (ready : W' -> Prop) : Outlook W' V where
  series w := o.series (part w)
  bound w := o.bound (part w)
  epoch w := o.epoch (part w)
  limit w := o.limit (part w)
  failures w := o.failures (part w)
  overheard w := o.overheard (part w)
  ready w := ready w

theorem Follows.part {W' : Type} {part : W' -> W} {ready : W' -> Prop} {p p' : W'}
    (h : o.Follows (part p) (part p')) (hready : ready p -> ready p') :
    (o.part part ready).Follows p p' where
  series := h.series
  bound := h.bound
  epoch := h.epoch
  limit := h.limit
  failures := h.failures
  overheard := h.overheard
  ready := hready

end Outlook

/-!
## Reading horizon and epoch
-/

variable {m : Type -> Type} [Monad m] {W V : Type} [Performs m W]

def Horizon.Shows (h : Horizon m) (o : Outlook W V) : Prop :=
  forall w, o.ready w -> After h.highest w (fun bound w' => bound = o.bound w ∧ o.Follows w w')

theorem Horizon.after_hoisted {σ : Type} {horizon : Horizon m} {s : σ} {w : W}
    {post : Option Instant -> σ × W -> Prop} :
    After (horizon.hoist StateT.lift : Horizon (StateT σ m)).highest (s, w) post ↔
      After horizon.highest w (fun bound w' => post bound (s, w')) := by
  cases horizon with
  | unbounded =>
      show After (pure none : StateT σ m (Option Instant)) _ _ ↔ After (pure none : m _) _ _
      rw [after_pure, after_pure]
  | pulled read => exact after_state_lift
  | pushed read write => exact after_state_lift

def Epoch.Shows (epoch : Epoch m) (o : Outlook W V) : Prop :=
  forall w, o.ready w -> After epoch.current w (fun n w' => n = o.epoch w ∧ o.Follows w w')

end AsOf
