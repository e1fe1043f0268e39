import AsOf.Proofs.Replica.Renewal
import AsOf.Proofs.Replica.Withdrawal

/-!
# The coverage is never inverted

The span that a replica covers is put together from instants that it was asked about, from keys
of entries it was handed, and from next keys that its source named in between.  A source may
answer as it likes and otherwise each time it is asked: batches need not be sorted, nor begin
where they should, and calls may fail.  As long as it names no next key before the entry that it
is asked about, no coverage ends before its start.  A retreat looks for an entry between the two,
so it never looks between bounds that an ordered map refuses.
-/

namespace AsOf

variable {V : Type}

/-!
## Bounds in an ordered map
-/

/--
Two bounds between which an ordered map refuses to look: the last instant is before the first, or
they are one instant that neither of the bounds includes.
-/
def Edge.Crossed (lower upper : Edge) : Prop :=
  exists first last, lower.key? = some first ∧ upper.key? = some last ∧
    (last < first ∨ first = last ∧ lower = .excluded first ∧ upper = .excluded last)

namespace Span

variable {span : Span} {loaded : Series V}

def bounds (span : Span) : Edge × Edge :=
  (.included span.start, span.edge)

theorem upright_iff_not_crossed :
    span.Upright ↔ ¬ Edge.Crossed span.bounds.1 span.bounds.2 := by
  constructor
  · rintro hupright ⟨first, last, hfirst, hlast, hlt | ⟨-, hexcluded, -⟩⟩
    · cases hfirst
      exact absurd (hupright last hlast) (Std.not_le.mpr hlt)
    · cases hexcluded
  · intro hnot upper hupper
    apply Std.not_lt.mp
    exact fun hlt => hnot ⟨span.start, upper, rfl, hupper, Or.inl hlt⟩

theorem Rests.upright (h : span.Rests loaded) : span.Upright := by
  rcases span with ⟨start, edge⟩
  intro upper hupper
  cases edge with
  | included last =>
      cases hupper
      rcases h with ⟨key, -, hstart, hle⟩
      exact Std.le_trans hstart hle
  | excluded last =>
      cases hupper
      exact h.2
  | unbounded => cases hupper

end Span

/-!
## Sources that go on
-/

variable {m : Type -> Type} [Monad m] {W A : Type} [Performs m W]

/--
A source that names no next key before an entry that it has handed out.  Whatever else it
answers, it may answer in one way now and in another way later.
-/
structure Source.GoesOn (source : Source m V) (handed : Entry V -> Prop) : Prop where
  batchFrom : forall start w, After (source.batchFrom start).run w (fun r _ =>
    WhenOk (fun batch => forall e, e ∈ batch -> handed e) r)
  nextKey : forall e w, handed e -> After (source.nextKey e.key) w (fun key _ => e.key ≤ key)

namespace Replica

variable {replica : Replica m V} {handed : Entry V -> Prop}

/-- What no change takes away is kept up over every source that goes on. -/
theorem upholds_of_stable {K : State V -> Prop} (hK : State.Stable K)
    (h : replica.source.GoesOn handed) :
    replica.Upholds (fun p : State V × W => K p.1) handed where
  epoch s _ hs := after_of_forall fun n _ => hK.epoch s n hs
  horizon s _ hs := after_of_forall fun bound _ => hK.bound s bound hs
  batchFrom _ w start hs := After.imp (h.batchFrom start w) fun _ _ hr => ⟨hs, hr⟩
  latestUpTo _ _ _ hs := after_of_forall fun _ _ => hs
  batchLimit _ _ hs := after_of_forall fun _ _ => hs
  nextKey _ w e hs hhanded := After.imp (h.nextKey e w hhanded) fun _ _ hle => ⟨hs, hle⟩
  aside s t _ hloaded hcoverage hepoch hbound hs :=
    hK.aside s t hloaded hcoverage hepoch hbound hs
  store s _ e hs := hK.store s e hs
  cover s _ span hs hrests := hK.cover s span hs hrests

/-!
## Listeners
-/

/-- An errand that pulls only scans that were begun or have been pulled before. -/
def Errand.Forward : Errand V A -> Prop
  | .done => True
  | .lookup _ next => forall answer, (next answer).Forward
  | .pull scan next => scan.Forward ∧ forall r, r.2.Forward -> (next r).Forward
  | .clear next => next.Forward
  | .act _ next => forall y, (next y).Forward

section Attended

variable {J : State V × W -> Prop} {hear : Entry V -> m (Errand V A)} {effect : A -> m A}
  (hclear : forall s w, J (s, w) -> J (s.forget, w))
  (heffect : forall x s w, J (s, w) -> After (effect x) w (fun _ w' => J (s, w')))

include hclear heffect

theorem upheld_conduct (h : replica.Upholds J handed) (hl : Spares J replica.listener)
    (errand : Errand V A) (hforward : errand.Forward) {p : State V × W} (hp : J p) :
    After (errand.conduct replica effect) p (fun _ p' => J p') := by
  induction errand generalizing p with
  | done => exact after_pure.mpr hp
  | lookup key next ih =>
      apply after_bind.mpr
      apply After.imp (upheld_lookup h hl hp key)
      exact fun answer p' hp' => ih answer (hforward answer) hp'
  | pull scan next ih =>
      apply after_bind.mpr
      apply After.imp (upheld_pull h hl scan hp hforward.1)
      exact fun r p' hpost => ih r (hforward.2 r hpost.2) hpost.1
  | clear next ih =>
      rcases p with ⟨s, w⟩
      apply after_bind.mpr
      apply after_state_modify.mpr
      exact ih hforward (hclear s w hp)
  | act x next ih =>
      rcases p with ⟨s, w⟩
      apply after_bind.mpr
      apply after_state_monadLift.mpr
      apply After.imp (heffect x s w hp)
      exact fun y w' hp' => ih y (hforward y) hp'

theorem upholds_attended (h : replica.Upholds J handed)
    (hhear : forall e s w, J (s, w) ->
      After (hear e) w (fun errand w' => J (s, w') ∧ errand.Forward)) (depth : Nat) :
    (replica.attended hear effect depth).Upholds J handed ∧
      Spares J (replica.attended hear effect depth).listener := by
  have hheard : forall go : Errand V A -> StateT (State V) m Unit,
      (forall errand p, errand.Forward -> J p -> After (go errand) p (fun _ p' => J p')) ->
      Spares J (fun e => do go (<- hear e) : Entry V -> StateT (State V) m Unit) := by
    intro go hgo e p hp
    rcases p with ⟨s, w⟩
    apply after_bind.mpr
    apply after_state_monadLift.mpr
    apply After.imp (hhear e s w hp)
    exact fun errand w' hpost => hgo errand (s, w') hpost.2 hpost.1
  induction depth with
  | zero => exact ⟨{ h with }, hheard _ fun _ _ _ hp => after_pure.mpr hp⟩
  | succ depth ih =>
      refine ⟨{ h with }, hheard _ fun errand p hforward hp => ?_⟩
      exact upheld_conduct hclear heffect ih.1 ih.2 errand hforward hp

end Attended

/-!
## Along a run
-/

namespace Desk

variable {x : Desk W V}

/-- A coverage, if there is one, that is not inverted, so that its entries can be looked for. -/
def Upright (x : Desk W V) : Prop :=
  forall span, x.memory.coverage = some span ->
    span.Upright ∧ ¬ Edge.Crossed span.bounds.1 span.bounds.2

theorem upright_of_resting (hx : x.memory.Resting) : x.Upright := by
  intro span hspan
  have hupright := (hx span hspan).upright
  exact ⟨hupright, Span.upright_iff_not_crossed.mp hupright⟩

/--
The coverage is never inverted: after every run of lookups, scans that are resumed at any time,
clears and moves of epoch, horizon and source, with listeners that do the same, over a source
that may answer as it likes, except that it names no next key before an entry it handed out.
-/
theorem upright_over_any_source {hear : Entry V -> m (Errand V A)} {effect : A -> m A}
    (h : replica.source.GoesOn handed)
    (hhear : forall e w, After (hear e) w (fun errand _ => errand.Forward)) (depth : Nat) (w : W)
    (commands : List (Command W)) :
    Throughout (step (replica.attended hear effect depth)) Upright
      (start (replica.attended hear effect depth) w) commands := by
  have hclear : forall (s : State V) (w : W), s.Resting -> s.forget.Resting :=
    fun _ _ _ => State.resting_of_none rfl
  have hattended : (replica.attended hear effect depth).Upholds (fun p => p.1.Resting) handed ∧
      Spares (fun p => p.1.Resting) (replica.attended hear effect depth).listener := by
    apply upholds_attended hclear _ (upholds_of_stable State.stable_resting h)
    · exact fun e _ w hs => After.imp (hhear e w) fun _ _ hforward => ⟨hs, hforward⟩
    · exact fun _ _ _ hs => after_of_forall fun _ _ => hs
  have hstep : forall (x : Desk W V) (c : Command W), x.Upheld (fun p => p.1.Resting) -> True ->
      (x.step (replica.attended hear effect depth) c).Upheld (fun p => p.1.Resting) :=
    fun x c hx _ => upheld_step hattended.1 hattended.2 hclear hx fun _ _ => hx.here
  apply throughout_of_kept hstep (fun x hx => upright_of_resting hx.here) _ each_true
  exact ⟨State.resting_of_none (coverage_start _ w),
    fun reading hreading => absurd hreading List.not_mem_nil⟩

/--
A source that answers in another way with every call: some fail, some name no latest entry, and
batches are out of order and begin before their start.
-/
def fickle : Source (StateM Nat) Nat where
  batchFrom start := ExceptT.mk fun calls =>
    (if calls % 5 = 3 then .error "unreachable"
      else .ok [⟨start.shift (.ofNat (calls + 2)), calls⟩, ⟨start.shift (-1), 0⟩,
        ⟨start.shift 1, 0⟩],
      calls + 1)
  latestUpTo key := ExceptT.mk fun calls =>
    (.ok (if calls % 3 = 0 then none else some ⟨key.shift (.negSucc calls), calls⟩), calls + 1)
  previousKey key := pure (key.shift (-1))
  nextKey key := fun calls => (key.shift (.ofNat (calls % 2)), calls + 1)
  batchLimit := pure (Positive.ofNat? 2)

theorem goesOn_fickle : fickle.GoesOn (fun _ => True) where
  batchFrom _ _ := after_of_forall fun r _ => by
    cases r with
    | error cause => trivial
    | ok batch => exact fun _ _ => trivial
  nextKey e _ _ := e.key.le_shift (Int.natCast_nonneg _)

def readOn (e : Entry Nat) : Errand Nat Unit :=
  .pull (.startAt e.key) fun r =>
    .lookup (e.key.shift 3) fun
      | .ok _ => .pull r.2 fun _ => .done
      | .error _ => .clear .done

theorem forward_readOn (e : Entry Nat) : (readOn e).Forward := by
  refine ⟨Scan.forward_startAt e.key, fun r hr answer => ?_⟩
  cases answer with
  | ok found => exact ⟨hr, fun _ _ => trivial⟩
  | error cause => trivial

def unsteady (settings : Settings) : Replica (StateM Nat) Nat :=
  let horizon := .pulled fun calls => (some (.ofNanos (.ofNat (calls / 4))), calls)
  let epoch :=
    { current := fun calls => (calls / 20, calls)
      advance := fun calls => (calls / 20 + 1, calls + 20) }
  .silent fickle horizon epoch settings

def unsettled : List (Command Nat) :=
  [.lookup (.ofNanos 10), .begin (.ofNanos 5), .pull 0, .lookup (.ofNanos 20), .move 27, .pull 0,
    .clear, .pull 0, .lookup (.ofNanos 15), .move 3, .lookup (.ofNanos 12)]

theorem upright_over_fickle_source :
    let replica := (unsteady {}).attended (fun e => pure (readOn e)) (pure : Unit -> _) 1
    Throughout (step replica) Upright (start replica 0) unsettled ∧
      (unsettled.foldl (step replica) (start replica 0)).memory.coverage.isSome = true := by
  constructor
  · apply upright_over_any_source goesOn_fickle
    exact fun e _ => forward_readOn e
  · decide +kernel

end Desk
end Replica
end AsOf
