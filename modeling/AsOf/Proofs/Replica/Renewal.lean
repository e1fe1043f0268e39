import AsOf.Proofs.Replica.Lookup
import AsOf.Proofs.Twin
import AsOf.Replica.Scan

/-!
# Replicas after a reset

What a replica remembers is of no use any more once it was cleared, or once the epoch has
advanced: the next request forgets it before it reads anything.  From then on nothing tells
the replica from a new one but its counters, which no request reads.  Of the source nothing is
assumed here but that its calls do not turn the epoch back.
-/

namespace AsOf

variable {m : Type -> Type} [Monad m] {V W α : Type} [Performs m W] {count : W -> Nat}

structure Source.Forward (source : Source m V) (count : W -> Nat) : Prop where
  batchFrom : forall start, Onward count (source.batchFrom start).run
  latestUpTo : forall key, Onward count (source.latestUpTo key).run
  previousKey : forall key, Onward count (source.previousKey key)
  nextKey : forall key, Onward count (source.nextKey key)
  batchLimit : Onward count source.batchLimit

structure Epoch.Names (epoch : Epoch m) (count : W -> Nat) : Prop where
  current : forall w, After epoch.current w (fun n w' => n = count w ∧ count w ≤ count w')
  advance : forall w, After epoch.advance w (fun _ w' => count w < count w')

namespace Replica

variable {replica : Replica m V} {p q : State V × W} {s t : State V} {mark : Bookmark}
  {key start : Instant}

structure Forward (replica : Replica m V) (count : W -> Nat) : Prop where
  source : replica.source.Forward count
  horizon : Onward count replica.horizon.highest
  epoch : replica.epoch.Names count

/-!
## States that differ in their counters
-/

def State.uncounted (s : State V) : State V :=
  { s with counters := {} }

structure Close (count : W -> Nat) (p q : State V × W) : Prop where
  world : p.2 = q.2
  memory : p.1.uncounted = q.1.uncounted
  epoch : p.1.epoch ≤ count p.2

structure Calm (count : W -> Nat) (p q : State V × W) : Prop extends Close count p q where
  pending : p.1.pending = []

structure State.Blank (s : State V) : Prop where
  loaded : s.loaded = .empty
  coverage : s.coverage = none
  memo : s.memo = .empty
  loadedFromStart : s.loadedFromStart = false

/-- Nothing that is remembered can be of use: there is nothing, or the epoch has passed it. -/
structure Void (count : W -> Nat) (p : State V × W) : Prop where
  pending : p.1.pending = []
  epoch : p.1.epoch ≤ count p.2
  lapsed : p.1.epoch < count p.2 ∨ p.1.Blank

def Renewed (count : W -> Nat) (p q : State V × W) : Prop :=
  Calm count p q ∨ p.2 = q.2 ∧ Void count p ∧ Void count q

theorem Close.change {g : State V -> State V} (h : Close count p q)
    (hg : forall s, (g s).uncounted = (g s.uncounted).uncounted)
    (hepoch : forall s, (g s).epoch = s.epoch) : Close count (g p.1, p.2) (g q.1, q.2) where
  world := h.world
  memory := by
    show (g p.1).uncounted = (g q.1).uncounted
    rw [hg, h.memory, ← hg]
  epoch := by
    show (g p.1).epoch ≤ count p.2
    rw [hepoch]
    exact h.epoch

theorem Calm.change {g : State V -> State V} (h : Calm count p q)
    (hg : forall s, (g s).uncounted = (g s.uncounted).uncounted)
    (hepoch : forall s, (g s).epoch = s.epoch) (hpending : (g p.1).pending = p.1.pending) :
    Calm count (g p.1, p.2) (g q.1, q.2) where
  toClose := h.toClose.change hg hepoch
  pending := hpending.trans h.pending

theorem State.Blank.eq (h : s.Blank) (hpending : s.pending = []) :
    s.uncounted = { epoch := s.epoch, bound := s.bound } := by
  rcases s with ⟨_, _, _, _, epoch, bound, _, _⟩
  cases h.loaded
  cases h.coverage
  cases h.memo
  cases h.loadedFromStart
  cases hpending
  rfl

theorem State.blank_forget (s : State V) : s.forget.Blank :=
  ⟨rfl, rfl, rfl, rfl⟩

theorem State.Blank.observeBound (h : s.Blank) (bound : Option Instant) :
    (s.observeBound bound).Blank := by
  unfold State.observeBound
  split
  · exact h
  · refine ⟨h.loaded, ?_, rfl, h.loadedFromStart⟩
    show s.coverage.bind _ = none
    rw [h.coverage]
    rfl

/-!
## Moves of the world
-/

structure Drifts (count : W -> Nat) (alike : State V × W -> State V × W -> Prop) : Prop where
  world : forall p q, alike p q -> p.2 = q.2
  later : forall p q w, alike p q -> count p.2 ≤ count w -> alike (p.1, w) (q.1, w)

theorem drifts_close : Drifts count (Close (V := V) count) where
  world _ _ h := h.world
  later _ _ _ h hle := ⟨rfl, h.memory, Nat.le_trans h.epoch hle⟩

theorem drifts_calm : Drifts count (Calm (V := V) count) where
  world _ _ h := h.world
  later _ _ _ h hle := ⟨⟨rfl, h.memory, Nat.le_trans h.epoch hle⟩, h.pending⟩

theorem Void.later {w : W} (h : Void count p) (hle : count p.2 ≤ count w) :
    Void count (p.1, w) where
  pending := h.pending
  epoch := Nat.le_trans h.epoch hle
  lapsed := h.lapsed.imp (fun hlt => Nat.lt_of_lt_of_le hlt hle) id

theorem drifts_renewed : Drifts count (Renewed (V := V) count) where
  world _ _ h := by
    rcases h with hcalm | ⟨hworld, -⟩
    · exact hcalm.world
    · exact hworld
  later p q w h hle := by
    rcases h with hcalm | ⟨hworld, hp, hq⟩
    · exact Or.inl (drifts_calm.later p q w hcalm hle)
    · exact Or.inr ⟨rfl, hp.later hle, hq.later (hworld ▸ hle)⟩

/-!
## Steady changes and calls
-/

def Even (count : W -> Nat) (x : StateT (State V) m α) : Prop :=
  Steady (count ∘ Prod.snd) (Close count) (Close count) x

section Rules

theorem steady_call {alike : State V × W -> State V × W -> Prop} {x : m α}
    (hdrifts : Drifts count alike) (hx : Onward count x) :
    Steady (count ∘ Prod.snd) alike alike (StateT.lift x : StateT (State V) m α) := by
  apply steady_lift
  intro p q h
  rcases p with ⟨s, w⟩
  rcases q with ⟨t, v⟩
  cases hdrifts.world _ _ h
  exact ⟨rfl, hdrifts.later _ _ _ h (hx w), hx w⟩

theorem even_modify {g : State V -> State V}
    (hg : forall s, (g s).uncounted = (g s.uncounted).uncounted)
    (hepoch : forall s, (g s).epoch = s.epoch) :
    Even (m := m) count (modify g : Action m V PUnit).run :=
  Steady.except_lift (steady_modify fun _ _ h => h.change hg hepoch)

theorem even_modify_bind {g : State V -> State V} {f : PUnit -> Action m V α}
    (hg : forall s, (g s).uncounted = (g s.uncounted).uncounted)
    (hepoch : forall s, (g s).epoch = s.epoch) (hf : Even count (f ⟨⟩).run) :
    Even count (modify g >>= f : Action m V α).run :=
  (even_modify hg hepoch).except_bind fun _ => hf

theorem even_look {x : m α} (hx : Onward count x) : Even count (liftM x : Action m V α).run :=
  Steady.except_lift (steady_call drifts_close hx)

theorem even_reading {f : State V -> Action m V α} (hread : forall s, f s.uncounted = f s)
    (hf : forall s, Even count (f s).run) : Even count (get >>= f : Action m V α).run :=
  steady_reading State.uncounted hread (fun _ _ h => h.memory) hf

theorem even_ask {key : Instant} {question : ExceptT String m α}
    (hx : Onward count question.run) : Even count (ask key question : Action m V α).run :=
  steady_call drifts_close fun w => after_except_adapt.mpr (hx w)

end Rules

/-!
## Reading the source
-/

section Calls

variable (h : replica.Forward count)

include h

theorem even_probe (key : Instant) : Even count (replica.probe key).run := by
  unfold probe
  exact even_modify_bind (fun _ => rfl) (fun _ => rfl) (even_ask (h.source.latestUpTo key))

omit h in
theorem uncounted_storePage (s : State V) (page : Series V) :
    (s.storePage page).uncounted = s.uncounted.storePage page := by
  rw [State.storePage_eq, State.storePage_eq]
  generalize page.toList = entries
  induction entries generalizing s with
  | nil => rfl
  | cons e rest ih => exact ih (s.store e)

omit h in
theorem even_absorb (start : Instant) (batch : List (Entry V)) :
    Even (m := m) count (absorb start batch).run := by
  unfold absorb
  refine even_modify_bind (fun s => ?_) (fun s => ?_) (steady_except_pure _)
  · rw [uncounted_storePage, uncounted_storePage]
    rfl
  · exact State.epoch_storePage _ _

theorem even_fill (start : Instant) : Even count (replica.fill start).run := by
  unfold fill
  refine even_modify_bind (fun _ => rfl) (fun _ => rfl) ?_
  apply (even_ask (h.source.batchFrom start)).except_bind
  intro batch
  apply (even_absorb start batch).except_bind
  intro kept
  split
  · exact even_modify (fun _ => rfl) fun _ => rfl
  · exact steady_except_pure _

theorem even_fetch (mark : Bookmark) : Even count (replica.fetch mark).run := by
  unfold fetch
  refine even_modify_bind (fun _ => rfl) (fun _ => rfl) ?_
  apply (even_ask (h.source.batchFrom mark.start)).except_bind
  intro batch
  apply (even_look h.source.batchLimit).except_bind
  intro limit
  apply (even_absorb mark.start batch).except_bind
  intro kept
  dsimp only
  split
  · exact even_modify_bind (fun _ => rfl) (fun _ => rfl) (steady_except_pure _)
  · exact steady_except_pure _

theorem onward_onward (mark : Bookmark) (newest : Instant) :
    Onward count (replica.onward mark newest) := by
  unfold onward
  apply (h.source.nextKey newest).bind
  intro next
  split <;> exact onward_pure _

theorem onward_nextPage (mark : Bookmark) (full : Bool) (newest : Instant) :
    Onward count (replica.nextPage mark full newest) := by
  unfold nextPage
  split
  · exact onward_onward h mark newest
  · exact onward_pure _

theorem even_fetchUntil (goal : Instant) (mark : Bookmark) :
    Even count (replica.fetchUntil goal mark).run := by
  rw [fetchUntil]
  apply (even_fetch h mark).except_bind
  intro page
  split
  · exact steady_except_pure _
  · rename_i newest _
    apply (even_look (onward_onward h mark newest.key)).except_bind
    intro following
    cases following with
    | none => exact steady_except_pure _
    | some following =>
        dsimp only
        split
        · exact even_fetchUntil goal following.val
        · exact steady_except_pure _
termination_by mark.start.remaining
decreasing_by exact Instant.remaining_lt_of_lt following.property

/-!
## Lookups
-/

theorem even_resolveForward (key : Instant) : Even count (replica.resolveForward key).run := by
  unfold resolveForward
  apply even_reading fun _ => rfl
  intro before
  have hlast : Even count (do
      modify fun s => { s with loadedFromStart := s.loadedFromStart || before.isCold }
      return (<- get).loaded.latestUpTo key : Action m V (Option (Entry V))).run := by
    refine even_modify_bind (fun _ => rfl) (fun _ => rfl) ?_
    exact even_reading (fun _ => rfl) fun _ => steady_except_pure _
  dsimp only
  split
  · exact (even_fetchUntil h key _).except_bind fun _ => hlast
  · exact hlast

theorem even_resolveLatest (key : Instant) (latest : Entry V) :
    Even count (replica.resolveLatest key latest).run := by
  unfold resolveLatest
  split
  · exact steady_except_throw _
  · apply even_reading fun _ => rfl
    intro before
    have hlast : Even count (do
        modify fun s => s.cover ⟨latest.key, .included key⟩
        return some latest : Action m V (Option (Entry V))).run :=
      even_modify_bind (fun _ => rfl) (fun _ => rfl) (steady_except_pure _)
    refine even_modify_bind (fun _ => rfl) (fun _ => rfl) ?_
    dsimp only
    split
    · exact (even_fill h _).except_bind fun _ => hlast
    · exact hlast

theorem even_resolve (key : Instant) : Even count (replica.resolve key).run := by
  unfold resolve
  apply even_reading fun _ => rfl
  intro s
  split
  · exact even_modify_bind (fun _ => rfl) (fun _ => rfl) (steady_except_pure _)
  · refine even_modify_bind (fun _ => rfl) (fun _ => rfl) ?_
    apply (even_probe h key).except_bind
    intro found
    cases found with
    | some latest => exact even_resolveLatest h key latest
    | none => exact even_resolveForward h key

end Calls

/-!
## The first look at epoch and horizon
-/

theorem State.uncounted_observeEpoch (s : State V) (n : Nat) :
    (s.observeEpoch n).uncounted = (s.uncounted.observeEpoch n).uncounted := by
  unfold observeEpoch
  show State.uncounted _ = State.uncounted (if n = s.epoch then _ else _)
  split <;> rfl

theorem State.uncounted_observeBound (s : State V) (bound : Option Instant) :
    (s.observeBound bound).uncounted = (s.uncounted.observeBound bound).uncounted := by
  unfold observeBound
  show State.uncounted _ = State.uncounted (if bound = s.bound then _ else _)
  split <;> rfl

/-- What is of no use is forgotten at once, and what is left is a new memory. -/
theorem Void.observed {w : W} (h : Void count (s, w)) (bound : Option Instant) :
    ((s.observeEpoch (count w)).observeBound bound).uncounted =
      { epoch := count w, bound := bound } := by
  have hblank : (s.observeEpoch (count w)).Blank := by
    unfold State.observeEpoch
    split
    · rename_i heq
      exact h.lapsed.resolve_left fun hlt => Nat.ne_of_gt hlt heq
    · exact ⟨rfl, rfl, rfl, rfl⟩
  have hseen := (s.observeEpoch (count w)).bound_observeBound bound
  rw [(hblank.observeBound bound).eq ((s.pending_observed _ bound).trans h.pending), hseen.1,
    hseen.2, s.epoch_observeEpoch]

theorem perform_sync (replica : Replica m V) (s : State V) (w : W) :
    perform replica.sync (s, w) =
      let e := perform replica.epoch.current w
      let b := perform replica.horizon.highest e.2
      (⟨⟩, (s.observeEpoch e.1).observeBound b.1, b.2) := by
  apply perform_eq
  unfold sync
  simp only [after_bind, after_state_monadLift, after_state_modify]
  exact rfl

section Requests

variable (h : replica.Forward count)

include h

theorem steady_sync : Steady (count ∘ Prod.snd) (Renewed count) (Calm count) replica.sync := by
  intro p q hpq
  rcases p with ⟨s, w⟩
  rcases q with ⟨t, v⟩
  cases drifts_renewed.world _ _ hpq
  rcases h.epoch.current w with ⟨hcurrent, hle⟩
  have hbound := h.horizon (perform replica.epoch.current w).2
  unfold Twin
  rw [perform_sync, perform_sync]
  dsimp only
  rw [hcurrent]
  refine ⟨rfl, ⟨⟨rfl, ?_, ?_⟩, ?_⟩, Nat.le_trans hle hbound⟩
  · show State.uncounted _ = State.uncounted _
    rcases hpq with hcalm | ⟨-, hs, ht⟩
    · have hmemory : s.uncounted = t.uncounted := hcalm.memory
      rw [State.uncounted_observeBound, State.uncounted_observeEpoch, hmemory,
        ← State.uncounted_observeEpoch, ← State.uncounted_observeBound]
    · rw [hs.observed, ht.observed]
  · show State.epoch _ ≤ count _
    rw [(State.bound_observeBound _ _).2, State.epoch_observeEpoch]
    exact Nat.le_trans hle hbound
  · show State.pending _ = []
    rw [State.pending_observed]
    rcases hpq with hcalm | ⟨-, hs, -⟩
    · exact hcalm.pending
    · exact hs.pending

variable (hl : forall e, Steady (count ∘ Prod.snd) (Calm count) (Calm count) (replica.listener e))

include hl

omit h in
theorem steady_announce :
    Steady (count ∘ Prod.snd) (Close count) (Calm count) replica.announce := by
  have htake : Steady (m := StateT (State V) m) (count ∘ Prod.snd) (Close count) (Calm count)
      (modifyGet fun s => (s.pending, { s with pending := [] })) := by
    apply steady_modifyGet
    · intro p q hpq
      show p.1.uncounted.pending = q.1.uncounted.pending
      rw [hpq.memory]
    · intro p q hpq
      exact ⟨⟨hpq.world, congrArg (fun s => { s with pending := [] }) hpq.memory, hpq.epoch⟩, rfl⟩
  unfold announce
  apply htake.bind
  intro pending
  induction pending with
  | nil => exact steady_pure _
  | cons e rest ih => exact (hl e).bind fun _ => ih

omit h in
theorem steady_announcing {x : Action m V α} (hx : Even count x.run) :
    Steady (count ∘ Prod.snd) (Close count) (Calm count) (replica.announcing x).run := by
  unfold announcing
  apply Steady.bind hx
  intro r
  exact (steady_announce hl).bind fun _ => steady_pure r

theorem steady_lookup (key : Instant) :
    Steady (count ∘ Prod.snd) (Renewed count) (Calm count) (replica.lookup key).run := by
  unfold lookup
  apply (steady_sync h).lift_bind
  intro _
  refine steady_reading State.uncounted (fun _ => rfl) (fun _ _ hpq => hpq.memory) fun s => ?_
  split
  · have hcount : Steady (m := StateT (State V) m) (count ∘ Prod.snd) (Calm count) (Calm count)
        (modify State.countMemoHit) :=
      steady_modify fun p q hpq => hpq.change (fun _ => rfl) (fun _ => rfl) rfl
    exact hcount.lift_bind fun _ => steady_except_pure _
  · have hresolve : Even count (do
        let found <- replica.resolve key
        modify fun s => s.remember replica.settings.memoCapacity key found
        return found : Action m V (Option (Entry V))).run := by
      apply (even_resolve h key).except_bind
      intro found
      exact even_modify_bind (fun _ => rfl) (fun _ => rfl) (steady_except_pure _)
    exact (steady_announcing hl hresolve).imp (fun _ _ hpq => hpq.toClose) fun _ _ hpq => hpq

theorem steady_loadPage (mark : Bookmark) :
    Steady (count ∘ Prod.snd) (Renewed count) (Calm count) (replica.loadPage mark).run := by
  unfold loadPage
  apply (steady_sync h).lift_bind
  intro _
  exact (steady_announcing hl (even_fetch h mark)).imp (fun _ _ hpq => hpq.toClose)
    fun _ _ hpq => hpq

theorem steady_pull {alike : State V × W -> State V × W -> Prop} (hdrifts : Drifts count alike)
    (hbefore : forall p q, alike p q -> Renewed count p q)
    (hafter : forall p q, Calm count p q -> alike p q) (scan : Scan V) :
    Steady (count ∘ Prod.snd) alike alike (replica.pull scan) := by
  rw [pull]
  split
  · exact steady_pure _
  · split
    · exact steady_pure _
    · rename_i mark _
      apply ((steady_loadPage h hl mark).imp hbefore hafter).bind
      intro r
      cases r with
      | error e => exact steady_pure _
      | ok page =>
          dsimp only
          split
          · exact steady_pure _
          · rename_i newest _
            apply (steady_call hdrifts (onward_nextPage h mark page.full newest.key)).bind
            intro next
            exact steady_pull hdrifts hbefore hafter
              (scan.turned page.entries (next.map Subtype.val))
termination_by scan.measure
decreasing_by exact Scan.measure_turned_lt ‹_› page.entries next

end Requests

theorem Renewed.kept (h : Renewed count p q) : p.1.pending = [] ∧ p.1.epoch ≤ count p.2 := by
  rcases h with hcalm | ⟨-, hvoid, -⟩
  · exact ⟨hcalm.pending, hcalm.epoch⟩
  · exact ⟨hvoid.pending, hvoid.epoch⟩

theorem Void.forget (h : Void count p) : Void count (p.1.forget, p.2) where
  pending := h.pending
  epoch := h.epoch
  lapsed := Or.inr p.1.blank_forget

theorem Renewed.forget (h : Renewed count p q) :
    Renewed count (p.1.forget, p.2) (q.1.forget, q.2) := by
  rcases h with hcalm | ⟨hworld, hp, hq⟩
  · exact Or.inl (hcalm.change (fun _ => rfl) (fun _ => rfl) rfl)
  · exact Or.inr ⟨hworld, hp.forget, hq.forget⟩

/-!
## Listeners
-/

/-- What a listener goes on to do, by what it learns from the replica and from elsewhere. -/
inductive Errand (V A : Type) where
  | done
  | lookup (key : Instant) (next : Except QueryError (Option (Entry V)) -> Errand V A)
  | pull (scan : Scan V) (next : Option (Except QueryError (Entry V)) × Scan V -> Errand V A)
  | clear (next : Errand V A)
  /-- Something that does not concern the replica. -/
  | act (x : A) (next : A -> Errand V A)

variable {A : Type}

def Errand.conduct (replica : Replica m V) (effect : A -> m A) :
    Errand V A -> StateT (State V) m Unit
  | .done => pure ()
  | .lookup key next => do
      let answer <- (replica.lookup key).run
      (next answer).conduct replica effect
  | .pull scan next => do
      let r <- replica.pull scan
      (next r).conduct replica effect
  | .clear next => do
      modify State.forget
      next.conduct replica effect
  | .act x next => do
      let y <- effect x
      (next y).conduct replica effect

/--
A replica whose listener sets about an errand with each entry that it hears of, in which it hears
of further entries, up to a depth of nested errands.
-/
def attended (replica : Replica m V) (hear : Entry V -> m (Errand V A)) (effect : A -> m A) :
    Nat -> Replica m V
  | 0 => replica.withListener fun e => do
      let _ <- hear e
  | depth + 1 => replica.withListener fun e => do
      let errand <- hear e
      errand.conduct (replica.attended hear effect depth) effect

section Listeners

variable {hear : Entry V -> m (Errand V A)} {effect : A -> m A} (h : replica.Forward count)
  (heffect : forall x, Onward count (effect x))

include h heffect

theorem steady_conduct
    (hl : forall e, Steady (count ∘ Prod.snd) (Calm count) (Calm count) (replica.listener e))
    (errand : Errand V A) :
    Steady (count ∘ Prod.snd) (Calm count) (Calm count) (errand.conduct replica effect) := by
  induction errand with
  | done => exact steady_pure _
  | lookup key next ih =>
      apply ((steady_lookup h hl key).imp (fun _ _ => Or.inl) fun _ _ hpq => hpq).bind
      exact ih
  | pull scan next ih =>
      apply (steady_pull h hl drifts_calm (fun _ _ => Or.inl) (fun _ _ hpq => hpq) scan).bind
      exact ih
  | clear next ih =>
      have hforget : Steady (m := StateT (State V) m) (count ∘ Prod.snd) (Calm count) (Calm count)
          (modify State.forget) :=
        steady_modify fun p q hpq => hpq.change (fun _ => rfl) (fun _ => rfl) rfl
      exact hforget.bind fun _ => ih
  | act x next ih => exact (steady_call drifts_calm (heffect x)).bind ih

theorem steady_attended (hhear : forall e, Onward count (hear e)) (depth : Nat) :
    (replica.attended hear effect depth).Forward count ∧
      forall e, Steady (count ∘ Prod.snd) (Calm count) (Calm count)
        ((replica.attended hear effect depth).listener e) := by
  induction depth with
  | zero =>
      exact ⟨{ h with }, fun e =>
        (steady_call drifts_calm (hhear e)).bind fun _ => steady_pure _⟩
  | succ depth ih =>
      exact ⟨{ h with }, fun e => (steady_call drifts_calm (hhear e)).bind fun errand =>
        steady_conduct ih.1 heffect ih.2 errand⟩

end Listeners

end Replica
end AsOf
