import AsOf.Cache
import AsOf.Proofs.Engine.Order

/-!
# Nothing is shown beyond the horizon

A cache is used in any way over any archive.  Between two calls the world may turn
into any other one: the horizon may move back or forth, the archive may change, lose
its entries or make them up.  What a query shows, unless it asks for the future, lies
up to the horizon of the moment at which it is made, and what a range hands out lies
up to the horizon of the moment at which it was begun.
-/

namespace AsOf

variable {m : Type -> Type} [Monad m] {V W α β : Type} [Performs m W]

namespace Query

/-!
## The entries that a query shows

A query for a value or a key shows a part of what the query for the whole entry shows.
-/

namespace Question

def whole : Question -> Question
  | entry | value => entry
  | previousEntry distance | previousValue distance | previousKey distance =>
      previousEntry distance
  | nextEntry distance | nextValue distance | nextKey distance => nextEntry distance
  | previousEntries count | previousValues count | previousKeys count => previousEntries count
  | nextEntries count | nextValues count => nextEntries count

def part : (q : Question) -> q.whole.Reply V -> q.Reply V
  | entry | previousEntry _ | nextEntry _ | previousEntries _ | nextEntries _ => id
  | value | previousValue _ | nextValue _ => Option.map Entry.value
  | previousKey _ | nextKey _ => Option.map Entry.key
  | previousValues _ | nextValues _ => List.map Entry.value
  | previousKeys _ => List.map Entry.key

def shown : (q : Question) -> q.whole.Reply V -> List (Entry V)
  | entry | value | previousEntry _ | previousValue _ | previousKey _ | nextEntry _ | nextValue _
  | nextKey _ => Option.toList
  | previousEntries _ | previousValues _ | previousKeys _ | nextEntries _ | nextValues _ => id

theorem perform_put (query : Query m V) (key : Instant) (q : Question)
    (p : Engine.State V × W) :
    perform (q.put query key).run p =
      ((perform (q.whole.put query key).run p).1.map q.part,
        (perform (q.whole.put query key).run p).2) := by
  have hid : forall {β : Type} (r : Except QueryError β × Engine.State V × W),
      r = (r.1.map id, r.2) := by
    intro β r
    rcases r with ⟨_ | _, _⟩ <;> rfl
  have hmap : forall {β γ : Type} (f : β -> γ) (x : Answer m V β),
      perform (f <$> x).run p = ((perform x.run p).1.map f, (perform x.run p).2) := by
    intro β γ f x
    exact perform_eq (after_except_map.mpr rfl)
  cases q with
  | entry => exact hid _
  | previousEntry distance => exact hid _
  | nextEntry distance => exact hid _
  | previousEntries count => exact hid _
  | nextEntries count => exact hid _
  | _ => exact hmap _ _

end Question

theorem mem_padFront {count : Nat} {run : List (Entry V)} {e : Entry V}
    (he : e ∈ padFront count run) : e ∈ run := by
  unfold padFront at he
  split at he
  · exact he
  · rcases List.mem_append.mp he with hcopy | he
    · rw [List.eq_of_mem_replicate hcopy]
      exact List.mem_cons_self ..
    · exact he

theorem mem_padBack {count : Nat} {run : List (Entry V)} {e : Entry V}
    (he : e ∈ padBack count run) : e ∈ run := by
  unfold padBack at he
  split at he
  · exact he
  · rename_i newest hlast
    rcases List.mem_append.mp he with he | hcopy
    · exact he
    · rw [List.eq_of_mem_replicate hcopy]
      exact List.mem_of_getLast? hlast

theorem whenOk_require {demand : Demand} {key : Instant} {units : Nat}
    {found : Option (Entry V)} {good : Option (Entry V) -> Prop} (h : good found) :
    WhenOk good (demand.require key units found) := by
  cases found with
  | some e => exact h
  | none =>
      unfold Demand.require
      dsimp only
      split
      · trivial
      · exact h

def Reveals (query : Query m V) (x : Answer m V α) (shown : α -> List (Entry V))
    (p : Engine.State V × W) : Prop :=
  After x.run p (fun r p' => p'.1.Proper ∧ WhenOk (fun reply =>
    forall e, e ∈ shown reply -> Within (query.view.bound query.options p.2) e.key) r)

section Questions

variable {query : Query m V} (key : Instant) {p : Engine.State V × W}

theorem reveals_settled {x : Answer m V α} {f : α -> Except QueryError β} {good : α -> Prop}
    {shown : β -> List (Entry V)}
    (hx : After x.run p (fun r p' => p'.1.Proper ∧ WhenOk good r))
    (hf : forall a, good a -> WhenOk (fun reply => forall e, e ∈ shown reply ->
      Within (query.view.bound query.options p.2) e.key) (f a)) :
    Reveals query (x >>= fun a => .settled (f a)) shown p := by
  apply after_except_bind.mpr
  apply After.imp hx
  intro r p' hpost
  cases r with
  | error e => exact ⟨hpost.1, trivial⟩
  | ok a => exact after_request_settled.mpr ⟨hpost.1, hf a hpost.2⟩

variable (hp : p.1.Proper)

include hp

theorem reveals_entry : Reveals query (query.entry key) Option.toList p := by
  apply After.imp (Engine.Question.inShape_put query.view hp query.options key .entry)
  intro r p' hpost
  refine ⟨hpost.1, hpost.2.imp fun found hfound e he => ?_⟩
  have hle := hfound e (Option.mem_toList.mp he)
  exact (query.view.within_about query.options key p.2).of_le hle

theorem reveals_previousEntry (distance : Nat) :
    Reveals query (query.previousEntry key distance) Option.toList p := by
  apply reveals_settled
    (Engine.Question.inShape_put query.view hp query.options key (.previousEntry distance))
  intro found hfound
  refine whenOk_require fun e he => ?_
  have hle := hfound e (Option.mem_toList.mp he)
  exact (query.view.within_about query.options key p.2).of_le hle

theorem reveals_nextEntry (distance : Nat) :
    Reveals query (query.nextEntry key distance) Option.toList p := by
  apply reveals_settled
    (Engine.Question.inShape_put query.view hp query.options key (.nextEntry distance))
  intro found hfound
  exact whenOk_require fun e he => hfound e (Option.mem_toList.mp he)

theorem reveals_previousEntries (count : Nat) :
    Reveals query (query.previousEntries key count) id p := by
  apply reveals_settled (f := fun run => .ok (if query.options.distinct then run else
      padFront count run))
    (Engine.Question.inShape_put query.view hp query.options key (.previousEntries count))
  intro run hrun e he
  have hin : e ∈ run := by
    dsimp only [id] at he
    split at he
    · exact he
    · exact mem_padFront he
  exact (query.view.within_about query.options key p.2).of_le (hrun.2.2 e hin)

theorem reveals_nextEntries (count : Nat) :
    Reveals query (query.nextEntries key count) id p := by
  apply reveals_settled (f := fun run => .ok (if query.options.distinct then run else
      padBack count run))
    (Engine.Question.inShape_put query.view hp query.options key (.nextEntries count))
  intro run hrun e he
  have hin : e ∈ run := by
    dsimp only [id] at he
    split at he
    · exact he
    · exact mem_padBack he
  exact hrun.2 e hin

theorem reveals_whole (q : Question) : Reveals query (q.whole.put query key) q.shown p := by
  cases q with
  | entry | value => exact reveals_entry key hp
  | previousEntry distance | previousValue distance | previousKey distance =>
      exact reveals_previousEntry key hp distance
  | nextEntry distance | nextValue distance | nextKey distance =>
      exact reveals_nextEntry key hp distance
  | previousEntries count | previousValues count | previousKeys count =>
      exact reveals_previousEntries key hp count
  | nextEntries count | nextValues count => exact reveals_nextEntries key hp count

end Questions

/-!
## What a range hands out
-/

section Ranges

variable (query : Query m V)

theorem after_pull_le (range : Range query.view.archive.Scan) (w : W) :
    After (query.pull range) w (fun r _ => r.2.last = range.last ∧
      forall e, r.1 = some (.ok e) -> e.key ≤ range.last) := by
  unfold pull
  dsimp only
  split
  · exact after_pure.mpr ⟨rfl, fun e he => by cases he⟩
  · split
    · exact after_pure.mpr ⟨rfl, fun e he => by cases he⟩
    · apply after_bind.mpr
      apply after_of_forall
      intro r w'
      rcases r with ⟨item, scan⟩
      dsimp only
      split
      · split
        · rename_i hle
          refine after_pure.mpr ⟨rfl, fun e he => ?_⟩
          cases he
          exact hle
        · exact after_pure.mpr ⟨rfl, fun e he => by cases he⟩
      · rename_i hnot
        refine after_pure.mpr ⟨rfl, fun e he => ?_⟩
        exact absurd he (hnot e)

theorem after_between_last (first last : Instant) (w : W) :
    After (query.between first last) w (fun range _ =>
      range.last = query.view.about query.options last w) := by
  unfold between
  apply after_bind.mpr
  apply After.imp (query.view.adjust_about query.options last w)
  intro a w' ha
  cases ha
  apply after_bind.mpr
  apply after_of_forall
  intro scan w''
  exact after_pure.mpr rfl

theorem perform_pull_map (range : Range query.view.archive.Scan) (f : Entry V -> α) (w : W) :
    perform (Pull.map f query.pull range) w =
      let r := perform (query.pull range) w
      ((r.1.1.map fun outcome => outcome.map f, r.1.2), r.2) := by
  unfold Pull.map
  rw [Performs.perform_bind, Performs.perform_pure]

end Ranges
end Query

namespace Cache

/-!
## A cache under traffic
-/

structure Begun (Scan : Type) where
  range : Query.Range Scan
  bound : Option Instant

structure Traffic (Scan W V : Type) where
  world : W
  engine : Engine.State V
  ranges : List (Begun Scan) := []

namespace Traffic

inductive Command (W : Type) where
  /-- A request that is put to the engine itself. -/
  | request (options : Options) (key : Instant) (q : Engine.Question)
  | ask (options : Options) (key : Instant) (q : Query.Question)
  | begin (options : Options) (first last : Instant)
  | pull (index : Nat)
  | clear
  | raiseMaximum (size : Nat)
  | move (world : W)

variable {cache : Cache m V} {x : Traffic cache.view.archive.Scan W V} {c : Command W}

def here {Scan : Type} (x : Traffic Scan W V) : Engine.State V × W :=
  (x.engine, x.world)

def passed {Scan : Type} (x : Traffic Scan W V) (p : Engine.State V × W) : Traffic Scan W V :=
  { x with engine := p.1, world := p.2 }

variable (cache)

def start (w : W) : Traffic cache.view.archive.Scan W V :=
  let r := perform cache.start w
  { engine := r.1, world := r.2 }

def step (x : Traffic cache.view.archive.Scan W V) :
    Command W -> Traffic cache.view.archive.Scan W V
  | .request options key q =>
      x.passed (perform (q.put cache.view options key).run x.here).2
  | .ask options key q =>
      x.passed (perform (q.put (cache.query options) key).run x.here).2
  | .begin options first last =>
      let r := perform ((cache.query options).between first last) x.world
      { x with
        world := r.2
        ranges := x.ranges ++ [⟨r.1, cache.view.bound options x.world⟩] }
  | .pull index =>
      match x.ranges[index]? with
      | none => x
      | some begun =>
          let r := perform ((cache.query {}).pull begun.range) x.world
          { x with world := r.2, ranges := x.ranges.set index ⟨r.1.2, begun.bound⟩ }
  | .clear =>
      x.passed (perform cache.clear x.here).2
  | .raiseMaximum size =>
      x.passed (perform (cache.raiseMaximum size) x.here).2
  | .move w =>
      { x with world := w }

/--
What a command shows is in shape.  A reply of the engine is about the instant that the
horizon of its moment allows; a reply to a query is a part of entries up to that
horizon, and so is what a range hands out, of entries up to the horizon of its begin.
-/
def Discreet (x : Traffic cache.view.archive.Scan W V) : Command W -> Prop
  | .request options key q =>
      After (q.put cache.view options key).run x.here (fun r _ =>
        WhenOk (q.InShape (cache.view.about options key x.world)
          (cache.view.bound options x.world)) r)
  | .ask options key q => exists whole : Except QueryError (q.whole.Reply V),
      After (q.whole.put (cache.query options) key).run x.here (fun r _ => r = whole) ∧
        After (q.put (cache.query options) key).run x.here (fun r _ => r = whole.map q.part) ∧
        WhenOk (fun reply => forall e, e ∈ q.shown reply ->
          Within (cache.view.bound options x.world) e.key) whole
  | .pull index => forall begun, x.ranges[index]? = some begun ->
      let query := cache.query {}
      exists item : Option (Except QueryError (Entry V)),
        After (query.pull begun.range) x.world (fun r _ => r.1 = item) ∧
          After (query.pullKey begun.range) x.world
            (fun r _ => r.1 = item.map fun outcome => outcome.map Entry.key) ∧
          After (query.pullValue begun.range) x.world
            (fun r _ => r.1 = item.map fun outcome => outcome.map Entry.value) ∧
          forall e, item = some (.ok e) -> Within begun.bound e.key
  | _ => True

structure Guarded (x : Traffic cache.view.archive.Scan W V) : Prop where
  engine : x.engine.Proper
  ranges : forall begun, begun ∈ x.ranges -> Within begun.bound begun.range.last

theorem guarded_start (w : W) : Guarded cache (start cache w) where
  engine := Engine.proper_start cache.view cache.config.kind cache.config.maximum
  ranges _ hbegun := absurd hbegun List.not_mem_nil

variable {cache}

theorem Guarded.request (hx : Guarded cache x) (options : Options) (key : Instant)
    (q : Engine.Question) :
    Discreet cache x (.request options key q) ∧
      Guarded cache (x.step cache (.request options key q)) := by
  have hput := Engine.Question.inShape_put (p := x.here) cache.view hx.engine options key q
  exact ⟨hput.2, hput.1, hx.ranges⟩

theorem Guarded.ask (hx : Guarded cache x) (options : Options) (key : Instant)
    (q : Query.Question) :
    Discreet cache x (.ask options key q) ∧
      Guarded cache (x.step cache (.ask options key q)) := by
  have hwhole : Query.Reveals (cache.query options) (q.whole.put (cache.query options) key)
      q.shown x.here :=
    Query.reveals_whole key hx.engine q
  have hpart := Query.Question.perform_put (cache.query options) key q x.here
  constructor
  · exact ⟨_, rfl, congrArg Prod.fst hpart, hwhole.2⟩
  · constructor
    · show (perform (q.put (cache.query options) key).run x.here).2.1.Proper
      rw [hpart]
      exact hwhole.1
    · exact hx.ranges

theorem Guarded.begin (hx : Guarded cache x) (options : Options) (first last : Instant) :
    Guarded cache (x.step cache (.begin options first last)) where
  engine := hx.engine
  ranges begun hbegun := by
    rcases List.mem_append.mp hbegun with hold | hnew
    · exact hx.ranges begun hold
    · cases List.mem_singleton.mp hnew
      have hlast := (cache.query options).after_between_last first last x.world
      show Within (cache.view.bound options x.world)
        (perform ((cache.query options).between first last) x.world).1.last
      rw [hlast]
      exact cache.view.within_about options last x.world

theorem Guarded.pull (hx : Guarded cache x) (index : Nat) :
    Discreet cache x (.pull index) ∧ Guarded cache (x.step cache (.pull index)) := by
  constructor
  · intro begun hget query
    have hlast := hx.ranges begun (List.mem_of_getElem? hget)
    have hpull := query.after_pull_le begun.range x.world
    refine ⟨_, rfl, ?_, ?_, fun e he => hlast.of_le (hpull.2 e he)⟩
    · exact congrArg (fun r => r.1.1) (query.perform_pull_map begun.range Entry.key x.world)
    · exact congrArg (fun r => r.1.1) (query.perform_pull_map begun.range Entry.value x.world)
  · cases hget : x.ranges[index]? with
    | none => simpa only [step, hget] using hx
    | some begun =>
        simp only [step, hget]
        have hlast := hx.ranges begun (List.mem_of_getElem? hget)
        have hpull := (cache.query {}).after_pull_le begun.range x.world
        refine ⟨hx.engine, fun other hother => ?_⟩
        rcases List.mem_or_eq_of_mem_set hother with hold | rfl
        · exact hx.ranges other hold
        · show Within begun.bound (perform ((cache.query {}).pull begun.range) x.world).1.2.last
          rw [hpull.1]
          exact hlast

theorem Guarded.clear (hx : Guarded cache x) : Guarded cache (x.step cache .clear) where
  engine := by
    have hclear : After cache.clear x.here (fun _ p => p.1 = x.engine.clear) := by
      unfold Cache.clear
      apply after_bind.mpr
      apply after_state_modify.mpr
      apply after_state_monadLift.mpr
      exact after_of_forall fun _ _ => rfl
    show (perform cache.clear x.here).2.1.Proper
    rw [hclear]
    exact hx.engine.clear
  ranges := hx.ranges

theorem Guarded.raiseMaximum (hx : Guarded cache x) (size : Nat) :
    Guarded cache (x.step cache (.raiseMaximum size)) where
  engine := by
    have hraise : After (cache.raiseMaximum size) x.here (fun _ p =>
        p.1 = x.engine.raiseMaximum size) := by
      unfold Cache.raiseMaximum
      apply after_bind.mpr
      apply after_state_modify.mpr
      apply after_bind.mpr
      apply after_state_get.mpr
      exact after_pure.mpr rfl
    show (perform (cache.raiseMaximum size) x.here).2.1.Proper
    rw [hraise]
    exact hx.engine.raiseMaximum size
  ranges := hx.ranges

/-- Every command shows nothing that it should not, and leaves a cache that is guarded. -/
theorem guarded_step (hx : Guarded cache x) :
    Discreet cache x c ∧ Guarded cache (x.step cache c) := by
  cases c with
  | request options key q => exact hx.request options key q
  | ask options key q => exact hx.ask options key q
  | begin options first last => exact ⟨trivial, hx.begin options first last⟩
  | pull index => exact hx.pull index
  | clear => exact ⟨trivial, hx.clear⟩
  | raiseMaximum size => exact ⟨trivial, hx.raiseMaximum size⟩
  | move w => exact ⟨trivial, hx.engine, hx.ranges⟩

/--
Nothing beyond the horizon is shown, and nothing out of shape: over any archive, which
may answer as it likes, by engines of either kind, whatever happened before.
-/
theorem shows_up_to_horizon (cache : Cache m V) (w : W) (commands : List (Command W)) :
    Each (step cache) (Discreet cache) (start cache w) commands :=
  each_of_kept (fun _ _ hx _ => guarded_step hx) (guarded_start cache w) each_true

end Traffic
end Cache
end AsOf
