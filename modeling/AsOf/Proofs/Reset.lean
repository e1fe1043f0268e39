import AsOf.Proofs.Ledger
import AsOf.Proofs.Renewal

/-!
# A reset leaves nothing behind

A cache over a source is used in any way, and then cleared or refreshed.  Beside it a new cache
is built over the same source, horizon, epoch and listener, with the maximum that the window has
grown to.  From then on both give the same replies to the same commands and make the same calls
to the source, whatever it answers, and however the world moves on.
-/

namespace AsOf
namespace Cache

variable {m : Type -> Type} [Monad m] {V W A α : Type} [Performs m W] {count : W -> Nat}

/-!
## Caches at work
-/

structure Service (W V : Type) where
  engine : Engine.State V
  memory : Replica.State V
  calls : List Source.Call
  world : W
  ranges : List (Query.Range (Replica.Scan V)) := []

namespace Service

inductive Command (W : Type) where
  | ask (options : Options) (key : Instant) (q : Query.Question)
  /-- Ask the replica itself. -/
  | lookup (key : Instant)
  | begin (options : Options) (first last : Instant)
  | pull (index : Nat)
  | pullKey (index : Nat)
  | pullValue (index : Nat)
  | clear
  | refresh
  | raiseMaximum (size : Nat)
  /-- Something changes outside: the data, the horizon, the listener or the epoch. -/
  | move (change : W -> W)

def Command.Forward (count : W -> Nat) : Command W -> Prop
  | move change => forall w, count w ≤ count (change w)
  | _ => True

inductive Reply (V : Type) where
  | answer (q : Query.Question) (r : Except QueryError (q.Reply V))
  | found (r : Except QueryError (Option (Entry V)))
  | item (r : Option (Except QueryError (Entry V)))
  | key (r : Option (Except QueryError Instant))
  | value (r : Option (Except QueryError V))
  | epoch (n : Nat)
  | maximum (size : Option Nat)
  | done

abbrev Action (m : Type -> Type) (V α : Type) :=
  StateT (Engine.State V) (StateT (Replica.State V) (StateT (List Source.Call) m)) α

def below (x : Service W V) : Replica.State V × List Source.Call × W :=
  (x.memory, x.calls, x.world)

def here (x : Service W V) : Engine.State V × Replica.State V × List Source.Call × W :=
  (x.engine, x.below)

def carryOut (x : Service W V) (action : Action m V α) : α × Service W V :=
  let r := perform action x.here
  (r.1, { x with
    engine := r.2.1, memory := r.2.2.1, calls := r.2.2.2.1, world := r.2.2.2.2 })

def opened (x : Service W V) (range : Query.Range (Replica.Scan V)) : Service W V :=
  { x with ranges := x.ranges ++ [range] }

def draw (x : Service W V) (index : Nat) (reply : Option (Except QueryError α) -> Reply V)
    (pull : Pull (StateT (Replica.State V) (StateT (List Source.Call) m)) α
      (Query.Range (Replica.Scan V))) : Reply V × Service W V :=
  match x.ranges[index]? with
  | none => (.done, x)
  | some range =>
      let r := x.carryOut (StateT.lift (pull range) : Action m V _)
      (reply r.1.1, { r.2 with ranges := r.2.ranges.set index r.1.2 })

variable (setting : Setting m V A) (config : Config)

def start (calls : List Source.Call) (w : W) : Service W V :=
  let r := perform (setting.replica config.replica).start (calls, w)
  let e := perform (setting.cache config).start r
  { engine := e.1, memory := e.2.1, calls := e.2.2.1, world := e.2.2.2 }

def serve (x : Service W V) : Command W -> Reply V × Service W V
  | .ask options key q =>
      let r := x.carryOut (q.put ((setting.cache config).query options) key).run
      (.answer q r.1, r.2)
  | .lookup key =>
      let r := x.carryOut (StateT.lift ((setting.replica config.replica).lookup key).run)
      (.found r.1, r.2)
  | .begin options first last =>
      let r := x.carryOut
        (StateT.lift (((setting.cache config).query options).between first last))
      (.done, r.2.opened r.1)
  | .pull index => x.draw index .item ((setting.cache config).query {}).pull
  | .pullKey index => x.draw index .key ((setting.cache config).query {}).pullKey
  | .pullValue index => x.draw index .value ((setting.cache config).query {}).pullValue
  | .clear =>
      (.done, (x.carryOut (setting.cache config).clear).2)
  | .refresh =>
      let r := x.carryOut (StateT.lift (setting.cache config).view.epoch.advance)
      (.epoch r.1, r.2)
  | .raiseMaximum size =>
      let r := x.carryOut ((setting.cache config).raiseMaximum size)
      (.maximum r.1, r.2)
  | .move change =>
      (.done, { x with world := change x.world })

def run (x : Service W V) : List (Command W) -> List (Reply V) × Service W V
  | [] => ([], x)
  | c :: rest =>
      let r := x.serve setting config c
      let later := r.2.run rest
      (r.1 :: later.1, later.2)

/-!
## Caches that go on alike
-/

variable {setting : Setting m V A} {config : Config} {kind : Engine.Kind} {x y : Service W V}

structure Like (count : W -> Nat) (kind : Engine.Kind) (x y : Service W V) : Prop where
  here : Engine.Renewed ((count ∘ Prod.snd) ∘ Prod.snd) (Replica.Renewed (count ∘ Prod.snd)) kind
    x.here y.here
  ranges : x.ranges = y.ranges

def Even (count : W -> Nat) (kind : Engine.Kind) (action : Action m V α) : Prop :=
  Steady (((count ∘ Prod.snd) ∘ Prod.snd) ∘ Prod.snd)
    (Engine.Renewed ((count ∘ Prod.snd) ∘ Prod.snd) (Replica.Renewed (count ∘ Prod.snd)) kind)
    (Engine.Renewed ((count ∘ Prod.snd) ∘ Prod.snd) (Replica.Renewed (count ∘ Prod.snd)) kind)
    action

theorem Like.outside (h : Like count kind x y) : x.calls = y.calls ∧ x.world = y.world :=
  Prod.ext_iff.mp (Replica.drifts_renewed.world _ _ h.here.below)

theorem Like.kind_eq (h : Like count kind x y) : x.engine.kind = kind := by
  rcases x with ⟨engine, memory, calls, w, ranges⟩
  rcases y with ⟨engine', memory', calls', w', ranges'⟩
  cases h.here <;> rfl

theorem Like.carryOut {action : Action m V α} (h : Like count kind x y)
    (haction : Even count kind action) :
    (x.carryOut action).1 = (y.carryOut action).1 ∧
      Like count kind (x.carryOut action).2 (y.carryOut action).2 := by
  have hpost := haction x.here y.here h.here
  exact ⟨hpost.1, hpost.2.1, h.ranges⟩

theorem Like.opened (h : Like count kind x y) (range : Query.Range (Replica.Scan V)) :
    Like count kind (x.opened range) (y.opened range) where
  here := h.here
  ranges := congrArg (· ++ [range]) h.ranges

theorem even_lift {x : StateT (Replica.State V) (StateT (List Source.Call) m) α}
    (hx : Steady ((count ∘ Prod.snd) ∘ Prod.snd) (Replica.Renewed (count ∘ Prod.snd))
      (Replica.Renewed (count ∘ Prod.snd)) x) : Even count kind (StateT.lift x) :=
  Engine.steady_lift (fun p q hpq => congrArg (count ∘ Prod.snd)
    (Replica.drifts_renewed.world p q hpq)) hx

theorem Like.draw {reply : Option (Except QueryError α) -> Reply V}
    {pull : Pull (StateT (Replica.State V) (StateT (List Source.Call) m)) α
      (Query.Range (Replica.Scan V))} (h : Like count kind x y) (index : Nat)
    (hpull : forall range, Even count kind (StateT.lift (pull range))) :
    (x.draw index reply pull).1 = (y.draw index reply pull).1 ∧
      Like count kind (x.draw index reply pull).2 (y.draw index reply pull).2 := by
  unfold Service.draw
  rw [← h.ranges]
  split
  · exact ⟨rfl, h⟩
  · rename_i range _
    rcases h.carryOut (hpull range) with ⟨hanswer, hlike⟩
    dsimp only
    rw [← hanswer, ← hlike.ranges]
    exact ⟨rfl, hlike.here, rfl⟩

theorem even_clear : Even count kind (setting.cache config).clear := by
  have hforget : Steady ((count ∘ Prod.snd) ∘ Prod.snd) (Replica.Renewed (count ∘ Prod.snd))
      (Replica.Renewed (count ∘ Prod.snd)) (setting.cache config).view.archive.clear :=
    steady_modify fun p q hpq => hpq.forget
  exact (steady_modify fun p q hpq => hpq.clear).bind fun _ => even_lift hforget

theorem even_raiseMaximum (size : Nat) :
    Even count kind ((setting.cache config).raiseMaximum size) := by
  intro p q hpq
  unfold Twin
  rw [perform_raiseMaximum, perform_raiseMaximum]
  have hraised := hpq.raiseMaximum size
  exact ⟨hraised.maximum_eq, hraised, Nat.le_refl _⟩

section Commands

variable (h : setting.Forward count) (config : Config)

include h

theorem even_put (options : Options) (key : Instant) (q : Query.Question) :
    Even count kind (q.put ((setting.cache config).query options) key).run :=
  Query.steady_put (h.steadfast config) key q

theorem even_lookup (key : Instant) :
    Even count kind (StateT.lift ((setting.replica config.replica).lookup key).run) := by
  have hreplica := h.replica config.replica
  apply even_lift
  exact (Replica.steady_lookup hreplica.1 hreplica.2 key).imp (fun _ _ hpq => hpq)
    fun _ _ => Or.inl

theorem even_between (options : Options) (first last : Instant) : Even count kind
    (StateT.lift (((setting.cache config).query options).between first last)) :=
  even_lift (Query.steady_between (h.steadfast config) first last)

theorem even_pull (range : Query.Range (Replica.Scan V)) :
    Even count kind (StateT.lift (((setting.cache config).query {}).pull range)) := by
  have hview : ((setting.cache config).query {}).view.Steadfast _ _ := h.steadfast config
  exact even_lift (Query.steady_pull hview range)

theorem even_pull_map (f : Entry V -> α) (range : Query.Range (Replica.Scan V)) :
    Even count kind (StateT.lift (Pull.map f ((setting.cache config).query {}).pull range)) := by
  have hview : ((setting.cache config).query {}).view.Steadfast _ _ := h.steadfast config
  exact even_lift (Query.steady_pull_map hview f range)

theorem even_advance :
    Even count kind (StateT.lift (setting.cache config).view.epoch.advance) := by
  have hadvance : Onward (count ∘ Prod.snd) (setting.replica config.replica).epoch.advance :=
    fun p => After.imp ((h.replica config.replica).1.epoch.advance p) fun _ _ => Nat.le_of_lt
  exact even_lift (Replica.steady_call Replica.drifts_renewed hadvance)

theorem like_serve (hxy : Like count kind x y) {c : Command W} (hc : c.Forward count) :
    (x.serve setting config c).1 = (y.serve setting config c).1 ∧
      Like count kind (x.serve setting config c).2 (y.serve setting config c).2 := by
  cases c with
  | ask options key q =>
      rcases hxy.carryOut (even_put h config options key q) with ⟨hanswer, hlike⟩
      exact ⟨congrArg (Reply.answer q) hanswer, hlike⟩
  | lookup key =>
      rcases hxy.carryOut (even_lookup h config key) with ⟨hanswer, hlike⟩
      exact ⟨congrArg Reply.found hanswer, hlike⟩
  | begin options first last =>
      rcases hxy.carryOut (even_between h config options first last) with ⟨hrange, hlike⟩
      dsimp only [serve]
      rw [← hrange]
      exact ⟨rfl, hlike.opened _⟩
  | pull index => exact hxy.draw index (even_pull h config)
  | pullKey index => exact hxy.draw index (even_pull_map h config Entry.key)
  | pullValue index => exact hxy.draw index (even_pull_map h config Entry.value)
  | clear => exact ⟨rfl, (hxy.carryOut even_clear).2⟩
  | refresh =>
      rcases hxy.carryOut (even_advance h config) with ⟨hepoch, hlike⟩
      exact ⟨congrArg Reply.epoch hepoch, hlike⟩
  | raiseMaximum size =>
      have hraise : Even count kind ((setting.cache config).raiseMaximum size) :=
        even_raiseMaximum size
      rcases hxy.carryOut hraise with ⟨hmaximum, hlike⟩
      exact ⟨congrArg Reply.maximum hmaximum, hlike⟩
  | move change =>
      rcases x with ⟨engine, memory, calls, w, ranges⟩
      rcases y with ⟨engine', memory', calls', w', ranges'⟩
      rcases hxy.outside with ⟨hcalls, hworld⟩
      cases hcalls
      cases hworld
      have hbelow := Replica.drifts_renewed.later _ _ (calls, change w) hxy.here.below (hc w)
      exact ⟨rfl, hxy.here.later hbelow (hc w) (hc w), hxy.ranges⟩

theorem like_run {commands : List (Command W)} (hxy : Like count kind x y)
    (hcommands : forall c, c ∈ commands -> c.Forward count) :
    (x.run setting config commands).1 = (y.run setting config commands).1 ∧
      Like count kind (x.run setting config commands).2 (y.run setting config commands).2 := by
  induction commands generalizing x y with
  | nil => exact ⟨rfl, hxy⟩
  | cons c rest ih =>
      rcases like_serve h config hxy (hcommands c (List.mem_cons_self ..)) with ⟨hreply, hlike⟩
      rcases ih hlike fun d hd => hcommands d (List.mem_cons_of_mem c hd) with ⟨hreplies, hlater⟩
      dsimp only [run]
      rw [hreply, hreplies]
      exact ⟨rfl, hlater⟩

end Commands

/-!
## Caches that keep nothing of use
-/

structure Spent (count : W -> Nat) (x : Service W V) : Prop where
  memory : Replica.Void (count ∘ Prod.snd) x.below
  window : forall s, x.engine = .windowed s -> s.epoch ≤ count x.world ∧
    Windowed.Lapsed ((count ∘ Prod.snd) ∘ Prod.snd) (s, x.below)

theorem Spent.like (hx : x.Spent count) (hy : y.Spent count) (hcalls : x.calls = y.calls)
    (hworld : x.world = y.world) (hkind : x.engine.kind = y.engine.kind)
    (hmaximum : x.engine.maximum = y.engine.maximum) (hranges : x.ranges = y.ranges) :
    Like count x.engine.kind x y := by
  have hbelow : Replica.Renewed (count ∘ Prod.snd) x.below y.below :=
    Or.inr ⟨Prod.ext hcalls hworld, hx.memory, hy.memory⟩
  refine ⟨?_, hranges⟩
  rcases x with ⟨engine, memory, calls, w, ranges⟩
  rcases y with ⟨engine', memory', calls', w', ranges'⟩
  cases engine with
  | direct n =>
      cases engine' with
      | direct k => exact .direct hbelow
      | windowed t => cases hkind
  | windowed s =>
      cases engine' with
      | direct k => cases hkind
      | windowed t =>
          have hs := hx.window s rfl
          have ht := hy.window t rfl
          exact .windowed ⟨hbelow, hmaximum, ⟨hs.1, ht.1⟩, Or.inr ⟨hs.2, ht.2⟩⟩

theorem Spent.later {w : W} (h : x.Spent count) (hle : count x.world ≤ count w)
    (ranges : List (Query.Range (Replica.Scan V))) :
    Spent count { x with world := w, ranges := ranges } where
  memory := h.memory.later hle
  window s hs :=
    have hwindow := h.window s hs
    ⟨Nat.le_trans hwindow.1 hle, hwindow.2.imp (fun hlt => Nat.lt_of_lt_of_le hlt hle) id⟩

theorem Like.epoch_le (h : Like count kind x x) {s : Windowed.State V}
    (hs : x.engine = .windowed s) : s.epoch ≤ count x.world := by
  rcases x with ⟨engine, memory, calls, w, ranges⟩
  cases hs
  cases h.here with
  | windowed renewed => exact renewed.epoch.1

/-- A reset leaves nothing of use, whether it is told to the cache or to its epoch. -/
theorem Like.spent_reset (h : setting.Forward count) (hx : Like count kind x x)
    {reset : Command W} (hreset : reset = .clear ∨ reset = .refresh) :
    Spent count (x.serve setting config reset).2 := by
  have hmemory := hx.here.below.kept
  rcases hreset with rfl | rfl
  · have hclear : (x.serve setting config .clear).2 =
        { x with engine := x.engine.clear, memory := x.memory.forget } := by
      dsimp only [serve, Service.carryOut]
      rw [Setting.cache, perform_clear]
      rfl
    rw [hclear]
    constructor
    · exact ⟨hmemory.1, hmemory.2, Or.inr x.memory.blank_forget⟩
    · intro s hs
      rcases Engine.State.window_clear hs with ⟨t, ht, hempty, hepoch⟩
      exact ⟨hepoch ▸ hx.epoch_le ht, Or.inr hempty⟩
  · have hadvance : After (StateT.lift (setting.cache config).view.epoch.advance : Action m V Nat)
        x.here (fun _ p => exists calls w, p = (x.engine, x.memory, calls, w) ∧
          count x.world < count w) := by
      apply after_state_lift.mpr
      apply after_state_lift.mpr
      apply After.imp ((h.replica config.replica).1.epoch.advance (x.calls, x.world))
      exact fun _ p hlt => ⟨p.1, p.2, rfl, hlt⟩
    rcases hadvance with ⟨calls, w, hp, hlt⟩
    have hrefresh : (x.serve setting config .refresh).2 =
        { x with calls := calls, world := w } := by
      dsimp only [serve, Service.carryOut]
      rw [hp]
    have hpassed := Nat.lt_of_le_of_lt hmemory.2 hlt
    rw [hrefresh]
    constructor
    · exact ⟨hmemory.1, Nat.le_of_lt hpassed, Or.inl hpassed⟩
    · intro s hs
      have hlapsed := Nat.lt_of_le_of_lt (hx.epoch_le hs) hlt
      exact ⟨Nat.le_of_lt hlapsed, Or.inl hlapsed⟩

/-!
## New caches
-/

theorem after_start_replica (h : setting.Forward count) (settings : Replica.Settings)
    (p : List Source.Call × W) :
    After (setting.replica settings).start p (fun s p' => p'.1 = p.1 ∧ count p.2 ≤ count p'.2 ∧
      Replica.Void (count ∘ Prod.snd) (s, p')) := by
  rcases p with ⟨calls, w⟩
  unfold Replica.start
  rw [Setting.replica_epoch, Setting.replica_horizon]
  apply after_bind.mpr
  apply after_state_lift.mpr
  apply After.imp (h.epoch.current w)
  intro n w₁ hn
  rcases hn with ⟨rfl, hle⟩
  apply after_bind.mpr
  apply After.imp (h.after_highest (calls, w₁))
  intro bound p hp
  rcases hp with ⟨hcalls, hle'⟩
  have hle'' := Nat.le_trans hle hle'
  exact after_pure.mpr ⟨hcalls, hle'', rfl, hle'', Or.inr ⟨rfl, rfl, rfl, rfl⟩⟩

structure Anew (count : W -> Nat) (config : Config) (calls : List Source.Call) (w : W)
    (x : Service W V) : Prop where
  spent : x.Spent count
  calls : x.calls = calls
  world : count w ≤ count x.world
  kind : x.engine.kind = config.kind
  maximum : forall s, x.engine = .windowed s -> s.maximum = config.maximum.map Positive.val
  ranges : x.ranges = []

theorem after_start_engine (h : setting.Forward count) (config : Config)
    (p : Replica.State V × List Source.Call × W) :
    After (setting.cache config).start p (fun engine p' => p'.1 = p.1 ∧ p'.2.1 = p.2.1 ∧
      count p.2.2 ≤ count p'.2.2 ∧ engine.kind = config.kind ∧
      forall s, engine = .windowed s -> s.epoch ≤ count p'.2.2 ∧ s.window = .empty ∧
        s.maximum = config.maximum.map Positive.val) := by
  rcases config with ⟨kind, maximum, settings⟩
  rcases p with ⟨memory, calls, w⟩
  unfold Cache.start Engine.start
  cases kind with
  | direct =>
      refine after_pure.mpr ⟨rfl, rfl, Nat.le_refl _, rfl, fun s hs => ?_⟩
      cases hs
  | windowed =>
      apply after_bind.mpr
      show After (StateT.lift (setting.replica settings).epoch.current) _ _
      rw [Setting.replica_epoch]
      apply after_state_lift.mpr
      apply after_state_lift.mpr
      apply After.imp (h.epoch.current w)
      intro n w' hn
      rcases hn with ⟨rfl, hle⟩
      refine after_pure.mpr ⟨rfl, rfl, hle, rfl, fun s hs => ?_⟩
      cases hs
      exact ⟨hle, rfl, rfl⟩

theorem anew_start (h : setting.Forward count) (config : Config) (calls : List Source.Call)
    (w : W) : Anew count config calls w (start setting config calls w) := by
  have hreplica := after_start_replica h config.replica (calls, w)
  have hengine := after_start_engine h config
    (perform (setting.replica config.replica).start (calls, w))
  rcases hreplica with ⟨hcalls, hle, hvoid⟩
  rcases hengine with ⟨hmemory, hcalls', hle', hkind, hwindow⟩
  have hspent : Spent count (start setting config calls w) := by
    constructor
    · have hlater := hvoid.later hle'
      rw [← hmemory] at hlater
      exact hlater
    · intro s hs
      exact ⟨(hwindow s hs).1, Or.inr (hwindow s hs).2.1⟩
  exact ⟨hspent, hcalls'.trans hcalls, Nat.le_trans hle hle', hkind,
    fun s hs => (hwindow s hs).2.2, rfl⟩

theorem like_start (h : setting.Forward count) (config : Config) (w : W) :
    Like count config.kind (start setting config [] w) (start setting config [] w) := by
  have hstart := anew_start h config [] w
  exact hstart.kind ▸ hstart.spent.like hstart.spent rfl rfl rfl rfl rfl

/-!
## Caches with an engine in order
-/

theorem engine_lift (x : Service W V)
    (action : StateT (Replica.State V) (StateT (List Source.Call) m) α) :
    (x.carryOut (StateT.lift action : Action m V α)).2.engine = x.engine := by
  dsimp only [Service.carryOut, here]
  rw [perform_state_lift]

theorem engine_draw (x : Service W V) (index : Nat)
    (reply : Option (Except QueryError α) -> Reply V)
    (pull : Pull (StateT (Replica.State V) (StateT (List Source.Call) m)) α
      (Query.Range (Replica.Scan V))) : (x.draw index reply pull).2.engine = x.engine := by
  unfold Service.draw
  split
  · rfl
  · exact engine_lift x _

theorem proper_serve (hx : x.engine.Proper) (c : Command W) :
    (x.serve setting config c).2.engine.Proper := by
  cases c with
  | ask options key q => exact Query.proper_put hx key q
  | lookup key => exact (engine_lift (m := m) x _).symm ▸ hx
  | begin options first last => exact (engine_lift (m := m) x _).symm ▸ hx
  | pull index => exact (engine_draw (m := m) x index _ _).symm ▸ hx
  | pullKey index => exact (engine_draw (m := m) x index _ _).symm ▸ hx
  | pullValue index => exact (engine_draw (m := m) x index _ _).symm ▸ hx
  | clear =>
      dsimp only [serve, Service.carryOut]
      rw [Setting.cache, perform_clear]
      exact hx.clear
  | refresh => exact (engine_lift (m := m) x _).symm ▸ hx
  | raiseMaximum size =>
      dsimp only [serve, Service.carryOut]
      rw [perform_raiseMaximum]
      exact hx.raiseMaximum size
  | move change => exact hx

theorem proper_run (hx : x.engine.Proper) (commands : List (Command W)) :
    (x.run setting config commands).2.engine.Proper := by
  induction commands generalizing x with
  | nil => exact hx
  | cons c rest ih =>
      have hserve : (x.serve setting config c).2.engine.Proper := proper_serve hx c
      exact ih hserve

theorem maximum_ofNat? {s : Windowed.State V} (hs : s.Proper) :
    (s.maximum.bind Positive.ofNat?).map Positive.val = s.maximum := by
  cases hmaximum : s.maximum with
  | none => rfl
  | some size =>
      have hpos := hs.maximum size hmaximum
      simp [Positive.ofNat?, hpos]

theorem Anew.maximum_eq {calls : List Source.Call} {w : W}
    (hy : Anew count { config with maximum := x.engine.maximum.bind Positive.ofNat? } calls w y)
    (hx : x.engine.Proper) (hkind : x.engine.kind = y.engine.kind) :
    y.engine.maximum = x.engine.maximum := by
  have hmaximum := hy.maximum
  rcases x with ⟨engine, memory, calls, w, ranges⟩
  rcases y with ⟨engine', memory', calls', w', ranges'⟩
  cases engine with
  | direct n =>
      cases engine' with
      | direct k => rfl
      | windowed t => cases hkind
  | windowed s =>
      cases engine' with
      | direct k => cases hkind
      | windowed t => exact (hmaximum t rfl).trans (maximum_ofNat? (hx s rfl))

theorem run_concat (x : Service W V) (commands : List (Command W)) (c : Command W) :
    (x.run setting config (commands ++ [c])).2 =
      ((x.run setting config commands).2.serve setting config c).2 := by
  induction commands generalizing x with
  | nil => rfl
  | cons d rest ih => exact ih _

/-- The maximum of the window is read when a cache is built, and not after. -/
theorem serve_maximum (x : Service W V) (maximum : Option Positive) (c : Command W) :
    x.serve setting { config with maximum := maximum } c = x.serve setting config c := by
  cases c <;> rfl

theorem run_maximum (x : Service W V) (maximum : Option Positive) (commands : List (Command W)) :
    x.run setting { config with maximum := maximum } commands =
      x.run setting config commands := by
  induction commands generalizing x with
  | nil => rfl
  | cons c rest ih =>
      dsimp only [run]
      rw [serve_maximum, ih]

/-!
## Resets
-/

/-- Runs that cannot be told apart by replies, by calls to the source or by the world. -/
structure Same (r r' : List (Reply V) × Service W V) : Prop where
  replies : r.1 = r'.1
  calls : r.2.calls = r'.2.calls
  world : r.2.world = r'.2.world

/--
Whatever a cache was used for, and whatever its source answered: once it was cleared or its epoch
refreshed, it goes on as a new cache does that is built at this moment with the maximum that
the window of the old one has by now.
-/
theorem nothing_survives_reset (h : setting.Forward count) (config : Config) (w : W)
    {history commands : List (Command W)} {reset : Command W}
    (hhistory : forall c, c ∈ history -> c.Forward count)
    (hreset : reset = .clear ∨ reset = .refresh)
    (hcommands : forall c, c ∈ commands -> c.Forward count) :
    let used := ((start setting config [] w).run setting config (history ++ [reset])).2
    let anew := { config with maximum := used.engine.maximum.bind Positive.ofNat? }
    let new := start setting anew used.calls used.world
    new.calls = used.calls ∧ new.engine.maximum = used.engine.maximum ∧
      Same (run setting config { used with world := new.world, ranges := [] } commands)
        (new.run setting anew commands) := by
  intro used anew new
  have hpast : Like count config.kind ((start setting config [] w).run setting config history).2
      ((start setting config [] w).run setting config history).2 :=
    (like_run h config (like_start h config w) hhistory).2
  have hused : used = (Service.serve setting config
      ((start setting config [] w).run setting config history).2 reset).2 := run_concat _ _ _
  have hspent : Spent count used := hused ▸ hpast.spent_reset h hreset
  have hkind : used.engine.kind = config.kind := by
    have hforward : reset.Forward count := by
      rcases hreset with rfl | rfl <;> exact trivial
    rw [hused]
    exact (like_serve h config hpast hforward).2.kind_eq
  have hfirst : (start setting config [] w).engine.Proper := Engine.proper_start _ _ _
  have hproper : used.engine.Proper := proper_run hfirst _
  have hnew : Anew count anew used.calls used.world new := anew_start h anew _ _
  have hkinds : used.engine.kind = new.engine.kind := hkind.trans hnew.kind.symm
  have hmaximum : new.engine.maximum = used.engine.maximum := hnew.maximum_eq hproper hkinds
  have hsame := (hspent.later hnew.world []).like hnew.spent hnew.calls.symm rfl hkinds
    hmaximum.symm hnew.ranges.symm
  have hruns := like_run h config hsame hcommands
  refine ⟨hnew.calls, hmaximum, ?_⟩
  have hrun : new.run setting anew commands = new.run setting config commands :=
    run_maximum new _ commands
  rw [hrun]
  exact ⟨hruns.1, hruns.2.outside.1, hruns.2.outside.2⟩

def attentive : Setting (StateM (Ledger Int)) Int (Overheard Int) where
  source := Ledger.source
  horizon := Ledger.horizon
  epoch := Ledger.revisions
  hear e := pure (.lookup (e.key.shift (-1)) fun answer =>
    .act ⟨e.key.shift (-1), answer⟩ fun _ => .done)
  effect x := do
    Ledger.note x
    return x
  depth := 2

theorem forward_attentive : attentive.Forward Ledger.epoch where
  source :=
    { batchFrom := fun _ _ => Nat.le_refl _
      latestUpTo := fun _ _ => Nat.le_refl _
      previousKey := fun _ _ => Nat.le_refl _
      nextKey := fun _ _ => Nat.le_refl _
      batchLimit := fun _ => Nat.le_refl _ }
  horizon _ := Nat.le_refl _
  epoch := ⟨fun _ => ⟨rfl, Nat.le_refl _⟩, fun _ => Nat.lt_succ_self _⟩
  hear _ _ := Nat.le_refl _
  effect _ _ := Nat.le_refl _

def busy : List (Command (Ledger Int)) :=
  [.ask {} (.ofNanos 35) (.previousEntries 3),
    .begin {} (.ofNanos 5) (.ofNanos 45),
    .pull 0,
    .move fun ledger => { ledger with
      series := (Ledger.holding [10, 25]).series, bound := some (.ofNanos 30) },
    .lookup (.ofNanos 15),
    .pullKey 0,
    .ask {} (.ofNanos 32) (.previousKeys 4)]

def ongoing : List (Command (Ledger Int)) :=
  [.ask {} (.ofNanos 45) (.previousEntries 2),
    .begin { future := true } (.ofNanos 10) (.ofNanos 45),
    .pullValue 0,
    .refresh,
    .raiseMaximum 9,
    .move fun ledger => { ledger with bound := none, outages := [true] },
    .ask {} (.ofNanos 28) .value,
    .clear,
    .pull 0]

theorem nothing_survives_reset_on_ledger :
    let config : Config := { maximum := Positive.ofNat? 2 }
    let used := ((start attentive config [] Ledger.fourByTwo).run attentive config
      (busy ++ [.clear])).2
    let anew := { config with maximum := used.engine.maximum.bind Positive.ofNat? }
    let new := start attentive anew used.calls used.world
    new.calls = used.calls ∧ new.engine.maximum = used.engine.maximum ∧
      Same (run attentive config { used with world := new.world, ranges := [] } ongoing)
        (new.run attentive anew ongoing) := by
  have hbusy : forall c, c ∈ busy -> c.Forward Ledger.epoch := by simp [busy, Command.Forward]
  have hongoing : forall c, c ∈ ongoing -> c.Forward Ledger.epoch := by
    simp [ongoing, Command.Forward]
  exact nothing_survives_reset forward_attentive _ Ledger.fourByTwo hbusy (Or.inl rfl) hongoing

end Service
end Cache
end AsOf
