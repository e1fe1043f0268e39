import AsOf.Proofs.Ledger
import AsOf.Proofs.Query
import AsOf.Proofs.Replica.Archive
import AsOf.Proofs.Run

/-!
# A cache in use

A session is a cache over a replica of its own, with the world and the ranges that
were begun.  Between two queries the cache may be cleared, the maximum of its window
may be raised, and the world may move: the horizon may go anywhere and the epoch may
advance.  Over a series that stays as it is and a source that does not fail, every
query is answered by what the series has to say, and every range hands out its
entries, whatever was asked before.
-/

namespace AsOf
namespace Cache

open Outlook

variable {m : Type -> Type} [Monad m] {V W : Type} [Performs m W] {o : Outlook W V}
  {next : Instant -> Instant} {series : Series V} {config : Config} {replica : Replica m V}
  {p p' : Replica.State V × W}

/-!
## Ranges
-/

def rest (range : Query.Range (Replica.Scan V)) (items : List (Entry V)) : List (Entry V) :=
  if range.passed then [] else (items.take range.remaining).takeWhile fun e => e.key ≤ range.last

def Over (range : Query.Range (Replica.Scan V)) : Prop :=
  range.remaining = 0 ∨ range.passed = true

structure Opened (V : Type) where
  range : Query.Range (Replica.Scan V)
  /-- The entries of the series that it has yet to hand out. -/
  expected : List (Entry V)
  finished : Bool := false

structure Opened.Right (o : Outlook W V) (next : Instant -> Instant) (p : Replica.State V × W)
    (opened : Opened V) : Prop where
  expected : opened.expected = rest opened.range (opened.range.scan.awaited (o.series p.2))
  fit : Over opened.range ∨ opened.range.scan.Fit o next p
  finished : opened.finished = true -> Over opened.range ∨ opened.range.scan.next = none

theorem rest_of_over {range : Query.Range (Replica.Scan V)} (h : Over range)
    (items : List (Entry V)) : rest range items = [] := by
  unfold rest
  rcases h with hzero | hpassed
  · rw [hzero]
    split <;> rfl
  · rw [if_pos hpassed]

theorem rest_nil (range : Query.Range (Replica.Scan V)) : rest range [] = [] := by
  unfold rest
  rw [List.take_nil]
  split <;> rfl

theorem rest_cons {range : Query.Range (Replica.Scan V)} (hover : ¬ Over range) (e : Entry V)
    (items : List (Entry V)) :
    rest range (e :: items) =
      if e.key ≤ range.last then e :: rest { range with remaining := range.remaining - 1 } items
      else [] := by
  unfold rest
  have hpassed : ¬ range.passed = true := fun hpassed => hover (Or.inr hpassed)
  cases hremaining : range.remaining with
  | zero => exact absurd (Or.inl hremaining) hover
  | succ n =>
      simp only [if_neg hpassed, List.take_succ_cons, List.takeWhile_cons, decide_eq_true_eq,
        Nat.add_sub_cancel]

theorem Opened.Right.nothing_expected {opened : Opened V} (hopened : opened.Right o next p)
    (hover : Over opened.range) : opened.expected = [] := by
  rw [hopened.expected, rest_of_over hover]

theorem right_over {range : Query.Range (Replica.Scan V)} (hover : Over range) (finished : Bool) :
    Opened.Right o next p ⟨range, [], finished⟩ where
  expected := (rest_of_over hover _).symm
  fit := Or.inl hover
  finished _ := Or.inl hover

section Pull

variable (config) (h : replica.Reads o next) (hl : Replica.Listens o replica.listener)
  (hstill : o.Still series)

include h hl hstill

/-- A pull of a range hands out the first entry expected, and none once there is none. -/
theorem after_pull {held : Replica.Scan V -> Prop} {opened : Opened V}
    (hp : Replica.Usable o next held p) (hopened : opened.Right o next p) (options : Options) :
    After (((ofReplica config replica).query options).pull opened.range) p (fun r p' =>
      (Replica.outlook o next held).Follows p p' ∧ r.1 = opened.expected.head?.map .ok ∧
        Opened.Right o next p' ⟨r.2, opened.expected.tail, r.1.isNone⟩) := by
  rcases opened with ⟨range, expected, finished⟩
  have hexpected : expected = rest range (range.scan.awaited (o.series p.2)) := hopened.expected
  unfold Query.pull
  dsimp only
  split
  · rename_i hzero
    have hover : Over range := Or.inl hzero
    cases hopened.nothing_expected hover
    exact after_pure.mpr ⟨Follows.refl _ p, rfl, right_over hover true⟩
  · rename_i hsome
    split
    · rename_i hpassed
      have hover : Over { range with remaining := range.remaining - 1 } := Or.inr hpassed
      cases hopened.nothing_expected (Or.inr hpassed)
      exact after_pure.mpr ⟨Follows.refl _ p, rfl, right_over hover true⟩
    · rename_i hgoing
      have hover : ¬ Over range := by
        intro h
        rcases h with hzero | hpassed
        · exact hsome hzero
        · exact hgoing hpassed
      have hfit : range.scan.Fit o next p := hopened.fit.resolve_left hover
      apply after_bind.mpr
      apply After.imp (Replica.follows_pull h hl (Replica.lasting_usable o next held) hp hfit)
      intro out p' hpost
      rcases out with ⟨item, scan⟩
      rcases hpost with ⟨hp', hpulled, hfit'⟩
      have hseries : o.series p'.2 = o.series p.2 := hp'.series
      have hready' : o.ready p'.2 := (hp'.ready hp).ready
      match item, hpulled.outcome with
      | none, houtcome =>
          rcases houtcome with ⟨hnone, rfl⟩
          rw [hnone, rest_nil] at hexpected
          cases hexpected
          exact after_pure.mpr ⟨hp', rfl, (rest_nil _).symm, Or.inr hfit', fun _ => Or.inr rfl⟩
      | some (.error e), houtcome =>
          exact absurd houtcome.1 (not_mem_since (hstill.failures _ hready'))
      | some (.ok e), houtcome =>
          have hawaited : range.scan.awaited (o.series p.2) = e :: scan.awaited (o.series p.2) :=
            houtcome
          rw [hawaited, rest_cons hover] at hexpected
          dsimp only
          split
          · rename_i hle
            rw [if_pos hle, ← hseries] at hexpected
            cases hexpected
            exact after_pure.mpr ⟨hp', rfl, rfl, Or.inr hfit', nofun⟩
          · rename_i hgt
            rw [if_neg hgt] at hexpected
            cases hexpected
            exact after_pure.mpr ⟨hp', rfl, right_over (Or.inr rfl) true⟩

theorem after_pull_map {α : Type} {held : Replica.Scan V -> Prop} {opened : Opened V}
    (hp : Replica.Usable o next held p) (hopened : opened.Right o next p) (options : Options)
    (f : Entry V -> α) :
    After (Pull.map f ((ofReplica config replica).query options).pull opened.range) p
      (fun r _ => r.1 = opened.expected.head?.map fun e => .ok (f e)) := by
  apply after_bind.mpr
  apply After.imp (after_pull config h hl hstill hp hopened options)
  intro out p' hpost
  rcases out with ⟨item, range⟩
  rcases hpost with ⟨-, hitem, -⟩
  apply after_pure.mpr
  rw [show item = _ from hitem]
  cases opened.expected <;> rfl

omit hstill in
theorem after_between {held : Replica.Scan V -> Prop} (hback : replica.source.StepsBack o)
    (hp : Replica.Usable o next held p) (options : Options) (first last : Instant) :
    After (((ofReplica config replica).query options).between first last) p (fun range p' =>
      (Replica.outlook o next held).Follows p p' ∧
        Opened.Right o next p' ⟨range, o.range p.2 options first last, false⟩) := by
  have hreads := Replica.reads_ofReplica (Replica.lasting_usable o next held) h hl hback config
  unfold Query.between
  apply after_bind.mpr
  apply After.imp (View.after_adjust hreads hp options last)
  intro _ p₁ hpost
  rcases hpost with ⟨rfl, hp₁⟩
  apply after_bind.mpr
  apply after_pure.mpr
  apply after_pure.mpr
  refine ⟨hp₁, ?_, Or.inr (Replica.Scan.fit_startAt first p₁), nofun⟩
  have hseries : o.series p₁.2 = o.series p.2 := hp₁.series
  show o.range p.2 options first last = _
  rw [hseries]
  exact (Series.takeWhile_take_onwards _ _ (some _) _).symm

end Pull

/-!
## Sessions
-/

structure Session (W V : Type) where
  engine : Engine.State V
  memory : Replica.State V
  world : W
  ranges : List (Opened V) := []

inductive Command (W : Type) where
  | ask (options : Options) (key : Instant) (q : Query.Question)
  | begin (options : Options) (first last : Instant)
  | pull (index : Nat)
  | drop (index : Nat)
  | clear
  | raiseMaximum (size : Nat)
  | move (world : W)

namespace Session

variable {x : Session W V} {c : Command W}

def below (x : Session W V) : Replica.State V × W :=
  (x.memory, x.world)

def here (x : Session W V) : Engine.State V × Replica.State V × W :=
  (x.engine, x.below)

def passed (x : Session W V) (p : Engine.State V × Replica.State V × W) : Session W V :=
  { x with engine := p.1, memory := p.2.1, world := p.2.2 }

def start (config : Config) (replica : Replica m V) (w : W) : Session W V :=
  let r := perform replica.start w
  let e := perform (ofReplica config replica).start r
  { engine := e.1, memory := e.2.1, world := e.2.2 }

def step (config : Config) (replica : Replica m V) (o : Outlook W V) (x : Session W V) :
    Command W -> Session W V
  | .ask options key q =>
      x.passed (perform (q.put ((ofReplica config replica).query options) key).run x.here).2
  | .begin options first last =>
      let r := perform (((ofReplica config replica).query options).between first last) x.below
      { x with
        memory := r.2.1
        world := r.2.2
        ranges := x.ranges ++ [⟨r.1, o.range x.world options first last, false⟩] }
  | .pull index =>
      match x.ranges[index]? with
      | none => x
      | some opened =>
          let r := perform (((ofReplica config replica).query {}).pull opened.range) x.below
          { x with
            memory := r.2.1
            world := r.2.2
            ranges := x.ranges.set index ⟨r.1.2, opened.expected.tail, r.1.1.isNone⟩ }
  | .drop index =>
      { x with ranges := x.ranges.eraseIdx index }
  | .clear =>
      x.passed (perform (ofReplica config replica).clear x.here).2
  | .raiseMaximum size =>
      x.passed (perform ((ofReplica config replica).raiseMaximum size) x.here).2
  | .move w =>
      { x with world := w }

def Finished (x : Session W V) : Prop :=
  forall opened, opened ∈ x.ranges -> opened.finished = true

instance (x : Session W V) : Decidable x.Finished :=
  inferInstanceAs (Decidable (forall opened, opened ∈ x.ranges -> opened.finished = true))

/-- No range is left in use across a reset. -/
def Allowed (o : Outlook W V) (x : Session W V) : Command W -> Prop
  | .clear => x.Finished
  | .move w => o.ready w ∧ (o.epoch w = o.epoch x.world ∨ x.Finished)
  | _ => True

/--
A query is answered by what the series has to say, and a range hands out the entry
that is next, or its key or value, and nothing once none is left.
-/
def Answered (config : Config) (replica : Replica m V) (o : Outlook W V) (x : Session W V) :
    Command W -> Prop
  | .ask options key q =>
      After (q.put ((ofReplica config replica).query options) key).run x.here
        (fun r _ => r = q.answer o x.world options key)
  | .pull index => forall opened, x.ranges[index]? = some opened ->
      let query := (ofReplica config replica).query {}
      After (query.pull opened.range) x.below
          (fun r _ => r.1 = opened.expected.head?.map .ok) ∧
        After (query.pullKey opened.range) x.below
          (fun r _ => r.1 = opened.expected.head?.map fun e => .ok e.key) ∧
        After (query.pullValue opened.range) x.below
          (fun r _ => r.1 = opened.expected.head?.map fun e => .ok e.value)
  | _ => True

/-!
## What holds between commands
-/

structure Right (o : Outlook W V) (next : Instant -> Instant) (x : Session W V) : Prop where
  settled : Replica.Settled o x.below
  window : forall s, x.engine = .windowed s -> s.window.Of (o.series x.world)
  ranges : forall opened, opened ∈ x.ranges -> opened.Right o next x.below

end Session

theorem Opened.Right.later {opened : Opened V} (hopened : opened.Right o next p)
    (hp : Replica.Settled o p)
    (hp' : (Replica.outlook o next (fun scan => scan.Fit o next p)).Follows p p') :
    opened.Right o next p' where
  expected := by
    rw [show o.series p'.2 = o.series p.2 from hp'.series]
    exact hopened.expected
  fit := hopened.fit.imp id fun hfit => (hp'.ready hp.usable).scans _ hfit
  finished := hopened.finished

theorem Opened.Right.move {opened : Opened V} {w : W} (hopened : opened.Right o next p)
    (hepoch : o.epoch w = o.epoch p.2) (hseries : o.series w = o.series p.2) :
    opened.Right o next (p.1, w) where
  expected := by
    rw [hseries]
    exact hopened.expected
  fit := hopened.fit.imp id fun hfit => hfit.onward hepoch
  finished := hopened.finished

/-- A finished range outlives a reset of the replica, and a new epoch. -/
theorem Opened.Right.outlive {opened : Opened V} (hopened : opened.Right o next p)
    (hfinished : opened.finished = true) (hseries : o.series p'.2 = o.series p.2) :
    opened.Right o next p' where
  expected := by
    rw [hseries]
    exact hopened.expected
  fit := by
    rcases hopened.finished hfinished with hover | hend
    · exact Or.inl hover
    · rcases hopened.fit with hover | hfit
      · exact Or.inl hover
      · refine Or.inr ⟨hfit.ordered, ?_, ?_⟩
        · intro mark hmark
          cases hend.symm.trans hmark
        · intro mark hmark
          cases hend.symm.trans hmark
  finished := hopened.finished

namespace Session

theorem Right.onward {x : Session W V} (hx : x.Right o next)
    (hp' : (Replica.outlook o next (fun scan => scan.Fit o next x.below)).Follows x.below p')
    {ranges : List (Opened V)}
    (hranges : forall opened, opened ∈ ranges -> opened ∈ x.ranges ∨ opened.Right o next p') :
    ({ x with memory := p'.1, world := p'.2, ranges := ranges } : Session W V).Right o next where
  settled := (hp'.ready hx.settled.usable).toSettled
  window s hs := by
    rw [show o.series p'.2 = o.series x.world from hp'.series]
    exact hx.window s hs
  ranges opened hopened := by
    rcases hranges opened hopened with hold | hnew
    · exact (hx.ranges opened hold).later hx.settled hp'
    · exact hnew

section Steps

variable {x : Session W V} {c : Command W} (h : replica.Reads o next)
  (hl : Replica.Listens o replica.listener) (hback : replica.source.StepsBack o)
  (hstill : o.Still series)

include h hl hback in
theorem right_start (config : Config) {w : W} (hready : o.ready w) :
    (start config replica w).Right o next := by
  have hmemory : Replica.Settled o _ := (Replica.after_start h.pages hready).2
  have hlasting := Replica.lasting_usable o next fun _ => False
  have hreads := Replica.reads_ofReplica hlasting h hl hback config
  have husable : Replica.Usable o next (fun _ => False) _ :=
    ⟨hmemory, fun _ hscan => hscan.elim⟩
  have hengine := Engine.after_start hreads.epoch husable config.kind config.maximum
  constructor
  · exact (hengine.1.ready husable).toSettled
  · intro s hs
    rw [(hengine.2 s hs).2]
    exact Window.of_empty _
  · intro opened hopened
    cases hopened

include h hl hback hstill in
theorem right_ask (hx : x.Right o next) (options : Options) (key : Instant)
    (q : Query.Question) :
    x.Answered config replica o (.ask options key q) ∧
      (x.step config replica o (.ask options key q)).Right o next := by
  have hlasting := Replica.lasting_usable o next fun scan => scan.Fit o next x.below
  have hreads := Replica.reads_ofReplica hlasting h hl hback config
  have hscans := Replica.scans_archive h hl hlasting
  have hgives := Query.gives_answer (p := x.here) hreads hx.settled.usable options key hscans
    (fun s hs _ => hx.window s hs) q
  constructor
  · unfold Answered
    apply After.imp hgives
    intro r p' hpost
    rcases hpost with ⟨hserves, hr⟩
    have husable := hserves.follows.ready hx.settled.usable
    exact hr.eq (hstill.failures _ husable.ready)
  · have hserves := hgives.1
    exact ⟨(hserves.follows.ready hx.settled.usable).toSettled, hserves.attached hx.window,
      fun opened hopened => (hx.ranges opened hopened).later hx.settled hserves.follows⟩

include h hl hback in
theorem right_begin (hx : x.Right o next) (options : Options) (first last : Instant) :
    (x.step config replica o (.begin options first last)).Right o next := by
  have hbegin := after_between config h hl hback hx.settled.usable options first last
  refine hx.onward hbegin.1 fun opened hopened => ?_
  rcases List.mem_append.mp hopened with hold | hnew
  · exact Or.inl hold
  · cases List.mem_singleton.mp hnew
    exact Or.inr hbegin.2

include h hl hstill in
theorem right_pull (hx : x.Right o next) (index : Nat) :
    x.Answered config replica o (.pull index) ∧
      (x.step config replica o (.pull index)).Right o next := by
  have husable : Replica.Usable o next _ _ := hx.settled.usable
  constructor
  · intro opened hget query
    have hopened := hx.ranges opened (List.mem_of_getElem? hget)
    refine ⟨?_, ?_, ?_⟩
    · exact After.imp (after_pull config h hl hstill husable hopened {}) fun _ _ hr => hr.2.1
    · exact after_pull_map config h hl hstill husable hopened {} Entry.key
    · exact after_pull_map config h hl hstill husable hopened {} Entry.value
  · cases hget : x.ranges[index]? with
    | none =>
      simpa only [step, hget] using hx
    | some opened =>
      simp only [step, hget]
      have hopened := hx.ranges opened (List.mem_of_getElem? hget)
      have hpull := after_pull config h hl hstill husable hopened {}
      refine hx.onward hpull.1 fun other hother => ?_
      rcases List.mem_or_eq_of_mem_set hother with hold | rfl
      · exact Or.inl hold
      · exact Or.inr hpull.2.2

theorem Right.drop (hx : x.Right o next) (index : Nat) :
    (x.step config replica o (.drop index)).Right o next where
  settled := hx.settled
  window := hx.window
  ranges opened hopened := hx.ranges opened (List.mem_of_mem_eraseIdx hopened)

theorem right_clear (hx : x.Right o next) (hallowed : x.Allowed o .clear) :
    (x.step config replica o .clear).Right o next := by
  have hclear := congrArg Prod.snd (perform_clear config replica x.here)
  show (x.passed (perform (ofReplica config replica).clear x.here).2).Right o next
  rw [hclear]
  constructor
  · exact ⟨hx.settled.ready, Replica.State.sound_forget _ _⟩
  · intro s hs
    rcases Engine.State.window_clear hs with ⟨t, -, hempty, -⟩
    rw [hempty]
    exact Window.of_empty _
  · intro opened hopened
    exact (hx.ranges opened hopened).outlive (hallowed opened hopened) rfl

theorem right_raiseMaximum (hx : x.Right o next) (size : Nat) :
    (x.step config replica o (.raiseMaximum size)).Right o next := by
  have hraise := congrArg Prod.snd (perform_raiseMaximum (ofReplica config replica) size x.here)
  show (x.passed (perform ((ofReplica config replica).raiseMaximum size) x.here).2).Right o next
  rw [hraise]
  constructor
  · exact hx.settled
  · intro s hs
    rcases Engine.State.window_raiseMaximum hs with ⟨t, ht, hwindow, -⟩
    rw [hwindow]
    exact hx.window t ht
  · exact hx.ranges

include hstill in
theorem right_move (hx : x.Right o next) {w : W} (hallowed : x.Allowed o (.move w)) :
    (x.step config replica o (.move w)).Right o next := by
  have hseries : o.series w = o.series x.world :=
    (hstill.series w hallowed.1).trans (hstill.series x.world hx.settled.ready).symm
  have hsound : x.memory.Sound (o.series w) := by
    rw [hseries]
    exact hx.settled.sound
  constructor
  · exact ⟨hallowed.1, hsound⟩
  · intro s hs
    show s.window.Of (o.series w)
    rw [hseries]
    exact hx.window s hs
  · intro opened hopened
    have hold := hx.ranges opened hopened
    rcases hallowed.2 with hepoch | hfinished
    · exact hold.move hepoch hseries
    · exact hold.outlive (hfinished opened hopened) hseries

include h hl hback hstill in
/-- A command that is allowed is answered from the series and leaves the session right. -/
theorem right_step (hx : x.Right o next) (hallowed : x.Allowed o c) :
    x.Answered config replica o c ∧ (x.step config replica o c).Right o next := by
  cases c with
  | ask options key q => exact right_ask h hl hback hstill hx options key q
  | begin options first last => exact ⟨trivial, right_begin h hl hback hx options first last⟩
  | pull index => exact right_pull h hl hstill hx index
  | drop index => exact ⟨trivial, hx.drop index⟩
  | clear => exact ⟨trivial, right_clear hx hallowed⟩
  | raiseMaximum size => exact ⟨trivial, right_raiseMaximum hx size⟩
  | move w => exact ⟨trivial, right_move hstill hx hallowed⟩

end Steps

/--
Every query to a cache over a source is answered by what the series has to say: in
every session over a series that stays as it is and a source that does not fail, for
engines of either kind and whatever their windows and memos may hold, if no range is
left in use across a reset.
-/
theorem queries_answer_series (config : Config) {source : Source m V} {horizon : Horizon m}
    {epoch : Epoch m} {w : W} {commands : List (Command W)} (hsource : source.Faithful o next)
    (hback : source.StepsBack o) (hhorizon : horizon.Shows o) (hepoch : epoch.Shows o)
    (hstill : o.Still series) (hready : o.ready w) :
    let replica := Replica.silent source horizon epoch config.replica
    Each (step config replica o) (Allowed o) (start config replica w) commands ->
      Each (step config replica o) (Answered config replica o) (start config replica w)
        commands := by
  intro replica hallowed
  have hreads : replica.Reads o next := ⟨hsource, hhorizon, hepoch⟩
  have hquiet : replica.Quiet := fun _ => rfl
  have hstart := right_start hreads hquiet.listens hback config hready
  apply each_of_kept (fun x c hx hc => ?_) hstart hallowed
  exact right_step hreads hquiet.listens hback hstill hx hc

def tight : Config :=
  { maximum := Positive.ofNat? 2, replica := { memoCapacity := ⟨1, Nat.one_pos⟩ } }

def tour : List (Command (Ledger Int)) :=
  [.ask {} (.ofNanos 35) (.previousEntries 3),
    .begin {} (.ofNanos 5) (.ofNanos 15),
    .pull 0,
    .ask { distinct := false } (.ofNanos 25) (.nextValues 4),
    .pull 0,
    .clear,
    .pull 0,
    .move { Ledger.fourByTwo with bound := some (.ofNanos 25), epoch := 1 },
    .ask { demand := .exact } (.ofNanos 40) .value,
    .raiseMaximum 9,
    .ask { future := true } (.ofNanos 45) (.previousKey 2)]

theorem queries_answer_series_on_ledger :
    let replica := Replica.silent Ledger.source Ledger.horizon Ledger.revisions tight.replica
    let o := Ledger.outlook (Ledger.Holds Ledger.fourByTwo.series)
    Each (step tight replica o) (Answered tight replica o) (start tight replica Ledger.fourByTwo)
      tour := by
  have hclosed := Ledger.closed_holds Ledger.fourByTwo.series
  have hmoved : Ledger.Holds Ledger.fourByTwo.series
      { Ledger.fourByTwo with bound := some (.ofNanos 25), epoch := 1 } :=
    ⟨rfl, Ledger.holds_fourByTwo.open_ends, rfl, rfl⟩
  apply queries_answer_series tight (Ledger.faithful_source hclosed)
    (Ledger.stepsBack_source hclosed) Ledger.shows_horizon Ledger.shows_revisions
    (Ledger.still_holds _) Ledger.holds_fourByTwo
  refine ⟨trivial, trivial, trivial, trivial, trivial, ?_, trivial, ⟨hmoved, Or.inr ?_⟩, trivial,
    trivial, trivial, trivial⟩
  · show Finished _
    decide +kernel
  · decide +kernel

end Session

end Cache
end AsOf
