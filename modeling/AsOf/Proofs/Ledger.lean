import AsOf.Proofs.Engine.View
import AsOf.Proofs.Replica.Listening

/-!
# Ledgers

A ledger keeps a series in memory together with a horizon, an epoch and a plan of
the calls that fail.  It is a faithful source for every series that leaves the ends
of the time line free: the keys next to a key lie a nanosecond away.
-/

namespace AsOf

/-- A series kept in memory, with a plan of the calls that fail. -/
structure Ledger (V : Type) where
  series : Series V
  bound : Option Instant := none
  epoch : Nat := 0
  limit : Option Positive := none
  /-- Which of the coming calls fail; those after the last of the list do not. -/
  outages : List Bool := []
  failures : List QueryError := []
  overheard : List (Overheard V) := []

namespace Ledger

variable {V α : Type}

def holding (nanos : List Int) : Ledger Int :=
  { series := .ofList (nanos.map fun n => ⟨.ofNanos n, n⟩) }

def fails (ledger : Ledger V) : Bool :=
  ledger.outages.head?.getD false

def called (ledger : Ledger V) (key : Instant) : Ledger V :=
  { ledger with
    outages := ledger.outages.tail
    failures :=
      if ledger.fails then ledger.failures ++ [.load key "unreachable"] else ledger.failures }

def consult (key : Instant) (answer : Ledger V -> α) : ExceptT String (StateM (Ledger V)) α :=
  ExceptT.mk fun ledger =>
    (if ledger.fails then .error "unreachable" else .ok (answer ledger), ledger.called key)

def source : Source (StateM (Ledger V)) V :=
  { batchFrom := fun start => consult start fun ledger => ledger.series.page start ledger.limit
    latestUpTo := fun key => consult key fun ledger => ledger.series.latestUpTo key
    previousKey := fun key => pure (key.shift (-1))
    nextKey := fun key => pure (key.shift 1)
    batchLimit := do return (<- get).limit }

def archive : Archive (StateM (Ledger V)) V where
  Scan := List (Entry V)
  lookup key := (source.latestUpTo key).adapt (.load key)
  previousKey := source.previousKey
  nextKey := source.nextKey
  scanFrom key := do return (<- get).series.onwards key
  pull entries := pure (entries.head?.map .ok, entries.tail)
  clear := pure ()
  component := "ledger"
  report := pure []

def horizon : Horizon (StateM (Ledger V)) :=
  .pulled do return (<- get).bound

def revisions : Epoch (StateM (Ledger V)) :=
  { current := do return (<- get).epoch
    advance := modifyGet fun ledger =>
      (ledger.epoch + 1, { ledger with epoch := ledger.epoch + 1 }) }

def note (x : Overheard V) : StateM (Ledger V) Unit :=
  modify fun ledger => { ledger with overheard := ledger.overheard ++ [x] }

def Open (ledger : Ledger V) : Prop :=
  forall e, e ∈ ledger.series -> Instant.earliest < e.key ∧ e.key < Instant.latest

instance (ledger : Ledger V) : Decidable ledger.Open :=
  inferInstanceAs (Decidable (forall e, e ∈ ledger.series -> _))

structure Holds (series : Series V) (ledger : Ledger V) : Prop where
  series : ledger.series = series
  open_ends : ledger.Open
  outages : ledger.outages = []
  failures : ledger.failures = []

def fourByTwo : Ledger Int :=
  { holding [10, 20, 30, 40] with limit := some ⟨2, by decide⟩ }

theorem holds_fourByTwo : Holds fourByTwo.series fourByTwo where
  series := rfl
  open_ends := by decide
  outages := rfl
  failures := rfl

def outlook (spoken : Ledger V -> Prop) : Outlook (Ledger V) V where
  series ledger := ledger.series
  bound ledger := ledger.bound
  epoch ledger := ledger.epoch
  limit ledger := ledger.limit
  failures ledger := ledger.failures
  overheard ledger := ledger.overheard
  ready ledger := spoken ledger

structure Closed (spoken : Ledger V -> Prop) : Prop where
  is_open : forall ledger, spoken ledger -> ledger.Open
  called : forall ledger key, spoken ledger -> spoken (ledger.called key)

theorem closed_open : Closed (Open (V := V)) where
  is_open _ hopen := hopen
  called _ _ hopen := hopen

theorem closed_holds (series : Series V) : Closed (Holds series) where
  is_open _ hholds := hholds.open_ends
  called ledger key hholds := by
    refine ⟨hholds.series, hholds.open_ends, ?_, ?_⟩
    · simp [Ledger.called, hholds.outages]
    · simp [Ledger.called, fails, hholds.outages, hholds.failures]

structure Cuts (series : Series V) (limit : Option Positive) (ledger : Ledger V) : Prop
    extends Holds series ledger where
  limit : ledger.limit = limit

theorem closed_cuts (series : Series V) (limit : Option Positive) :
    Closed (Cuts series limit) where
  is_open _ hcuts := hcuts.open_ends
  called ledger key hcuts :=
    { toHolds := (closed_holds series).called ledger key hcuts.toHolds, limit := hcuts.limit }

def Bears (series : Series V) (ledger : Ledger V) : Prop :=
  ledger.series = series ∧ ledger.Open

theorem closed_bears (series : Series V) : Closed (Bears series) where
  is_open _ hbears := hbears.2
  called _ _ hbears := hbears

structure Reliable (ledger : Ledger V) : Prop where
  open_ends : ledger.Open
  outages : ledger.outages = []
  failures : ledger.failures = []

theorem closed_reliable : Closed (Reliable (V := V)) where
  is_open _ hreliable := hreliable.open_ends
  called ledger key hreliable := by
    refine ⟨hreliable.open_ends, ?_, ?_⟩
    · simp [Ledger.called, hreliable.outages]
    · simp [Ledger.called, fails, hreliable.outages, hreliable.failures]

theorem still_holds (series : Series V) : (outlook (Holds series)).Still series where
  series _ hholds := hholds.series
  failures _ hholds := hholds.failures

open Outlook

variable {w : Ledger V} {key : Instant} {spoken : Ledger V -> Prop}

theorem nanos_shift_one (hlt : key < Instant.latest) : (key.shift 1).nanos = key.nanos + 1 := by
  have hfirst := key.first_le
  have hlast := Instant.lt_def.mp hlt
  simp only [Instant.shift, Instant.ofNanos, Instant.latest] at hlast ⊢
  omega

theorem nanos_shift_back (hlt : Instant.earliest < key) :
    (key.shift (-1)).nanos = key.nanos - 1 := by
  have hlast := key.le_last
  have hfirst := Instant.lt_def.mp hlt
  simp only [Instant.shift, Instant.ofNanos, Instant.earliest] at hfirst ⊢
  omega

section Closed

variable (hspoken : Closed spoken)

include hspoken

theorem follows_called (key : Instant) : (outlook spoken).Follows w (w.called key) where
  series := rfl
  bound := rfl
  epoch := rfl
  limit := rfl
  failures := by
    show exists more, (if w.fails then _ else _) = w.failures ++ more
    split
    · exact ⟨_, rfl⟩
    · exact ⟨[], (List.append_nil _).symm⟩
  overheard := ⟨[], (List.append_nil _).symm, by simp⟩
  ready := hspoken.called w key

theorem after_consult {answer : Ledger V -> α} {good : α -> Prop} (hgood : good (answer w)) :
    After (consult key answer).run w (fun r w' => (outlook spoken).Follows w w' ∧
      (outlook spoken).Delivers w w' good (r.mapError (.load key))) := by
  constructor
  · exact follows_called hspoken key
  · show (outlook spoken).Delivers w (w.called key) good
      ((if w.fails then .error "unreachable" else .ok (answer w) : Except String α).mapError _)
    split
    · rename_i hfails
      show QueryError.load key "unreachable" ∈ (outlook spoken).since w (w.called key)
      simp [since, outlook, called, hfails]
    · exact hgood

theorem faithful_source :
    (source : Source _ V).Faithful (outlook spoken) (fun key => key.shift 1) where
  batchFrom _ _ _ := after_consult hspoken (Series.Batch.of_perm (List.Perm.refl _))
  latestUpTo _ _ _ := after_consult hspoken rfl
  batchLimit w _ := ⟨rfl, Follows.refl _ w⟩
  nextKey w _ _ := ⟨rfl, Follows.refl _ w⟩
  lt_next w e hw he := by
    have hshift := nanos_shift_one (hspoken.is_open w hw e he).2
    rw [Instant.lt_def, hshift]
    omega
  next_le w _ e x hw _ he _ hlt := by
    have hshift := nanos_shift_one (hspoken.is_open w hw e he).2
    have hlt := Instant.lt_def.mp hlt
    rw [Instant.le_def, hshift]
    omega

theorem stepsBack_source : (source : Source _ V).StepsBack (outlook spoken) := by
  intro w e hw he
  constructor
  · exact Follows.refl _ w
  · have hshift := nanos_shift_back (hspoken.is_open w hw e he).1
    have hsame : (fun x : Entry V => decide (x.key ≤ e.key.shift (-1))) =
        fun x : Entry V => decide (x.key < e.key) := by
      funext x
      apply decide_eq_decide.mpr
      rw [Instant.le_def, Instant.lt_def, hshift]
      omega
    show w.series.latestUpTo (e.key.shift (-1)) = w.series.latestBefore e.key
    unfold Series.latestUpTo Series.latestBefore
    rw [hsame]

omit hspoken in
theorem shows_horizon : (horizon : Horizon (StateM (Ledger V))).Shows (outlook spoken) :=
  fun w _ => ⟨rfl, Follows.refl _ w⟩

omit hspoken in
theorem shows_revisions : (revisions : Epoch (StateM (Ledger V))).Shows (outlook spoken) :=
  fun w _ => ⟨rfl, Follows.refl _ w⟩

theorem faithful_archive :
    (archive : Archive _ V).Faithful (outlook spoken) (fun _ _ => True) where
  lookup _ _ _ := after_except_adapt.mpr (after_consult hspoken rfl)
  previousKey := stepsBack_source hspoken
  scanFrom w _ _ := ⟨Follows.refl _ w, trivial⟩
  pull w _ _ _ := ⟨Follows.refl _ w, trivial⟩

def view : View (StateM (Ledger V)) V :=
  { archive, horizon, epoch := revisions }

theorem reads_view : (view : View _ V).Reads (outlook spoken) (fun _ _ => True) where
  archive := faithful_archive hspoken
  horizon := shows_horizon
  epoch := shows_revisions

def replica (settings : Replica.Settings) : Replica (StateM (Ledger V)) V :=
  .silent source horizon revisions settings

def plain : Replica (StateM (Ledger V)) V :=
  replica {}

theorem reads_replica (settings : Replica.Settings) :
    (replica settings : Replica _ V).Reads (outlook spoken) (fun key => key.shift 1) where
  source := faithful_source hspoken
  horizon := shows_horizon
  epoch := shows_revisions

end Closed

theorem quiet_replica (settings : Replica.Settings) :
    (replica settings : Replica (StateM (Ledger V)) V).Quiet :=
  fun _ => rfl

theorem notes_note : Replica.Notes (outlook Open) (note : Overheard V -> _) :=
  fun _ _ hopen => ⟨rfl, rfl, rfl, rfl, rfl, rfl, fun _ => hopen⟩

end Ledger
end AsOf
