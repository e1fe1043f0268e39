import AsOf.Proofs.Engine
import AsOf.Query

/-!
# Queries answer from the series

What the questions of a query mean for the series: entries put to the demand of the
query, runs that may be filled up to their count, and ranges.  Over a faithful
archive every question is answered by what it means, or by a failure of the archive.
-/

namespace AsOf

open Outlook

variable {m : Type -> Type} [Monad m] {V W α β : Type} [Performs m W] {o : Outlook W V}

/-!
## Runs filled up to a count

A run that is filled up shows, position by position, the entry so many positions
back or ahead; where the series ends, its last entry is shown again.
-/

theorem filterMap_positions {l : List α} {last : α} (hlast : l.getLast? = some last) (count : Nat) :
    (List.range count).filterMap (fun i => l[i]?.or l.getLast?) =
      l.take count ++ List.replicate (count - l.length) last := by
  rw [hlast]
  induction count with
  | zero => simp
  | succ n ih =>
      rw [List.range_succ, List.filterMap_append, ih]
      rcases Nat.lt_or_ge n l.length with hlt | hge
      · have hshort : n - l.length = 0 := by omega
        have hshort' : n + 1 - l.length = 0 := by omega
        simp [hshort, hshort', hlt, List.take_append_getElem]
      · have hlong : n + 1 - l.length = n - l.length + 1 := by omega
        rw [hlong, List.replicate_succ', List.take_of_length_le hge,
          List.take_of_length_le (Nat.le_succ_of_le hge)]
        simp [hge]

theorem replicate_getLast {l : List α} {last x : α} {count : Nat} (hlast : l.getLast? = some last)
    (hx : (l.take count).getLast? = some x) :
    List.replicate (count - (l.take count).length) x = List.replicate (count - l.length) last := by
  rw [List.length_take]
  rcases Nat.le_total count l.length with hle | hle
  · rw [Nat.min_eq_left hle, Nat.sub_self, Nat.sub_eq_zero_of_le hle]
    rfl
  · rw [List.take_of_length_le hle, hlast] at hx
    cases hx
    rw [Nat.min_eq_right hle]

namespace Query

theorem padBack_take (l : List (Entry V)) (count : Nat) :
    padBack count (l.take count) = (List.range count).filterMap fun i => l[i]?.or l.getLast? := by
  cases hlast : l.getLast? with
  | none =>
      rw [List.getLast?_eq_none_iff.mp hlast]
      simp [padBack]
  | some last =>
      rw [← hlast, filterMap_positions hlast]
      unfold padBack
      split
      · rename_i hnone
        have hnil := List.getLast?_eq_none_iff.mp hnone
        rcases List.take_eq_nil_iff.mp hnil with hzero | hempty
        · rw [hzero]
          simp
        · rw [hempty] at hlast
          cases hlast
      · rename_i x hx
        rw [replicate_getLast hlast hx]

theorem padFront_reverse (count : Nat) (l : List (Entry V)) :
    padFront count l.reverse = (padBack count l).reverse := by
  unfold padBack
  split
  · rename_i hnone
    rw [List.getLast?_eq_none_iff.mp hnone]
    rfl
  · rename_i newest hlast
    rcases List.getLast?_eq_some_iff.mp hlast with ⟨init, rfl⟩
    simp [padFront]

end Query

/-!
## What a series has to say

The instant asked about is moved back to the horizon unless the future is open.
-/

namespace Outlook

def entryAt (o : Outlook W V) (w : W) (options : Options) (key : Instant) :
    Except QueryError (Option (Entry V)) :=
  options.demand.verdict (o.about w options key)
    ((o.series w).latestUpTo (o.about w options key))

def entryBefore (o : Outlook W V) (w : W) (options : Options) (key : Instant) (distance : Nat) :
    Except QueryError (Option (Entry V)) :=
  options.demand.presence key distance
    ((o.series w).entryBack (o.about w options key) (min distance (Count.limit - 1)))

def entryAfter (o : Outlook W V) (w : W) (options : Options) (key : Instant) (distance : Nat) :
    Except QueryError (Option (Entry V)) :=
  options.demand.presence key distance
    ((o.series w).entryAhead (o.about w options key) (o.within w options)
      (min distance (Count.limit - 1)))

/-- The last entries up to the instant, or the entry at each number of positions back. -/
def runBefore (o : Outlook W V) (w : W) (options : Options) (key : Instant) (count : Nat) :
    List (Entry V) :=
  if options.distinct then
    (o.series w).lastUpTo (o.about w options key) count
  else
    (List.range count).reverse.filterMap ((o.series w).entryBack (o.about w options key))

/-- The first entries from the instant on, or the entry at each number of positions ahead. -/
def runAfter (o : Outlook W V) (w : W) (options : Options) (key : Instant) (count : Nat) :
    List (Entry V) :=
  if options.distinct then
    ((o.series w).between (o.about w options key) (o.within w options)).take count
  else
    (List.range count).filterMap
      ((o.series w).entryAhead (o.about w options key) (o.within w options))

/-- The first entries from one instant to another, as many as the options allow. -/
def range (o : Outlook W V) (w : W) (options : Options) (first last : Instant) :
    List (Entry V) :=
  ((o.series w).between first (some (o.about w options last))).take
    (options.maxResults.getD Count.limit)

end Outlook

namespace Query

/-!
## Questions
-/

inductive Question where
  | entry
  | value
  | previousEntry (distance : Nat)
  | previousValue (distance : Nat)
  | previousKey (distance : Nat)
  | nextEntry (distance : Nat)
  | nextValue (distance : Nat)
  | nextKey (distance : Nat)
  | previousEntries (count : Nat)
  | previousValues (count : Nat)
  | previousKeys (count : Nat)
  | nextEntries (count : Nat)
  | nextValues (count : Nat)

namespace Question

def Reply (V : Type) : Question -> Type
  | entry | previousEntry _ | nextEntry _ => Option (Entry V)
  | value | previousValue _ | nextValue _ => Option V
  | previousKey _ | nextKey _ => Option Instant
  | previousEntries _ | nextEntries _ => List (Entry V)
  | previousValues _ | nextValues _ => List V
  | previousKeys _ => List Instant

def put (query : Query m V) (key : Instant) : (q : Question) -> Answer m V (q.Reply V)
  | entry => query.entry key
  | value => query.value key
  | previousEntry distance => query.previousEntry key distance
  | previousValue distance => query.previousValue key distance
  | previousKey distance => query.previousKey key distance
  | nextEntry distance => query.nextEntry key distance
  | nextValue distance => query.nextValue key distance
  | nextKey distance => query.nextKey key distance
  | previousEntries count => query.previousEntries key count
  | previousValues count => query.previousValues key count
  | previousKeys count => query.previousKeys key count
  | nextEntries count => query.nextEntries key count
  | nextValues count => query.nextValues key count

def answer (o : Outlook W V) (w : W) (options : Options) (key : Instant) :
    (q : Question) -> Except QueryError (q.Reply V)
  | entry => o.entryAt w options key
  | value => (o.entryAt w options key).map (Option.map Entry.value)
  | previousEntry distance => o.entryBefore w options key distance
  | previousValue distance => (o.entryBefore w options key distance).map (Option.map Entry.value)
  | previousKey distance => (o.entryBefore w options key distance).map (Option.map Entry.key)
  | nextEntry distance => o.entryAfter w options key distance
  | nextValue distance => (o.entryAfter w options key distance).map (Option.map Entry.value)
  | nextKey distance => (o.entryAfter w options key distance).map (Option.map Entry.key)
  | previousEntries count => .ok (o.runBefore w options key count)
  | previousValues count => .ok ((o.runBefore w options key count).map Entry.value)
  | previousKeys count => .ok ((o.runBefore w options key count).map Entry.key)
  | nextEntries count => .ok (o.runAfter w options key count)
  | nextValues count => .ok ((o.runAfter w options key count).map Entry.value)

end Question

def Gives (o : Outlook W V) (x : Answer m V α) (p : Engine.State V × W)
    (expected : Except QueryError α) : Prop :=
  After x.run p (fun r p' => Engine.Serves Window.Of o p p' ∧ o.Returns p.2 p'.2 expected r)

section Gives

variable {x : Answer m V α} {p : Engine.State V × W}

theorem Gives.map {expected : Except QueryError α} (hx : Gives o x p expected) (f : α -> β) :
    Gives o (f <$> x) p (expected.map f) := by
  apply after_except_map.mpr
  apply After.imp hx
  intro r p' hpost
  rcases hpost with ⟨hp', rfl | ⟨e, he, rfl⟩⟩
  · exact ⟨hp', Or.inl rfl⟩
  · exact ⟨hp', Or.inr ⟨e, he, rfl⟩⟩

theorem gives_of_delivers {a : α} {f : α -> Except QueryError β}
    (hx : After x.run p (fun r p' => Engine.Serves Window.Of o p p' ∧
      o.Delivers p.2 p'.2 (· = a) r)) :
    Gives o (x >>= fun a => .settled (f a)) p (f a) := by
  apply after_except_bind.mpr
  apply After.imp hx
  intro r p' hpost
  rcases hpost with ⟨hp', hr⟩
  cases r with
  | error e => exact ⟨hp', Or.inr ⟨e, hr, rfl⟩⟩
  | ok b =>
    rw [show b = a from hr]
    exact after_request_settled.mpr ⟨hp', Or.inl rfl⟩

end Gives

section Questions

variable {view : View m V} {live : W -> view.archive.Scan -> Prop}
  {awaits : W -> view.archive.Scan -> List (Entry V) -> Prop} {p : Engine.State V × W}
  (h : view.Reads o live) (hready : o.ready p.2) (options : Options) (key : Instant)

include h hready

theorem gives_entry : Gives o (entry ⟨view, options⟩ key) p (o.entryAt p.2 options key) :=
  Engine.after_entry h hready options key

theorem gives_previousEntry (hkept : Engine.Kept Window.Of o p) (distance : Nat) :
    Gives o (previousEntry ⟨view, options⟩ key distance) p
      (o.entryBefore p.2 options key distance) := by
  unfold Outlook.entryBefore
  rw [← Demand.require_eq_presence]
  exact gives_of_delivers (Engine.after_previousEntry h hready hkept options key distance)

theorem gives_nextEntry (hscans : view.archive.Scans o awaits) (distance : Nat) :
    Gives o (nextEntry ⟨view, options⟩ key distance) p
      (o.entryAfter p.2 options key distance) := by
  unfold Outlook.entryAfter
  rw [← Demand.require_eq_presence]
  exact gives_of_delivers
    (Engine.after_handOn (View.after_nextEntry h hscans hready options key distance))

theorem gives_previousEntries (hkept : Engine.Kept Window.Of o p) (count : Nat) :
    Gives o (previousEntries ⟨view, options⟩ key count) p
      (.ok (o.runBefore p.2 options key count)) := by
  have hrun := gives_of_delivers
    (f := fun run => .ok (if options.distinct then run else padFront count run))
    (Engine.after_previousEntries h hready hkept options key count)
  have hexpected : o.runBefore p.2 options key count =
      let run := (o.series p.2).lastUpTo (o.about p.2 options key) count
      if options.distinct then run else padFront count run := by
    unfold Outlook.runBefore
    dsimp only
    rw [Series.lastUpTo_eq, padFront_reverse, padBack_take, List.filterMap_reverse]
    rfl
  rw [hexpected]
  exact hrun

theorem gives_nextEntries (hscans : view.archive.Scans o awaits) (count : Nat) :
    Gives o (nextEntries ⟨view, options⟩ key count) p
      (.ok (o.runAfter p.2 options key count)) := by
  have hrun := gives_of_delivers
    (f := fun run => .ok (if options.distinct then run else padBack count run))
    (Engine.after_handOn (View.after_nextEntries h hscans hready options key count))
  have hexpected : o.runAfter p.2 options key count =
      let run :=
        ((o.series p.2).between (o.about p.2 options key) (o.within p.2 options)).take count
      if options.distinct then run else padBack count run := by
    unfold Outlook.runAfter
    dsimp only
    rw [padBack_take]
    rfl
  rw [hexpected]
  exact hrun

/-- Every question of a query is answered by what the series has to say. -/
theorem gives_answer (hscans : view.archive.Scans o awaits) (hkept : Engine.Kept Window.Of o p)
    (q : Question) :
    Gives o (q.put ⟨view, options⟩ key) p (q.answer o p.2 options key) := by
  cases q with
  | entry => exact gives_entry h hready options key
  | value => exact (gives_entry h hready options key).map _
  | previousEntry distance => exact gives_previousEntry h hready options key hkept distance
  | previousValue distance => exact (gives_previousEntry h hready options key hkept distance).map _
  | previousKey distance => exact (gives_previousEntry h hready options key hkept distance).map _
  | nextEntry distance => exact gives_nextEntry h hready options key hscans distance
  | nextValue distance => exact (gives_nextEntry h hready options key hscans distance).map _
  | nextKey distance => exact (gives_nextEntry h hready options key hscans distance).map _
  | previousEntries count => exact gives_previousEntries h hready options key hkept count
  | previousValues count => exact (gives_previousEntries h hready options key hkept count).map _
  | previousKeys count => exact (gives_previousEntries h hready options key hkept count).map _
  | nextEntries count => exact gives_nextEntries h hready options key hscans count
  | nextValues count => exact (gives_nextEntries h hready options key hscans count).map _

end Questions

end Query
end AsOf
