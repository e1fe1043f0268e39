import AsOf.Proofs.Replica.Session
import AsOf.Proofs.Replica.Upheld

/-!
# Scans that are read between other requests

What a scan yields does not hang on what the replica remembers, nor on what the source
names as latest entries.  It is enough that batches and next keys are faithful to one
series.  Between two pulls anything may be looked up, scanned or cleared, and horizon and
epoch may move: a scan yields each entry of the series from its first key on, in order,
or those before a page that could not be read, and then the failure to read it.
-/

namespace AsOf
namespace Replica

open Outlook

variable {m : Type -> Type} [Monad m] {V W : Type} [Performs m W] {o : Outlook W V}
  {next : Instant -> Instant} {replica : Replica m V} {p : State V × W} {w : W}
  {series : Series V} {scan : Scan V}

/-- A replica that can scan its source, whatever else it learns of the world. -/
structure Scans (replica : Replica m V) (o : Outlook W V) (next : Instant -> Instant) :
    Prop where
  source : replica.source.Batches o next
  latestUpTo : forall w key, o.ready w ->
    After (replica.source.latestUpTo key).run w (fun _ w' => o.Follows w w')
  horizon : forall w, o.ready w -> After replica.horizon.highest w (fun _ w' => o.Follows w w')
  epoch : forall w, o.ready w -> After replica.epoch.current w (fun _ w' => o.Follows w w')

theorem Reads.scans (h : replica.Reads o next) : replica.Scans o next where
  source := h.source.batches
  latestUpTo w key hready := (h.source.latestUpTo w key hready).1
  horizon w hready := (h.horizon w hready).2
  epoch w hready := (h.epoch w hready).2

theorem Scans.deaf (h : replica.Scans o next) : replica.Scans o.deaf next where
  source := h.source.deaf
  latestUpTo w key hready := (h.latestUpTo w key hready).deaf
  horizon w hready := (h.horizon w hready).deaf
  epoch w hready := (h.epoch w hready).deaf

structure Along (o : Outlook W V) (w : W) (p : State V × W) : Prop where
  ready : o.ready p.2
  follows : o.Follows w p.2

theorem Along.onward (hp : Along o w p) {s : State V} {w' : W} (hw : o.Follows p.2 w') :
    Along o w (s, w') where
  ready := hw.ready hp.ready
  follows := hp.follows.trans hw

theorem Scans.upholds (h : replica.Scans o next) (w : W) :
    replica.Upholds (Along o w) (fun e => exists w, o.ready w ∧ e ∈ o.series w) where
  epoch _ w' hp := After.imp (h.epoch w' hp.ready) fun _ _ hw => hp.onward hw
  horizon _ w' hp := After.imp (h.horizon w' hp.ready) fun _ _ hw => hp.onward hw
  batchFrom _ w' start hp := by
    apply After.imp (h.source.batchFrom w' start hp.ready)
    intro r w'' hpost
    rcases hpost with ⟨hw, hr⟩
    cases r with
    | error e => exact ⟨hp.onward hw, trivial⟩
    | ok batch =>
        have hbatch : (o.series w').Batch start (o.limit w') batch := hr
        exact ⟨hp.onward hw, fun e he => ⟨w', hp.ready, hbatch.mem e he⟩⟩
  latestUpTo _ w' key hp := After.imp (h.latestUpTo w' key hp.ready) fun _ _ hw => hp.onward hw
  batchLimit _ w' hp := After.imp (h.source.batchLimit w' hp.ready) fun _ _ hw => hp.onward hw.2
  nextKey _ w' e hp hhanded := by
    apply After.imp (h.source.nextKey w' e.key hp.ready)
    intro _ w'' hpost
    rcases hpost with ⟨rfl, hw⟩
    rcases hhanded with ⟨w₀, hready, he⟩
    exact ⟨hp.onward hw, Std.le_of_lt (h.source.lt_next w₀ e hready he)⟩
  aside _ _ _ _ _ _ _ hp := ⟨hp.ready, hp.follows⟩
  store _ _ _ hp := ⟨hp.ready, hp.follows⟩
  cover _ _ _ hp _ := ⟨hp.ready, hp.follows⟩

section Pulls

variable (h : replica.Scans o next)
  (hl : forall w, Spares (Along o w) replica.listener)

include h hl

theorem after_loadPage_of_scans (hready : o.ready p.2) (mark : Bookmark) :
    After (replica.loadPage mark).run p (fun r p' => o.Follows p.2 p'.2 ∧
      WhenError (fun e => e ∈ o.since p.2 p'.2 ∧ exists cause, e = .load mark.start cause) r ∧
      WhenOk (fun page => page.Of (o.series p.2) mark) r) := by
  have hhere : Along o p.2 p := ⟨hready, Follows.refl o p.2⟩
  unfold loadPage
  apply after_except_bind.mpr
  apply after_except_lift.mpr
  apply After.imp (upheld_sync (h.upholds p.2) hhere)
  intro _ p₁ hp₁
  unfold announcing
  apply after_except_mk.mpr
  simp only [after_bind, after_pure]
  apply After.imp (after_fetch h.source hp₁.ready mark)
  intro r p₂ hpost
  rcases hpost with ⟨hw₂, hr, herror⟩
  have hp₂ : Along o p.2 p₂ := hp₁.onward hw₂
  apply After.imp (upheld_announce (h.upholds p₂.2) (hl p₂.2) ⟨hp₂.ready, Follows.refl o p₂.2⟩)
  intro _ p₃ hp₃
  refine ⟨hp₂.follows.trans hp₃.follows, ?_, ?_⟩
  · cases r with
    | ok page => trivial
    | error e =>
        have hsince := mem_since_of_later hp₁.follows hw₂ hr
        exact ⟨mem_since_of_earlier hp₂.follows hp₃.follows hsince, (herror e rfl).2⟩
  · cases r with
    | error e => trivial
    | ok page => exact hp₁.follows.series ▸ Fetched.page hr

/-- From any state whatsoever a scan yields the first entry awaited, or fails with the source. -/
theorem after_pull_of_scans (hready : o.ready p.2) (hscan : scan.Ordered) :
    After (replica.pull scan) p (fun r p' => o.Follows p.2 p'.2 ∧
      exists read, Yielded (o.series p.2) next scan read r ∧
        forall mark e, read = some (mark, .error e) -> scan.due = some mark ∧
          e ∈ o.since p.2 p'.2 ∧ exists cause, e = .load mark.start cause) := by
  have hpull := after_pull_of_page h.source hready hscan
    (fun mark r p' => o.Follows p.2 p'.2 ∧
      WhenError (fun e => e ∈ o.since p.2 p'.2 ∧ exists cause, e = .load mark.start cause) r)
    (by
      intro mark r s w w' hw hpost
      rcases hpost with ⟨hfollows, hr⟩
      refine ⟨hfollows.trans hw, ?_⟩
      cases r with
      | ok page => trivial
      | error e => exact ⟨mem_since_of_earlier hfollows hw hr.1, hr.2⟩)
    (by
      intro mark _
      apply After.imp (after_loadPage_of_scans h hl hready mark)
      exact fun r p' hpost => ⟨hpost.1, ⟨hpost.1, hpost.2.1⟩, hpost.2.2⟩)
  apply After.imp hpull
  intro r p' hpost
  rcases hpost with ⟨-, rfl, hyielded⟩ | ⟨mark, page, hdue, hfollows, hpage, hyielded⟩
  · exact ⟨Follows.refl o p'.2, none, hyielded, fun _ _ hread => by cases hread⟩
  · refine ⟨hfollows, some (mark, page), hyielded, fun before e hread => ?_⟩
    cases hread
    exact ⟨hdue, hpage.2⟩

end Pulls

/-!
## Readings
-/

/-- A scan with its first key, what it has yielded so far, and whether it is over. -/
structure Reading (V : Type) where
  scan : Scan V
  first : Instant
  items : List (Except QueryError (Entry V)) := []
  finished : Bool := false

namespace Reading

variable {reading : Reading V}

def after (reading : Reading V) (r : Option (Except QueryError (Entry V)) × Scan V) : Reading V :=
  { reading with
    scan := r.2
    items := reading.items ++ r.1.toList
    finished := reading.finished || r.1.isNone }

/--
A reading yields entry after entry of the series from its first key on, and all of them
before it says that it is over; or it yields those before the start of a page, then the
failure to read this page, and nothing after that.
-/
def Exact (series : Series V) (reading : Reading V) : Prop :=
  (exists entries rest, series.onwards reading.first = entries ++ rest ∧
    reading.items = entries.map .ok ∧ (reading.finished = true -> rest = [])) ∨
  exists entries start cause, series.onwards reading.first = entries ++ series.onwards start ∧
    reading.items = entries.map .ok ++ [.error (.load start cause)]

def Spent (scan : Scan V) : Prop :=
  scan.next = none ∧ scan.buffer = []

structure Right (series : Series V) (reading : Reading V) : Prop where
  ordered : reading.scan.Ordered
  items : (exists entries,
      series.onwards reading.first = entries ++ reading.scan.awaited series ∧
        reading.items = entries.map .ok ∧ (reading.finished = true -> Spent reading.scan)) ∨
    exists entries start cause, series.onwards reading.first = entries ++ series.onwards start ∧
      reading.items = entries.map .ok ++ [.error (.load start cause)] ∧ Spent reading.scan

theorem awaited_of_spent (series : Series V) (h : Spent scan) : scan.awaited series = [] := by
  unfold Scan.awaited
  rw [h.1, h.2]
  rfl

theorem due_of_spent (h : Spent scan) : scan.due = none := by
  unfold Scan.due
  rw [h.2]
  exact h.1

theorem awaited_of_due (series : Series V) {mark : Bookmark} (h : scan.due = some mark) :
    scan.awaited series = series.onwards mark.start := by
  unfold Scan.due at h
  unfold Scan.awaited
  split at h
  · rename_i hbuffer
    rw [hbuffer, h]
    rfl
  · cases h

theorem Right.exact (h : reading.Right series) : reading.Exact series := by
  rcases h.items with ⟨entries, hsplit, hitems, hover⟩ | ⟨entries, start, cause, hsplit, hitems, -⟩
  · exact Or.inl ⟨entries, _, hsplit, hitems, fun h => awaited_of_spent series (hover h)⟩
  · exact Or.inr ⟨entries, start, cause, hsplit, hitems⟩

theorem right_startAt (key : Instant) :
    Right series { scan := .startAt key, first := key } where
  ordered := Scan.ordered_startAt key
  items := Or.inl ⟨[], rfl, rfl, fun h => by cases h⟩

/-- A pull that yields what is awaited, or the failure to read the page that is due. -/
theorem Right.after {read : Option (Bookmark × Except QueryError (Page V))}
    {r : Option (Except QueryError (Entry V)) × Scan V} (h : reading.Right series)
    (hr : Yielded series next reading.scan read r)
    (hread : forall mark e, read = some (mark, .error e) -> reading.scan.due = some mark ∧
      exists cause, e = .load mark.start cause) :
    (reading.after r).Right series := by
  rcases r with ⟨item, scan⟩
  have houtcome := hr.outcome
  refine ⟨hr.ordered, ?_⟩
  rcases h.items with ⟨entries, hsplit, hitems, hover⟩ |
    ⟨entries, start, cause, hsplit, hitems, hspent⟩
  · rcases item with _ | e | e
    · rcases houtcome with ⟨hnil, rfl⟩
      rw [hnil] at hsplit
      refine Or.inl ⟨entries, hsplit, ?_, fun _ => ⟨rfl, rfl⟩⟩
      show reading.items ++ [] = _
      rw [List.append_nil, hitems]
    · rcases houtcome with ⟨⟨mark, hmark⟩, rfl⟩
      rcases hread mark e hmark with ⟨hdue, cause, rfl⟩
      rw [awaited_of_due series hdue] at hsplit
      refine Or.inr ⟨entries, mark.start, cause, hsplit, ?_, rfl, rfl⟩
      show reading.items ++ [_] = _
      rw [hitems]
    · have hcons : reading.scan.awaited series = e :: scan.awaited series := houtcome
      refine Or.inl ⟨entries ++ [e], ?_, ?_, fun h => ?_⟩
      · show series.onwards reading.first = entries ++ [e] ++ scan.awaited series
        rw [hsplit, hcons, List.append_assoc]
        rfl
      · show reading.items ++ [_] = _
        rw [hitems, List.map_append]
        rfl
      · have hover' : reading.finished = true := by simpa [Reading.after] using h
        rw [awaited_of_spent series (hover hover')] at hcons
        cases hcons
  · have hnil := awaited_of_spent series hspent
    rcases item with _ | e | e
    · rcases houtcome with ⟨-, rfl⟩
      refine Or.inr ⟨entries, start, cause, hsplit, ?_, rfl, rfl⟩
      show reading.items ++ [] = _
      rw [List.append_nil, hitems]
    · rcases houtcome with ⟨⟨mark, hmark⟩, -⟩
      rw [due_of_spent hspent] at hread
      cases (hread mark e hmark).1
    · have hcons : reading.scan.awaited series = e :: scan.awaited series := houtcome
      rw [hnil] at hcons
      cases hcons

end Reading

/-!
## Readings under way
-/

structure Desk (W V : Type) where
  world : W
  memory : State V
  readings : List (Reading V) := []

def Command.Leads (o : Outlook W V) : Command W -> Prop
  | .move w => o.ready w
  | .lookup _ | .begin _ | .pull _ | .clear => True

namespace Desk

variable {x : Desk W V} {c : Command W}

def here (x : Desk W V) : State V × W :=
  (x.memory, x.world)

def step (replica : Replica m V) (x : Desk W V) : Command W -> Desk W V
  | .lookup key =>
      let p := (perform (replica.lookup key).run x.here).2
      { x with memory := p.1, world := p.2 }
  | .begin key =>
      { x with readings := x.readings ++ [{ scan := .startAt key, first := key }] }
  | .pull index =>
      match x.readings[index]? with
      | none => x
      | some reading =>
          let r := perform (replica.pull reading.scan) x.here
          { world := r.2.2, memory := r.2.1, readings := x.readings.set index (reading.after r.1) }
  | .clear =>
      { x with memory := x.memory.forget }
  | .move w =>
      { x with world := w }

def Blameless (replica : Replica m V) (o : Outlook W V) (x : Desk W V) : Command W -> Prop
  | .pull index => forall reading, x.readings[index]? = some reading ->
      After (replica.pull reading.scan) x.here (fun r p' =>
        forall e, r.1 = some (.error e) -> e ∈ o.since x.world p'.2)
  | _ => True

structure Right (o : Outlook W V) (series : Series V) (x : Desk W V) : Prop where
  ready : o.ready x.world
  readings : forall reading, reading ∈ x.readings -> reading.Right series

section Steps

variable (h : replica.Scans o next) (hl : forall w, Spares (Along o w) replica.listener)
  (hseries : forall w, o.ready w -> o.series w = series)

include h hl hseries

theorem right_pull (hx : x.Right o series) (index : Nat) :
    x.Blameless replica o (.pull index) ∧ (x.step replica (.pull index)).Right o series := by
  cases hget : x.readings[index]? with
  | none =>
      constructor
      · intro reading hreading
        rw [hget] at hreading
        cases hreading
      · simpa [step, hget] using hx
  | some reading =>
      have hright := hx.readings reading (List.mem_of_getElem? hget)
      have hpull := after_pull_of_scans (p := x.here) h hl hx.ready hright.ordered
      rw [show o.series x.here.2 = series from hseries x.world hx.ready] at hpull
      rcases hpull with ⟨hfollows, read, hyielded, hread⟩
      constructor
      · intro other hother
        cases hget.symm.trans hother
        intro e he
        have houtcome := hyielded.outcome
        rw [he] at houtcome
        rcases houtcome.1 with ⟨mark, hmark⟩
        exact (hread mark e hmark).2.1
      · simp only [step, hget]
        constructor
        · exact hfollows.ready hx.ready
        · intro other hother
          rcases List.mem_or_eq_of_mem_set hother with hold | rfl
          · exact hx.readings other hold
          · exact hright.after hyielded fun mark e hmark =>
              ⟨(hread mark e hmark).1, (hread mark e hmark).2.2⟩

theorem right_step (hx : x.Right o series) (hleads : c.Leads o) :
    x.Blameless replica o c ∧ (x.step replica c).Right o series := by
  cases c with
  | lookup key =>
      have hlookup := upheld_lookup (h.upholds x.world) (hl x.world) (p := x.here)
        ⟨hx.ready, Follows.refl o x.world⟩ key
      exact ⟨trivial, hlookup.ready, hx.readings⟩
  | begin key =>
      refine ⟨trivial, hx.ready, fun reading hreading => ?_⟩
      rcases List.mem_append.mp hreading with hold | hnew
      · exact hx.readings reading hold
      · cases List.mem_singleton.mp hnew
        exact Reading.right_startAt key
  | pull index => exact right_pull h hl hseries hx index
  | clear => exact ⟨trivial, hx.ready, hx.readings⟩
  | move w => exact ⟨trivial, hleads, hx.readings⟩

end Steps

/--
Scans are exact under interleaving: whatever a replica remembers, and whatever is looked
up, scanned, cleared and moved between two pulls, over a source that pages through one
series each scan yields the entries of the series from its first key on, up to its end or
up to a page that the source fails to hand out.
-/
theorem scans_exact {note : Overheard V -> m Unit} {inquire : Entry V -> Inquiry V} {depth : Nat}
    {commands : List (Command W)} (h : replica.Scans o next)
    (hnote : forall x w, o.ready w -> After (note x) w (fun _ w' => o.deaf.Follows w w'))
    (hseries : forall w, o.ready w -> o.series w = series) (memory : State V)
    (hready : o.ready w) (hleads : forall c, c ∈ commands -> c.Leads o) :
    Throughout (step (replica.overheard note inquire depth))
        (fun x => forall reading, reading ∈ x.readings -> reading.Exact series)
        { world := w, memory := memory } commands ∧
      Each (step (replica.overheard note inquire depth))
        (Blameless (replica.overheard note inquire depth) o)
        { world := w, memory := memory } commands := by
  have hheard : forall w, (replica.overheard note inquire depth).Upholds (Along o.deaf w)
      (fun e => exists w, o.ready w ∧ e ∈ o.series w) ∧
      Spares (Along o.deaf w) (replica.overheard note inquire depth).listener := by
    intro w
    apply upholds_overheard (h.deaf.upholds w)
    exact fun s w' x hp => After.imp (hnote x w' hp.ready) fun _ _ hw => hp.onward hw
  have hscans : (replica.overheard note inquire depth).Scans o.deaf next := by
    cases depth <;> exact { h.deaf with }
  have hstep : forall (x : Desk W V) (c : Command W), x.Right o.deaf series -> c.Leads o ->
      x.Blameless (replica.overheard note inquire depth) o c ∧
        (x.step (replica.overheard note inquire depth) c).Right o.deaf series := by
    intro x c hx hc
    have hc' : c.Leads o.deaf := by cases c <;> exact hc
    have hright := right_step hscans (fun w => (hheard w).2) hseries hx hc'
    refine ⟨?_, hright.2⟩
    cases c <;> exact hright.1
  have hstart : Right o.deaf series ({ world := w, memory := memory } : Desk W V) :=
    ⟨hready, fun _ hreading => absurd hreading List.not_mem_nil⟩
  constructor
  · apply throughout_of_kept (fun x c hx hc => (hstep x c hx hc).2) _ hstart (each_of_mem hleads)
    exact fun x hx reading hreading => (hx.readings reading hreading).exact
  · exact each_of_kept hstep hstart (each_of_mem hleads)

def deluded : State Int :=
  { loaded := .ofList [⟨.ofNanos 12, 0⟩]
    coverage := some ⟨.ofNanos 5, .unbounded⟩
    epoch := 0
    bound := none }

def interrupted : List (Command (Ledger Int)) :=
  [.begin (.ofNanos 10), .pull 0, .begin (.ofNanos 15), .lookup (.ofNanos 35),
    .move { Ledger.fourByTwo with epoch := 1, bound := some (.ofNanos 15) },
    .pull 1, .pull 0, .clear, .pull 0, .lookup (.ofNanos 5), .pull 0, .pull 0,
    .move { Ledger.fourByTwo with outages := [true] },
    .pull 1, .pull 1, .pull 1]

theorem scans_exact_on_ledger :
    let o := Ledger.outlook (Ledger.Bears Ledger.fourByTwo.series)
    let x : Desk (Ledger Int) Int := { world := Ledger.fourByTwo, memory := deluded }
    Throughout (step Session.curious) (fun x => forall reading, reading ∈ x.readings ->
        reading.Exact Ledger.fourByTwo.series) x interrupted ∧
      Each (step Session.curious) (Blameless Session.curious o) x interrupted := by
  have hbears : Ledger.Bears Ledger.fourByTwo.series Ledger.fourByTwo := ⟨rfl, by decide⟩
  have hreads := Ledger.reads_replica (Ledger.closed_bears Ledger.fourByTwo.series) {}
  apply scans_exact hreads.scans
  · intro x w hready
    exact ⟨rfl, rfl, rfl, rfl, ⟨[], (List.append_nil _).symm⟩, ⟨[], rfl, by simp⟩, id⟩
  · exact fun w hready => hready.1
  · exact hbears
  · intro c hc
    cases c with
    | move w =>
        have hworld : w = { Ledger.fourByTwo with epoch := 1, bound := some (.ofNanos 15) } ∨
            w = { Ledger.fourByTwo with outages := [true] } := by
          simpa [interrupted] using hc
        rcases hworld with rfl | rfl <;> exact hbears
    | _ => trivial

end Desk
end Replica
end AsOf
