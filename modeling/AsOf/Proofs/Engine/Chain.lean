import AsOf.Proofs.Engine.Order

/-!
# The window is a stretch of the series

Over a series that stays as it is, the window of an engine is empty and without an
anchor, or it holds every entry of the series from its oldest to its newest one, and
the newest one is the entry in effect at its anchor.  Lookups may fail at any point:
a run that fails leaves the window as it was.
-/

namespace AsOf

variable {V : Type} {series : Series V}

namespace Window

variable {window : Window V}

/-- A stretch of a series without a gap, whose newest entry is in effect at the anchor. -/
structure Stretch (series : Series V) (window : Window V) (oldest newest : Entry V)
    (anchor : Instant) : Prop where
  ends : window.oldest? = some oldest ∧ window.newest? = some newest
  anchored : window.anchor = some anchor
  entries : window.toList = series.toList.filter
    fun e => oldest.key ≤ e.key ∧ e.key ≤ newest.key
  inEffect : series.latestUpTo anchor = some newest

/-- A window without entries and without an anchor, or a stretch of a series. -/
def Chain (series : Series V) (window : Window V) : Prop :=
  (window.entries = [] ∧ window.anchor = none) ∨
    exists oldest newest anchor, Stretch series window oldest newest anchor

theorem mem_iff_of_prefix {l : List (Entry V)} {a : Instant} {oldest newest e : Entry V}
    (h : l <+: series.downFrom a) (holdest : l.getLast? = some oldest)
    (hnewest : l.head? = some newest) :
    e ∈ l ↔ e ∈ series ∧ oldest.key ≤ e.key ∧ e.key ≤ newest.key := by
  have hdesc : Descending l := (series.descending_downFrom a).sublist h.sublist
  have hsplit := Series.downFrom_eq_append h holdest
  constructor
  · intro he
    exact ⟨(Series.mem_of_prefix h he).1, hdesc.getLast_le holdest he,
      (hdesc.head?_eq_some_iff.mp hnewest).2 e he⟩
  · intro hbetween
    rcases hbetween with ⟨he, hge, hle⟩
    have hnewest := Series.mem_of_prefix h (hdesc.head?_eq_some_iff.mp hnewest).1
    have hrun : e ∈ series.downFrom a :=
      Series.mem_downFrom.mpr ⟨he, Std.le_trans hle hnewest.2⟩
    rw [hsplit] at hrun
    rcases List.mem_append.mp hrun with hl | hbefore
    · exact hl
    · exact absurd (Series.mem_downBefore.mp hbefore).2 (Std.not_lt.mpr hge)

theorem Of.chain (h : window.Of series) (horder : window.Consistent) : window.Chain series := by
  rcases anchored_iff.mp horder.2 with hempty | ⟨newest, rest, anchor, hentries, hanchor, -⟩
  · exact Or.inl hempty
  · have hfront := h.entries anchor hanchor
    have hnewest : window.newest? = some newest := by
      unfold newest?
      rw [hentries]
      rfl
    rcases Windowed.exists_oldest (hentries ▸ List.cons_ne_nil newest rest :
      window.entries ≠ []) with ⟨oldest, holdest, -⟩
    refine Or.inr ⟨oldest, newest, anchor, ⟨holdest, hnewest⟩, hanchor, ?_, ?_⟩
    · apply (ascending_reverse.mpr horder.1).eq_of_mem_iff (series.ascending_toList.filter _)
      intro e
      rw [List.mem_reverse, mem_iff_of_prefix hfront holdest hnewest, List.mem_filter,
        Series.mem_toList, decide_eq_true_eq]
    · rcases hfront with ⟨tail, htail⟩
      rw [Series.latestUpTo_eq_head?, ← htail, hentries]
      rfl

end Window

namespace Engine

open Outlook

variable {m : Type -> Type} [Monad m] {W : Type} [Performs m W] {o : Outlook W V}
  {view : View m V} {live : W -> view.archive.Scan -> Prop}

namespace Session

variable {x : Session W V} {c : Command W}

/-- The worlds that a session moves to are those that are spoken of. -/
def Goes (o : Outlook W V) (_ : Session W V) : Command W -> Prop
  | .move w => o.ready w
  | _ => True

def Chained (series : Series V) (x : Session W V) : Prop :=
  forall window, x.engine.window? = some window -> window.Chain series

structure Linked (o : Outlook W V) (x : Session W V) : Prop where
  ready : o.ready x.world
  attached : Attached Window.Of o x.here
  proper : x.engine.Proper

theorem Linked.chained (hx : x.Linked o) (hseries : forall w, o.ready w -> o.series w = series) :
    x.Chained series := by
  intro window hwindow
  cases hengine : x.engine with
  | direct n =>
      rw [hengine] at hwindow
      cases hwindow
  | windowed s =>
      rw [hengine] at hwindow
      cases hwindow
      have hof := hx.attached s hengine
      rw [show o.series x.here.2 = series from hseries x.world hx.ready] at hof
      exact hof.chain (hx.proper s hengine).window

theorem linked_start (h : view.Reads o live) (kind : Kind) (maximum : Option Positive) {w : W}
    (hready : o.ready w) : (start view kind maximum w).Linked o := by
  have hstart := after_start h.epoch hready kind maximum
  refine ⟨hstart.1.ready hready, fun s hs => ?_, proper_start view kind maximum⟩
  rw [(hstart.2 s hs).2]
  exact Window.of_empty _

theorem Linked.ask (h : view.Reads o live) (hx : x.Linked o) (options : Options) (key : Instant)
    (q : Question) : (x.step view o (.ask options key q)).Linked o := by
  have hkept : Kept Window.Of o x.here := fun s hs _ => hx.attached s hs
  have hserves := (Question.after_put h hx.ready hkept options key q).1
  have hproper := (Question.inShape_put (p := x.here) view hx.proper options key q).1
  exact ⟨hserves.follows.ready hx.ready, hserves.attached hx.attached, hproper⟩

/-- Whatever command is given, the window remains one of the series and in order. -/
theorem linked_step (h : view.Reads o live) (hseries : forall w, o.ready w -> o.series w = series)
    (hx : x.Linked o) (hgoes : x.Goes o c) : (x.step view o c).Linked o := by
  cases c with
  | ask options key q => exact hx.ask h options key q
  | clear =>
      refine ⟨hx.ready, fun s hs => ?_, hx.proper.clear⟩
      rcases State.window_clear hs with ⟨t, -, hempty, -⟩
      rw [hempty]
      exact Window.of_empty _
  | raiseMaximum size =>
      refine ⟨hx.ready, fun s hs => ?_, hx.proper.raiseMaximum size⟩
      rcases State.window_raiseMaximum hs with ⟨t, ht, hwindow, -⟩
      rw [hwindow]
      exact hx.attached t ht
  | move w =>
      refine ⟨hgoes, fun s hs => ?_, hx.proper⟩
      show s.window.Of (o.series w)
      rw [hseries w hgoes, ← hseries x.world hx.ready]
      exact hx.attached s hs

/--
The window is a chain of the series at every point of every session: it is empty and
without an anchor, or it misses nothing between its ends and its newest entry is the
one in effect at the anchor.
-/
theorem window_chained (h : view.Reads o live)
    (hseries : forall w, o.ready w -> o.series w = series) (kind : Kind)
    (maximum : Option Positive) {w : W} {commands : List (Command W)} (hready : o.ready w)
    (hgoes : Each (step view o) (Goes o) (start view kind maximum w) commands) :
    Throughout (step view o) (Chained series) (start view kind maximum w) commands :=
  throughout_of_kept (fun _ _ hx hc => linked_step h hseries hx hc)
    (fun _ hx => hx.chained hseries) (linked_start h kind maximum hready) hgoes

def interrupted : List (Command (Ledger Int)) :=
  [.ask {} (.ofNanos 35) (.previousEntries 2),
    .ask {} (.ofNanos 45) (.previousEntries 3),
    .ask {} (.ofNanos 25) (.previousEntries 4),
    .move { Ledger.holding [10, 20, 30, 40] with outages := [false, true], epoch := 1 },
    .ask {} (.ofNanos 40) (.previousEntries 3),
    .ask {} (.ofNanos 40) (.previousEntry 2),
    .raiseMaximum 3,
    .ask { future := true } (.ofNanos 15) (.previousEntries 2)]

theorem window_chained_on_ledger :
    let ledger := Ledger.holding [10, 20, 30, 40]
    let o := Ledger.outlook (Ledger.Bears ledger.series)
    let x := start Ledger.view .windowed (some ⟨2, by decide⟩) ledger
    Throughout (step Ledger.view o) (Chained ledger.series) x interrupted := by
  have hopen : Ledger.Open (Ledger.holding [10, 20, 30, 40]) := by decide
  apply window_chained (Ledger.reads_view (Ledger.closed_bears _)) (fun _ hbears => hbears.1)
  · exact ⟨rfl, hopen⟩
  · exact ⟨trivial, trivial, trivial, ⟨rfl, hopen⟩, trivial, trivial, trivial, trivial, trivial⟩

end Session
end Engine
end AsOf
