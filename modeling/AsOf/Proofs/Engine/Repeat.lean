import AsOf.Proofs.Engine.Outlay

/-!
# Runs that are asked for again

Over a series that stays as it is, a full run that is asked for again at once is read off the
window, and the window stays as it is.  There is one exception.  If the run began within the
window and went on behind it, the maximum had just room for the run, and no entry lies at the
instant, then the window was cut to the run and anchored at its newest entry, before the instant.
It takes a lookup then to meet the window again, and to anchor it at the instant.
-/

namespace AsOf

variable {V : Type} {series : Series V} {a : Instant}

namespace Window

variable (window : Window V) (size : Nat)

theorem anchor_trimNewest (h : size < window.size) :
    (window.trimNewest size).anchor = (window.trimNewest size).newest?.map Entry.key := by
  have hexcess : window.excess size ≠ 0 := by
    unfold excess
    omega
  unfold trimNewest
  rw [if_neg hexcess]
  rfl

end Window

namespace Windowed

variable {s : State V} {count spent : Nat} {place : Place} {out : Outcome V} {newest : Entry V}

namespace State

theorem Proper.locate_eq_after_iff (hs : s.Proper) (hnewest : s.window.newest? = some newest) :
    s.locate a = .after newest.key ↔ newest.key < a ∧ s.window.anchor ≠ some a := by
  have hne := List.ne_nil_of_mem (List.mem_of_head? hnewest)
  rcases exists_oldest hne with ⟨oldest, holdest, -⟩
  rcases hs.window.exists_anchor hne with ⟨anchor, hanchor, hle⟩
  have hmax := hle newest (List.mem_of_head? hnewest)
  rw [locate_of_ends holdest hnewest hanchor, hanchor]
  constructor
  · intro hlocate
    split at hlocate
    · cases hlocate
    · rename_i hnot
      split at hlocate
      · rename_i hafter
        have hlt : newest.key < a := by
          rcases hafter with hlt | hlt
          · exact Std.lt_of_le_of_lt hmax hlt
          · exact hlt
        refine ⟨hlt, fun hsome => ?_⟩
        cases hsome
        exact hnot (Or.inl rfl)
      · split at hlocate <;> cases hlocate
  · intro h
    rcases h with ⟨hlt, hother⟩
    rw [if_neg, if_pos (Or.inr hlt)]
    rintro (rfl | rfl)
    · exact hother rfl
    · exact absurd hlt Std.lt_irrefl

theorem Proper.newest_lt_of_after {key : Instant} (hs : s.Proper)
    (hafter : s.locate a = .after key) :
    exists newest, s.window.newest? = some newest ∧ newest.key < a ∧ s.window.anchor ≠ some a := by
  have hplace := hs.aligned a
  rw [hafter] at hplace
  rcases hplace with ⟨newest, hnewest, rfl, -⟩
  exact ⟨newest, hnewest, (hs.locate_eq_after_iff hnewest).mp hafter⟩

theorem lt_newest_of_inside (hinside : s.locate a = .inside) :
    exists newest, s.window.newest? = some newest ∧ a < newest.key := by
  unfold locate at hinside
  split at hinside
  · rename_i oldest newest anchor holdest hnewest hanchor
    split at hinside
    · cases hinside
    · rename_i hnot
      split at hinside
      · cases hinside
      · rename_i hbefore
        refine ⟨newest, hnewest, Std.lt_of_le_of_ne ?_ fun heq => hnot (Or.inr heq)⟩
        exact Std.not_lt.mp fun hlt => hbefore (Or.inr hlt)
  · cases hinside

theorem Proper.exists_later (hs : s.Proper) (hinside : s.locate a = .inside) :
    exists later, later ≠ [] ∧ (forall e, e ∈ later -> a < e.key) ∧
      s.window.entries = later ++ s.reading a .inside := by
  have hparts : s.window.entries =
      (s.window.entries.takeWhile fun e => a < e.key) ++ s.reading a .inside := by
    show _ = _ ++ s.window.entries.filter fun e => e.key ≤ a
    rw [← hs.window.1.dropWhile_eq_filter a, List.takeWhile_append_dropWhile]
  refine ⟨_, fun hnil => ?_, fun e he => ?_, hparts⟩
  · rcases lt_newest_of_inside hinside with ⟨newest, hnewest, hlt⟩
    have hread : newest ∈ s.window.entries := List.mem_of_head? hnewest
    rw [hparts, hnil] at hread
    have hle := (List.mem_filter.mp hread).2
    exact absurd hlt (Std.not_lt.mpr (of_decide_eq_true hle))
  · exact of_decide_eq_true (List.all_eq_true.mp List.all_takeWhile e he)

theorem locate_congr {t : State V} (h : s.window = t.window) (a : Instant) :
    s.locate a = t.locate a := by
  unfold locate
  rw [h]

theorem anchor_append (u : State V) (a : Instant) (newer : List (Entry V)) (required : Nat) :
    (u.append a newer required).window.anchor = some a := by
  unfold append
  dsimp only
  cases (u.growToFit required).maximum <;> rfl

end State

/-!
## Windows cut to a run
-/

/--
A full run about an instant cuts the window to itself, so that it ends before the instant: the
run begins within the window and goes on behind it, the maximum has just room for the run, and
no entry lies at the instant.
-/
structure Cut (series : Series V) (s : State V) (a : Instant) (count : Nat) : Prop where
  inside : s.locate a = .inside
  short : (s.reading a .inside).length < count
  tight : grown s.maximum count = some count
  between : forall e, e ∈ series -> e.key ≠ a

theorem State.prepend_of_later {u : State V} {older later run : List (Entry V)}
    (hentries : u.window.entries ++ older = later ++ run) (hlater : later ≠ [])
    (hlimit : run.length ≤ Count.limit) :
    exists kept, kept <:+ later ∧ (u.prepend older run.length).window.entries = kept ++ run ∧
      (kept = [] ↔ grown u.maximum run.length = some run.length) ∧
      (kept = [] -> (u.prepend older run.length).window = ⟨run, run.head?.map Entry.key⟩) := by
  have hpos : 0 < later.length := List.length_pos_iff.mpr hlater
  have hextended : (u.window.extendOlder older).entries = later ++ run := hentries
  rw [u.window_prepend]
  cases hgrown : grown u.maximum run.length with
  | none =>
      exact ⟨later, List.suffix_refl _, hextended, by simp [hlater], fun hnil => absurd hnil hlater⟩
  | some size =>
      have hroom := room_of_grown hlimit hgrown
      have hsize : (u.window.extendOlder older).size = later.length + run.length := by
        unfold Window.size
        rw [hextended, List.length_append]
      have hle : (u.window.extendOlder older).excess size ≤ later.length := by
        unfold Window.excess
        omega
      have htrimmed : ((u.window.extendOlder older).trimNewest size).entries =
          later.drop ((u.window.extendOlder older).excess size) ++ run := by
        rw [Window.entries_trimNewest, hextended, List.drop_append_of_le_length hle]
      have hiff : later.drop ((u.window.extendOlder older).excess size) = [] ↔
          size = run.length := by
        rw [List.drop_eq_nil_iff]
        unfold Window.excess
        omega
      refine ⟨_, List.drop_suffix _ _, htrimmed, by simp [hiff], fun hnil => ?_⟩
      have hbeyond : size < (u.window.extendOlder older).size := by
        have heq := hiff.mp hnil
        omega
      have hanchor := Window.anchor_trimNewest _ _ hbeyond
      rw [hnil, List.nil_append] at htrimmed
      unfold Window.newest? at hanchor
      rw [htrimmed] at hanchor
      show (u.window.extendOlder older).trimNewest size = ⟨run, run.head?.map Entry.key⟩
      rw [← hanchor, ← htrimmed]

theorem between_iff {run : List (Entry V)} (hrun : run <+: series.downFrom a)
    (hnewest : run.head? = some newest) :
    (forall e, e ∈ series -> e.key ≠ a) ↔ newest.key < a := by
  have hin := Series.mem_of_prefix hrun (List.mem_of_head? hnewest)
  constructor
  · intro hbetween
    exact Std.lt_of_le_of_ne hin.2 (hbetween newest hin.1)
  · intro hlt e he heq
    have hhead : (series.downFrom a).head? = some newest := by
      rcases hrun with ⟨tail, htail⟩
      rw [← htail, List.head?_append, hnewest]
      rfl
    have hmem : e ∈ series.downFrom a := Series.mem_downFrom.mpr ⟨he, Std.le_of_eq heq⟩
    have hle := ((series.descending_downFrom a).head?_eq_some_iff.mp hhead).2 e hmem
    exact absurd (heq ▸ hle) (Std.not_le.mpr hlt)

/-- A run that is put together within the window and behind it may cut the window to itself. -/
theorem State.Proper.prepend_cut_or_not_after (hs : s.Proper) (hinside : s.locate a = .inside)
    {u : State V} (state : u.uncounted = s.uncounted) {older run : List (Entry V)}
    (hjoined : s.reading a .inside ++ older = run)
    (hshort : (s.reading a .inside).length < run.length) (hrun : run <+: series.downFrom a)
    (hlimit : run.length ≤ Count.limit) (hleft : (u.prepend older run.length).Proper) :
    (Cut series s a run.length ∧
        (u.prepend older run.length).window = ⟨run, run.head?.map Entry.key⟩) ∨
      (¬ Cut series s a run.length ∧
        forall key, (u.prepend older run.length).locate a ≠ .after key) := by
  rcases hs.exists_later hinside with ⟨later, hlater, hafter, hparts⟩
  have hentries : u.window.entries ++ older = later ++ run := by
    rw [State.window_eq state, hparts, List.append_assoc, hjoined]
  rcases State.prepend_of_later hentries hlater hlimit with ⟨kept, hkept, hwindow, htight, hcut⟩
  rw [State.maximum_eq state] at htight
  by_cases hnil : kept = []
  · rw [hnil, List.nil_append] at hwindow
    by_cases hbetween : forall e, e ∈ series -> e.key ≠ a
    · exact Or.inl ⟨⟨hinside, hshort, htight.mp hnil, hbetween⟩, hcut hnil⟩
    · refine Or.inr ⟨fun hcut => hbetween hcut.between, fun key hlocated => ?_⟩
      rcases hleft.newest_lt_of_after hlocated with ⟨newest, hnewest, hlt, -⟩
      unfold Window.newest? at hnewest
      rw [hwindow] at hnewest
      exact hbetween ((between_iff hrun hnewest).mpr hlt)
  · refine Or.inr ⟨fun hcut => hnil (htight.mpr hcut.tight), fun key hlocated => ?_⟩
    rcases hleft.newest_lt_of_after hlocated with ⟨newest, hnewest, hlt, -⟩
    unfold Window.newest? at hnewest
    rw [hwindow] at hnewest
    rcases List.exists_cons_of_ne_nil hnil with ⟨first, rest, rfl⟩
    cases hnewest
    have hlater := hafter newest (hkept.subset (List.mem_cons_self ..))
    exact absurd hlt (Std.not_lt.mpr (Std.le_of_lt hlater))

theorem Turned.cut_or_not_after (h : Turned s a count (s.locate a) spent out) (hs : s.Proper)
    (hout : out.2.Proper) (hrun : out.1 = (series.downFrom a).take count)
    (hlength : out.1.length = count) (htwo : 2 ≤ count) (hlimit : count ≤ Count.limit) :
    (Cut series s a count ∧ out.2.window = ⟨out.1, out.1.head?.map Entry.key⟩) ∨
      (¬ Cut series s a count ∧ forall key, out.2.locate a ≠ .after key) := by
  have hanchored : out.2.window.anchor = some a -> forall key, out.2.locate a ≠ .after key := by
    intro hanchor key hafter
    rcases hout.newest_lt_of_after hafter with ⟨newest, -, -, hother⟩
    exact hother hanchor
  generalize hlocate : s.locate a = place at h
  cases h with
  | @held _ t _ within state spent_eq =>
      refine Or.inr ⟨fun hcut => ?_, fun key hafter => ?_⟩
      · have hshort := hcut.short
        change ((s.reading a place).take count).length = count at hlength
        rw [hlocate.symm.trans hcut.inside, List.length_take] at hlength
        omega
      · have hsame := State.locate_congr (State.window_eq state) a
        have hplace : place = .after key := hlocate.symm.trans (hsame.symm.trans hafter)
        rcases within with rfl | rfl <;> cases hplace
  | @reshaped _ u run _ state length_le spent_le elsewhere =>
      refine Or.inr ⟨fun hcut => elsewhere (hlocate.symm.trans hcut.inside), hanchored ?_⟩
      show (u.reshape a run).window.anchor = some a
      rw [State.window_reshape (hlength.symm ▸ htwo)]
  | @appended newest u newer state =>
      refine Or.inr ⟨fun hcut => ?_, hanchored (u.anchor_append a newer count)⟩
      cases hlocate.symm.trans hcut.inside
  | @prepended u older _ state found short =>
      have hfront : s.reading a .inside ++ older <+: series.downFrom a := by
        rw [show s.reading a .inside ++ older = _ from hrun]
        exact List.take_prefix _ _
      subst hlength
      exact hs.prepend_cut_or_not_after hlocate state rfl short hfront hlimit hout

theorem Turned.rejoined (h : Turned s a count (.after newest.key) spent out)
    (hdesc : Descending s.window.entries) (hnewest : s.window.newest? = some newest)
    (hlength : s.window.entries.length = count) (hlimit : count ≤ Count.limit)
    (hrun : out.1 = s.window.entries) :
    spent = 1 ∧ out.2.window = { s.window with anchor := some a } := by
  rcases h.misses_or_meets (Nat.le_of_eq hlength.symm) with
    hmissing | ⟨u, newer, state, hshort, rfl, rfl⟩
  · rw [hrun] at hmissing
    exact absurd rfl (hmissing newest (List.mem_of_head? hnewest))
  · change newer ++ s.window.entries.take (count - newer.length) = _ at hrun
    have hnone : newer = [] := by
      cases newer with
      | nil => rfl
      | cons e rest =>
          have hsame : some e = some newest := by
            rw [← hnewest]
            unfold Window.newest?
            rw [← hrun]
            rfl
          have hmet : newest ∈ s.window.entries.take (count - (e :: rest).length) := by
            apply List.mem_of_head?
            rw [List.head?_take, if_neg (by omega)]
            exact hnewest
          cases hsame
          rw [← hrun] at hdesc
          have hbefore := (List.pairwise_append.mp hdesc).2.2
          exact absurd (hbefore newest (List.mem_cons_self ..) newest hmet) Std.lt_irrefl
    subst hnone
    have hentries : (u.append a [] count).window.entries = s.window.entries := by
      rw [u.entries_append, State.window_eq state, List.nil_append]
      cases hgrown : grown u.maximum count with
      | none => rfl
      | some size => exact List.take_of_length_le (hlength ▸ room_of_grown hlimit hgrown)
    refine ⟨rfl, ?_⟩
    show (u.append a [] count).window = ⟨s.window.entries, some a⟩
    rw [← hentries, ← u.anchor_append a [] count]

/-- A full run that is taken again is read off the window, or rejoins one that was cut to it. -/
theorem Turned.again {t : State V} {spent' : Nat} {next : Outcome V}
    (h : Turned s a count (s.locate a) spent out) (hs : s.Proper) (hout : out.2.Proper)
    (hrun : out.1 = (series.downFrom a).take count) (hfull : count ≤ (series.downFrom a).length)
    (htwo : 2 ≤ count) (hlimit : count ≤ Count.limit) (ht : t.Proper)
    (hwindow : t.window = out.2.window) (h' : Turned t a count (t.locate a) spent' next)
    (hsame : next.1 = out.1) :
    (Cut series s a count ∧ spent' = 1 ∧ out.2.window.anchor ≠ some a ∧
        next.2.window = { out.2.window with anchor := some a }) ∨
      (¬ Cut series s a count ∧ spent' = 0 ∧ next.2.window = out.2.window) := by
  have hlength : out.1.length = count := by
    rw [hrun, List.length_take_of_le hfull]
  rcases h.cut_or_not_after hs hout hrun hlength htwo hlimit with ⟨hcut, hleft⟩ | ⟨hcut, hnot⟩
  · have hfound : exists newest, out.1.head? = some newest :=
      ⟨_, List.head?_eq_some_head (List.ne_nil_of_length_pos (by omega))⟩
    rcases hfound with ⟨newest, hnewest⟩
    have hlt := (between_iff (hrun ▸ List.take_prefix _ _) hnewest).mp hcut.between
    rw [hnewest] at hleft
    have hanchor : out.2.window.anchor ≠ some a := by
      rw [hleft]
      exact fun hsome => Std.ne_of_lt hlt (Option.some.inj hsome)
    have hentries : t.window.entries = out.1 := by
      rw [hwindow, hleft]
    have hfirst : t.window.newest? = some newest := by
      unfold Window.newest?
      rw [hentries]
      exact hnewest
    rw [(ht.locate_eq_after_iff hfirst).mpr ⟨hlt, hwindow ▸ hanchor⟩] at h'
    have hrejoined := h'.rejoined ht.window.1 hfirst (hentries ▸ hlength) hlimit
      (hsame.trans hentries.symm)
    rw [hwindow] at hrejoined
    exact Or.inl ⟨hcut, hrejoined.1, hanchor, hrejoined.2⟩
  · have hrecalls := h.recalls hs hrun hfull htwo hlimit
    have hcase := h'.free_or_after ht (hwindow ▸ hrecalls) (Std.le_refl a) htwo (Nat.le_refl count)
    rcases hcase with ⟨hnone, hsame⟩ | ⟨key, hafter⟩
    · exact Or.inr ⟨hcut, hnone, hsame.trans hwindow⟩
    · rw [State.locate_congr hwindow] at hafter
      exact absurd hafter (hnot key)

theorem Cut.of_entered {epoch : Nat} :
    Cut series (s.entered epoch a) a count ↔ Cut series (s.observeEpoch epoch) a count := by
  unfold State.entered
  split
  · constructor
    · exact fun h => ⟨h.inside, h.short, h.tight, h.between⟩
    · exact fun h => ⟨h.inside, h.short, h.tight, h.between⟩
  · exact Iff.rfl

end Windowed

/-!
## Sessions with a meter
-/

namespace Engine
namespace Session

variable {m : Type -> Type} [Monad m] {W : Type} [Performs m W] {o : Outlook W V}
  {view : View m V} {live : W -> view.archive.Scan -> Prop} {x : Session (Nat × W) V}
  {options : Options} {key : Instant} {q : Question} {count : Nat}

def reply (view : View m V) (x : Session W V) (options : Options) (key : Instant) (q : Question) :
    Except QueryError (q.Reply V) :=
  (perform (q.put view options key).run x.here).1

def Full (o : Outlook W V) (x : Session (Nat × W) V) (options : Options) (key : Instant)
    (q : Question) (count : Nat) : Prop :=
  q.reach = some count ∧ count ≤ ((o.series x.world.2).upTo (o.about x.world.2 options key)).length

/-- A question is answered as it was before, without a lookup, and leaves the window as it is. -/
structure Free (view : View m V) (o : Outlook W V) (options : Options) (key : Instant)
    (q : Question) (x y : Session (Nat × W) V) : Prop where
  reply : exists answer, x.reply view.metered options key q = .ok answer ∧
    y.reply view.metered options key q = .ok answer
  lookups : q.lookups view options key y.engine y.world = 0
  window : (y.step view.metered o.metered (.ask options key q)).engine.window? = y.engine.window?

/-- A question is answered as it was before, by a lookup, and the window is anchored anew. -/
structure Rejoined (view : View m V) (o : Outlook W V) (options : Options) (key : Instant)
    (q : Question) (x y : Session (Nat × W) V) : Prop where
  reply : exists answer, x.reply view.metered options key q = .ok answer ∧
    y.reply view.metered options key q = .ok answer
  lookups : q.lookups view options key y.engine y.world = 1
  window : exists window, y.engine.window? = some window ∧
    window.anchor ≠ some (o.about y.world.2 options key) ∧
    (y.step view.metered o.metered (.ask options key q)).engine.window? =
      some { window with anchor := some (o.about y.world.2 options key) }

/-- A question that asks for a full run is free if it is put again at once. -/
def Repeats (view : View m V) (o : Outlook W V) (x : Session (Nat × W) V) :
    Command (Nat × W) -> Prop
  | .ask options key q => forall count, x.Full o options key q count ->
      Free view o options key q x (x.step view.metered o.metered (.ask options key q))
  | _ => True

/-- A question that asks for a full run takes a lookup if it is put again at once. -/
def Rejoins (view : View m V) (o : Outlook W V) (x : Session (Nat × W) V) :
    Command (Nat × W) -> Prop
  | .ask options key q =>
      Rejoined view o options key q x (x.step view.metered o.metered (.ask options key q))
  | _ => False

def Cuts (o : Outlook W V) (x : Session (Nat × W) V) : Command (Nat × W) -> Prop
  | .ask options key q => exists count s, x.Full o options key q count ∧ x.engine = .windowed s ∧
      Windowed.Cut (o.series x.world.2) (s.observeEpoch (o.epoch x.world.2))
        (o.about x.world.2 options key) count
  | _ => False

theorem cuts_iff (hfull : x.Full o options key q count) {s : Windowed.State V}
    (hs : x.engine = .windowed s) (hseries : o.series x.world.2 = series) :
    x.Cuts o (.ask options key q) ↔
      Windowed.Cut series (s.entered (o.epoch x.world.2) (o.about x.world.2 options key))
        (o.about x.world.2 options key) count := by
  rw [Windowed.Cut.of_entered, ← hseries]
  constructor
  · intro hcuts
    rcases hcuts with ⟨size, t, hsize, ht, hcut⟩
    cases hfull.1.symm.trans hsize.1
    cases hs.symm.trans ht
    exact hcut
  · exact fun hcut => ⟨count, s, hfull, hs, hcut⟩

theorem repeated_ask (h : view.Reads o live) (hstill : o.Still series) (hx : x.Linked o.metered)
    (hkind : x.engine.kind = .windowed) (hcounted : q.Counted)
    (hfull : x.Full o options key q count) :
    let c := Command.ask options key q
    let y := x.step view.metered o.metered c
    (x.Cuts o c ∧ Rejoined view o options key q x y) ∨
      (¬ x.Cuts o c ∧ Free view o options key q x y) := by
  intro c y
  have hseries := hstill.series x.world.2 hx.ready
  have hreach := hfull.1
  have hlong := hfull.2
  rw [hseries, Series.upTo_eq_reverse, List.length_reverse] at hlong
  cases hs : x.engine with
  | direct n =>
      rw [hs] at hkind
      cases hkind
  | windowed s =>
      rw [cuts_iff hfull hs hseries]
      rcases hx.ask_still h hstill hs options key hreach with
        ⟨hu, -, out, spent, p, hput, hp, -, hrun, hturned⟩
      generalize ha : o.about x.world.2 options key = a at *
      have hy : y.Linked o.metered := hx.ask h.metered options key q
      have hengine : y.engine = .windowed out.2 := congrArg (fun r => r.2.1) hput
      have hworld : y.world = p := congrArg (fun r => r.2.2) hput
      have habout : o.about y.world.2 options key = a :=
        hworld ▸ (hp.about_eq options key).trans ha
      have hepoch : o.epoch y.world.2 = o.epoch x.world.2 := hworld ▸ hp.epoch
      rcases hy.ask_still h hstill hengine options key hreach with
        ⟨ht, -, next, spent', p', hput', -, hspent', hrun', hturned'⟩
      rw [habout, hepoch] at ht hturned'
      rw [habout] at hrun'
      have hsame : next.1 = out.1 := hrun'.trans hrun.symm
      have hwindow : (out.2.entered (o.epoch x.world.2) a).window = out.2.window := by
        rw [out.2.window_entered, if_pos]
        rw [hturned.epoch_eq, s.epoch_entered]
      have hreply : exists answer, x.reply view.metered options key q = .ok answer ∧
          y.reply view.metered options key q = .ok answer :=
        ⟨q.read out.1, congrArg Prod.fst hput, hsame ▸ congrArg Prod.fst hput'⟩
      have hbefore : y.engine.window? = some out.2.window := by
        rw [hengine]
        rfl
      have hafter : (y.step view.metered o.metered c).engine.window? = some next.2.window :=
        congrArg (fun r => State.window? r.2.1) hput'
      have hagain := hturned.again hu (hy.proper out.2 hengine) hrun hlong
        (Question.two_le_of_reach hreach) (Question.reach_le_limit hreach hcounted) ht hwindow
        hturned' hsame
      rcases hagain with ⟨hcut, hone, hanchor, hleft⟩ | ⟨hcut, hnone, hleft⟩
      · refine Or.inl ⟨hcut, hreply, hspent'.trans hone, out.2.window, hbefore, ?_, ?_⟩
        · rwa [habout]
        · rw [hafter, hleft, habout]
      · exact Or.inr ⟨hcut, hreply, hspent'.trans hnone, by rw [hafter, hleft, hbefore]⟩

/-- A question that asks for a full run is free just if it does not cut the window to the run. -/
theorem repeats_or_cuts (h : view.Reads o live) (hstill : o.Still series) (hx : x.Linked o.metered)
    (hkind : x.engine.kind = .windowed) {c : Command (Nat × W)} (hcounted : c.Counted) :
    (x.Repeats view o c ↔ ¬ x.Cuts o c) ∧ (x.Cuts o c -> x.Rejoins view o c) := by
  cases c with
  | ask options key q =>
      by_cases hlong : exists count, x.Full o options key q count
      · rcases hlong with ⟨count, hfull⟩
        rcases repeated_ask h hstill hx hkind hcounted hfull with ⟨hcuts, hrejoined⟩ | ⟨hnot, hfree⟩
        · refine ⟨iff_of_false (fun hrepeats => ?_) (not_not_intro hcuts), fun _ => hrejoined⟩
          have hnone := (hrepeats count hfull).lookups
          rw [hrejoined.lookups] at hnone
          cases hnone
        · exact ⟨iff_of_true (fun _ _ => hfree) hnot, fun hcuts => absurd hcuts hnot⟩
      · have hnot : ¬ x.Cuts o (.ask options key q) := by
          intro hcuts
          rcases hcuts with ⟨count, s, hfull, -⟩
          exact hlong ⟨count, hfull⟩
        exact ⟨iff_of_true (fun count hfull => absurd ⟨count, hfull⟩ hlong) hnot,
          fun hcuts => absurd hcuts hnot⟩
  | clear => exact ⟨iff_of_true trivial id, False.elim⟩
  | raiseMaximum size => exact ⟨iff_of_true trivial id, False.elim⟩
  | move p => exact ⟨iff_of_true trivial id, False.elim⟩

theorem Linked.kind_step {o : Outlook W V} {x : Session W V} (h : view.Reads o live)
    (hx : x.Linked o) (c : Command W) : (x.step view o c).engine.kind = x.engine.kind := by
  cases c with
  | ask options key q =>
      have hkept : Kept Window.Of o x.here := fun s hs _ => hx.attached s hs
      exact (Question.after_put h hx.ready hkept options key q).1.kind
  | clear =>
      show x.engine.clear.kind = x.engine.kind
      cases x.engine <;> rfl
  | raiseMaximum size =>
      show (x.engine.raiseMaximum size).kind = x.engine.kind
      cases x.engine <;> rfl
  | move w => rfl

/--
Over a series that stays as it is, in every session, a question that asks for a full run is free
if it is put again at once: it is answered without a lookup, and the window stays as it is.  This
fails just if the run has cut the window to itself, and then it takes one lookup.
-/
theorem repeats_iff_not_cut (h : view.Reads o live) (hstill : o.Still series)
    (maximum : Option Positive) {p : Nat × W} {commands : List (Command (Nat × W))}
    (hready : o.ready p.2)
    (hallowed : Each (step view.metered o.metered) (fun x c => c.Counted ∧ x.Goes o.metered c)
      (start view.metered .windowed maximum p) commands) :
    Each (step view.metered o.metered)
      (fun x c => (x.Repeats view o c ↔ ¬ x.Cuts o c) ∧ (x.Cuts o c -> x.Rejoins view o c))
      (start view.metered .windowed maximum p) commands := by
  have hstep : forall (x : Session (Nat × W) V) (c : Command (Nat × W)),
      x.Linked o.metered ∧ x.engine.kind = .windowed -> c.Counted ∧ x.Goes o.metered c ->
      ((x.Repeats view o c ↔ ¬ x.Cuts o c) ∧ (x.Cuts o c -> x.Rejoins view o c)) ∧
        (x.step view.metered o.metered c).Linked o.metered ∧
        (x.step view.metered o.metered c).engine.kind = .windowed := by
    intro x c hx hc
    refine ⟨repeats_or_cuts h hstill hx.1 hx.2 hc.1, ?_, ?_⟩
    · exact linked_step h.metered hstill.metered.series hx.1 hc.2
    · exact (hx.1.kind_step h.metered c).trans hx.2
  have hstart := linked_start h.metered .windowed maximum (show o.metered.ready p from hready)
  exact each_of_kept hstep ⟨hstart, kind_start view.metered .windowed maximum⟩ hallowed

def cutting : List (Command (Nat × Ledger Int)) :=
  [.ask {} (.ofNanos 40) (.previousEntries 3),
    .ask {} (.ofNanos 35) (.previousEntries 3),
    .ask {} (.ofNanos 45) (.previousEntry 1),
    .clear,
    .ask {} (.ofNanos 40) (.previousEntries 3),
    .ask {} (.ofNanos 30) (.previousEntry 2),
    .raiseMaximum 4,
    .move (7, { Ledger.holding [10, 20, 30, 40] with bound := some (.ofNanos 25), epoch := 1 }),
    .ask {} (.ofNanos 90) (.previousEntries 2),
    .ask {} (.ofNanos 90) (.previousEntries 5)]

theorem allowed_cutting :
    let ledger := Ledger.holding [10, 20, 30, 40]
    let o := Ledger.outlook (Ledger.Holds ledger.series)
    let x := start Ledger.view.metered .windowed (some ⟨3, by decide⟩) (0, ledger)
    Each (step Ledger.view.metered o.metered) (fun x c => c.Counted ∧ x.Goes o.metered c) x
      cutting := by
  intro ledger o x
  have hopen : ledger.Open := by decide
  have hmoved : Ledger.Holds ledger.series
      { ledger with bound := some (.ofNanos 25), epoch := 1 } := ⟨rfl, hopen, rfl, rfl⟩
  exact ⟨⟨by decide, trivial⟩, ⟨by decide, trivial⟩, ⟨by decide, trivial⟩, ⟨trivial, trivial⟩,
    ⟨by decide, trivial⟩, ⟨by decide, trivial⟩, ⟨trivial, trivial⟩, ⟨trivial, hmoved⟩,
    ⟨by decide, trivial⟩, ⟨by decide, trivial⟩, trivial⟩

theorem repeats_iff_not_cut_on_ledger :
    let ledger := Ledger.holding [10, 20, 30, 40]
    let o := Ledger.outlook (Ledger.Holds ledger.series)
    let x := start Ledger.view.metered .windowed (some ⟨3, by decide⟩) (0, ledger)
    Each (step Ledger.view.metered o.metered)
      (fun x c => (x.Repeats Ledger.view o c ↔ ¬ x.Cuts o c) ∧
        (x.Cuts o c -> x.Rejoins Ledger.view o c)) x cutting := by
  intro ledger o x
  have hopen : ledger.Open := by decide
  exact repeats_iff_not_cut (Ledger.reads_view (Ledger.closed_holds _)) (Ledger.still_holds _) _
    ⟨rfl, hopen, rfl, rfl⟩ allowed_cutting

/-- A full run between two entries is asked for twice: the second time takes a lookup. -/
theorem not_free_between_entries :
    let ledger := Ledger.holding [10, 20, 30, 40]
    let o := Ledger.outlook (Ledger.Holds ledger.series)
    let x := start Ledger.view.metered .windowed (some ⟨3, by decide⟩) (0, ledger)
    Each (step Ledger.view.metered o.metered) (fun x c => c.Counted ∧ x.Goes o.metered c) x
        cutting ∧
      ¬ Each (step Ledger.view.metered o.metered) (Repeats Ledger.view o) x cutting := by
  intro ledger o x
  refine ⟨allowed_cutting, fun hall => ?_⟩
  have hfull : Full o (x.step Ledger.view.metered o.metered
      (.ask {} (.ofNanos 40) (.previousEntries 3))) {} (.ofNanos 35) (.previousEntries 3) 3 :=
    ⟨rfl, by decide +kernel⟩
  have hfree := (hall.2.1 3 hfull).lookups
  exact absurd hfree (by decide +kernel)

end Session
end Engine
end AsOf
