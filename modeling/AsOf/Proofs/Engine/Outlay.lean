import AsOf.Proofs.Engine.Chain
import AsOf.Proofs.Engine.Retention

/-!
# What a window costs

Over a series that stays as it is, a run from a window takes no more lookups than the direct
walk: one for each entry, and one to find that there are no more.  From the run that was asked
for last on, it takes no more than one for each entry that is new and one to meet the window,
for the window still has that run.
-/

namespace AsOf

variable {V : Type} {series : Series V} {a b : Instant} {e : Entry V} {l : List (Entry V)}

namespace Series

def newerThan (s : Series V) (b a : Instant) : List (Entry V) :=
  (s.downFrom a).filter fun e => b < e.key

theorem length_le_newerThan (h : l <+: series.downFrom a) (hnew : forall e, e ∈ l -> b < e.key) :
    l.length ≤ (series.newerThan b a).length := by
  have hall : l.filter (fun e => b < e.key) = l :=
    List.filter_eq_self.mpr fun e he => decide_eq_true (hnew e he)
  have hsub : List.Sublist (l.filter fun e => b < e.key) (series.newerThan b a) :=
    h.sublist.filter _
  rw [hall] at hsub
  exact hsub.length_le

end Series

theorem Window.Of.mem_of_newest {window : Window V} (h : window.Of series)
    (hnewest : window.newest? = some e) : e ∈ series := by
  rcases h.of_newest hnewest with ⟨anchor, -, -, hfront⟩
  exact (Series.mem_of_prefix hfront (List.mem_of_head? hnewest)).1

namespace Windowed

variable {s : State V} {count size spent : Nat} {place : Place} {out : Outcome V}

namespace State

theorem locate_of_ends {oldest newest : Entry V} {anchor : Instant}
    (holdest : s.window.oldest? = some oldest) (hnewest : s.window.newest? = some newest)
    (hanchor : s.window.anchor = some anchor) :
    s.locate a =
      if a = anchor ∨ a = newest.key then .same
      else if anchor < a ∨ newest.key < a then .after newest.key
      else if oldest.key ≤ a ∧ a ≤ newest.key then .inside
      else .outside := by
  unfold locate
  rw [holdest, hnewest, hanchor]

theorem Proper.locate_ne_outside (hs : s.Proper) (he : e ∈ s.window.entries)
    (hle : e.key ≤ a) : s.locate a ≠ .outside := by
  have hne := List.ne_nil_of_mem he
  rcases exists_oldest hne with ⟨oldest, holdest, -⟩
  rcases hs.window.exists_anchor hne with ⟨anchor, hanchor, -⟩
  have hwithin : oldest.key ≤ a := Std.le_trans (hs.window.1.getLast_le holdest he) hle
  rw [locate_of_ends holdest (List.head?_eq_some_head hne) hanchor]
  split
  · simp
  · split
    · simp
    · rename_i hbefore
      have hge := Std.not_lt.mp fun hlt => hbefore (Or.inr hlt)
      rw [if_pos ⟨hwithin, hge⟩]
      simp

end State

/-!
## Courses after a full run
-/

/-- A window in order that still has a full run of the series about an earlier instant. -/
structure Recalls (series : Series V) (b : Instant) (size : Nat) (window : Window V) : Prop where
  full : size ≤ (series.downFrom b).length
  kept : (series.downFrom b).take size <:+: window.entries

section Recalls

variable (h : Recalls series b size s.window)

include h

theorem Recalls.size_le : size ≤ s.window.entries.length := by
  have hle := h.kept.length_le
  rwa [List.length_take_of_le h.full] at hle

theorem Recalls.size_le_reading (hle : b ≤ a) : size ≤ (s.reading a .inside).length := by
  have hall : ((series.downFrom b).take size).filter (fun e => e.key ≤ a) =
      (series.downFrom b).take size := by
    apply List.filter_eq_self.mpr
    intro e he
    exact decide_eq_true
      (Std.le_trans (Series.mem_downFrom.mp (List.mem_of_mem_take he)).2 hle)
  have hsub : List.Sublist (((series.downFrom b).take size).filter fun e => e.key ≤ a)
      (s.reading a .inside) := h.kept.sublist.filter _
  rw [hall] at hsub
  have hlength := hsub.length_le
  rwa [List.length_take_of_le h.full] at hlength

theorem Recalls.locate_ne_outside (hs : s.Proper) (hpos : 0 < size) (hle : b ≤ a) :
    s.locate a ≠ .outside := by
  have hreading := h.size_le_reading (a := a) hle
  rcases List.exists_mem_of_length_pos (Nat.lt_of_lt_of_le hpos hreading) with ⟨e, he⟩
  rcases List.mem_filter.mp he with ⟨hin, hkey⟩
  exact hs.locate_ne_outside hin (of_decide_eq_true hkey)

theorem Recalls.lt_of_newest_lt (hs : s.Proper) (hpos : 0 < size) {newest : Entry V}
    (hnewest : s.window.newest? = some newest) (he : e ∈ series) (hlt : newest.key < e.key) :
    b < e.key := by
  apply Std.not_le.mp
  intro hle
  have hin : e ∈ series.downFrom b := Series.mem_downFrom.mpr ⟨he, hle⟩
  have hfound : exists first, (series.downFrom b).head? = some first :=
    ⟨_, List.head?_eq_some_head (List.ne_nil_of_mem hin)⟩
  rcases hfound with ⟨first, hhead⟩
  have hfirst := ((series.descending_downFrom b).head?_eq_some_iff.mp hhead).2 e hin
  have htaken : ((series.downFrom b).take size).head? = some first := by
    rw [List.head?_take, if_neg (Nat.ne_of_gt hpos)]
    exact hhead
  have hkept := h.kept.subset (List.mem_of_head? htaken)
  have hmax := (hs.window.1.head?_eq_some_iff.mp hnewest).2 _ hkept
  exact absurd (Std.lt_of_lt_of_le hlt (Std.le_trans hfirst hmax)) Std.lt_irrefl

end Recalls

theorem Recalls.newer_of_missing (h : Recalls series b size s.window) (hs : s.Proper)
    (hpos : 0 < size) {newest : Entry V} (hnewest : s.window.newest? = some newest)
    (hin : newest ∈ series.downFrom a)
    (hmissing : forall e, e ∈ (series.downFrom a).take count -> e.key ≠ newest.key)
    (he : e ∈ (series.downFrom a).take count) : b < e.key := by
  have hmem := (Series.mem_downFrom.mp (List.mem_of_mem_take he)).1
  apply h.lt_of_newest_lt hs hpos hnewest hmem
  have hdesc := series.descending_downFrom a
  rw [← List.take_append_drop count (series.downFrom a)] at hdesc hin
  rcases List.mem_append.mp hin with htaken | hdropped
  · exact absurd rfl (hmissing newest htaken)
  · exact (List.pairwise_append.mp hdesc).2.2 e he newest hdropped

/-- A full run is recalled by the window that it leaves. -/
theorem Turned.recalls (h : Turned s a count place spent out) (hs : s.Proper)
    (hrun : out.1 = (series.downFrom a).take count) (hfull : count ≤ (series.downFrom a).length)
    (htwo : 2 ≤ count) (hlimit : count ≤ Count.limit) :
    Recalls series a count out.2.window := by
  have hlength : out.1.length = count := by
    rw [hrun, List.length_take_of_le hfull]
  have hstretch := h.infix_window hs hlimit (hlength.symm ▸ htwo)
  exact ⟨hfull, hrun ▸ hstretch⟩

theorem Turned.free_or_after (h : Turned s a count (s.locate a) spent out) (hs : s.Proper)
    (hrecalls : Recalls series b size s.window) (hle : b ≤ a) (htwo : 2 ≤ count)
    (hcount : count ≤ size) :
    (spent = 0 ∧ out.2.window = s.window) ∨ exists newest, s.locate a = .after newest := by
  have hwindow := hrecalls.size_le
  have hreading := hrecalls.size_le_reading (a := a) hle
  generalize hlocate : s.locate a = place at h
  cases h with
  | @held _ t _ within state spent_eq =>
      have hlength : ((s.reading a place).take count).length = count := by
        apply List.length_take_of_le
        rcases within with rfl | rfl
        · exact Nat.le_trans hcount hwindow
        · exact Nat.le_trans hcount hreading
      exact Or.inl ⟨by omega, State.window_eq state⟩
  | reshaped state length_le spent_le elsewhere apart =>
      rcases apart with rfl | hsmall | ⟨newest, rfl, -⟩
      · exact absurd hlocate (hrecalls.locate_ne_outside hs (by omega) hle)
      · unfold Window.size at hsmall
        omega
      · exact Or.inr ⟨newest, rfl⟩
  | appended state => exact Or.inr ⟨_, rfl⟩
  | prepended state found short => omega

/-- From after a window that is long enough, a run misses the window or is walked back to it. -/
theorem Turned.misses_or_meets {newest : Instant} (h : Turned s a count (.after newest) spent out)
    (hsize : count ≤ s.window.entries.length) :
    (forall e, e ∈ out.1 -> e.key ≠ newest) ∨
      exists (u : State V) (newer : List (Entry V)), u.uncounted = s.uncounted ∧
        newer.length < count ∧ spent = newer.length + 1 ∧
        out = (newer ++ s.window.entries.take (count - newer.length), u.append a newer count) := by
  generalize hafter : Place.after newest = place at h
  cases h with
  | held within => rcases within with rfl | rfl <;> cases hafter
  | reshaped state length_le spent_le elsewhere apart =>
      rcases apart with rfl | hsmall | ⟨key, rfl, hmissing⟩
      · cases hafter
      · unfold Window.size at hsmall
        omega
      · cases hafter
        exact Or.inl hmissing
  | @appended key u newer state short => exact Or.inr ⟨u, newer, state, short, rfl, rfl⟩
  | prepended state => cases hafter

/-- Run on from what the window recalls: a lookup for each entry that is new, and one more. -/
theorem Turned.spent_le_newer (h : Turned s a count (s.locate a) spent out) (hs : s.Proper)
    (hof : s.window.Of series) (hrun : out.1 = (series.downFrom a).take count)
    (hrecalls : Recalls series b size s.window) (hle : b ≤ a) (htwo : 2 ≤ count)
    (hcount : count ≤ size) : spent ≤ min count ((series.newerThan b a).length + 1) := by
  have hpos : 0 < size := by omega
  have hplace := hs.aligned a
  rcases h.free_or_after hs hrecalls hle htwo hcount with ⟨rfl, -⟩ | ⟨key, hafter⟩
  · exact Nat.zero_le _
  · rw [hafter] at h hplace
    rcases hplace with ⟨newest, hnewest, rfl, hnot⟩
    have hsize := Nat.le_trans hcount hrecalls.size_le
    have hspent := h.spent_le
    rcases h.misses_or_meets hsize with hmissing | ⟨u, newer, -, hshort, rfl, rfl⟩
    · rw [hrun] at hmissing hspent
      have hin := Series.mem_downFrom.mpr ⟨hof.mem_of_newest hnewest, hnot⟩
      have hnew : ((series.downFrom a).take count).length ≤ (series.newerThan b a).length :=
        Series.length_le_newerThan (List.take_prefix _ _) fun e he =>
          hrecalls.newer_of_missing hs hpos hnewest hin hmissing he
      omega
    · change newer ++ s.window.entries.take (count - newer.length) = _ at hrun
      have hnewer : newer <+: series.downFrom a :=
        (List.prefix_append _ _).trans (hrun ▸ List.take_prefix _ _)
      have hdesc : Descending (newer ++ s.window.entries.take (count - newer.length)) := by
        rw [hrun]
        exact (series.descending_downFrom a).sublist (List.take_sublist _ _)
      have hhead : newest ∈ s.window.entries.take (count - newer.length) := by
        apply List.mem_of_head?
        rw [List.head?_take, if_neg (by omega)]
        exact hnewest
      have hnew : newer.length ≤ (series.newerThan b a).length := by
        apply Series.length_le_newerThan hnewer
        intro e he
        have hlt := (List.pairwise_append.mp hdesc).2.2 e he newest hhead
        exact hrecalls.lt_of_newest_lt hs hpos hnewest (Series.mem_of_prefix hnewer he).1 hlt
      omega

/-!
## Runs over a series that stays as it is
-/

section Still

variable {m : Type -> Type} [Monad m] {W : Type} [Performs m W] {o : Outlook W V} {w : W}
  {view : View m V} {live : W -> view.archive.Scan -> Prop}

theorem about_eq (h : view.Reads o live) (hready : o.ready w) (options : Options)
    (key : Instant) : view.about options key w = o.about w options key :=
  (Eq.symm (view.adjust_about options key w)).trans (View.after_adjust h hready options key).1

theorem seen_eq (h : view.Reads o live) (hready : o.ready w) (options : Options) (key : Instant) :
    (seen view options key w).1 = o.epoch w := by
  have hadjust := (View.after_adjust h hready options key).2
  have hepoch := (h.epoch _ (hadjust.ready hready)).1
  exact hepoch.trans hadjust.epoch

theorem tally_seen {tally : W -> Nat} (htally : view.Tallies tally) (options : Options)
    (key : Instant) : tally (seen view options key w).2 = tally w :=
  (htally.epoch _).trans (htally.adjust options key)

theorem State.of_entered (hof : s.window.Of series) (epoch : Nat) (a : Instant) :
    (s.entered epoch a).window.Of series := by
  rw [s.window_entered]
  split
  · exact hof
  · exact Window.of_empty series

variable (h : view.Reads o live) (hstill : o.Still series) (hready : o.ready w)
  (hof : s.window.Of series)

include h hstill hready hof

theorem outcome_still (hs : s.Proper) {tally : W -> Nat} (htally : view.Tallies tally)
    (options : Options) (key : Instant) (count : Nat) :
    let a := o.about w options key
    let u := s.entered (o.epoch w) a
    exists out spent w', outcome view options key count s w = (.ok out, w') ∧
      o.Follows w w' ∧ tally w' = tally w + spent ∧ out.1 = (series.downFrom a).take count ∧
      Turned u a count (u.locate a) spent out := by
  intro a u
  have hseries := hstill.series w hready
  have hkept : Kept Window.Of o (s, w) := fun _ => hseries.symm ▸ hof
  have honset : s.onset view options key w = u := by
    unfold State.onset
    rw [seen_eq h hready, about_eq h hready]
  have hrun := after_run h hready Window.shaping_of hkept options key count
  have hturned := turned_runAt view (hs.observed (s.observed_entered (o.epoch w) a)) a count
    (w := (seen view options key w).2)
  have houtcome := perform_run_outcome view options key count s w
  unfold After at hrun hturned
  rw [houtcome] at hrun
  unfold outcome at hrun ⊢
  rw [honset, about_eq h hready] at hrun ⊢
  rcases hresult : perform (runAt view a count (u.locate a) u).run (seen view options key w).2 with
    ⟨r, w'⟩
  rw [hresult] at hrun hturned
  rcases hrun with ⟨hw', -, hr⟩
  have hok := hr.eq_ok (hstill.failures w' (hw'.ready hready))
  cases r with
  | error e => cases hok
  | ok out =>
      rcases hturned with ⟨spent, hout, hspent⟩
      refine ⟨out, spent, w', rfl, hw', ?_, ?_, hout⟩
      · rw [hspent tally htally.archive, tally_seen htally]
      · have hheld : Engine.Kept Window.Of o (Engine.State.windowed s, w) := by
          intro t ht
          cases ht
          exact hkept
        rw [Except.ok.inj hok, ← hseries, ← hheld.downFrom_base a]
        rfl

end Still

end Windowed

/-!
## Lookups of a question
-/

theorem Outlook.Still.metered {W : Type} {o : Outlook W V} (h : o.Still series) :
    o.metered.Still series where
  series p hready := h.series p.2 hready
  failures p hready := h.failures p.2 hready

namespace Engine

variable {m : Type -> Type} [Monad m] {W : Type} [Performs m W] {o : Outlook W V}
  {view : View m V} {live : W -> view.archive.Scan -> Prop}

namespace Question

variable {q : Question} {options : Options} {key : Instant} {count : Nat}

def lookups (view : View m V) (options : Options) (key : Instant) (q : Question)
    (engine : State V) (p : Nat × W) : Nat :=
  (perform (q.put view.metered options key).run (engine, p)).2.2.1 - p.1

/-- A direct engine walks the whole run, and looks once more if the series has no more entries. -/
theorem lookups_direct (h : view.Reads o live) (hstill : o.Still series) {p : Nat × W}
    (hready : o.ready p.2) (options : Options) (key : Instant) (hreach : q.reach = some count)
    (n : Nat) :
    q.lookups view options key (.direct n) p =
      min count ((series.upTo (o.about p.2 options key)).length + 1) := by
  have hmetered := View.tallies_metered view
  have habout : view.metered.about options key p = o.about p.2 options key :=
    Windowed.about_eq h.metered hready options key
  have hadjust := (View.after_adjust h.metered (w := p) hready options key).2
  have hmeter : (perform (view.metered.adjust options key) p).2.1 = p.1 :=
    hmetered.adjust options key
  unfold lookups
  rw [perform_put_direct view.metered hreach, habout]
  dsimp only
  generalize (perform (view.metered.adjust options key) p).2 = p₁ at hadjust hmeter ⊢
  have htrailing := View.after_trailing h.metered (hadjust.ready hready)
    (o.about p.2 options key) count
  have hspends := view.metered.spends_trailing (o.about p.2 options key) count (w := p₁)
  unfold After at htrailing hspends
  generalize perform (view.metered.trailing (o.about p.2 options key) count).run p₁ = result
    at htrailing hspends ⊢
  rcases result with ⟨r, p₂⟩
  rcases htrailing with ⟨hp₂, hr⟩
  have hdone := hp₂.ready (hadjust.ready hready)
  rw [hr.eq_ok (hstill.metered.failures p₂ hdone)] at hspends
  have hspent : p₂.1 = p₁.1 + _ := hspends Prod.fst hmetered.archive
  have hseries : o.metered.series p₁ = series := hadjust.series.trans (hstill.series p.2 hready)
  rw [hseries, List.length_take] at hspent
  rw [Series.upTo_eq_reverse, List.length_reverse]
  dsimp only
  omega

theorem put_still (h : view.Reads o live) (hstill : o.Still series) {s : Windowed.State V}
    (hs : s.Proper) (hof : s.window.Of series) {p : Nat × W} (hready : o.ready p.2)
    (options : Options) (key : Instant) (hreach : q.reach = some count) :
    let a := o.about p.2 options key
    let u := s.entered (o.epoch p.2) a
    exists out spent p', perform (q.put view.metered options key).run (.windowed s, p) =
        (.ok (q.read out.1), .windowed out.2, p') ∧
      o.metered.Follows p p' ∧ p'.1 = p.1 + spent ∧ out.1 = (series.downFrom a).take count ∧
      Windowed.Turned u a count (u.locate a) spent out := by
  intro a u
  rcases Windowed.outcome_still h.metered hstill.metered (w := p) hready hof hs
    (View.tallies_metered view) options key count with
    ⟨out, spent, p', hresult, hp', hmeter, hrun, hturned⟩
  refine ⟨out, spent, p', ?_, hp', hmeter, hrun, hturned⟩
  rw [perform_put_outcome view.metered hreach, hresult]
  rfl

end Question

/-!
## Sessions with a meter
-/

theorem Session.Linked.ask_still (h : view.Reads o live) (hstill : o.Still series)
    {x : Session (Nat × W) V} (hx : x.Linked o.metered) {s : Windowed.State V}
    (hs : x.engine = .windowed s) (options : Options) (key : Instant) {q : Question} {count : Nat}
    (hreach : q.reach = some count) :
    let a := o.about x.world.2 options key
    let u := s.entered (o.epoch x.world.2) a
    u.Proper ∧ u.window.Of series ∧
      exists out spent p', perform (q.put view.metered options key).run x.here =
          (.ok (q.read out.1), .windowed out.2, p') ∧
        o.metered.Follows x.world p' ∧
        q.lookups view options key x.engine x.world = spent ∧
        out.1 = (series.downFrom a).take count ∧
        Windowed.Turned u a count (u.locate a) spent out := by
  intro a u
  have hready : o.ready x.world.2 := hx.ready
  have hproper := hx.proper s hs
  have hof : s.window.Of series := by
    have hattached : s.window.Of (o.series x.world.2) := hx.attached s hs
    rwa [hstill.series x.world.2 hready] at hattached
  have hhere : x.here = (.windowed s, x.world) := Prod.ext hs rfl
  have hput := q.put_still h hstill hproper hof hready options key hreach
  rcases hput with ⟨out, spent, p', hput, hp', hmeter, hrun, hturned⟩
  refine ⟨hproper.observed (s.observed_entered _ _), Windowed.State.of_entered hof _ _,
    out, spent, p', ?_, hp', ?_, hrun, hturned⟩
  · rw [hhere, hput]
  · unfold Question.lookups
    rw [hs, hput, hmeter]
    exact Nat.add_sub_cancel_left _ _

/-- A session with a meter, and the last run that the window is bound to recall. -/
structure Journal (W V : Type) where
  session : Session (Nat × W) V
  /-- The instant and the length of the run, if it was full and nothing has dropped it. -/
  last : Option (Instant × Nat) := none

namespace Journal

def start (view : View m V) (maximum : Option Positive) (p : Nat × W) : Journal W V :=
  { session := Session.start view.metered .windowed maximum p }

def recalled (o : Outlook W V) (x : Journal W V) : Command (Nat × W) -> Option (Instant × Nat)
  | .ask options key q =>
      let a := o.about x.session.world.2 options key
      q.reach.elim x.last fun count =>
        if count ≤ ((o.series x.session.world.2).upTo a).length then some (a, count) else none
  | .clear => none
  | .raiseMaximum _ => x.last
  | .move p => if o.epoch p.2 = o.epoch x.session.world.2 then x.last else none

def step (view : View m V) (o : Outlook W V) (x : Journal W V) (c : Command (Nat × W)) :
    Journal W V :=
  { session := x.session.step view.metered o.metered c
    last := x.recalled o c }

def Allowed (o : Outlook W V) (x : Journal W V) (c : Command (Nat × W)) : Prop :=
  c.Counted ∧ x.session.Goes o.metered c

/--
A question that asks for a run takes no more lookups than a direct engine, which walks the run
and looks once more if there are too few entries.  If the last run was as long, was full and was
about an earlier instant, it takes no more than one for each entry since, and one.
-/
def Frugal (view : View m V) (o : Outlook W V) (x : Journal W V) : Command (Nat × W) -> Prop
  | .ask options key q => forall count, q.reach = some count ->
      let series := o.series x.session.world.2
      let a := o.about x.session.world.2 options key
      let direct := q.lookups view options key (.direct 0) x.session.world
      let spent := q.lookups view options key x.session.engine x.session.world
      direct = min count ((series.upTo a).length + 1) ∧ spent ≤ direct ∧
        forall b size, x.last = some (b, size) -> b ≤ a -> count ≤ size ->
          spent ≤ min count ((series.newerThan b a).length + 1)
  | _ => True

structure Right (o : Outlook W V) (series : Series V) (x : Journal W V) : Prop where
  linked : x.session.Linked o.metered
  windowed : exists s, x.session.engine = .windowed s ∧ forall b size, x.last = some (b, size) ->
    s.epoch = o.epoch x.session.world.2 ∧ Windowed.Recalls series b size s.window

variable {series : Series V} {x : Journal W V}

theorem right_ask_idle (h : view.Reads o live) (hx : x.Right o series) {options : Options}
    {key : Instant} {q : Question} (hreach : q.reach = none) :
    (x.step view o (.ask options key q)).Right o series := by
  rcases hx.windowed with ⟨s, hs, hrecalls⟩
  have hput := q.uncounted_put_of_idle view.metered options key
    (Question.reach_eq_none_iff.mp hreach) s x.session.world
  have hkept : Kept Window.Of o.metered x.session.here := fun t ht _ => hx.linked.attached t ht
  have hserves := (q.after_put h.metered hx.linked.ready hkept options key).1
  have hhere : x.session.here = (.windowed s, x.session.world) :=
    Prod.ext hs rfl
  rw [← hhere] at hput
  rcases hput with ⟨t, ht, huncounted⟩
  refine ⟨hx.linked.ask h.metered options key q, t, ht, fun b size hlast => ?_⟩
  change q.reach.elim x.last _ = some (b, size) at hlast
  rw [hreach] at hlast
  rcases hrecalls b size hlast with ⟨hepoch, hkept⟩
  rw [Windowed.State.epoch_eq huncounted, Windowed.State.window_eq huncounted]
  exact ⟨hepoch.trans hserves.follows.epoch.symm, hkept⟩

theorem right_ask_busy (h : view.Reads o live) (hstill : o.Still series) (hx : x.Right o series)
    {options : Options} {key : Instant} {q : Question} {count : Nat}
    (hreach : q.reach = some count) (hcounted : q.Counted) :
    x.Frugal view o (.ask options key q) ∧ (x.step view o (.ask options key q)).Right o series := by
  rcases hx.windowed with ⟨s, hs, hrecalls⟩
  have hready : o.ready x.session.world.2 := hx.linked.ready
  have hseries := hstill.series x.session.world.2 hready
  have htwo := Question.two_le_of_reach hreach
  rcases hx.linked.ask_still h hstill hs options key hreach with
    ⟨hu, huof, out, spent, p', hput, hp', hspent, hrun, hturned⟩
  generalize ha : o.about x.session.world.2 options key = a at hu huof hrun hturned
  constructor
  · intro size hsize
    cases hreach.symm.trans hsize
    have hdirect := q.lookups_direct h hstill hready options key hreach 0
    dsimp only
    rw [hspent, hdirect, hseries, ha]
    refine ⟨rfl, ?_, fun b size hlast hle hcount => ?_⟩
    · have hspent_le := hturned.spent_le
      rw [hrun, List.length_take] at hspent_le
      rw [Series.upTo_eq_reverse, List.length_reverse]
      omega
    · rcases hrecalls b size hlast with ⟨hepoch, hrecalled⟩
      have hwindow : (s.entered (o.epoch x.session.world.2) a).window = s.window := by
        rw [s.window_entered, if_pos hepoch.symm]
      exact hturned.spent_le_newer hu huof hrun (hwindow ▸ hrecalled) hle htwo hcount
  · refine ⟨hx.linked.ask h.metered options key q, out.2, ?_, fun b size hlast => ?_⟩
    · show (perform (q.put view.metered options key).run x.session.here).2.1 = .windowed out.2
      rw [hput]
    · change q.reach.elim x.last _ = some (b, size) at hlast
      rw [hreach, hseries, ha] at hlast
      rcases Option.ite_none_right_eq_some.mp hlast with ⟨hfull, heq⟩
      cases heq
      rw [Series.upTo_eq_reverse, List.length_reverse] at hfull
      constructor
      · show out.2.epoch =
          o.epoch (perform (q.put view.metered options key).run x.session.here).2.2.2
        rw [hput, hturned.epoch_eq, s.epoch_entered]
        exact hp'.epoch.symm
      · exact hturned.recalls hu hrun hfull htwo (Question.reach_le_limit hreach hcounted)

/-- Every command is frugal, and leaves a window that recalls the last run. -/
theorem right_step (h : view.Reads o live) (hstill : o.Still series) (hx : x.Right o series)
    {c : Command (Nat × W)} (hallowed : x.Allowed o c) :
    x.Frugal view o c ∧ (x.step view o c).Right o series := by
  rcases hallowed with ⟨hcounted, hgoes⟩
  have hlinked := Session.linked_step h.metered hstill.metered.series hx.linked hgoes
  cases c with
  | ask options key q =>
      cases hreach : q.reach with
      | none =>
          refine ⟨fun count hcount => ?_, right_ask_idle h hx hreach⟩
          rw [hreach] at hcount
          cases hcount
      | some count => exact right_ask_busy h hstill hx hreach hcounted
  | clear =>
      rcases hx.windowed with ⟨s, hs, -⟩
      refine ⟨trivial, hlinked, s.clear, ?_, fun b size hlast => by cases hlast⟩
      exact congrArg State.clear hs
  | raiseMaximum size =>
      rcases hx.windowed with ⟨s, hs, hrecalls⟩
      exact ⟨trivial, hlinked, s.raiseMaximum size, congrArg (State.raiseMaximum size) hs, hrecalls⟩
  | move p =>
      rcases hx.windowed with ⟨s, hs, hrecalls⟩
      refine ⟨trivial, hlinked, s, hs, fun b size hlast => ?_⟩
      have hkept : o.epoch p.2 = o.epoch x.session.world.2 ∧ x.last = some (b, size) := by
        unfold step recalled at hlast
        exact Option.ite_none_right_eq_some.mp hlast
      rcases hrecalls b size hkept.2 with ⟨hepoch, hrecalled⟩
      exact ⟨hepoch.trans hkept.1.symm, hrecalled⟩

theorem right_start (h : view.Reads o live) (maximum : Option Positive) {p : Nat × W}
    (hready : o.ready p.2) : (start view maximum p).Right o series := by
  refine ⟨Session.linked_start h.metered .windowed maximum hready, ?_⟩
  rcases Command.kept_start view.metered maximum p with ⟨s, hs, -⟩
  exact ⟨s, hs, fun b size hlast => by cases hlast⟩

/--
Over a series that stays as it is, a window never costs lookups, and a run that goes on from the
last one pays just for what is new: in every session, every question that asks for a run takes at
most the lookups of a direct engine, and at most one for each entry since the last run, and one.
-/
theorem lookups_within_direct (h : view.Reads o live) (hstill : o.Still series)
    (maximum : Option Positive) {p : Nat × W} {commands : List (Command (Nat × W))}
    (hready : o.ready p.2)
    (hallowed : Each (step view o) (Allowed o) (start view maximum p) commands) :
    Each (step view o) (Frugal view o) (start view maximum p) commands :=
  each_of_kept (fun _ _ hx hc => right_step h hstill hx hc) (right_start h maximum hready) hallowed

def striding : List (Command (Nat × Ledger Int)) :=
  [.ask {} (.ofNanos 35) (.previousEntries 3),
    .ask {} (.ofNanos 45) (.previousEntries 3),
    .ask {} (.ofNanos 60) .entry,
    .raiseMaximum 4,
    .move (7, { Ledger.holding [10, 20, 30, 40, 50] with bound := some (.ofNanos 55) }),
    .ask {} (.ofNanos 90) (.previousEntry 1),
    .ask {} (.ofNanos 45) (.previousEntries 4),
    .move (0, { Ledger.holding [10, 20, 30, 40, 50] with epoch := 1 }),
    .ask {} (.ofNanos 45) (.previousEntries 6),
    .ask {} (.ofNanos 45) (.previousEntries 6)]

theorem lookups_within_direct_on_ledger :
    let ledger := Ledger.holding [10, 20, 30, 40, 50]
    let o := Ledger.outlook (Ledger.Holds ledger.series)
    let x := start Ledger.view (some ⟨3, by decide⟩) (0, ledger)
    Each (step Ledger.view o) (Frugal Ledger.view o) x striding := by
  intro ledger o x
  have hopen : ledger.Open := by decide
  apply lookups_within_direct (Ledger.reads_view (Ledger.closed_holds _)) (Ledger.still_holds _)
  · exact ⟨rfl, hopen, rfl, rfl⟩
  · have hbounded : Ledger.Holds ledger.series { ledger with bound := some (.ofNanos 55) } :=
      ⟨rfl, hopen, rfl, rfl⟩
    have hrenewed : Ledger.Holds ledger.series { ledger with epoch := 1 } :=
      ⟨rfl, hopen, rfl, rfl⟩
    exact ⟨⟨by decide, trivial⟩, ⟨by decide, trivial⟩, ⟨trivial, trivial⟩, ⟨trivial, trivial⟩,
      ⟨trivial, hbounded⟩, ⟨by decide, trivial⟩, ⟨by decide, trivial⟩, ⟨trivial, hrenewed⟩,
      ⟨by decide, trivial⟩, ⟨by decide, trivial⟩, trivial⟩

end Journal
end Engine
end AsOf
