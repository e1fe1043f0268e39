import AsOf.Proofs.Replica.Reading

/-!
# How far a moved horizon takes the coverage back

Under another horizon a replica need not trust its coverage beyond the newest entry that is
loaded in it, be it at the edge; what lies before that entry stays as it is.  This module
shows that no more is withdrawn just if the edge belongs to the coverage.  An excluded edge
is the newest loaded entry itself, and the search for an entry within the coverage passes it
over and ends at the one before.  As a coverage that was taken back has such an edge, every
further move takes it back further.
-/

namespace AsOf

variable {V : Type}

/-!
## The entries that spans rest on
-/

namespace Span

variable {s t span : Span} {loaded loaded' : Series V} {n : Entry V} {start upper : Instant}

theorem Rests.mono (h : s.Rests loaded)
    (hholds : forall key, loaded.contains key = true -> loaded'.contains key = true) :
    s.Rests loaded' := by
  rcases s with ⟨start, edge⟩
  cases edge with
  | included upper =>
      rcases h with ⟨key, hkey, hwithin⟩
      exact ⟨key, hholds key hkey, hwithin⟩
  | excluded upper => exact ⟨hholds upper h.1, h.2⟩
  | unbounded => exact h

theorem Rests.earlier (h : s.Rests loaded) (hle : start ≤ s.start) :
    Rests ⟨start, s.edge⟩ loaded := by
  rcases s with ⟨_, edge⟩
  cases edge with
  | included upper =>
      rcases h with ⟨key, hkey, hstart, hupper⟩
      exact ⟨key, hkey, Std.le_trans hle hstart, hupper⟩
  | excluded upper => exact ⟨h.1, Std.le_trans hle h.2⟩
  | unbounded => exact h

theorem Rests.join (hs : s.Rests loaded) (ht : t.Rests loaded) : (s.join t).Rests loaded := by
  cases htouch : s.touches t with
  | false => rwa [join_of_not_touches htouch]
  | true =>
      rw [join_of_touches htouch]
      rcases Edge.outer_eq s.edge t.edge with hedge | hedge
      · rw [hedge]
        exact hs.earlier Std.min_le_left
      · rw [hedge]
        exact ht.earlier Std.min_le_right

/-- The newest loaded entry from the start of a span up to its edge, the edge included. -/
structure Newest (span : Span) (loaded : Series V) (n : Entry V) : Prop where
  mem : n ∈ loaded
  start_le : span.start ≤ n.key
  reached : span.edge.reaches n.key = true
  newest : forall e, e ∈ loaded -> span.start ≤ e.key -> span.edge.reaches e.key = true ->
    e.key ≤ n.key

theorem Rests.exists_newest (h : span.Rests loaded) : exists n, span.Newest loaded n := by
  have hkey : exists upper key, span.edge.key? = some upper ∧ loaded.contains key = true ∧
      span.start ≤ key ∧ key ≤ upper := by
    rcases span with ⟨start, edge⟩
    cases edge with
    | included upper =>
        rcases h with ⟨key, hwithin⟩
        exact ⟨upper, key, rfl, hwithin⟩
    | excluded upper => exact ⟨upper, upper, rfl, h.1, h.2, Std.le_refl upper⟩
    | unbounded => cases h
  rcases hkey with ⟨upper, key, hupper, hloaded, hstart, hle⟩
  rcases Series.contains_iff.mp hloaded with ⟨e, he, rfl⟩
  have hreaches : forall k, span.edge.reaches k = true ↔ k ≤ upper := fun k =>
    Edge.reaches_iff_of_key? hupper
  cases hlatest : loaded.latestUpTo upper with
  | none => exact absurd hle (Std.not_le.mpr (Series.latestUpTo_eq_none_iff.mp hlatest e he))
  | some n =>
      have hn := Series.latestUpTo_eq_some_iff.mp hlatest
      refine ⟨n, hn.1.1, Std.le_trans hstart (hn.2 e he hle), (hreaches _).mpr hn.1.2, ?_⟩
      exact fun x hx _ hreached => hn.2 x hx ((hreaches _).mp hreached)

theorem Newest.contains_iff (h : span.Newest loaded n) :
    span.contains n.key = true ↔ span.edge.admits n.key = true := by
  rw [Span.contains_iff]
  exact and_iff_right h.start_le

theorem Newest.key_eq (h : span.Newest loaded n) (hrests : span.Rests loaded)
    (hedge : span.edge = .excluded upper) : n.key = upper := by
  rcases span with ⟨start, edge⟩
  cases hedge
  rcases Series.contains_iff.mp hrests.1 with ⟨e, he, rfl⟩
  have hreached : n.key ≤ e.key := by simpa [Edge.reaches] using h.reached
  have hself : Edge.reaches (.excluded e.key) e.key = true := by simp [Edge.reaches]
  exact Std.le_antisymm hreached (h.newest e he hrests.2 hself)

end Span

namespace Replica

variable {s t : State V} {e n : Entry V} {span : Span} {upper : Instant}

namespace State

def Resting (s : State V) : Prop :=
  forall span, s.coverage = some span -> span.Rests s.loaded

theorem newestWithin_eq_some_iff : s.newestWithin span = some e ↔
    (e ∈ s.loaded ∧ span.contains e.key = true) ∧
      forall x, x ∈ s.loaded -> span.contains x.key = true -> x.key ≤ e.key := by
  have hdescending := s.loaded.descending.filter fun e => span.contains e.key
  unfold newestWithin
  rw [← List.head?_filter, Descending.head?_eq_some_iff hdescending]
  simp [Series.mem_def]

theorem coverage_retreat (hspan : s.coverage = some span) : s.retreat.coverage =
    (s.newestWithin span).map fun newest => ⟨span.start, .excluded newest.key⟩ := by
  unfold retreat
  rw [hspan]
  show Option.map _ (s.newestWithin span) = _
  cases hwithin : s.newestWithin span with
  | none => rfl
  | some newest =>
      have hadmits := (Span.contains_iff.mp (mem_of_newestWithin hwithin).2).2
      rcases Span.cutBefore_eq span newest.key with ⟨-, upper, hedge, hle⟩ | heq
      · rw [hedge] at hadmits
        exact absurd hle (Std.not_le.mpr (by simpa [Edge.admits] using hadmits))
      · exact congrArg some heq

theorem resting_retreat (s : State V) : s.retreat.Resting := by
  intro left hleft
  cases hspan : s.coverage with
  | none =>
      rw [show s.retreat.coverage = none by simp [retreat, hspan]] at hleft
      cases hleft
  | some span =>
      rw [coverage_retreat hspan] at hleft
      rcases Option.map_eq_some_iff.mp hleft with ⟨newest, hwithin, rfl⟩
      rcases mem_of_newestWithin hwithin with ⟨hloaded, hin⟩
      exact ⟨Series.contains_of_mem hloaded, (Span.contains_iff.mp hin).1⟩

theorem resting_of_none (h : s.coverage = none) : s.Resting := by
  intro span hspan
  rw [h] at hspan
  cases hspan

theorem stable_resting : Stable (Resting (V := V)) where
  epoch s n hs := by
    unfold observeEpoch
    split
    · exact hs
    · exact resting_of_none rfl
  bound s bound hs := by
    unfold observeBound
    split
    · exact hs
    · exact s.resting_retreat
  aside s t hloaded hcoverage _ _ hs span hspan := hloaded ▸ hs span (hcoverage ▸ hspan)
  store s e hs span hspan := (hs span hspan).mono (s.holdsKeys_store e)
  cover s span hs hrests joined hjoined := by
    cases Option.some.inj hjoined
    cases hcurrent : s.coverage with
    | none => exact hrests
    | some current => exact (hs current hcurrent).join hrests

/-!
## What is withdrawn
-/

/-- What is left of a coverage: all of it before an entry, or nothing if there is no such entry. -/
def CutAt (s t : State V) : Option (Entry V) -> Prop
  | some e => t.coverage.isSome ∧ (forall key, key < e.key -> s.covers key = true ->
      t.covers key = true) ∧ forall key, e.key ≤ key -> t.covers key = false
  | none => t.coverage = none

theorem cutAt_newestWithin (hspan : s.coverage = some span)
    (hleft : t.coverage = s.retreat.coverage) : s.CutAt t (s.newestWithin span) := by
  rw [coverage_retreat hspan] at hleft
  cases hwithin : s.newestWithin span with
  | none =>
      rw [hwithin] at hleft
      exact hleft
  | some newest =>
      rw [hwithin] at hleft
      have hcovers : forall key, t.covers key = true ↔ span.start ≤ key ∧ key < newest.key := by
        intro key
        simp [covers, hleft, Span.contains, Edge.admits]
      refine ⟨by rw [hleft]; rfl, fun key hlt hcovered => ?_, fun key hle => ?_⟩
      · rcases covers_iff.mp hcovered with ⟨current, hcurrent, hin⟩
        cases hspan.symm.trans hcurrent
        exact (hcovers key).mpr ⟨(Span.contains_iff.mp hin).1, hlt⟩
      · apply Bool.eq_false_iff.mpr
        exact fun hcovered => absurd hle (Std.not_le.mpr ((hcovers key).mp hcovered).2)

theorem newestWithin_of_included (hnewest : span.Newest s.loaded n)
    (hedge : span.edge = .included upper) : s.newestWithin span = some n := by
  have hreaches : forall key, span.edge.admits key = span.edge.reaches key := by
    intro key
    rw [hedge]
    rfl
  rw [newestWithin_eq_some_iff, hnewest.contains_iff, hreaches]
  refine ⟨⟨hnewest.mem, hnewest.reached⟩, fun x hx hin => ?_⟩
  rcases Span.contains_iff.mp hin with ⟨hstart, hadmits⟩
  exact hnewest.newest x hx hstart (hreaches x.key ▸ hadmits)

/-- The entry that is found in place of an excluded edge was covered, and is withdrawn with it. -/
theorem not_cutAt_of_excluded (hspan : s.coverage = some span) (hrests : span.Rests s.loaded)
    (hnewest : span.Newest s.loaded n) (hedge : span.edge = .excluded upper)
    (hleft : t.coverage = s.retreat.coverage) : ¬ s.CutAt t (some n) := by
  intro hcut
  have hactual := cutAt_newestWithin hspan hleft
  cases hwithin : s.newestWithin span with
  | none =>
      rw [hwithin] at hactual
      have hnone : t.coverage = none := hactual
      have hsome := hcut.1
      rw [hnone] at hsome
      cases hsome
  | some before =>
      rw [hwithin] at hactual
      have hin := (mem_of_newestWithin hwithin).2
      have hlt : before.key < n.key := by
        have hadmits := (Span.contains_iff.mp hin).2
        rw [hnewest.key_eq hrests hedge]
        simpa [hedge, Edge.admits] using hadmits
      have hkept := hcut.2.1 before.key hlt (covers_iff.mpr ⟨span, hspan, hin⟩)
      rw [hactual.2.2 before.key (Std.le_refl before.key)] at hkept
      cases hkept

theorem cutAt_iff_included (hspan : s.coverage = some span) (hrests : span.Rests s.loaded)
    (hnewest : span.Newest s.loaded n) (hleft : t.coverage = s.retreat.coverage) :
    s.CutAt t (some n) ↔ exists upper, span.edge = .included upper := by
  constructor
  · intro hcut
    cases hedge : span.edge with
    | included upper => exact ⟨upper, rfl⟩
    | excluded upper => exact absurd hcut (not_cutAt_of_excluded hspan hrests hnewest hedge hleft)
    | unbounded =>
        rcases span with ⟨start, edge⟩
        cases hedge
        cases hrests
  · intro hincluded
    rcases hincluded with ⟨upper, hedge⟩
    rw [← newestWithin_of_included hnewest hedge]
    exact cutAt_newestWithin hspan hleft

/-- A retreat takes something away from every coverage, also from what another retreat has left. -/
theorem coverage_retreat_ne (hspan : s.coverage = some span) :
    s.retreat.coverage ≠ some span := by
  intro hsame
  rw [coverage_retreat hspan] at hsame
  rcases Option.map_eq_some_iff.mp hsame with ⟨newest, hwithin, heq⟩
  have hcut : span.edge = .excluded newest.key := by rw [← heq]
  have hadmits := (Span.contains_iff.mp (mem_of_newestWithin hwithin).2).2
  rw [hcut] at hadmits
  have hlt : newest.key < newest.key := by simpa [Edge.admits] using hadmits
  exact Std.lt_irrefl hlt

def Moved (s t : State V) : Prop :=
  t.epoch = s.epoch ∧ t.bound ≠ s.bound

theorem coverage_observed {epoch : Nat} {bound : Option Instant}
    (hmoved : s.Moved ((s.observeEpoch epoch).observeBound bound)) :
    ((s.observeEpoch epoch).observeBound bound).coverage = s.retreat.coverage := by
  rcases hmoved with ⟨hepoch, hbound⟩
  rw [(State.bound_observeBound _ bound).1] at hbound
  rw [(State.bound_observeBound _ bound).2] at hepoch
  have hsame : s.observeEpoch epoch = s := by
    unfold observeEpoch at hepoch ⊢
    split
    · rfl
    · rename_i hne
      rw [if_neg hne] at hepoch
      exact absurd hepoch hne
  rw [hsame, observeBound, if_neg hbound]

end State

variable {m : Type -> Type} [Monad m] {W : Type} [Performs m W] {replica : Replica m V}
  {p : State V × W}

theorem after_sync_moved (replica : Replica m V) (p : State V × W) :
    After replica.sync p (fun _ p' =>
      p.1.Moved p'.1 -> p'.1.coverage = p.1.retreat.coverage) := by
  rcases p with ⟨s, w⟩
  unfold sync
  simp only [after_bind, after_state_monadLift, after_state_modify]
  refine after_of_forall fun epoch w₁ => after_of_forall fun bound w₂ => ?_
  exact State.coverage_observed

/-!
## Along a run
-/

namespace Desk

variable {o : Outlook W V} {next : Instant -> Instant} {x : Desk W V} {c : Command W} {w : W}

/--
A sync that finds another horizon takes the coverage back to the newest entry within it.  This
is the newest entry up to its edge just if the edge is included, and a further sync of that
kind takes the coverage back once more.
-/
def Recedes (replica : Replica m V) (x : Desk W V) : Prop :=
  forall span, x.memory.coverage = some span ->
    exists newest, span.Newest x.memory.loaded newest ∧
      forall w, After replica.sync (x.memory, w) (fun _ p => x.memory.Moved p.1 ->
        x.memory.CutAt p.1 (x.memory.newestWithin span) ∧
        (x.memory.CutAt p.1 (some newest) ↔ exists upper, span.edge = .included upper) ∧
        forall left, p.1.coverage = some left -> After replica.sync p (fun _ p' =>
          p.1.Moved p'.1 -> p'.1.coverage ≠ some left))

theorem recedes_of_resting (replica : Replica m V) (hx : x.memory.Resting) :
    x.Recedes replica := by
  intro span hspan
  have hrests := hx span hspan
  rcases hrests.exists_newest with ⟨newest, hnewest⟩
  refine ⟨newest, hnewest, fun w => ?_⟩
  apply After.imp (after_sync_moved replica (x.memory, w))
  intro _ p hsync hmoved
  have hleft := hsync hmoved
  refine ⟨State.cutAt_newestWithin hspan hleft,
    State.cutAt_iff_included hspan hrests hnewest hleft, fun left hsome => ?_⟩
  apply After.imp (after_sync_moved replica p)
  intro _ p' hsync' hmoved'
  rw [hsync' hmoved']
  exact State.coverage_retreat_ne hsome

def start (replica : Replica m V) (w : W) : Desk W V :=
  let r := perform replica.start w
  { world := r.2, memory := r.1 }

theorem coverage_start (replica : Replica m V) (w : W) :
    (start replica w).memory.coverage = none := by
  have hstart : After replica.start w (fun s _ => s.coverage = none) := by
    unfold Replica.start
    simp only [after_bind, after_pure]
    exact after_of_forall fun _ _ => after_of_forall fun _ _ => trivial
  exact hstart

structure Upheld (J : State V × W -> Prop) (x : Desk W V) : Prop where
  here : J x.here
  readings : forall reading, reading ∈ x.readings -> reading.scan.Forward

theorem upheld_step {J : State V × W -> Prop} {handed : Entry V -> Prop}
    (h : replica.Upholds J handed) (hl : Spares J replica.listener)
    (hclear : forall s w, J (s, w) -> J (s.forget, w)) (hx : x.Upheld J)
    (hmove : forall w, c = .move w -> J (x.memory, w)) : (x.step replica c).Upheld J := by
  cases c with
  | lookup key => exact ⟨upheld_lookup h hl hx.here key, hx.readings⟩
  | begin key =>
      refine ⟨hx.here, fun reading hreading => ?_⟩
      rcases List.mem_append.mp hreading with hold | hnew
      · exact hx.readings reading hold
      · cases List.mem_singleton.mp hnew
        exact Scan.forward_startAt key
  | pull index =>
      cases hget : x.readings[index]? with
      | none => simpa only [step, hget] using hx
      | some reading =>
          have hforward := hx.readings reading (List.mem_of_getElem? hget)
          have hpull := upheld_pull h hl reading.scan hx.here hforward
          simp only [step, hget]
          refine ⟨hpull.1, fun other hother => ?_⟩
          rcases List.mem_or_eq_of_mem_set hother with hold | rfl
          · exact hx.readings other hold
          · exact hpull.2
  | clear => exact ⟨hclear x.memory x.world hx.here, hx.readings⟩
  | move w => exact ⟨hmove w rfl, hx.readings⟩

structure Resting (o : Outlook W V) (x : Desk W V) : Prop where
  ready : o.ready x.world
  memory : x.memory.Resting
  readings : forall reading, reading ∈ x.readings -> reading.scan.Forward

section Steps

variable (h : replica.Scans o next)

include h

theorem resting_start (hready : o.ready w) : (start replica w).Resting o := by
  have hstart : After replica.start w (fun _ w' => o.ready w') := by
    unfold Replica.start
    simp only [after_bind, after_pure]
    apply After.imp (h.epoch w hready)
    intro epoch w₁ hw₁
    apply After.imp (h.horizon w₁ (hw₁.ready hready))
    exact fun bound w₂ hw₂ => hw₂.ready (hw₁.ready hready)
  exact ⟨hstart, State.resting_of_none (coverage_start replica w),
    fun reading hreading => absurd hreading List.not_mem_nil⟩

theorem resting_step
    (hl : forall w, Spares (fun p => Along o w p ∧ p.1.Resting) replica.listener)
    (hx : x.Resting o) (hleads : c.Leads o) : (x.step replica c).Resting o := by
  have hholds := (h.upholds x.world).and State.stable_resting
  have hhere : x.Upheld (fun p => Along o x.world p ∧ p.1.Resting) :=
    ⟨⟨⟨hx.ready, Outlook.Follows.refl o x.world⟩, hx.memory⟩, hx.readings⟩
  have hstep := upheld_step (c := c) hholds (hl x.world)
    (fun s w hp => ⟨⟨hp.1.ready, hp.1.follows⟩, State.resting_of_none rfl⟩) hhere
  cases c with
  | move w => exact ⟨hleads, hx.memory, hx.readings⟩
  | _ =>
      have hupheld := hstep fun w hmove => by cases hmove
      exact ⟨hupheld.here.1.ready, hupheld.here.2, hupheld.readings⟩

omit h in
/--
How far a coverage recedes: after every run of lookups, scans, clears and moves, over a source
whose batches and next keys are faithful, a sync under another horizon withdraws the coverage
only from its newest loaded entry on just if its edge is included; and no coverage that is left
stays as it is under a further horizon.
-/
theorem least_withdrawal_iff_included {note : Overheard V -> m Unit}
    {inquire : Entry V -> Inquiry V} {depth : Nat} {commands : List (Command W)}
    (h : replica.Scans o next)
    (hnote : forall x w, o.ready w -> After (note x) w (fun _ w' => o.deaf.Follows w w'))
    (hready : o.ready w) (hleads : forall c, c ∈ commands -> c.Leads o) :
    Throughout (step (replica.overheard note inquire depth))
      (Recedes (replica.overheard note inquire depth))
      (start (replica.overheard note inquire depth) w) commands := by
  have hscans : (replica.overheard note inquire depth).Scans o.deaf next := by
    cases depth <;> exact { h.deaf with }
  have hl : forall w, Spares (fun p => Along o.deaf w p ∧ p.1.Resting)
      (replica.overheard note inquire depth).listener := by
    intro w
    refine (upholds_overheard ((h.deaf.upholds w).and State.stable_resting) ?_ depth).2
    intro s w' x hp
    exact After.imp (hnote x w' hp.1.ready) fun _ _ hw => ⟨hp.1.onward hw, hp.2⟩
  have hstep : forall (x : Desk W V) (c : Command W), x.Resting o.deaf -> c.Leads o ->
      (x.step (replica.overheard note inquire depth) c).Resting o.deaf := by
    intro x c hx hc
    have hc' : c.Leads o.deaf := by cases c <;> exact hc
    exact resting_step hscans hl hx hc'
  apply throughout_of_kept hstep _ (resting_start hscans hready) (each_of_mem hleads)
  exact fun x hx => recedes_of_resting _ hx.memory

end Steps

def receding : List (Command (Ledger Int)) :=
  [.lookup (.ofNanos 10), .move { Ledger.fourByTwo with bound := some (.ofNanos 50) },
    .lookup (.ofNanos 15), .begin (.ofNanos 10), .pull 0,
    .move { Ledger.fourByTwo with bound := some (.ofNanos 60) }, .clear,
    .lookup (.ofNanos 45), .pull 0]

theorem least_withdrawal_iff_included_on_ledger :
    Throughout (step Session.curious) (Recedes Session.curious)
      (start Session.curious Ledger.fourByTwo) receding := by
  have hbears : Ledger.Bears Ledger.fourByTwo.series Ledger.fourByTwo := ⟨rfl, by decide⟩
  have hreads := Ledger.reads_replica (Ledger.closed_bears Ledger.fourByTwo.series) {}
  apply least_withdrawal_iff_included hreads.scans
  · intro x w hready
    exact ⟨rfl, rfl, rfl, rfl, ⟨[], (List.append_nil _).symm⟩, ⟨[], rfl, by simp⟩, id⟩
  · exact hbears
  · intro c hc
    cases c with
    | move w =>
        have hworld : w = { Ledger.fourByTwo with bound := some (.ofNanos 50) } ∨
            w = { Ledger.fourByTwo with bound := some (.ofNanos 60) } := by
          simpa [receding] using hc
        rcases hworld with rfl | rfl <;> exact hbears
    | _ => trivial

def readOnce : Desk (Ledger Int) Int :=
  step Ledger.plain (start Ledger.plain (Ledger.holding [10, 20, 30])) (.lookup (.ofNanos 10))

/-- The coverage ends at the newest entry, and yet the entry before it is withdrawn as well. -/
theorem withdrawn_too_far :
    exists span newest, readOnce.memory.coverage = some span ∧
      span.Newest readOnce.memory.loaded newest ∧
      After Ledger.plain.sync
        (readOnce.memory, { Ledger.holding [10, 20, 30] with bound := some (.ofNanos 50) })
        (fun _ p => readOnce.memory.Moved p.1 ∧ ¬ readOnce.memory.CutAt p.1 (some newest)) := by
  have hnewest : Span.Newest ⟨.ofNanos 10, .excluded (.ofNanos 30)⟩ readOnce.memory.loaded
      ⟨.ofNanos 30, 30⟩ := by
    have hle : forall e, e ∈ readOnce.memory.loaded -> e.key ≤ .ofNanos 30 := by decide +kernel
    exact ⟨by decide +kernel, by decide, by decide, fun e he _ _ => hle e he⟩
  refine ⟨_, _, by decide +kernel, hnewest, ?_⟩
  constructor
  · constructor
    · decide +kernel
    · decide +kernel
  · intro hcut
    have hkept := hcut.2.1 (.ofNanos 20) (by decide) (by decide +kernel)
    exact absurd hkept (by decide +kernel)

end Desk
end Replica
end AsOf
