import AsOf.Proofs.Replica.Session

/-!
# Scans that are resumed after a reset

A scan remembers how far its pages went, also when the replica has forgotten what
was on them.  The page that it reads next is then noted as complete from a key that
is no longer loaded.  This module shows that nothing else can make a replica of a
still series wrong: along a run its coverage is filled, and all its lookups are
right, exactly as long as no scan is resumed in this way.
-/

namespace AsOf

variable {m : Type -> Type} [Monad m] {V W : Type} [Performs m W] {o : Outlook W V}
  {next : Instant -> Instant} {series : Series V}

namespace Replica

open Outlook

variable {p p' : State V × W} {s : State V} {mark : Bookmark} {first : Instant}

/-!
## A page that does not join
-/

theorem State.mem_of_mem_storePage {page : Series V} {e : Entry V}
    (he : e ∈ (s.storePage page).loaded) : e ∈ s.loaded ∨ e ∈ page := by
  have hlist : e ∈ s.loaded ∨ e ∈ page.toList := by
    rw [State.storePage_eq] at he
    generalize page.toList = entries at he ⊢
    induction entries generalizing s with
    | nil => exact Or.inl he
    | cons x rest ih =>
        rcases ih he with hs | hrest
        · rcases Series.mem_insert.mp hs with rfl | ⟨hs, -⟩
          · exact Or.inr (List.mem_cons_self ..)
          · exact Or.inl hs
        · exact Or.inr (List.mem_cons_of_mem x hrest)
  exact hlist.imp id Series.mem_toList.mp

/-- A key that is covered and in no memo, though its entry is not loaded. -/
structure State.Lost (s : State V) (key : Instant) : Prop where
  covers : s.covers key = true
  loaded : s.loaded.contains key = false
  memo : s.memo.find? key = none

theorem State.paged_frame (s : State V) (mark : Bookmark) (batch : List (Entry V)) :
    (s.paged mark batch).epoch = s.epoch ∧ (s.paged mark batch).bound = s.bound ∧
      (s.paged mark batch).memo = s.memo := by
  have habsorbed : (s.absorbed mark.start batch).epoch = s.epoch ∧
      (s.absorbed mark.start batch).bound = s.bound ∧
      (s.absorbed mark.start batch).memo = s.memo := by
    rcases (s.countLoaded batch.length).storePage_frame (kept mark.start batch) with ⟨_, _, hframe⟩
    unfold State.absorbed
    rw [hframe]
    exact ⟨rfl, rfl, rfl⟩
  unfold State.paged
  split <;> exact habsorbed

theorem State.covers_cover {span : Span} {key : Instant} (h : span.contains key = true) :
    (s.cover span).covers key = true := by
  apply State.covers_iff.mpr
  cases hcov : s.coverage with
  | none => exact ⟨span, by simp [State.cover, hcov], h⟩
  | some current =>
      exact ⟨current.join span, by simp [State.cover, hcov], Span.contains_join_of_right h⟩

theorem State.lost_paged {limit : Option Positive} {batch : List (Entry V)}
    (hbatch : series.Batch mark.start limit batch) (hfirst : mark.completeFrom = some first)
    (hlt : first < mark.start) (hmore : series.onwards mark.start ≠ [])
    (hnot : s.loaded.contains first = false) (hmemo : s.memo.find? first = none) :
    (s.paged mark batch).Lost first := by
  have hpage : (kept mark.start batch).toList ≠ [] := by
    rw [hbatch.toList_kept]
    exact fun hnil => hmore (Series.onwards_eq_nil_of_page hnil)
  refine ⟨?_, ?_, by rw [(s.paged_frame mark batch).2.2, hmemo]⟩
  · cases hnewest : (kept mark.start batch).newest? with
    | none => exact absurd (Series.toList_eq_nil_iff.mpr hnewest) hpage
    | some newest =>
        cases holdest : (kept mark.start batch).oldest? with
        | none =>
            have hin := (Series.newest?_eq_some_iff.mp hnewest).1
            exact absurd hin (Series.oldest?_eq_none_iff.mp holdest newest)
        | some oldest =>
            have hin := hbatch.mem_kept.mp (Series.newest?_eq_some_iff.mp hnewest).1
            have hge := (Series.mem_of_mem_page hin).2
            simp only [State.paged, holdest, hnewest, hfirst]
            apply State.covers_cover
            apply Span.contains_iff.mpr
            exact ⟨Std.le_refl first, by simpa [Edge.admits] using Std.lt_of_lt_of_le hlt hge⟩
  · rw [State.loaded_paged, Bool.eq_false_iff]
    intro hloaded
    rcases Series.contains_iff.mp hloaded with ⟨e, he, rfl⟩
    rcases State.mem_of_mem_storePage he with hs | hkept
    · exact absurd (Series.contains_of_mem hs) (Bool.eq_false_iff.mp hnot)
    · have hge := (Series.mem_of_mem_page (hbatch.mem_kept.mp hkept)).2
      exact absurd hge (Std.not_le.mpr hlt)

theorem State.Sound.find?_eq_none {e : Entry V} (hs : s.Sound series) (he : e ∈ series)
    (hnot : s.loaded.contains e.key = false) : s.memo.find? e.key = none := by
  cases hfind : s.memo.find? e.key with
  | none => rfl
  | some found =>
      have hlatest : series.latestUpTo e.key = some e :=
        Series.latestUpTo_eq_some_iff.mpr ⟨⟨he, Std.le_refl e.key⟩, fun _ _ hle => hle⟩
      have hfound := hs.memo e.key found hfind
      rw [hfound, hlatest] at hfind
      have hloaded := Series.contains_of_mem (hs.memo_loaded e.key e hfind)
      exact absurd hloaded (Bool.eq_false_iff.mp hnot)

/-!
## What a replica without a listener does
-/

variable {replica : Replica m V}

theorem Quiet.after_announce (hquiet : replica.Quiet) :
    After replica.announce p (fun _ p' => p' = ({ p.1 with pending := [] }, p.2)) := by
  rcases p with ⟨s, w⟩
  unfold announce
  simp only [after_bind, after_state_modifyGet]
  generalize { s with pending := [] } = t
  induction s.pending with
  | nil =>
      exact after_pure.mpr rfl
  | cons e rest ih =>
      apply after_bind.mpr
      rw [hquiet e]
      exact after_pure.mpr ih

section Pages

variable (h : replica.Pages o next)

include h

theorem after_sync_loaded (hready : o.ready p.2) :
    After replica.sync p (fun _ p' =>
      p'.1.loaded = if p.1.epoch = o.epoch p.2 then p.1.loaded else .empty) := by
  rcases p with ⟨s, w⟩
  unfold sync
  simp only [after_bind, after_state_monadLift, after_state_modify]
  apply After.imp (h.epoch w hready)
  intro _ w₁ hpost
  rcases hpost with ⟨rfl, hw₁⟩
  apply After.imp (h.horizon w₁ (hw₁.ready hready))
  intro bound w₂ _
  rw [State.loaded_observeBound]
  unfold State.observeEpoch
  simp only [eq_comm]
  split <;> rfl

structure Paged (o : Outlook W V) (mark : Bookmark) (p p₀ p' : State V × W)
    (batch : List (Entry V)) : Prop where
  synced : Advance o p p₀
  loaded : p₀.1.loaded = if p.1.epoch = o.epoch p.2 then p.1.loaded else .empty
  read : (o.series p.2).Batch mark.start (o.limit p.2) batch
  state : p'.1 = { p₀.1.countBulkLoad.paged mark batch with pending := [] }
  follows : o.Follows p₀.2 p'.2

theorem after_loadPage_still (hquiet : replica.Quiet) (hstill : o.Still series)
    (hready : o.ready p.2) (hp : Trusted o p) (mark : Bookmark) :
    After (replica.loadPage mark).run p (fun r p' => o.Follows p.2 p'.2 ∧
      (exists p₀ batch, Paged o mark p p₀ p' batch) ∧
      o.Delivers p.2 p'.2 (fun page => page.Right (o.series p.2) mark p'.1) r) := by
  unfold loadPage
  apply after_except_bind.mpr
  apply after_except_lift.mpr
  apply After.imp ((after_sync h hready hp).and (after_sync_loaded h hready))
  intro _ p₀ hpost
  rcases hpost with ⟨hp₀, hloaded⟩
  have hready₀ := hp₀.current.ready
  unfold announcing
  apply after_except_mk.mpr
  simp only [after_bind, after_pure]
  apply After.imp (after_fetch h.source hready₀ mark)
  intro r p₁ hpost
  rcases hpost with ⟨hp₁, hr, -⟩
  apply After.imp hquiet.after_announce
  intro _ p' heq
  subst heq
  have hfollows := hp₀.follows.trans hp₁
  cases r with
  | error e =>
      have hnone := hstill.failures p₁.2 (hp₁.ready hready₀)
      simp [Delivers, since, hnone] at hr
  | ok page =>
      have hright := Fetched.right hp₀.current.toSettled hr
      rw [hp₀.follows.series] at hright
      rcases hr with ⟨batch, hbatch, hstate, -⟩
      rw [hp₀.follows.series, hp₀.follows.limit] at hbatch
      have hkept : page.Right (o.series p.2) mark { p₁.1 with pending := [] } :=
        { hright with loaded := hright.loaded }
      refine ⟨hfollows, ⟨p₀, batch, hp₀, hloaded, hbatch, ?_, hp₁⟩, hkept⟩
      rw [hstate]

omit h in
def Bookmark.Linked (next : Instant -> Instant) (series : Series V) (mark : Bookmark) : Prop :=
  forall first, mark.completeFrom = some first ->
    mark.start = next first ∧ exists e, e ∈ series ∧ e.key = first

variable {p₀ : State V × W} {batch : List (Entry V)}

omit h in
theorem Paged.current (hpaged : Paged o mark p p₀ p' batch) :
    o.ready p'.2 ∧ p'.1.epoch = o.epoch p'.2 ∧ p'.1.bound = o.bound p'.2 := by
  have hcurrent := hpaged.synced.current
  have hframe := p₀.1.countBulkLoad.paged_frame mark batch
  rw [hpaged.state, hpaged.follows.epoch, hpaged.follows.bound]
  exact ⟨hpaged.follows.ready hcurrent.ready, hframe.1.trans hcurrent.epoch,
    hframe.2.1.trans hcurrent.bound⟩

/-- A page that holds nothing, or that joins what is loaded, keeps a replica right. -/
theorem Paged.sound (hpaged : Paged o mark p p₀ p' batch)
    (hlinked : mark.Linked next (o.series p.2))
    (hjoins : forall first, mark.completeFrom = some first ->
      (o.series p.2).onwards mark.start ≠ [] ->
      p.1.epoch = o.epoch p.2 ∧ p.1.loaded.contains first = true) :
    p'.1.Sound (o.series p.2) := by
  have hsettled := hpaged.synced.current.toSettled
  have hseries := hpaged.synced.follows.series
  have hcount : Progress o p₀ (p₀.1.countBulkLoad, p₀.2) := hsettled.aside rfl rfl rfl rfl rfl
  have hfits : mark.Fits (o.series p₀.2) p₀.1 := by
    apply fits_of_loaded h hsettled
    intro first hfirst hmore
    rw [hseries] at hmore
    rcases hjoins first hfirst hmore with ⟨hepoch, hloaded⟩
    rw [hpaged.loaded, if_pos hepoch]
    exact ⟨(hlinked first hfirst).1, hloaded⟩
  have hread := hpaged.read
  rw [← hseries, ← hpaged.synced.follows.limit] at hread
  have hsound := ((hcount.settled hsettled).paged hread (hfits.mono hcount.retains rfl)).sound
  rw [hpaged.state, ← hseries]
  exact hsound.congr rfl rfl rfl

/-- A page that does not join what is loaded loses the key from which it is noted as complete. -/
theorem Paged.lost {e : Entry V} (hpaged : Paged o mark p p₀ p' batch) (hready : o.ready p.2)
    (he : e ∈ o.series p.2) (hfirst : mark.completeFrom = some e.key)
    (hstart : mark.start = next e.key) (hmore : (o.series p.2).onwards mark.start ≠ [])
    (hnot : ¬ (p.1.epoch = o.epoch p.2 ∧ p.1.loaded.contains e.key = true)) :
    p'.1.Lost e.key := by
  have hsettled := hpaged.synced.current.toSettled
  have hlt := h.source.lt_next p.2 e hready he
  have hloaded : p₀.1.loaded.contains e.key = false := by
    rw [hpaged.loaded]
    split
    · rename_i hepoch
      exact Bool.eq_false_iff.mpr fun hloaded => hnot ⟨hepoch, hloaded⟩
    · rfl
  have hmemo := hsettled.sound.find?_eq_none (hpaged.synced.follows.series ▸ he) hloaded
  have hlost := State.lost_paged (s := p₀.1.countBulkLoad) hpaged.read hfirst (hstart ▸ hlt) hmore
    hloaded hmemo
  rw [hpaged.state]
  exact ⟨hlost.covers, hlost.loaded, hlost.memo⟩

theorem after_lookup_of_covers (hquiet : replica.Quiet) {key : Instant} (hready : o.ready p.2)
    (hepoch : p.1.epoch = o.epoch p.2) (hbound : p.1.bound = o.bound p.2)
    (hmemo : p.1.memo.find? key = none) (hcovers : p.1.covers key = true) :
    After (replica.lookup key).run p (fun r _ => r = .ok (p.1.loaded.latestUpTo key)) := by
  rcases p with ⟨s, w⟩
  have hsync : After replica.sync (s, w) (fun _ p' => p'.1 = s) := by
    unfold sync
    simp only [after_bind, after_state_monadLift, after_state_modify]
    apply After.imp (h.epoch w hready)
    intro _ w₁ hpost
    rcases hpost with ⟨rfl, hw₁⟩
    apply After.imp (h.horizon w₁ (hw₁.ready hready))
    intro _ w₂ hpost
    rcases hpost with ⟨rfl, -⟩
    rw [State.observeEpoch, if_pos hepoch.symm, hw₁.bound, State.observeBound, if_pos hbound.symm]
  unfold lookup
  apply after_except_bind.mpr
  apply after_except_lift.mpr
  apply After.imp hsync
  intro _ p heq
  rcases p with ⟨_, w'⟩
  subst heq
  simp only [after_except_bind, after_request_get, hmemo]
  unfold announcing
  apply after_except_mk.mpr
  simp only [after_bind, after_pure, after_except_bind]
  unfold resolve
  simp only [after_except_bind, after_request_get, if_pos hcovers, after_request_modify,
    after_except_pure]
  exact After.imp hquiet.after_announce fun _ _ _ => trivial

end Pages

namespace Session

variable {x : Session W V} {c : Command W}

/-!
## Sessions over a still series
-/

/--
A pull strays if it has to read a page that holds entries and is noted as complete
from a key that the replica has forgotten, or will forget for the new epoch.
-/
def Strays (o : Outlook W V) (x : Session W V) : Command W -> Prop
  | .pull index => exists begun mark first, x.scans[index]? = some begun ∧
      begun.scan.due = some mark ∧ mark.completeFrom = some first ∧
      (o.series x.world).onwards mark.start ≠ [] ∧
      ¬ (x.memory.epoch = o.epoch x.world ∧ x.memory.loaded.contains first = true)
  | _ => False

/-- The coverage begins at the key of a loaded entry, and all entries in it are loaded. -/
def Filled (o : Outlook W V) (x : Session W V) : Prop :=
  forall span, x.memory.coverage = some span -> x.memory.loaded.contains span.start = true ∧
    forall e, e ∈ o.series x.world -> span.contains e.key = true -> e ∈ x.memory.loaded

/-- Every lookup would yield the entry in effect. -/
def Exact (replica : Replica m V) (o : Outlook W V) (x : Session W V) : Prop :=
  forall key, After (replica.lookup key).run x.here
    (fun r _ => r = .ok ((o.series x.world).latestUpTo key))

structure Whole (o : Outlook W V) (next : Instant -> Instant) (series : Series V)
    (x : Session W V) : Prop where
  ready : o.ready x.world
  sound : x.memory.Sound series
  ordered : forall begun, begun ∈ x.scans -> begun.scan.Ordered
  linked : forall begun mark, begun ∈ x.scans -> begun.scan.next = some mark ->
    mark.Linked next series

theorem Whole.trusted (hx : x.Whole o next series) (hstill : o.Still series) :
    Trusted o x.here := by
  intro _
  have hseries := hstill.series x.world hx.ready
  exact ⟨series, hx.sound, hseries ▸ Series.Grown.refl _, fun _ => hseries.symm⟩

theorem Whole.filled (hx : x.Whole o next series) (hstill : o.Still series) : x.Filled o := by
  intro span hspan
  have hfilled := hx.sound.coverage span hspan
  rw [hstill.series x.world hx.ready]
  exact ⟨hfilled.start, hfilled.complete⟩

/-- A key that is lost can be looked up, and the answer is wrong. -/
theorem not_filled_of_lost {e : Entry V} (he : e ∈ o.series x.world)
    (hlost : x.memory.Lost e.key) : ¬ x.Filled o := by
  intro hfilled
  rcases State.covers_iff.mp hlost.covers with ⟨span, hspan, hin⟩
  have hloaded := (hfilled span hspan).2 e he hin
  exact absurd (Series.contains_of_mem hloaded) (Bool.eq_false_iff.mp hlost.loaded)

section Steps

variable (h : replica.Reads o next) (hquiet : replica.Quiet) (hstill : o.Still series)

include h hquiet hstill

theorem Whole.exact (hx : x.Whole o next series) : x.Exact replica o := by
  intro key
  have hlookup := after_lookup h hquiet.listens hx.ready (hx.trusted hstill) key
  apply After.imp hlookup
  intro r p hpost
  rcases hpost with ⟨hp, hr⟩
  have hright := hr.imp fun found hfound => hfound.1
  exact hright.eq_ok (hstill.failures p.2 hp.current.ready)

omit hstill in
theorem not_exact_of_lost {e : Entry V} (hready : o.ready x.world)
    (hepoch : x.memory.epoch = o.epoch x.world) (hbound : x.memory.bound = o.bound x.world)
    (he : e ∈ o.series x.world) (hlost : x.memory.Lost e.key) : ¬ x.Exact replica o := by
  intro hexact
  have hanswer := after_lookup_of_covers h.pages hquiet (p := x.here) hready hepoch hbound
    hlost.memo hlost.covers
  have hlatest : (o.series x.world).latestUpTo e.key = some e :=
    Series.latestUpTo_eq_some_iff.mpr ⟨⟨he, Std.le_refl e.key⟩, fun _ _ hle => hle⟩
  have hsame := hanswer.symm.trans (hexact e.key)
  rw [hlatest] at hsame
  have hmem := (Series.latestUpTo_eq_some_iff.mp (Except.ok.inj hsame)).1.1
  exact absurd (Series.contains_of_mem hmem) (Bool.eq_false_iff.mp hlost.loaded)

theorem Whole.after_pull (hx : x.Whole o next series) {begun : Begun V}
    (hbegun : begun ∈ x.scans) :
    After (replica.pull begun.scan) x.here (fun r p' =>
      Pulled o next begun.scan x.world p' r ∧
        (begun.scan.due = none ∧ p' = x.here ∨ begun.scan.due ≠ none ∧
          exists mark p₀ batch, begun.scan.due = some mark ∧ Paged o mark x.here p₀ p' batch)) := by
  apply after_pull_of_load h.pages hx.ready (hx.ordered begun hbegun)
  · intro s w w' hw h
    rcases h with ⟨mark, p₀, batch, hmark, hpaged⟩
    exact ⟨mark, p₀, batch, hmark, hpaged.synced, hpaged.loaded, hpaged.read, hpaged.state,
      hpaged.follows.trans hw⟩
  · intro mark hmark
    apply After.imp (after_loadPage_still h.pages hquiet hstill hx.ready (hx.trusted hstill) mark)
    intro r p' hpost
    rcases hpost with ⟨hfollows, ⟨p₀, batch, hpaged⟩, hr⟩
    exact ⟨hfollows, ⟨mark, p₀, batch, hmark, hpaged⟩, hr⟩

theorem Whole.pull (hx : x.Whole o next series) {index : Nat}
    (hnot : ¬ x.Strays o (.pull index)) :
    (x.step replica o (.pull index)).Whole o next series := by
  cases hget : x.scans[index]? with
  | none =>
      simpa [step, hget] using hx
  | some begun =>
      have hmem := List.mem_of_getElem? hget
      have hseries := hstill.series x.world hx.ready
      rcases hx.after_pull h hquiet hstill hmem with ⟨hpulled, hstate⟩
      simp only [step, hget]
      have hnow : o.ready (perform (replica.pull begun.scan) x.here).2.2 ∧
          (perform (replica.pull begun.scan) x.here).2.1.Sound series := by
        rcases hstate with ⟨-, hstay⟩ | ⟨-, mark, p₀, batch, hdue, hpaged⟩
        · rw [hstay]
          exact ⟨hx.ready, hx.sound⟩
        · refine ⟨hpaged.current.1, hseries ▸ hpaged.sound h.pages ?_ ?_⟩
          · exact hseries.symm ▸ hx.linked begun mark hmem (Scan.next_of_due hdue)
          · intro first hfirst hmore
            apply Classical.byContradiction
            intro hforgotten
            exact hnot ⟨begun, mark, first, hget, hdue, hfirst, hmore, hforgotten⟩
      constructor
      · exact hnow.1
      · exact hnow.2
      · intro other hother
        rcases List.mem_or_eq_of_mem_set hother with hold | rfl
        · exact hx.ordered other hold
        · exact hpulled.ordered
      · intro other mark hother hmark
        rcases List.mem_or_eq_of_mem_set hother with hold | rfl
        · exact hx.linked other mark hold hmark
        · rcases hpulled.next mark hmark with ⟨-, hkept⟩ | ⟨-, newest, -, hnewest, rfl⟩
          · exact hx.linked begun mark hmem hkept
          · intro first h
            cases h
            exact ⟨rfl, newest, hseries ▸ hnewest, rfl⟩

theorem Whole.step (hx : x.Whole o next series) (hmove : forall w, c = .move w -> o.ready w)
    (hnot : ¬ x.Strays o c) : (x.step replica o c).Whole o next series := by
  cases c with
  | lookup key =>
      have hlookup := after_lookup h hquiet.listens hx.ready (hx.trusted hstill) key
      have hcurrent := hlookup.1.current
      exact ⟨hcurrent.ready, hstill.series _ hcurrent.ready ▸ hcurrent.sound, hx.ordered, hx.linked⟩
  | begin key =>
      constructor
      · exact hx.ready
      · exact hx.sound
      · intro begun hbegun
        rcases List.mem_append.mp hbegun with hold | hnew
        · exact hx.ordered begun hold
        · cases List.mem_singleton.mp hnew
          exact Scan.ordered_startAt key
      · intro begun mark hbegun hmark
        rcases List.mem_append.mp hbegun with hold | hnew
        · exact hx.linked begun mark hold hmark
        · cases List.mem_singleton.mp hnew
          cases hmark
          intro first h
          cases h
  | pull index =>
      exact hx.pull h hquiet hstill hnot
  | clear =>
      exact ⟨hx.ready, State.sound_forget _ _, hx.ordered, hx.linked⟩
  | move w =>
      exact ⟨hmove w rfl, hx.sound, hx.ordered, hx.linked⟩

theorem Whole.lost_of_strays (hx : x.Whole o next series) (hstrays : x.Strays o c) :
    ¬ (x.step replica o c).Filled o ∧ ¬ (x.step replica o c).Exact replica o := by
  cases c with
  | pull index =>
      rcases hstrays with ⟨begun, mark, first, hget, hdue, hfirst, hmore, hforgotten⟩
      have hmem := List.mem_of_getElem? hget
      rcases hx.linked begun mark hmem (Scan.next_of_due hdue) first hfirst with
        ⟨hstart, e, he, rfl⟩
      have hseries := hstill.series x.world hx.ready
      have he' : e ∈ o.series x.world := hseries ▸ he
      rcases hx.after_pull h hquiet hstill hmem with
        ⟨-, ⟨hnone, -⟩ | ⟨-, mark', p₀, batch, hdue', hpaged⟩⟩
      · rw [hnone] at hdue
        cases hdue
      · cases hdue.symm.trans hdue'
        have hlost := hpaged.lost h.pages hx.ready he' hfirst hstart hmore hforgotten
        have hnow := hpaged.current
        have hin : e ∈ o.series (perform (replica.pull begun.scan) x.here).2.2 :=
          hstill.series _ hnow.1 ▸ he
        simp only [Session.step, hget]
        exact ⟨not_filled_of_lost hin hlost,
          not_exact_of_lost h hquiet hnow.1 hnow.2.1 hnow.2.2 hin hlost⟩
  | _ => exact hstrays.elim

theorem Whole.throughout_iff {P : Session W V -> Prop}
    (hwhole : forall x : Session W V, x.Whole o next series -> P x)
    (hlost : forall (x : Session W V) c, x.Whole o next series -> x.Strays o c ->
      ¬ P (x.step replica o c))
    (hx : x.Whole o next series) {commands : List (Command W)}
    (hmoves : forall w, .move w ∈ commands -> o.ready w) :
    Throughout (Session.step replica o) P x commands ↔
      Each (Session.step replica o) (fun x c => ¬ x.Strays o c) x commands := by
  have hallowed : Each (Session.step replica o) (fun _ c => forall w, c = .move w -> o.ready w) x
      commands := each_of_mem fun c hc w heq => hmoves w (heq ▸ hc)
  apply throughout_iff_faultless hwhole _ _ hx hallowed
  · exact fun x c hx hmove hnot => hx.step h hquiet hstill hmove hnot
  · exact fun x c hx _ hstrays => hlost x c hx hstrays

omit hquiet in
theorem whole_start {w : W} (hready : o.ready w) : (start replica o w).Whole o next series := by
  have hright := right_start h hready
  have hseries := hstill.series _ hright.ready
  constructor
  · exact hright.ready
  · exact hseries ▸ hright.sound
  · intro begun hbegun
    cases hbegun
  · intro begun span hbegun
    cases hbegun

end Steps

/--
In a session over a still series the coverage is filled throughout, and every lookup
would be right throughout, exactly if no pull strays.
-/
theorem intact_iff_never_strays {w : W} {commands : List (Command W)} (h : replica.Reads o next)
    (hquiet : replica.Quiet) (hstill : o.Still series) (hready : o.ready w)
    (hmoves : forall w', .move w' ∈ commands -> o.ready w') :
    (Throughout (step replica o) (Filled o) (start replica o w) commands ↔
        Each (step replica o) (fun x c => ¬ x.Strays o c) (start replica o w) commands) ∧
      (Throughout (step replica o) (Exact replica o) (start replica o w) commands ↔
        Each (step replica o) (fun x c => ¬ x.Strays o c) (start replica o w) commands) := by
  have hstart := whole_start (w := w) h hstill hready
  constructor
  · apply hstart.throughout_iff h hquiet hstill _ _ hmoves
    · exact fun x hx => hx.filled hstill
    · exact fun x c hx hstrays => (hx.lost_of_strays h hquiet hstill hstrays).1
  · apply hstart.throughout_iff h hquiet hstill _ _ hmoves
    · exact fun x hx => hx.exact h hquiet hstill
    · exact fun x c hx hstrays => (hx.lost_of_strays h hquiet hstill hstrays).2

def resumed : List (Command (Ledger Int)) :=
  [.begin (.ofNanos 10), .pull 0, .clear, .pull 0, .pull 0]

theorem intact_iff_never_strays_on_ledger :
    let replica := Ledger.plain
    let o := Ledger.outlook (Ledger.Holds Ledger.fourByTwo.series)
    (Throughout (step replica o) (Filled o) (start replica o Ledger.fourByTwo) resumed ↔
        Each (step replica o) (fun x c => ¬ x.Strays o c)
          (start replica o Ledger.fourByTwo) resumed) ∧
      (Throughout (step replica o) (Exact replica o) (start replica o Ledger.fourByTwo) resumed ↔
        Each (step replica o) (fun x c => ¬ x.Strays o c)
          (start replica o Ledger.fourByTwo) resumed) := by
  have hclosed := Ledger.closed_holds Ledger.fourByTwo.series
  apply intact_iff_never_strays (Ledger.reads_replica hclosed {}) (Ledger.quiet_replica {})
    (Ledger.still_holds _) Ledger.holds_fourByTwo
  simp [resumed]

def afterResumed : Session (Ledger Int) Int :=
  resumed.foldl (step Ledger.plain (Ledger.outlook (Ledger.Holds Ledger.fourByTwo.series)))
    (start Ledger.plain (Ledger.outlook (Ledger.Holds Ledger.fourByTwo.series)) Ledger.fourByTwo)

theorem lost_afterResumed : afterResumed.memory.Lost (.ofNanos 20) where
  covers := by decide +kernel
  loaded := by decide +kernel
  memo := by decide +kernel

theorem holds_afterResumed : Ledger.Holds Ledger.fourByTwo.series afterResumed.world where
  series := by decide +kernel
  open_ends := by decide +kernel
  outages := by decide +kernel
  failures := by decide +kernel

/-- The run in which a scan is resumed leaves a replica that answers wrongly. -/
theorem not_intact_when_resumed :
    let replica := Ledger.plain
    let o := Ledger.outlook (Ledger.Holds Ledger.fourByTwo.series)
    ¬ Throughout (step replica o) (Filled o) (start replica o Ledger.fourByTwo) resumed ∧
      ¬ Throughout (step replica o) (Exact replica o)
        (start replica o Ledger.fourByTwo) resumed := by
  intro replica o
  have hreads := Ledger.reads_replica (Ledger.closed_holds Ledger.fourByTwo.series) {}
  have hin : (⟨.ofNanos 20, 20⟩ : Entry Int) ∈ o.series afterResumed.world := by
    rw [show o.series afterResumed.world = Ledger.fourByTwo.series from holds_afterResumed.series]
    decide
  have hepoch : afterResumed.memory.epoch = o.epoch afterResumed.world := by
    show afterResumed.memory.epoch = afterResumed.world.epoch
    decide +kernel
  have hbound : afterResumed.memory.bound = o.bound afterResumed.world := by
    show afterResumed.memory.bound = afterResumed.world.bound
    decide +kernel
  constructor
  · intro hall
    exact not_filled_of_lost hin lost_afterResumed hall.2.2.2.2.2
  · intro hall
    exact not_exact_of_lost hreads (Ledger.quiet_replica {}) holds_afterResumed hepoch hbound hin
      lost_afterResumed hall.2.2.2.2.2

end Session
end Replica
end AsOf
