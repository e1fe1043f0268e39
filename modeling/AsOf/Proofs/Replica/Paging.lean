import AsOf.Proofs.Replica.Progress

/-!
# Reading batches and pages

What is read from a faithful source is stored without a loss, and the coverage is
extended only by stretches of which all entries are loaded.  Each reading step
therefore makes progress.
-/

namespace AsOf
namespace Replica

open Outlook

variable {m : Type -> Type} [Monad m] {V W : Type} [Performs m W] {o : Outlook W V}
  {next : Instant -> Instant} {replica : Replica m V} {p p' : State V × W} {s : State V}
  {series : Series V} {key start : Instant} {mark : Bookmark}

/-- A replica of a faithful source that reads the horizon and the epoch of the world. -/
structure Reads (replica : Replica m V) (o : Outlook W V) (next : Instant -> Instant) :
    Prop where
  source : replica.source.Faithful o next
  horizon : replica.horizon.Shows o
  epoch : replica.epoch.Shows o

structure Pages (replica : Replica m V) (o : Outlook W V) (next : Instant -> Instant) :
    Prop where
  source : replica.source.Batches o next
  horizon : replica.horizon.Shows o
  epoch : replica.epoch.Shows o

theorem Reads.pages (h : replica.Reads o next) : replica.Pages o next where
  source := h.source.batches
  horizon := h.horizon
  epoch := h.epoch

/-!
## Storing a batch
-/

def State.absorbed (s : State V) (start : Instant) (batch : List (Entry V)) : State V :=
  (s.countLoaded batch.length).storePage (kept start batch)

theorem State.Sound.absorbed {limit : Option Positive} {batch : List (Entry V)}
    (h : s.Sound series) (hbatch : series.Batch start limit batch) :
    (s.absorbed start batch).Sound series ∧ s.Retains (s.absorbed start batch) ∧
      forall e, e ∈ series.page start limit -> e ∈ (s.absorbed start batch).loaded := by
  have hcount : (s.countLoaded batch.length).Sound series := h.count _
  have hsub : forall x, x ∈ (kept start batch).toList -> x ∈ series := by
    intro x hx
    rw [hbatch.toList_kept] at hx
    exact (Series.mem_of_mem_page hx).1
  rcases hcount.foldl_store hsub with ⟨hsound, hretains, hall⟩
  have hloaded : forall e, e ∈ series.page start limit -> e ∈ (s.absorbed start batch).loaded := by
    intro e he
    apply hall
    rw [hbatch.toList_kept]
    exact he
  exact ⟨hsound, hretains, hloaded⟩

theorem Settled.absorbed {batch : List (Entry V)} (hp : Settled o p)
    (hbatch : (o.series p.2).Batch start (o.limit p.2) batch) :
    Progress o p (p.1.absorbed start batch, p.2) := by
  rcases hp.sound.absorbed hbatch with ⟨hsound, hretains, _⟩
  exact .of_state hsound hretains (State.epoch_storePage _ _) (State.bound_storePage _ _)

theorem Settled.cover {span : Span} (hp : Settled o p) (hground : p.1.Grounded span.start)
    (hup : span.Upright)
    (hcomplete : forall e, e ∈ o.series p.2 -> span.contains e.key = true -> e ∈ p.1.loaded) :
    Progress o p (p.1.cover span, p.2) :=
  .of_state (hp.sound.cover hground hup hcomplete) (State.Retains.refl p.1) rfl rfl

theorem State.Grounded.mono {t : State V} (h : s.Grounded start) (hretains : s.Retains t)
    (hcoverage : t.coverage = s.coverage) : t.Grounded start := by
  rcases h with hloaded | hreached
  · rcases Series.contains_iff.mp hloaded with ⟨e, he, hkey⟩
    exact Or.inl (Series.contains_iff.mpr ⟨e, hretains e he, hkey⟩)
  · exact Or.inr (hcoverage ▸ hreached)

theorem yields_absorb {batch : List (Entry V)} (hp : Settled o p)
    (hbatch : (o.series p.2).Batch start (o.limit p.2) batch) :
    Yields o (absorb start batch : Action m V (Series V)) p
      (fun page s' => page = kept start batch ∧ s' = p.1.absorbed start batch) := by
  unfold absorb
  apply (Yields.modify (hp.absorbed hbatch)).bind
  intro _ p' hprogress hstate
  exact .pure (hprogress.settled hp) ⟨rfl, hstate⟩

/-- What is kept of a batch lies in the page, which is complete before its newest entry. -/
theorem kept_complete {limit : Option Positive} {batch : List (Entry V)} {newest : Entry V}
    (hs : s.Sound series) (hbatch : series.Batch start limit batch)
    (hnewest : (kept start batch).newest? = some newest) :
    start ≤ newest.key ∧ forall e, e ∈ series -> start ≤ e.key -> e.key < newest.key ->
      e ∈ (s.absorbed start batch).loaded := by
  have hpage := hbatch.mem_kept.mp (Series.newest?_eq_some_iff.mp hnewest).1
  constructor
  · exact (Series.mem_of_mem_page hpage).2
  · intro e he hstart hlt
    exact (hs.absorbed hbatch).2.2 e (Series.mem_page_of_lt he hstart hpage hlt)

def State.paged (s : State V) (mark : Bookmark) (batch : List (Entry V)) : State V :=
  match (kept mark.start batch).oldest?, (kept mark.start batch).newest? with
  | some oldest, some newest =>
      (s.absorbed mark.start batch).cover
        ⟨mark.completeFrom.getD oldest.key, .excluded newest.key⟩
  | _, _ =>
      s.absorbed mark.start batch

theorem State.loaded_paged (s : State V) (mark : Bookmark) (batch : List (Entry V)) :
    (s.paged mark batch).loaded = (s.absorbed mark.start batch).loaded := by
  unfold State.paged
  split <;> rfl

/--
A bookmark whose page can be joined to what is loaded: if the page holds anything and
is complete from an earlier instant on, a span may begin there, and what lies between
is loaded.
-/
def Bookmark.Fits (mark : Bookmark) (series : Series V) (s : State V) : Prop :=
  forall first, mark.completeFrom = some first -> series.onwards mark.start ≠ [] ->
    s.Grounded first ∧ first ≤ mark.start ∧
      forall e, e ∈ series -> first ≤ e.key -> e.key < mark.start -> e ∈ s.loaded

theorem Bookmark.Fits.mono {t : State V} (h : mark.Fits series s) (hretains : s.Retains t)
    (hcoverage : t.coverage = s.coverage) : mark.Fits series t := by
  intro first hfirst hmore
  rcases h first hfirst hmore with ⟨hground, hle, hcomplete⟩
  exact ⟨hground.mono hretains hcoverage, hle,
    fun e he hstart hlt => hretains e (hcomplete e he hstart hlt)⟩

theorem Settled.paged {batch : List (Entry V)} (hp : Settled o p)
    (hbatch : (o.series p.2).Batch mark.start (o.limit p.2) batch)
    (hfits : mark.Fits (o.series p.2) p.1) : Progress o p (p.1.paged mark batch, p.2) := by
  have habsorbed := hp.absorbed hbatch
  have hloaded := (hp.sound.absorbed hbatch).2.2
  unfold State.paged
  split
  · rename_i oldest newest holdest hnewest
    have hcomplete := kept_complete hp.sound hbatch hnewest
    have holdest := Series.oldest?_eq_some_iff.mp holdest
    have hfirst := hbatch.mem_kept.mp holdest.1
    have hnew := (Series.newest?_eq_some_iff.mp hnewest).1
    have hsettled := habsorbed.settled hp
    apply habsorbed.trans
    cases hfrom : mark.completeFrom with
    | none =>
        refine hsettled.cover ?_ ?_ ?_
        · exact Or.inl (Series.contains_of_mem (hloaded oldest hfirst))
        · intro upper h
          cases h
          exact holdest.2 newest hnew
        · intro e he hin
          rcases Span.contains_iff.mp hin with ⟨hstart, hlt⟩
          have hge : mark.start ≤ e.key := Std.le_trans (Series.mem_of_mem_page hfirst).2 hstart
          exact hcomplete.2 e he hge (by simpa [Edge.admits] using hlt)
    | some first =>
        have hmore : (o.series p.2).onwards mark.start ≠ [] :=
          List.ne_nil_of_mem (Series.mem_onwards.mpr (Series.mem_of_mem_page hfirst))
        rcases hfits first hfrom hmore with ⟨hground, hle, hbefore⟩
        refine hsettled.cover ?_ ?_ ?_
        · exact hground.mono habsorbed.retains (State.coverage_storePage _ _)
        · intro upper h
          cases h
          exact Std.le_trans hle hcomplete.1
        · intro e he hin
          rcases Span.contains_iff.mp hin with ⟨hstart, hlt⟩
          by_cases hge : mark.start ≤ e.key
          · exact hcomplete.2 e he hge (by simpa [Edge.admits] using hlt)
          · exact habsorbed.retains e (hbefore e he hstart (Std.not_le.mp hge))
  · exact habsorbed

/-- The bookmark after an entry that is loaded fits, since no key lies between the two. -/
theorem Bookmark.fits_after {e : Entry V} (he : e ∈ s.loaded)
    (hnext : forall x, x ∈ series -> e.key < x.key -> next e.key ≤ x.key)
    (hlt : e.key < next e.key) (hs : s.Sound series) :
    (Bookmark.mk (next e.key) (some e.key)).Fits series s := by
  intro first h _
  cases h
  have hcomplete : forall x, x ∈ series -> e.key ≤ x.key -> x.key < next e.key ->
      x ∈ s.loaded := by
    intro x hx hge hxlt
    have hnot : ¬ e.key < x.key := fun hgt => absurd (hnext x hx hgt) (Std.not_le.mpr hxlt)
    have heq := Series.eq_of_key_eq (hs.loaded e he) hx (Std.le_antisymm hge (Std.not_lt.mp hnot))
    exact heq ▸ he
  exact ⟨Or.inl (Series.contains_of_mem he), Std.le_of_lt hlt, hcomplete⟩

def Bookmark.after (next : Instant -> Instant) (full : Bool) (newest : Entry V) : Option Bookmark :=
  if full then some ⟨next newest.key, some newest.key⟩ else none

theorem Bookmark.after_eq_some_iff {full : Bool} {newest : Entry V} :
    Bookmark.after next full newest = some mark ↔
      full = true ∧ mark = ⟨next newest.key, some newest.key⟩ := by
  unfold Bookmark.after
  cases full <;> simp [eq_comm]

theorem State.Sound.fits_missingStretch (hs : s.Sound series)
    (hmark : s.missingStretch key = some mark) : mark.Fits series s := by
  unfold State.missingStretch at hmark
  split at hmark
  · cases hmark
    intro first h
    cases h
  · split at hmark
    · cases hmark
    · rename_i span hspan
      split at hmark
      · rcases Option.map_eq_some_iff.mp hmark with ⟨upper, hupper, rfl⟩
        intro first h _
        cases h
        refine ⟨Or.inr ⟨span, hspan, (hs.coverage span hspan).upright upper hupper, ?_⟩,
          Std.le_refl upper, fun e _ hge hlt => absurd hge (Std.not_le.mpr hlt)⟩
        exact (Edge.reaches_iff_of_key? hupper).mpr (Std.le_refl upper)
      · cases hmark

theorem State.Sound.grounded_gapStart {latest : Entry V} (hs : s.Sound series)
    (hlatest : latest ∈ series) (hgap : s.gapStart latest = some start) :
    (s.store latest).Grounded start := by
  have hmem : latest ∈ (s.store latest).loaded :=
    (State.mem_loaded_store hs.loaded hlatest).mpr (Or.inr rfl)
  have hown : (s.store latest).Grounded latest.key := Or.inl (Series.contains_of_mem hmem)
  unfold State.gapStart at hgap
  split at hgap
  · cases hgap
    exact hown
  · rename_i span hspan
    split at hgap
    · cases hgap
      exact hown
    · split at hgap
      · cases hgap
      · cases hupper : span.edge.key? with
        | none =>
            rw [hupper] at hgap
            cases hgap
            exact hown
        | some upper =>
            rw [hupper] at hgap
            cases hgap
            exact Or.inr ⟨span, hspan, (hs.coverage span hspan).upright upper hupper,
              (Edge.reaches_iff_of_key? hupper).mpr (Std.le_refl upper)⟩

/-!
## Reading batches and pages
-/

variable (h : replica.Pages o next)

include h

theorem yields_batchFrom (hp : Settled o p) (start : Instant) :
    Yields o (ask start (replica.source.batchFrom start)) p
      (fun batch s' => (o.series p.2).Batch start (o.limit p.2) batch ∧ s' = p.1) :=
  .ask hp (h.source.batchFrom p.2 start hp.ready)

theorem yields_fill (hp : Settled o p) (hground : p.1.Grounded start) :
    Yields o (replica.fill start) p (fun _ _ => True) := by
  unfold fill
  apply (Yields.modify (hp.aside rfl rfl rfl rfl rfl)).bind
  intro _ p₁ hp₁ hs₁
  apply (yields_batchFrom h (hp₁.settled hp) start).bind
  intro batch p₂ hp₂ hs₂
  have hsettled := hp₂.settled (hp₁.settled hp)
  have hbatch : (o.series p₂.2).Batch start (o.limit p₂.2) batch := by
    rw [hp₂.follows.series, hp₂.follows.limit]
    exact hs₂.1
  apply (yields_absorb hsettled hbatch).bind
  intro page p₃ hp₃ hs₃
  have hsettled₃ := hp₃.settled hsettled
  rcases hs₃ with ⟨rfl, hs₃⟩
  cases hnewest : (kept start batch).newest? with
  | none =>
      exact .pure hsettled₃ trivial
  | some newest =>
      have hcomplete := kept_complete hsettled.sound hbatch hnewest
      have hcov : p₃.1.coverage = p.1.coverage := by
        rw [hs₃, hs₂.2, hs₁]
        exact State.coverage_storePage _ _
      refine (Yields.modify (hsettled₃.cover ?_ ?_ ?_)).imp (fun _ _ _ _ => trivial)
      · exact hground.mono ((hp₁.trans hp₂).trans hp₃).retains hcov
      · intro upper h
        cases h
        exact hcomplete.1
      · intro e he hin
        rcases Span.contains_iff.mp hin with ⟨hstart, hlt⟩
        rw [hp₃.follows.series] at he
        rw [hs₃]
        exact hcomplete.2 e he hstart (by simpa [Edge.admits] using hlt)

def Fetched (o : Outlook W V) (mark : Bookmark) (p p' : State V × W) (page : Page V) : Prop :=
  exists batch, (o.series p.2).Batch mark.start (o.limit p.2) batch ∧
    p'.1 = p.1.countBulkLoad.paged mark batch ∧
    page = ⟨kept mark.start batch, (o.limit p.2).any fun size => size.val ≤ batch.length⟩

omit h in
theorem after_fetch_of {right : List (Entry V) -> Prop} (hsource : replica.source.Batches o next)
    (hready : o.ready p.2)
    (hright : After (replica.source.batchFrom mark.start).run p.2 (fun r w' => o.Follows p.2 w' ∧
      o.Delivers p.2 w' right (r.mapError (.load mark.start)))) :
    After (replica.fetch mark).run p (fun r p' => o.Follows p.2 p'.2 ∧
      o.Delivers p.2 p'.2 (fun page => exists batch, right batch ∧
        p'.1 = p.1.countBulkLoad.paged mark batch ∧
        page = ⟨kept mark.start batch, (o.limit p.2).any fun size => size.val ≤ batch.length⟩) r ∧
      forall e, r = .error e -> p'.1 = p.1.countBulkLoad ∧
        exists cause, e = .load mark.start cause) := by
  rcases p with ⟨s, w⟩
  unfold fetch
  simp only [after_except_bind, after_request_modify, ask, after_request_handOn,
    after_except_adapt]
  apply After.imp hright
  intro r w₁ hpost
  rcases hpost with ⟨hw₁, hr⟩
  cases r with
  | error message =>
      refine ⟨hw₁, hr, fun e he => ?_⟩
      cases he
      exact ⟨trivial, message, rfl⟩
  | ok batch =>
      apply after_request_lift.mpr
      apply After.imp (hsource.batchLimit w₁ (hw₁.ready hready))
      intro limit w₂ hpost
      rcases hpost with ⟨hlimit, hw₂⟩
      rw [hw₁.limit] at hlimit
      subst hlimit
      simp only [absorb, after_except_bind, after_request_modify, after_except_pure]
      split
      · rename_i oldest newest holdest hnewest
        simp only [after_except_bind, after_request_modify, after_except_pure]
        refine ⟨hw₁.trans hw₂, ⟨batch, hr, ?_, rfl⟩, fun _ herror => by cases herror⟩
        simp only [State.paged, holdest, hnewest]
        rfl
      · rename_i hnot
        refine after_except_pure.mpr
          ⟨hw₁.trans hw₂, ⟨batch, hr, ?_, rfl⟩, fun _ herror => by cases herror⟩
        unfold State.paged
        split
        · rename_i oldest newest holdest hnewest
          exact absurd hnewest (hnot oldest newest holdest)
        · rfl

omit h in
theorem after_fetch (hsource : replica.source.Batches o next) (hready : o.ready p.2)
    (mark : Bookmark) :
    After (replica.fetch mark).run p (fun r p' => o.Follows p.2 p'.2 ∧
      o.Delivers p.2 p'.2 (Fetched o mark p p') r ∧
      forall e, r = .error e -> p'.1 = p.1.countBulkLoad ∧
        exists cause, e = .load mark.start cause) :=
  after_fetch_of hsource hready (hsource.batchFrom p.2 mark.start hready)

theorem yields_fetch (hp : Settled o p) (hfits : mark.Fits (o.series p.2) p.1) :
    Yields o (replica.fetch mark) p (fun page s' => Fetched o mark p (s', p.2) page) := by
  have hcount : Progress o p (p.1.countBulkLoad, p.2) := hp.aside rfl rfl rfl rfl rfl
  apply After.imp (after_fetch h.source hp.ready mark)
  intro r p' hpost
  rcases hpost with ⟨hfollows, hdelivers, herror⟩
  cases r with
  | error e =>
      constructor
      · have hstay := (hcount.settled hp).onward hfollows
        rcases p' with ⟨s', w'⟩
        rw [show s' = p.1.countBulkLoad from (herror e rfl).1]
        exact hcount.trans hstay
      · exact hdelivers
  | ok page =>
      rcases hdelivers with ⟨batch, hbatch, hs', hpage⟩
      refine ⟨?_, batch, hbatch, hs', hpage⟩
      have hpaged := (hcount.settled hp).paged hbatch (hfits.mono hcount.retains rfl)
      have hall := hcount.trans hpaged
      have hstay := (hall.settled hp).onward hfollows
      rcases p' with ⟨s', w'⟩
      rw [show s' = _ from hs']
      exact hall.trans hstay

omit [Monad m] [Performs m W] h in
theorem Fetched.mem_loaded {page : Page V} (hp : Settled o p) (hf : Fetched o mark p p' page)
    {e : Entry V} (he : e ∈ page.entries) :
    e ∈ p'.1.loaded ∧ e ∈ o.series p.2 ∧ mark.start ≤ e.key := by
  rcases hf with ⟨batch, hbatch, hs', rfl⟩
  have hcount : p.1.countBulkLoad.Sound (o.series p.2) := hp.sound.count _
  have hpage := hbatch.mem_kept.mp he
  rw [hs', State.loaded_paged]
  exact ⟨(hcount.absorbed hbatch).2.2 e hpage, Series.mem_of_mem_page hpage⟩

omit h in
theorem after_onward (hsource : replica.source.Batches o next) {w : W} {e : Entry V}
    (hready : o.ready w) (he : e ∈ o.series w) (hstart : mark.start ≤ e.key) :
    After (replica.onward mark e.key) w (fun r w' =>
      r.map Subtype.val = Bookmark.after next true e ∧ o.Follows w w') := by
  unfold onward Bookmark.after
  simp only [if_true, after_bind]
  apply After.imp (hsource.nextKey w e.key hready)
  intro _ w' hpost
  rcases hpost with ⟨rfl, hw'⟩
  have hlt := Std.lt_of_le_of_lt hstart (hsource.lt_next w e hready he)
  rw [dif_pos hlt]
  exact after_pure.mpr ⟨rfl, hw'⟩

omit h in
theorem after_nextPage (hsource : replica.source.Batches o next) {w : W} {e : Entry V}
    (hready : o.ready w) (he : e ∈ o.series w) (hstart : mark.start ≤ e.key) (full : Bool) :
    After (replica.nextPage mark full e.key) w (fun r w' =>
      r.map Subtype.val = Bookmark.after next full e ∧ o.Follows w w') := by
  cases full with
  | false => exact after_pure.mpr ⟨rfl, Follows.refl o w⟩
  | true => exact after_onward hsource hready he hstart

omit [Monad m] [Performs m W] h in
theorem Fetched.complete {page : Page V} {e : Entry V} (hp : Settled o p)
    (hf : Fetched o mark p p' page) (he : e ∈ o.series p.2) (hstart : mark.start ≤ e.key)
    (hmore : forall newest, page.entries.newest? = some newest -> page.full = true ->
      e.key ≤ newest.key) : e ∈ p'.1.loaded := by
  rcases hf with ⟨batch, hbatch, hs', rfl⟩
  have hcount : p.1.countBulkLoad.Sound (o.series p.2) := hp.sound.count _
  rw [hs', State.loaded_paged]
  apply (hcount.absorbed hbatch).2.2
  have hon : e ∈ (o.series p.2).onwards mark.start := Series.mem_onwards.mpr ⟨he, hstart⟩
  cases hfull : (o.limit p.2).any fun size => size.val ≤ batch.length with
  | false =>
      rw [hbatch.page_eq_onwards hfull]
      exact hon
  | true =>
      cases hnewest : (kept mark.start batch).newest? with
      | none =>
          have hnil : (o.series p.2).page mark.start (o.limit p.2) = [] := by
            rw [← hbatch.toList_kept]
            exact Series.toList_eq_nil_iff.mpr hnewest
          rw [Series.onwards_eq_nil_of_page hnil] at hon
          cases hon
      | some newest =>
          have hin := hbatch.mem_kept.mp (Series.newest?_eq_some_iff.mp hnewest).1
          by_cases hlt : e.key < newest.key
          · exact Series.mem_page_of_lt he hstart hin hlt
          · have hkey := Std.le_antisymm (hmore newest hnewest hfull) (Std.not_lt.mp hlt)
            exact Series.eq_of_key_eq (Series.mem_of_mem_page hin).1 he hkey.symm ▸ hin

/-- Reading forward loads every entry from the bookmark to the goal. -/
theorem yields_fetchUntil (goal : Instant) (mark : Bookmark) {p : State V × W}
    (hp : Settled o p) (hfits : mark.Fits (o.series p.2) p.1) :
    Yields o (replica.fetchUntil goal mark) p (fun _ s' =>
      forall e, e ∈ o.series p.2 -> mark.start ≤ e.key -> e.key ≤ goal -> e ∈ s'.loaded) := by
  rw [fetchUntil]
  apply (yields_fetch h hp hfits).bind
  intro page p₁ hp₁ hpage
  have hsettled := hp₁.settled hp
  have hfetched : Fetched o mark p (p₁.1, p.2) page := hpage
  have hcomplete := fun {e : Entry V} he hstart =>
    Fetched.complete (e := e) hp hfetched he hstart
  split
  · rename_i hnone
    refine .pure hsettled fun e he hstart _ => hcomplete he hstart fun newest hnewest _ => ?_
    cases hnone.symm.trans hnewest
  · rename_i newest hnewest
    have hmem := Fetched.mem_loaded hp hpage (Series.newest?_eq_some_iff.mp hnewest).1
    have hseries := hp₁.follows.series
    have hnewest₁ : newest ∈ o.series p₁.2 := hseries ▸ hmem.2.1
    have hready := hsettled.ready
    have hnext := fun x hx => h.source.next_le p₁.2 p₁.2 newest x hready hready hnewest₁ hx
    apply (Yields.look hsettled (after_onward h.source hready hnewest₁ hmem.2.2)).bind
    intro following p₂ hp₂ hpost
    rcases hpost with ⟨hfollowing, hs₂⟩
    cases following with
    | none => cases hfollowing
    | some following =>
      dsimp only
      split
      · have hmark := (Bookmark.after_eq_some_iff.mp hfollowing.symm).2
        have hfits₂ : following.val.Fits (o.series p₂.2) p₂.1 := by
          rw [hp₂.follows.series, hs₂, hmark]
          exact Bookmark.fits_after hmem.1 hnext (h.source.lt_next p₁.2 newest hready hnewest₁)
            hsettled.sound
        apply (yields_fetchUntil goal following.val (hp₂.settled hsettled) hfits₂).imp
        intro _ p₃ hp₃ hlater e he hstart hgoal
        by_cases hlt : newest.key < e.key
        · have he₁ : e ∈ o.series p₁.2 := hseries ▸ he
          rw [hp₂.follows.series, hmark] at hlater
          exact hlater e he₁ (hnext e he₁ hlt) hgoal
        · apply hp₃.retains
          rw [hs₂]
          refine hcomplete he hstart fun newest' hnewest' _ => ?_
          cases hnewest.symm.trans hnewest'
          exact Std.not_lt.mp hlt
      · rename_i hstop
        refine .pure (hp₂.settled hsettled) fun e he hstart hgoal => ?_
        rw [hs₂]
        refine hcomplete he hstart fun newest' hnewest' hfull => ?_
        cases hnewest.symm.trans hnewest'
        have hreached : ¬ newest.key < goal := by simpa [hfull] using hstop
        exact Std.le_trans hgoal (Std.not_lt.mp hreached)
termination_by mark.start.remaining
decreasing_by exact Instant.remaining_lt_of_lt following.property

end Replica
end AsOf
