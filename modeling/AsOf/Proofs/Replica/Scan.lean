import AsOf.Proofs.Replica.Lookup
import AsOf.Replica.Scan

/-!
# Scans yield what they await

A scan awaits the entries in its buffer and, after those, the entries of the
series from its next page on.  Each pull yields the first of them, or a failure
that ends the scan, and reads at most one page.
-/

namespace AsOf
namespace Replica

open Outlook

variable {m : Type -> Type} [Monad m] {V W : Type} [Performs m W] {o : Outlook W V}
  {next : Instant -> Instant} {replica : Replica m V} {p p' : State V × W} {s t : State V}
  {series : Series V} {mark : Bookmark} {scan : Scan V}

/-!
## Pages of a scan
-/

def Bookmark.Joins (next : Instant -> Instant) (mark : Bookmark) (s : State V) : Prop :=
  forall first, mark.completeFrom = some first ->
    mark.start = next first ∧ s.loaded.contains first = true

theorem Bookmark.Joins.mono (h : mark.Joins next s) (hretains : s.Retains t) :
    mark.Joins next t := by
  intro first hfirst
  rcases h first hfirst with ⟨hstart, hloaded⟩
  rcases Series.contains_iff.mp hloaded with ⟨e, he, hkey⟩
  exact ⟨hstart, Series.contains_iff.mpr ⟨e, hretains e he, hkey⟩⟩

structure Page.Of (page : Page V) (series : Series V) (mark : Bookmark) : Prop where
  limit : exists limit, page.entries.toList = series.page mark.start limit
  last : page.full = false -> page.entries.toList = series.onwards mark.start

structure Page.Right (page : Page V) (series : Series V) (mark : Bookmark) (s : State V) :
    Prop extends Page.Of page series mark where
  loaded : forall e, e ∈ page.entries -> e ∈ s.loaded

theorem Fetched.page {page : Page V} (hf : Fetched o mark p p' page) :
    page.Of (o.series p.2) mark where
  limit := by
    rcases hf with ⟨batch, hbatch, -, rfl⟩
    exact ⟨o.limit p.2, hbatch.toList_kept⟩
  last hfull := by
    rcases hf with ⟨batch, hbatch, -, rfl⟩
    exact hbatch.toList_kept.trans (hbatch.page_eq_onwards hfull)

theorem Fetched.right {page : Page V} (hp : Settled o p) (hf : Fetched o mark p p' page) :
    page.Right (o.series p.2) mark p'.1 where
  toOf := hf.page
  loaded _ he := (hf.mem_loaded hp he).1

section Page

variable (h : replica.Pages o next)

include h

theorem fits_of_loaded (hp : Settled o p)
    (hjoins : forall first, mark.completeFrom = some first ->
      (o.series p.2).onwards mark.start ≠ [] ->
      mark.start = next first ∧ p.1.loaded.contains first = true) :
    mark.Fits (o.series p.2) p.1 := by
  intro first hfirst hmore
  rcases hjoins first hfirst hmore with ⟨hstart, hloaded⟩
  rcases Series.contains_iff.mp hloaded with ⟨e, he, rfl⟩
  have hmem := hp.sound.loaded e he
  have hfits := Bookmark.fits_after he
    (fun x hx => h.source.next_le p.2 p.2 e x hp.ready hp.ready hmem hx)
    (h.source.lt_next p.2 e hp.ready hmem) hp.sound
  rcases hfits e.key rfl (hstart ▸ hmore) with ⟨hground, hle, hcomplete⟩
  exact ⟨hground, hstart ▸ hle, fun x hx hge hlt => hcomplete x hx hge (hstart ▸ hlt)⟩

theorem after_loadPage (hl : Listens o replica.listener) (hready : o.ready p.2) (hp : Trusted o p)
    (hjoins : mark.Joins next p.1)
    (hepoch : mark.completeFrom = none ∨ p.1.epoch = o.epoch p.2) :
    After (replica.loadPage mark).run p (fun r p' => Advance o p p' ∧
      o.Delivers p.2 p'.2 (fun page => page.Right (o.series p.2) mark p'.1) r) := by
  unfold loadPage
  apply after_except_bind.mpr
  apply after_except_lift.mpr
  apply After.imp (after_sync h hready hp)
  intro _ p₁ hp₁
  have hsettled := hp₁.current.toSettled
  have hjoins₁ : mark.Joins next p₁.1 := by
    rcases hepoch with hnone | hepoch
    · intro first hfirst
      rw [hnone] at hfirst
      cases hfirst
    · exact hjoins.mono (hp₁.retains hepoch)
  have hfits := fits_of_loaded h hsettled fun first hfirst _ => hjoins₁ first hfirst
  have hfetch : Yields o (replica.fetch mark) p₁
      (fun page s => page.Right (o.series p₁.2) mark s) :=
    (yields_fetch h hsettled hfits).imp fun page p' _ hpage => Fetched.right hsettled hpage
  dsimp only
  apply hp₁.yields (g := fun series page s => Page.Right page series mark s)
  apply hfetch.announcing hl hp₁.current
  intro page s t hretains hpage
  exact { hpage with loaded := fun e he => hretains e (hpage.loaded e he) }

end Page

/-!
## Scans in order
-/

def Scan.awaited (series : Series V) (scan : Scan V) : List (Entry V) :=
  scan.buffer ++ scan.next.elim [] fun mark => series.onwards mark.start

structure Scan.Ordered (scan : Scan V) : Prop where
  ascending : Ascending scan.buffer
  later : forall last e, scan.lastYielded = some last -> e ∈ scan.buffer -> last < e.key
  onward : forall last mark, scan.lastYielded = some last -> scan.next = some mark ->
    last < mark.start
  ahead : forall mark e, scan.next = some mark -> e ∈ scan.buffer -> e.key < mark.start

def Scan.Joined (next : Instant -> Instant) (scan : Scan V) (s : State V) : Prop :=
  forall mark, scan.next = some mark -> mark.Joins next s

structure Scan.Fit (o : Outlook W V) (next : Instant -> Instant) (p : State V × W)
    (scan : Scan V) : Prop where
  ordered : scan.Ordered
  joined : scan.Joined next p.1
  /-- A page after another one belongs to the present epoch. -/
  epoch : forall mark, scan.next = some mark ->
    mark.completeFrom = none ∨ p.1.epoch = o.epoch p.2

namespace Scan

theorem ordered_startAt (key : Instant) : (startAt key : Scan V).Ordered where
  ascending := List.Pairwise.nil
  later _ _ hlast := by cases hlast
  onward _ _ hlast := by cases hlast
  ahead _ _ _ he := by cases he

theorem joined_startAt (key : Instant) (s : State V) : (startAt key).Joined next s := by
  intro mark h first h'
  cases h
  cases h'

theorem ordered_ended (scan : Scan V) : scan.ended.Ordered where
  ascending := List.Pairwise.nil
  later _ _ _ he := by cases he
  onward _ _ _ hmark := by cases hmark
  ahead _ _ hmark := by cases hmark

theorem Ordered.news (h : scan.Ordered) : scan.news = scan.buffer := by
  have hnews : forall e, e ∈ scan.buffer -> scan.isNews e = true := by
    intro e he
    unfold isNews
    split
    · rename_i last hlast
      exact decide_eq_true (h.later last e hlast he)
    · rfl
  unfold Scan.news
  cases hbuffer : scan.buffer with
  | nil => rfl
  | cons e rest =>
      rw [List.dropWhile_cons, hnews e (by simp [hbuffer])]
      rfl

theorem Ordered.yielded {e : Entry V} {rest : List (Entry V)} (h : scan.Ordered)
    (hbuffer : scan.buffer = e :: rest) : (scan.yielded e rest).Ordered where
  ascending := (List.pairwise_cons.mp (hbuffer ▸ h.ascending)).2
  later last x hlast hx := by
    cases hlast
    exact (List.pairwise_cons.mp (hbuffer ▸ h.ascending)).1 x hx
  onward last mark hlast hmark := by
    cases hlast
    exact h.ahead mark e hmark (by simp [hbuffer])
  ahead mark x hmark hx :=
    h.ahead mark x hmark (hbuffer ▸ List.mem_cons_of_mem e hx)

theorem awaited_yielded {e : Entry V} {rest : List (Entry V)}
    (hbuffer : scan.buffer = e :: rest) :
    scan.awaited series = e :: (scan.yielded e rest).awaited series := by
  unfold awaited
  rw [hbuffer]
  rfl

theorem fit_startAt (key : Instant) (p : State V × W) : (startAt key).Fit o next p where
  ordered := ordered_startAt key
  joined := joined_startAt key p.1
  epoch := by
    intro _ h
    cases h
    exact Or.inl rfl

/-- A scan stays fit as long as what it joins is retained, in the epoch in which it joins. -/
theorem Fit.mono (h : scan.Fit o next p)
    (hp : p.1.epoch = o.epoch p.2 -> p.1.Retains p'.1 ∧ p'.1.epoch = o.epoch p'.2) :
    scan.Fit o next p' where
  ordered := h.ordered
  joined mark hmark := by
    rcases h.epoch mark hmark with hnone | hepoch
    · intro first hfirst
      rw [hnone] at hfirst
      cases hfirst
    · exact (h.joined mark hmark).mono (hp hepoch).1
  epoch mark hmark := (h.epoch mark hmark).imp id fun hepoch => (hp hepoch).2

theorem Fit.advance (h : scan.Fit o next p) (hp : Advance o p p') : scan.Fit o next p' :=
  h.mono fun hepoch => ⟨hp.retains hepoch, hp.current.epoch⟩

theorem Fit.onward {w : W} (h : scan.Fit o next p) (hepoch : o.epoch w = o.epoch p.2) :
    scan.Fit o next (p.1, w) :=
  h.mono fun hsame => ⟨State.Retains.refl p.1, hsame.trans hepoch.symm⟩

end Scan

theorem Series.onwards_eq_append {start : Instant} {limit : Option Positive} {newest : Entry V}
    (hnewest : newest ∈ series.page start limit)
    (hmax : forall e, e ∈ series.page start limit -> e.key ≤ newest.key)
    (hlt : newest.key < next newest.key)
    (hnext : forall e, e ∈ series -> newest.key < e.key -> next newest.key ≤ e.key) :
    series.onwards start = series.page start limit ++ series.onwards (next newest.key) := by
  have hstart := (Series.mem_of_mem_page hnewest).2
  apply (series.ascending_onwards start).eq_of_mem_iff
  · refine List.pairwise_append.mpr
      ⟨series.ascending_page start limit, series.ascending_onwards _, ?_⟩
    intro x hx y hy
    have hy := (Series.mem_onwards.mp hy).2
    exact Std.lt_of_le_of_lt (hmax x hx) (Std.lt_of_lt_of_le hlt hy)
  · intro e
    rw [List.mem_append, Series.mem_onwards, Series.mem_onwards]
    constructor
    · intro h
      rcases h with ⟨he, hge⟩
      rcases Std.lt_trichotomy e.key newest.key with hlt' | heq | hgt
      · exact Or.inl (Series.mem_page_of_lt he hge hnewest hlt')
      · exact Or.inl (Series.eq_of_key_eq (Series.mem_of_mem_page hnewest).1 he heq.symm ▸ hnewest)
      · exact Or.inr ⟨he, hnext e he hgt⟩
    · intro h
      rcases h with he | ⟨he, hge⟩
      · exact Series.mem_of_mem_page he
      · exact ⟨he, Std.le_trans hstart (Std.le_of_lt (Std.lt_of_lt_of_le hlt hge))⟩

structure Scan.Turned (series : Series V) (mark : Bookmark) (turned : Scan V) : Prop where
  ordered : turned.Ordered
  awaited : turned.awaited series = series.onwards mark.start

theorem Page.Of.onwards_eq_nil {page : Page V} (hpage : page.Of series mark)
    (hnewest : page.entries.newest? = none) : series.onwards mark.start = [] := by
  rcases hpage.limit with ⟨limit, hentries⟩
  have hempty : series.page mark.start limit = [] := by
    rw [← hentries]
    exact Series.toList_eq_nil_iff.mpr hnewest
  exact Series.onwards_eq_nil_of_page hempty

theorem Page.Of.mem_of_newest {page : Page V} {newest : Entry V}
    (hpage : page.Of series mark) (hnewest : page.entries.newest? = some newest) :
    newest ∈ series ∧ mark.start ≤ newest.key := by
  rcases hpage.limit with ⟨limit, hentries⟩
  have hlisted : newest ∈ series.page mark.start limit := by
    rw [← hentries]
    exact Series.mem_toList.mpr (Series.newest?_eq_some_iff.mp hnewest).1
  exact Series.mem_of_mem_page hlisted

theorem Page.Of.turned {page : Page V} {newest : Entry V} (hscan : scan.Ordered)
    (hmark : scan.next = some mark) (hpage : page.Of series mark)
    (hnewest : page.entries.newest? = some newest) (hlt : newest.key < next newest.key)
    (hnext : forall e, e ∈ series -> newest.key < e.key -> next newest.key ≤ e.key) :
    Scan.Turned series mark (scan.turned page.entries (Bookmark.after next page.full newest)) := by
  rcases hpage.limit with ⟨limit, hentries⟩
  have hnewest := Series.newest?_eq_some_iff.mp hnewest
  have hmem : forall e, e ∈ page.entries ↔ e ∈ series.page mark.start limit := by
    intro e
    rw [← hentries, Series.mem_toList]
  constructor
  · constructor
    · exact Series.ascending_toList page.entries
    · intro last e hlast he
      have hge := (Series.mem_of_mem_page ((hmem e).mp (Series.mem_toList.mp he))).2
      exact Std.lt_of_lt_of_le (hscan.onward last mark hlast hmark) hge
    · intro last following hlast hfollowing
      have hge := (Series.mem_of_mem_page ((hmem newest).mp hnewest.1)).2
      have hlast := hscan.onward last mark hlast hmark
      rcases Bookmark.after_eq_some_iff.mp hfollowing with ⟨-, rfl⟩
      exact Std.lt_trans (Std.lt_of_lt_of_le hlast hge) hlt
    · intro following e hfollowing he
      rcases Bookmark.after_eq_some_iff.mp hfollowing with ⟨-, rfl⟩
      exact Std.lt_of_le_of_lt (hnewest.2 e (Series.mem_toList.mp he)) hlt
  · show page.entries.toList ++ (Bookmark.after next page.full newest).elim [] _ = _
    cases hfull : page.full with
    | false =>
        rw [hpage.last hfull]
        exact List.append_nil _
    | true =>
        rw [hentries]
        exact (Series.onwards_eq_append ((hmem newest).mp hnewest.1)
          (fun e he => hnewest.2 e ((hmem e).mpr he)) hlt hnext).symm

def Scan.due (scan : Scan V) : Option Bookmark :=
  match scan.buffer with
  | [] => scan.next
  | _ => none

theorem Scan.next_of_due (h : scan.due = some mark) : scan.next = some mark := by
  unfold Scan.due at h
  split at h
  · exact h
  · cases h

/--
What a scan yields, and what is left of it, given the page that it read if it had to read
one, or the failure to read it.
-/
structure Yielded (series : Series V) (next : Instant -> Instant) (scan : Scan V)
    (read : Option (Bookmark × Except QueryError (Page V)))
    (r : Option (Except QueryError (Entry V)) × Scan V) : Prop where
  ordered : r.2.Ordered
  outcome :
    match r.1 with
    | none => scan.awaited series = [] ∧ r.2 = scan.ended
    | some (.ok e) => scan.awaited series = e :: r.2.awaited series
    | some (.error e) => (exists mark, read = some (mark, .error e)) ∧ r.2 = scan.ended
  /-- The next page is the one before, or it follows the newest entry of the page. -/
  next : forall mark, r.2.next = some mark -> read = none ∧ scan.next = some mark ∨
    exists before page newest, read = some (before, .ok page) ∧ newest ∈ page.entries ∧
      newest ∈ series ∧ mark = ⟨next newest.key, some newest.key⟩

theorem pull_buffered {e : Entry V} {rest : List (Entry V)} (hscan : scan.Ordered)
    (hbuffer : scan.buffer = e :: rest) :
    replica.pull scan = pure (some (.ok e), scan.yielded e rest) := by
  rw [pull, hscan.news, hbuffer]

theorem yielded_ended {read : Option (Bookmark × Except QueryError (Page V))}
    (hawaited : scan.awaited series = []) :
    Yielded series next scan read (none, scan.ended) where
  ordered := Scan.ordered_ended scan
  outcome := ⟨hawaited, rfl⟩
  next _ hmark := by cases hmark

theorem yielded_failed (mark : Bookmark) (e : QueryError) :
    Yielded series next scan (some (mark, .error e)) (some (.error e), scan.ended) where
  ordered := Scan.ordered_ended scan
  outcome := ⟨⟨mark, rfl⟩, rfl⟩
  next _ hmark := by cases hmark

theorem yielded_turned {page : Page V} {newest e : Entry V} {rest : List (Entry V)}
    (hbuffer : scan.buffer = []) (hmark : scan.next = some mark) (hnewest : newest ∈ page.entries)
    (hmem : newest ∈ series) (hlist : page.entries.toList = e :: rest)
    (hturned : Scan.Turned series mark
      (scan.turned page.entries (Bookmark.after next page.full newest))) :
    Yielded series next scan (some (mark, .ok page))
      (some (.ok e),
        (scan.turned page.entries (Bookmark.after next page.full newest)).yielded e rest) where
  ordered := hturned.ordered.yielded hlist
  outcome := by
    have hawaited : scan.awaited series = series.onwards mark.start := by
      simp [Scan.awaited, hbuffer, hmark]
    exact hawaited.trans (hturned.awaited.symm.trans (Scan.awaited_yielded hlist))
  next following hfollowing := by
    rcases Bookmark.after_eq_some_iff.mp hfollowing with ⟨-, rfl⟩
    exact Or.inr ⟨mark, page, newest, rfl, hnewest, hmem, rfl⟩

theorem after_turned {w : W} {K : W -> Prop} {page : Page V} {newest : Entry V}
    (hnewest : page.entries.newest? = some newest)
    (hturned : Scan.Turned series mark
      (scan.turned page.entries (Bookmark.after next page.full newest)))
    (hnext : After (replica.nextPage mark page.full newest.key) w (fun r w' =>
      r.map Subtype.val = Bookmark.after next page.full newest ∧ K w')) :
    After (m := StateT (State V) m) (do
      let following <- replica.nextPage mark page.full newest.key
      replica.pull (scan.turned page.entries (following.map Subtype.val))) (s, w)
      (fun r p' => p'.1 = s ∧ K p'.2 ∧ exists e rest, page.entries.toList = e :: rest ∧
        r = (some (.ok e),
          (scan.turned page.entries (Bookmark.after next page.full newest)).yielded e rest)) := by
  apply after_bind.mpr
  apply after_state_monadLift.mpr
  apply After.imp hnext
  intro following w' hpost
  rcases hpost with ⟨hfollowing, hw'⟩
  rw [hfollowing]
  have hcons : page.entries.toList ≠ [] := by
    rw [Ne, Series.toList_eq_nil_iff, hnewest]
    simp
  rcases List.exists_cons_of_ne_nil hcons with ⟨e, rest, hlist⟩
  rw [pull_buffered hturned.ordered hlist]
  exact after_pure.mpr ⟨rfl, hw', e, rest, hlist, rfl⟩

theorem after_pull_of_page (hsource : replica.source.Batches o next) (hready : o.ready p.2)
    (hscan : scan.Ordered)
    (loaded : Bookmark -> Except QueryError (Page V) -> State V × W -> Prop)
    (honward : forall mark r s w w', o.Follows w w' -> loaded mark r (s, w) ->
      loaded mark r (s, w'))
    (hload : forall mark, scan.due = some mark ->
      After (replica.loadPage mark).run p (fun r p' => o.Follows p.2 p'.2 ∧ loaded mark r p' ∧
        WhenOk (fun page => page.Of (o.series p.2) mark) r)) :
    After (replica.pull scan) p (fun r p' =>
      scan.due = none ∧ p' = p ∧ Yielded (o.series p.2) next scan none r ∨
        exists mark page, scan.due = some mark ∧ o.Follows p.2 p'.2 ∧ loaded mark page p' ∧
          Yielded (o.series p.2) next scan (some (mark, page)) r) := by
  cases hbuffer : scan.buffer with
  | cons e rest =>
      have hnone : scan.due = none := by simp [Scan.due, hbuffer]
      rw [pull_buffered hscan hbuffer]
      refine after_pure.mpr (Or.inl ⟨hnone, rfl, hscan.yielded hbuffer, ?_, ?_⟩)
      · exact Scan.awaited_yielded hbuffer
      · exact fun mark hmark => Or.inl ⟨rfl, hmark⟩
  | nil =>
      have hdue : scan.due = scan.next := by simp [Scan.due, hbuffer]
      have hawaited : scan.awaited (o.series p.2) =
          scan.next.elim [] fun mark => (o.series p.2).onwards mark.start := by
        simp [Scan.awaited, hbuffer]
      rw [pull, hscan.news, hbuffer]
      dsimp only
      split
      · rename_i hnext
        rw [hnext] at hawaited
        exact after_pure.mpr (Or.inl ⟨hdue.trans hnext, rfl, yielded_ended hawaited⟩)
      · rename_i mark hmark
        rw [hmark] at hawaited hdue
        apply after_bind.mpr
        apply After.imp (hload mark hdue)
        intro r p₁ hpost
        rcases hpost with ⟨hw₁, hloaded, hr⟩
        cases r with
        | error e =>
            exact after_pure.mpr
              (Or.inr ⟨mark, .error e, hdue, hw₁, hloaded, yielded_failed mark e⟩)
        | ok page =>
            have hpage : page.Of (o.series p.2) mark := hr
            dsimp only
            split
            · rename_i hnewest
              have hnil := hawaited.trans (hpage.onwards_eq_nil hnewest)
              exact after_pure.mpr
                (Or.inr ⟨mark, .ok page, hdue, hw₁, hloaded, yielded_ended hnil⟩)
            · rename_i newest hnewest
              have hmem := hpage.mem_of_newest hnewest
              have hturned := hpage.turned hscan hmark hnewest
                (hsource.lt_next p.2 newest hready hmem.1)
                (fun e he => hsource.next_le p.2 p.2 newest e hready hready hmem.1 he)
              apply After.imp (after_turned hnewest hturned (after_nextPage hsource
                (hw₁.ready hready) (hw₁.series ▸ hmem.1) hmem.2 page.full))
              intro r p₂ hpost
              rcases hpost with ⟨hstay, hw₂, e, rest, hlist, rfl⟩
              have hyielded := yielded_turned hbuffer hmark
                (Series.newest?_eq_some_iff.mp hnewest).1 hmem.1 hlist hturned
              have hloaded₂ := honward mark (.ok page) p₁.1 p₁.2 p₂.2 hw₂ hloaded
              rw [← hstay] at hloaded₂
              exact Or.inr ⟨mark, .ok page, hdue, hw₁.trans hw₂, hloaded₂, hyielded⟩

structure Pulled (o : Outlook W V) (next : Instant -> Instant) (scan : Scan V) (w : W)
    (p' : State V × W) (r : Option (Except QueryError (Entry V)) × Scan V) : Prop where
  ordered : r.2.Ordered
  outcome :
    match r.1 with
    | none => scan.awaited (o.series w) = [] ∧ r.2 = scan.ended
    | some (.ok e) => scan.awaited (o.series w) = e :: r.2.awaited (o.series w)
    | some (.error e) => e ∈ o.since w p'.2 ∧ r.2 = scan.ended
  /-- The next page is the one before, or it follows a loaded entry. -/
  next : forall mark, r.2.next = some mark -> scan.due = none ∧ scan.next = some mark ∨
    scan.due ≠ none ∧ exists newest, newest ∈ p'.1.loaded ∧ newest ∈ o.series w ∧
      mark = ⟨next newest.key, some newest.key⟩

theorem Pulled.fit {r : Option (Except QueryError (Entry V)) × Scan V}
    (h : Pulled o next scan p.2 p' r) (hscan : scan.Fit o next p)
    (hdone : scan.due = none ∧ p' = p ∨ scan.due ≠ none ∧ Advance o p p') :
    r.2.Fit o next p' where
  ordered := h.ordered
  joined := by
    intro mark hmark
    rcases h.next mark hmark with ⟨hnone, hkept⟩ | ⟨-, newest, hloaded, -, rfl⟩
    · rcases hdone with ⟨-, rfl⟩ | ⟨hdue, -⟩
      · exact hscan.joined mark hkept
      · exact absurd hnone hdue
    · intro first hfirst
      cases hfirst
      exact ⟨rfl, Series.contains_of_mem hloaded⟩
  epoch := by
    intro mark hmark
    rcases hdone with ⟨hnone, rfl⟩ | ⟨-, hp⟩
    · rcases h.next mark hmark with ⟨-, hkept⟩ | ⟨hdue, -⟩
      · exact hscan.epoch mark hkept
      · exact absurd hnone hdue
    · exact Or.inr hp.current.epoch

theorem Yielded.pulled_buffered {w : W} {r : Option (Except QueryError (Entry V)) × Scan V}
    (h : Yielded (o.series w) next scan none r) (hdue : scan.due = none) :
    Pulled o next scan w p' r where
  ordered := h.ordered
  outcome := by
    have houtcome := h.outcome
    rcases r with ⟨_ | e | e, left⟩
    · exact houtcome
    · rcases houtcome.1 with ⟨mark, hmark⟩
      cases hmark
    · exact houtcome
  next mark hmark := by
    rcases h.next mark hmark with ⟨-, hkept⟩ | ⟨before, page, newest, hread, -⟩
    · exact Or.inl ⟨hdue, hkept⟩
    · cases hread

theorem Yielded.pulled_read {w : W} {page : Except QueryError (Page V)}
    {r : Option (Except QueryError (Entry V)) × Scan V}
    (h : Yielded (o.series w) next scan (some (mark, page)) r) (hdue : scan.due = some mark)
    (hpage : o.Delivers w p'.2 (fun page => page.Right (o.series w) mark p'.1) page) :
    Pulled o next scan w p' r where
  ordered := h.ordered
  outcome := by
    have houtcome := h.outcome
    rcases r with ⟨_ | e | e, left⟩
    · exact houtcome
    · rcases houtcome with ⟨⟨before, hread⟩, hended⟩
      cases hread
      exact ⟨hpage, hended⟩
    · exact houtcome
  next following hfollowing := by
    rcases h.next following hfollowing with
      ⟨hnone, -⟩ | ⟨before, page, newest, hread, hin, hmem, hgo⟩
    · cases hnone
    · cases hread
      exact Or.inr ⟨by simp [hdue], newest, hpage.loaded newest hin, hmem, hgo⟩

/--
A pull yields the first entry awaited, or a failure on the way to it, whenever a page
that it reads is right; what else holds after the page holds after the pull.
-/
theorem after_pull_of_load (h : replica.Pages o next) (hready : o.ready p.2)
    (hscan : scan.Ordered) {loaded : State V × W -> Prop}
    (honward : forall s w w', o.Follows w w' -> loaded (s, w) -> loaded (s, w'))
    (hload : forall mark, scan.due = some mark ->
      After (replica.loadPage mark).run p (fun r p' => o.Follows p.2 p'.2 ∧ loaded p' ∧
        o.Delivers p.2 p'.2 (fun page => page.Right (o.series p.2) mark p'.1) r)) :
    After (replica.pull scan) p (fun r p' => Pulled o next scan p.2 p' r ∧
      (scan.due = none ∧ p' = p ∨ scan.due ≠ none ∧ loaded p')) := by
  have hread := after_pull_of_page h.source hready hscan
    (fun mark r p' => o.Follows p.2 p'.2 ∧ loaded p' ∧
      o.Delivers p.2 p'.2 (fun page => page.Right (o.series p.2) mark p'.1) r)
    (by
      intro mark r s w w' hw hpost
      rcases hpost with ⟨hfollows, hloaded, hr⟩
      exact ⟨hfollows.trans hw, honward s w w' hw hloaded, hr.earlier hfollows hw⟩)
    (by
      intro mark hmark
      apply After.imp (hload mark hmark)
      intro r p' hpost
      refine ⟨hpost.1, hpost, ?_⟩
      cases r with
      | error e => trivial
      | ok page => exact hpost.2.2.toOf)
  apply After.imp hread
  intro r p' hpost
  rcases hpost with ⟨hdue, hstay, hyielded⟩ | ⟨mark, page, hdue, -, hloaded, hyielded⟩
  · exact ⟨hyielded.pulled_buffered hdue, Or.inl ⟨hdue, hstay⟩⟩
  · exact ⟨hyielded.pulled_read hdue hloaded.2.2, Or.inr ⟨by simp [hdue], hloaded.2.1⟩⟩

theorem after_pull (h : replica.Pages o next) (hl : Listens o replica.listener)
    (hready : o.ready p.2) (hscan : scan.Fit o next p) (htrusted : scan.due ≠ none -> Trusted o p) :
    After (replica.pull scan) p (fun r p' => Pulled o next scan p.2 p' r ∧ r.2.Fit o next p' ∧
      (scan.due = none ∧ p' = p ∨ scan.due ≠ none ∧ Advance o p p')) := by
  have hload : forall mark, scan.due = some mark ->
      After (replica.loadPage mark).run p (fun r p' => o.Follows p.2 p'.2 ∧ Advance o p p' ∧
        o.Delivers p.2 p'.2 (fun page => page.Right (o.series p.2) mark p'.1) r) := by
    intro mark hmark
    have hnext := Scan.next_of_due hmark
    apply After.imp (after_loadPage h hl hready (htrusted (by simp [hmark]))
      (hscan.joined mark hnext) (hscan.epoch mark hnext))
    exact fun r p' hr => ⟨hr.1.follows, hr.1, hr.2⟩
  apply After.imp (after_pull_of_load h hready hscan.ordered
    (fun s w w' hw hs => hs.progress (hs.current.toSettled.onward hw)) hload)
  intro r p' hpost
  rcases hpost with ⟨hpulled, hdone⟩
  exact ⟨hpulled, hpulled.fit hscan hdone, hdone⟩

end Replica
end AsOf
