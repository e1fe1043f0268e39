import AsOf.Cache
import AsOf.Proofs.Ledger
import AsOf.Proofs.Replica.Cost
import AsOf.Proofs.Replica.Scan

/-!
# Scans load lazily

Over a source whose batches are the pages of one series, a scan loads a page only when an entry is
pulled that no page before it holds.  How many pages it has loaded therefore follows from how
often it was pulled, whatever the replica came to remember between the pulls.  A range with a
greatest number of results pulls its scan no more often than that.
-/

namespace AsOf

/-!
## Pages of a fixed size
-/

namespace Series

variable {V : Type} {s : Series V} {start : Instant} {limit : Option Positive}

def stride (s : Series V) (limit : Option Positive) : Nat :=
  limit.elim (s.size + 1) Positive.val

theorem stride_pos (s : Series V) (limit : Option Positive) : 0 < s.stride limit := by
  cases limit with
  | none => exact Nat.succ_pos _
  | some size => exact size.pos

theorem length_onwards_le (s : Series V) (start : Instant) : (s.onwards start).length ≤ s.size := by
  rw [onwards_eq_filter, ← length_toList]
  exact List.length_filter_le _ _

theorem page_eq_take (s : Series V) (start : Instant) (limit : Option Positive) :
    s.page start limit = (s.onwards start).take (s.stride limit) := by
  cases limit with
  | none => exact (List.take_of_length_le (Nat.le_succ_of_le (s.length_onwards_le start))).symm
  | some size => rfl

theorem full_eq (s : Series V) (start : Instant) (limit : Option Positive) :
    (limit.any fun size => size.val ≤ (s.page start limit).length) =
      decide (s.stride limit ≤ (s.onwards start).length) := by
  cases limit with
  | none =>
      have hlt : (s.onwards start).length < s.stride none :=
        Nat.lt_succ_of_le (s.length_onwards_le start)
      simp [Nat.not_le.mpr hlt]
  | some size =>
      simp only [Option.any_some, length_page, Nat.le_min, Nat.le_refl, true_and]
      rfl

end Series

namespace Source

/-- The batches that it takes to come by a number of entries. -/
def batchesFor (limit : Option Positive) (count : Nat) : Nat :=
  limit.elim (min count 1) fun size => (count + size.val - 1) / size.val

/-- The batches that it takes to see that there are no more than a number of entries. -/
def batchesThrough (limit : Option Positive) (count : Nat) : Nat :=
  limit.elim 1 fun size => count / size.val + 1

variable {V : Type} {s : Series V} {limit : Option Positive} {count : Nat}

theorem batchesFor_eq (hcount : count ≤ s.size) :
    batchesFor limit count = (count + s.stride limit - 1) / s.stride limit := by
  cases limit with
  | some size => rfl
  | none =>
      show min count 1 = (count + (s.size + 1) - 1) / (s.size + 1)
      cases count with
      | zero => exact (Nat.div_eq_of_lt (by omega)).symm
      | succ count =>
          rw [Nat.min_eq_right (Nat.succ_pos count)]
          exact (Nat.div_eq_of_lt_le (by omega) (by omega)).symm

theorem batchesThrough_eq (hcount : count ≤ s.size) :
    batchesThrough limit count = count / s.stride limit + 1 := by
  cases limit with
  | some size => rfl
  | none =>
      show 1 = count / (s.size + 1) + 1
      rw [Nat.div_eq_of_lt (Nat.lt_succ_of_le hcount)]

theorem batchesFor_zero (limit : Option Positive) : batchesFor limit 0 = 0 := by
  cases limit with
  | none => rfl
  | some size =>
      have hpos := size.pos
      exact Nat.div_eq_of_lt (by omega)

theorem batchesThrough_le {more : Nat} (limit : Option Positive) (hlt : count < more) :
    batchesThrough limit count ≤ batchesFor limit more := by
  cases limit with
  | none =>
      show 1 ≤ min more 1
      omega
  | some size =>
      have hpos := size.pos
      show count / size.val + 1 ≤ (more + size.val - 1) / size.val
      rw [← Nat.add_div_right count hpos]
      exact Nat.div_le_div_right (by omega)

theorem batchesFor_le {more : Nat} (limit : Option Positive) (hle : count ≤ more) :
    batchesFor limit count ≤ batchesFor limit more := by
  cases limit with
  | none =>
      show min count 1 ≤ min more 1
      omega
  | some size => exact Nat.div_le_div_right (by omega)

end Source

variable {m : Type -> Type} [Monad m] {V W : Type} [Performs m W]

namespace Replica

open Outlook Source

variable {o : Outlook W V} {next : Instant -> Instant} {replica : Replica m V} {s : State V}
  {calls : List Call} {w : W} {key : Instant} {mark : Bookmark} {series : Series V}
  {limit : Option Positive} {scan : Scan V} {count loads : Nat} {e : Entry V}
  {rest : List (Entry V)}

/-!
## What a scan has loaded
-/

structure Scan.Drawn (series : Series V) (limit : Option Positive) (key : Instant)
    (count loads : Nat) (scan : Scan V) : Prop where
  ordered : scan.Ordered
  awaited : scan.awaited series = (series.onwards key).drop count
  /-- All pages before the next one were full. -/
  going : scan.next ≠ none -> loads * series.stride limit = count + scan.buffer.length ∧
    scan.buffer.length < series.stride limit ∧
    loads * series.stride limit ≤ (series.onwards key).length
  /-- The last page was begun. -/
  done : scan.next = none -> loads = (series.onwards key).length / series.stride limit + 1 ∧
    (series.onwards key).length / series.stride limit * series.stride limit < count

namespace Scan

theorem drawn_startAt (series : Series V) (limit : Option Positive) (key : Instant) :
    Drawn series limit key 0 0 (startAt key) where
  ordered := ordered_startAt key
  awaited := rfl
  going _ := ⟨by simp [startAt], series.stride_pos limit, by simp⟩
  done hnone := by cases hnone

theorem Drawn.loads_within (h : Drawn series limit key count loads scan)
    (hcount : count ≤ (series.onwards key).length) : loads = batchesFor limit count := by
  have hpos := series.stride_pos limit
  rw [batchesFor_eq (Nat.le_trans hcount (series.length_onwards_le key))]
  apply Eq.symm
  cases hnext : scan.next with
  | some mark =>
      rcases h.going (by simp [hnext]) with ⟨hpaid, hbuffer, -⟩
      apply Nat.div_eq_of_lt_le
      · omega
      · rw [Nat.succ_mul]
        omega
  | none =>
      rcases h.done hnext with ⟨rfl, hbegun⟩
      have hlast := Nat.lt_div_mul_add (a := (series.onwards key).length) hpos
      apply Nat.div_eq_of_lt_le
      · rw [Nat.succ_mul]
        omega
      · rw [Nat.succ_mul, Nat.succ_mul]
        omega

theorem Drawn.loads_through (h : Drawn series limit key count loads scan)
    (hcount : (series.onwards key).length < count) :
    loads = batchesThrough limit (series.onwards key).length := by
  rw [batchesThrough_eq (series.length_onwards_le key)]
  cases hnext : scan.next with
  | some mark =>
      rcases h.going (by simp [hnext]) with ⟨hpaid, -, hle⟩
      omega
  | none => exact (h.done hnext).1

theorem Drawn.head? (h : Drawn series limit key count loads scan) :
    (scan.awaited series).head? = (series.onwards key)[count]? := by
  rw [h.awaited, List.head?_drop]

theorem Drawn.buffered (h : Drawn series limit key count loads scan)
    (hbuffer : scan.buffer = e :: rest) :
    Drawn series limit key (count + 1) loads (scan.yielded e rest) where
  ordered := h.ordered.yielded hbuffer
  awaited := by
    have hawaited := h.awaited
    rw [Scan.awaited_yielded hbuffer] at hawaited
    rw [← List.tail_drop, ← hawaited]
    rfl
  going hnext := by
    rcases h.going hnext with ⟨hpaid, hlt, hle⟩
    have hlength : scan.buffer.length = rest.length + 1 := by simp [hbuffer]
    refine ⟨?_, ?_, hle⟩
    · show _ = count + 1 + rest.length
      omega
    · show rest.length < _
      omega
  done hnext := ⟨(h.done hnext).1, Nat.lt_succ_of_lt (h.done hnext).2⟩

theorem Drawn.nothing (h : Drawn series limit key count loads scan)
    (hbuffer : scan.buffer = []) (hnext : scan.next = none) :
    Drawn series limit key (count + 1) loads scan.ended where
  ordered := ordered_ended scan
  awaited := by
    have hnil : (series.onwards key).drop count = [] := by
      rw [← h.awaited]
      simp [Scan.awaited, hbuffer, hnext]
    rw [← List.tail_drop, hnil]
    rfl
  going hmore := absurd rfl hmore
  done _ := ⟨(h.done hnext).1, Nat.lt_succ_of_lt (h.done hnext).2⟩

/-- An empty page is read only if all pages before it were full. -/
theorem Drawn.emptied (h : Drawn series limit key count loads scan)
    (hbuffer : scan.buffer = []) (hmark : scan.next = some mark)
    (hempty : series.onwards mark.start = []) :
    Drawn series limit key (count + 1) (loads + 1) scan.ended := by
  have hnil : (series.onwards key).drop count = [] := by
    rw [← h.awaited]
    simp [Scan.awaited, hbuffer, hmark, hempty]
  rcases h.going (by simp [hmark]) with ⟨hpaid, -, hle⟩
  have hlength := List.drop_eq_nil_iff.mp hnil
  have hall : (series.onwards key).length = loads * series.stride limit := by
    simp only [hbuffer, List.length_nil] at hpaid
    omega
  refine ⟨ordered_ended scan, ?_, fun hmore => absurd rfl hmore, fun _ => ?_⟩
  · rw [← List.tail_drop, hnil]
    rfl
  · rw [hall, Nat.mul_div_cancel loads (series.stride_pos limit)]
    exact ⟨rfl, by omega⟩

theorem Drawn.turned {page : Page V} {newest : Entry V}
    (h : Drawn series limit key count loads scan) (hbuffer : scan.buffer = [])
    (hmark : scan.next = some mark) (hpage : page.entries.toList = series.page mark.start limit)
    (hfull : page.full = decide (series.stride limit ≤ (series.onwards mark.start).length))
    (hturned : Turned series mark
      (scan.turned page.entries (Bookmark.after next page.full newest)))
    (hlist : page.entries.toList = e :: rest) :
    Drawn series limit key (count + 1) (loads + 1)
      ((scan.turned page.entries (Bookmark.after next page.full newest)).yielded e rest) := by
  have hpos := series.stride_pos limit
  have hahead : series.onwards mark.start = (series.onwards key).drop count := by
    rw [← h.awaited]
    simp [Scan.awaited, hbuffer, hmark]
  rcases h.going (by simp [hmark]) with ⟨hpaid, -, hle⟩
  simp only [hbuffer, List.length_nil, Nat.add_zero] at hpaid
  have hlength : rest.length + 1 =
      min (series.stride limit) ((series.onwards key).length - count) := by
    rw [← List.length_cons, ← hlist, hpage, Series.page_eq_take, List.length_take, hahead,
      List.length_drop]
  rw [hahead, List.length_drop] at hfull
  refine ⟨hturned.ordered.yielded hlist, ?_, ?_, ?_⟩
  · have hawaited := hturned.awaited
    rw [Scan.awaited_yielded hlist, hahead] at hawaited
    rw [← List.tail_drop, ← hawaited]
    rfl
  · intro hmore
    have hle' : series.stride limit ≤ (series.onwards key).length - count := by
      cases hcase : page.full with
      | true => exact of_decide_eq_true (hfull.symm.trans hcase)
      | false => exact absurd (by simp [Scan.yielded, Scan.turned, Bookmark.after, hcase]) hmore
    rw [Nat.succ_mul]
    refine ⟨?_, ?_, by omega⟩
    · show _ = count + 1 + rest.length
      omega
    · show rest.length < _
      omega
  · intro hnone
    have hshort : (series.onwards key).length - count < series.stride limit := by
      cases hcase : page.full with
      | false => exact Nat.not_le.mp (of_decide_eq_false (hfull.symm.trans hcase))
      | true => simp [Scan.yielded, Scan.turned, Bookmark.after, hcase] at hnone
    have hdiv : (series.onwards key).length / series.stride limit = loads := by
      apply Nat.div_eq_of_lt_le
      · omega
      · rw [Nat.succ_mul]
        omega
    rw [hdiv]
    exact ⟨rfl, by omega⟩

end Scan

/-!
## Pulling
-/

/-- A listener that leaves the world as requests may, whatever it does to the replica. -/
def Obliges (o : Outlook W V) (listener : Entry V -> StateT (State V) m Unit) : Prop :=
  forall e s w, o.ready w -> After (listener e) (s, w) (fun _ p' => o.Follows w p'.2)

/-- A replica of a source whose batches are the pages of one series, in any order. -/
structure Exact (replica : Replica m V) (o : Outlook W V) (next : Instant -> Instant)
    (series : Series V) (limit : Option Positive) : Prop extends replica.Pages o next where
  still : o.Still series
  limited : forall w, o.ready w -> o.limit w = limit
  batchFrom : forall w start, o.ready w ->
    After (replica.source.batchFrom start).run w (fun r _ =>
      WhenOk (fun batch => batch.Perm (series.page start limit)) r)

theorem after_nextPage_charged (replica : Replica m V) (mark : Bookmark) (full : Bool)
    (newest : Instant) (q : List Call × W) :
    After (replica.recorded.nextPage mark full newest) q (fun _ q' => Charged 0 0 q.1 q'.1) := by
  cases full with
  | false => exact after_pure.mpr (Charged.refl q.1)
  | true => exact after_onward_charged replica mark newest q

theorem of_exact {page : Page V} (hentries : page.entries.toList = series.page mark.start limit)
    (hfull : page.full = decide (series.stride limit ≤ (series.onwards mark.start).length)) :
    page.Of series mark where
  limit := ⟨limit, hentries⟩
  last hlast := by
    have hshort := Nat.not_le.mp (of_decide_eq_false (hfull.symm.trans hlast))
    rw [hentries, Series.page_eq_take]
    exact List.take_of_length_le (Nat.le_of_lt hshort)

section Exact

variable (h : replica.Exact o next series limit) (hl : Obliges o replica.listener)

include h

theorem after_fetch_exact (hready : o.ready w) (mark : Bookmark) :
    After (replica.recorded.fetch mark).run (s, (calls, w)) (fun r p' =>
      Charged 0 1 calls p'.2.1 ∧ o.Follows w p'.2.2 ∧ exists page, r = .ok page ∧
        page.entries.toList = series.page mark.start limit ∧
        page.full = decide (series.stride limit ≤ (series.onwards mark.start).length)) := by
  have hsource := h.source.recorded
  have hright : After (replica.recorded.source.batchFrom mark.start).run (calls, w) (fun r q =>
      o.recorded.Follows (calls, w) q ∧ o.recorded.Delivers (calls, w) q
        (fun batch => batch.Perm (series.page mark.start limit))
        (r.mapError (.load mark.start))) := by
    apply Call.after_recorded.mpr
    apply After.imp ((h.source.batchFrom w mark.start hready).and
      (h.batchFrom w mark.start hready))
    intro r w' hpost
    rcases hpost with ⟨⟨hw', hr⟩, hperm⟩
    refine ⟨hw'.recorded, ?_⟩
    cases r with
    | error cause => exact hr
    | ok batch => exact hperm
  apply After.imp ((after_fetch_charged replica mark (s, (calls, w))).and
    (after_fetch_of (p := (s, (calls, w))) hsource hready hright))
  intro r p' hpost
  rcases hpost with ⟨hcharged, hw', hr, -⟩
  have hw' := hw'.unrecorded
  rcases hr.exists_ok (h.still.failures _ (hw'.ready hready)) with
    ⟨page, rfl, batch, hperm, -, rfl⟩
  have hlimit : o.recorded.limit (calls, w) = limit := h.limited w hready
  refine ⟨hcharged, hw', _, rfl, (Series.Batch.of_perm hperm).toList_kept, ?_⟩
  rw [hlimit, ← Series.full_eq, hperm.length_eq]

include hl

theorem after_loadPage_exact (hready : o.ready w) (mark : Bookmark) :
    After (replica.recorded.loadPage mark).run (s, (calls, w)) (fun r p' =>
      Charged 0 1 calls p'.2.1 ∧ o.Follows w p'.2.2 ∧ exists page, r = .ok page ∧
        page.entries.toList = series.page mark.start limit ∧
        page.full = decide (series.stride limit ≤ (series.onwards mark.start).length)) := by
  unfold loadPage
  apply after_except_bind.mpr
  apply after_except_lift.mpr
  apply After.imp (after_sync_recorded h.toPages hready)
  intro _ p₁ hpost
  rcases p₁ with ⟨s₁, calls₁, w₁⟩
  rcases hpost with ⟨-, rfl, hw₁⟩
  unfold announcing
  apply after_except_mk.mpr
  apply after_bind.mpr
  apply After.imp (after_fetch_exact h (hw₁.ready hready) mark)
  intro r p₂ hpost
  rcases p₂ with ⟨s₂, calls₂, w₂⟩
  rcases hpost with ⟨hcharged, hw₂, hpage⟩
  have hw := hw₁.trans hw₂
  apply after_bind.mpr
  apply After.imp (after_recorded_announce (K := fun p => o.Follows w p.2)
    (fun e p hp => After.imp (hl e p.1 p.2 (hp.ready hready)) fun _ _ hp' => hp.trans hp') hw)
  intro _ p₃ hpost
  rcases hpost with ⟨hcalls, hw₃⟩
  exact after_pure.mpr ⟨hcalls ▸ hcharged, hw₃, hpage⟩

/-- A pull hands out the entry that the count stands at, and pays for the page that it reads. -/
theorem after_pull_drawn {p : State V × (List Call × W)} (hready : o.ready p.2.2)
    (hscan : scan.Drawn series limit key count loads) :
    After (replica.recorded.pull scan) p (fun r p' =>
      o.Follows p.2.2 p'.2.2 ∧ r.1 = ((series.onwards key)[count]?).map .ok ∧
        exists more, Charged 0 more p.2.1 p'.2.1 ∧
          r.2.Drawn series limit key (count + 1) (loads + more)) := by
  rcases p with ⟨s, calls, w⟩
  have hhead := hscan.head?
  cases hbuffer : scan.buffer with
  | cons e rest =>
      rw [pull_buffered hscan.ordered hbuffer]
      rw [Scan.awaited_yielded hbuffer] at hhead
      refine after_pure.mpr ⟨Follows.refl o w, ?_, 0, Charged.refl calls, hscan.buffered hbuffer⟩
      rw [← hhead]
      rfl
  | nil =>
      rw [pull, hscan.ordered.news, hbuffer]
      dsimp only
      split
      · rename_i hnext
        refine after_pure.mpr
          ⟨Follows.refl o w, ?_, 0, Charged.refl calls, hscan.nothing hbuffer hnext⟩
        rw [← hhead]
        simp [Scan.awaited, hbuffer, hnext]
      · rename_i mark hmark
        apply after_bind.mpr
        apply After.imp (after_loadPage_exact h hl hready mark)
        intro r p₁ hpost
        rcases p₁ with ⟨s₁, calls₁, w₁⟩
        rcases hpost with ⟨hcharged, hw₁, page, rfl, hentries, hfull⟩
        have hawaited : scan.awaited series = series.onwards mark.start := by
          simp [Scan.awaited, hbuffer, hmark]
        have hpage := of_exact hentries hfull
        dsimp only
        split
        · rename_i hnewest
          have hempty := hpage.onwards_eq_nil hnewest
          refine after_pure.mpr ⟨hw₁, ?_, 1, hcharged, hscan.emptied hbuffer hmark hempty⟩
          rw [← hhead, hawaited, hempty]
          rfl
        · rename_i newest hnewest
          have hready₁ := hw₁.ready hready
          have hseries := h.still.series w₁ hready₁
          have hmem := hpage.mem_of_newest hnewest
          have hin : newest ∈ o.series w₁ := hseries.symm ▸ hmem.1
          have hturned := hpage.turned hscan.ordered hmark hnewest
            (h.source.lt_next w₁ newest hready₁ hin)
            (fun e he => h.source.next_le w₁ w₁ newest e hready₁ hready₁ hin (hseries.symm ▸ he))
          have hnext := (after_nextPage h.source.recorded (w := (calls₁, w₁)) hready₁ hin hmem.2
            page.full).and (after_nextPage_charged replica mark page.full newest.key (calls₁, w₁))
          apply After.imp (after_turned (K := fun q => o.Follows w₁ q.2 ∧ Charged 0 0 calls₁ q.1)
            hnewest hturned (After.imp hnext fun _ _ hpost =>
              ⟨hpost.1.1, hpost.1.2.unrecorded, hpost.2⟩))
          intro r p₂ hpost
          rcases hpost with ⟨-, ⟨hw₂, hnone⟩, e, rest, hlist, rfl⟩
          refine ⟨hw₁.trans hw₂, ?_, 1, hcharged.trans hnone,
            hscan.turned hbuffer hmark hentries hfull hturned hlist⟩
          rw [← hhead, hawaited, ← hturned.awaited, Scan.awaited_yielded hlist]
          rfl

end Exact

/-!
## Feeds that are pulled again and again
-/

/-- A feed in use, with the calls that its pulls have made and what they have handed out. -/
structure Browse (σ V : Type) where
  feed : σ
  calls : List Call := []
  items : List (Except QueryError (Entry V)) := []

def Browse.step {σ : Type} (pull : Pull (StateT (State V) (StateT (List Call) m)) (Entry V) σ)
    (x : Browse σ V) (p : State V × W) : Browse σ V :=
  let r := perform (pull x.feed) (p.1, (x.calls, p.2))
  { feed := r.1.2, calls := r.2.2.1, items := x.items ++ r.1.1.toList }

def browse {σ : Type} (pull : Pull (StateT (State V) (StateT (List Call) m)) (Entry V) σ)
    (feed : σ) (moments : List (State V × W)) : Browse σ V :=
  moments.foldl (Browse.step pull) { feed }

structure Browse.Drawn (series : Series V) (limit : Option Positive) (key : Instant)
    (count : Nat) (x : Browse (Scan V) V) : Prop where
  feed : x.feed.Drawn series limit key count (Source.loads x.calls)
  probes : Source.probes x.calls = 0
  items : x.items = ((series.onwards key).take count).map .ok

structure Browse.Ranged (series : Series V) (limit : Option Positive) (key : Instant)
    (results : Nat) (x : Browse (Query.Range (Scan V)) V) : Prop where
  scan : exists count, x.feed.scan.Drawn series limit key count (Source.loads x.calls) ∧
    count + x.feed.remaining ≤ results
  probes : Source.probes x.calls = 0

theorem Browse.drawn_new (series : Series V) (limit : Option Positive) (key : Instant) :
    ({ feed := .startAt key } : Browse (Scan V) V).Drawn series limit key 0 where
  feed := Scan.drawn_startAt series limit key
  probes := rfl
  items := rfl

theorem after_between_recorded (replica : Replica m V) (config : Cache.Config) (options : Options)
    (first last : Instant) :
    After (((Cache.ofReplica config replica.recorded).query options).between first last)
      (s, (calls, w)) (fun range p' => p'.2.1 = calls ∧ range.scan = .startAt first ∧
        range.remaining = options.maxResults.getD Count.limit) := by
  have hadjust : After (((Cache.ofReplica config replica.recorded).query options).view.adjust
      options last) (s, (calls, w)) (fun _ p' => p'.2.1 = calls) := by
    unfold View.adjust
    split
    · exact after_pure.mpr rfl
    · unfold Horizon.clamp
      apply after_bind.mpr
      apply Horizon.after_hoisted.mpr
      apply Horizon.after_hoisted.mpr
      exact after_of_forall fun _ _ => after_pure.mpr rfl
  unfold Query.between
  apply after_bind.mpr
  apply After.imp hadjust
  intro _ p' hcalls
  apply after_bind.mpr
  apply after_pure.mpr
  exact after_pure.mpr ⟨hcalls, rfl, rfl⟩

section Browse

variable (h : replica.Exact o next series limit) (hl : Obliges o replica.listener)

include h hl

theorem Browse.Drawn.step {x : Browse (Scan V) V} (hx : x.Drawn series limit key count)
    {p : State V × W} (hready : o.ready p.2) :
    (x.step replica.recorded.pull p).Drawn series limit key (count + 1) := by
  rcases after_pull_drawn h hl (p := (p.1, (x.calls, p.2))) hready hx.feed with
    ⟨-, hitem, more, hcharged, hdrawn⟩
  refine ⟨?_, ?_, ?_⟩
  · exact hcharged.loads ▸ hdrawn
  · exact hcharged.probes.trans hx.probes
  · show x.items ++ Option.toList _ = _
    rw [hitem, hx.items, List.take_add_one, List.map_append]
    cases (series.onwards key)[count]? <;> rfl

theorem Browse.Drawn.run {x : Browse (Scan V) V} (hx : x.Drawn series limit key count)
    {moments : List (State V × W)} (hready : forall p, p ∈ moments -> o.ready p.2) :
    (moments.foldl (Browse.step replica.recorded.pull) x).Drawn series limit key
      (count + moments.length) := by
  induction moments generalizing x count with
  | nil => exact hx
  | cons p rest ih =>
      have hstep := hx.step h hl (hready p (List.mem_cons_self ..))
      have hrest := ih hstep fun q hq => hready q (List.mem_cons_of_mem p hq)
      rw [List.length_cons, Nat.add_comm rest.length, ← Nat.add_assoc]
      exact hrest

/-- A range pulls its scan at most once for each of its pulls, and no more than it may. -/
theorem Browse.Ranged.step {x : Browse (Query.Range (Scan V)) V} {results : Nat}
    (hx : x.Ranged series limit key results) {p : State V × W} (hready : o.ready p.2)
    (config : Cache.Config) (options : Options) :
    (x.step ((Cache.ofReplica config replica.recorded).query options).pull p).Ranged
      series limit key results := by
  rcases hx.scan with ⟨count, hdrawn, hle⟩
  suffices hpull : After (((Cache.ofReplica config replica.recorded).query options).pull x.feed)
      (p.1, (x.calls, p.2)) (fun r p' => exists count more, Charged 0 more x.calls p'.2.1 ∧
        r.2.scan.Drawn series limit key count (Source.loads x.calls + more) ∧
        count + r.2.remaining ≤ results) by
    rcases hpull with ⟨count', more, hcharged, hdrawn', hle'⟩
    exact ⟨⟨count', hcharged.loads ▸ hdrawn', hle'⟩, hcharged.probes.trans hx.probes⟩
  unfold Query.pull
  dsimp only
  split
  · exact after_pure.mpr ⟨count, 0, Charged.refl _, hdrawn, hle⟩
  · rename_i hmore
    split
    · exact after_pure.mpr ⟨count, 0, Charged.refl _, hdrawn, by dsimp only; omega⟩
    · apply after_bind.mpr
      apply After.imp (after_pull_drawn h hl (p := (p.1, (x.calls, p.2))) hready hdrawn)
      intro r p' hpost
      rcases r with ⟨item, scan⟩
      rcases hpost with ⟨-, -, more, hcharged, hscan⟩
      have hleft : count + 1 + (x.feed.remaining - 1) ≤ results := by omega
      dsimp only
      split
      · split <;> exact after_pure.mpr ⟨count + 1, more, hcharged, hscan, hleft⟩
      · exact after_pure.mpr ⟨count + 1, more, hcharged, hscan, hleft⟩

theorem Browse.Ranged.run {x : Browse (Query.Range (Scan V)) V} {results : Nat}
    (hx : x.Ranged series limit key results) {moments : List (State V × W)}
    (hready : forall p, p ∈ moments -> o.ready p.2) (config : Cache.Config) (options : Options) :
    (moments.foldl
      (Browse.step ((Cache.ofReplica config replica.recorded).query options).pull) x).Ranged
      series limit key results := by
  induction moments generalizing x with
  | nil => exact hx
  | cons p rest ih =>
      exact ih (hx.step h hl (hready p (List.mem_cons_self ..)) config options)
        fun q hq => hready q (List.mem_cons_of_mem p hq)

omit h hl in
theorem Browse.Ranged.loads_le {x : Browse (Query.Range (Scan V)) V} {results : Nat}
    (hx : x.Ranged series limit key results) :
    Source.loads x.calls ≤ batchesFor limit results := by
  rcases hx.scan with ⟨count, hdrawn, hle⟩
  by_cases hcount : count ≤ (series.onwards key).length
  · rw [hdrawn.loads_within hcount]
    exact batchesFor_le limit (by omega)
  · rw [hdrawn.loads_through (Nat.not_le.mp hcount)]
    exact batchesThrough_le limit (by omega)

end Browse

/--
A scan that is pulled so many times, at whatever moments, hands out as many entries of the series
as there are, has made no probe, and has loaded just the batches that hold them; once it has ended,
one more if the last of them was full.  A range with a greatest number of results is begun without
a call, loads no more batches than hold that many entries, however often it is pulled, and does
not touch the engine.
-/
theorem scans_load_lazily (h : replica.Exact o next series limit)
    (hl : Obliges o replica.listener) :
    (forall (key : Instant) (moments : List (State V × W)),
      (forall p, p ∈ moments -> o.ready p.2) ->
      let x := browse replica.recorded.pull (.startAt key) moments
      let awaited := series.onwards key
      x.items = (awaited.take moments.length).map .ok ∧ Source.probes x.calls = 0 ∧
        (moments.length ≤ awaited.length ->
          Source.loads x.calls = batchesFor limit moments.length) ∧
        (awaited.length < moments.length ->
          Source.loads x.calls = batchesThrough limit awaited.length)) ∧
    forall (config : Cache.Config) (options : Options) (results : Nat) (engine : Engine.State V),
      options.maxResults = some results ->
      let query := (Cache.ofReplica config replica.recorded).query options
      (forall (first last : Instant) (p : State V × W),
        After (liftM (query.between first last) :
            StateT (Engine.State V) (StateT (State V) (StateT (List Call) m)) _)
          (engine, (p.1, ([], p.2))) (fun range q => q.1 = engine ∧ q.2.2.1 = [] ∧
            forall moments : List (State V × W), (forall p, p ∈ moments -> o.ready p.2) ->
              let x := browse query.pull range moments
              Source.probes x.calls = 0 ∧ Source.loads x.calls ≤ batchesFor limit results ∧
                (results = 0 -> Source.loads x.calls = 0))) ∧
      forall (range : Query.Range (Scan V)) (p : State V × (List Call × W)),
        After (liftM (query.pull range) :
            StateT (Engine.State V) (StateT (State V) (StateT (List Call) m)) _)
          (engine, p) (fun _ q => q.1 = engine) := by
  constructor
  · intro key moments hready x awaited
    have hdrawn : x.Drawn series limit key (0 + moments.length) :=
      (Browse.drawn_new series limit key).run h hl hready
    rw [Nat.zero_add] at hdrawn
    exact ⟨hdrawn.items, hdrawn.probes, hdrawn.feed.loads_within, hdrawn.feed.loads_through⟩
  · intro config options results engine hresults query
    constructor
    · intro first last p
      apply after_state_monadLift.mpr
      apply After.imp (after_between_recorded replica config options first last)
      intro range q hpost
      rcases hpost with ⟨hcalls, hscan, hremaining⟩
      refine ⟨rfl, hcalls, fun moments hready => ?_⟩
      have hnew : ({ feed := range } : Browse (Query.Range (Scan V)) V).Ranged series limit first
          results := by
        refine ⟨⟨0, ?_, ?_⟩, rfl⟩
        · show range.scan.Drawn series limit first 0 0
          rw [hscan]
          exact Scan.drawn_startAt series limit first
        · show 0 + range.remaining ≤ results
          rw [hremaining, hresults]
          exact Nat.le_of_eq (Nat.zero_add results)
      have hranged := hnew.run h hl hready config options
      refine ⟨hranged.probes, hranged.loads_le, ?_⟩
      rintro rfl
      exact Nat.le_zero.mp (batchesFor_zero limit ▸ hranged.loads_le)
    · intro range p
      exact after_state_monadLift.mpr (after_of_forall fun _ _ => rfl)

theorem exact_ledger (series : Series V) (limit : Option Positive) :
    (Ledger.plain : Replica _ V).Exact (Ledger.outlook (Ledger.Cuts series limit))
      (fun key => key.shift 1) series limit where
  toPages := (Ledger.reads_replica (Ledger.closed_cuts series limit) {}).pages
  still := ⟨fun _ hcuts => hcuts.series, fun _ hcuts => hcuts.failures⟩
  limited _ hcuts := hcuts.limit
  batchFrom ledger start hcuts := by
    show WhenOk _ (if ledger.fails then _ else Except.ok (ledger.series.page start ledger.limit))
    rw [hcuts.series, hcuts.limit]
    split
    · trivial
    · exact List.Perm.refl _

def billed : Replica (StateT (List Call) (StateM (Ledger Int))) Int :=
  Ledger.plain.recorded

def byTwo : State Int × Ledger Int :=
  ({ epoch := 0, bound := none }, .fourByTwo)

def scanned (count : Nat) : Browse (Scan Int) Int :=
  browse billed.pull (.startAt (.ofNanos 10)) (List.replicate count byTwo)

def firstThree : Query (StateT (State Int) (StateT (List Call) (StateM (Ledger Int)))) Int :=
  (Cache.ofReplica { replica := billed.settings } billed).query { maxResults := some 3 }

def unshaped : Engine.State Int :=
  .windowed { maximum := none, epoch := 0 }

theorem scans_load_lazily_on_ledger :
    (Source.loads (scanned 3).calls = 2 ∧ Source.loads (scanned 4).calls = 2 ∧
      Source.loads (scanned 5).calls = 3 ∧ Source.probes (scanned 5).calls = 0) ∧
    After (liftM (firstThree.between (.ofNanos 5) (.ofNanos 50)) :
        StateT (Engine.State Int) (StateT (State Int) (StateT (List Call) (StateM (Ledger Int)))) _)
      (unshaped, (byTwo.1, ([], byTwo.2))) (fun range q => q.1 = unshaped ∧
        Source.loads (browse firstThree.pull range (List.replicate 9 byTwo)).calls ≤ 2) := by
  have hexact := exact_ledger Ledger.fourByTwo.series (some ⟨2, by decide⟩)
  have hquiet : Obliges (Ledger.outlook (Ledger.Cuts Ledger.fourByTwo.series (some ⟨2, by decide⟩)))
      (Ledger.plain : Replica _ Int).listener :=
    fun _ _ w _ => Follows.refl _ w
  have hready : forall count p, p ∈ List.replicate count byTwo ->
      Ledger.Cuts Ledger.fourByTwo.series (some ⟨2, by decide⟩) p.2 := by
    intro count p hp
    rw [List.eq_of_mem_replicate hp]
    exact { toHolds := Ledger.holds_fourByTwo, limit := rfl }
  rcases scans_load_lazily hexact hquiet with ⟨hscans, hranges⟩
  have hscanned := fun count => hscans (.ofNanos 10) (List.replicate count byTwo) (hready count)
  refine ⟨⟨?_, ?_, ?_, ?_⟩, ?_⟩
  · exact (hscanned 3).2.2.1 (by decide)
  · exact (hscanned 4).2.2.1 (by decide)
  · exact (hscanned 5).2.2.2 (by decide)
  · exact (hscanned 5).2.1
  · have hthree := hranges { replica := billed.settings } { maxResults := some 3 } 3 unshaped rfl
    exact After.imp (hthree.1 (.ofNanos 5) (.ofNanos 50) byTwo) fun range q hpost =>
      ⟨hpost.1, (hpost.2.2 (List.replicate 9 byTwo) (hready 9)).2.1⟩

end Replica
end AsOf
