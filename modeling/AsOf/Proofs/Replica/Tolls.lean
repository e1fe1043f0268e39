import AsOf.Proofs.Ledger
import AsOf.Proofs.Replica.Cost

/-!
# What many lookups cost

Over one series that is never cut into batches, the first lookup loads all that lies from its
answer on.  From then on a lookup loads nothing, and it probes only for an instant beyond the edge
of what is covered, which lies at the newest entry or later and comes to include that instant.
-/

namespace AsOf

/-!
## Edges that move out
-/

namespace Edge

variable {edge : Edge} {newest key start : Instant} {keys late : List Instant}

def toll (edge : Edge) (key : Instant) : Nat :=
  if edge.admits key then 0 else 1

def past (edge : Edge) (key : Instant) : Edge :=
  if edge.admits key then edge else .included key

def tolls (edge : Edge) : List Instant -> Nat
  | [] => 0
  | key :: rest => edge.toll key + (edge.past key).tolls rest

theorem outer_included (edge : Edge) (key : Instant) :
    edge.outer (.included key) = edge.past key := by
  unfold past
  cases edge with
  | included upper =>
      by_cases hle : key ≤ upper <;> simp [outer, admits, hle]
  | excluded upper =>
      by_cases hle : upper ≤ key
      · simp [outer, admits, hle, Std.not_lt.mpr hle]
      · simp [outer, admits, hle, Std.not_le.mp hle]
  | unbounded => rfl

theorem admits_past_self (edge : Edge) (key : Instant) : (edge.past key).admits key = true := by
  rw [← outer_included]
  exact admits_outer_right (by simp [admits])

theorem admits_past (h : edge.admits start = true) : (edge.past key).admits start = true := by
  unfold past
  split
  · exact h
  · rename_i hkey
    by_cases hle : key ≤ start
    · exact absurd (admits_of_le h hle) hkey
    · simpa [admits] using Std.le_of_lt (Std.not_le.mp hle)

def Beyond (edge : Edge) (newest : Instant) : Prop :=
  edge = .excluded newest ∨ exists upper, edge = .included upper ∧ newest ≤ upper

theorem Beyond.reaches (h : edge.Beyond newest) : edge.reaches newest = true := by
  rcases h with rfl | ⟨upper, rfl, hle⟩
  · simp [Edge.reaches]
  · simpa [Edge.reaches] using hle

theorem Beyond.le (h : edge.Beyond newest) (hkey : edge.admits key = false) : newest ≤ key := by
  rcases h with rfl | ⟨upper, rfl, hle⟩
  · exact Std.not_lt.mp (by simpa [admits] using hkey)
  · have hlt : upper < key := Std.not_le.mp (by simpa [admits] using hkey)
    exact Std.le_trans hle (Std.le_of_lt hlt)

theorem Beyond.past (h : edge.Beyond newest) (key : Instant) : (edge.past key).Beyond newest := by
  unfold Edge.past
  split
  · exact h
  · rename_i hkey
    exact Or.inr ⟨key, rfl, h.le (by simpa using hkey)⟩

theorem tolls_append_of_admits (h : forall key, key ∈ keys -> edge.admits key = true)
    (more : List Instant) : edge.tolls (keys ++ more) = edge.tolls more := by
  induction keys with
  | nil => rfl
  | cons key rest ih =>
      have hkey := h key (List.mem_cons_self ..)
      have hrest := ih fun x hx => h x (List.mem_cons_of_mem key hx)
      simp [tolls, toll, Edge.past, hkey, hrest]

/-- An instant is paid for once: then the edge includes it. -/
theorem tolls_le_length (h : forall key, key ∈ keys -> edge.admits key = false -> key ∈ late) :
    edge.tolls keys ≤ late.length := by
  induction keys generalizing edge late with
  | nil => exact Nat.zero_le _
  | cons key rest ih =>
      have hrest : forall x, x ∈ rest -> (edge.past key).admits x = false ->
          edge.admits x = false ∧ x ≠ key ∧ x ∈ late := by
        intro x hx hout
        have hbefore : edge.admits x = false := by
          cases hin : edge.admits x with
          | false => rfl
          | true => simp [admits_past hin] at hout
        refine ⟨hbefore, ?_, h x (List.mem_cons_of_mem key hx) hbefore⟩
        rintro rfl
        simp [admits_past_self] at hout
      cases hkey : edge.admits key with
      | true =>
          have hle := ih fun x hx hout => (hrest x hx hout).2.2
          simpa [tolls, toll, hkey] using hle
      | false =>
          have hlate := h key (List.mem_cons_self ..) hkey
          have hle := ih fun x hx hout =>
            (List.mem_erase_of_ne (hrest x hx hout).2.1).mpr (hrest x hx hout).2.2
          have hlength := List.length_erase_of_mem hlate
          have hpos := List.length_pos_of_mem hlate
          simp only [tolls, toll, hkey, Bool.false_eq_true, if_false]
          omega

theorem Beyond.tolls_le (h : edge.Beyond newest) (hkeys : forall key, key ∈ keys -> key ∈ late) :
    edge.tolls keys ≤ (late.filter fun key => newest ≤ key).eraseDups.length := by
  apply tolls_le_length
  intro key hkey hout
  rw [List.mem_eraseDups, List.mem_filter]
  exact ⟨hkeys key hkey, by simpa using h.le hout⟩

end Edge

theorem Span.join_included {first start key : Instant} {edge : Edge} (hstart : first ≤ start)
    (hreach : edge.reaches start = true) (hkey : first ≤ key) :
    (Span.mk first edge).join ⟨start, .included key⟩ = ⟨first, edge.past key⟩ := by
  have htouch : (Span.mk first edge).touches ⟨start, .included key⟩ = true :=
    Span.touches_iff.mpr ⟨hreach, by simpa [Edge.reaches] using hkey⟩
  rw [Span.join_of_touches htouch, Edge.outer_included]
  rcases Span.min_eq first start with ⟨hmin, -⟩ | ⟨hmin, hle⟩
  · rw [hmin]
  · rw [hmin, Std.le_antisymm hle hstart]

theorem Series.keys_eq {V : Type} {series : Series V} {oldest newest : Entry V}
    (holdest : series.oldest? = some oldest) (hnewest : series.newest? = some newest)
    (hsize : 2 ≤ series.size) :
    oldest.key < newest.key ∧ exists middle,
      series.toList.map Entry.key = oldest.key :: (middle ++ [newest.key]) ∧
        forall key, key ∈ middle -> key < newest.key := by
  rcases series with ⟨entries, hdescending⟩
  match entries, hdescending with
  | [], _ => simp [size] at hsize
  | [_], _ => simp [size] at hsize
  | a :: b :: rest, hdescending =>
      obtain rfl : a = newest := Option.some.inj hnewest
      have hbefore := (List.pairwise_cons.mp hdescending).1
      have hhead : (b :: rest).reverse.head? = some oldest := by
        rw [List.head?_reverse]
        simpa [oldest?] using holdest
      obtain ⟨middle, hmiddle⟩ := List.head?_eq_some_iff.mp hhead
      have hmem : forall e, e ∈ oldest :: middle -> e.key < a.key := fun e he =>
        hbefore e (List.mem_reverse.mp (hmiddle ▸ he))
      refine ⟨hmem oldest (List.mem_cons_self ..), middle.map Entry.key, ?_, ?_⟩
      · show ((a :: b :: rest).reverse).map Entry.key = _
        rw [List.reverse_cons, hmiddle]
        simp
      · intro key hkey
        rcases List.mem_map.mp hkey with ⟨e, he, rfl⟩
        exact hmem e (List.mem_cons_of_mem oldest he)

variable {m : Type -> Type} [Monad m] {V W : Type} [Performs m W]

namespace Replica

open Outlook Source

variable {o : Outlook W V} {next : Instant -> Instant} {replica : Replica m V} {s t : State V}
  {calls : List Call} {w : W} {key first : Instant} {newest : Entry V} {edge : Edge}
  {series : Series V} {n n' k k' : Nat} {p p' p'' : State V × (List Call × W)}

def Aloof (o : Outlook W V) (listener : Entry V -> StateT (State V) m Unit) : Prop :=
  forall e s w, o.ready w -> After (listener e) (s, w) (fun _ p' => p'.1 = s ∧ o.Follows w p'.2)

structure State.Seen (s : State V) (o : Outlook W V) (w : W) : Prop where
  epoch : s.epoch = o.epoch w
  bound : s.bound = o.bound w

theorem State.Seen.observed (h : s.Seen o w) : s.observed o w = s := by
  have hepoch : s.observeEpoch (o.epoch w) = s := if_pos h.epoch.symm
  unfold State.observed
  rw [hepoch]
  exact if_pos h.bound.symm

theorem State.seen_observed (s : State V) (o : Outlook W V) (w : W) :
    (s.observed o w).Seen o w := by
  have hbound := (s.observeEpoch (o.epoch w)).bound_observeBound (o.bound w)
  exact ⟨hbound.2.trans (s.epoch_observeEpoch (o.epoch w)), hbound.1⟩

theorem State.Seen.later {w' : W} (h : s.Seen o w) (hw : o.Follows w w')
    (hepoch : t.epoch = s.epoch) (hbound : t.bound = s.bound) : t.Seen o w' where
  epoch := by rw [hepoch, h.epoch, hw.epoch]
  bound := by rw [hbound, h.bound, hw.bound]

structure Spends (o : Outlook W V) (probes loads : Nat) (p p' : State V × (List Call × W)) :
    Prop where
  follows : o.Follows p.2.2 p'.2.2
  seen : p'.1.Seen o p'.2.2
  charged : Charged probes loads p.2.1 p'.2.1

theorem Spends.trans (h : Spends o n k p p') (h' : Spends o n' k' p' p'') :
    Spends o (n + n') (k + k') p p'' where
  follows := h.follows.trans h'.follows
  seen := h'.seen
  charged := h.charged.trans h'.charged

structure Cold (s : State V) : Prop where
  coverage : s.coverage = none
  memo : s.memo = .empty

theorem Cold.observed (h : Cold s) (o : Outlook W V) (w : W) : Cold (s.observed o w) := by
  have hepoch : Cold (s.observeEpoch (o.epoch w)) := by
    unfold State.observeEpoch
    split
    · exact h
    · exact ⟨rfl, rfl⟩
  unfold State.observed State.observeBound
  split
  · exact hepoch
  · refine ⟨?_, rfl⟩
    simp [State.retreat, hepoch.coverage]

/--
A memory that covers all from a first instant to an edge beyond the newest entry, with a memo of
no more than what is covered.
-/
structure Known (first newest : Instant) (edge : Edge) (s : State V) : Prop where
  order : first ≤ newest
  coverage : s.coverage = some ⟨first, edge⟩
  beyond : edge.Beyond newest
  newest : s.loaded.contains newest = true
  memo : forall key, s.memo.find? key ≠ none -> edge.admits key = true

theorem Known.of_same {newest : Instant} (h : Known first newest edge s)
    (hcoverage : t.coverage = s.coverage) (hloaded : t.loaded = s.loaded)
    (hmemo : t.memo = s.memo) : Known first newest edge t where
  order := h.order
  coverage := hcoverage.trans h.coverage
  beyond := h.beyond
  newest := by rw [hloaded, h.newest]
  memo := by rw [hmemo]; exact h.memo

theorem Known.remember {newest : Instant} (h : Known first newest edge s)
    (hkey : edge.admits key = true) (capacity : Positive) (found : Option (Entry V)) :
    Known first newest edge (s.remember capacity key found) where
  order := h.order
  coverage := h.coverage
  beyond := h.beyond
  newest := h.newest
  memo := by
    intro other hother
    by_cases heq : other = key
    · exact heq ▸ hkey
    · apply h.memo other
      intro hnone
      apply hother
      show (s.memo.remember capacity key found).find? other = none
      rw [Memo.find?_remember_of_ne s.memo capacity found heq, hnone, ite_self]

theorem Known.gapStart (h : Known first newest.key edge s) : s.gapStart newest = none := by
  simp [State.gapStart, h.coverage, Std.not_lt.mpr h.order, h.newest]

theorem Cold.gapStart (h : Cold s) (answer : Entry V) : s.gapStart answer = some answer.key := by
  simp [State.gapStart, h.coverage]

theorem Known.bridged {limit : Option Positive} (h : Known first newest.key edge s)
    (hkey : first ≤ key) (ht : Bridged series limit key newest s t) :
    Known first newest.key (edge.past key) t ∧ t.epoch = s.epoch ∧ t.bound = s.bound := by
  simp only [Bridged, h.gapStart] at ht
  subst ht
  refine ⟨⟨h.order, ?_, h.beyond.past key, s.contains_store newest, ?_⟩, rfl, rfl⟩
  · rw [← Span.join_included h.order h.beyond.reaches hkey]
    show some (s.coverage.elim _ _) = _
    rw [h.coverage]
    rfl
  · exact fun other hother => Edge.admits_past (h.memo other hother)

theorem Cold.bridged {answer : Entry V} (h : Cold s) (hanswer : series.latestUpTo key = some answer)
    (hnewest : series.newest? = some newest) (ht : Bridged series none key answer s t) :
    Known answer.key newest.key ((Edge.excluded newest.key).past key) t ∧
      t.epoch = s.epoch ∧ t.bound = s.bound := by
  simp only [Bridged, h.gapStart] at ht
  rcases ht with ⟨batch, hbatch, rfl⟩
  have hright := Series.latestUpTo_eq_some_iff.mp hanswer
  have hmost := Series.newest?_eq_some_iff.mp hnewest
  have horder := hmost.2 answer hright.1.1
  have hpage : newest ∈ kept answer.key batch :=
    hbatch.mem_kept.mpr (Series.mem_onwards.mpr ⟨hmost.1, horder⟩)
  have hlast : (kept answer.key batch).newest? = some newest :=
    Series.newest?_eq_some_iff.mpr ⟨hpage, fun x hx =>
      hmost.2 x (Series.mem_of_mem_page (hbatch.mem_kept.mp hx)).1⟩
  have hstored := State.foldl_store_of
    (K := fun t => t.coverage = none ∧ t.memo = .empty ∧ t.epoch = s.epoch ∧ t.bound = s.bound)
    (s := (s.store answer).countBulkLoad.countLoaded batch.length)
    (fun _ _ ht => ht) ⟨h.coverage, h.memo, rfl, rfl⟩ (kept answer.key batch).toList
  rcases hstored with ⟨⟨hcoverage, hmemo, hepoch, hbound⟩, -, hloaded⟩
  have hfilled : ((s.store answer).filled answer.key batch) =
      ((s.store answer).countBulkLoad.absorbed answer.key batch).cover
        ⟨answer.key, .excluded newest.key⟩ := by
    simp only [State.filled, hlast]
  rw [hfilled]
  refine ⟨⟨horder, ?_, Edge.Beyond.past (Or.inl rfl) key, ?_, ?_⟩, hepoch, hbound⟩
  · have hreach : (Edge.excluded newest.key).reaches answer.key = true := by
      simpa [Edge.reaches] using horder
    rw [← Span.join_included (Std.le_refl answer.key) hreach hright.1.2]
    have hnone : ((s.store answer).countBulkLoad.absorbed answer.key batch).coverage = none :=
      hcoverage
    simp only [State.cover, hnone, Option.elim]
  · exact hloaded newest (Series.mem_toList.mpr hpage)
  · intro other hother
    exact absurd (congrArg (Memo.find? · other) hmemo) hother

def lookups (replica : Replica m V) (keys : List Instant) (p : State V × W) : State V × W :=
  keys.foldl (fun p key => (perform (replica.lookup key).run p).2) p

/-!
## One lookup in a known state
-/

theorem after_announce_aloof (haloof : Aloof o replica.listener) (hready : o.ready w) :
    After replica.recorded.announce (s, (calls, w)) (fun _ p' =>
      p'.2.1 = calls ∧ p'.1 = { s with pending := [] } ∧ o.Follows w p'.2.2) := by
  apply after_recorded_announce (K := fun p => p.1 = { s with pending := [] } ∧ o.Follows w p.2)
  · rintro e ⟨t, w₁⟩ ⟨rfl, hw₁⟩
    apply After.imp (haloof e _ w₁ (hw₁.ready hready))
    exact fun _ p' hp' => ⟨hp'.1, hw₁.trans hp'.2⟩
  · exact ⟨rfl, Follows.refl o w⟩

section Still

variable (h : replica.Reads o next) (hstill : o.Still series)

include h hstill

/-- In a memory that covers all up to an edge, a lookup pays the toll and goes past the edge. -/
theorem after_resolve_known (hready : o.ready w) (hseen : s.Seen o w)
    (hnewest : series.newest? = some newest) (hs : Known first newest.key edge s)
    (hkey : first ≤ key) :
    After (replica.recorded.resolve key).run (s, (calls, w)) (fun r p' =>
      (exists found, r = .ok found) ∧ Known first newest.key (edge.past key) p'.1 ∧
        Spends o (edge.toll key) 0 (s, (calls, w)) p') := by
  have hcovers : s.covers key = edge.admits key := by
    simp [State.covers, hs.coverage, Span.contains, hkey]
  unfold resolve
  simp only [after_except_bind, after_request_get, hcovers]
  cases hin : edge.admits key with
  | true =>
      simp only [if_true, after_except_bind, after_request_modify]
      refine after_except_pure.mpr
        ⟨⟨_, rfl⟩, ?_, Follows.refl o w, ⟨hseen.epoch, hseen.bound⟩, ?_⟩
      · simp only [Edge.past, hin, if_true]
        exact hs.of_same rfl rfl rfl
      · simp only [Edge.toll, hin, if_true]
        exact Charged.refl calls
  | false =>
      simp only [Bool.false_eq_true, if_false, after_except_bind, after_request_modify]
      apply After.imp (after_probe_charged h hready key)
      intro r p₁ hpost
      rcases p₁ with ⟨s₁, calls₁, w₁⟩
      rcases hpost with ⟨rfl, hprobe, hw₁, hr⟩
      have hready₁ := hw₁.ready hready
      have hle := hs.beyond.le hin
      have hlatest : (o.series w).latestUpTo key = some newest := by
        have hmost := Series.newest?_eq_some_iff.mp hnewest
        rw [hstill.series w hready, Series.latestUpTo_eq_some_iff]
        exact ⟨⟨hmost.1, hle⟩, fun x hx _ => hmost.2 x hx⟩
      rw [hr.eq_ok (hstill.failures w₁ hready₁), hlatest]
      apply After.imp (after_resolveLatest_charged h hready₁ hle)
      intro r' p₂ hpost
      rcases p₂ with ⟨s₂, calls₂, w₂⟩
      rcases hpost with ⟨hcharged, hw₂, hr'⟩
      have hknown : Known first newest.key edge s.countMiss.countProbe := hs.of_same rfl rfl rfl
      rcases hr'.exists_ok (hstill.failures w₂ (hw₂.ready hready₁)) with ⟨found, rfl, hbridged⟩
      rcases hknown.bridged hkey hbridged with ⟨hs₂, hepoch, hbound⟩
      have hw := hw₁.trans hw₂
      refine ⟨⟨found, rfl⟩, hs₂, hw, hseen.later hw hepoch hbound, ?_⟩
      rw [hknown.gapStart] at hcharged
      simpa [Edge.toll, hin] using hprobe.trans hcharged

/-- In a cold memory, a lookup pays a probe and loads all from its answer on. -/
theorem after_resolve_cold {answer : Entry V} (hready : o.ready w) (hlimit : o.limit w = none)
    (hseen : s.Seen o w) (hs : Cold s) (hanswer : series.latestUpTo key = some answer)
    (hnewest : series.newest? = some newest) :
    After (replica.recorded.resolve key).run (s, (calls, w)) (fun r p' =>
      (exists found, r = .ok found) ∧
        Known answer.key newest.key ((Edge.excluded newest.key).past key) p'.1 ∧
        Spends o 1 1 (s, (calls, w)) p') := by
  have hcovers : s.covers key = false := by simp [State.covers, hs.coverage]
  have hright := Series.latestUpTo_eq_some_iff.mp hanswer
  unfold resolve
  simp only [after_except_bind, after_request_get, hcovers, Bool.false_eq_true, if_false,
    after_request_modify]
  apply After.imp (after_probe_charged h hready key)
  intro r p₁ hpost
  rcases p₁ with ⟨s₁, calls₁, w₁⟩
  rcases hpost with ⟨rfl, hprobe, hw₁, hr⟩
  have hready₁ := hw₁.ready hready
  rw [hr.eq_ok (hstill.failures w₁ hready₁), hstill.series w hready, hanswer]
  apply After.imp (after_resolveLatest_charged h hready₁ hright.1.2)
  intro r' p₂ hpost
  rcases p₂ with ⟨s₂, calls₂, w₂⟩
  rcases hpost with ⟨hcharged, hw₂, hr'⟩
  have hcold : Cold s.countMiss.countProbe := ⟨hs.coverage, hs.memo⟩
  rcases hr'.exists_ok (hstill.failures w₂ (hw₂.ready hready₁)) with ⟨found, rfl, hbridged⟩
  rw [hstill.series w₁ hready₁, hw₁.limit, hlimit] at hbridged
  rcases hcold.bridged hanswer hnewest hbridged with ⟨hs₂, hepoch, hbound⟩
  have hw := hw₁.trans hw₂
  refine ⟨⟨found, rfl⟩, hs₂, hw, hseen.later hw hepoch hbound, ?_⟩
  rw [hcold.gapStart] at hcharged
  exact hprobe.trans hcharged

omit hstill in
theorem after_lookup_of_known {newest : Instant} (haloof : Aloof o replica.listener)
    (hready : o.ready w) (hin : edge.admits key = true)
    (hmemo : (s.observed o w).memo.find? key ≠ none ->
      Known first newest edge (s.observed o w) ∧ n = 0 ∧ k = 0)
    (hresolve : forall w', o.ready w' -> o.Follows w w' -> (s.observed o w).Seen o w' ->
      After (replica.recorded.resolve key).run (s.observed o w, (calls, w')) (fun r p' =>
        (exists found, r = .ok found) ∧ Known first newest edge p'.1 ∧
          Spends o n k (s.observed o w, (calls, w')) p')) :
    After (replica.recorded.lookup key).run (s, (calls, w)) (fun _ p' =>
      Known first newest edge p'.1 ∧ Spends o n k (s, (calls, w)) p') := by
  unfold lookup
  apply after_except_bind.mpr
  apply after_except_lift.mpr
  apply After.imp (after_sync_recorded h.pages hready)
  intro _ p₁ hpost
  rcases p₁ with ⟨s₁, calls₁, w₁⟩
  rcases hpost with ⟨rfl, rfl, hw₁⟩
  have hready₁ := hw₁.ready hready
  have hseen := (s.seen_observed o w).later hw₁ rfl rfl
  simp only [after_except_bind, after_request_get]
  split
  · rename_i found hfound
    rcases hmemo (by simp [hfound]) with ⟨hs, rfl, rfl⟩
    simp only [after_except_bind, after_request_modify]
    exact after_except_pure.mpr
      ⟨hs.of_same rfl rfl rfl, hw₁, ⟨hseen.epoch, hseen.bound⟩, Charged.refl _⟩
  · unfold announcing
    apply after_except_mk.mpr
    apply after_bind.mpr
    apply after_except_bind.mpr
    apply After.imp (hresolve w₁ hready₁ hw₁ hseen)
    intro r p₂ hpost
    rcases p₂ with ⟨s₂, calls₂, w₂⟩
    rcases hpost with ⟨⟨found, rfl⟩, hs₂, hspent⟩
    apply after_except_bind.mpr
    apply after_request_modify.mpr
    apply after_except_pure.mpr
    apply after_bind.mpr
    apply After.imp (after_announce_aloof haloof (hspent.follows.ready hready₁))
    intro _ p₃ hpost
    rcases p₃ with ⟨s₃, calls₃, w₃⟩
    rcases hpost with ⟨rfl, rfl, hw₃⟩
    have hkept := hs₂.remember hin replica.settings.memoCapacity found
    exact after_pure.mpr ⟨hkept.of_same rfl rfl rfl,
      hw₁.trans (hspent.follows.trans hw₃), hspent.seen.later hw₃ rfl rfl, hspent.charged⟩

theorem after_lookup_known (haloof : Aloof o replica.listener) (hready : o.ready p.2.2)
    (hseen : p.1.Seen o p.2.2) (hnewest : series.newest? = some newest)
    (hs : Known first newest.key edge p.1) (hkey : first ≤ key) :
    After (replica.recorded.lookup key).run p (fun _ p' =>
      Known first newest.key (edge.past key) p'.1 ∧ Spends o (edge.toll key) 0 p p') := by
  rcases p with ⟨s, calls, w⟩
  dsimp only at hready hseen hs
  apply after_lookup_of_known h haloof hready (edge.admits_past_self key)
  · rw [hseen.observed]
    intro hfound
    have hin := hs.memo key hfound
    simp only [Edge.past, Edge.toll, hin, if_true]
    exact ⟨hs, trivial, trivial⟩
  · rw [hseen.observed]
    exact fun w' hready' _ hseen' => after_resolve_known h hstill hready' hseen' hnewest hs hkey

theorem after_lookup_cold {answer : Entry V} (haloof : Aloof o replica.listener)
    (hready : o.ready p.2.2) (hlimit : o.limit p.2.2 = none) (hs : Cold p.1)
    (hanswer : series.latestUpTo key = some answer) (hnewest : series.newest? = some newest) :
    After (replica.recorded.lookup key).run p (fun _ p' =>
      Known answer.key newest.key ((Edge.excluded newest.key).past key) p'.1 ∧
        Spends o 1 1 p p') := by
  rcases p with ⟨s, calls, w⟩
  have hcold := hs.observed o w
  apply after_lookup_of_known h haloof hready (Edge.admits_past_self _ key)
  · rw [hcold.memo]
    exact fun hfound => absurd rfl hfound
  · exact fun w' hready' hw' hseen' =>
      after_resolve_cold h hstill hready' (hw'.limit.trans hlimit) hseen' hcold hanswer hnewest

/-!
## Lookups one after another
-/

theorem lookups_known {keys : List Instant} (haloof : Aloof o replica.listener)
    (hnewest : series.newest? = some newest) (hready : o.ready p.2.2) (hseen : p.1.Seen o p.2.2)
    (hs : Known first newest.key edge p.1) (hkeys : forall key, key ∈ keys -> first ≤ key) :
    Spends o (edge.tolls keys) 0 p (replica.recorded.lookups keys p) := by
  induction keys generalizing p edge with
  | nil => exact ⟨Follows.refl o _, hseen, Charged.refl _⟩
  | cons key rest ih =>
      have hstep := after_lookup_known h hstill haloof hready hseen hnewest hs
        (hkeys key (List.mem_cons_self ..))
      have hrest := ih (hstep.2.follows.ready hready) hstep.2.seen hstep.1
        fun x hx => hkeys x (List.mem_cons_of_mem key hx)
      exact hstep.2.trans hrest

theorem lookups_cold {answer : Entry V} {later : List Instant} (haloof : Aloof o replica.listener)
    (hready : o.ready p.2.2) (hlimit : o.limit p.2.2 = none) (hs : Cold p.1)
    (hanswer : series.latestUpTo key = some answer) (hnewest : series.newest? = some newest)
    (hlater : forall k, k ∈ later -> answer.key ≤ k) :
    Spends o (1 + ((Edge.excluded newest.key).past key).tolls later) 1 p
      (replica.recorded.lookups (key :: later) p) := by
  have hstep := after_lookup_cold h hstill haloof hready hlimit hs hanswer hnewest
  have hready' := hstep.2.follows.ready hready
  exact hstep.2.trans
    (lookups_known h hstill haloof hnewest hready' hstep.2.seen hstep.1 hlater)

/-- In an ascending pass, of the lookups after the first only that of the newest key probes. -/
theorem ascending_cold {oldest : Entry V} (haloof : Aloof o replica.listener)
    (hready : o.ready p.2.2) (hlimit : o.limit p.2.2 = none) (hs : Cold p.1)
    (holdest : series.oldest? = some oldest) (hnewest : series.newest? = some newest)
    (hsize : 2 ≤ series.size) (further : List Instant)
    (hfurther : forall key, key ∈ further -> oldest.key ≤ key) :
    Spends o (2 + (Edge.included newest.key).tolls further) 1 p
      (replica.recorded.lookups (series.toList.map Entry.key ++ further) p) := by
  have hleast := Series.oldest?_eq_some_iff.mp holdest
  rcases Series.keys_eq holdest hnewest hsize with ⟨hlt, middle, hkeys, hmiddle⟩
  have hanswer : series.latestUpTo oldest.key = some oldest :=
    Series.latestUpTo_eq_some_iff.mpr ⟨⟨hleast.1, Std.le_refl _⟩, fun _ _ hle => hle⟩
  have hlater : forall key, key ∈ middle ++ newest.key :: further -> oldest.key ≤ key := by
    intro key hkey
    rcases List.mem_append.mp hkey with hkey | hkey
    · have hin : key ∈ series.toList.map Entry.key := by simp [hkeys, hkey]
      rcases List.mem_map.mp hin with ⟨e, he, rfl⟩
      exact hleast.2 e (Series.mem_toList.mp he)
    · rcases List.mem_cons.mp hkey with rfl | hkey
      · exact Std.le_of_lt hlt
      · exact hfurther key hkey
  have htolls : ((Edge.excluded newest.key).past oldest.key).tolls
      (middle ++ newest.key :: further) = 1 + (Edge.included newest.key).tolls further := by
    have hfirst : (Edge.excluded newest.key).past oldest.key = .excluded newest.key := by
      simp [Edge.past, Edge.admits, hlt]
    rw [hfirst, Edge.tolls_append_of_admits (by simpa [Edge.admits] using hmiddle)]
    have hself : ¬ newest.key < newest.key := Std.lt_irrefl
    simp [Edge.tolls, Edge.toll, Edge.past, Edge.admits, hself]
  have hspent := lookups_cold h hstill haloof hready hlimit hs hanswer hnewest hlater
  rw [htolls, ← Nat.add_assoc] at hspent
  rw [hkeys]
  simpa using hspent

end Still

/--
A lookup makes at most one probe and at most one load, whatever the replica remembers.  Lookups
over one series that is never cut into batches, from a cold memory, from an instant that has an
answer and to no instant before this answer, make one load together, and a probe besides the
first for no more than each different instant from the newest entry on.  An ascending pass over
all keys of two entries or more makes two probes, and further passes load nothing.
-/
theorem lookups_load_once (h : replica.Reads o next) :
    (forall (p : State V × (List Call × W)) (key : Instant), o.ready p.2.2 ->
      After (replica.recorded.lookup key).run p (fun _ p' => Within 1 1 p.2.1 p'.2.1)) ∧
    forall (series : Series V) (p : State V × (List Call × W)) (oldest newest : Entry V),
      o.Still series -> Aloof o replica.listener -> o.ready p.2.2 -> o.limit p.2.2 = none ->
      Cold p.1 -> series.oldest? = some oldest -> series.newest? = some newest ->
      (forall (key : Instant) (later : List Instant), oldest.key ≤ key ->
        (forall k answer, k ∈ later -> series.latestUpTo key = some answer -> answer.key ≤ k) ->
        exists probes, Charged probes 1 p.2.1 (replica.recorded.lookups (key :: later) p).2.1 ∧
          probes ≤ 1 + ((key :: later).filter fun k => newest.key ≤ k).eraseDups.length) ∧
      (2 ≤ series.size ->
        Charged 2 1 p.2.1 (replica.recorded.lookups (series.toList.map Entry.key) p).2.1 ∧
        forall further : List Instant, (forall k, k ∈ further -> oldest.key ≤ k) ->
          exists probes, Charged probes 1 p.2.1
            (replica.recorded.lookups (series.toList.map Entry.key ++ further) p).2.1) := by
  refine ⟨fun p key hready => after_lookup_charged h hready key, ?_⟩
  intro series p oldest newest hstill haloof hready hlimit hs holdest hnewest
  have hleast := Series.oldest?_eq_some_iff.mp holdest
  have hmost := Series.newest?_eq_some_iff.mp hnewest
  constructor
  · intro key later hkey hlater
    cases hanswer : series.latestUpTo key with
    | none =>
        have hlt := Series.latestUpTo_eq_none_iff.mp hanswer oldest hleast.1
        exact absurd hkey (Std.not_le.mpr hlt)
    | some answer =>
        have hspent := lookups_cold h hstill haloof hready hlimit hs hanswer hnewest
          fun k hk => hlater k answer hk hanswer
        have hbeyond : ((Edge.excluded newest.key).past key).Beyond newest.key :=
          Edge.Beyond.past (Or.inl rfl) key
        exact ⟨_, hspent.charged, Nat.add_le_add_left
          (hbeyond.tolls_le fun k hk => List.mem_cons_of_mem key hk) 1⟩
  · intro hsize
    have hpass := ascending_cold h hstill haloof hready hlimit hs holdest hnewest hsize
    have hall := (hpass [] (by simp)).charged
    rw [List.append_nil] at hall
    exact ⟨hall, fun further hfurther => ⟨_, (hpass further hfurther).charged⟩⟩

def atOnce : Ledger Int :=
  .holding [10, 20, 30, 40]

def forgetful : Replica (StateT (List Call) (StateM (Ledger Int))) Int :=
  (Ledger.replica { memoCapacity := ⟨1, Nat.one_pos⟩ }).recorded

def unasked (ledger : Ledger Int) : State Int × (List Call × Ledger Int) :=
  ({ epoch := 0, bound := none }, ([], ledger))

theorem lookups_load_once_on_ledger :
    After (forgetful.lookup (.ofNanos 25)).run (unasked atOnce)
        (fun _ p => Within 1 1 [] p.2.1) ∧
      (exists probes, Charged probes 1 []
          (forgetful.lookups ([25, 50, 20, 60, 50].map Instant.ofNanos) (unasked atOnce)).2.1 ∧
        probes ≤ 3) ∧
      Charged 2 1 []
        (forgetful.lookups (atOnce.series.toList.map Entry.key) (unasked atOnce)).2.1 := by
  have hreads := Ledger.reads_replica (Ledger.closed_holds atOnce.series)
    { memoCapacity := ⟨1, Nat.one_pos⟩ }
  have hholds : Ledger.Holds atOnce.series atOnce :=
    { series := rfl, open_ends := by decide, outages := rfl, failures := rfl }
  have haloof : Aloof (Ledger.outlook (Ledger.Holds atOnce.series))
      (Ledger.replica { memoCapacity := ⟨1, Nat.one_pos⟩ } : Replica _ Int).listener :=
    fun _ _ w _ => ⟨rfl, Follows.refl _ w⟩
  rcases lookups_load_once hreads with ⟨hone, hmany⟩
  rcases hmany atOnce.series (unasked atOnce) ⟨.ofNanos 10, 10⟩ ⟨.ofNanos 40, 40⟩
    (Ledger.still_holds atOnce.series) haloof hholds rfl ⟨rfl, rfl⟩ (by decide) (by decide)
    with ⟨hany, hpass⟩
  refine ⟨hone (unasked atOnce) (.ofNanos 25) hholds, ?_, ?_⟩
  · have hlater : forall k answer, k ∈ [50, 20, 60, 50].map Instant.ofNanos ->
        atOnce.series.latestUpTo (.ofNanos 25) = some answer -> answer.key ≤ k := by
      intro k answer hk hanswer
      obtain rfl : answer = ⟨.ofNanos 20, 20⟩ := Option.some.inj (hanswer.symm.trans (by decide))
      revert k
      decide
    rcases hany (.ofNanos 25) _ (by decide) hlater with ⟨probes, hcharged, hle⟩
    exact ⟨probes, hcharged, Nat.le_trans hle (by decide)⟩
  · exact (hpass (by decide)).1

end Replica
end AsOf
