import AsOf.Replica.State
import AsOf.Proofs.Series
import AsOf.Proofs.Span

/-!
# What a replica remembers is right

A replica is sound for a series if it has loaded nothing else, if its coverage
begins at a loaded entry and misses no entry of the series, and if the answers in
its memo are those of the series.  Each change of what a replica remembers is
shown to keep this, under the condition that makes the change a true one.
-/

namespace AsOf

variable {V : Type}

/-- A series that has grown at its newest end, or is the same. -/
structure Series.Grown (old new : Series V) : Prop where
  mem : forall e, e ∈ old -> e ∈ new
  newer : forall e, e ∈ new -> e ∈ old ∨ forall x, x ∈ old -> x.key < e.key

theorem Series.grown_iff {old new : Series V} : old.Grown new ↔
    (forall e, e ∈ old -> e ∈ new) ∧
      forall e, e ∈ new -> e ∈ old ∨ forall x, x ∈ old -> x.key < e.key :=
  ⟨fun h => ⟨h.mem, h.newer⟩, fun h => ⟨h.1, h.2⟩⟩

instance [DecidableEq V] (old new : Series V) : Decidable (old.Grown new) :=
  decidable_of_iff' _ Series.grown_iff

theorem Series.Grown.refl (s : Series V) : s.Grown s :=
  ⟨fun _ he => he, fun _ he => Or.inl he⟩

theorem Series.Grown.trans {old mid new : Series V} (h : old.Grown mid) (h' : mid.Grown new) :
    old.Grown new where
  mem e he := h'.mem e (h.mem e he)
  newer e he := by
    rcases h'.newer e he with hmid | hnew
    · exact h.newer e hmid
    · exact Or.inr fun x hx => hnew x (h.mem x hx)

structure Span.Filled (span : Span) (series loaded : Series V) : Prop where
  start : loaded.contains span.start = true
  upright : span.Upright
  complete : forall e, e ∈ series -> span.contains e.key = true -> e ∈ loaded

theorem Span.Filled.mono {span : Span} {series loaded loaded' : Series V}
    (h : span.Filled series loaded) (hsub : forall e, e ∈ loaded -> e ∈ loaded') :
    span.Filled series loaded' where
  start := by
    rcases Series.contains_iff.mp h.start with ⟨e, he, hkey⟩
    exact Series.contains_iff.mpr ⟨e, hsub e he, hkey⟩
  upright := h.upright
  complete e he hin := hsub e (h.complete e he hin)

namespace Replica
namespace State

variable {series old : Series V} {s t : State V} {e : Entry V} {key : Instant} {span : Span}

/-- What a replica remembers is right for a series. -/
structure Sound (series : Series V) (s : State V) : Prop where
  loaded : forall e, e ∈ s.loaded -> e ∈ series
  coverage : forall span, s.coverage = some span -> span.Filled series s.loaded
  memo : forall key found, s.memo.find? key = some found -> found = series.latestUpTo key
  memo_loaded : forall key e, s.memo.find? key = some (some e) -> e ∈ s.loaded

def Retains (s t : State V) : Prop :=
  forall e, e ∈ s.loaded -> e ∈ t.loaded

theorem Retains.refl (s : State V) : s.Retains s :=
  fun _ he => he

theorem Retains.trans {u : State V} (h : s.Retains t) (h' : t.Retains u) : s.Retains u :=
  fun e he => h' e (h e he)

theorem Sound.congr (h : Sound series s) (hloaded : t.loaded = s.loaded)
    (hcoverage : t.coverage = s.coverage) (hmemo : t.memo = s.memo) : Sound series t where
  loaded := hloaded ▸ h.loaded
  coverage := hloaded ▸ hcoverage ▸ h.coverage
  memo := hmemo ▸ h.memo
  memo_loaded := hloaded ▸ hmemo ▸ h.memo_loaded

theorem Sound.count (h : Sound series s) (f : Counters -> Counters) : Sound series (s.count f) :=
  h.congr rfl rfl rfl

theorem sound_start (series : Series V) (epoch : Nat) (bound : Option Instant) :
    Sound series { epoch := epoch, bound := bound } where
  loaded e he := absurd he (Series.not_mem_empty e)
  coverage _ hspan := by cases hspan
  memo key _ hfind := by
    rw [Memo.find?_empty] at hfind
    cases hfind
  memo_loaded key _ hfind := by
    rw [Memo.find?_empty] at hfind
    cases hfind

/-!
## Answers
-/

theorem covers_iff :
    s.covers key = true ↔ exists span, s.coverage = some span ∧ span.contains key = true := by
  unfold covers
  cases s.coverage <;> simp

/-- Within the coverage, the entry in effect is the one that is loaded. -/
theorem Sound.latestUpTo_loaded (h : Sound series s) (hcov : s.covers key = true) :
    s.loaded.latestUpTo key = series.latestUpTo key := by
  rcases covers_iff.mp hcov with ⟨span, hspan, hcontains⟩
  have hfilled := h.coverage span hspan
  rcases Span.contains_iff.mp hcontains with ⟨hstart, hedge⟩
  rcases Series.contains_iff.mp hfilled.start with ⟨first, hfirst, hkey⟩
  have hfirst_le : first.key ≤ key := hkey ▸ hstart
  cases hlatest : series.latestUpTo key with
  | none =>
      have hlt := Series.latestUpTo_eq_none_iff.mp hlatest first (h.loaded first hfirst)
      exact absurd hfirst_le (Std.not_le.mpr hlt)
  | some e =>
      have he := Series.latestUpTo_eq_some_iff.mp hlatest
      have hge : span.start ≤ e.key := hkey ▸ he.2 first (h.loaded first hfirst) hfirst_le
      have hadmits : span.edge.admits e.key = true := Edge.admits_of_le hedge he.1.2
      have hin : e ∈ s.loaded :=
        hfilled.complete e he.1.1 (Span.contains_iff.mpr ⟨hge, hadmits⟩)
      exact Series.latestUpTo_eq_some_iff.mpr
        ⟨⟨hin, he.1.2⟩, fun x hx hxkey => he.2 x (h.loaded x hx) hxkey⟩

theorem Sound.latestUpTo_loaded_of_none (h : Sound series s)
    (hnone : series.latestUpTo key = none) : s.loaded.latestUpTo key = none :=
  Series.latestUpTo_eq_none_iff.mpr fun x hx =>
    Series.latestUpTo_eq_none_iff.mp hnone x (h.loaded x hx)

theorem Sound.remember (h : Sound series s) (capacity : Positive) (key : Instant)
    (hin : forall e, series.latestUpTo key = some e -> e ∈ s.loaded) :
    Sound series (s.remember capacity key (series.latestUpTo key)) where
  loaded := h.loaded
  coverage := h.coverage
  memo k found hfind := by
    by_cases hk : k = key
    · subst hk
      rw [State.remember, Memo.find?_remember_self] at hfind
      exact (Option.some.inj hfind).symm
    · rw [State.remember, Memo.find?_remember_of_ne _ _ _ hk] at hfind
      split at hfind
      · cases hfind
      · exact h.memo k found hfind
  memo_loaded k e hfind := by
    by_cases hk : k = key
    · subst hk
      rw [State.remember, Memo.find?_remember_self] at hfind
      exact hin e (Option.some.inj hfind)
    · rw [State.remember, Memo.find?_remember_of_ne _ _ _ hk] at hfind
      split at hfind
      · cases hfind
      · exact h.memo_loaded k e hfind

/-!
## Storing entries
-/

theorem mem_loaded_store (hs : forall x, x ∈ s.loaded -> x ∈ series) (he : e ∈ series)
    {y : Entry V} : y ∈ (s.store e).loaded ↔ y ∈ s.loaded ∨ y = e :=
  Series.mem_insert_of_subset hs he

theorem Sound.retains_store (h : Sound series s) (he : e ∈ series) : s.Retains (s.store e) :=
  fun _ hx => (mem_loaded_store h.loaded he).mpr (Or.inl hx)

theorem Sound.store (h : Sound series s) (he : e ∈ series) : Sound series (s.store e) where
  loaded x hx := by
    rcases (mem_loaded_store h.loaded he).mp hx with hx | hx
    · exact h.loaded x hx
    · exact hx ▸ he
  coverage span hspan := (h.coverage span hspan).mono (h.retains_store he)
  memo := h.memo
  memo_loaded k x hfind := h.retains_store he x (h.memo_loaded k x hfind)

theorem storePage_eq (s : State V) (page : Series V) :
    s.storePage page = page.toList.foldl State.store s := rfl

theorem Sound.foldl_store (h : Sound series s) {entries : List (Entry V)}
    (hsub : forall x, x ∈ entries -> x ∈ series) :
    Sound series (entries.foldl State.store s) ∧ s.Retains (entries.foldl State.store s) ∧
      forall x, x ∈ entries -> x ∈ (entries.foldl State.store s).loaded := by
  induction entries generalizing s with
  | nil =>
      exact ⟨h, Retains.refl s, by simp⟩
  | cons a rest ih =>
      have ha : a ∈ series := hsub a (by simp)
      rcases ih (h.store ha) (fun x hx => hsub x (by simp [hx])) with ⟨hsound, hretains, hall⟩
      have hstored : forall x, x ∈ a :: rest ->
          x ∈ (rest.foldl State.store (s.store a)).loaded := by
        intro x hx
        rcases List.mem_cons.mp hx with hxa | hx
        · exact hretains x ((mem_loaded_store h.loaded ha).mpr (Or.inr hxa))
        · exact hall x hx
      exact ⟨hsound, (h.retains_store ha).trans hretains, hstored⟩

theorem storePage_frame (s : State V) (page : Series V) : exists loaded pending,
    s.storePage page = { s with loaded := loaded, pending := pending } := by
  rw [storePage_eq]
  generalize page.toList = entries
  induction entries generalizing s with
  | nil => exact ⟨s.loaded, s.pending, rfl⟩
  | cons a rest ih =>
      rcases ih (s.store a) with ⟨loaded, pending, hrest⟩
      exact ⟨loaded, pending, hrest⟩

theorem coverage_storePage (s : State V) (page : Series V) :
    (s.storePage page).coverage = s.coverage := by
  rcases s.storePage_frame page with ⟨_, _, hframe⟩
  rw [hframe]

theorem epoch_storePage (s : State V) (page : Series V) : (s.storePage page).epoch = s.epoch := by
  rcases s.storePage_frame page with ⟨_, _, hframe⟩
  rw [hframe]

theorem bound_storePage (s : State V) (page : Series V) : (s.storePage page).bound = s.bound := by
  rcases s.storePage_frame page with ⟨_, _, hframe⟩
  rw [hframe]

/-!
## Extending the coverage
-/

/--
An instant at which a further span may begin: that of a loaded entry, or one that
the coverage reaches, so that the joined span begins where the coverage does.
-/
def Grounded (s : State V) (start : Instant) : Prop :=
  s.loaded.contains start = true ∨
    exists span, s.coverage = some span ∧ span.start ≤ start ∧ span.edge.reaches start = true

theorem Sound.cover (h : Sound series s) (hground : s.Grounded span.start) (hup : span.Upright)
    (hcomplete : forall e, e ∈ series -> span.contains e.key = true -> e ∈ s.loaded) :
    Sound series (s.cover span) where
  loaded := h.loaded
  memo := h.memo
  memo_loaded := h.memo_loaded
  coverage joined hjoined := by
    cases hcov : s.coverage with
    | none =>
        have heq : joined = span := by
          simpa [State.cover, hcov] using hjoined.symm
        subst heq
        constructor
        · rcases hground with hloaded | ⟨current, hcurrent, _⟩
          · exact hloaded
          · rw [hcov] at hcurrent
            cases hcurrent
        · exact hup
        · exact hcomplete
    | some current =>
        have heq : joined = current.join span := by
          simpa [State.cover, hcov] using hjoined.symm
        subst heq
        have hfilled := h.coverage current hcov
        constructor
        · rcases hground with hloaded | ⟨current', hcurrent', hle, hreach⟩
          · rcases Span.start_join current span with hstart | hstart
            · exact hstart ▸ hfilled.start
            · exact hstart ▸ hloaded
          · rw [hcov] at hcurrent'
            cases hcurrent'
            have hback : span.edge.reaches current.start = true :=
              Edge.reaches_of_le (Span.upright_iff.mp hup) hle
            have htouch := Span.touches_iff.mpr ⟨hreach, hback⟩
            rw [Span.join_of_touches htouch]
            show s.loaded.contains (min current.start span.start) = true
            rw [Instant.min_def, if_pos hle]
            exact hfilled.start
        · exact hfilled.upright.join hup
        · intro e he hin
          rcases Span.contains_or_of_contains_join hin with hin | hin
          · exact hfilled.complete e he hin
          · exact hcomplete e he hin

/-!
## Forgetting
-/

theorem sound_forget (series : Series V) (s : State V) : Sound series s.forget :=
  (sound_start series 0 none).congr rfl rfl rfl

theorem mem_of_newestWithin (h : s.newestWithin span = some e) :
    e ∈ s.loaded ∧ span.contains e.key = true := by
  have hfind : s.loaded.newestFirst.find? (fun e => span.contains e.key) = some e := h
  have hpred := List.find?_some hfind
  constructor
  · exact List.mem_of_find?_eq_some hfind
  · simpa using hpred

/-- The coverage left when the horizon has moved is filled also for a series that has grown. -/
theorem Sound.retreat (h : Sound old s) (hgrown : old.Grown series) :
    Sound series { s.retreat with memo := .empty } where
  loaded e he := hgrown.mem e (h.loaded e he)
  memo key _ hfind := by
    rw [Memo.find?_empty] at hfind
    cases hfind
  memo_loaded key _ hfind := by
    rw [Memo.find?_empty] at hfind
    cases hfind
  coverage cut hcut := by
    rcases Option.bind_eq_some_iff.mp hcut with ⟨span, hspan, hnewest⟩
    rcases Option.map_eq_some_iff.mp hnewest with ⟨newest, hwithin, rfl⟩
    rcases mem_of_newestWithin hwithin with ⟨hloaded, hin⟩
    have hfilled := h.coverage span hspan
    constructor
    · rw [Span.start_cutBefore]
      exact hfilled.start
    · exact hfilled.upright.cutBefore (Span.contains_iff.mp hin).1
    · intro e he hcontains
      have hlt := Span.lt_of_contains_cutBefore hcontains
      rcases hgrown.newer e he with hold | hnew
      · exact hfilled.complete e hold (Span.contains_of_contains_cutBefore hin hcontains)
      · exact absurd hlt (Std.not_gt_of_lt (hnew newest (h.loaded newest hloaded)))

end State
end Replica
end AsOf
