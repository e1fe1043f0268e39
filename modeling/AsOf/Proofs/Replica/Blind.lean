import AsOf.Proofs.Replica.Session

/-!
# Sources that name no latest entry

A source need not name the entry in effect.  A replica then reads forward: from the
earliest instant while it is cold, and from the end of its coverage for a key beyond
everything loaded.  For other keys outside of the coverage it reads nothing, though
the entry in effect may be missing: where a scan began later, or where a horizon that
moved has taken the coverage away.  This module shows that these lookups are wrong,
and that all others are right, along every run of lookups, scans and moves.
-/

namespace AsOf

variable {m : Type -> Type} [Monad m] {V W : Type} [Performs m W] {o : Outlook W V}
  {next : Instant -> Instant} {series : Series V} {key : Instant}

/-- A source that never names a latest entry. -/
def Source.Blind (source : Source m V) (o : Outlook W V) : Prop :=
  forall w key, o.ready w -> After (source.latestUpTo key).run w (fun r w' =>
    o.Follows w w' ∧ r = .ok none)

namespace Replica

open Outlook

variable {replica : Replica m V} {p : State V × W} {s : State V} {mark : Bookmark} {e : Entry V}

/-!
## What a lookup misses
-/

/-- The entry in effect is not loaded, and no stretch is read in search of it. -/
structure State.Misses (series : Series V) (s : State V) (key : Instant) : Prop where
  unread : s.missingStretch key = none
  absent : exists e, series.latestUpTo key = some e ∧ ¬ e ∈ s.loaded

theorem State.Sound.resolved (hs : s.Sound series)
    (hin : forall e, series.latestUpTo key = some e -> e ∈ s.loaded) :
    Resolved series key (s.loaded.latestUpTo key) s := by
  cases hlatest : series.latestUpTo key with
  | none =>
      rw [hs.latestUpTo_loaded_of_none hlatest]
      exact ⟨hlatest.symm, fun e he => by cases he⟩
  | some e =>
      have he := Series.latestUpTo_eq_some_iff.mp hlatest
      have hloaded : s.loaded.latestUpTo key = some e :=
        Series.latestUpTo_eq_some_iff.mpr
          ⟨⟨hin e hlatest, he.1.2⟩, fun x hx hle => he.2 x (hs.loaded x hx) hle⟩
      rw [hloaded]
      exact ⟨hlatest.symm, fun x hx => Option.some.inj hx ▸ hin e hlatest⟩

theorem State.Sound.not_misses_of_covers (hs : s.Sound series) (hcovers : s.covers key = true) :
    ¬ s.Misses series key := by
  intro hmisses
  rcases hmisses.absent with ⟨e, he, hnot⟩
  have hloaded := (hs.latestUpTo_loaded hcovers).trans he
  exact hnot (Series.latestUpTo_eq_some_iff.mp hloaded).1.1

theorem State.Sound.find?_of_misses (hs : s.Sound series) (hmisses : s.Misses series key) :
    s.memo.find? key = none := by
  rcases hmisses.absent with ⟨e, he, hnot⟩
  cases hfind : s.memo.find? key with
  | none => rfl
  | some found =>
      have hfound := hs.memo key found hfind
      rw [hfound, he] at hfind
      exact absurd (hs.memo_loaded key e hfind) hnot

/-- What is read in search of the entry in effect begins before it, unless it is loaded. -/
theorem State.Sound.mem_or_le_of_missingStretch (hs : s.Sound series)
    (hmark : s.missingStretch key = some mark) (he : series.latestUpTo key = some e) :
    e ∈ s.loaded ∨ mark.start ≤ e.key := by
  have hlatest := Series.latestUpTo_eq_some_iff.mp he
  unfold State.missingStretch at hmark
  split at hmark
  · cases hmark
    exact Or.inr (Instant.earliest_le e.key)
  · split at hmark
    · cases hmark
    · rename_i span hspan
      split at hmark
      · rename_i hbeyond
        rcases Option.map_eq_some_iff.mp hmark with ⟨upper, hupper, rfl⟩
        rcases Std.lt_trichotomy e.key upper with hlt | heq | hgt
        · have hfilled := hs.coverage span hspan
          rcases Series.contains_iff.mp hfilled.start with ⟨first, hfirst, hkey⟩
          have hstart : span.start < key :=
            of_decide_eq_true (Bool.and_eq_true_iff.mp hbeyond).1
          have hge : span.start ≤ e.key := by
            rw [← hkey]
            exact hlatest.2 first (hs.loaded first hfirst) (hkey ▸ Std.le_of_lt hstart)
          have hadmits := Edge.admits_of_lt_of_reaches
            ((Edge.reaches_iff_of_key? hupper).mpr (Std.le_refl upper)) hlt
          exact Or.inl (hfilled.complete e hlatest.1.1 (Span.contains_iff.mpr ⟨hge, hadmits⟩))
        · exact Or.inr (Std.le_of_eq heq.symm)
        · exact Or.inr (Std.le_of_lt hgt)
      · cases hmark

structure Settles (series : Series V) (s : State V) (key : Instant) (found : Option (Entry V))
    (s' : State V) : Prop where
  right : ¬ s.Misses series key -> Resolved series key found s'
  wrong : s.Misses series key -> found ≠ series.latestUpTo key

section Lookups

variable (h : replica.Pages o next)

theorem yields_loaded (hp : Settled o p) (cold : Bool) (key : Instant) :
    Yields o (do
      modify fun s => { s with loadedFromStart := s.loadedFromStart || cold }
      return (<- get).loaded.latestUpTo key : Action m V (Option (Entry V))) p
      (fun found s' => found = p.1.loaded.latestUpTo key ∧ s'.loaded = p.1.loaded) := by
  apply (Yields.modify (hp.aside rfl rfl rfl rfl rfl)).bind
  intro _ p₁ hp₁ hs₁
  have hsettled := hp₁.settled hp
  apply (Yields.get hsettled).bind
  intro s p₂ hp₂ hpost
  rcases hpost with ⟨rfl, hs₂⟩
  exact .pure (hp₂.settled hsettled) ⟨by rw [hs₁], by rw [hs₂, hs₁]⟩

include h

theorem settles_resolveForward (hp : Settled o p) (key : Instant) :
    Yields o (replica.resolveForward key) p (Settles (o.series p.2) p.1 key) := by
  unfold resolveForward
  apply (Yields.get hp).bind
  intro before p₁ hp₁ hpost
  rcases hpost with ⟨rfl, hs₁⟩
  have hsettled := hp₁.settled hp
  have hseries := hp₁.follows.series
  dsimp only
  split
  · rename_i mark hmark
    have hfits := (hp.sound.fits_missingStretch hmark).mono hp₁.retains (by rw [hs₁])
    rw [← hseries] at hfits
    apply (yields_fetchUntil h key mark hsettled hfits).bind
    intro _ p₂ hp₂ hread
    have hsettled₂ := hp₂.settled hsettled
    apply (yields_loaded hsettled₂ p.1.isCold key).imp
    intro found p₃ _ hpost
    rcases hpost with ⟨rfl, hsame⟩
    constructor
    · intro _
      have hin : forall e, (o.series p.2).latestUpTo key = some e -> e ∈ p₂.1.loaded := by
        intro e he
        have hmem := (Series.latestUpTo_eq_some_iff.mp he).1
        rcases hp.sound.mem_or_le_of_missingStretch hmark he with hloaded | hle
        · exact hp₂.retains e (hp₁.retains e hloaded)
        · exact hread e (hseries ▸ hmem.1) hle hmem.2
      have hsound : p₂.1.Sound (o.series p.2) := by
        rw [← hseries, ← hp₂.follows.series]
        exact hsettled₂.sound
      have hresolved := hsound.resolved hin
      exact ⟨hresolved.1, hsame ▸ hresolved.2⟩
    · intro hmisses
      rw [hmisses.unread] at hmark
      cases hmark
  · rename_i hmark
    apply (yields_loaded hsettled p.1.isCold key).imp
    intro found p₂ _ hpost
    rcases hpost with ⟨rfl, hsame⟩
    rw [hs₁] at hsame ⊢
    constructor
    · intro hnot
      have hin : forall e, (o.series p.2).latestUpTo key = some e -> e ∈ p.1.loaded := fun e he =>
        Classical.byContradiction fun habsent => hnot ⟨hmark, e, he, habsent⟩
      have hresolved := hp.sound.resolved hin
      exact ⟨hresolved.1, hsame ▸ hresolved.2⟩
    · intro hmisses hright
      rcases hmisses.absent with ⟨e, he, habsent⟩
      exact habsent (Series.latestUpTo_eq_some_iff.mp (hright.trans he)).1.1

variable (hblind : replica.source.Blind o)

include hblind

omit h in
theorem yields_probe_blind (hp : Settled o p) (key : Instant) :
    Yields o (replica.probe key) p (fun found s' =>
      found = none ∧ s'.loaded = p.1.loaded ∧ s'.missingStretch key = p.1.missingStretch key) := by
  unfold probe
  apply (Yields.modify (hp.aside rfl rfl rfl rfl rfl)).bind
  intro _ p₁ hp₁ hs₁
  have hsettled := hp₁.settled hp
  have hnone : After (replica.source.latestUpTo key).run p₁.2 (fun r w' => o.Follows p₁.2 w' ∧
      o.Delivers p₁.2 w' (· = none) (r.mapError (.load key))) := by
    apply After.imp (hblind p₁.2 key hsettled.ready)
    intro r w' hpost
    rcases hpost with ⟨hw', rfl⟩
    exact ⟨hw', rfl⟩
  apply (Yields.ask hsettled hnone).imp
  intro found p₂ _ hpost
  rcases hpost with ⟨rfl, hs₂⟩
  rw [hs₂, hs₁]
  exact ⟨rfl, rfl, rfl⟩

theorem settles_resolve (hp : Settled o p) (key : Instant) :
    Yields o (replica.resolve key) p (Settles (o.series p.2) p.1 key) := by
  unfold resolve
  apply (Yields.get hp).bind
  intro s p₁ hp₁ hpost
  rcases hpost with ⟨rfl, hs₁⟩
  have hsettled := hp₁.settled hp
  split
  · rename_i hcovers
    apply (Yields.modify (hsettled.aside rfl rfl rfl rfl rfl)).bind
    intro _ p₂ hp₂ _
    have hresolved : Resolved (o.series p.2) key (p.1.loaded.latestUpTo key) p₂.1 := by
      refine ⟨hp.sound.latestUpTo_loaded hcovers, fun e he => ?_⟩
      exact hp₂.retains e (hp₁.retains e (Series.latestUpTo_eq_some_iff.mp he).1.1)
    refine .pure (hp₂.settled hsettled) ⟨fun _ => hresolved, fun hmisses => ?_⟩
    exact absurd hmisses (hp.sound.not_misses_of_covers hcovers)
  · apply (Yields.modify (hsettled.aside rfl rfl rfl rfl rfl)).bind
    intro _ p₂ hp₂ hs₂
    have hsettled₂ := hp₂.settled hsettled
    apply (yields_probe_blind hblind hsettled₂ key).bind
    intro found p₃ hp₃ hpost
    rcases hpost with ⟨rfl, hloaded, hstretch⟩
    have hseries : o.series p₃.2 = o.series p.2 := by
      rw [hp₃.follows.series, hp₂.follows.series, hp₁.follows.series]
    have hmisses : p₃.1.Misses (o.series p.2) key ↔ p.1.Misses (o.series p.2) key := by
      have hbefore : p₂.1.loaded = p.1.loaded ∧
          p₂.1.missingStretch key = p.1.missingStretch key := by
        rw [hs₂, hs₁]
        exact ⟨rfl, rfl⟩
      rw [hbefore.1] at hloaded
      rw [hbefore.2] at hstretch
      constructor
      · exact fun hmisses => ⟨hstretch ▸ hmisses.unread, hloaded ▸ hmisses.absent⟩
      · exact fun hmisses => ⟨hstretch ▸ hmisses.unread, hloaded ▸ hmisses.absent⟩
    apply (settles_resolveForward h (hp₃.settled hsettled₂) key).imp
    intro found p₄ _ hsettles
    rw [hseries] at hsettles
    exact ⟨fun hnot => hsettles.right fun hm => hnot (hmisses.mp hm),
      fun hm => hsettles.wrong (hmisses.mpr hm)⟩

theorem after_lookup_blind (hl : Listens o replica.listener) (hready : o.ready p.2)
    (hp : Trusted o p) (hnot : ¬ (p.1.observed o p.2).Misses (o.series p.2) key) :
    After (replica.lookup key).run p (fun r p' => Advance o p p' ∧
      o.Delivers p.2 p'.2 (fun found => Resolved (o.series p.2) key found p'.1) r) := by
  apply after_lookup_of_resolve h hl hready hp key
  intro p' hp' hobserved
  apply (settles_resolve h hblind hp'.current.toSettled key).imp
  intro found p'' _ hsettles
  apply hsettles.right
  rw [hobserved, hp'.follows.series]
  exact hnot

theorem after_lookup_misses (hready : o.ready p.2) (hp : Trusted o p)
    (hmisses : (p.1.observed o p.2).Misses (o.series p.2) key) :
    After (replica.lookup key).run p (fun r _ => r ≠ .ok ((o.series p.2).latestUpTo key)) := by
  unfold lookup
  apply after_except_bind.mpr
  apply after_except_lift.mpr
  apply After.imp ((after_sync h hready hp).and (after_sync_observed h hready))
  intro _ p₁ hpost
  rcases hpost with ⟨hp₁, hobserved⟩
  have hsettled := hp₁.current.toSettled
  have hseries := hp₁.follows.series
  rcases p₁ with ⟨s, w₁⟩
  rw [← hobserved, ← hseries] at hmisses
  have hmemo : s.memo.find? key = none := hsettled.sound.find?_of_misses hmisses
  apply after_except_bind.mpr
  apply after_request_get.mpr
  dsimp only
  rw [hmemo]
  unfold announcing
  apply after_except_mk.mpr
  apply after_bind.mpr
  apply after_except_bind.mpr
  apply After.imp (settles_resolve h hblind hsettled key)
  intro r p₂ hpost
  rcases hpost with ⟨-, hr⟩
  cases r with
  | error e =>
      apply after_bind.mpr
      refine after_of_forall fun _ _ => after_pure.mpr fun heq => ?_
      cases heq
  | ok found =>
      apply after_except_bind.mpr
      apply after_request_modify.mpr
      apply after_except_pure.mpr
      apply after_bind.mpr
      refine after_of_forall fun _ _ => after_pure.mpr fun heq => ?_
      exact hr.wrong hmisses (hseries ▸ Except.ok.inj heq)

end Lookups

namespace Session

variable {x : Session W V} {c : Command W}

/-!
## Runs of lookups, scans and moves
-/

/-- Nothing is reset: neither by hand nor by a new epoch. -/
def Ordinary (o : Outlook W V) (x : Session W V) : Command W -> Prop
  | .clear => False
  | .move w => o.ready w ∧ o.epoch w = o.epoch x.world
  | _ => True

def Correct (replica : Replica m V) (o : Outlook W V) (x : Session W V) : Command W -> Prop
  | .lookup key => After (replica.lookup key).run x.here
      (fun r _ => r = .ok ((o.series x.world).latestUpTo key))
  | _ => True

def Misses (o : Outlook W V) (x : Session W V) : Command W -> Prop
  | .lookup key => (x.memory.observed o x.world).Misses (o.series x.world) key
  | _ => False

structure Level (o : Outlook W V) (next : Instant -> Instant) (series : Series V)
    (x : Session W V) : Prop extends Right o next x where
  seen : x.seen = series
  level : forall begun, begun ∈ x.scans -> begun.age = x.resets

theorem Level.fresh (hx : x.Level o next series) (hstill : o.Still series) : x.Fresh o :=
  Or.inl ((hstill.series x.world hx.ready).trans hx.seen.symm)

theorem Level.passed {p : State V × W} (hx : x.Level o next series) (hstill : o.Still series)
    (hp : Advance o x.here p) : (x.passed o p true).Level o next series where
  toRight := hx.toRight.passed hp
  seen := hstill.series p.2 hp.current.ready
  level := hx.level

section Steps

variable (h : replica.Pages o next) (hstill : o.Still series)

include h hstill

theorem level_start {w : W} (hready : o.ready w) :
    (start replica o w).Level o next series := by
  have hright := right_start_of_pages h hready
  refine ⟨hright, hstill.series _ hright.ready, fun begun hbegun => ?_⟩
  cases hbegun

theorem Level.pull (hl : Listens o replica.listener) (hx : x.Level o next series)
    (index : Nat) : (x.step replica o (.pull index)).Level o next series := by
  have hallowed : x.Allowed o (.pull index) := fun begun hget =>
    ⟨hx.level begun (List.mem_of_getElem? hget), fun _ => hx.fresh hstill⟩
  have hright := (right_pull h hl hx.toRight hallowed).2
  cases hget : x.scans[index]? with
  | none => simpa only [step, hget] using hx
  | some begun =>
      refine ⟨hright, ?_, ?_⟩
      · have hready := hright.ready
        simp only [step, hget, Session.passed] at hready ⊢
        split
        · exact hstill.series _ hready
        · exact hx.seen
      · simp only [step, hget]
        intro other hother
        rcases List.mem_or_eq_of_mem_set hother with hold | rfl
        · exact hx.level other hold
        · exact hx.level begun (List.mem_of_getElem? hget)

/-- A lookup is correct exactly if it misses nothing, and then the session remains level. -/
theorem level_lookup (hblind : replica.source.Blind o) (hl : Listens o replica.listener)
    (hx : x.Level o next series) (key : Instant) :
    (x.Correct replica o (.lookup key) ↔ ¬ x.Misses o (.lookup key)) ∧
      (¬ x.Misses o (.lookup key) ->
        (x.step replica o (.lookup key)).Level o next series) := by
  have htrusted := hx.toRight.trusted (hx.fresh hstill)
  constructor
  · constructor
    · intro hcorrect hmisses
      exact after_lookup_misses h hblind hx.ready htrusted hmisses hcorrect
    · intro hnot
      unfold Correct
      apply After.imp (after_lookup_blind h hblind hl hx.ready htrusted hnot)
      intro r p hpost
      rcases hpost with ⟨hp, hr⟩
      have hright := hr.imp fun found hfound => hfound.1
      exact hright.eq_ok (hstill.failures p.2 hp.current.ready)
  · intro hnot
    exact hx.passed hstill (after_lookup_blind h hblind hl hx.ready htrusted hnot).1

theorem level_step (hblind : replica.source.Blind o) (hl : Listens o replica.listener)
    (hx : x.Level o next series) (hordinary : x.Ordinary o c) :
    (x.Correct replica o c ↔ ¬ x.Misses o c) ∧
      (¬ x.Misses o c -> (x.step replica o c).Level o next series) := by
  cases c with
  | lookup key => exact level_lookup h hstill hblind hl hx key
  | begin key =>
      refine ⟨iff_of_true trivial id, fun _ => ⟨hx.toRight.begin key, hx.seen, ?_⟩⟩
      intro begun hbegun
      rcases List.mem_append.mp hbegun with hold | hnew
      · exact hx.level begun hold
      · cases List.mem_singleton.mp hnew
        rfl
  | pull index => exact ⟨iff_of_true trivial id, fun _ => hx.pull h hstill hl index⟩
  | clear => exact hordinary.elim
  | move w =>
      have hseries : o.series w = o.series x.world :=
        (hstill.series w hordinary.1).trans (hstill.series x.world hx.ready).symm
      have hmoved : (x.step replica o (.move w)).Right o next :=
        hx.toRight.move hordinary.1 (hseries ▸ Series.Grown.refl _)
      refine ⟨iff_of_true trivial id, fun _ => ⟨hmoved, hx.seen, fun begun hbegun => ?_⟩⟩
      simp only [step, if_pos hordinary.2]
      exact hx.level begun hbegun

end Steps

/--
Without a latest entry, a run of lookups, scans and moves is answered rightly exactly
as long as no lookup misses: the entry in effect is loaded, or what is missing is read.
-/
theorem correct_iff_never_misses {w : W} {commands : List (Command W)} (h : replica.Pages o next)
    (hblind : replica.source.Blind o) (hl : Listens o replica.listener)
    (hstill : o.Still series) (hready : o.ready w)
    (hordinary : Each (step replica o) (Ordinary o) (start replica o w) commands) :
    Each (step replica o) (Correct replica o) (start replica o w) commands ↔
      Each (step replica o) (fun x c => ¬ x.Misses o c) (start replica o w) commands :=
  each_iff_of_kept (fun _ _ hx hc => level_step h hstill hblind hl hx hc)
    (level_start h hstill hready) hordinary

def unprobed : Replica (StateM (Ledger Int)) Int :=
  { Ledger.plain with source := { Ledger.source with latestUpTo := fun _ => pure none } }

theorem pages_unprobed {spoken : Ledger Int -> Prop} (hspoken : Ledger.Closed spoken) :
    unprobed.Pages (Ledger.outlook spoken) (fun key => key.shift 1) where
  source := { Ledger.faithful_source hspoken with }
  horizon := Ledger.shows_horizon
  epoch := Ledger.shows_revisions

theorem blind_unprobed (spoken : Ledger Int -> Prop) :
    unprobed.source.Blind (Ledger.outlook spoken) :=
  fun w _ _ => ⟨Follows.refl _ w, rfl⟩

def single : Ledger Int :=
  { Ledger.holding [10, 20, 30] with limit := some ⟨1, by decide⟩ }

def retreating : List (Command (Ledger Int)) :=
  [.lookup (.ofNanos 10), .move { single with bound := some (.ofNanos 40) },
    .lookup (.ofNanos 20)]

theorem correct_iff_never_misses_on_ledger :
    let o := Ledger.outlook (Ledger.Holds single.series)
    Each (step unprobed o) (Correct unprobed o) (start unprobed o single) retreating ↔
      Each (step unprobed o) (fun x c => ¬ x.Misses o c) (start unprobed o single)
        retreating := by
  intro o
  have hclosed := Ledger.closed_holds single.series
  have hopen : single.Open := by decide
  apply correct_iff_never_misses (pages_unprobed hclosed) (blind_unprobed _)
    (Ledger.quiet_replica {}).listens (Ledger.still_holds _)
  · exact ⟨rfl, hopen, rfl, rfl⟩
  · have hepoch : (0 : Nat) = (step unprobed o (start unprobed o single)
        (.lookup (.ofNanos 10))).world.epoch := by
      decide +kernel
    exact ⟨trivial, ⟨⟨rfl, hopen, rfl, rfl⟩, hepoch⟩, trivial, trivial⟩

def retreated : Session (Ledger Int) Int :=
  (retreating.take 2).foldl (step unprobed (Ledger.outlook (Ledger.Holds single.series)))
    (start unprobed (Ledger.outlook (Ledger.Holds single.series)) single)

/-- The horizon moves, the coverage is gone, and what follows is never read. -/
theorem not_correct_when_retreated :
    let o := Ledger.outlook (Ledger.Holds single.series)
    ¬ Each (step unprobed o) (Correct unprobed o) (start unprobed o single) retreating := by
  intro o hall
  have hanswer : (perform (unprobed.lookup (.ofNanos 20)).run retreated.here).1.toOption =
      some (some ⟨.ofNanos 10, 10⟩) := by
    decide +kernel
  have hseries : retreated.world.series.latestUpTo (.ofNanos 20) = some ⟨.ofNanos 20, 20⟩ := by
    decide +kernel
  have hcorrect : (perform (unprobed.lookup (.ofNanos 20)).run retreated.here).1 =
      .ok (retreated.world.series.latestUpTo (.ofNanos 20)) := hall.2.2.1
  rw [hcorrect, hseries] at hanswer
  exact absurd hanswer (by decide)

end Session
end Replica
end AsOf
