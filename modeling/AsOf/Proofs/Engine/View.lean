import AsOf.Proofs.Walk

/-!
# Direct answers from the series

What the requests of a view mean for the series itself: runs of its entries that
end at an instant or begin there.  Over a faithful archive each request of a view
is answered by its run, or fails with a failure of the archive.

The instant that a request is about, the positions that it goes back or ahead and
what it makes of an absent entry are written out here, apart from the operations
that find them.
-/

namespace AsOf

variable {m : Type -> Type} [Monad m] {V W α : Type} [Performs m W] {o : Outlook W V}

/-!
## Terms of a request
-/

/-- The instant asked for, or the bound if it lies before it and the future is not open. -/
def Options.about (options : Options) (bound : Option Instant) (key : Instant) : Instant :=
  if options.future then key else bound.elim key (min key)

namespace Demand

/-- What each demand makes of the entry in effect at an instant. -/
def verdict (demand : Demand) (key : Instant) (found : Option (Entry V)) :
    Except QueryError (Option (Entry V)) :=
  match demand, found with
  | .lenient, found => .ok found
  | .exact, found => .ok (found.filter fun e => e.key = key)
  | .required, some e => .ok (some e)
  | .requiredExact, some e => if e.key = key then .ok (some e) else .error (.keyMismatch key e.key)
  | .required, none | .requiredExact, none => .error (.noData key 0)

/-- What each demand makes of the entry some positions away from an instant. -/
def presence (demand : Demand) (key : Instant) (distance : Nat) (found : Option α) :
    Except QueryError (Option α) :=
  match demand, found with
  | .lenient, found | .exact, found => .ok found
  | .required, some e | .requiredExact, some e => .ok (some e)
  | .required, none | .requiredExact, none => .error (.noData key distance)

theorem apply_eq_verdict (demand : Demand) (key : Instant) (found : Option (Entry V)) :
    demand.apply key found = demand.verdict key found := by
  cases found with
  | none => cases demand <;> rfl
  | some e =>
      by_cases hkey : e.key = key
      · cases demand <;> simp [apply, verdict, isExact, hkey, Option.filter_some]
      · cases demand <;> simp [apply, verdict, isExact, isRequired, hkey, Option.filter_some]

theorem require_eq_presence (demand : Demand) (key : Instant) (distance : Nat)
    (found : Option α) :
    demand.require key distance found = demand.presence key distance found := by
  cases found with
  | none => cases demand <;> rfl
  | some e => cases demand <;> rfl

end Demand

/-!
## Runs of a series
-/

namespace Series

def lastUpTo (s : Series V) (a : Instant) (count : Nat) : List (Entry V) :=
  (s.upTo a).drop ((s.upTo a).length - count)

/-- The entry some positions before the one in effect, or the oldest one. -/
def entryBack (s : Series V) (a : Instant) (distance : Nat) : Option (Entry V) :=
  (s.downFrom a)[distance]?.or (s.downFrom a).getLast?

def between (s : Series V) (a : Instant) (bound : Option Instant) : List (Entry V) :=
  (s.onwards a).filter fun e => bound.all fun upper => e.key ≤ upper

/-- The entry some positions after the first one from an instant on, or the newest one. -/
def entryAhead (s : Series V) (a : Instant) (bound : Option Instant) (distance : Nat) :
    Option (Entry V) :=
  (s.between a bound)[distance]?.or (s.between a bound).getLast?

theorem lastUpTo_eq (s : Series V) (a : Instant) (count : Nat) :
    s.lastUpTo a count = ((s.downFrom a).take count).reverse := by
  unfold lastUpTo
  rw [upTo_eq_reverse, List.length_reverse, List.reverse_take]

theorem getLast?_take_succ (l : List (Entry V)) (distance : Nat) :
    (l.take (Count.succ distance)).getLast? =
      l[min distance (Count.limit - 1)]?.or l.getLast? := by
  rw [Count.succ_eq, List.getLast?_take, if_neg (Nat.succ_ne_zero _), Nat.add_sub_cancel]

theorem takeWhile_take_onwards (s : Series V) (a : Instant) (bound : Option Instant)
    (count : Nat) :
    ((s.onwards a).take count).takeWhile (fun e => bound.all fun upper => e.key ≤ upper) =
      (s.between a bound).take count := by
  unfold between
  have hascending := s.ascending_onwards a
  generalize s.onwards a = entries at hascending
  induction entries generalizing count with
  | nil => simp
  | cons e rest ih =>
      have he := List.pairwise_cons.mp hascending
      cases count with
      | zero => rfl
      | succ count =>
          rw [List.take_succ_cons, List.takeWhile_cons, List.filter_cons]
          split
          · rw [List.take_succ_cons, ih count he.2]
          · rename_i hbeyond
            have hall : rest.filter (fun e => bound.all fun upper => e.key ≤ upper) = [] := by
              apply List.filter_eq_nil_iff.mpr
              intro x hx hxwithin
              cases bound with
              | none => exact hbeyond rfl
              | some upper =>
                  have hle : x.key ≤ upper := by simpa using hxwithin
                  exact hbeyond (by simpa using Std.le_trans (Std.le_of_lt (he.1 x hx)) hle)
            rw [hall]
            rfl

end Series

/-!
## Views that are read rightly
-/

namespace Outlook

def about (o : Outlook W V) (w : W) (options : Options) (key : Instant) : Instant :=
  options.about (o.bound w) key

def within (o : Outlook W V) (w : W) (options : Options) : Option Instant :=
  if options.future then none else o.bound w

theorem Follows.about_eq {w w' : W} (h : o.Follows w w') (options : Options) (key : Instant) :
    o.about w' options key = o.about w options key := by
  unfold about
  rw [h.bound]

/-- A result is the one expected, or a failure that happened on the way to it. -/
def Returns (o : Outlook W V) (w w' : W) (expected r : Except QueryError α) : Prop :=
  r = expected ∨ exists e, e ∈ o.since w w' ∧ r = .error e

theorem Returns.eq {w w' : W} {expected r : Except QueryError α} (h : o.Returns w w' expected r)
    (hnone : o.failures w' = []) : r = expected := by
  rcases h with rfl | ⟨e, he, -⟩
  · rfl
  · exact absurd he (not_mem_since hnone)

theorem Delivers.returns {w w' : W} {a : α} {r : Except QueryError α}
    (h : o.Delivers w w' (· = a) r) : o.Returns w w' (.ok a) r := by
  cases r with
  | ok b => exact Or.inl (congrArg Except.ok h)
  | error e => exact Or.inr ⟨e, h, rfl⟩

end Outlook

/-- A view of a faithful archive under the horizon and the epoch of the world. -/
structure View.Reads (view : View m V) (o : Outlook W V)
    (live : W -> view.archive.Scan -> Prop) : Prop where
  archive : view.archive.Faithful o live
  horizon : view.horizon.Shows o
  epoch : view.epoch.Shows o

namespace View

open Outlook

variable {view : View m V} {live : W -> view.archive.Scan -> Prop} (h : view.Reads o live)
  {w : W}

include h

theorem after_adjust (hready : o.ready w) (options : Options) (key : Instant) :
    After (view.adjust options key) w (fun a w' => a = o.about w options key ∧ o.Follows w w') := by
  unfold adjust Outlook.about Options.about
  split
  · exact after_pure.mpr ⟨rfl, Follows.refl o w⟩
  · unfold Horizon.clamp
    apply after_bind.mpr
    apply After.imp (h.horizon w hready)
    intro _ w' hpost
    rcases hpost with ⟨rfl, hw'⟩
    exact after_pure.mpr ⟨Horizon.clampTo_eq _ key, hw'⟩

theorem after_highest (hready : o.ready w) (options : Options) :
    After (view.highest options) w (fun b w' => b = o.within w options ∧ o.Follows w w') := by
  unfold highest Outlook.within
  split
  · exact after_pure.mpr ⟨rfl, Follows.refl o w⟩
  · exact h.horizon w hready

theorem after_trailing (hready : o.ready w) (a : Instant) (count : Nat) :
    After (view.trailing a count).run w (fun r w' => o.Follows w w' ∧
      o.Delivers w w' (· = ((o.series w).downFrom a).take count) r) :=
  (Walk.feeds h.archive).take count hready (Walk.awaits_startAt w a count)

theorem after_trailing_about (hready : o.ready w) (options : Options) (key : Instant)
    (count : Nat) (f : List (Entry V) -> α) :
    After (do
        let adjusted <- view.adjust options key
        return f (<- view.trailing adjusted count) : ExceptT QueryError m α).run w
      (fun r w' => o.Follows w w' ∧
        o.Delivers w w'
          (· = f (((o.series w).downFrom (o.about w options key)).take count)) r) := by
  apply after_except_bind.mpr
  apply after_except_lift.mpr
  apply After.imp (after_adjust h hready options key)
  intro _ w₁ hpost
  rcases hpost with ⟨rfl, hw₁⟩
  apply after_except_bind.mpr
  apply After.imp (after_trailing h (hw₁.ready hready) _ count)
  intro r w₂ hpost
  rcases hpost with ⟨hw₂, hr⟩
  rw [hw₁.series] at hr
  have hlater := hr.later hw₁ hw₂
  cases r with
  | error e => exact ⟨hw₁.trans hw₂, hlater⟩
  | ok run => exact after_except_pure.mpr ⟨hw₁.trans hw₂, congrArg f hlater⟩

theorem after_furtherBack (hready : o.ready w) (a : Instant) (count : Nat)
    {run : List (Entry V)} {oldest : Entry V} (hlast : run.getLast? = some oldest)
    (holdest : oldest ∈ o.series w) :
    After (view.furtherBack a count run).run w (fun r w' => o.Follows w w' ∧
      o.Delivers w w' (· = ((o.series w).downBefore oldest.key).take (count - run.length)) r) := by
  unfold furtherBack
  rw [hlast]
  dsimp only
  apply after_except_bind.mpr
  apply after_except_lift.mpr
  unfold Walk.before
  simp only [after_bind, after_pure]
  apply After.imp (h.archive.previousKey w oldest hready holdest)
  intro k w₁ hpost
  rcases hpost with ⟨hw₁, hk⟩
  have hready₁ := hw₁.ready hready
  have hawaits : Walk.Awaits o w₁ ⟨some k, some oldest.key, count⟩
      ((o.series w₁).downBefore oldest.key) := by
    rw [← hw₁.series] at hk
    exact Walk.awaits_next hk
  apply After.imp ((Walk.feeds h.archive).take (count - run.length) hready₁ hawaits)
  intro r w₂ hpost
  rcases hpost with ⟨hw₂, hr⟩
  rw [hw₁.series] at hr
  exact ⟨hw₁.trans hw₂, hr.later hw₁ hw₂⟩

theorem after_entry (hready : o.ready w) (options : Options) (key : Instant) :
    After (view.entry options key).run w (fun r w' => o.Follows w w' ∧
      o.Returns w w' (options.demand.verdict (o.about w options key)
        ((o.series w).latestUpTo (o.about w options key))) r) := by
  unfold entry
  apply after_except_bind.mpr
  apply after_except_lift.mpr
  apply After.imp (after_adjust h hready options key)
  intro _ w₁ hpost
  rcases hpost with ⟨rfl, hw₁⟩
  apply after_except_bind.mpr
  apply After.imp (h.archive.lookup w₁ _ (hw₁.ready hready))
  intro r w₂ hpost
  rcases hpost with ⟨hw₂, hr⟩
  have hw := hw₁.trans hw₂
  rw [hw₁.series] at hr
  cases r with
  | error e =>
      exact ⟨hw, Or.inr ⟨e, mem_since_of_later hw₁ hw₂ hr, rfl⟩⟩
  | ok found =>
      have hfound : found = (o.series w).latestUpTo (o.about w options key) := hr
      have hnot : ¬ found.any (fun e => o.about w options key < e.key) = true := by
        cases hlatest : found with
        | none => simp
        | some e =>
            rw [hlatest] at hfound
            have hle := (Series.latestUpTo_eq_some_iff.mp hfound.symm).1.2
            simpa using Std.not_lt.mpr hle
      dsimp only
      rw [if_neg hnot, hfound, Demand.apply_eq_verdict]
      exact after_pure.mpr ⟨hw, Or.inl rfl⟩

theorem after_previousEntries (hready : o.ready w) (options : Options) (key : Instant)
    (count : Nat) :
    After (view.previousEntries options key count).run w (fun r w' => o.Follows w w' ∧
      o.Delivers w w' (· = (o.series w).lastUpTo (o.about w options key) count) r) := by
  unfold previousEntries
  rw [Series.lastUpTo_eq]
  exact after_trailing_about h hready options key count List.reverse

theorem after_previousEntry (hready : o.ready w) (options : Options) (key : Instant)
    (distance : Nat) :
    After (view.previousEntry options key distance).run w (fun r w' => o.Follows w w' ∧
      o.Delivers w w'
        (· = (o.series w).entryBack (o.about w options key)
          (min distance (Count.limit - 1))) r) := by
  have hlast := after_trailing_about h hready options key (Count.succ distance) List.getLast?
  rw [Series.getLast?_take_succ] at hlast
  exact hlast

theorem follows_nextEntries (hready : o.ready w) (options : Options) (key : Instant)
    (count : Nat) :
    After (view.nextEntries options key count).run w (fun _ w' => o.Follows w w') := by
  unfold nextEntries
  apply after_except_bind.mpr
  apply after_except_lift.mpr
  apply After.imp (after_highest h hready options)
  intro highest w₁ hpost
  rcases hpost with ⟨-, hw₁⟩
  apply after_except_bind.mpr
  apply after_except_lift.mpr
  apply After.imp (after_adjust h (hw₁.ready hready) options key)
  intro a w₂ hpost
  rcases hpost with ⟨-, hw₂⟩
  have hw := hw₁.trans hw₂
  apply after_except_bind.mpr
  apply after_except_lift.mpr
  apply After.imp (h.archive.scanFrom w₂ a (hw.ready hready))
  intro scan w₃ hpost
  rcases hpost with ⟨hw₃, hlive⟩
  apply after_except_map.mpr
  apply After.imp (Pull.follows_gather h.archive.pull _ count ((hw.trans hw₃).ready hready) hlive)
  exact fun _ _ hw₄ => (hw.trans hw₃).trans hw₄

theorem follows_nextEntry (hready : o.ready w) (options : Options) (key : Instant)
    (distance : Nat) :
    After (view.nextEntry options key distance).run w (fun _ w' => o.Follows w w') := by
  unfold nextEntry
  apply after_except_bind.mpr
  apply After.imp (follows_nextEntries h hready options key _)
  intro r w' hw'
  cases r with
  | error e => exact hw'
  | ok run => exact after_except_pure.mpr hw'

theorem after_nextEntries {awaits : W -> view.archive.Scan -> List (Entry V) -> Prop}
    (hscans : view.archive.Scans o awaits) (hready : o.ready w) (options : Options)
    (key : Instant) (count : Nat) :
    After (view.nextEntries options key count).run w (fun r w' => o.Follows w w' ∧
      o.Delivers w w'
        (· = ((o.series w).between (o.about w options key)
          (o.within w options)).take count) r) := by
  unfold nextEntries
  apply after_except_bind.mpr
  apply after_except_lift.mpr
  apply After.imp (after_highest h hready options)
  intro _ w₁ hpost
  rcases hpost with ⟨rfl, hw₁⟩
  apply after_except_bind.mpr
  apply after_except_lift.mpr
  apply After.imp (after_adjust h (hw₁.ready hready) options key)
  intro _ w₂ hpost
  rcases hpost with ⟨rfl, hw₂⟩
  have habout := hw₁.about_eq options key
  have hw := hw₁.trans hw₂
  apply after_except_bind.mpr
  apply after_except_lift.mpr
  apply After.imp (hscans.scanFrom w₂ _ (hw.ready hready))
  intro scan w₃ hpost
  rcases hpost with ⟨hw₃, hawaits⟩
  have hall := hw.trans hw₃
  apply After.imp (hscans.feeds.takeWhile _ count (hall.ready hready) hawaits)
  intro r w₄ hpost
  rcases hpost with ⟨hw₄, hr⟩
  refine ⟨hall.trans hw₄, (hr.later hall hw₄).imp fun run hrun => ?_⟩
  rw [hrun, habout, hw.series]
  exact Series.takeWhile_take_onwards _ _ _ _

theorem after_nextEntry {awaits : W -> view.archive.Scan -> List (Entry V) -> Prop}
    (hscans : view.archive.Scans o awaits) (hready : o.ready w) (options : Options)
    (key : Instant) (distance : Nat) :
    After (view.nextEntry options key distance).run w (fun r w' => o.Follows w w' ∧
      o.Delivers w w'
        (· = (o.series w).entryAhead (o.about w options key) (o.within w options)
          (min distance (Count.limit - 1))) r) := by
  unfold nextEntry
  apply after_except_bind.mpr
  apply After.imp (after_nextEntries h hscans hready options key _)
  intro r w' hpost
  rcases hpost with ⟨hw', hr⟩
  cases r with
  | error e =>
      exact ⟨hw', hr⟩
  | ok run =>
      refine after_except_pure.mpr ⟨hw', ?_⟩
      rw [show run = _ from hr]
      exact Series.getLast?_take_succ _ _

end View
end AsOf
