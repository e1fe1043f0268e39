import AsOf.Proofs.Replica.Laziness

/-!
# Page loops advance

Nothing is assumed of a source here.  Its batches may be stuck or out of order, may go on without
end or may fail, and the key that it names after another one may lie anywhere.  A page loop goes on
only from a start that lies after the one before it, so that the starts of its pages ascend and
there are no more of them than instants from the first on.  A page costs a load, a question for
the limit and one for the key to go on from.
-/

namespace AsOf

/-!
## Ascending instants
-/

theorem Instant.length_le_of_ascending {first : Instant} {instants : List Instant}
    (hascending : instants.Pairwise (· < ·)) (hfirst : forall key, key ∈ instants -> first ≤ key) :
    instants.length ≤ first.remaining + 1 := by
  induction instants generalizing first with
  | nil => exact Nat.zero_le _
  | cons key rest ih =>
      rcases List.pairwise_cons.mp hascending with ⟨hbefore, hrest⟩
      have hkey := Instant.le_def.mp (hfirst key (List.mem_cons_self ..))
      have hlast := key.le_last
      cases rest with
      | nil => exact Nat.succ_pos _
      | cons after rest =>
          have hafter := Instant.lt_def.mp (hbefore after (List.mem_cons_self ..))
          have hend := after.le_last
          have hfrom : forall x, x ∈ after :: rest -> after ≤ x := by
            intro x hx
            rcases List.mem_cons.mp hx with rfl | hx
            · exact Std.le_refl x
            · exact Std.le_of_lt ((List.pairwise_cons.mp hrest).1 x hx)
          have hle := ih hrest hfrom
          simp only [List.length_cons, Instant.remaining] at hle ⊢
          omega

namespace Source

/-- The starts of the batches that were asked for, in the order of the calls. -/
def starts (calls : List Call) : List Instant :=
  calls.filterMap fun
    | .batchFrom start => some start
    | .latestUpTo _ | .previousKey _ | .nextKey _ | .batchLimit => none

variable {calls more later : List Call} {first next : Instant}

theorem starts_append (calls more : List Call) :
    starts (calls ++ more) = starts calls ++ starts more :=
  List.filterMap_append

structure Ascends (first : Instant) (calls : List Call) : Prop where
  ascending : (starts calls).Pairwise (· < ·)
  first_le : forall start, start ∈ starts calls -> first ≤ start
  few : calls.length ≤ 3 * (starts calls).length

theorem Ascends.nil (first : Instant) : Ascends first [] :=
  ⟨List.Pairwise.nil, fun _ h => absurd h List.not_mem_nil, Nat.le_refl 0⟩

theorem Ascends.append (h : Ascends first calls) (hnext : first ≤ next)
    (hbefore : forall start, start ∈ starts calls -> start < next) (h' : Ascends next more) :
    Ascends first (calls ++ more) where
  ascending := by
    rw [starts_append]
    exact List.pairwise_append.mpr ⟨h.ascending, h'.ascending, fun a ha b hb =>
      Std.lt_of_lt_of_le (hbefore a ha) (h'.first_le b hb)⟩
  first_le start hstart := by
    rw [starts_append] at hstart
    rcases List.mem_append.mp hstart with hstart | hstart
    · exact h.first_le start hstart
    · exact Std.le_trans hnext (h'.first_le start hstart)
  few := by
    have hfew := h.few
    have hfew' := h'.few
    simp only [starts_append, List.length_append]
    omega

theorem Ascends.length_le (h : Ascends first calls) :
    calls.length ≤ 3 * (first.remaining + 1) := by
  have hstarts := Instant.length_le_of_ascending h.ascending h.first_le
  have hfew := h.few
  omega

structure OnePage (start : Instant) (most : Nat) (calls : List Call) : Prop where
  starts : starts calls = [start]
  few : calls.length ≤ most

theorem OnePage.nextKey {most : Nat} (h : OnePage first most calls) (key : Instant) :
    OnePage first (most + 1) (calls ++ [.nextKey key]) where
  starts := by rw [starts_append, h.starts]; rfl
  few := by
    rw [List.length_append]
    exact Nat.succ_le_succ h.few

theorem OnePage.mono {most most' : Nat} (h : OnePage first most calls) (hle : most ≤ most') :
    OnePage first most' calls :=
  ⟨h.starts, Nat.le_trans h.few hle⟩

theorem OnePage.ascends (h : OnePage first 3 calls) : Ascends first calls where
  ascending := by
    rw [h.starts]
    exact List.pairwise_singleton _ _
  first_le start hstart := by
    rw [h.starts] at hstart
    exact Std.le_of_eq (List.mem_singleton.mp hstart).symm
  few := by
    rw [h.starts]
    exact h.few

theorem OnePage.before {most : Nat} (h : OnePage first most calls) (hlt : first < next)
    (start : Instant) (hstart : start ∈ Source.starts calls) : start < next := by
  rw [h.starts] at hstart
  exact List.mem_singleton.mp hstart ▸ hlt

end Source

variable {m : Type -> Type} [Monad m] {V W : Type} [Performs m W]

namespace Replica

open Source

variable {replica : Replica m V} {s : State V} {calls more later : List Call} {w : W}
  {key start : Instant} {mark : Bookmark} {scan scan' scan'' : Scan V}

/-!
## Reading forward
-/

theorem after_fetch_calls (replica : Replica m V) (mark : Bookmark) (s : State V)
    (calls : List Call) (w : W) :
    After (replica.recorded.fetch mark).run (s, (calls, w)) (fun _ p' => exists page,
      p'.2.1 = calls ++ page ∧ OnePage mark.start 2 page) := by
  unfold fetch
  simp only [after_except_bind, after_request_modify, ask, after_request_handOn,
    after_except_adapt]
  apply Call.after_recorded.mpr
  apply after_of_forall
  intro r w₁
  cases r with
  | error cause => exact ⟨[.batchFrom mark.start], rfl, rfl, Nat.le_succ 1⟩
  | ok batch =>
      apply after_request_lift.mpr
      apply Call.after_recorded.mpr
      apply after_of_forall
      intro limit w₂
      have hpage : exists page, calls ++ [.batchFrom mark.start] ++ [.batchLimit] =
          calls ++ page ∧ OnePage mark.start 2 page :=
        ⟨[.batchFrom mark.start, .batchLimit], List.append_assoc .., rfl, Nat.le_refl 2⟩
      simp only [absorb, after_except_bind, after_request_modify, after_except_pure]
      split
      · simp only [after_except_bind, after_request_modify, after_except_pure]
        exact hpage
      · exact after_except_pure.mpr hpage

theorem after_onward_calls (replica : Replica m V) (mark : Bookmark) (newest : Instant)
    (q : List Call × W) :
    After (replica.recorded.onward mark newest) q
      (fun _ q' => q'.1 = q.1 ++ [.nextKey newest]) := by
  rcases q with ⟨calls, w⟩
  unfold onward
  apply after_bind.mpr
  apply Call.after_recorded.mpr
  apply after_of_forall
  intro key w'
  split <;> exact after_pure.mpr rfl

theorem after_nextPage_calls (replica : Replica m V) (mark : Bookmark) (full : Bool)
    (newest : Instant) {page : List Call} (hpage : OnePage start 2 page) :
    After (replica.recorded.nextPage mark full newest) (calls ++ page, w) (fun _ q' =>
      exists more, q'.1 = calls ++ more ∧ OnePage start 3 more) := by
  cases full with
  | false => exact after_pure.mpr ⟨page, rfl, hpage.mono (Nat.le_succ 2)⟩
  | true =>
      apply After.imp (after_onward_calls replica mark newest (calls ++ page, w))
      intro _ q' hcalls
      exact ⟨_, by rw [hcalls, List.append_assoc], hpage.nextKey newest⟩

theorem after_fetchUntil_calls (replica : Replica m V) (goal : Instant) (mark : Bookmark)
    (s : State V) (calls : List Call) (w : W) :
    After (replica.recorded.fetchUntil goal mark).run (s, (calls, w)) (fun _ p' => exists more,
      p'.2.1 = calls ++ more ∧ Ascends mark.start more) := by
  rw [fetchUntil]
  apply after_except_bind.mpr
  apply After.imp (after_fetch_calls replica mark s calls w)
  intro r p₁ hpost
  rcases p₁ with ⟨s₁, calls₁, w₁⟩
  rcases hpost with ⟨page, rfl, hpage⟩
  have hfetched : exists more, calls ++ page = calls ++ more ∧ Ascends mark.start more :=
    ⟨page, rfl, (hpage.mono (Nat.le_succ 2)).ascends⟩
  cases r with
  | error e => exact hfetched
  | ok read =>
      dsimp only
      split
      · exact after_except_pure.mpr hfetched
      · rename_i newest hnewest
        apply after_except_bind.mpr
        apply after_request_lift.mpr
        apply After.imp (after_onward_calls replica mark newest.key (calls ++ page, w₁))
        intro following q hcalls
        rcases q with ⟨_, w₂⟩
        have hturned := hpage.nextKey newest.key
        have hasked : exists more, calls ++ page ++ [.nextKey newest.key] = calls ++ more ∧
            Ascends mark.start more :=
          ⟨page ++ [.nextKey newest.key], List.append_assoc .., hturned.ascends⟩
        obtain rfl := hcalls
        cases following with
        | none => exact after_except_pure.mpr hasked
        | some following =>
            dsimp only
            split
            · apply After.imp (after_fetchUntil_calls replica goal following.val s₁ _ w₂)
              intro _ p₃ hpost
              rcases hpost with ⟨later, hcalls, hlater⟩
              refine ⟨page ++ [.nextKey newest.key] ++ later, by rw [hcalls]; simp, ?_⟩
              exact hturned.ascends.append (Std.le_of_lt following.property)
                (hturned.before following.property) hlater
            · exact after_except_pure.mpr hasked
termination_by mark.start.remaining
decreasing_by exact Instant.remaining_lt_of_lt following.property

/-!
## Pulling
-/

structure Scan.Advances (scan scan' : Scan V) (calls : List Call) : Prop where
  spent : scan.next = none -> calls = [] ∧ scan'.next = none
  going : forall mark, scan.next = some mark -> Ascends mark.start calls ∧
    forall mark', scan'.next = some mark' -> mark.start ≤ mark'.start ∧
      forall start, start ∈ starts calls -> start < mark'.start

theorem Scan.Advances.same (h : scan'.next = scan.next) : scan.Advances scan' [] where
  spent hnone := ⟨rfl, h.trans hnone⟩
  going mark hmark := ⟨.nil mark.start, fun mark' hmark' => by
    rw [h, hmark] at hmark'
    cases hmark'
    exact ⟨Std.le_refl _, fun _ hstart => absurd hstart List.not_mem_nil⟩⟩

theorem Scan.Advances.page (hmark : scan.next = some mark) (hpage : OnePage mark.start 3 calls)
    (hnext : forall mark', scan'.next = some mark' -> mark.start < mark'.start) :
    scan.Advances scan' calls where
  spent hnone := by
    rw [hmark] at hnone
    cases hnone
  going mark₁ hmark₁ := by
    cases hmark.symm.trans hmark₁
    refine ⟨hpage.ascends, fun mark' hmark' => ?_⟩
    have hlt := hnext mark' hmark'
    exact ⟨Std.le_of_lt hlt, hpage.before hlt⟩

theorem Scan.Advances.trans (h : scan.Advances scan' calls) (h' : scan'.Advances scan'' more) :
    scan.Advances scan'' (calls ++ more) where
  spent hnone := by
    rcases h.spent hnone with ⟨rfl, hnone'⟩
    exact h'.spent hnone'
  going mark hmark := by
    rcases h.going mark hmark with ⟨hascends, hnext⟩
    cases hmark' : scan'.next with
    | none =>
        rcases h'.spent hmark' with ⟨rfl, hnone''⟩
        rw [List.append_nil]
        exact ⟨hascends, fun mark'' hmark'' => by rw [hnone''] at hmark''; cases hmark''⟩
    | some mark' =>
        rcases hnext mark' hmark' with ⟨hle, hbefore⟩
        rcases h'.going mark' hmark' with ⟨hascends', hnext'⟩
        refine ⟨hascends.append hle hbefore hascends', fun mark'' hmark'' => ?_⟩
        rcases hnext' mark'' hmark'' with ⟨hle', hbefore'⟩
        refine ⟨Std.le_trans hle hle', fun start hstart => ?_⟩
        rw [starts_append] at hstart
        rcases List.mem_append.mp hstart with hstart | hstart
        · exact Std.lt_of_lt_of_le (hbefore start hstart) hle'
        · exact hbefore' start hstart

theorem Scan.Advances.length_le (h : scan.Advances scan' calls) :
    calls.length ≤ 3 * scan.measure := by
  unfold Scan.measure
  cases hnext : scan.next with
  | none =>
      rw [(h.spent hnext).1]
      exact Nat.le_refl 0
  | some mark => exact (h.going mark hnext).1.length_le

theorem after_sync_calls (replica : Replica m V) (s : State V) (calls : List Call) (w : W) :
    After replica.recorded.sync (s, (calls, w)) (fun _ p' => p'.2.1 = calls) := by
  unfold sync
  simp only [after_bind, after_state_monadLift, after_state_modify]
  apply after_state_lift.mpr
  apply after_of_forall
  intro n w₁
  apply Horizon.after_hoisted.mpr
  exact after_of_forall fun _ _ => rfl

theorem after_loadPage_calls (replica : Replica m V) (mark : Bookmark) (s : State V)
    (calls : List Call) (w : W) :
    After (replica.recorded.loadPage mark).run (s, (calls, w)) (fun _ p' => exists page,
      p'.2.1 = calls ++ page ∧ OnePage mark.start 2 page) := by
  unfold loadPage
  apply after_except_bind.mpr
  apply after_except_lift.mpr
  apply After.imp (after_sync_calls replica s calls w)
  intro _ p₁ hcalls
  rcases p₁ with ⟨s₁, _, w₁⟩
  obtain rfl := hcalls
  unfold announcing
  apply after_except_mk.mpr
  apply after_bind.mpr
  apply After.imp (after_fetch_calls replica mark s₁ _ w₁)
  intro r p₂ hpost
  rcases p₂ with ⟨s₂, calls₂, w₂⟩
  apply after_bind.mpr
  apply After.imp (after_recorded_announce (K := fun _ => True)
    (fun _ _ _ => after_of_forall fun _ _ => trivial) trivial)
  intro _ p₃ hannounced
  apply after_pure.mpr
  rw [hannounced.1]
  exact hpost

/-- A pull goes through later and later pages, until one of them has news or the scan ends. -/
theorem after_pull_calls (replica : Replica m V) (scan : Scan V) (s : State V)
    (calls : List Call) (w : W) :
    After (replica.recorded.pull scan) (s, (calls, w)) (fun r p' => exists more,
      p'.2.1 = calls ++ more ∧ scan.Advances r.2 more) := by
  have hnone : forall scan' : Scan V, scan'.next = scan.next ->
      exists more, calls = calls ++ more ∧ scan.Advances scan' more := fun scan' hnext =>
    ⟨[], (List.append_nil calls).symm, .same hnext⟩
  rw [pull]
  split
  · exact after_pure.mpr (hnone _ rfl)
  · split
    · rename_i hnext
      exact after_pure.mpr (hnone _ hnext.symm)
    · rename_i mark hmark
      apply after_bind.mpr
      apply After.imp (after_loadPage_calls replica mark s calls w)
      intro r p₁ hpost
      rcases p₁ with ⟨s₁, calls₁, w₁⟩
      rcases hpost with ⟨page, rfl, hpage⟩
      have hended : exists more, calls ++ page = calls ++ more ∧ scan.Advances scan.ended more :=
        ⟨page, rfl, .page hmark (hpage.mono (Nat.le_succ 2)) fun _ hnext => by cases hnext⟩
      cases r with
      | error e => exact after_pure.mpr hended
      | ok read =>
          dsimp only
          split
          · exact after_pure.mpr hended
          · rename_i newest hnewest
            apply after_bind.mpr
            apply after_state_monadLift.mpr
            apply After.imp (after_nextPage_calls replica mark read.full newest.key hpage)
            intro following q hpost
            rcases q with ⟨_, w₂⟩
            rcases hpost with ⟨more, hcalls, hmore⟩
            obtain rfl := hcalls
            have hturned : scan.Advances
                (scan.turned read.entries (following.map Subtype.val)) more :=
              .page hmark hmore fun mark' hmark' => by
                rcases Option.map_eq_some_iff.mp hmark' with ⟨next, -, rfl⟩
                exact next.property
            apply After.imp (after_pull_calls replica _ s₁ _ w₂)
            intro r p₃ hpost
            rcases hpost with ⟨later, hcalls, hlater⟩
            exact ⟨more ++ later, by rw [hcalls, List.append_assoc], hturned.trans hlater⟩
termination_by scan.measure
decreasing_by exact Scan.measure_turned_lt ‹_› read.entries following

/-!
## Whole scans
-/

theorem Browse.advances_step (replica : Replica m V) {x : Browse (Scan V) V}
    (hx : scan.Advances x.feed x.calls) (p : State V × W) :
    scan.Advances (x.step replica.recorded.pull p).feed (x.step replica.recorded.pull p).calls := by
  rcases after_pull_calls replica x.feed p.1 x.calls p.2 with ⟨more, hcalls, hmore⟩
  show scan.Advances _ (perform (replica.recorded.pull x.feed) (p.1, (x.calls, p.2))).2.2.1
  rw [hcalls]
  exact hx.trans hmore

/-- However often and in whatever state of things a scan is pulled, its pages advance. -/
theorem advances_browse (replica : Replica m V) (scan : Scan V) (moments : List (State V × W)) :
    scan.Advances (browse replica.recorded.pull scan moments).feed
      (browse replica.recorded.pull scan moments).calls := by
  have hall : forall x : Browse (Scan V) V, scan.Advances x.feed x.calls ->
      scan.Advances (moments.foldl (Browse.step replica.recorded.pull) x).feed
        (moments.foldl (Browse.step replica.recorded.pull) x).calls := by
    induction moments with
    | nil => exact fun _ hx => hx
    | cons p rest ih => exact fun x hx => ih _ (x.advances_step replica hx p)
  exact hall { feed := scan } (.same rfl)

end Replica
end AsOf
