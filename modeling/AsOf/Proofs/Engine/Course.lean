import AsOf.Proofs.Engine.Renewal
import AsOf.Proofs.Engine.Room
import AsOf.Proofs.Tally

/-!
# The course of a run

A run that does not fail takes one of four courses.  It is read off the window, which stays as
it is; the window starts over with it; its newer part is put in front of the window; or its
older part is put behind it.  Each course comes with the number of lookups that it took.
Nothing is assumed of the archive.
-/

namespace AsOf

variable {m : Type -> Type} [Monad m] {V W : Type} [Performs m W] {w : W}

namespace Windowed

variable {s : State V} {a : Instant} {count spent : Nat} {place : Place} {out : Outcome V}

namespace State

def reading (s : State V) (a : Instant) : Place -> List (Entry V)
  | .same => s.window.entries
  | .inside => s.window.entries.filter fun e => e.key ≤ a
  | .after _ | .outside => []

theorem maximum_eq {s t : State V} (hst : s.uncounted = t.uncounted) : s.maximum = t.maximum :=
  read_eq hst State.maximum fun _ => rfl

theorem epoch_eq {s t : State V} (hst : s.uncounted = t.uncounted) : s.epoch = t.epoch :=
  read_eq hst State.epoch fun _ => rfl

theorem uncounted_entered (s : State V) (epoch : Nat) (a : Instant) :
    (s.entered epoch a).uncounted = (s.observeEpoch epoch).uncounted := by
  unfold entered
  split <;> rfl

theorem maximum_entered (s : State V) (epoch : Nat) (a : Instant) :
    (s.entered epoch a).maximum = s.maximum := by
  rw [maximum_eq (s.uncounted_entered epoch a), maximum_observeEpoch]

theorem epoch_entered (s : State V) (epoch : Nat) (a : Instant) :
    (s.entered epoch a).epoch = epoch := by
  rw [epoch_eq (s.uncounted_entered epoch a), epoch_observeEpoch]

theorem window_entered (s : State V) (epoch : Nat) (a : Instant) :
    (s.entered epoch a).window = if epoch = s.epoch then s.window else .empty := by
  rw [window_eq (s.uncounted_entered epoch a)]
  unfold observeEpoch
  split <;> rfl

end State

/-!
## Courses
-/

/-- How a run from a place turns out, and how many lookups it takes. -/
inductive Turned (s : State V) (a : Instant) (count : Nat) : Place -> Nat -> Outcome V -> Prop where
  /-- It is read off the window, and nothing older is found if it is short. -/
  | held {place : Place} {t : State V} {spent : Nat} (within : place = .same ∨ place = .inside)
      (state : t.uncounted = s.uncounted)
      (spent_eq : spent + ((s.reading a place).take count).length =
        min count (((s.reading a place).take count).length + 1)) :
      Turned s a count place spent ((s.reading a place).take count, t)
  /-- The window starts over: it has not the rest of the run, or the run does not meet it. -/
  | reshaped {place : Place} {u : State V} {run : List (Entry V)} {spent : Nat}
      (state : u.uncounted = s.uncounted) (length_le : run.length ≤ count)
      (spent_le : spent ≤ min count (run.length + 1)) (elsewhere : place ≠ .inside)
      (apart : place = .outside ∨ s.window.size < count ∨
        exists newest, place = .after newest ∧ forall e, e ∈ run -> e.key ≠ newest) :
      Turned s a count place spent (run, u.reshape a run)
  /-- It is walked back to the window, which has the rest of it. -/
  | appended {newest : Instant} {u : State V} {newer : List (Entry V)}
      (state : u.uncounted = s.uncounted) (short : newer.length < count)
      (enough : count ≤ newer.length + s.window.size) :
      Turned s a count (.after newest) (newer.length + 1)
        (newer ++ s.window.entries.take (count - newer.length), u.append a newer count)
  /-- It begins within the window and goes on behind it. -/
  | prepended {u : State V} {older : List (Entry V)} {spent : Nat}
      (state : u.uncounted = s.uncounted) (found : older ≠ [])
      (short : (s.reading a .inside).length < count)
      (length_le : (s.reading a .inside ++ older).length ≤ count)
      (spent_le : spent ≤ min count ((s.reading a .inside ++ older).length + 1)) :
      Turned s a count .inside spent
        (s.reading a .inside ++ older, u.prepend older (s.reading a .inside ++ older).length)

theorem Turned.spent_le (h : Turned s a count place spent out) :
    spent ≤ min count (out.1.length + 1) := by
  cases h with
  | held within state spent_eq => exact Nat.le_of_add_right_le (Nat.le_of_eq spent_eq)
  | reshaped state length_le spent_le => exact spent_le
  | appended state short enough =>
      show _ ≤ min count ((_ ++ s.window.entries.take _).length + 1)
      rw [List.length_append, List.length_take]
      unfold Window.size at enough
      omega
  | prepended state found short length_le spent_le => exact spent_le

theorem Turned.length_le (h : Turned s a count place spent out) : out.1.length ≤ count := by
  cases h with
  | held within state spent_eq => exact List.length_take_le _ _
  | reshaped state length_le => exact length_le
  | appended state short enough =>
      rw [List.length_append, List.length_take]
      omega
  | prepended state found short length_le => exact length_le

theorem Turned.epoch_eq (h : Turned s a count place spent out) : out.2.epoch = s.epoch := by
  cases h with
  | held within state => exact State.epoch_eq state
  | reshaped state => exact (State.epoch_reshape _ _ _).trans (State.epoch_eq state)
  | appended state => exact (State.epoch_append _ _ _ _).trans (State.epoch_eq state)
  | prepended state => exact (State.epoch_prepend _ _ _).trans (State.epoch_eq state)

def Takes (view : View m V) (s : State V) (a : Instant) (count : Nat) (place : Place) (w : W)
    (r : Except QueryError (Outcome V)) (w' : W) : Prop :=
  WhenOk (fun out => exists spent, Turned s a count place spent out ∧
    view.archive.Spends w w' spent) r

section Runs

variable (view : View m V)

theorem spends_continued {held : List (Entry V)} (hlen : held.length ≤ count) :
    After (view.furtherBack a count held).run w (fun r w' => WhenOk (fun older =>
      (held ++ older).length ≤ count ∧ exists spent, view.archive.Spends w w' spent ∧
        spent + held.length = min count ((held ++ older).length + 1)) r) := by
  have hbehind := view.behind_furtherBack a count held (w := w)
  apply After.imp ((view.spends_furtherBack a count held).and hbehind)
  intro r w' hr
  rcases hr with ⟨hspent, hbehind⟩
  cases r with
  | error e => trivial
  | ok older =>
      have hlength : older.length ≤ count - held.length := hbehind.length
      have happend : (held ++ older).length = held.length + older.length := List.length_append
      refine ⟨by omega, _, hspent, ?_⟩
      omega

theorem turned_runAtSame :
    After (runAtSame view a count s).run w (Takes view s a count .same w) := by
  unfold runAtSame
  dsimp only
  split
  · rename_i hshort
    have hsmall : s.window.size < count := by
      rw [take_of_short hshort] at hshort
      exact hshort
    apply after_bind_ok (spends_continued view (Nat.le_of_lt hshort))
    intro older w' hpost
    rcases hpost with ⟨hlength, spent, hspent, hsum⟩
    split
    · rename_i hempty
      rw [List.isEmpty_iff.mp hempty, List.append_nil] at hsum
      exact after_except_pure.mpr ⟨spent, .held (Or.inl rfl) rfl hsum, hspent⟩
    · refine after_except_pure.mpr ⟨spent, ?_, hspent⟩
      refine .reshaped (u := s.countPartialHit) rfl hlength ?_ (by simp) ?_
      · exact Nat.le_of_add_right_le (Nat.le_of_eq hsum)
      · exact Or.inr (Or.inl hsmall)
  · rename_i hlong
    have hlength : (s.window.entries.take count).length ≤ count := List.length_take_le _ _
    refine after_except_pure.mpr ⟨0, .held (Or.inl rfl) rfl ?_, .refl _ _⟩
    show 0 + (s.window.entries.take count).length =
      min count ((s.window.entries.take count).length + 1)
    omega

theorem turned_runOnto {newest : Instant} {newer : List (Entry V)} {w₁ : W}
    (hne : s.window.entries ≠ []) (hshort : newer.length < count)
    (hspent : view.archive.Spends w w₁ (newer.length + 1)) :
    After (runOnto view newer a count s).run w₁ (Takes view s a count (.after newest) w) := by
  have hpos : 0 < s.window.entries.length := List.length_pos_iff.mpr hne
  have hlength : (newer ++ s.window.entries.take (count - newer.length)).length =
      newer.length + min (count - newer.length) s.window.entries.length := by
    rw [List.length_append, List.length_take]
  unfold runOnto
  dsimp only
  split
  · rename_i hheld
    apply after_bind_ok (spends_continued view (Nat.le_of_lt hheld))
    intro older w₂ hpost
    rcases hpost with ⟨hle, more, hmore, hsum⟩
    refine after_except_pure.mpr ⟨newer.length + 1 + more, ?_, hspent.trans hmore⟩
    refine .reshaped (u := s.countPartialHit) rfl hle ?_ (by simp) ?_
    · omega
    · refine Or.inr (Or.inl ?_)
      show s.window.entries.length < count
      omega
  · rename_i hheld
    have hfull : (newer ++ s.window.entries.take (count - newer.length)).length = count := by omega
    have henough : count ≤ newer.length + s.window.size := by
      show count ≤ newer.length + s.window.entries.length
      omega
    rw [hfull]
    cases newer.isEmpty with
    | true =>
        exact after_except_pure.mpr
          ⟨_, .appended (u := s.countHit) rfl hshort henough, hspent⟩
    | false =>
        exact after_except_pure.mpr
          ⟨_, .appended (u := s.countPartialHit) rfl hshort henough, hspent⟩

theorem turned_runAfter {newest : Instant} (hne : s.window.entries ≠ []) :
    After (runAfter view newest a count s).run w (Takes view s a count (.after newest) w) := by
  have hnext : (Walk.startAt a count).next ≠ none := by simp [Walk.startAt]
  have hgather := (view.archive.spends_gather (w := w) (fun e => e.key ≠ newest) count hnext).and
    (Pull.after_gather_any (Walk.pull view.archive) (fun e => e.key ≠ newest) count
      (.startAt a count))
  unfold runAfter
  apply after_except_bind.mpr
  apply After.imp hgather
  intro r w₁ hr
  cases r with
  | error e => trivial
  | ok out =>
      rcases out with ⟨newer, met⟩
      rcases hr with ⟨hspent, items, hcollect⟩
      change view.archive.Spends w w₁ (min count (newer.length + 1)) at hspent
      have hnewer : newer = (items.take count).takeWhile fun e => e.key ≠ newest := by
        rw [← fst_collect, ← hcollect]
      have hlen : newer.length ≤ count := by
        rw [hnewer]
        exact Nat.le_trans (List.takeWhile_sublist _).length_le (List.length_take_le _ _)
      dsimp only
      cases met with
      | true =>
          have hexists := exists_of_met (congrArg Prod.snd hcollect.symm)
          rw [← hcollect] at hexists
          rcases hexists with ⟨e, rest, -, -, hshort⟩
          rw [Nat.min_eq_right hshort] at hspent
          rw [if_pos rfl]
          exact turned_runOnto view hne hshort hspent
      | false =>
          rw [if_neg Bool.false_ne_true]
          refine after_except_pure.mpr ⟨_, ?_, hspent⟩
          refine .reshaped (u := s.countMiss) rfl hlen (Nat.le_refl _) (by simp) ?_
          refine Or.inr (Or.inr ⟨newest, rfl, fun e he => ?_⟩)
          rw [hnewer] at he
          exact of_decide_eq_true (List.all_eq_true.mp List.all_takeWhile e he)

theorem turned_runInside :
    After (runInside view a count s).run w (Takes view s a count .inside w) := by
  have hreading : s.window.entries.filter (fun e => e.key ≤ a) = s.reading a .inside := rfl
  unfold runInside
  dsimp only
  rw [hreading]
  split
  · rename_i hshort
    have hall := take_of_short hshort
    rw [hall] at hshort ⊢
    apply after_bind_ok (spends_continued view (Nat.le_of_lt hshort))
    intro older w' hpost
    rcases hpost with ⟨hlength, spent, hspent, hsum⟩
    split
    · rename_i hempty
      rw [List.isEmpty_iff.mp hempty, List.append_nil] at hsum
      refine after_except_pure.mpr ⟨spent, ?_, hspent⟩
      rw [← hall] at hsum ⊢
      exact .held (Or.inr rfl) rfl hsum
    · rename_i hfound
      refine after_except_pure.mpr ⟨spent, ?_, hspent⟩
      refine .prepended (u := s.countPartialHit) rfl (fun hnil => ?_) hshort hlength ?_
      · exact hfound (List.isEmpty_iff.mpr hnil)
      · exact Nat.le_of_add_right_le (Nat.le_of_eq hsum)
  · rename_i hlong
    have hlength : ((s.reading a .inside).take count).length ≤ count := List.length_take_le _ _
    exact after_except_pure.mpr ⟨0, .held (Or.inr rfl) rfl (by omega), .refl _ _⟩

theorem turned_runOutside :
    After (runOutside view a count s).run w (Takes view s a count .outside w) := by
  unfold runOutside
  apply after_except_bind.mpr
  apply After.imp ((view.spends_trailing a count).and (view.shaped_trailing a count))
  intro r w' hr
  cases r with
  | error e => trivial
  | ok run =>
      refine after_except_pure.mpr ⟨_, ?_, hr.1⟩
      exact .reshaped rfl hr.2.length (Nat.le_refl _) (by simp) (Or.inl rfl)

theorem turned_runAt (hs : s.Proper) (a : Instant) (count : Nat) :
    After (runAt view a count (s.locate a) s).run w (Takes view s a count (s.locate a) w) := by
  have hplace := hs.aligned a
  cases hlocate : s.locate a with
  | same => exact turned_runAtSame view
  | after newest =>
      rw [hlocate] at hplace
      rcases hplace with ⟨e, hnewest, -, -⟩
      exact turned_runAfter view (List.ne_nil_of_mem (List.mem_of_head? hnewest))
  | inside => exact turned_runInside view
  | outside => exact turned_runOutside view

end Runs

/-!
## Requests
-/

def State.onset (view : View m V) (options : Options) (key : Instant) (s : State V) (w : W) :
    State V :=
  s.entered (seen view options key w).1 (view.about options key w)

def outcome (view : View m V) (options : Options) (key : Instant) (count : Nat) (s : State V)
    (w : W) : Except QueryError (Outcome V) × W :=
  let a := view.about options key w
  let t := s.onset view options key w
  perform (runAt view a count (t.locate a) t).run (seen view options key w).2

/-- A run leads to its outcome, or fails and leaves the state in which it began. -/
theorem perform_run_outcome (view : View m V) (options : Options) (key : Instant) (count : Nat)
    (s : State V) (w : W) :
    let r := outcome view options key count s w
    perform (Windowed.run view options key count).run (s, w) =
      (r.1.map Prod.fst, (s.onset view options key w).committed r.1, r.2) := by
  rw [perform_run, perform_commit]
  rfl

theorem uncounted_bypass {α : Type} (request : ExceptT QueryError m α) (p : State V × W) :
    After (bypass request : Request m (State V) α).run p
      (fun _ p' => p'.1.uncounted = p.1.uncounted) := by
  rcases p with ⟨s, w⟩
  unfold bypass
  apply after_except_bind.mpr
  apply after_request_modify.mpr
  apply after_request_handOn.mpr
  exact after_of_forall fun _ _ => rfl

end Windowed

namespace Engine
namespace Question

variable {q : Question} {options : Options} {key : Instant} {count : Nat} {s : Windowed.State V}

/-- The length of the run that a question asks for, if it has a use for the window. -/
def reach : Question -> Option Nat
  | previousEntry distance => if distance = 0 then none else some (min (distance + 1) Count.limit)
  | previousEntries count => if count ≤ 1 then none else some count
  | entry | nextEntry _ | nextEntries _ => none

def read : (q : Question) -> List (Entry V) -> q.Reply V
  | entry, run => run.head?
  | previousEntry _, run => run.getLast?
  | previousEntries _, run => run.reverse
  | nextEntry _, _ => none
  | nextEntries _, _ => []

theorem reach_eq_none_iff : q.reach = none ↔ q.Idle := by
  cases q with
  | entry => simp [reach, Idle]
  | previousEntry distance => simp [reach, Idle]
  | previousEntries count => simp [reach, Idle]
  | nextEntry distance => simp [reach, Idle]
  | nextEntries count => simp [reach, Idle]

theorem two_le_of_reach (h : q.reach = some count) : 2 ≤ count := by
  cases q with
  | entry => cases h
  | previousEntry distance =>
      rcases Option.ite_none_left_eq_some.mp h with ⟨hfar, heq⟩
      cases heq
      unfold Count.limit
      omega
  | previousEntries count =>
      rcases Option.ite_none_left_eq_some.mp h with ⟨hmany, heq⟩
      cases heq
      omega
  | nextEntry distance => cases h
  | nextEntries count => cases h

theorem reach_le_limit (h : q.reach = some count) (hcounted : q.Counted) :
    count ≤ Count.limit := by
  cases q with
  | entry => cases h
  | previousEntry distance =>
      rcases Option.ite_none_left_eq_some.mp h with ⟨-, heq⟩
      cases heq
      exact Nat.min_le_right _ _
  | previousEntries count =>
      rcases Option.ite_none_left_eq_some.mp h with ⟨-, heq⟩
      cases heq
      exact hcounted
  | nextEntry distance => cases h
  | nextEntries count => cases h

variable (view : View m V)

open Windowed

theorem perform_read {n : Type -> Type} [Monad n] {U α β ε : Type} [Performs n U]
    (x : ExceptT ε n α) (f : α -> β) (u : U) :
    perform (do return f (<- x) : ExceptT ε n β).run u =
      ((perform x.run u).1.map f, (perform x.run u).2) := by
  rcases hx : perform x.run u with ⟨r, u'⟩
  apply perform_eq
  apply after_except_bind.mpr
  apply (after_of_perform_eq hx).mpr
  cases r with
  | ok a => exact after_except_pure.mpr rfl
  | error e => exact rfl

/-- A question that asks for a run is answered from it, and leaves what the run leaves. -/
theorem perform_put_of_reach (h : q.reach = some count) (s : Windowed.State V) (w : W) :
    perform (q.put view options key).run (.windowed s, w) =
      let r := perform (Windowed.run view options key count).run (s, w)
      (r.1.map q.read, .windowed r.2.1, r.2.2) := by
  cases q with
  | entry => cases h
  | previousEntry distance =>
      rcases Option.ite_none_left_eq_some.mp h with ⟨hfar, heq⟩
      cases heq
      show perform (dispatch _ (Windowed.previousEntry view options key distance)).run _ = _
      unfold Windowed.previousEntry
      rw [perform_dispatch_windowed, if_neg hfar, perform_read]
      rfl
  | previousEntries size =>
      rcases Option.ite_none_left_eq_some.mp h with ⟨hmany, heq⟩
      cases heq
      have hcount : exists more, count = more + 2 := ⟨count - 2, by omega⟩
      rcases hcount with ⟨more, rfl⟩
      have hrun : Windowed.previousEntries view options key (more + 2) =
          (do return (<- Windowed.run view options key (more + 2)).reverse) := rfl
      show perform (dispatch _ (Windowed.previousEntries view options key (more + 2))).run _ = _
      rw [perform_dispatch_windowed, hrun, perform_read]
      rfl
  | nextEntry distance => cases h
  | nextEntries size => cases h

theorem perform_put_outcome (h : q.reach = some count) (s : Windowed.State V) (w : W) :
    let r := outcome view options key count s w
    perform (q.put view options key).run (.windowed s, w) =
      ((r.1.map Prod.fst).map q.read, .windowed ((s.onset view options key w).committed r.1),
        r.2) := by
  rw [perform_put_of_reach view h, perform_run_outcome]

theorem perform_put_direct (h : q.reach = some count) (n : Nat) (w : W) :
    let r := perform (view.trailing (view.about options key w) count).run
      (perform (view.adjust options key) w).2
    perform (q.put view options key).run (.direct n, w) =
      (r.1.map q.read, .direct (n + 1), r.2) := by
  have habout := view.adjust_about options key w
  rcases hadjust : perform (view.adjust options key) w with ⟨a, w₁⟩
  rw [← (after_of_perform_eq hadjust).mp habout]
  have htrailing : forall {α : Type} (f : List (Entry V) -> α),
      perform (do
        let adjusted <- view.adjust options key
        return f (<- view.trailing adjusted count) : ExceptT QueryError m α).run w =
      ((perform (view.trailing a count).run w₁).1.map f,
        (perform (view.trailing a count).run w₁).2) := by
    intro α f
    apply perform_eq
    apply after_except_bind.mpr
    apply after_except_lift.mpr
    apply (after_of_perform_eq hadjust).mpr
    exact perform_read _ f w₁
  cases q with
  | entry => cases h
  | previousEntry distance =>
      rcases Option.ite_none_left_eq_some.mp h with ⟨-, heq⟩
      have hsucc : count = Count.succ distance := (Option.some.inj heq).symm
      subst hsucc
      show perform (dispatch (view.previousEntry options key distance) _).run _ = _
      unfold View.previousEntry
      rw [perform_dispatch_direct, htrailing]
      rfl
  | previousEntries size =>
      rcases Option.ite_none_left_eq_some.mp h with ⟨-, heq⟩
      cases heq
      show perform (dispatch (view.previousEntries options key count) _).run _ = _
      unfold View.previousEntries
      rw [perform_dispatch_direct, htrailing]
      rfl
  | nextEntry distance => cases h
  | nextEntries size => cases h

theorem uncounted_put_of_idle (options : Options) (key : Instant) (h : q.Idle)
    (s : Windowed.State V) (w : W) :
    After (q.put view options key).run (.windowed s, w) (fun _ p' =>
      exists t, p'.1 = .windowed t ∧ t.uncounted = s.uncounted) := by
  have hbypass : forall {α : Type} (direct request : ExceptT QueryError m α),
      After (dispatch direct (bypass request)).run (State.windowed s, w) (fun _ p' =>
        exists t, p'.1 = .windowed t ∧ t.uncounted = s.uncounted) := by
    intro α direct request
    apply after_dispatch_windowed.mpr
    exact After.imp (uncounted_bypass request (s, w)) fun _ p' hp' => ⟨p'.1, rfl, hp'⟩
  have hhanded : forall {α : Type} (direct : ExceptT QueryError m α),
      After (dispatch direct (.handOn direct)).run (State.windowed s, w) (fun _ p' =>
        exists t, p'.1 = .windowed t ∧ t.uncounted = s.uncounted) := by
    intro α direct
    apply after_dispatch_windowed.mpr
    apply after_request_handOn.mpr
    exact after_of_forall fun _ _ => ⟨s, rfl, rfl⟩
  cases q with
  | entry => exact hbypass _ _
  | previousEntry distance =>
      cases h
      exact hbypass _ _
  | previousEntries size =>
      rcases Nat.le_one_iff_eq_zero_or_eq_one.mp h with rfl | rfl
      · apply after_dispatch_windowed.mpr
        exact after_except_pure.mpr ⟨s, rfl, rfl⟩
      · exact hbypass _ _
  | nextEntry distance => exact hhanded _
  | nextEntries size => exact hhanded _

end Question
end Engine
end AsOf
