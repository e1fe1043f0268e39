import AsOf.Engine.Windowed
import AsOf.Proofs.Engine.View
import AsOf.Proofs.Window

/-!
# Runs from a window are runs of the series

A window of the series is extended, cut and started over, and keeps whatever every
such change keeps.  Wherever the instant of a request lies, the run that is read off
the window and the archive is the one that the archive alone would have given, from
the base of the window on; for a window of the series up to its anchor, this is the
run that was asked for.
-/

namespace AsOf
namespace Windowed

variable {m : Type -> Type} [Monad m] {V W : Type} [Performs m W] {o : Outlook W V}
  {series : Series V} {s : State V} {a b : Instant} {run newer older : List (Entry V)}
  {count : Nat} {K : Window V -> Prop} {P : Series V -> Window V -> Prop}

namespace State

/-- The instant from which a run about an instant is read in an epoch. -/
def base (s : State V) (epoch : Nat) (a : Instant) : Instant :=
  (s.observeEpoch epoch).window.base a

theorem window_growToFit (s : State V) (required : Nat) :
    (s.growToFit required).window = s.window ∧ (s.growToFit required).epoch = s.epoch := by
  unfold growToFit
  split
  · exact ⟨rfl, rfl⟩
  · split <;> exact ⟨rfl, rfl⟩

theorem epoch_reshape (s : State V) (a : Instant) (run : List (Entry V)) :
    (s.reshape a run).epoch = s.epoch := by
  unfold reshape
  split
  · rfl
  · exact (s.window_growToFit run.length).2

theorem kept_reshape (hK : Window.Shaping series K) (h : K s.window)
    (hrun : run <+: series.downFrom (s.window.base a)) : K (s.reshape a run).window := by
  unfold reshape
  split
  · exact h
  · show K ((s.growToFit run.length).window.replace a run)
    rw [(s.window_growToFit run.length).1]
    exact hK.replace s.window a run h hrun

theorem epoch_append (s : State V) (a : Instant) (newer : List (Entry V)) (required : Nat) :
    (s.append a newer required).epoch = s.epoch :=
  (s.window_growToFit required).2

theorem kept_append (hK : Window.Shaping series K)
    (hrun : newer ++ s.window.entries <+: series.downFrom a) (required : Nat) :
    K (s.append a newer required).window := by
  unfold append
  have hwindow : (s.growToFit required).window.extendNewer a newer =
      s.window.extendNewer a newer := by
    rw [(s.window_growToFit required).1]
  simp only [hwindow]
  have hextended := hK.extendNewer s.window a newer hrun
  cases (s.growToFit required).maximum with
  | none => exact hextended
  | some maximum => exact hK.trimOldest _ maximum hextended

theorem epoch_prepend (s : State V) (older : List (Entry V)) (required : Nat) :
    (s.prepend older required).epoch = s.epoch :=
  (s.window_growToFit required).2

theorem kept_prepend (hK : Window.Shaping series K) (hextended : K (s.window.extendOlder older))
    (required : Nat) : K (s.prepend older required).window := by
  unfold prepend
  simp only [(s.window_growToFit required).1]
  cases (s.growToFit required).maximum with
  | none => exact hextended
  | some maximum => exact hK.trimNewest _ maximum hextended

/-!
## Where an instant lies
-/

def Located (series : Series V) (s : State V) (a : Instant) : Place -> Prop
  | .same => s.window.entries ≠ [] ∧ s.window.entries <+: series.downFrom (s.window.base a)
  | .after newest => s.window.base a = a ∧ exists e, s.window.newest? = some e ∧ e.key = newest
  | .inside => s.window.base a = a ∧ exists newest oldest, s.window.newest? = some newest ∧
      s.window.oldest? = some oldest ∧ oldest.key ≤ a ∧ a ≤ newest.key
  | .outside => s.window.base a = a

theorem located (hK : Window.Shaping series K) (h : K s.window) (a : Instant) :
    s.Located series a (s.locate a) := by
  unfold locate
  split
  · rename_i oldest newest anchor holdest hnewest hanchor
    split
    · rename_i hat
      have hbase : s.window.base a = newest.key := by
        rcases hat with rfl | rfl
        · exact Window.base_of_anchor hnewest hanchor
        · exact Window.base_newest hnewest
      constructor
      · exact List.ne_nil_of_mem (List.mem_of_head? hnewest)
      · rw [hbase]
        exact hK.front s.window newest h hnewest
    · rename_i hnot
      have hbase : s.window.base a = a := by
        apply Window.base_of_ne
        intro hsome
        cases hanchor.symm.trans hsome
        exact hnot (Or.inl rfl)
      split
      · exact ⟨hbase, newest, hnewest, rfl⟩
      · split
        · rename_i hwithin
          exact ⟨hbase, newest, oldest, hnewest, holdest, hwithin.1, hwithin.2⟩
        · exact hbase
  · rename_i hlacks
    show s.window.base a = a
    cases hnewest : s.window.newest? with
    | none => exact Window.base_of_none hnewest
    | some newest =>
        apply Window.base_of_ne
        intro hanchor
        have hne := List.ne_nil_of_mem (List.mem_of_head? hnewest)
        exact hlacks _ newest a (List.getLast?_eq_some_getLast hne) hnewest hanchor

end State

/-!
## Runs
-/

structure Served (K : Window V -> Prop) (series : Series V) (b : Instant) (count : Nat)
    (s : State V) (out : Outcome V) : Prop where
  run : out.1 = (series.downFrom b).take count
  window : K out.2.window
  epoch : out.2.epoch = s.epoch

theorem take_of_prefix {l full : List (Entry V)} (h : l <+: full) (hlen : count ≤ l.length) :
    l.take count = full.take count := by
  rcases h with ⟨tail, rfl⟩
  exact (List.take_append_of_le_length hlen).symm

theorem take_of_short {l : List (Entry V)} (hshort : (l.take count).length < count) :
    l.take count = l := by
  rw [List.length_take] at hshort
  exact List.take_of_length_le (by omega)

theorem exists_oldest {l : List (Entry V)} (h : l ≠ []) :
    exists oldest, l.getLast? = some oldest ∧ oldest ∈ l :=
  ⟨l.getLast h, List.getLast?_eq_some_getLast h, List.getLast_mem h⟩

variable {view : View m V} {live : W -> view.archive.Scan -> Prop} {w : W}

open Outlook

section Runs

variable (h : view.Reads o live) (hready : o.ready w) (hK : Window.Shaping (o.series w) K)
  (hs : K s.window)

include h hready

theorem after_continue (hrun : run <+: (o.series w).downFrom b) (hne : run ≠ [])
    (hlen : run.length ≤ count) :
    After (view.furtherBack a count run).run w (fun r w' => o.Follows w w' ∧
      o.Delivers w w' (fun older => run ++ older = ((o.series w).downFrom b).take count ∧
        exists oldest n, run.getLast? = some oldest ∧
          older = ((o.series w).downBefore oldest.key).take n) r) := by
  rcases exists_oldest hne with ⟨oldest, hlast, hin⟩
  have hmem := (Series.mem_of_prefix hrun hin).1
  apply After.imp (View.after_furtherBack h hready a count hlast hmem)
  intro r w' hpost
  rcases hpost with ⟨hw', hr⟩
  refine ⟨hw', hr.imp ?_⟩
  intro older heq
  subst heq
  exact ⟨Series.append_take_eq hrun hlast hlen, oldest, _, hlast, rfl⟩

include hK hs

theorem after_runAtSame (hne : s.window.entries ≠ [])
    (hfront : s.window.entries <+: (o.series w).downFrom (s.window.base a)) :
    After (runAtSame view a count s).run w (fun r w' => o.Follows w w' ∧
      o.Delivers w w' (Served K (o.series w) (s.window.base a) count s) r) := by
  unfold runAtSame
  dsimp only
  split
  · rename_i hshort
    have hall := take_of_short hshort
    rw [hall] at hshort ⊢
    apply after_except_bind.mpr
    apply After.imp (after_continue h hready hfront hne (Nat.le_of_lt hshort))
    intro r w' hpost
    rcases hpost with ⟨hw', hr⟩
    cases r with
    | error e =>
        exact ⟨hw', hr⟩
    | ok older =>
        rcases hr with ⟨hfull, -⟩
        dsimp only
        split
        · rename_i hempty
          rw [List.isEmpty_iff.mp hempty, List.append_nil] at hfull
          exact after_except_pure.mpr ⟨hw', hfull, hs, rfl⟩
        · refine after_except_pure.mpr ⟨hw', hfull, ?_, State.epoch_reshape _ _ _⟩
          apply State.kept_reshape (s := s.countPartialHit) hK hs
          rw [hfull]
          exact List.take_prefix _ _
  · rename_i hlong
    rw [List.length_take] at hlong
    have hlen : count ≤ s.window.entries.length := by omega
    have hheld := take_of_prefix hfront hlen
    exact after_except_pure.mpr ⟨Follows.refl o w, hheld, hs, rfl⟩

theorem after_runOnto (hbase : s.window.base a = a) (hne : s.window.entries ≠ [])
    (hfront : newer ++ s.window.entries <+: (o.series w).downFrom a)
    (hlen : newer.length < count) :
    After (runOnto view newer a count s).run w (fun r w' => o.Follows w w' ∧
      o.Delivers w w' (Served K (o.series w) a count s) r) := by
  unfold runOnto
  dsimp only
  split
  · rename_i hshort
    have hall : s.window.entries.take (count - newer.length) = s.window.entries := by
      rw [List.length_append] at hshort
      exact take_of_short (Nat.lt_sub_iff_add_lt'.mpr hshort)
    rw [hall] at hshort ⊢
    have hheld : newer ++ s.window.entries ≠ [] :=
      fun hnil => hne (List.append_eq_nil_iff.mp hnil).2
    apply after_except_bind.mpr
    apply After.imp (after_continue h hready hfront hheld (Nat.le_of_lt hshort))
    intro r w' hpost
    rcases hpost with ⟨hw', hr⟩
    cases r with
    | error e =>
        exact ⟨hw', hr⟩
    | ok older =>
        rcases hr with ⟨hfull, -⟩
        refine after_except_pure.mpr ⟨hw', hfull, ?_, State.epoch_reshape _ _ _⟩
        apply State.kept_reshape (s := s.countPartialHit) hK hs
        rw [hfull, show s.countPartialHit.window.base a = a from hbase]
        exact List.take_prefix _ _
  · rename_i hlong
    rw [List.length_append, List.length_take] at hlong
    have hheld : newer ++ s.window.entries.take (count - newer.length) =
        ((o.series w).downFrom a).take count := by
      calc
        newer ++ s.window.entries.take (count - newer.length)
          = (newer ++ s.window.entries).take count := by
            rw [List.take_append, List.take_of_length_le (Nat.le_of_lt hlen)]
        _ = ((o.series w).downFrom a).take count := by
            apply take_of_prefix hfront
            rw [List.length_append]
            omega
    cases newer.isEmpty with
    | true =>
        exact after_except_pure.mpr ⟨Follows.refl o w, hheld,
          State.kept_append (s := s.countHit) hK hfront _, State.epoch_append _ _ _ _⟩
    | false =>
        exact after_except_pure.mpr ⟨Follows.refl o w, hheld,
          State.kept_append (s := s.countPartialHit) hK hfront _, State.epoch_append _ _ _ _⟩

theorem after_runAfter {newest : Entry V} (hbase : s.window.base a = a)
    (hnewest : s.window.newest? = some newest) :
    After (runAfter view newest.key a count s).run w (fun r w' => o.Follows w w' ∧
      o.Delivers w w' (Served K (o.series w) a count s) r) := by
  unfold runAfter
  apply after_except_bind.mpr
  apply After.imp ((Walk.feeds h.archive).gather (fun e => e.key ≠ newest.key) count hready
    (Walk.awaits_startAt w a count))
  intro r w₁ hpost
  rcases hpost with ⟨hw₁, hr⟩
  cases r with
  | error e =>
      exact ⟨hw₁, hr⟩
  | ok out =>
      rcases out with ⟨newer, met⟩
      have hcollect : collect _ count ((o.series w).downFrom a) = (newer, met) := hr.symm
      dsimp only
      cases met with
      | true =>
          have hexists := exists_of_met (congrArg Prod.snd hcollect)
          rw [hcollect] at hexists
          rcases hexists with ⟨e, rest, hsplit, he, hlen⟩
          have hkey : e.key = newest.key := by simpa using he
          have hfront := hK.front s.window newest hs hnewest
          rw [← hkey, (Series.downFrom_of_append hsplit).1] at hfront
          have hne : s.window.entries ≠ [] := List.ne_nil_of_mem (List.mem_of_head? hnewest)
          have hjoined : newer ++ s.window.entries <+: (o.series w).downFrom a := by
            rw [hsplit]
            exact (List.prefix_append_right_inj _).mpr hfront
          rw [if_pos rfl]
          have hready₁ := hw₁.ready hready
          have hseries := hw₁.series
          apply After.imp (after_runOnto h hready₁ (hseries ▸ hK) hs hbase hne
            (hseries ▸ hjoined) hlen)
          intro r w₂ hpost
          rcases hpost with ⟨hw₂, hr⟩
          rw [hseries] at hr
          exact ⟨hw₁.trans hw₂, hr.later hw₁ hw₂⟩
      | false =>
          have hrun : newer = ((o.series w).downFrom a).take count := by
            have hfst := fst_collect_of_not_met (congrArg Prod.snd hcollect)
            rwa [hcollect] at hfst
          rw [if_neg Bool.false_ne_true]
          refine after_except_pure.mpr ⟨hw₁, hrun, ?_, State.epoch_reshape _ _ _⟩
          apply State.kept_reshape (s := s.countMiss) hK hs
          rw [hrun, show s.countMiss.window.base a = a from hbase]
          exact List.take_prefix _ _

theorem after_runInside {newest oldest : Entry V} (hnewest : s.window.newest? = some newest)
    (holdest : s.window.oldest? = some oldest) (hle : oldest.key ≤ a) (hge : a ≤ newest.key) :
    After (runInside view a count s).run w (fun r w' => o.Follows w w' ∧
      o.Delivers w w' (Served K (o.series w) a count s) r) := by
  have hwindow := hK.front s.window newest hs hnewest
  have hfront : (s.window.entries.filter fun e => e.key ≤ a) <+: (o.series w).downFrom a := by
    rw [← Series.filter_downFrom hge]
    exact hwindow.filter _
  have hlast : (s.window.entries.filter fun e => e.key ≤ a).getLast? = some oldest :=
    Window.getLast?_upTo holdest hle
  have hne : (s.window.entries.filter fun e => e.key ≤ a) ≠ [] := by
    intro hnil
    rw [hnil] at hlast
    cases hlast
  unfold runInside
  dsimp only
  generalize (s.window.entries.filter fun e => e.key ≤ a) = held at hfront hlast hne
  split
  · rename_i hshort
    have hall := take_of_short hshort
    rw [hall] at hshort ⊢
    apply after_except_bind.mpr
    apply After.imp (after_continue h hready hfront hne (Nat.le_of_lt hshort))
    intro r w' hpost
    rcases hpost with ⟨hw', hr⟩
    cases r with
    | error e =>
        exact ⟨hw', hr⟩
    | ok older =>
        rcases hr with ⟨hfull, other, n, hother, hn⟩
        cases hlast.symm.trans hother
        dsimp only
        split
        · rename_i hempty
          rw [List.isEmpty_iff.mp hempty, List.append_nil] at hfull
          exact after_except_pure.mpr ⟨hw', hfull, hs, rfl⟩
        · refine after_except_pure.mpr ⟨hw', hfull, ?_, State.epoch_prepend _ _ _⟩
          apply State.kept_prepend (s := s.countPartialHit) hK
          rw [hn]
          exact hK.extendOlder s.window oldest _ hs holdest
  · rename_i hlong
    rw [List.length_take] at hlong
    have hlen : count ≤ held.length := by omega
    have hheld := take_of_prefix hfront hlen
    exact after_except_pure.mpr ⟨Follows.refl o w, hheld, hs, rfl⟩

theorem after_runOutside (hbase : s.window.base a = a) :
    After (runOutside view a count s).run w (fun r w' => o.Follows w w' ∧
      o.Delivers w w' (Served K (o.series w) a count s) r) := by
  unfold runOutside
  apply after_except_bind.mpr
  apply After.imp (View.after_trailing h hready a count)
  intro r w' hpost
  rcases hpost with ⟨hw', hr⟩
  cases r with
  | error e =>
      exact ⟨hw', hr⟩
  | ok run =>
      have hrun : run = ((o.series w).downFrom a).take count := hr
      refine after_except_pure.mpr ⟨hw', hrun, ?_, State.epoch_reshape _ _ _⟩
      apply State.kept_reshape hK hs
      rw [hrun, hbase]
      exact List.take_prefix _ _

end Runs

/-!
## Requests
-/

structure Held (P : Series V -> Window V -> Prop) (o : Outlook W V) (p : State V × W) :
    Prop where
  epoch : p.1.epoch = o.epoch p.2
  window : P (o.series p.2) p.1.window

def Kept (P : Series V -> Window V -> Prop) (o : Outlook W V) (p : State V × W) : Prop :=
  p.1.epoch = o.epoch p.2 -> P (o.series p.2) p.1.window

/-- What a request does to the state: it holds what is kept, or leaves the window as it was. -/
structure Serves (P : Series V -> Window V -> Prop) (o : Outlook W V) (p p' : State V × W) :
    Prop where
  follows : o.Follows p.2 p'.2
  state : Held P o p' ∨ p'.1.window = p.1.window ∧ p'.1.epoch = p.1.epoch

section Requests

variable {p : State V × W} (h : view.Reads o live) (hready : o.ready p.2)
  (hP : forall series, Window.Shaping series (P series)) (hkept : Kept P o p)

include h hready hP

theorem after_sync (hkept : Kept P o p) :
    After (sync view) p (fun _ p' => o.Follows p.2 p'.2 ∧ Held P o p' ∧
      p'.1 = p.1.observeEpoch (o.epoch p.2)) := by
  rcases p with ⟨s, w⟩
  unfold sync
  simp only [after_bind, after_state_monadLift, after_state_modify]
  apply After.imp (h.epoch w hready)
  intro _ w' hpost
  rcases hpost with ⟨rfl, hw'⟩
  refine ⟨hw', ?_, rfl⟩
  unfold State.observeEpoch
  split
  · rename_i heq
    exact ⟨heq.symm.trans hw'.epoch.symm, hw'.series ▸ hkept heq.symm⟩
  · exact ⟨hw'.epoch.symm, (hP _).empty⟩

omit h hready hP in
theorem after_commit {step : State V -> ExceptT QueryError m (Outcome V)} (hheld : Held P o p)
    (hstep : After (step p.1).run p.2 (fun r w' => o.Follows p.2 w' ∧
      o.Delivers p.2 w' (Served (P (o.series p.2)) (o.series p.2) b count p.1) r)) :
    After (commit step).run p (fun r p' => o.Follows p.2 p'.2 ∧ Held P o p' ∧
      o.Delivers p.2 p'.2 (· = ((o.series p.2).downFrom b).take count) r) := by
  rcases p with ⟨s, w⟩
  unfold commit
  simp only [after_except_bind, after_request_get, after_request_handOn]
  apply After.imp hstep
  intro r w' hpost
  rcases hpost with ⟨hw', hr⟩
  cases r with
  | error e =>
      exact ⟨hw', ⟨hheld.epoch.trans hw'.epoch.symm, hw'.series ▸ hheld.window⟩, hr⟩
  | ok out =>
      rcases out with ⟨run, next⟩
      have hserved : Served (P (o.series w)) (o.series w) b count s (run, next) := hr
      simp only [after_request_set]
      refine after_except_pure.mpr ⟨hw', ⟨?_, hw'.series ▸ hserved.window⟩, hserved.run⟩
      exact hserved.epoch.trans (hheld.epoch.trans hw'.epoch.symm)

include hkept

/-- A run yields what the series has from the base of the window on. -/
theorem after_run (options : Options) (key : Instant) (count : Nat) :
    After (Windowed.run view options key count).run p (fun r p' =>
      o.Follows p.2 p'.2 ∧ Held P o p' ∧ o.Delivers p.2 p'.2 (· = ((o.series p.2).downFrom
        (p.1.base (o.epoch p.2) (o.about p.2 options key))).take count) r) := by
  rcases p with ⟨s, w⟩
  unfold Windowed.run
  apply after_except_bind.mpr
  apply after_request_lift.mpr
  apply After.imp (View.after_adjust h hready options key)
  intro _ w₁ hpost
  rcases hpost with ⟨rfl, hw₁⟩
  have hkept₁ : Kept P o (s, w₁) := fun heq => by
    rw [show o.series (s, w₁).2 = o.series w from hw₁.series]
    exact hkept (heq.trans hw₁.epoch)
  apply after_except_bind.mpr
  apply after_request_liftState.mpr
  apply After.imp (after_sync h (hw₁.ready hready) hP hkept₁)
  intro _ p hpost
  rcases p with ⟨s₂, w₂⟩
  rcases hpost with ⟨hw₂, hheld, hobserved⟩
  have hw := hw₁.trans hw₂
  have hready₂ := hw.ready hready
  generalize o.about w options key = a
  have hbase : s.base (o.epoch w) a = s₂.window.base a := by
    unfold State.base
    rw [show s₂ = s.observeEpoch (o.epoch w₁) from hobserved, hw₁.epoch]
  dsimp only
  rw [hbase]
  apply after_except_bind.mpr
  apply after_request_get.mpr
  have hplace := State.located (hP _) hheld.window a
  have hdone : forall {step : State V -> ExceptT QueryError m (Outcome V)} {t : State V}
      {b : Instant}, Held P o (t, w₂) -> After (step t).run w₂ (fun r w' => o.Follows w₂ w' ∧
        o.Delivers w₂ w' (Served (P (o.series w₂)) (o.series w₂) b count t) r) ->
      After (commit step).run (t, w₂) (fun r p' => o.Follows w p'.2 ∧ Held P o p' ∧
        o.Delivers w p'.2 (· = ((o.series w).downFrom b).take count) r) := by
    intro step t b ht hstep
    apply After.imp (after_commit ht hstep)
    intro r p' hpost
    rcases hpost with ⟨hw', hheld', hr⟩
    rw [show o.series (t, w₂).2 = o.series w from hw.series] at hr
    exact ⟨hw.trans hw', hheld', hr.later hw hw'⟩
  dsimp only
  split
  · rename_i hlocate
    rw [hlocate] at hplace
    exact hdone hheld (after_runAtSame h hready₂ (hP _) hheld.window hplace.1 hplace.2)
  · rename_i hlocate
    rw [hlocate] at hplace
    rcases hplace with ⟨hsame, newest, hnewest, rfl⟩
    rw [show s₂.window.base a = a from hsame]
    exact hdone hheld (after_runAfter h hready₂ (hP _) hheld.window hsame hnewest)
  · rename_i hlocate
    rw [hlocate] at hplace
    rcases hplace with ⟨hsame, newest, oldest, hnewest, holdest, hle, hge⟩
    rw [show s₂.window.base a = a from hsame]
    exact hdone hheld (after_runInside h hready₂ (hP _) hheld.window hnewest holdest hle hge)
  · rename_i hlocate
    rw [hlocate] at hplace
    rw [show s₂.window.base a = a from hplace]
    apply after_except_bind.mpr
    apply after_request_modify.mpr
    have hcounted : Held P o (s₂.countMiss, w₂) := ⟨hheld.epoch, hheld.window⟩
    exact hdone hcounted (after_runOutside h hready₂ (hP _) hcounted.window hplace)

omit h hready hP hkept in
theorem after_bypass {α : Type} {request : ExceptT QueryError m α}
    {post : Except QueryError α -> W -> Prop}
    (hrequest : After request.run p.2 (fun r w' => o.Follows p.2 w' ∧ post r w')) :
    After (bypass request : Request m (State V) α).run p (fun r p' =>
      Serves P o p p' ∧ post r p'.2) := by
  rcases p with ⟨s, w⟩
  unfold bypass
  apply after_except_bind.mpr
  apply after_request_modify.mpr
  apply after_request_handOn.mpr
  apply After.imp hrequest
  intro r w' hpost
  rcases hpost with ⟨hw', hpost⟩
  exact ⟨⟨hw', Or.inr ⟨rfl, rfl⟩⟩, hpost⟩

omit hP hkept in
theorem after_entry (options : Options) (key : Instant) :
    After (entry view options key).run p (fun r p' => Serves P o p p' ∧
      o.Returns p.2 p'.2 (options.demand.verdict (o.about p.2 options key)
        ((o.series p.2).latestUpTo (o.about p.2 options key))) r) :=
  after_bypass (View.after_entry h hready options key)

theorem after_previousEntry (options : Options) (key : Instant) (distance : Nat) :
    After (previousEntry view options key distance).run p (fun r p' => Serves P o p p' ∧
      o.Delivers p.2 p'.2 (· = (o.series p.2).entryBack
        (if distance = 0 then o.about p.2 options key
          else p.1.base (o.epoch p.2) (o.about p.2 options key))
        (min distance (Count.limit - 1))) r) := by
  unfold previousEntry
  split
  · rename_i hzero
    rw [hzero]
    exact after_bypass (View.after_previousEntry h hready options key 0)
  · apply after_except_bind.mpr
    apply After.imp (after_run h hready hP hkept options key (Count.succ distance))
    intro r p' hpost
    rcases hpost with ⟨hp', hheld, hr⟩
    cases r with
    | error e =>
        exact ⟨⟨hp', Or.inl hheld⟩, hr⟩
    | ok run =>
        refine after_except_pure.mpr ⟨⟨hp', Or.inl hheld⟩, ?_⟩
        rw [show run = _ from hr]
        exact Series.getLast?_take_succ _ _

theorem after_previousEntries (options : Options) (key : Instant) (count : Nat) :
    After (previousEntries view options key count).run p (fun r p' => Serves P o p p' ∧
      o.Delivers p.2 p'.2 (· = (o.series p.2).lastUpTo
        (if count ≤ 1 then o.about p.2 options key
          else p.1.base (o.epoch p.2) (o.about p.2 options key)) count) r) := by
  unfold previousEntries
  split
  · refine after_except_pure.mpr ⟨⟨Follows.refl o p.2, Or.inr ⟨rfl, rfl⟩⟩, ?_⟩
    show [] = _
    rw [Series.lastUpTo_eq]
    rfl
  · have hone : After (Option.toList <$> view.previousEntry options key 0).run p.2 (fun r w' =>
        o.Follows p.2 w' ∧ o.Delivers p.2 w'
          (· = (o.series p.2).lastUpTo (o.about p.2 options key) 1) r) := by
      apply after_except_map.mpr
      apply After.imp (View.after_previousEntry h hready options key 0)
      intro r w' hpost
      rcases hpost with ⟨hw', hr⟩
      refine ⟨hw', hr.map fun found hfound => ?_⟩
      rw [hfound, Series.lastUpTo_eq]
      unfold Series.entryBack
      rw [Nat.zero_min]
      cases (o.series p.2).downFrom (o.about p.2 options key) <;> rfl
    exact after_bypass hone
  · rename_i hzero hone
    have hmany : ¬ count ≤ 1 := by
      intro hle
      rcases Nat.le_one_iff_eq_zero_or_eq_one.mp hle with heq | heq
      · exact hzero heq
      · exact hone heq
    rw [if_neg hmany]
    apply after_except_bind.mpr
    apply After.imp (after_run h hready hP hkept options key _)
    intro r p' hpost
    rcases hpost with ⟨hp', hheld, hr⟩
    cases r with
    | error e =>
        exact ⟨⟨hp', Or.inl hheld⟩, hr⟩
    | ok run =>
        refine after_except_pure.mpr ⟨⟨hp', Or.inl hheld⟩, ?_⟩
        rw [show run = _ from hr]
        exact (Series.lastUpTo_eq _ _ _).symm

end Requests

end Windowed
end AsOf
