import AsOf.Proofs.Engine.Session
import AsOf.Proofs.Shape

/-!
# Engines in order

A window stays in order, and keeps room for at least one entry, whatever the archive
does: it takes in only runs in shape, and joins only what it has met.  So the answers
of an engine are in shape, whichever kind it is and whatever it has been asked before.
-/

namespace AsOf

variable {m : Type -> Type} [Monad m] {V W α : Type} [Performs m W] {w : W}

/-!
## Windows in order
-/

namespace Window

variable {window : Window V} {a : Instant} {l older : List (Entry V)} {size : Nat}

theorem anchored_iff :
    window.Anchored ↔ (window.entries = [] ∧ window.anchor = none) ∨
      exists newest rest anchor, window.entries = newest :: rest ∧ window.anchor = some anchor ∧
        newest.key ≤ anchor := by
  rcases window with ⟨entries, anchor⟩
  cases entries <;> cases anchor <;> simp [Anchored, newest?]

theorem Consistent.exists_anchor (h : window.Consistent) (hne : window.entries ≠ []) :
    exists anchor, window.anchor = some anchor ∧ forall e, e ∈ window.entries ->
      e.key ≤ anchor := by
  rcases anchored_iff.mp h.2 with ⟨hnil, -⟩ | ⟨newest, rest, anchor, hentries, hanchor, hle⟩
  · exact absurd hnil hne
  · refine ⟨anchor, hanchor, fun e he => ?_⟩
    have hnewest := h.1.head?_eq_some_iff.mp (show _ = some newest by rw [hentries]; rfl)
    exact Std.le_trans (hnewest.2 e he) hle

theorem consistent_empty : (empty : Window V).Consistent :=
  ⟨List.Pairwise.nil, trivial⟩

theorem consistent_of_anchor (hdesc : Descending l) (hne : l ≠ [])
    (hle : forall e, e ∈ l -> e.key ≤ a) : Consistent ⟨l, some a⟩ := by
  constructor
  · exact hdesc
  · cases l with
    | nil => exact absurd rfl hne
    | cons e rest => exact hle e (List.mem_cons_self ..)

theorem Consistent.trimOldest (h : window.Consistent) (hpos : 0 < size) :
    (window.trimOldest size).Consistent := by
  constructor
  · exact h.1.sublist (List.take_sublist _ _)
  · apply anchored_iff.mpr
    unfold Window.trimOldest
    rcases anchored_iff.mp h.2 with ⟨hnil, hnone⟩ | ⟨newest, rest, anchor, hentries, hanchor, hle⟩
    · exact Or.inl ⟨by rw [hnil, List.take_nil], hnone⟩
    · refine Or.inr ⟨newest, rest.take (size - 1), anchor, ?_, hanchor, hle⟩
      rw [hentries, List.take_cons hpos]

theorem Consistent.trimNewest (h : window.Consistent) (size : Nat) :
    (window.trimNewest size).Consistent := by
  unfold Window.trimNewest
  split
  · exact h
  · have hdesc : Descending (window.entries.drop (window.excess size)) :=
      h.1.sublist (List.drop_sublist _ _)
    dsimp only
    generalize window.entries.drop (window.excess size) = kept at hdesc
    cases kept with
    | nil => exact consistent_empty
    | cons e rest => exact ⟨hdesc, Std.le_refl e.key⟩

theorem Consistent.extendOlder (h : window.Consistent) (hne : window.entries ≠ [])
    (hdesc : Descending (window.entries ++ older)) : (window.extendOlder older).Consistent := by
  constructor
  · exact hdesc
  · rcases anchored_iff.mp h.2 with ⟨hnil, -⟩ | ⟨newest, rest, anchor, hentries, hanchor, hle⟩
    · exact absurd hnil hne
    · apply anchored_iff.mpr
      refine Or.inr ⟨newest, rest ++ older, anchor, ?_, hanchor, hle⟩
      show window.entries ++ older = _
      rw [hentries, List.cons_append]

end Window

/-!
## The maximum of a window
-/

namespace Windowed

variable {maximum : Option Nat} {length size : Nat}

/-- The maximum after a run of some length: doubled up to the limit of counts if it fell short. -/
def grown (maximum : Option Nat) (length : Nat) : Option Nat :=
  maximum.map fun size => if length ≤ size then size else min (2 * length) Count.limit

theorem grown_of_room (h : forall size, maximum = some size -> length ≤ size) :
    grown maximum length = maximum := by
  cases maximum with
  | none => rfl
  | some size =>
      show some (if length ≤ size then size else _) = some size
      rw [if_pos (h size rfl)]

theorem room_of_grown (hlength : length ≤ Count.limit) (h : grown maximum length = some size) :
    length ≤ size := by
  rcases Option.map_eq_some_iff.mp h with ⟨old, -, rfl⟩
  split <;> omega

theorem grown_pos (hpos : forall size, maximum = some size -> 0 < size)
    (h : grown maximum length = some size) : 0 < size := by
  rcases Option.map_eq_some_iff.mp h with ⟨old, hold, rfl⟩
  have hold := hpos old hold
  unfold Count.limit
  split <;> omega

theorem State.maximum_growToFit (s : State V) (required : Nat) :
    (s.growToFit required).maximum = grown s.maximum required := by
  unfold growToFit grown
  cases hmaximum : s.maximum with
  | none => exact hmaximum
  | some size =>
      show (if size < required then _ else s).maximum = some (if required ≤ size then _ else _)
      by_cases hle : required ≤ size
      · rw [if_neg (Nat.not_lt.mpr hle), if_pos hle]
        exact hmaximum
      · rw [if_pos (Nat.lt_of_not_le hle), if_neg hle]
        exact congrArg some (Count.double_eq required)

/-!
## A window engine in order
-/

variable {s : State V} {a : Instant} {count required : Nat} {run newer older : List (Entry V)}

namespace State

structure Proper (s : State V) : Prop where
  window : s.window.Consistent
  maximum : forall size, s.maximum = some size -> 0 < size

theorem Proper.observeEpoch (h : s.Proper) (epoch : Nat) : (s.observeEpoch epoch).Proper := by
  unfold State.observeEpoch
  split
  · exact h
  · exact ⟨Window.consistent_empty, h.maximum⟩

theorem Proper.countHit (h : s.Proper) : s.countHit.Proper :=
  ⟨h.window, h.maximum⟩

theorem Proper.countMiss (h : s.Proper) : s.countMiss.Proper :=
  ⟨h.window, h.maximum⟩

theorem Proper.countPartialHit (h : s.Proper) : s.countPartialHit.Proper :=
  ⟨h.window, h.maximum⟩

def Observed (s t : State V) : Prop :=
  exists epoch, t = s.observeEpoch epoch ∨ t = (s.observeEpoch epoch).countMiss

theorem Proper.observed {t : State V} (h : s.Proper) (ht : s.Observed t) : t.Proper := by
  rcases ht with ⟨epoch, rfl | rfl⟩
  · exact h.observeEpoch epoch
  · exact (h.observeEpoch epoch).countMiss

theorem Proper.countBypass (h : s.Proper) : s.countBypass.Proper :=
  ⟨h.window, h.maximum⟩

theorem Proper.clear (h : s.Proper) : s.clear.Proper :=
  ⟨Window.consistent_empty, h.maximum⟩

theorem Proper.raiseMaximum (h : s.Proper) (size : Nat) : (s.raiseMaximum size).Proper := by
  constructor
  · exact h.window
  · intro raised hraised
    rcases Option.map_eq_some_iff.mp hraised with ⟨maximum, hmaximum, rfl⟩
    have hpos := h.maximum maximum hmaximum
    omega

theorem Proper.growToFit (h : s.Proper) (required : Nat) : (s.growToFit required).Proper := by
  constructor
  · rw [(s.window_growToFit required).1]
    exact h.window
  · intro size hsize
    rw [maximum_growToFit] at hsize
    exact grown_pos h.maximum hsize

theorem Proper.reshape (h : s.Proper) (hrun : Shaped a count run) : (s.reshape a run).Proper := by
  unfold State.reshape
  split
  · exact h
  · rename_i hnonempty
    have hne : run ≠ [] := by
      intro hnil
      simp [hnil] at hnonempty
    exact ⟨Window.consistent_of_anchor hrun.descending hne hrun.upTo,
      (h.growToFit run.length).maximum⟩

theorem Proper.append (h : s.Proper) (hne : s.window.entries ≠ [])
    (hdesc : Descending (newer ++ s.window.entries))
    (hle : forall e, e ∈ newer ++ s.window.entries -> e.key ≤ a) (required : Nat) :
    (s.append a newer required).Proper := by
  have hgrown := h.growToFit required
  have hjoined : ((s.growToFit required).window.extendNewer a newer).Consistent := by
    rw [(s.window_growToFit required).1]
    exact Window.consistent_of_anchor hdesc (fun hnil => hne (List.append_eq_nil_iff.mp hnil).2) hle
  constructor
  · unfold State.append
    dsimp only
    cases hmaximum : (s.growToFit required).maximum with
    | none => exact hjoined
    | some size => exact hjoined.trimOldest (hgrown.maximum size hmaximum)
  · exact hgrown.maximum

theorem Proper.prepend (h : s.Proper) (hne : s.window.entries ≠ [])
    (hdesc : Descending (s.window.entries ++ older)) (required : Nat) :
    (s.prepend older required).Proper := by
  have hgrown := h.growToFit required
  have hjoined : ((s.growToFit required).window.extendOlder older).Consistent := by
    rw [(s.window_growToFit required).1]
    exact h.window.extendOlder hne hdesc
  constructor
  · unfold State.prepend
    dsimp only
    cases (s.growToFit required).maximum with
    | none => exact hjoined
    | some size => exact hjoined.trimNewest size
  · exact hgrown.maximum

def Aligned (s : State V) (a : Instant) : Place -> Prop
  | .same => s.window.entries ≠ [] ∧ forall e, e ∈ s.window.entries -> e.key ≤ a
  | .after newest => exists e, s.window.newest? = some e ∧ e.key = newest ∧ e.key ≤ a
  | .inside => exists e, s.window.oldest? = some e ∧ e.key ≤ a
  | .outside => True

theorem Proper.aligned (h : s.Proper) (a : Instant) : s.Aligned a (s.locate a) := by
  unfold locate
  split
  · rename_i oldest newest anchor holdest hnewest hanchor
    have hmax := h.window.1.head?_eq_some_iff.mp hnewest
    have hne : s.window.entries ≠ [] := List.ne_nil_of_mem hmax.1
    rcases h.window.exists_anchor hne with ⟨anchor', hanchor', hle⟩
    cases hanchor.symm.trans hanchor'
    split
    · rename_i hat
      refine ⟨hne, fun e he => ?_⟩
      rcases hat with rfl | rfl
      · exact hle e he
      · exact hmax.2 e he
    · split
      · rename_i hafter
        refine ⟨newest, hnewest, rfl, ?_⟩
        rcases hafter with hlt | hlt
        · exact Std.le_trans (hle newest hmax.1) (Std.le_of_lt hlt)
        · exact Std.le_of_lt hlt
      · split
        · rename_i hwithin
          exact ⟨oldest, holdest, hwithin.1⟩
        · trivial
  · trivial

end State

structure Formed (a : Instant) (count : Nat) (out : Outcome V) : Prop where
  run : Shaped a count out.1
  state : out.2.Proper

variable (view : View m V)

section Runs

variable (hs : s.Proper)

include hs

theorem formed_runAtSame (hle : forall e, e ∈ s.window.entries -> e.key ≤ a) :
    After (runAtSame view a count s).run w (fun r _ => WhenOk (Formed a count) r) := by
  have hheld := Shaped.take hs.window.1 hle count
  unfold runAtSame
  dsimp only
  split
  · apply after_bind_whenOk (view.behind_furtherBack a count _)
    intro older w' hbehind
    have hrun := hbehind.shaped hheld
    split
    · exact after_except_pure.mpr ⟨hheld, hs.countHit⟩
    · exact after_except_pure.mpr ⟨hrun, hs.countPartialHit.reshape hrun⟩
  · exact after_except_pure.mpr ⟨hheld, hs.countHit⟩

theorem formed_runOnto (hne : s.window.entries ≠ [])
    (hdesc : Descending (newer ++ s.window.entries))
    (hle : forall e, e ∈ newer ++ s.window.entries -> e.key ≤ a) (hlen : newer.length < count) :
    After (runOnto view newer a count s).run w (fun r _ => WhenOk (Formed a count) r) := by
  have hheld : Shaped a count (newer ++ s.window.entries.take (count - newer.length)) := by
    have hshaped := Shaped.take hdesc hle count
    rwa [List.take_append, List.take_of_length_le (Nat.le_of_lt hlen)] at hshaped
  unfold runOnto
  dsimp only
  split
  · apply after_bind_whenOk (view.behind_furtherBack a count _)
    intro older w' hbehind
    have hrun := hbehind.shaped hheld
    exact after_except_pure.mpr ⟨hrun, hs.countPartialHit.reshape hrun⟩
  · cases newer.isEmpty with
    | true =>
        exact after_except_pure.mpr
          ⟨hheld, hs.countHit.append hne hdesc hle _⟩
    | false =>
        exact after_except_pure.mpr
          ⟨hheld, hs.countPartialHit.append hne hdesc hle _⟩

/-- An unwanted item that ended a walk lies between what was gathered and the window. -/
theorem formed_runAfter {newest : Entry V} (hnewest : s.window.newest? = some newest) :
    After (runAfter view newest.key a count s).run w (fun r _ => WhenOk (Formed a count) r) := by
  unfold runAfter
  apply after_bind_whenOk (Walk.after_gather view.archive _ count (.startAt a count))
  intro out w' hout
  rcases out with ⟨newer, met⟩
  rcases hout with ⟨items, ⟨hdesc, hadmits⟩, hcollect⟩
  have hupTo : forall e, e ∈ items -> e.key ≤ a := fun e he => hadmits e he a rfl
  dsimp only
  cases met with
  | true =>
      have hexists := exists_of_met (congrArg Prod.snd hcollect.symm)
      rw [← hcollect] at hexists
      rcases hexists with ⟨e, rest, hsplit, he, hlen⟩
      have hkey : e.key = newest.key := by simpa using he
      have hmax := hs.window.1.head?_eq_some_iff.mp hnewest
      rw [hsplit] at hdesc hupTo
      have hparts := List.pairwise_append.mp hdesc
      have hbelow : forall x, x ∈ s.window.entries -> x.key ≤ e.key :=
        fun x hx => hkey ▸ hmax.2 x hx
      have hjoined : Descending (newer ++ s.window.entries) := by
        apply List.pairwise_append.mpr
        refine ⟨hparts.1, hs.window.1, fun x hx y hy => ?_⟩
        exact Std.lt_of_le_of_lt (hbelow y hy) (hparts.2.2 x hx e (List.mem_cons_self ..))
      have hle : forall x, x ∈ newer ++ s.window.entries -> x.key ≤ a := by
        intro x hx
        rcases List.mem_append.mp hx with hx | hx
        · exact hupTo x (List.mem_append.mpr (Or.inl hx))
        · exact Std.le_trans (hbelow x hx) (hupTo e (by simp))
      rw [if_pos rfl]
      exact formed_runOnto view hs (List.ne_nil_of_mem hmax.1) hjoined hle hlen
  | false =>
      have hrun : newer = items.take count := by
        have hfst := fst_collect_of_not_met (congrArg Prod.snd hcollect.symm)
        rwa [← hcollect] at hfst
      have hshaped : Shaped a count newer := hrun ▸ Shaped.take hdesc hupTo count
      rw [if_neg Bool.false_ne_true]
      exact after_except_pure.mpr ⟨hshaped, hs.countMiss.reshape hshaped⟩

theorem formed_runInside {oldest : Entry V} (holdest : s.window.oldest? = some oldest)
    (hle : oldest.key ≤ a) :
    After (runInside view a count s).run w (fun r _ => WhenOk (Formed a count) r) := by
  have hdesc : Descending (s.window.entries.filter fun e => e.key ≤ a) := hs.window.1.filter _
  have hupTo : forall e, e ∈ s.window.entries.filter (fun e => e.key ≤ a) -> e.key ≤ a :=
    fun e he => of_decide_eq_true (List.mem_filter.mp he).2
  have hlast : (s.window.entries.filter fun e => e.key ≤ a).getLast? = some oldest :=
    Window.getLast?_upTo holdest hle
  have hne : s.window.entries ≠ [] := List.ne_nil_of_mem (List.mem_of_getLast? holdest)
  have hheld := Shaped.take hdesc hupTo count
  unfold runInside
  dsimp only
  generalize (s.window.entries.filter fun e => e.key ≤ a) = held at hheld hlast
  split
  · rename_i hshort
    rw [take_of_short hshort] at hheld ⊢
    apply after_bind_whenOk (view.behind_furtherBack a count _)
    intro older w' hbehind
    split
    · exact after_except_pure.mpr ⟨hheld, hs.countHit⟩
    · have hjoined := hbehind.descending_append hs.window.1 (holdest.trans hlast.symm)
      exact after_except_pure.mpr ⟨hbehind.shaped hheld,
        hs.countPartialHit.prepend hne hjoined _⟩
  · exact after_except_pure.mpr ⟨hheld, hs.countHit⟩

theorem formed_runOutside :
    After (runOutside view a count s).run w (fun r _ => WhenOk (Formed a count) r) := by
  unfold runOutside
  apply after_bind_whenOk (view.shaped_trailing a count)
  intro run w' hrun
  exact after_except_pure.mpr ⟨hrun, hs.reshape hrun⟩

end Runs

/-!
## Requests
-/

theorem formed_commit {step : State V -> ExceptT QueryError m (Outcome V)} (hs : s.Proper)
    (hstep : After (step s).run w (fun r _ => WhenOk (Formed a count) r)) :
    After (commit step).run (s, w) (fun r p => p.1.Proper ∧ WhenOk (Shaped a count) r) := by
  unfold commit
  simp only [after_except_bind, after_request_get, after_request_handOn]
  apply After.imp hstep
  intro r w' hr
  cases r with
  | error e => exact ⟨hs, trivial⟩
  | ok out =>
      simp only [after_request_set]
      exact after_except_pure.mpr ⟨hr.state, hr.run⟩

def runAt (view : View m V) (a : Instant) (count : Nat) :
    Place -> State V -> ExceptT QueryError m (Outcome V)
  | .same => runAtSame view a count
  | .after newest => runAfter view newest a count
  | .inside => runInside view a count
  | .outside => runOutside view a count

theorem formed_runAt (hs : s.Proper) (a : Instant) (count : Nat) :
    After (runAt view a count (s.locate a) s).run w (fun r _ => WhenOk (Formed a count) r) := by
  have hplace := hs.aligned a
  cases hlocate : s.locate a with
  | same =>
      rw [hlocate] at hplace
      exact formed_runAtSame view hs hplace.2
  | after newest =>
      rw [hlocate] at hplace
      rcases hplace with ⟨newest, hnewest, rfl, -⟩
      exact formed_runAfter view hs hnewest
  | inside =>
      rw [hlocate] at hplace
      rcases hplace with ⟨oldest, holdest, hle⟩
      exact formed_runInside view hs holdest hle
  | outside => exact formed_runOutside view hs

def State.entered (s : State V) (epoch : Nat) (a : Instant) : State V :=
  if (s.observeEpoch epoch).locate a = .outside then (s.observeEpoch epoch).countMiss
  else s.observeEpoch epoch

theorem State.observed_entered (s : State V) (epoch : Nat) (a : Instant) :
    s.Observed (s.entered epoch a) := by
  unfold entered
  split
  · exact ⟨epoch, Or.inr rfl⟩
  · exact ⟨epoch, Or.inl rfl⟩

def State.committed (s : State V) : Except QueryError (Outcome V) -> State V
  | .ok out => out.2
  | .error _ => s

theorem perform_commit (step : State V -> ExceptT QueryError m (Outcome V)) (s : State V) (w : W) :
    perform (commit step).run (s, w) =
      let r := perform (step s).run w
      (r.1.map Prod.fst, s.committed r.1, r.2) := by
  rcases hstep : perform (step s).run w with ⟨r, w'⟩
  apply perform_eq
  unfold commit
  simp only [after_except_bind, after_request_get, after_request_handOn]
  apply (after_of_perform_eq hstep).mpr
  cases r with
  | ok out =>
      simp only [after_request_set]
      exact after_except_pure.mpr rfl
  | error e => exact rfl

def seen (view : View m V) (options : Options) (key : Instant) (w : W) : Nat × W :=
  perform view.epoch.current (perform (view.adjust options key) w).2

/-- A run is the committed run of its place, after the horizon and the epoch were read. -/
theorem perform_run (options : Options) (key : Instant) (count : Nat) (s : State V) (w : W) :
    let a := view.about options key w
    let t := s.entered (seen view options key w).1 a
    perform (Windowed.run view options key count).run (s, w) =
      perform (commit (runAt view a count (t.locate a))).run (t, (seen view options key w).2) := by
  have habout := view.adjust_about options key w
  unfold seen
  rcases hadjust : perform (view.adjust options key) w with ⟨a, w₁⟩
  rcases hepoch : perform view.epoch.current w₁ with ⟨epoch, w₂⟩
  rw [← (after_of_perform_eq hadjust).mp habout]
  apply perform_eq
  unfold Windowed.run
  apply after_except_bind.mpr
  apply after_request_lift.mpr
  apply (after_of_perform_eq hadjust).mpr
  apply after_except_bind.mpr
  apply after_request_liftState.mpr
  unfold sync
  simp only [after_bind, after_state_monadLift, after_state_modify]
  apply (after_of_perform_eq hepoch).mpr
  apply after_except_bind.mpr
  apply after_request_get.mpr
  unfold State.entered
  dsimp only
  cases hlocate : (s.observeEpoch epoch).locate a with
  | outside =>
      apply after_except_bind.mpr
      apply after_request_modify.mpr
      have hsame : (s.observeEpoch epoch).countMiss.locate a = .outside := hlocate
      rw [if_pos rfl, hsame]
      exact rfl
  | same =>
      rw [if_neg (by simp), hlocate]
      exact rfl
  | after newest =>
      rw [if_neg (by simp), hlocate]
      exact rfl
  | inside =>
      rw [if_neg (by simp), hlocate]
      exact rfl

theorem after_run_of_places {p : State V × W} {options : Options} {key : Instant} {count : Nat}
    {post : Except QueryError (List (Entry V)) -> State V × W -> Prop}
    (h : forall (t : State V) (w : W), p.1.Observed t ->
      After (commit (runAt view (view.about options key p.2) count
        (t.locate (view.about options key p.2)))).run (t, w) post) :
    After (Windowed.run view options key count).run p post := by
  rcases p with ⟨s, w⟩
  unfold After
  rw [perform_run]
  exact h _ _ (s.observed_entered _ _)

theorem shaped_run {p : State V × W} (hp : p.1.Proper) (options : Options) (key : Instant)
    (count : Nat) :
    After (Windowed.run view options key count).run p (fun r p' =>
      p'.1.Proper ∧ WhenOk (Shaped (view.about options key p.2) count) r) := by
  apply after_run_of_places
  intro t w ht
  have hproper := hp.observed ht
  exact formed_commit hproper (formed_runAt view hproper _ count)

theorem shaped_bypass {request : ExceptT QueryError m α} {good : α -> Prop}
    {p : State V × W} (hp : p.1.Proper)
    (hrequest : After request.run p.2 (fun r _ => WhenOk good r)) :
    After (bypass request : Request m (State V) α).run p (fun r p' =>
      p'.1.Proper ∧ WhenOk good r) := by
  rcases p with ⟨s, w⟩
  unfold bypass
  apply after_except_bind.mpr
  apply after_request_modify.mpr
  apply after_request_handOn.mpr
  apply After.imp hrequest
  intro r w' hr
  exact ⟨hp.countBypass, hr⟩

theorem shaped_previousEntry {p : State V × W} (hp : p.1.Proper) (options : Options)
    (key : Instant) (distance : Nat) :
    After (previousEntry view options key distance).run p (fun r p' =>
      p'.1.Proper ∧ WhenOk (fun found =>
        forall e, found = some e -> e.key ≤ view.about options key p.2) r) := by
  unfold previousEntry
  split
  · exact shaped_bypass hp (view.shaped_previousEntry options key 0)
  · apply after_except_bind.mpr
    apply After.imp (shaped_run view hp options key (Count.succ distance))
    intro r p' hpost
    rcases hpost with ⟨hp', hr⟩
    cases r with
    | error e => exact ⟨hp', trivial⟩
    | ok run =>
        refine after_except_pure.mpr ⟨hp', fun e he => ?_⟩
        exact hr.upTo e (List.mem_of_getLast? he)

theorem shaped_previousEntries {p : State V × W} (hp : p.1.Proper) (options : Options)
    (key : Instant) (count : Nat) :
    After (previousEntries view options key count).run p (fun r p' => p'.1.Proper ∧
      WhenOk (fun run => Shaped (view.about options key p.2) count run.reverse) r) := by
  unfold previousEntries
  split
  · refine after_except_pure.mpr ⟨hp, List.Pairwise.nil, Nat.le_refl 0, ?_⟩
    exact fun e he => absurd he List.not_mem_nil
  · have hone : After (Option.toList <$> view.previousEntry options key 0).run p.2 (fun r _ =>
        WhenOk (fun run => Shaped (view.about options key p.2) 1 run.reverse) r) := by
      apply after_except_map.mpr
      apply After.imp (view.shaped_previousEntry options key 0)
      intro r w' hr
      apply hr.map
      intro found hfound
      cases found with
      | none => exact ⟨List.Pairwise.nil, Nat.zero_le 1, fun e he => absurd he List.not_mem_nil⟩
      | some x =>
          refine ⟨List.pairwise_singleton _ x, Nat.le_refl 1, fun e he => hfound e ?_⟩
          exact congrArg some (List.mem_singleton.mp he).symm
    exact shaped_bypass hp hone
  · apply after_except_bind.mpr
    apply After.imp (shaped_run view hp options key _)
    intro r p' hpost
    rcases hpost with ⟨hp', hr⟩
    cases r with
    | error e => exact ⟨hp', trivial⟩
    | ok run =>
        refine after_except_pure.mpr ⟨hp', ?_⟩
        show Shaped _ _ run.reverse.reverse
        rw [List.reverse_reverse]
        exact hr

end Windowed

/-!
## Engines in shape
-/

namespace Engine

def State.Proper (engine : State V) : Prop :=
  forall s, engine = .windowed s -> s.Proper

theorem State.Proper.clear {engine : State V} (h : engine.Proper) : engine.clear.Proper := by
  cases engine with
  | direct n =>
      intro s hs
      cases hs
  | windowed t =>
      intro s hs
      cases hs
      exact (h t rfl).clear

theorem State.Proper.raiseMaximum {engine : State V} (h : engine.Proper) (size : Nat) :
    (engine.raiseMaximum size).Proper := by
  cases engine with
  | direct n =>
      intro s hs
      cases hs
  | windowed t =>
      intro s hs
      cases hs
      exact (h t rfl).raiseMaximum size

variable (view : View m V)

theorem proper_start (kind : Kind) (maximum : Option Positive) :
    After (start view kind maximum) w (fun engine _ => engine.Proper) := by
  cases kind with
  | direct =>
      apply after_pure.mpr
      intro s hs
      cases hs
  | windowed =>
      unfold Engine.start
      simp only [after_bind, after_pure]
      apply after_of_forall
      intro epoch w' s hs
      cases hs
      refine ⟨Window.consistent_empty, fun size hsize => ?_⟩
      rcases Option.map_eq_some_iff.mp hsize with ⟨size, -, rfl⟩
      exact size.pos

theorem shaped_dispatch {direct : ExceptT QueryError m α}
    {windowed : Request m (Windowed.State V) α} {good : α -> Prop} {p : State V × W}
    (hp : p.1.Proper) (hdirect : After direct.run p.2 (fun r _ => WhenOk good r))
    (hwindowed : forall s, s.Proper -> After windowed.run (s, p.2) (fun r p' =>
      p'.1.Proper ∧ WhenOk good r)) :
    After (dispatch direct windowed).run p (fun r p' => p'.1.Proper ∧ WhenOk good r) := by
  rcases p with ⟨state, w⟩
  cases state with
  | direct n =>
      apply after_dispatch_direct.mpr
      apply After.imp hdirect
      intro r w' hr
      refine ⟨fun s hs => ?_, hr⟩
      cases hs
  | windowed s =>
      apply after_dispatch_windowed.mpr
      apply After.imp (hwindowed s (hp s rfl))
      intro r w' hr
      refine ⟨fun t ht => ?_, hr.2⟩
      cases ht
      exact hr.1

theorem shaped_handOn {direct : ExceptT QueryError m α} {good : α -> Prop} {p : State V × W}
    (hp : p.1.Proper) (hdirect : After direct.run p.2 (fun r _ => WhenOk good r)) :
    After (dispatch direct (.handOn direct)).run p (fun r p' => p'.1.Proper ∧ WhenOk good r) := by
  apply shaped_dispatch hp hdirect
  intro s hs
  apply after_request_handOn.mpr
  exact After.imp hdirect fun r w' hr => ⟨hs, hr⟩

namespace Question

/--
A reply in shape: entries up to an instant, in order and no more than asked for, or
entries up to a bound.
-/
def InShape (a : Instant) (bound : Option Instant) : (q : Question) -> q.Reply V -> Prop
  | entry, found | previousEntry _, found => forall e, found = some e -> e.key ≤ a
  | previousEntries count, (run : List (Entry V)) =>
      Ascending run ∧ run.length ≤ count ∧ forall e, e ∈ run -> e.key ≤ a
  | nextEntry _, found => forall e, found = some e -> Within bound e.key
  | nextEntries count, (run : List (Entry V)) =>
      run.length ≤ count ∧ forall e, e ∈ run -> Within bound e.key

theorem inShape_put {p : State V × W} (hp : p.1.Proper) (options : Options) (key : Instant)
    (q : Question) :
    After (q.put view options key).run p (fun r p' => p'.1.Proper ∧
      WhenOk (q.InShape (view.about options key p.2) (view.bound options p.2)) r) := by
  cases q with
  | entry =>
      have hentry := view.shaped_entry options key (w := p.2)
      exact shaped_dispatch hp hentry fun s hs => Windowed.shaped_bypass hs hentry
  | previousEntry distance =>
      exact shaped_dispatch hp (view.shaped_previousEntry options key distance)
        fun s hs => Windowed.shaped_previousEntry view hs options key distance
  | previousEntries count =>
      have hrun := shaped_dispatch hp (view.shaped_previousEntries options key count)
        fun s hs => Windowed.shaped_previousEntries (p := (s, p.2)) view hs options key count
      apply After.imp hrun
      intro r p' hpost
      refine ⟨hpost.1, hpost.2.imp fun run hshaped => ?_⟩
      exact ⟨descending_reverse.mp hshaped.descending, List.length_reverse ▸ hshaped.length,
        fun e he => hshaped.upTo e (List.mem_reverse.mpr he)⟩
  | nextEntry distance =>
      exact shaped_handOn hp (view.shaped_nextEntry options key distance)
  | nextEntries count =>
      exact shaped_handOn hp (view.shaped_nextEntries options key count)

end Question
end Engine
end AsOf
