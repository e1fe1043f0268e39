import AsOf.Proofs.Engine.Course

/-!
# What was answered is retained

Whatever an archive answers, a run of at least two entries is a stretch of the window that it
leaves: nothing that was just answered is trimmed, at either end.  The maximum is raised only by
a run that is longer, and then to twice its length.
-/

namespace AsOf

variable {m : Type -> Type} [Monad m] {V W : Type} [Performs m W] {w : W}

theorem Window.suffix_trimNewest {window : Window V} {run : List (Entry V)} {size : Nat}
    (h : run <:+ window.entries) (hlen : run.length ≤ size) :
    run <:+ (window.trimNewest size).entries := by
  rw [entries_trimNewest]
  apply List.suffix_of_suffix_length_le h (List.drop_suffix _ _)
  have hle : run.length ≤ window.entries.length := h.length_le
  show run.length ≤ (window.entries.drop (window.entries.length - size)).length
  rw [List.length_drop]
  omega

namespace Windowed

variable {s t u : State V} {a : Instant} {count spent required : Nat} {place : Place}
  {out : Outcome V}

/-!
## Windows that make room
-/

namespace State

theorem maximum_reshape {run : List (Entry V)} (hfits : u.Fits) :
    (u.reshape a run).maximum = grown u.maximum run.length := by
  unfold reshape
  split
  · rename_i hkept
    refine (grown_of_room fun size hsize => ?_).symm
    have hroom : u.window.size ≤ size := hfits size hsize
    simp only [Bool.or_eq_true, List.isEmpty_iff, Bool.and_eq_true, beq_iff_eq,
      decide_eq_true_eq] at hkept
    rcases hkept with rfl | ⟨hone, hmany⟩
    · exact Nat.zero_le size
    · omega
  · exact u.maximum_growToFit run.length

theorem window_reshape {run : List (Entry V)} (htwo : 2 ≤ run.length) :
    (u.reshape a run).window = ⟨run, some a⟩ := by
  unfold reshape
  rw [if_neg]
  · rfl
  · simp only [Bool.or_eq_true, List.isEmpty_iff, Bool.and_eq_true, beq_iff_eq, not_or, not_and]
    exact ⟨fun hnil => by simp [hnil] at htwo, fun hone => by omega⟩

theorem entries_append (u : State V) (a : Instant) (newer : List (Entry V)) (required : Nat) :
    (u.append a newer required).window.entries =
      (grown u.maximum required).elim (newer ++ u.window.entries)
        (newer ++ u.window.entries).take := by
  unfold append
  simp only [maximum_growToFit, (u.window_growToFit required).1]
  cases grown u.maximum required <;> rfl

theorem window_prepend (u : State V) (older : List (Entry V)) (required : Nat) :
    (u.prepend older required).window =
      (grown u.maximum required).elim (u.window.extendOlder older)
        (u.window.extendOlder older).trimNewest := by
  unfold prepend
  simp only [maximum_growToFit, (u.window_growToFit required).1]

theorem Proper.suffix_reading (hs : s.Proper) (a : Instant) :
    s.reading a .inside <:+ s.window.entries := by
  show s.window.entries.filter (fun e => e.key ≤ a) <:+ s.window.entries
  rw [← hs.window.1.dropWhile_eq_filter a]
  exact List.dropWhile_suffix _

end State

/-!
## Runs
-/

theorem Turned.maximum_eq (h : Turned s a count place spent out) (hs : s.Proper)
    (hfits : s.Fits) : out.2.maximum = grown s.maximum out.1.length := by
  cases h with
  | @held _ t _ within state =>
      rw [State.maximum_eq state]
      refine (grown_of_room fun size hsize => ?_).symm
      have hroom : s.window.entries.length ≤ size := hfits size hsize
      have hpart : (s.reading a place).length ≤ s.window.entries.length := by
        rcases within with rfl | rfl
        · exact Nat.le_refl _
        · exact (hs.suffix_reading a).length_le
      exact Nat.le_trans (List.length_take_le' _ _) (Nat.le_trans hpart hroom)
  | @reshaped _ u run _ state =>
      have hu : u.Fits := by
        intro size hsize
        rw [State.window_eq state]
        exact hfits size (State.maximum_eq state ▸ hsize)
      rw [State.maximum_reshape hu, State.maximum_eq state]
  | @appended newest u newer state short enough =>
      have hlength : (newer ++ s.window.entries.take (count - newer.length)).length = count := by
        rw [List.length_append, List.length_take]
        unfold Window.size at enough
        omega
      show (u.growToFit count).maximum = grown s.maximum (newer ++ _).length
      rw [u.maximum_growToFit, State.maximum_eq state, hlength]
  | @prepended u older _ state =>
      show (u.growToFit _).maximum = _
      rw [u.maximum_growToFit, State.maximum_eq state]

/-- A run of at least two entries is a stretch of the window that it leaves. -/
theorem Turned.infix_window (h : Turned s a count place spent out) (hs : s.Proper)
    (hcount : count ≤ Count.limit) (htwo : 2 ≤ out.1.length) :
    out.1 <:+: out.2.window.entries := by
  have hlimit := Nat.le_trans h.length_le hcount
  cases h with
  | @held _ t _ within state =>
      show (s.reading a place).take count <:+: t.window.entries
      rw [State.window_eq state]
      rcases within with rfl | rfl
      · exact (List.take_prefix _ _).isInfix
      · exact (List.take_prefix _ _).isInfix.trans (hs.suffix_reading a).isInfix
  | @reshaped _ u run _ state =>
      have hwindow : (u.reshape a run).window.entries = run :=
        congrArg Window.entries (State.window_reshape htwo)
      exact hwindow.symm ▸ List.infix_refl run
  | @appended newest u newer state short enough =>
      have hrun : newer ++ s.window.entries.take (count - newer.length) =
          (newer ++ s.window.entries).take count := by
        rw [List.take_append, List.take_of_length_le (Nat.le_of_lt short)]
      show newer ++ _ <:+: (u.append a newer count).window.entries
      rw [hrun, u.entries_append, State.window_eq state]
      cases hgrown : grown u.maximum count with
      | none => exact (List.take_prefix _ _).isInfix
      | some size =>
          exact (List.take_prefix_take_left (room_of_grown hcount hgrown)).isInfix
  | @prepended u older _ state =>
      have hsuffix : s.reading a .inside ++ older <:+ (s.window.extendOlder older).entries := by
        rcases hs.suffix_reading a with ⟨later, hlater⟩
        refine ⟨later, ?_⟩
        show _ = s.window.entries ++ older
        rw [← hlater, List.append_assoc]
      show s.reading a .inside ++ older <:+: (u.prepend older _).window.entries
      rw [u.window_prepend, State.window_eq state]
      cases hgrown : grown u.maximum (s.reading a .inside ++ older).length with
      | none => exact hsuffix.isInfix
      | some size =>
          exact (Window.suffix_trimNewest hsuffix (room_of_grown hlimit hgrown)).isInfix

/-- What a run leaves: it is a stretch of the window, and the maximum is raised if it was short. -/
structure Retains (s t : State V) (run : List (Entry V)) : Prop where
  maximum : t.maximum = grown s.maximum run.length
  window : 2 ≤ run.length -> run <:+: t.window.entries

theorem retains_outcome (view : View m V) (hs : s.Proper) (hfits : s.Fits)
    (hcount : count ≤ Count.limit) (options : Options) (key : Instant) (w : W) :
    WhenOk (fun out => Retains s out.2 out.1) (outcome view options key count s w).1 := by
  have hobserved : s.Observed (s.onset view options key w) := s.observed_entered _ _
  have hproper := hs.observed hobserved
  have hroom := (State.stretches_observed hobserved).fits hfits
  have hmaximum : (s.onset view options key w).maximum = s.maximum := s.maximum_entered _ _
  have hturned := turned_runAt view hproper (view.about options key w) count
    (w := (seen view options key w).2)
  apply WhenOk.imp hturned
  intro out hout
  rcases hout with ⟨spent, hout, -⟩
  exact ⟨hmaximum ▸ hout.maximum_eq hproper hroom, hout.infix_window hproper hcount⟩

end Windowed

/-!
## Engines with a window in use
-/

namespace Engine
namespace Command

open Windowed

variable (view : View m V)

/-- A question that is answered from a run leaves the run in the window. -/
def Retaining (p : State V × W) : Command W -> Prop
  | ask options key q => forall count, q.reach = some count ->
      After (q.put view options key).run p (fun r p' => WhenOk (fun reply =>
        exists s t run, p.1 = .windowed s ∧ p'.1 = .windowed t ∧
          (perform (Windowed.run view options key count).run (s, p.2)).1 = .ok run ∧
          reply = q.read run ∧ Retains s t run) r)
  | _ => True

variable {view} {p : State V × W} {first : Option Nat}

theorem retaining_carryOut (hp : Kept first p) {c : Command W} (hcounted : c.Counted) :
    Retaining view p c := by
  rcases p with ⟨engine, w⟩
  rcases hp with ⟨s, heq, hproper, hfits, -⟩
  cases heq
  cases c with
  | ask options key q =>
      intro count hreach
      have hretains := retains_outcome view hproper hfits (q.reach_le_limit hreach hcounted)
        options key w
      have hrun := perform_run_outcome view options key count s w
      unfold After
      rw [q.perform_put_outcome view hreach]
      dsimp only at hrun ⊢
      generalize outcome view options key count s w = result at hrun hretains ⊢
      rcases result with ⟨r, w'⟩
      cases r with
      | error e => trivial
      | ok out => exact ⟨s, out.2, out.1, rfl, rfl, congrArg Prod.fst hrun, rfl, hretains⟩
  | clear => trivial
  | raiseMaximum size => trivial
  | move w' => trivial

/--
Over every archive, whatever it answers, and whatever an engine is asked and told: a run of at
least two entries that was just answered is a stretch of the window, and the maximum is as it
was, unless the run is longer, and then twice its length up to the limit of counts.
-/
theorem answers_retained (view : View m V) (maximum : Option Positive) (w : W)
    {commands : List (Command W)} (hcounted : forall c, c ∈ commands -> c.Counted) :
    Each (carryOut view) (Retaining view) (perform (start view .windowed maximum) w) commands :=
  each_of_kept
    (fun _ _ hp hc => ⟨retaining_carryOut hp hc, (careful_carryOut hp hc).2⟩)
    (kept_start view maximum w) (each_of_mem hcounted)

theorem answers_retained_on_script :
    Each (carryOut scripted) (Retaining scripted)
      (perform (start scripted .windowed (some ⟨1, by decide⟩)) []) unruly :=
  answers_retained scripted (some ⟨1, by decide⟩) [] (by decide)

end Command
end Engine
end AsOf
