import AsOf.Proofs.Engine.View

/-!
# Lookups that are counted

A tally goes up by one with every lookup of an archive, and by nothing else.  A walk makes one
lookup for each entry that it hands out, and one more to find that there is none, unless it has
handed out as many as were asked for.  Nothing is assumed of the answers.
-/

namespace AsOf

variable {m : Type -> Type} [Monad m] {V W : Type} [Performs m W] {w w' w'' : W}

structure Archive.Tallies (archive : Archive m V) (tally : W -> Nat) : Prop where
  lookup : forall key w, After (archive.lookup key).run w (fun _ w' => tally w' = tally w + 1)
  previousKey : forall key w, After (archive.previousKey key) w (fun _ w' => tally w' = tally w)

def Archive.Spends (archive : Archive m V) (w w' : W) (n : Nat) : Prop :=
  forall tally, archive.Tallies tally -> tally w' = tally w + n

namespace Archive

variable {archive : Archive m V}

theorem Spends.refl (archive : Archive m V) (w : W) : archive.Spends w w 0 :=
  fun _ _ => rfl

theorem Spends.trans {n k : Nat} (h : archive.Spends w w' n) (h' : archive.Spends w' w'' k) :
    archive.Spends w w'' (n + k) := by
  intro tally htally
  rw [h' tally htally, h tally htally, Nat.add_assoc]

variable (archive)

theorem spends_lookup (key : Instant) :
    After (archive.lookup key).run w (fun _ w' => archive.Spends w w' 1) :=
  fun _ htally => htally.lookup key w

theorem spends_previousKey (key : Instant) :
    After (archive.previousKey key) w (fun _ w' => archive.Spends w w' 0) :=
  fun _ htally => htally.previousKey key w

theorem spends_walk {walk : Walk} (hnext : walk.next ≠ none) :
    After (Walk.pull archive walk) w (fun r w' => archive.Spends w w' 1 ∧
      forall e, r.1 = some (.ok e) -> r.2.next ≠ none) := by
  unfold Walk.pull
  cases hkey : walk.next with
  | none => exact absurd hkey hnext
  | some key =>
      apply after_bind.mpr
      apply After.imp (archive.spends_lookup key)
      intro r w₁ hspent
      match r with
      | .error e => exact after_pure.mpr ⟨hspent, fun x hx => by cases hx⟩
      | .ok none => exact after_pure.mpr ⟨hspent, fun x hx => by cases hx⟩
      | .ok (some e) =>
          dsimp only
          split
          · exact after_pure.mpr ⟨hspent, fun x hx => by cases hx⟩
          · split
            · apply after_bind.mpr
              apply After.imp (archive.spends_previousKey e.key)
              intro k w₂ hnone
              exact after_pure.mpr ⟨hspent.trans hnone, fun x hx => by simp⟩
            · exact after_pure.mpr ⟨hspent, fun x hx => by cases hx⟩

/-- An entry that was not wanted takes a lookup as one does that was not there. -/
theorem spends_gather (wanted : Entry V -> Bool) (n : Nat) {walk : Walk}
    (hnext : walk.next ≠ none) :
    After (Pull.gather (Walk.pull archive) wanted n walk).run w (fun r w' =>
      WhenOk (fun out => archive.Spends w w' (min n (out.1.length + 1))) r) := by
  induction n generalizing w walk with
  | zero =>
      refine after_except_pure.mpr ?_
      show archive.Spends w w (min 0 _)
      rw [Nat.zero_min]
      exact Spends.refl archive w
  | succ n ih =>
      have hone : min (n + 1) (0 + 1) = 1 := by omega
      unfold Pull.gather
      apply after_except_bind.mpr
      apply after_except_lift.mpr
      apply After.imp (archive.spends_walk hnext)
      intro out w₁ hpost
      rcases out with ⟨r, next⟩
      rcases hpost with ⟨hspent, hlater⟩
      rcases r with _ | e | item
      · refine after_except_pure.mpr ?_
        show archive.Spends w w₁ (min (n + 1) (0 + 1))
        rwa [hone]
      · exact after_except_throw.mpr trivial
      · dsimp only
        split
        · apply after_except_bind.mpr
          apply After.imp (ih (hlater item rfl))
          intro r w₂ hr
          cases r with
          | error e => trivial
          | ok out =>
              refine after_except_pure.mpr ?_
              show archive.Spends w w₂ (min (n + 1) (out.1.length + 1 + 1))
              rw [Nat.add_min_add_right, Nat.add_comm]
              exact hspent.trans hr
        · refine after_except_pure.mpr ?_
          show archive.Spends w w₁ (min (n + 1) (0 + 1))
          rwa [hone]

theorem spends_take (n : Nat) {walk : Walk} (hnext : walk.next ≠ none) :
    After (Pull.take (Walk.pull archive) n walk).run w (fun r w' =>
      WhenOk (fun run => archive.Spends w w' (min n (run.length + 1))) r) := by
  apply after_except_map.mpr
  apply After.imp (archive.spends_gather _ n hnext)
  exact fun r w' hr => hr.map fun out hout => hout

end Archive

namespace View

variable (view : View m V)

theorem spends_trailing (a : Instant) (count : Nat) :
    After (view.trailing a count).run w (fun r w' =>
      WhenOk (fun run => view.archive.Spends w w' (min count (run.length + 1))) r) :=
  view.archive.spends_take count (by simp [Walk.startAt])

theorem spends_furtherBack (a : Instant) (count : Nat) (run : List (Entry V)) :
    After (view.furtherBack a count run).run w (fun r w' =>
      WhenOk (fun older =>
        view.archive.Spends w w' (min (count - run.length) (older.length + 1))) r) := by
  unfold furtherBack
  split
  · exact after_except_throw.mpr trivial
  · rename_i oldest hlast
    apply after_except_bind.mpr
    apply after_except_lift.mpr
    unfold Walk.before
    simp only [after_bind, after_pure]
    apply After.imp (view.archive.spends_previousKey oldest.key)
    intro k w₁ hnone
    apply After.imp (view.archive.spends_take (count - run.length) (by simp))
    intro r w₂ hr
    apply hr.imp
    intro older hspent
    rw [← Nat.zero_add (min _ _)]
    exact hnone.trans hspent

structure Tallies (tally : W -> Nat) : Prop where
  archive : view.archive.Tallies tally
  horizon : forall w, After view.horizon.highest w (fun _ w' => tally w' = tally w)
  epoch : forall w, After view.epoch.current w (fun _ w' => tally w' = tally w)

variable {view}

theorem Tallies.adjust {tally : W -> Nat} (h : view.Tallies tally) (options : Options)
    (key : Instant) : After (view.adjust options key) w (fun _ w' => tally w' = tally w) := by
  unfold View.adjust
  split
  · exact after_pure.mpr rfl
  · unfold Horizon.clamp
    apply after_bind.mpr
    apply After.imp (h.horizon w)
    exact fun _ w' hw' => after_pure.mpr hw'

end View

/-!
## A view with a meter
-/

def Archive.metered (archive : Archive m V) : Archive (StateT Nat m) V :=
  { archive.hoist StateT.lift with
    lookup := fun key => ExceptT.mk do
      modify (· + 1)
      StateT.lift (archive.lookup key).run }

def View.metered (view : View m V) : View (StateT Nat m) V :=
  { archive := view.archive.metered
    horizon := view.horizon.hoist StateT.lift
    epoch := view.epoch.hoist StateT.lift }

def Outlook.metered (o : Outlook W V) : Outlook (Nat × W) V :=
  o.part Prod.snd fun p => o.ready p.2

namespace View

variable {view : View m V} {o : Outlook W V} {α : Type}

theorem after_metered_highest {p : Nat × W} {post : Option Instant -> Nat × W -> Prop}
    (h : After view.horizon.highest p.2 (fun bound w' => post bound (p.1, w'))) :
    After view.metered.horizon.highest p post := by
  rcases p with ⟨n, w⟩
  unfold metered
  cases hhorizon : view.horizon with
  | unbounded =>
      rw [hhorizon] at h
      exact after_pure.mpr ((after_pure (m := m)).mp h)
  | pulled read =>
      rw [hhorizon] at h
      exact after_state_lift.mpr h
  | pushed read write =>
      rw [hhorizon] at h
      exact after_state_lift.mpr h

theorem tallies_metered (view : View m V) : view.metered.Tallies (Prod.fst : Nat × W -> Nat) where
  archive :=
    { lookup := fun key p => by
        apply after_bind.mpr
        apply after_state_modify.mpr
        apply after_state_lift.mpr
        exact after_of_forall fun _ _ => rfl
      previousKey := fun key p => by
        apply after_state_lift.mpr
        exact after_of_forall fun _ _ => rfl }
  horizon p := after_metered_highest (after_of_forall fun _ _ => rfl)
  epoch p := by
    apply after_state_lift.mpr
    exact after_of_forall fun _ _ => rfl

theorem Reads.metered {live : W -> view.archive.Scan -> Prop} (h : view.Reads o live) :
    view.metered.Reads o.metered (fun p scan => live p.2 scan) where
  archive :=
    { lookup := fun p key hready => by
        apply after_bind.mpr
        apply after_state_modify.mpr
        apply after_state_lift.mpr
        apply After.imp (h.archive.lookup p.2 key hready)
        exact fun r w' hpost => ⟨hpost.1.part hpost.1.ready, hpost.2⟩
      previousKey := fun p e hready he => by
        apply after_state_lift.mpr
        apply After.imp (h.archive.previousKey p.2 e hready he)
        exact fun k w' hpost => ⟨hpost.1.part hpost.1.ready, hpost.2⟩
      scanFrom := fun p key hready => by
        apply after_state_lift.mpr
        apply After.imp (h.archive.scanFrom p.2 key hready)
        exact fun scan w' hpost => ⟨hpost.1.part hpost.1.ready, hpost.2⟩
      pull := fun p scan hready hlive => by
        apply after_state_lift.mpr
        apply After.imp (h.archive.pull p.2 scan hready hlive)
        exact fun r w' hpost => ⟨hpost.1.part hpost.1.ready, hpost.2⟩ }
  horizon p hready := after_metered_highest
    (After.imp (h.horizon p.2 hready) fun _ _ hpost => ⟨hpost.1, hpost.2.part hpost.2.ready⟩)
  epoch p hready := by
    apply after_state_lift.mpr
    exact After.imp (h.epoch p.2 hready) fun _ _ hpost => ⟨hpost.1, hpost.2.part hpost.2.ready⟩

end View
end AsOf
