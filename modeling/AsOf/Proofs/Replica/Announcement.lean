import AsOf.Proofs.Replica.Abiding
import AsOf.Proofs.Replica.Diary

/-!
# What a listener hears

Every answer of a source is noted in a diary, with what it gives to be stored, and so is every
entry that the listener of a replica hears of.  While an operation is under way it owes what it
has queued, beside what is owed by the operations that it is nested in.  Between operations
nothing is owed: of each key that is loaded the listener has heard once since the last reset.
-/

namespace AsOf
namespace Replica

variable {m : Type -> Type} [Monad m] {V W A : Type} [Performs m W]

/-!
## Replicas that are attended
-/

def given {ε : Type} (start : Instant) : Except ε (List (Entry V)) -> List (Entry V)
  | .ok batch => (kept start batch).toList
  | .error _ => []

def noted (source : Source m V) (level : Nat) : Source (StateT (Diary V) m) V where
  batchFrom start := .mk do
    let r <- (source.batchFrom start).run
    modify fun diary => diary.storing level (given start r)
    return r
  latestUpTo key := .mk do
    let r <- (source.latestUpTo key).run
    modify fun diary => diary.storing level (named key r).toList
    return r
  previousKey key := source.previousKey key
  nextKey key := source.nextKey key
  batchLimit := source.batchLimit

/-!
## Listeners
-/

/-- What a replica is made over, with a listener that is there from the start. -/
structure Attendance (m : Type -> Type) (V A : Type) where
  source : Source m V
  horizon : Horizon m
  settings : Settings
  /-- The errand that the listener sets about with an entry. -/
  hear : Entry V -> m { errand : Errand V A // errand.Gentle }
  /-- What an errand does elsewhere. -/
  effect : A -> m A

namespace Attendance

def on (a : Attendance m V A) (level : Nat)
    (go : Errand V A -> StateT (State V) (StateT (Diary V) m) Unit) :
    Replica (StateT (Diary V) m) V where
  source := noted a.source level
  horizon := a.horizon.hoist StateT.lift
  epoch := Diary.clock
  settings := a.settings
  listener e := do
    let errand <- (do
      modify fun diary => diary.hearing level e
      a.hear e : StateT (Diary V) m { errand : Errand V A // errand.Gentle })
    go errand.val

def replica (a : Attendance m V A) : Nat -> Replica (StateT (Diary V) m) V
  | 0 => a.on 0 fun _ => pure ()
  | level + 1 => a.on (level + 1) fun errand =>
      errand.conduct (a.replica level) fun x => StateT.lift (a.effect x)

end Attendance

/-!
## Operations under way
-/

structure Owes (base : Diary V) (owed : List (Note V)) (level : Nat)
    (p : State V × (Diary V × W)) : Prop where
  unmoved : p.2.1.epoch = base.epoch
  current : p.1.epoch = p.2.1.epoch
  notes : exists stored heard,
    p.2.1.stored = base.stored ++ stored ∧ p.2.1.heard = base.heard ++ heard ∧
      Balanced p.1.loaded stored heard (owed ++ leveled level p.1.pending)

section Operations

variable {base diary : Diary V} {owed : List (Note V)} {level : Nat} {s t : State V} {w w' : W}
  {p : State V × (Diary V × W)}

theorem Owes.congr (h : Owes base owed level (s, (diary, w))) (hloaded : t.loaded = s.loaded)
    (hpending : t.pending = s.pending) (hepoch : t.epoch = s.epoch) :
    Owes base owed level (t, (diary, w')) where
  unmoved := h.unmoved
  current := hepoch.trans h.current
  notes := by
    show exists stored heard, diary.stored = _ ∧ diary.heard = _ ∧
      Balanced t.loaded stored heard (owed ++ leveled level t.pending)
    rw [hloaded, hpending]
    exact h.notes

theorem Owes.store (h : Owes base owed level (s, (diary, w))) (e : Entry V) :
    Owes base owed level (s.store e, (diary.storing level [e], w')) := by
  rcases h.notes with ⟨stored, heard, hstored, hheard, hbalanced⟩
  refine ⟨h.unmoved, h.current, stored ++ [(level, e)], heard, ?_, hheard, hbalanced.store e⟩
  show diary.stored ++ [(level, e)] = _
  rw [show diary.stored = _ from hstored, List.append_assoc]

theorem Owes.stores (h : Owes base owed level (s, (diary, w))) (entries : List (Entry V)) :
    Owes base owed level (entries.foldl State.store s, (diary.storing level entries, w')) := by
  induction entries generalizing s diary with
  | nil =>
      have hsame : diary.storing level [] = diary := by simp [Diary.storing, leveled]
      rw [hsame]
      exact h.congr rfl rfl rfl
  | cons e rest ih =>
      have hsame : (diary.storing level [e]).storing level rest =
          diary.storing level (e :: rest) := by simp [Diary.storing, leveled]
      rw [← hsame]
      have hstored : Owes base owed level (s.store e, (diary.storing level [e], w)) := h.store e
      exact ih hstored

theorem Owes.queued (h : Owes base owed level (s, (diary, w))) (k : Nat) :
    AtRest (Owes base (owed ++ leveled level s.pending) k)
      ({ s with pending := [] }, (diary, w)) where
  kept :=
    { unmoved := h.unmoved
      current := h.current
      notes := by simpa [leveled] using h.notes }
  pending := rfl

theorem owes_relevel {k : Nat} (h : AtRest (Owes base owed level) p) :
    AtRest (Owes base owed k) p := by
  rcases p with ⟨s, diary, w⟩
  have hpending : s.pending = [] := h.pending
  have hqueued := h.kept.queued k
  rw [hpending] at hqueued
  have hsame : { s with pending := [] } = s := by rw [← hpending]
  rw [hsame] at hqueued
  simpa [leveled] using hqueued

/-- The first that is owed at a level at which nothing else is owed is heard of. -/
theorem Owes.hear {rest : List (Entry V)} {e : Entry V}
    (h : AtRest (Owes base (owed ++ leveled level (e :: rest)) level) (s, (diary, w)))
    (howed : atLevel level owed = []) :
    AtRest (Owes base (owed ++ leveled level rest) level) (s, (diary.hearing level e, w')) where
  kept := by
    have hpending : s.pending = [] := h.pending
    rcases h.kept.notes with ⟨stored, heard, hstored, hheard, hbalanced⟩
    rw [show leveled level s.pending = [] by rw [hpending]; rfl, List.append_nil] at hbalanced
    refine ⟨h.kept.unmoved, h.kept.current, stored, heard ++ [(level, e)], hstored, ?_, ?_⟩
    · show diary.heard ++ [(level, e)] = _
      rw [show diary.heard = _ from hheard, List.append_assoc]
    · show Balanced s.loaded _ _ (_ ++ leveled level s.pending)
      rw [hpending, show leveled level ([] : List (Entry V)) = [] from rfl, List.append_nil]
      exact hbalanced.hear howed
  pending := h.pending

end Operations

/-!
## Operations keep the balance
-/

section Attending

variable {base : Diary V} {owed : List (Note V)} {level : Nat} {a : Attendance m V A}

theorem State.told_eq {ε : Type} (s : State V) (key : Instant) (r : Except ε (Option (Entry V))) :
    s.told key r = (named key r).toList.foldl State.store s := by
  unfold State.told
  cases named key r <;> rfl

theorem abides_on (a : Attendance m V A) (level : Nat)
    (go : Errand V A -> StateT (State V) (StateT (Diary V) m) Unit) :
    (a.on level go).Abides (Owes base owed level) where
  epoch s p h := by
    rcases p with ⟨diary, w⟩
    apply after_bind.mpr
    apply after_state_get.mpr
    apply after_pure.mpr
    have hcurrent : diary.epoch = s.epoch := h.current.symm
    unfold State.observeEpoch
    rw [if_pos hcurrent]
    exact h
  horizon s p h := by
    rcases p with ⟨diary, w⟩
    apply Horizon.after_hoisted.mpr
    apply after_of_forall
    intro bound w'
    unfold State.observeBound
    split <;> exact h.congr rfl rfl rfl
  latestUpTo s p key h := by
    rcases p with ⟨diary, w⟩
    apply after_bind.mpr
    apply after_state_monadLift.mpr
    apply after_of_forall
    intro r w'
    apply after_bind.mpr
    apply after_state_modify.mpr
    apply after_pure.mpr
    rw [s.told_eq]
    exact h.stores _
  batchFrom s p start h := by
    rcases p with ⟨diary, w⟩
    apply after_bind.mpr
    apply after_state_monadLift.mpr
    apply after_of_forall
    intro r w'
    apply after_bind.mpr
    apply after_state_modify.mpr
    apply after_pure.mpr
    cases r with
    | error cause => exact h.stores []
    | ok batch =>
        have hcounted : Owes base owed level (s.countLoaded batch.length, (diary, w)) :=
          h.congr rfl rfl rfl
        exact hcounted.stores _
  batchLimit s p h := by
    rcases p with ⟨diary, w⟩
    exact after_state_monadLift.mpr (after_of_forall fun _ _ => h.congr rfl rfl rfl)
  nextKey s p key h := by
    rcases p with ⟨diary, w⟩
    exact after_state_monadLift.mpr (after_of_forall fun _ _ => h.congr rfl rfl rfl)
  aside s t p hloaded hpending _ hepoch h := h.congr hloaded hpending hepoch
  remember s p key found _ h := h.congr rfl rfl rfl

theorem announces_on {go : Errand V A -> StateT (State V) (StateT (Diary V) m) Unit}
    (howed : forall note, note ∈ owed -> level < note.1)
    (hgo : forall errand owed p, errand.Gentle -> (forall note, note ∈ owed -> level ≤ note.1) ->
      AtRest (Owes base owed level) p ->
      After (go errand) p (fun _ p' => AtRest (Owes base owed level) p')) :
    (a.on level go).Announces (Owes base owed level) := by
  have hnone : atLevel level owed = [] := by
    apply List.filter_eq_nil_iff.mpr
    intro note hnote
    simpa using Nat.ne_of_gt (howed note hnote)
  have hall : forall (pending : List (Entry V)) p,
      AtRest (Owes base (owed ++ leveled level pending) level) p ->
      After (pending.forM (a.on level go).listener) p
        (fun _ p' => AtRest (Owes base owed level) p') := by
    intro pending
    induction pending with
    | nil =>
        intro p hp
        exact after_pure.mpr (by simpa [leveled] using hp)
    | cons e rest ih =>
        intro p hp
        rcases p with ⟨s, diary, w⟩
        apply after_bind.mpr
        apply after_bind.mpr
        apply after_state_monadLift.mpr
        apply after_bind.mpr
        apply after_state_modify.mpr
        apply after_state_monadLift.mpr
        apply after_of_forall
        intro errand w'
        have hlevels : forall note, note ∈ owed ++ leveled level rest -> level ≤ note.1 := by
          intro note hnote
          rcases List.mem_append.mp hnote with hin | hin
          · exact Nat.le_of_lt (howed note hin)
          · rcases List.mem_map.mp hin with ⟨e, -, rfl⟩
            exact Nat.le_refl level
        exact After.imp (hgo errand.val _ _ errand.property hlevels (Owes.hear hp hnone))
          fun _ p' hp' => ih p' hp'
  intro p hp
  rcases p with ⟨s, diary, w⟩
  unfold announce
  apply after_bind.mpr
  apply after_state_modifyGet.mpr
  exact hall s.pending _ (hp.queued level)

/-- Listeners that go on errands keep the balance, at every depth. -/
theorem keeps_balance (a : Attendance m V A) (base : Diary V) (level : Nat) (owed : List (Note V))
    (howed : forall note, note ∈ owed -> level < note.1) :
    (a.replica level).Abides (Owes base owed level) ∧
      (a.replica level).Announces (Owes base owed level) := by
  induction level generalizing owed with
  | zero => exact ⟨abides_on a 0 _, announces_on howed fun _ _ p _ _ hp => after_pure.mpr hp⟩
  | succ level ih =>
      refine ⟨abides_on a (level + 1) _, announces_on howed ?_⟩
      intro errand owed p hgentle hlevels hp
      rcases ih owed hlevels with ⟨habides, hannounces⟩
      have heffect : forall x s q, Owes base owed level (s, q) ->
          After (StateT.lift (a.effect x) : StateT (Diary V) m A) q
            (fun _ q' => Owes base owed level (s, q')) := by
        intro x s q hq
        rcases q with ⟨diary, w⟩
        exact after_state_lift.mpr (after_of_forall fun _ _ => hq.congr rfl rfl rfl)
      apply After.imp (habides.conduct hannounces heffect errand (Or.inl hgentle)
        (owes_relevel hp))
      exact fun _ _ hp' => owes_relevel hp'

end Attending

/-!
## Between operations

An operation begins with a look at the epoch.  If the epoch has moved, all is forgotten, and
what was noted before the operation is from before the reset.
-/

def Command.noted (diary : Diary V) : Command (Nat × W) -> Command (Diary V × W)
  | .lookup key => .lookup key
  | .begin key => .begin key
  | .pull index => .pull index
  | .clear => .clear
  | .move (epoch, w) => .move ({ diary with epoch := epoch }, w)

namespace Attendance

variable {a : Attendance m V A} {depth : Nat}

def opened (a : Attendance m V A) (depth epoch : Nat) (w : W) : Desk (Diary V × W) V :=
  let r := perform (a.replica depth).start (({ epoch } : Diary V), w)
  { world := r.2, memory := r.1 }

/-- Carry out a command, and keep of the diary what was noted since the last reset. -/
def step (a : Attendance m V A) (depth : Nat) (x : Desk (Diary V × W) V)
    (c : Command (Nat × W)) : Desk (Diary V × W) V :=
  let y := x.step (a.replica depth) (c.noted x.world.1)
  match c with
  | .clear =>
      { y with world := (y.world.1.blank, y.world.2) }
  | .lookup _ | .begin _ | .pull _ | .move _ =>
      { y with
        world := (if y.memory.epoch = x.memory.epoch then y.world.1
          else y.world.1.since x.world.1, y.world.2) }

/--
Since the last reset each loaded key was heard of, and no other; each of them once; and, at each
level of nesting, in the order in which they were stored, with what was stored first.
-/
structure Exact (x : Desk (Diary V × W) V) : Prop where
  keys : forall key, x.memory.loaded.contains key = true ↔
    exists note, note ∈ x.world.1.heard ∧ note.2.key = key
  once : x.world.1.heard.Pairwise fun note later => note.2.key ≠ later.2.key
  order : forall level,
    atLevel level x.world.1.heard = atLevel level (firsts x.world.1.stored)

structure Rests (s : State V) (diary : Diary V) : Prop where
  pending : s.pending = []
  balanced : Balanced s.loaded diary.stored diary.heard []

section Steps

variable {s : State V} {diary : Diary V} {w : W} {p : State V × (Diary V × W)}
  {x : Desk (Diary V × W) V}

theorem Rests.exact (h : Rests x.memory x.world.1) : Exact x where
  keys := h.balanced.mentions
  once := h.balanced.distinct
  order level := by simpa using h.balanced.told level

def base (s : State V) (diary : Diary V) : Diary V :=
  if s.epoch = diary.epoch then diary.blank else diary

theorem Rests.owes (h : Rests s diary) (level : Nat) :
    AtRest (Owes (base s diary) [] level) (s.observeEpoch diary.epoch, (diary, w)) := by
  have hnone : leveled level s.pending = [] := by
    rw [h.pending]
    rfl
  unfold base
  by_cases hepoch : s.epoch = diary.epoch
  · have hsame : s.observeEpoch diary.epoch = s := if_pos hepoch.symm
    rw [hsame, if_pos hepoch]
    refine ⟨⟨rfl, hepoch, diary.stored, diary.heard, rfl, rfl, ?_⟩, h.pending⟩
    rw [hnone]
    exact h.balanced
  · have hforgotten : s.observeEpoch diary.epoch = _ := if_neg (Ne.symm hepoch)
    rw [hforgotten, if_neg hepoch]
    refine ⟨⟨rfl, rfl, [], [], (List.append_nil _).symm, (List.append_nil _).symm, ?_⟩, h.pending⟩
    show Balanced .empty [] [] ([] ++ leveled level s.pending)
    rw [hnone]
    exact balanced_empty

theorem keeps_base (a : Attendance m V A) (depth : Nat) (base : Diary V) :
    (a.replica depth).Abides (Owes base [] depth) ∧
      (a.replica depth).Announces (Owes base [] depth) :=
  keeps_balance a base depth [] fun _ hnote => absurd hnote List.not_mem_nil

theorem Rests.after_sync (h : Rests s diary) :
    After (a.replica depth).sync (s, (diary, w))
      (fun _ p' => AtRest (Owes (base s diary) [] depth) p') := by
  have hclock : (a.replica depth).epoch = Diary.clock := by cases depth <;> rfl
  unfold Replica.sync
  rw [hclock]
  simp only [after_bind, after_state_monadLift, after_state_modify]
  apply after_bind.mpr
  apply after_state_get.mpr
  apply after_pure.mpr
  apply After.imp ((keeps_base a depth _).1.horizon _ _ (h.owes depth).kept)
  exact fun bound p' hp' => ⟨hp', (s.pending_observed _ bound).trans h.pending⟩

theorem rests_since {level : Nat} (hp : AtRest (Owes (base s diary) [] level) p) :
    Rests p.1 (if p.1.epoch = s.epoch then p.2.1 else p.2.1.since diary) := by
  rcases hp with ⟨⟨hunmoved, hcurrent, stored, heard, hstored, hheard, hbalanced⟩, hpending⟩
  rw [hpending, show leveled level ([] : List (Entry V)) = [] from rfl, List.append_nil]
    at hbalanced
  refine ⟨hpending, ?_⟩
  unfold base at hunmoved hstored hheard
  by_cases hepoch : s.epoch = diary.epoch
  · rw [if_pos hepoch] at hunmoved hstored hheard
    rw [if_pos (hcurrent.trans (hunmoved.trans hepoch.symm)), hstored, hheard]
    exact hbalanced
  · rw [if_neg hepoch] at hunmoved hstored hheard
    rw [if_neg fun heq => hepoch (heq.symm.trans (hcurrent.trans hunmoved))]
    simpa [Diary.since, hstored, hheard] using hbalanced

theorem rests_step (hx : Rests x.memory x.world.1) (c : Command (Nat × W)) :
    Rests (a.step depth x c).memory (a.step depth x c).world.1 := by
  rcases x with ⟨⟨diary, w⟩, s, readings⟩
  rcases keeps_base a depth (base s diary) with ⟨habides, hannounces⟩
  have hsync : After (a.replica depth).sync (s, (diary, w)) _ := hx.after_sync
  have hsame : Rests s (if s.epoch = s.epoch then diary else diary.since diary) := by
    rw [if_pos rfl]
    exact hx
  cases c with
  | lookup key => exact rests_since (habides.lookup hannounces hsync key).1
  | begin key => exact hsame
  | pull index =>
      unfold step Command.noted Desk.step
      cases hget : readings[index]? with
      | none => simpa only [hget] using hsame
      | some reading =>
          simp only [hget]
          have hpull := habides.pull hannounces .earliest reading.scan hsync
            reading.scan.from_earliest
          rcases hpull.1 with hstill | hrest
          · simpa only [Desk.here, hstill] using hsame
          · exact rests_since hrest
  | clear => exact ⟨hx.pending, balanced_empty⟩
  | move there =>
      rcases there with ⟨epoch, w'⟩
      show Rests s (if s.epoch = s.epoch then { diary with epoch := epoch } else _)
      rw [if_pos rfl]
      exact ⟨hx.pending, hx.balanced⟩

theorem rests_opened {epoch : Nat} :
    Rests (a.opened depth epoch w).memory (a.opened depth epoch w).world.1 := by
  have hclock : (a.replica depth).epoch = Diary.clock := by cases depth <;> rfl
  have hhorizon : (a.replica depth).horizon = a.horizon.hoist StateT.lift := by
    cases depth <;> rfl
  have hstart : After (a.replica depth).start (({ epoch } : Diary V), w)
      (fun s p => Rests s p.1) := by
    unfold Replica.start
    rw [hclock, hhorizon]
    apply after_bind.mpr
    apply after_bind.mpr
    apply after_state_get.mpr
    apply after_pure.mpr
    apply after_bind.mpr
    apply Horizon.after_hoisted.mpr
    apply after_of_forall
    exact fun bound w' => after_pure.mpr ⟨rfl, balanced_empty⟩
  exact hstart

end Steps

/--
A listener that was there from the start hears exactly once of each key that is loaded after
it was reset, whatever the source answers, whether or not the operations fail, and whatever it
looks up and pulls while it is told.
-/
theorem heard_once (a : Attendance m V A) (depth epoch : Nat) (w : W)
    (commands : List (Command (Nat × W))) :
    Throughout (a.step depth) Exact (a.opened depth epoch w) commands := by
  have hopened : Rests (a.opened depth epoch w).memory (a.opened depth epoch w).world.1 :=
    rests_opened
  exact throughout_of_kept (fun x c hx _ => rests_step hx c) (fun x hx => hx.exact) hopened
    each_true

end Attendance
end Replica
end AsOf
