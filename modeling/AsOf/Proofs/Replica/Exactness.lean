import AsOf.Proofs.Replica.Register

/-!
# Exact counters

Whatever a source answers, and whatever a listener goes about while it is told of an entry, the
counters of a replica agree with its register between two requests.  A lookup that is answered
from the memo or from the coverage stores nothing, so that nothing is announced of it, and the
source is not called; every other lookup begins with a probe.
-/

namespace AsOf
namespace Replica

variable {m : Type -> Type} [Monad m] {V W A : Type} [Performs m W] {w : W} {r : Register}
  {s : State V} {least k j : Nat}

/-!
## Looks at the epoch and the horizon
-/

theorem State.counters_observed (s : State V) (epoch : Nat) (bound : Option Instant) :
    ((s.observeEpoch epoch).observeBound bound).counters =
      { s.counters with
        refreshInvalidations :=
          s.counters.refreshInvalidations + if epoch = s.epoch then 0 else 1
        boundInvalidations :=
          s.counters.boundInvalidations + if bound = s.bound then 0 else 1 } := by
  unfold State.observeEpoch
  by_cases hepoch : epoch = s.epoch <;> by_cases hbound : bound = s.bound <;>
    simp [State.observeBound, State.forget, State.retreat, hepoch, hbound]

theorem InStep.observed (h : InStep least k j s r) (epoch : Nat) (bound : Option Instant) :
    InStep least k (j + 1) ((s.observeEpoch epoch).observeBound bound)
      ((r.findingEpoch epoch).findingBound bound) where
  tallied := by
    rw [s.counters_observed]
    exact
      { h.tallied with
        refreshInvalidations :=
          (congrArg (· + _) h.tallied.refreshInvalidations).trans
            (changes_append h.epoch epoch).symm
        boundInvalidations :=
          (congrArg (· + _) h.tallied.boundInvalidations).trans
            (changes_append h.bound bound).symm
        epochs := List.length_append.trans (congrArg (· + 1) h.tallied.epochs)
        bounds := List.length_append.trans (congrArg (· + 1) h.tallied.bounds) }
  epoch := by
    rw [((s.observeEpoch epoch).bound_observeBound bound).2, s.epoch_observeEpoch]
    exact List.getLast?_concat
  bound := by
    rw [((s.observeEpoch epoch).bound_observeBound bound).1]
    exact List.getLast?_concat
  least_le := h.least_le

section Requests

variable (replica : Replica m V)
  (listener : Entry V -> StateT (State V) (StateT Register m) Unit) (scanning : Bool)
  {p : State V × (Register × W)}

theorem rests_sync (hp : AtRest (Agree least k j) p) :
    After (replica.registered listener scanning).sync p (fun _ p' =>
      AtRest (Agree least k (j + 1)) p' ∧ p'.2.1.calls = p.2.1.calls) := by
  rcases p with ⟨s, r, w⟩
  unfold sync
  simp only [after_bind, after_state_monadLift, after_state_modify]
  apply Register.after_entering.mpr
  apply after_of_forall
  intro epoch w₁
  apply Register.after_entering.mpr
  apply after_of_forall
  intro bound w₂
  have hpending := (s.pending_observed epoch bound).trans hp.pending
  exact ⟨⟨InStep.observed hp.kept epoch bound, hpending⟩, rfl⟩

/-!
## Lookups
-/

inductive Answered (before lookups : Nat) (p : State V × (Register × W)) : Prop where
  | quietly (h : InStep before (lookups + 1) 0 p.1 p.2.1.quieter) (hpending : p.1.pending = [])
      (hcalls : p.2.1.calls.length = before)
  | calling (h : Agree (before + 1) (lookups + 1) 0 p)

theorem InStep.hit (h : InStep least k 1 s r) : InStep least (k + 1) 0 s.countHit r.quieter :=
  { h with tallied := h.tallied.hit }

theorem InStep.memoHit (h : InStep least k 1 s r) :
    InStep least (k + 1) 0 s.countMemoHit r.quieter :=
  { h with tallied := h.tallied.memoHit }

theorem InStep.miss (h : InStep least k 1 s r) : InStep least (k + 1) 0 s.countMiss r :=
  { h with tallied := h.tallied.miss }

theorem after_announce_of_none (replica : Replica m V) {p : State V × W}
    {post : Unit -> State V × W -> Prop} (hpending : p.1.pending = []) (hpost : post () p) :
    After replica.announce p post := by
  rcases p with ⟨s, w⟩
  have hnone : s.pending = [] := hpending
  have hsame : ({ s with pending := [] } : State V) = s := by rw [← hnone]
  unfold announce
  apply after_bind.mpr
  apply after_state_modifyGet.mpr
  rw [hnone, hsame]
  exact after_pure.mpr hpost

omit [Monad m] [Performs m W] in
theorem Answered.remember {before : Nat} (h : Answered before k p) (capacity : Positive)
    (key : Instant) (found : Option (Entry V)) :
    Answered before k (p.1.remember capacity key found, p.2) := by
  cases h with
  | quietly h hpending hcalls => exact .quietly (h.congr rfl rfl rfl) hpending hcalls
  | calling h => exact .calling (h.congr rfl rfl rfl)

omit [Monad m] [Performs m W] in
theorem Answered.answering {before : Register} (h : Answered before.calls.length k p) :
    Agree before.calls.length k 0 (p.1, (before.answering p.2.1, p.2.2)) := by
  cases h with
  | quietly h _ hcalls =>
      have hentered : (before.answering p.2.1).with k 0 = p.2.1.quieter.with (k + 1) 0 := by
        simp [Register.answering, Register.with, Register.quieter, hcalls, Nat.add_assoc,
          Nat.add_comm 1 k]
      exact { h with tallied := hentered ▸ h.tallied }
  | calling h =>
      have hcalled : p.2.1.calls.length ≠ before.calls.length := Nat.ne_of_gt h.least_le
      have hentered : (before.answering p.2.1).with k 0 = p.2.1.with (k + 1) 0 := by
        simp [Register.answering, Register.with, hcalled, Nat.add_assoc, Nat.add_comm 1 k]
      exact
        { h with
          tallied := hentered ▸ h.tallied
          least_le := Nat.le_of_succ_le h.least_le }

theorem answered_resolve (hp : Agree r.calls.length k 1 (s, (r, w))) (hpending : s.pending = [])
    (key : Instant) :
    Keeps (Answered r.calls.length k) ((replica.registered listener false).resolve key)
      (s, (r, w)) (fun _ _ => True) := by
  unfold resolve
  apply Keeps.got
  split
  · apply keeps_modified
    exact .pure (.quietly (InStep.hit hp) hpending rfl) trivial
  · apply keeps_modified
    have hmiss : Agree r.calls.length (k + 1) 0 (s.countMiss, (r, w)) := InStep.miss hp
    apply After.imp (agree_read replica listener hmiss key)
    exact fun _ _ hread => ⟨.calling hread.1, hread.2⟩

variable (ha : forall scanning least k,
  (replica.registered listener scanning).Announces (Agree (W := W) least k 0))

include ha

theorem answered_lookup (hp : AtRest (Agree least k 0) p) (key : Instant) :
    After ((replica.registered listener false).lookup key).run p (fun _ p' =>
      Answered p.2.1.calls.length k p' ∧ p'.1.pending = []) := by
  unfold lookup
  apply after_except_bind.mpr
  apply after_except_lift.mpr
  apply After.imp (rests_sync replica listener false hp)
  intro _ p₁ hsync
  rcases p₁ with ⟨s, r, w⟩
  rcases hsync with ⟨hrest, hcalls⟩
  rw [← hcalls]
  have hagree : Agree r.calls.length k 1 (s, (r, w)) :=
    { hrest.kept with least_le := Nat.le_refl _ }
  apply after_except_bind.mpr
  apply after_request_get.mpr
  dsimp only
  split
  · apply after_except_bind.mpr
    apply after_request_modify.mpr
    exact after_except_pure.mpr ⟨.quietly (InStep.memoHit hagree) hrest.pending rfl, hrest.pending⟩
  · have hthrough : Keeps (Answered r.calls.length k) (do
        let found <- (replica.registered listener false).resolve key
        modify fun s => s.remember replica.settings.memoCapacity key found
        return found) (s, (r, w)) (fun _ _ => True) := by
      apply (answered_resolve replica listener hagree hrest.pending key).bind
      intro found p₂ hp₂ _
      exact (Keeps.modify (hp₂.remember _ key found)).bind fun _ _ hp₃ _ => .pure hp₃ trivial
    unfold announcing
    apply after_except_mk.mpr
    simp only [after_bind, after_pure]
    apply After.imp hthrough
    intro answer p₃ hp₃
    cases hp₃.1 with
    | quietly h hpending hcalls =>
        exact after_announce_of_none _ hpending ⟨.quietly h hpending hcalls, hpending⟩
    | calling h =>
        apply After.imp (ha _ _ _ p₃ h)
        exact fun _ _ hp₄ => ⟨.calling hp₄.kept, hp₄.pending⟩

theorem rests_lookup (hp : AtRest (Agree least k 0) p) (key : Instant) :
    After (Register.lookup (replica.registered listener false) key) p
      (fun _ p' => AtRest (Agree least k 0) p') := by
  have hanswered := answered_lookup replica listener ha hp key
  rcases p with ⟨s, r, w⟩
  unfold Register.lookup
  simp only [after_bind, after_state_monadLift, after_state_get]
  apply After.imp hanswered
  rintro answer ⟨s', r', w'⟩ ⟨h, hpending⟩
  simp only [after_state_monadLift, after_state_modify, after_pure]
  exact ⟨h.answering.mono hp.kept.least_le, hpending⟩

/-!
## Scans
-/

theorem rests_loadPage (hp : AtRest (Agree least k 0) p) (mark : Bookmark) :
    After ((replica.registered listener true).loadPage mark).run p
      (fun _ p' => AtRest (Agree least k 0) p') := by
  unfold loadPage
  apply after_except_bind.mpr
  apply after_except_lift.mpr
  apply After.imp (rests_sync replica listener true hp)
  intro _ p₁ hsync
  have hfetched := agree_fetch replica listener true (j := 0) hsync.1.kept mark
  apply After.imp ((ha true least k).announcing hfetched)
  exact fun _ _ hp₂ => hp₂.1

theorem rests_pull (scan : Scan V) {p : State V × (Register × W)}
    (hp : AtRest (Agree least k 0) p) :
    After ((replica.registered listener true).pull scan) p
      (fun _ p' => AtRest (Agree least k 0) p') := by
  rw [pull]
  split
  · exact after_pure.mpr hp
  · split
    · exact after_pure.mpr hp
    · rename_i mark _
      apply after_bind.mpr
      apply After.imp (rests_loadPage replica listener ha hp mark)
      intro answer p₁ hp₁
      cases answer with
      | error e => exact after_pure.mpr hp₁
      | ok page =>
          dsimp only
          split
          · exact after_pure.mpr hp₁
          · rename_i newest _
            rcases p₁ with ⟨s₁, v₁⟩
            apply after_bind.mpr
            apply after_state_monadLift.mpr
            apply After.imp
              (agree_nextPage replica listener true hp₁.kept mark page.full newest.key)
            intro next v₂ hv₂
            exact rests_pull (scan.turned page.entries (next.map Subtype.val))
              ⟨hv₂, hp₁.pending⟩
termination_by scan.measure
decreasing_by exact Scan.measure_turned_lt ‹_› page.entries next

/-!
## Errands
-/

theorem rests_errand {effect : A -> m A} (errand : Errand V A)
    (hp : AtRest (Agree least k 0) p) :
    After (errand.register (replica.registered listener) effect) p
      (fun _ p' => AtRest (Agree least k 0) p') := by
  induction errand generalizing p with
  | done => exact after_pure.mpr hp
  | lookup key next ih =>
      apply after_bind.mpr
      apply After.imp (rests_lookup replica listener ha hp key)
      exact fun answer _ hp₁ => ih answer hp₁
  | pull scan next ih =>
      apply after_bind.mpr
      apply After.imp (rests_pull replica listener ha scan hp)
      exact fun r _ hp₁ => ih r hp₁
  | clear next ih =>
      rcases p with ⟨s, v⟩
      apply after_bind.mpr
      apply after_state_modify.mpr
      exact ih ⟨hp.kept.congr rfl rfl rfl, hp.pending⟩
  | act x next ih =>
      rcases p with ⟨s, r, w⟩
      apply after_bind.mpr
      apply after_state_monadLift.mpr
      apply after_state_monadLift.mpr
      apply after_of_forall
      exact fun y _ => ih y ⟨hp.kept, hp.pending⟩

end Requests

theorem inUse_eq_registered (replica : Replica m V) (hear : Entry V -> m (Errand V A))
    (effect : A -> m A) (depth : Nat) :
    exists listener, replica.inUse hear effect depth = replica.registered listener := by
  cases depth <;> exact ⟨_, rfl⟩

/-- Whoever hears of an entry leaves everything in step, at every depth. -/
theorem announces_inUse (replica : Replica m V) (hear : Entry V -> m (Errand V A))
    (effect : A -> m A) (depth : Nat) :
    forall scanning least k,
      (replica.inUse hear effect depth scanning).Announces (Agree (W := W) least k 0) := by
  have hnone : forall (least k : Nat) (s : State V) (v : Register × W), Agree least k 0 (s, v) ->
      Agree least k 0 (({ s with pending := [] } : State V), v) :=
    fun _ _ _ _ h => h.congr rfl rfl rfl
  induction depth with
  | zero =>
      intro scanning least k
      apply announces_of_listener (hnone least k)
      intro e p hp
      rcases p with ⟨s, r, w⟩
      apply after_bind.mpr
      apply after_state_monadLift.mpr
      apply after_state_monadLift.mpr
      exact after_of_forall fun _ _ => after_pure.mpr ⟨hp.kept, hp.pending⟩
  | succ depth ih =>
      intro scanning least k
      apply announces_of_listener (hnone least k)
      intro e p hp
      rcases p with ⟨s, r, w⟩
      apply after_bind.mpr
      apply after_state_monadLift.mpr
      apply after_state_monadLift.mpr
      apply after_of_forall
      intro errand w'
      have hrest : AtRest (Agree least k 0) (s, (r, w')) := ⟨hp.kept, hp.pending⟩
      rcases replica.inUse_eq_registered hear effect depth with ⟨listener, heq⟩
      rw [heq] at ih ⊢
      exact rests_errand replica listener ih errand hrest

/-!
## Replicas in use
-/

namespace Register

/-- A use of a replica: a command, or a question for a neighbouring key, which is handed on. -/
inductive Use (W : Type) where
  | desk (c : Command W)
  | previousKey (key : Instant)
  | nextKey (key : Instant)

def moving (r : Register) : Command W -> Command (Register × W)
  | .lookup key => .lookup key
  | .begin key => .begin key
  | .pull index => .pull index
  | .clear => .clear
  | .move w => .move (r, w)

def passed {α : Type} (x : Desk (Register × W) V)
    (y : StateT (State V) (StateT Register m) α) : Desk (Register × W) V :=
  let p := (perform y x.here).2
  { x with memory := p.1, world := p.2 }

def serve (on : Bool -> Replica (StateT Register m) V) (x : Desk (Register × W) V) :
    Use W -> Desk (Register × W) V
  | .desk (.lookup key) => passed x (lookup (on false) key)
  | .desk c => x.step (on true) (x.world.1.moving c)
  | .previousKey key => passed x ((on true).archive.previousKey key)
  | .nextKey key => passed x ((on true).archive.nextKey key)

def opened (on : Bool -> Replica (StateT Register m) V) (w : W) : Desk (Register × W) V :=
  Desk.opened (on true) ({}, w)

theorem rests_opened (replica : Replica m V)
    (listener : Entry V -> StateT (State V) (StateT Register m) Unit) (w : W) :
    AtRest (Agree 0 0 0) (opened (replica.registered listener) w).here := by
  have hstart : After (replica.registered listener true).start ({}, w)
      (fun s v => AtRest (Agree 0 0 0) (s, v)) := by
    unfold Replica.start
    apply after_bind.mpr
    apply Register.after_entering.mpr
    apply after_of_forall
    intro epoch w₁
    apply after_bind.mpr
    apply Register.after_entering.mpr
    apply after_of_forall
    intro bound w₂
    exact after_pure.mpr ⟨⟨tallied_start epoch bound, rfl, rfl, Nat.zero_le _⟩, rfl⟩
  exact hstart

theorem rests_aside {α : Type} {x : m α} {call : Source.Call} {p : State V × (Register × W)}
    (hp : AtRest (Agree least k j) p) (hprobe : call.isProbe = false)
    (hload : call.isLoad = false) :
    After (liftM (entering x fun _ => calling call) : StateT (State V) (StateT Register m) α) p
      (fun _ p' => AtRest (Agree least k j) p') := by
  rcases p with ⟨s, r, w⟩
  apply after_state_monadLift.mpr
  apply after_entering.mpr
  exact after_of_forall fun _ _ => ⟨Agree.call hp.kept hprobe hload, hp.pending⟩

theorem rests_serve {replica : Replica m V}
    {listener : Entry V -> StateT (State V) (StateT Register m) Unit}
    (ha : forall scanning least k,
      (replica.registered listener scanning).Announces (Agree (W := W) least k 0))
    {x : Desk (Register × W) V} (hx : AtRest (Agree 0 0 0) x.here) (c : Use W) :
    AtRest (Agree 0 0 0) (serve (replica.registered listener) x c).here := by
  cases c with
  | desk c =>
      cases c with
      | lookup key => exact rests_lookup replica listener ha hx key
      | begin key => exact hx
      | pull index =>
          cases hget : x.readings[index]? with
          | none => simpa [serve, moving, Desk.step, hget] using hx
          | some reading =>
              simp only [serve, moving, Desk.step, hget]
              exact rests_pull replica listener ha reading.scan hx
      | clear => exact ⟨hx.kept.congr rfl rfl rfl, hx.pending⟩
      | move w => exact ⟨hx.kept, hx.pending⟩
  | previousKey key => exact rests_aside hx rfl rfl
  | nextKey key => exact rests_aside hx rfl rfl

/--
Between the uses of a replica its counters say what was entered in its register, whatever the
source answers, whether or not it fails, and whatever a listener looks up, pulls and clears while
it is told of an entry.
-/
theorem tallied_throughout (replica : Replica m V) (hear : Entry V -> m (Errand V A))
    (effect : A -> m A) (depth : Nat) (w : W) (uses : List (Use W)) :
    let on := replica.inUse hear effect depth
    Throughout (serve on) (fun x => Tallied x.memory.counters x.world.1) (opened on w) uses := by
  intro on
  have ha := announces_inUse (W := W) replica hear effect depth
  rcases replica.inUse_eq_registered hear effect depth with ⟨listener, heq⟩
  rw [heq] at ha
  have hon : on = replica.registered listener := heq
  rw [hon]
  have hopened : AtRest (Agree 0 0 0) (opened (replica.registered listener) w).here :=
    rests_opened replica listener w
  exact throughout_of_kept (fun x c hx _ => rests_serve ha hx c)
    (fun x (hx : AtRest (Agree 0 0 0) x.here) => hx.kept.tallied) hopened each_true

end Register
end Replica
end AsOf
