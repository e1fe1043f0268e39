import AsOf.Proofs.Recorded
import AsOf.Proofs.Replica.Punctual

/-!
# Registers

A register is kept of a replica in use by what is around it.  Each call that the source receives
is entered, with the number of entries that it hands out, and so is each epoch and each horizon
that the replica finds.  Whoever looks something up enters the lookup, and whether the source was
called meanwhile; the batches that scans ask for are entered as pages.

The counters of the replica agree with the register as soon as what is under way has been
entered: the lookups that are not over yet, and the page that is being read.
-/

namespace AsOf

namespace Source

theorem probes_concat (calls : List Call) (call : Call) :
    probes (calls ++ [call]) = probes calls + call.isProbe.toNat := by
  rw [probes_append]
  cases call <;> rfl

theorem loads_concat (calls : List Call) (call : Call) :
    loads (calls ++ [call]) = loads calls + call.isLoad.toNat := by
  rw [loads_append]
  cases call <;> rfl

end Source

namespace Replica

variable {m : Type -> Type} [Monad m] {V W A : Type}

structure Register where
  calls : List Source.Call := []
  /-- The number of entries in the batches that were handed out. -/
  received : Nat := 0
  /-- The number of batches that scans have asked for. -/
  pages : Nat := 0
  lookups : Nat := 0
  /-- The number of lookups during which the source was not called. -/
  quiet : Nat := 0
  /-- The epochs that were found, one after the other. -/
  epochs : List Nat := []
  /-- The horizons that were found, one after the other. -/
  bounds : List (Option Instant) := []

/-!
## Replicas in use
-/

namespace Register

def entering {α : Type} (x : m α) (enter : α -> Register -> Register) : StateT Register m α := do
  let a <- x
  modify (enter a)
  return a

def calling (call : Source.Call) (r : Register) : Register :=
  { r with calls := r.calls ++ [call] }

def loading {ε : Type} (scanning : Bool) (start : Instant) (answer : Except ε (List (Entry V)))
    (r : Register) : Register :=
  { r with
    calls := r.calls ++ [.batchFrom start]
    pages := r.pages + scanning.toNat
    received := r.received + answer.toOption.elim 0 List.length }

def findingEpoch (epoch : Nat) (r : Register) : Register :=
  { r with epochs := r.epochs ++ [epoch] }

def findingBound (bound : Option Instant) (r : Register) : Register :=
  { r with bounds := r.bounds ++ [bound] }

def answering (before r : Register) : Register :=
  { r with
    lookups := r.lookups + 1
    quiet := if r.calls.length = before.calls.length then r.quiet + 1 else r.quiet }

def source (scanning : Bool) (source : Source m V) : Source (StateT Register m) V where
  batchFrom start := .mk (entering (source.batchFrom start).run (loading scanning start))
  latestUpTo key := .mk (entering (source.latestUpTo key).run fun _ => calling (.latestUpTo key))
  previousKey key := entering (source.previousKey key) fun _ => calling (.previousKey key)
  nextKey key := entering (source.nextKey key) fun _ => calling (.nextKey key)
  batchLimit := entering source.batchLimit fun _ => calling .batchLimit

def lookup (replica : Replica (StateT Register m) V) (key : Instant) :
    StateT (State V) (StateT Register m) (Except QueryError (Option (Entry V))) := do
  let before <- (get : StateT Register m Register)
  let answer <- (replica.lookup key).run
  (modify (answering before) : StateT Register m Unit)
  return answer

end Register

def registered (replica : Replica m V)
    (listener : Entry V -> StateT (State V) (StateT Register m) Unit) (scanning : Bool) :
    Replica (StateT Register m) V where
  source := Register.source scanning replica.source
  horizon := .pulled (Register.entering replica.horizon.highest Register.findingBound)
  epoch :=
    { current := Register.entering replica.epoch.current Register.findingEpoch
      advance := replica.epoch.advance }
  settings := replica.settings
  listener := listener

def Errand.register (replica : Bool -> Replica (StateT Register m) V) (effect : A -> m A) :
    Errand V A -> StateT (State V) (StateT Register m) Unit
  | .done => pure ()
  | .lookup key next => do
      let answer <- Register.lookup (replica false) key
      (next answer).register replica effect
  | .pull scan next => do
      let r <- (replica true).pull scan
      (next r).register replica effect
  | .clear next => do
      modify State.forget
      next.register replica effect
  | .act x next => do
      let y <- (effect x : StateT Register m A)
      (next y).register replica effect

def inUse (replica : Replica m V) (hear : Entry V -> m (Errand V A)) (effect : A -> m A) :
    Nat -> Bool -> Replica (StateT Register m) V
  | 0 => replica.registered fun e => do
      let _ <- (hear e : StateT Register m (Errand V A))
  | depth + 1 => replica.registered fun e => do
      let errand <- (hear e : StateT Register m (Errand V A))
      errand.register (replica.inUse hear effect depth) effect

/-!
## Changes in a list
-/

def changes {α : Type} [DecidableEq α] : List α -> Nat
  | x :: y :: rest => (if y = x then 0 else 1) + changes (y :: rest)
  | [_] | [] => 0

theorem changes_append {α : Type} [DecidableEq α] {l : List α} {x : α}
    (hlast : l.getLast? = some x) (y : α) :
    changes (l ++ [y]) = changes l + if y = x then 0 else 1 := by
  induction l with
  | nil => cases hlast
  | cons z rest ih =>
      cases rest with
      | nil =>
          cases hlast
          exact Nat.add_comm _ 0
      | cons z' rest =>
          have hrest : (z' :: rest).getLast? = some x := by
            rwa [List.getLast?_cons_cons] at hlast
          show (if z' = z then 0 else 1) + changes (z' :: rest ++ [y]) = _
          rw [ih hrest, ← Nat.add_assoc]
          rfl

/-!
## Counters that agree with a register
-/

structure Tallied (c : Counters) (r : Register) : Prop where
  probes : c.probes = Source.probes r.calls
  bulkLoads : c.bulkLoads = Source.loads r.calls
  loadedEntries : c.loadedEntries = r.received
  requests : c.answers.requests = r.lookups
  hits : c.answers.hits = r.quiet
  memoHits : c.memoHits ≤ c.answers.hits
  hits_le : c.answers.hits ≤ c.answers.requests
  refreshInvalidations : c.refreshInvalidations = changes r.epochs
  boundInvalidations : c.boundInvalidations = changes r.bounds
  epochs : r.epochs.length = r.lookups + r.pages + 1
  bounds : r.bounds.length = r.lookups + r.pages + 1

theorem tallied_start (epoch : Nat) (bound : Option Instant) :
    Tallied {} ((({} : Register).findingEpoch epoch).findingBound bound) where
  probes := rfl
  bulkLoads := rfl
  loadedEntries := rfl
  requests := rfl
  hits := rfl
  memoHits := Nat.le_refl 0
  hits_le := Nat.le_refl 0
  refreshInvalidations := rfl
  boundInvalidations := rfl
  epochs := rfl
  bounds := rfl

def Register.with (r : Register) (lookups pages : Nat) : Register :=
  { r with lookups := r.lookups + lookups, pages := r.pages + pages }

def Register.quieter (r : Register) : Register :=
  { r with quiet := r.quiet + 1 }

section Tallied

variable {c : Counters} {r : Register} {k j : Nat}

theorem Tallied.call (h : Tallied c (r.with k j)) (call : Source.Call) :
    Tallied
      { c with
        probes := c.probes + call.isProbe.toNat
        bulkLoads := c.bulkLoads + call.isLoad.toNat }
      ((r.calling call).with k j) :=
  { h with
    probes := (congrArg (· + _) h.probes).trans (Source.probes_concat r.calls call).symm
    bulkLoads := (congrArg (· + _) h.bulkLoads).trans (Source.loads_concat r.calls call).symm }

theorem Tallied.load {ε : Type} {scanning : Bool} (h : Tallied c (r.with k (j + scanning.toNat)))
    (start : Instant) (answer : Except ε (List (Entry V))) :
    Tallied
      { c with
        bulkLoads := c.bulkLoads + 1
        loadedEntries := c.loadedEntries + answer.toOption.elim 0 List.length }
      ((r.loading scanning start answer).with k j) := by
  have hlooks : r.lookups + k + (r.pages + (j + scanning.toNat)) =
      r.lookups + k + (r.pages + scanning.toNat + j) := by
    omega
  exact
    { h.call (.batchFrom start) with
      loadedEntries := congrArg (· + _) h.loadedEntries
      epochs := h.epochs.trans (congrArg (· + 1) hlooks)
      bounds := h.bounds.trans (congrArg (· + 1) hlooks) }

/-- What was read for a lookup was read as for a page, until the lookup is counted. -/
theorem Tallied.miss (h : Tallied c (r.with k 1)) :
    Tallied { c with answers := c.answers.miss } (r.with (k + 1) 0) := by
  have hlooks : r.lookups + k + (r.pages + 1) = r.lookups + (k + 1) + (r.pages + 0) := by
    omega
  exact
    { h with
      requests := congrArg (· + 1) h.requests
      hits_le := Nat.le_succ_of_le h.hits_le
      epochs := h.epochs.trans (congrArg (· + 1) hlooks)
      bounds := h.bounds.trans (congrArg (· + 1) hlooks) }

theorem Tallied.hit (h : Tallied c (r.with k 1)) :
    Tallied { c with answers := c.answers.hit } (r.quieter.with (k + 1) 0) :=
  { h.miss with
    hits := congrArg (· + 1) h.hits
    memoHits := Nat.le_succ_of_le h.memoHits
    hits_le := Nat.succ_le_succ h.hits_le }

theorem Tallied.memoHit (h : Tallied c (r.with k 1)) :
    Tallied { c with answers := c.answers.hit, memoHits := c.memoHits + 1 }
      (r.quieter.with (k + 1) 0) :=
  { h.hit with memoHits := Nat.succ_le_succ h.memoHits }

end Tallied

/-- The counters say what was entered, and the epoch and the horizon are those found last. -/
structure InStep (least lookups pages : Nat) (s : State V) (r : Register) : Prop where
  tallied : Tallied s.counters (r.with lookups pages)
  epoch : r.epochs.getLast? = some s.epoch
  bound : r.bounds.getLast? = some s.bound
  least_le : least ≤ r.calls.length

section InStep

variable {s t : State V} {r : Register} {least k j : Nat} {start : Instant}

theorem InStep.mono {more : Nat} (h : InStep more k j s r) (hle : least ≤ more) :
    InStep least k j s r :=
  { h with least_le := Nat.le_trans hle h.least_le }

theorem InStep.congr (h : InStep least k j s r) (hcounters : t.counters = s.counters)
    (hepoch : t.epoch = s.epoch) (hbound : t.bound = s.bound) : InStep least k j t r where
  tallied := hcounters ▸ h.tallied
  epoch := hepoch ▸ h.epoch
  bound := hbound ▸ h.bound
  least_le := h.least_le

theorem InStep.call {call : Source.Call} (h : InStep least k j s r)
    (hcounters : t.counters =
      { s.counters with
        probes := s.counters.probes + call.isProbe.toNat
        bulkLoads := s.counters.bulkLoads + call.isLoad.toNat })
    (hepoch : t.epoch = s.epoch) (hbound : t.bound = s.bound) :
    InStep (least + 1) k j t (r.calling call) where
  tallied := hcounters ▸ h.tallied.call call
  epoch := hepoch ▸ h.epoch
  bound := hbound ▸ h.bound
  least_le := by
    simp only [Register.calling, List.length_append, List.length_singleton]
    exact Nat.succ_le_succ h.least_le

theorem InStep.load {ε : Type} {scanning : Bool} (h : InStep least k (j + scanning.toNat) s r)
    (start : Instant) (answer : Except ε (List (Entry V))) :
    InStep (least + 1) k j (s.countBulkLoad.handed start answer)
      (r.loading scanning start answer) := by
  have hframe : (s.countBulkLoad.handed start answer).counters =
        { s.counters with
          bulkLoads := s.counters.bulkLoads + 1
          loadedEntries := s.counters.loadedEntries + answer.toOption.elim 0 List.length } ∧
      (s.countBulkLoad.handed start answer).epoch = s.epoch ∧
      (s.countBulkLoad.handed start answer).bound = s.bound := by
    cases answer with
    | error e => exact ⟨rfl, rfl, rfl⟩
    | ok batch =>
        unfold State.handed State.absorbed
        dsimp only
        rcases State.storePage_frame (s.countBulkLoad.countLoaded batch.length)
          (kept start batch) with ⟨loaded, pending, hframe⟩
        rw [hframe]
        exact ⟨rfl, rfl, rfl⟩
  rcases hframe with ⟨hcounters, hepoch, hbound⟩
  constructor
  · rw [hcounters]
    exact h.tallied.load start answer
  · rw [hepoch]
    exact h.epoch
  · rw [hbound]
    exact h.bound
  · simp only [Register.loading, List.length_append, List.length_singleton]
    exact Nat.succ_le_succ h.least_le

end InStep

/-!
## Below the level of requests
-/

section Operations

variable {W : Type} [Performs m W] {w : W} {r : Register} {least k j : Nat} {key start : Instant}
  {mark : Bookmark} {s : State V}

theorem Register.after_entering {α : Type} {x : m α} {enter : α -> Register -> Register}
    {post : α -> Register × W -> Prop} :
    After (entering x enter) (r, w) post ↔ After x w (fun a w' => post a (enter a r, w')) := by
  unfold entering
  rw [after_bind, after_state_monadLift]
  apply after_congr
  intro a w'
  rw [after_bind, after_state_modify, after_pure]

def Agree (least lookups pages : Nat) (p : State V × (Register × W)) : Prop :=
  InStep least lookups pages p.1 p.2.1

variable (replica : Replica m V)
  (listener : Entry V -> StateT (State V) (StateT Register m) Unit) (scanning : Bool)
  {p : State V × (Register × W)}

omit [Performs m W] in
theorem Agree.congr {t : State V} (hp : Agree least k j p) (hcounters : t.counters = p.1.counters)
    (hepoch : t.epoch = p.1.epoch) (hbound : t.bound = p.1.bound) :
    Agree least k j (t, p.2) :=
  InStep.congr hp hcounters hepoch hbound

omit [Performs m W] in
theorem Agree.call {call : Source.Call} {w' : W} (hp : Agree least k j (s, (r, w)))
    (hprobe : call.isProbe = false) (hload : call.isLoad = false) :
    Agree least k j (s, (r.calling call, w')) := by
  have hcounters : s.counters =
      { s.counters with
        probes := s.counters.probes + call.isProbe.toNat
        bulkLoads := s.counters.bulkLoads + call.isLoad.toNat } := by
    rw [hprobe, hload]
    rfl
  exact (InStep.call hp hcounters rfl rfl).mono (Nat.le_succ least)

theorem agree_probe (hp : Agree least k j p) (key : Instant) :
    After ((replica.registered listener scanning).probe key).run p
      (fun _ p' => Agree (least + 1) k j p') := by
  rcases p with ⟨s, r, w⟩
  unfold probe ask
  simp only [after_except_bind, after_request_modify, after_request_handOn, after_except_adapt]
  apply Register.after_entering.mpr
  apply after_of_forall
  intro answer w'
  exact InStep.call hp rfl rfl rfl

theorem agree_fill (hp : Agree least k 0 p) (start : Instant) :
    Keeps (Agree least k 0) ((replica.registered listener false).fill start) p
      (fun _ _ => True) := by
  rcases p with ⟨s, r, w⟩
  have hpage : InStep least k (0 + false.toNat) s r := hp
  unfold fill
  apply keeps_modified
  apply Keeps.asked
  apply Register.after_entering.mpr
  apply after_of_forall
  intro answer w'
  have hloaded : Agree least k 0 (s.countBulkLoad.handed start answer,
      (r.loading false start answer, w')) :=
    (hpage.load start answer).mono (Nat.le_succ least)
  cases answer with
  | error cause => exact hloaded
  | ok batch =>
      apply Keeps.absorbed
      split
      · exact (Keeps.modify (hloaded.congr rfl rfl rfl)).imp fun _ _ _ => trivial
      · exact .pure hloaded trivial

/-- The batch of a page has been asked for when it is read, or has failed to be. -/
theorem agree_fetch (hp : Agree least k (j + scanning.toNat) p) (mark : Bookmark) :
    Keeps (Agree least k j) ((replica.registered listener scanning).fetch mark) p
      (fun _ _ => True) := by
  rcases p with ⟨s, r, w⟩
  unfold fetch
  apply keeps_modified
  apply Keeps.asked
  apply Register.after_entering.mpr
  apply after_of_forall
  intro answer w₁
  have hloaded : Agree least k j (s.countBulkLoad.handed mark.start answer,
      (r.loading scanning mark.start answer, w₁)) :=
    (InStep.load hp mark.start answer).mono (Nat.le_succ least)
  cases answer with
  | error cause => exact hloaded
  | ok batch =>
      apply Keeps.looked
      apply Register.after_entering.mpr
      apply after_of_forall
      intro limit w₂
      have hlimit : Agree least k j (s.countBulkLoad.absorbed mark.start batch,
          ((r.loading scanning mark.start (.ok batch : Except String _)).calling .batchLimit,
            w₂)) :=
        hloaded.call rfl rfl
      apply Keeps.absorbed
      split
      · exact (Keeps.modify (hlimit.congr rfl rfl rfl)).bind fun _ _ hp₃ _ => .pure hp₃ trivial
      · exact .pure hlimit trivial

theorem agree_onward (hp : Agree least k j p) (mark : Bookmark) (newest : Instant) :
    After ((replica.registered listener scanning).onward mark newest) p.2
      (fun _ v => Agree least k j (p.1, v)) := by
  unfold onward
  apply after_bind.mpr
  apply Register.after_entering.mpr
  apply after_of_forall
  intro next w'
  have hnext : Agree least k j (p.1, (p.2.1.calling (.nextKey newest), w')) :=
    Agree.call (w := p.2.2) hp rfl rfl
  split <;> exact after_pure.mpr hnext

theorem agree_nextPage (hp : Agree least k j p) (mark : Bookmark) (full : Bool)
    (newest : Instant) :
    After ((replica.registered listener scanning).nextPage mark full newest) p.2
      (fun _ v => Agree least k j (p.1, v)) := by
  unfold nextPage
  split
  · exact agree_onward replica listener scanning hp mark newest
  · exact after_pure.mpr hp

theorem agree_fetchUntil (goal : Instant) (mark : Bookmark) {p : State V × (Register × W)}
    (hp : Agree least k 0 p) :
    Keeps (Agree least k 0) ((replica.registered listener false).fetchUntil goal mark) p
      (fun _ _ => True) := by
  rw [fetchUntil]
  apply (agree_fetch replica listener false hp mark).bind
  intro page p₁ hp₁ _
  split
  · exact .pure hp₁ trivial
  · rename_i newest _
    rcases p₁ with ⟨s₁, v₁⟩
    apply Keeps.looked
    apply After.imp (agree_onward replica listener false hp₁ mark newest.key)
    intro following v₂ hp₂
    cases following with
    | none => exact .pure hp₂ trivial
    | some following =>
        dsimp only
        split
        · exact agree_fetchUntil goal following.val hp₂
        · exact .pure hp₂ trivial
termination_by mark.start.remaining
decreasing_by exact Instant.remaining_lt_of_lt following.property

theorem agree_resolveForward (hp : Agree least k 0 p) (key : Instant) :
    Keeps (Agree least k 0) ((replica.registered listener false).resolveForward key) p
      (fun _ _ => True) := by
  have hlast : forall (isCold : Bool) (p : State V × (Register × W)), Agree least k 0 p ->
      Keeps (Agree least k 0) (do
        modify fun s => { s with loadedFromStart := s.loadedFromStart || isCold }
        return (<- get).loaded.latestUpTo key :
          Action (StateT Register m) V (Option (Entry V))) p (fun _ _ => True) := by
    intro isCold p hp
    apply (Keeps.modify (hp.congr rfl rfl rfl)).bind
    exact fun _ p₁ hp₁ _ => (Keeps.get hp₁).bind fun _ _ hp₂ _ => .pure hp₂ trivial
  unfold resolveForward
  apply (Keeps.get hp).bind
  intro before p₁ hp₁ _
  dsimp only
  split
  · exact (agree_fetchUntil replica listener key _ hp₁).bind fun _ p₂ hp₂ _ => hlast _ p₂ hp₂
  · exact hlast _ p₁ hp₁

theorem agree_resolveLatest (hp : Agree least k 0 p) (key : Instant) (latest : Entry V) :
    Keeps (Agree least k 0) ((replica.registered listener false).resolveLatest key latest) p
      (fun _ _ => True) := by
  have hlast : forall p : State V × (Register × W), Agree least k 0 p ->
      Keeps (Agree least k 0) (do
        modify fun s => s.cover ⟨latest.key, .included key⟩
        return some latest : Action (StateT Register m) V (Option (Entry V))) p
        (fun _ _ => True) :=
    fun p hp => (Keeps.modify (hp.congr rfl rfl rfl)).bind fun _ _ hp₁ _ => .pure hp₁ trivial
  unfold resolveLatest
  split
  · exact after_except_throw.mpr ⟨hp, trivial⟩
  · apply (Keeps.get hp).bind
    intro before p₁ hp₁ _
    apply (Keeps.modify (hp₁.congr rfl rfl rfl)).bind
    intro _ p₂ hp₂ _
    dsimp only
    split
    · exact (agree_fill replica listener hp₂ _).bind fun _ p₃ hp₃ _ => hlast p₃ hp₃
    · exact hlast p₂ hp₂

theorem agree_read (hp : Agree least k 0 p) (key : Instant) :
    Keeps (Agree (least + 1) k 0) (do
      match <- (replica.registered listener false).probe key with
      | some latest => (replica.registered listener false).resolveLatest key latest
      | none => (replica.registered listener false).resolveForward key) p (fun _ _ => True) := by
  apply after_except_bind.mpr
  apply After.imp (agree_probe replica listener false hp key)
  intro answer p₁ hp₁
  rcases answer with e | _ | latest
  · exact ⟨hp₁, trivial⟩
  · exact agree_resolveForward replica listener hp₁ key
  · exact agree_resolveLatest replica listener hp₁ key latest

end Operations

end Replica
end AsOf
