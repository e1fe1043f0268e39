import AsOf.Proofs.Ledger
import AsOf.Proofs.Recorded
import AsOf.Proofs.Replica.Upheld

/-!
# What lookups cost

The calls that a replica itself makes to its source are recorded, so that what it does can be
charged with them.  A batch costs one load and nothing else does; whatever a replica remembers, a
lookup makes at most one probe and at most one load.
-/

namespace AsOf

variable {m : Type -> Type} [Monad m] {V W : Type} [Performs m W]

namespace Source

/-- A record goes on with some probes and some loads. -/
structure Charged (probes loads : Nat) (calls calls' : List Call) : Prop where
  probes : Source.probes calls' = Source.probes calls + probes
  loads : Source.loads calls' = Source.loads calls + loads

variable {calls calls' calls'' : List Call} {n n' k k' : Nat}

theorem Charged.refl (calls : List Call) : Charged 0 0 calls calls := ⟨rfl, rfl⟩

theorem Charged.trans (h : Charged n k calls calls') (h' : Charged n' k' calls' calls'') :
    Charged (n + n') (k + k') calls calls'' where
  probes := by rw [h'.probes, h.probes, Nat.add_assoc]
  loads := by rw [h'.loads, h.loads, Nat.add_assoc]

theorem charged_append (calls more : List Call) :
    Charged (Source.probes more) (Source.loads more) calls (calls ++ more) :=
  ⟨probes_append calls more, loads_append calls more⟩

theorem charged_probe (calls : List Call) (key : Instant) :
    Charged 1 0 calls (calls ++ [.latestUpTo key]) :=
  charged_append calls [.latestUpTo key]

theorem charged_load (calls : List Call) (start : Instant) :
    Charged 0 1 calls (calls ++ [.batchFrom start]) :=
  charged_append calls [.batchFrom start]

/-- A record goes on with no more than some probes and no more than some loads. -/
structure Within (probes loads : Nat) (calls calls' : List Call) : Prop where
  probes : Source.probes calls' ≤ Source.probes calls + probes
  loads : Source.loads calls' ≤ Source.loads calls + loads

theorem Charged.within (h : Charged n k calls calls') (hn : n ≤ n') (hk : k ≤ k') :
    Within n' k' calls calls' :=
  ⟨h.probes ▸ Nat.add_le_add_left hn _, h.loads ▸ Nat.add_le_add_left hk _⟩

theorem Within.refl (n k : Nat) (calls : List Call) : Within n k calls calls :=
  (Charged.refl calls).within (Nat.zero_le n) (Nat.zero_le k)

theorem Charged.trans_within (h : Charged n k calls calls') (h' : Within n' k' calls' calls'') :
    Within (n + n') (k + k') calls calls'' where
  probes := by
    have hle := h'.probes
    rw [h.probes] at hle
    omega
  loads := by
    have hle := h'.loads
    rw [h.loads] at hle
    omega

end Source

def Outlook.recorded (o : Outlook W V) : Outlook (List Source.Call × W) V :=
  o.part Prod.snd fun p => o.ready p.2

theorem Outlook.Follows.recorded {o : Outlook W V} {p p' : List Source.Call × W}
    (h : o.Follows p.2 p'.2) : o.recorded.Follows p p' :=
  h.part h.ready

theorem Outlook.Follows.unrecorded {o : Outlook W V} {p p' : List Source.Call × W}
    (h : o.recorded.Follows p p') : o.Follows p.2 p'.2 where
  series := h.series
  bound := h.bound
  epoch := h.epoch
  limit := h.limit
  failures := h.failures
  overheard := h.overheard
  ready := h.ready

namespace Source

theorem Batches.recorded {source : Source m V} {o : Outlook W V} {next : Instant -> Instant}
    (h : source.Batches o next) : source.recorded.Batches o.recorded next where
  batchFrom p start hready := Call.after_recorded.mpr
    (After.imp (h.batchFrom p.2 start hready) fun r _ hpost =>
      ⟨hpost.1.recorded, by cases r <;> exact hpost.2⟩)
  batchLimit p hready := Call.after_recorded.mpr
    (After.imp (h.batchLimit p.2 hready) fun _ _ hpost => ⟨hpost.1, hpost.2.recorded⟩)
  nextKey p key hready := Call.after_recorded.mpr
    (After.imp (h.nextKey p.2 key hready) fun _ _ hpost => ⟨hpost.1, hpost.2.recorded⟩)
  lt_next p e hready := h.lt_next p.2 e hready
  next_le p p' e x hready hready' := h.next_le p.2 p'.2 e x hready hready'

end Source

namespace Replica

open Outlook Source

/-- A replica whose own calls to the source are recorded, though not those of its listener. -/
def recorded (replica : Replica m V) : Replica (StateT (List Call) m) V where
  source := replica.source.recorded
  horizon := replica.horizon.hoist StateT.lift
  epoch := replica.epoch.hoist StateT.lift
  settings := replica.settings
  listener e := fun s => StateT.lift ((replica.listener e).run s)

variable {o : Outlook W V} {next : Instant -> Instant} {replica : Replica m V} {s : State V}
  {calls : List Call} {w : W} {key start : Instant} {mark : Bookmark}

theorem after_recorded_listener {e : Entry V} {post : Unit -> State V × (List Call × W) -> Prop} :
    After (replica.recorded.listener e) (s, (calls, w)) post ↔
      After (replica.listener e) (s, w) (fun a p' => post a (p'.1, (calls, p'.2))) := by
  show After (StateT.lift ((replica.listener e).run s) : StateT (List Call) m _) (calls, w)
    (fun r q => post r.1 (r.2, q)) ↔ _
  exact after_state_lift

/-!
## Calls below the level of requests
-/

theorem after_recorded_announce {K : State V × W -> Prop}
    (hlistener : forall e p, K p -> After (replica.listener e) p (fun _ p' => K p'))
    (hp : K ({ s with pending := [] }, w)) :
    After replica.recorded.announce (s, (calls, w))
      (fun _ p' => p'.2.1 = calls ∧ K (p'.1, p'.2.2)) := by
  have htold : forall e (p : State V × (List Call × W)), p.2.1 = calls ∧ K (p.1, p.2.2) ->
      After (replica.recorded.listener e) p
        (fun _ p' => p'.2.1 = calls ∧ K (p'.1, p'.2.2)) := by
    rintro e ⟨s, calls, w⟩ ⟨rfl, hp⟩
    apply after_recorded_listener.mpr
    exact After.imp (hlistener e (s, w) hp) fun _ p' hp' => ⟨rfl, hp'⟩
  unfold announce
  apply after_bind.mpr
  apply after_state_modifyGet.mpr
  exact after_forM htold s.pending ⟨rfl, hp⟩

theorem after_sync_recorded (h : replica.Pages o next) (hready : o.ready w) :
    After replica.recorded.sync (s, (calls, w)) (fun _ p' =>
      p'.1 = s.observed o w ∧ p'.2.1 = calls ∧ o.Follows w p'.2.2) := by
  unfold sync
  simp only [after_bind, after_state_monadLift, after_state_modify]
  apply after_state_lift.mpr
  apply After.imp (h.epoch w hready)
  intro n w₁ hpost
  rcases hpost with ⟨rfl, hw₁⟩
  apply Horizon.after_hoisted.mpr
  apply After.imp (h.horizon w₁ (hw₁.ready hready))
  intro bound w₂ hpost
  rcases hpost with ⟨rfl, hw₂⟩
  rw [hw₁.bound]
  exact ⟨rfl, rfl, hw₁.trans hw₂⟩

theorem after_fetch_charged (replica : Replica m V) (mark : Bookmark)
    (p : State V × (List Call × W)) :
    After (replica.recorded.fetch mark).run p (fun _ p' => Charged 0 1 p.2.1 p'.2.1) := by
  rcases p with ⟨s, calls, w⟩
  unfold fetch
  simp only [after_except_bind, after_request_modify, ask, after_request_handOn,
    after_except_adapt]
  apply Call.after_recorded.mpr
  apply after_of_forall
  intro r w₁
  have hload := charged_load calls mark.start
  cases r with
  | error cause => exact hload
  | ok batch =>
      apply after_request_lift.mpr
      apply Call.after_recorded.mpr
      apply after_of_forall
      intro limit w₂
      have hlimit : Charged 0 0 (calls ++ [.batchFrom mark.start])
          (calls ++ [.batchFrom mark.start] ++ [.batchLimit]) := charged_append _ [.batchLimit]
      simp only [absorb, after_except_bind, after_request_modify, after_except_pure]
      split
      · simp only [after_except_bind, after_request_modify, after_except_pure]
        exact hload.trans hlimit
      · exact after_except_pure.mpr (hload.trans hlimit)

theorem after_onward_charged (replica : Replica m V) (mark : Bookmark) (newest : Instant)
    (q : List Call × W) :
    After (replica.recorded.onward mark newest) q (fun _ q' => Charged 0 0 q.1 q'.1) := by
  rcases q with ⟨calls, w⟩
  unfold onward
  apply after_bind.mpr
  apply Call.after_recorded.mpr
  apply after_of_forall
  intro k w'
  have hnext : Charged 0 0 calls (calls ++ [.nextKey newest]) :=
    charged_append calls [.nextKey newest]
  split <;> exact after_pure.mpr hnext

/-!
## One lookup
-/

def State.filled (s : State V) (start : Instant) (batch : List (Entry V)) : State V :=
  let t := s.countBulkLoad.absorbed start batch
  match (kept start batch).newest? with
  | some newest => t.cover ⟨start, .excluded newest.key⟩
  | none => t

def Bridged (series : Series V) (limit : Option Positive) (key : Instant) (latest : Entry V)
    (s t : State V) : Prop :=
  match s.gapStart latest with
  | none => t = (s.store latest).cover ⟨latest.key, .included key⟩
  | some start => exists batch, series.Batch start limit batch ∧
      t = ((s.store latest).filled start batch).cover ⟨latest.key, .included key⟩

section Lookups

variable (h : replica.Reads o next)

include h

theorem after_probe_charged (hready : o.ready w) (key : Instant) :
    After (replica.recorded.probe key).run (s, (calls, w)) (fun r p' =>
      p'.1 = s.countProbe ∧ Charged 1 0 calls p'.2.1 ∧ o.Follows w p'.2.2 ∧
        o.Delivers w p'.2.2 (· = (o.series w).latestUpTo key) r) := by
  unfold probe ask
  simp only [after_except_bind, after_request_modify, after_request_handOn, after_except_adapt]
  apply Call.after_recorded.mpr
  apply After.imp (h.source.latestUpTo w key hready)
  exact fun r w' hpost => ⟨trivial, charged_probe calls key, hpost.1, hpost.2⟩

theorem after_fill_charged (hready : o.ready w) (start : Instant) :
    After (replica.recorded.fill start).run (s, (calls, w)) (fun r p' =>
      Charged 0 1 calls p'.2.1 ∧ o.Follows w p'.2.2 ∧
        o.Delivers w p'.2.2 (fun _ => exists batch,
          (o.series w).Batch start (o.limit w) batch ∧ p'.1 = s.filled start batch) r) := by
  unfold fill ask
  simp only [after_except_bind, after_request_modify, after_request_handOn, after_except_adapt]
  apply Call.after_recorded.mpr
  apply After.imp (h.source.batchFrom w start hready)
  intro r w' hpost
  rcases hpost with ⟨hw', hr⟩
  have hload := charged_load calls start
  cases r with
  | error cause => exact ⟨hload, hw', hr⟩
  | ok batch =>
      apply after_except_bind.mpr
      simp only [after_request_modify, after_except_pure]
      cases hnewest : (kept start batch).newest? with
      | none =>
          apply after_except_pure.mpr
          refine ⟨hload, hw', batch, hr, ?_⟩
          simp only [State.filled, hnewest]
          rfl
      | some newest =>
          apply after_request_modify.mpr
          refine ⟨hload, hw', batch, hr, ?_⟩
          simp only [State.filled, hnewest]
          rfl

theorem after_resolveLatest_charged {latest : Entry V} (hready : o.ready w)
    (hle : latest.key ≤ key) :
    After (replica.recorded.resolveLatest key latest).run (s, (calls, w)) (fun r p' =>
      Charged 0 (s.gapStart latest).toList.length calls p'.2.1 ∧ o.Follows w p'.2.2 ∧
        o.Delivers w p'.2.2 (fun _ => Bridged (o.series w) (o.limit w) key latest s p'.1) r) := by
  unfold resolveLatest Bridged
  rw [if_neg (Std.not_lt.mpr hle)]
  simp only [after_except_bind, after_request_get, after_request_modify]
  cases hgap : s.gapStart latest with
  | none =>
      simp only [after_except_bind, after_request_modify]
      exact after_except_pure.mpr ⟨Charged.refl calls, Follows.refl o w, rfl⟩
  | some start =>
      simp only [after_except_bind]
      apply After.imp (after_fill_charged h hready start)
      intro r p' hpost
      rcases p' with ⟨t, q⟩
      rcases hpost with ⟨hcharged, hw', hr⟩
      cases r with
      | error e => exact ⟨hcharged, hw', hr⟩
      | ok _ =>
          rcases hr with ⟨batch, hbatch, ht⟩
          simp only [after_request_modify]
          refine after_except_pure.mpr ⟨hcharged, hw', batch, hbatch, ?_⟩
          rw [show t = _ from ht]

/-- Before the first entry of the series no more than one page is read. -/
theorem after_fetchUntil_charged {goal : Instant} {p : State V × (List Call × W)}
    (hready : o.ready p.2.2) (hnone : forall e, e ∈ o.series p.2.2 -> goal < e.key)
    (mark : Bookmark) :
    After (replica.recorded.fetchUntil goal mark).run p
      (fun _ p' => Charged 0 1 p.2.1 p'.2.1) := by
  have hsource := h.source.batches.recorded
  rw [fetchUntil]
  apply after_except_bind.mpr
  apply After.imp ((after_fetch (p := p) hsource hready mark).and
    (after_fetch_charged replica mark p))
  intro r p₁ hpost
  rcases hpost with ⟨⟨-, hr, -⟩, hcharged⟩
  cases r with
  | error e => exact hcharged
  | ok page =>
      dsimp only
      split
      · exact after_except_pure.mpr hcharged
      · rename_i newest hnewest
        rcases p₁ with ⟨s₁, q₁⟩
        apply after_except_bind.mpr
        apply after_request_lift.mpr
        apply After.imp (after_onward_charged replica mark newest.key q₁)
        intro following q₂ hcharged₂
        have hall := hcharged.trans hcharged₂
        cases following with
        | none => exact after_except_pure.mpr hall
        | some following =>
            rcases hr with ⟨batch, hbatch, -, rfl⟩
            have hpage := hbatch.mem_kept.mp (Series.newest?_eq_some_iff.mp hnewest).1
            have hbeyond := hnone newest (Series.mem_of_mem_page hpage).1
            have hstop : ¬ newest.key < goal := Std.not_lt.mpr (Std.le_of_lt hbeyond)
            simp only [hstop, decide_false, Bool.and_false]
            exact after_except_pure.mpr hall

theorem after_resolveForward_charged {p : State V × (List Call × W)} (hready : o.ready p.2.2)
    (hnone : forall e, e ∈ o.series p.2.2 -> key < e.key) :
    After (replica.recorded.resolveForward key).run p
      (fun _ p' => Within 0 1 p.2.1 p'.2.1) := by
  rcases p with ⟨s, calls, w⟩
  unfold resolveForward
  simp only [after_except_bind, after_request_get]
  split
  · simp only [after_except_bind]
    apply After.imp (after_fetchUntil_charged h (p := (s, (calls, w))) hready hnone _)
    intro r p₁ hcharged
    rcases p₁ with ⟨s₁, q₁⟩
    have hwithin : Within 0 1 calls q₁.1 := hcharged.within (Nat.le_refl 0) (Nat.le_refl 1)
    cases r with
    | error e => exact hwithin
    | ok _ =>
        simp only [after_request_modify, after_request_get]
        exact after_except_pure.mpr hwithin
  · simp only [after_except_bind, after_request_modify, after_request_get]
    exact after_except_pure.mpr (Within.refl 0 1 calls)

theorem after_resolve_charged {p : State V × (List Call × W)} (hready : o.ready p.2.2)
    (key : Instant) :
    After (replica.recorded.resolve key).run p (fun _ p' => Within 1 1 p.2.1 p'.2.1) := by
  rcases p with ⟨s, calls, w⟩
  unfold resolve
  simp only [after_except_bind, after_request_get]
  split
  · simp only [after_except_bind, after_request_modify]
    exact after_except_pure.mpr (Within.refl 1 1 calls)
  · simp only [after_except_bind, after_request_modify]
    apply After.imp (after_probe_charged h hready key)
    intro r p₁ hpost
    rcases p₁ with ⟨s₁, calls₁, w₁⟩
    rcases hpost with ⟨-, hprobe, hw₁, hr⟩
    have hready₁ := hw₁.ready hready
    rcases r with e | _ | latest
    · exact hprobe.within (Nat.le_refl 1) (Nat.zero_le 1)
    · have hnone : (o.series w).latestUpTo key = none := Eq.symm hr
      have hbeyond : forall e, e ∈ o.series w₁ -> key < e.key := by
        rw [hw₁.series]
        exact fun e he => Series.latestUpTo_eq_none_iff.mp hnone e he
      apply After.imp (after_resolveForward_charged h (p := (s₁, (calls₁, w₁))) hready₁ hbeyond)
      exact fun _ _ hwithin => hprobe.trans_within hwithin
    · have hlatest : (o.series w).latestUpTo key = some latest := Eq.symm hr
      apply After.imp (after_resolveLatest_charged h hready₁
        (Series.latestUpTo_eq_some_iff.mp hlatest).1.2)
      intro r' p₂ hpost
      have hgap : (s₁.gapStart latest).toList.length ≤ 1 := by
        cases s₁.gapStart latest <;> simp
      exact (hprobe.trans hpost.1).within (Nat.le_refl 1) (by omega)

/-- Whatever a replica remembers, a lookup makes at most one probe and at most one load. -/
theorem after_lookup_charged {p : State V × (List Call × W)} (hready : o.ready p.2.2)
    (key : Instant) :
    After (replica.recorded.lookup key).run p (fun _ p' => Within 1 1 p.2.1 p'.2.1) := by
  rcases p with ⟨s, calls, w⟩
  unfold lookup
  apply after_except_bind.mpr
  apply after_except_lift.mpr
  apply After.imp (after_sync_recorded h.pages hready)
  intro _ p₁ hpost
  rcases p₁ with ⟨s₁, calls₁, w₁⟩
  rcases hpost with ⟨-, rfl, hw₁⟩
  simp only [after_except_bind, after_request_get]
  split
  · simp only [after_except_bind, after_request_modify]
    exact after_except_pure.mpr (Within.refl 1 1 _)
  · unfold announcing
    apply after_except_mk.mpr
    apply after_bind.mpr
    apply after_except_bind.mpr
    apply After.imp (after_resolve_charged h (p := (s₁, (calls₁, w₁))) (hw₁.ready hready) key)
    intro r p₂ hwithin
    rcases p₂ with ⟨s₂, q₂⟩
    have hannounced : forall (r : Except QueryError (Option (Entry V))) (t : State V),
        After (do replica.recorded.announce; return r) (t, q₂)
          (fun _ p' => Within 1 1 calls₁ p'.2.1) := by
      intro r t
      apply after_bind.mpr
      apply After.imp (after_recorded_announce (K := fun _ => True)
        (fun _ _ _ => after_of_forall fun _ _ => trivial) trivial)
      intro _ p₃ hpost
      exact after_pure.mpr (hpost.1 ▸ hwithin)
    cases r with
    | error e => exact hannounced _ _
    | ok found =>
        apply after_except_bind.mpr
        apply after_request_modify.mpr
        exact after_except_pure.mpr (hannounced _ _)

end Lookups

end Replica
end AsOf
