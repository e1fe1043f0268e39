import AsOf.Proofs.Engine.Confined
import AsOf.Proofs.Replica.Abiding
import AsOf.Proofs.Replica.Archive
import AsOf.Proofs.Replica.Failure

/-!
# Replicas over sources of any kind

A source may answer whatever it likes: batches out of order and from before their start, entries
that come and go, next keys that lead back.  Still a replica names no entry after the instant
asked about, its scans ascend and end with their first failure, and an engine over it has no
cause to report that it was given an entry from after an instant.
-/

namespace AsOf
namespace Replica

variable {m : Type -> Type} [Monad m] {V W A α : Type} [Performs m W] {replica : Replica m V}
  {s : State V} {p : State V × W} {w : W}

/-!
## Memories that are right about instants
-/

def State.Punctual (s : State V) : Prop :=
  forall key found, s.memo.find? key = some found -> NotAfter key found

abbrev InTime (p : State V × W) : Prop :=
  p.1.Punctual

theorem State.punctual_of_memo (h : s.memo = .empty) : s.Punctual := by
  intro key found hfound
  rw [h] at hfound
  cases hfound

theorem State.Punctual.remember {key : Instant} {found : Option (Entry V)} (h : s.Punctual)
    (capacity : Positive) (hfound : NotAfter key found) :
    (s.remember capacity key found).Punctual := by
  intro other answer hanswer
  by_cases hkey : other = key
  · subst hkey
    have hself := s.memo.find?_remember_self capacity other found
    cases hself.symm.trans hanswer
    exact hfound
  · have hother := s.memo.find?_remember_of_ne capacity found hkey
    rw [show (s.remember capacity key found).memo.find? other = _ from hother] at hanswer
    split at hanswer
    · cases hanswer
    · exact h other answer hanswer

theorem State.memo_foldl_store (s : State V) (entries : List (Entry V)) :
    (entries.foldl State.store s).memo = s.memo := by
  induction entries generalizing s with
  | nil => rfl
  | cons e rest ih => exact ih (s.store e)

theorem abides_punctual (replica : Replica m V) :
    replica.Abides InTime where
  epoch s w h := after_of_forall fun n _ => by
    unfold State.observeEpoch
    split
    · exact h
    · exact State.punctual_of_memo rfl
  horizon s w h := after_of_forall fun bound _ => by
    unfold State.observeBound
    split
    · exact h
    · exact State.punctual_of_memo rfl
  latestUpTo s w key h := after_of_forall fun r _ => by
    unfold State.told
    cases named key r <;> exact h
  batchFrom s w start h := after_of_forall fun r _ => by
    cases r with
    | error cause => exact h
    | ok batch =>
        have hmemo : ((s.countLoaded batch.length).storePage (kept start batch)).memo = s.memo :=
          State.memo_foldl_store _ _
        intro key found hfound
        exact h key found (hmemo ▸ hfound)
  batchLimit s w h := after_of_forall fun _ _ => h
  nextKey s w key h := after_of_forall fun _ _ => h
  aside s t w _ _ hmemo _ h := by
    intro key found hfound
    rw [show t.memo = s.memo from hmemo] at hfound
    exact h key found hfound
  remember s w key found hfound h := h.remember _ hfound

/-!
## Listeners
-/

theorem announces_of_listener {J : State V × W -> Prop}
    (hnone : forall s w, J (s, w) -> J ({ s with pending := [] }, w))
    (hl : forall e p, AtRest J p -> After (replica.listener e) p (fun _ p' => AtRest J p')) :
    replica.Announces J := by
  intro p hp
  rcases p with ⟨s, w⟩
  unfold announce
  apply after_bind.mpr
  apply after_state_modifyGet.mpr
  exact after_forM hl s.pending ⟨hnone s w hp, rfl⟩

section Attended

variable {hear : Entry V -> m (Errand V A)} {effect : A -> m A}

/-- Listeners leave a memory right, whatever they go about, at every depth. -/
theorem announces_attended (replica : Replica m V) (depth : Nat) :
    (replica.attended hear effect depth).Announces InTime := by
  have hnone : forall (s : State V) (w : W), s.Punctual ->
      ({ s with pending := [] } : State V).Punctual := fun _ _ h => h
  induction depth with
  | zero =>
      apply announces_of_listener hnone
      intro e p hp
      rcases p with ⟨s, w⟩
      apply after_bind.mpr
      apply after_state_monadLift.mpr
      exact after_of_forall fun _ _ => after_pure.mpr ⟨hp.kept, hp.pending⟩
  | succ depth ih =>
      apply announces_of_listener hnone
      intro e p hp
      rcases p with ⟨s, w⟩
      apply after_bind.mpr
      apply after_state_monadLift.mpr
      apply after_of_forall
      intro errand w'
      apply (abides_punctual (replica.attended hear effect depth)).conduct ih
      · exact fun _ _ _ h => after_of_forall fun _ _ => h
      · exact Or.inr fun s w _ => State.punctual_of_memo rfl
      · exact ⟨hp.kept, hp.pending⟩

end Attended

/-!
## Requests
-/

abbrev AtEase (p : State V × W) : Prop :=
  AtRest InTime p

section Requests

variable (ha : replica.Announces InTime)

include ha

theorem after_lookup_punctual (hp : AtEase p) (key : Instant) :
    After (replica.lookup key).run p (fun r p' => AtEase p' ∧ WhenOk (NotAfter key) r) := by
  have habides : replica.Abides InTime := abides_punctual replica
  apply After.imp (habides.lookup ha (habides.sync hp) key)
  intro r p' hpost
  refine ⟨hpost.1, hpost.2.imp fun found hfound => ?_⟩
  rcases hfound with hnot | ⟨q, hq, hremembered⟩
  · exact hnot
  · exact hq key found hremembered

theorem after_pull_punctual (hp : AtEase p) {first : Instant} {scan : Scan V}
    (hscan : scan.From first) :
    After (replica.pull scan) p (fun r p' => AtEase p' ∧ scan.Gives first r) := by
  have habides : replica.Abides InTime := abides_punctual replica
  apply After.imp (habides.pull ha first scan (habides.sync hp) hscan)
  exact fun r p' hpost => ⟨hpost.1.elim (fun heq => heq ▸ hp) id, hpost.2⟩

/-!
## Engines over a replica
-/

/-- A replica as an engine sees it, under a horizon and an epoch that may be others than its own. -/
def under (replica : Replica m V) (horizon : Horizon m) (epoch : Epoch m) :
    View (StateT (State V) m) V where
  archive := replica.archive
  horizon := horizon.hoist StateT.lift
  epoch := epoch.hoist StateT.lift

def Punctual (e : QueryError) : Prop :=
  forall key units, e ≠ .breach key units .entryAfterKey

omit ha in
theorem Own.punctual {e : QueryError} (h : Own e) : Punctual e := by
  rintro key units rfl
  cases h

theorem confines_under (horizon : Horizon m) (epoch : Epoch m) :
    (replica.under horizon epoch).Confines (AtEase (W := W)) Punctual where
  lookup key p hp := by
    apply After.imp ((after_lookup_punctual ha hp key).and (fails_lookup replica key p trivial))
    intro r p' hpost
    rcases hpost with ⟨⟨hp', hr⟩, -, herror, -⟩
    refine ⟨hp', ?_, ?_⟩
    · cases r with
      | ok found => trivial
      | error e => exact Own.punctual herror
    · refine hr.imp fun found hfound e he hlate => ?_
      exact absurd hlate (Std.not_lt.mpr (hfound e he))
  previousKey key p hp := by
    rcases p with ⟨s, w⟩
    exact after_state_monadLift.mpr (after_of_forall fun _ _ => ⟨hp.kept, hp.pending⟩)
  scanFrom key p hp := after_pure.mpr hp
  pull scan p hp := by
    apply After.imp ((after_pull_punctual ha hp scan.from_earliest).and (fails_pull replica scan p))
    exact fun r p' hpost => ⟨hpost.1.1, fun e he => Own.punctual (hpost.2 e he)⟩
  highest p hp := by
    rcases p with ⟨s, w⟩
    exact Horizon.after_hoisted.mpr (after_of_forall fun _ _ => ⟨hp.kept, hp.pending⟩)
  current p hp := by
    rcases p with ⟨s, w⟩
    exact after_state_lift.mpr (after_of_forall fun _ _ => ⟨hp.kept, hp.pending⟩)
  noData key units := fun _ _ heq => by cases heq
  keyMismatch key found := fun _ _ heq => by cases heq

/-- An engine of either kind is never given an entry after the instant that it asks about. -/
theorem after_put_punctual (horizon : Horizon m) (epoch : Epoch m) (engine : Engine.State V)
    (hp : AtEase p) (options : Options) (key : Instant) (q : Engine.Question) :
    After (q.put (replica.under horizon epoch) options key).run (engine, p)
      (fun r p' => AtEase p'.2 ∧ WhenError Punctual r) := by
  have hput := q.confined_put (confines_under ha horizon epoch)
    (fun _ _ _ _ heq => by cases heq) options key
  exact After.imp (hput (engine, p) hp) fun r p' hr => ⟨hr.1, hr.2.1⟩

end Requests

/-!
## Readings in order
-/

namespace Reading

structure Lists (first : Instant) (items : List (Except QueryError (Entry V)))
    (entries : List (Entry V)) (failure : Option QueryError) : Prop where
  items : items = entries.map .ok ++ failure.toList.map .error
  ascending : Ascending entries
  first_le : forall e, e ∈ entries -> first ≤ e.key

/-- A reading that has yielded items in order. -/
def Orderly (reading : Reading V) : Prop :=
  exists entries failure, Lists reading.first reading.items entries failure

structure Tidy (reading : Reading V) : Prop where
  begins : reading.scan.From reading.first
  orderly : exists entries failure, Lists reading.first reading.items entries failure ∧
    (Spent reading.scan ∨ failure = none ∧ forall e, e ∈ entries ->
      exists last, reading.scan.lastYielded = some last ∧ e.key ≤ last)

section Tidiness

variable {reading : Reading V}

theorem Tidy.toOrderly (h : reading.Tidy) : reading.Orderly := by
  rcases h.orderly with ⟨entries, failure, hlists, -⟩
  exact ⟨entries, failure, hlists⟩

theorem tidy_startAt (key : Instant) :
    Tidy ({ scan := .startAt key, first := key } : Reading V) where
  begins := Scan.from_startAt key
  orderly := by
    refine ⟨[], none, ⟨rfl, List.Pairwise.nil, fun e he => ?_⟩, Or.inr ⟨rfl, fun e he => ?_⟩⟩
    · cases he
    · cases he

theorem Tidy.after {r : Option (Except QueryError (Entry V)) × Scan V} (h : reading.Tidy)
    (hr : reading.scan.Gives reading.first r) : (reading.after r).Tidy := by
  rcases r with ⟨item, scan⟩
  rcases h.orderly with ⟨entries, failure, hlists, hcoming⟩
  have houtcome := hr.outcome
  refine ⟨hr.from_first, ?_⟩
  rcases item with _ | e | e
  · refine ⟨entries, failure, ⟨?_, hlists.ascending, hlists.first_le⟩, Or.inl houtcome⟩
    exact (List.append_nil _).trans hlists.items
  · rcases houtcome with ⟨hspent, hgoing⟩
    rcases hcoming.resolve_left hgoing with ⟨rfl, -⟩
    refine ⟨entries, some e, ⟨?_, hlists.ascending, hlists.first_le⟩, Or.inl hspent⟩
    show reading.items ++ [.error e] = _
    rw [hlists.items, List.append_assoc]
    rfl
  · rcases houtcome with ⟨hfirst, hnews, hlast, hgoing⟩
    rcases hcoming.resolve_left hgoing with ⟨rfl, hlasts⟩
    have hbefore : forall x, x ∈ entries -> x.key < e.key := by
      intro x hx
      rcases hlasts x hx with ⟨last, hlast, hle⟩
      have hlt : last < e.key := by simpa [Scan.isNews, hlast] using hnews
      exact Std.lt_of_le_of_lt hle hlt
    refine ⟨entries ++ [e], none, ⟨?_, ?_, ?_⟩, Or.inr ⟨rfl, ?_⟩⟩
    · show reading.items ++ [.ok e] = _
      rw [hlists.items, List.map_append]
      simp
    · refine List.pairwise_append.mpr ⟨hlists.ascending, List.pairwise_singleton .., ?_⟩
      intro x hx y hy
      cases List.mem_singleton.mp hy
      exact hbefore x hx
    · intro x hx
      rcases List.mem_append.mp hx with hold | hnew
      · exact hlists.first_le x hold
      · cases List.mem_singleton.mp hnew
        exact hfirst
    · intro x hx
      refine ⟨e.key, hlast, ?_⟩
      rcases List.mem_append.mp hx with hold | hnew
      · exact Std.le_of_lt (hbefore x hold)
      · cases List.mem_singleton.mp hnew
        exact Std.le_refl e.key

end Tidiness
end Reading

/-!
## Desks with engines
-/

namespace Desk

/-- A command to a replica, or a question to an engine over it, which may be in any state. -/
inductive Business (W V : Type) where
  | desk (c : Command W)
  | ask (engine : Engine.State V) (options : Options) (key : Instant) (q : Engine.Question)

variable {horizon : Horizon m} {epoch : Epoch m} {x : Desk W V}

def opened (replica : Replica m V) (w : W) : Desk W V :=
  let r := perform replica.start w
  { world := r.2, memory := r.1 }

def serve (replica : Replica m V) (horizon : Horizon m) (epoch : Epoch m) (x : Desk W V) :
    Business W V -> Desk W V
  | .desk c => x.step replica c
  | .ask engine options key q =>
      let r := perform (q.put (replica.under horizon epoch) options key).run (engine, x.here)
      { x with memory := r.2.2.1, world := r.2.2.2 }

/--
A lookup names no entry after its key, and a question to an engine is not answered by the failure
that an entry is after the instant asked about.
-/
def Timely (replica : Replica m V) (horizon : Horizon m) (epoch : Epoch m) (x : Desk W V) :
    Business W V -> Prop
  | .desk (.lookup key) =>
      After (replica.lookup key).run x.here (fun r _ => forall e, r = .ok (some e) -> e.key ≤ key)
  | .desk _ => True
  | .ask engine options key q =>
      After (q.put (replica.under horizon epoch) options key).run (engine, x.here) (fun r _ =>
        forall about units, r ≠ .error (.breach about units .entryAfterKey))

structure Settled (x : Desk W V) : Prop where
  memory : AtEase x.here
  readings : forall reading, reading ∈ x.readings -> reading.Tidy

theorem settled_step (ha : replica.Announces InTime)
    (hx : x.Settled) (c : Command W) : (x.step replica c).Settled := by
  cases c with
  | lookup key => exact ⟨(after_lookup_punctual ha hx.memory key).1, hx.readings⟩
  | begin key =>
      refine ⟨hx.memory, fun reading hreading => ?_⟩
      rcases List.mem_append.mp hreading with hold | hnew
      · exact hx.readings reading hold
      · cases List.mem_singleton.mp hnew
        exact Reading.tidy_startAt key
  | pull index =>
      cases hget : x.readings[index]? with
      | none => simpa [step, hget] using hx
      | some reading =>
          have htidy := hx.readings reading (List.mem_of_getElem? hget)
          have hpull := after_pull_punctual ha hx.memory htidy.begins
          simp only [step, hget]
          refine ⟨hpull.1, fun other hother => ?_⟩
          rcases List.mem_or_eq_of_mem_set hother with hold | rfl
          · exact hx.readings other hold
          · exact htidy.after hpull.2
  | clear => exact ⟨⟨State.punctual_of_memo rfl, hx.memory.pending⟩, hx.readings⟩
  | move w => exact ⟨⟨hx.memory.kept, hx.memory.pending⟩, hx.readings⟩

theorem settled_serve (ha : replica.Announces InTime)
    (hx : x.Settled) (c : Business W V) :
    x.Timely replica horizon epoch c ∧ (x.serve replica horizon epoch c).Settled := by
  cases c with
  | desk c =>
      refine ⟨?_, settled_step ha hx c⟩
      cases c with
      | lookup key =>
          unfold Timely
          apply After.imp (after_lookup_punctual ha hx.memory key)
          rintro r p' ⟨-, hr⟩ e rfl
          exact hr e rfl
      | _ => trivial
  | ask engine options key q =>
      have hput := after_put_punctual ha horizon epoch engine hx.memory options key q
      refine ⟨?_, hput.1, hx.readings⟩
      unfold Timely
      apply After.imp hput
      rintro r p' ⟨-, hr⟩ about units rfl
      exact hr about units rfl

theorem settled_opened (replica : Replica m V) (w : W) : (opened replica w).Settled := by
  have hstart : After replica.start w (fun s w' => AtEase (s, w')) := by
    unfold Replica.start
    apply after_bind.mpr
    apply after_of_forall
    intro n w₁
    apply after_bind.mpr
    apply after_of_forall
    exact fun bound w₂ => after_pure.mpr ⟨State.punctual_of_memo rfl, rfl⟩
  exact ⟨hstart, fun _ hreading => absurd hreading List.not_mem_nil⟩

/--
Over a source of any kind, under any horizon and epoch and with a listener that goes about
anything, no answer of a new replica is ever from after its instant: not that of a lookup, nor
one for which an engine would fail; and the items of every scan are in order.
-/
theorem punctual_over_any_source {hear : Entry V -> m (Errand V A)} {effect : A -> m A}
    (replica : Replica m V) (depth : Nat) (horizon : Horizon m) (epoch : Epoch m) (w : W)
    (commands : List (Business W V)) :
    let attended := replica.attended hear effect depth
    Each (serve attended horizon epoch) (Timely attended horizon epoch) (opened attended w)
        commands ∧
      Throughout (serve attended horizon epoch)
        (fun x => forall reading, reading ∈ x.readings -> reading.Orderly) (opened attended w)
        commands := by
  intro attended
  have ha : attended.Announces InTime :=
    announces_attended replica depth
  have hopened := settled_opened attended w
  have hstep : forall (x : Desk W V) (c : Business W V), x.Settled -> True ->
      x.Timely attended horizon epoch c ∧ (x.serve attended horizon epoch c).Settled :=
    fun x c hx _ => settled_serve ha hx c
  constructor
  · exact each_of_kept hstep hopened each_true
  · apply throughout_of_kept (fun x c hx hc => (hstep x c hx hc).2) _ hopened each_true
    exact fun x hx reading hreading => (hx.readings reading hreading).toOrderly

end Desk
end Replica
end AsOf
