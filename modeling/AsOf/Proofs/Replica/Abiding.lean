import AsOf.Proofs.Replica.Reading
import AsOf.Proofs.Replica.Renewal

/-!
# What a replica abides by

Nothing at all is assumed here of what a source answers.  A replica stores what an answer gives
it to store as soon as it has the answer, so an account that is kept of the answers is in step
with what is loaded and pending again before anything else happens.  What is in step in this way
stays so in whole lookups and whole pulls, whether they fail or not.

Whatever the answers are, a lookup names no entry after its key, and a scan yields entries that
ascend, and nothing after a failure.
-/

namespace AsOf
namespace Replica

variable {m : Type -> Type} [Monad m] {V W : Type} [Performs m W] {replica : Replica m V}
  {J : State V × W -> Prop} {p : State V × W} {s : State V} {key start : Instant}

/-!
## Answers of a source
-/

def named {ε : Type} (key : Instant) : Except ε (Option (Entry V)) -> Option (Entry V)
  | .ok (some latest) => if key < latest.key then none else some latest
  | _ => none

def State.told {ε : Type} (s : State V) (key : Instant) (r : Except ε (Option (Entry V))) :
    State V :=
  (named key r).elim s s.store

def State.handed {ε : Type} (s : State V) (start : Instant) : Except ε (List (Entry V)) -> State V
  | .ok batch => s.absorbed start batch
  | .error _ => s

def NotAfter (key : Instant) (found : Option (Entry V)) : Prop :=
  forall e, found = some e -> e.key ≤ key

theorem notAfter_latestUpTo (series : Series V) (key : Instant) :
    NotAfter key (series.latestUpTo key) :=
  fun _ he => (Series.latestUpTo_eq_some_iff.mp he).1.2

theorem le_of_mem_kept {batch : List (Entry V)} {e : Entry V} (he : e ∈ kept start batch) :
    start ≤ e.key := by
  have hfirst := Series.mem_of_mem_ofFirsts he
  simpa using (List.mem_filter.mp hfirst).2

section Rules

variable {α β : Type} {w : W} {good : β -> State V -> Prop}

theorem Keeps.asked {question : ExceptT String m α} {f : α -> Action m V β}
    (h : After question.run w fun r w' => match r with
      | .ok a => Keeps J (f a) (s, w') good
      | .error _ => J (s, w')) :
    Keeps J (Replica.ask key question >>= f) (s, w) good := by
  apply after_except_bind.mpr
  apply after_request_handOn.mpr
  apply after_except_adapt.mpr
  apply After.imp h
  intro r w' hr
  cases r with
  | ok a => exact hr
  | error cause => exact ⟨hr, trivial⟩

theorem Keeps.looked {x : m α} {f : α -> Action m V β}
    (h : After x w fun a w' => Keeps J (f a) (s, w') good) :
    Keeps J (liftM x >>= f) (s, w) good := by
  apply after_except_bind.mpr
  apply after_request_lift.mpr
  exact h

theorem Keeps.got {f : State V -> Action m V β} (h : Keeps J (f s) (s, w) good) :
    Keeps J (MonadState.get >>= f) (s, w) good := by
  apply after_except_bind.mpr
  apply after_request_get.mpr
  exact h

theorem keeps_modified {g : State V -> State V} {f : PUnit -> Action m V β}
    (h : Keeps J (f ⟨⟩) (g s, w) good) : Keeps J (modify g >>= f) (s, w) good := by
  apply after_except_bind.mpr
  apply after_request_modify.mpr
  exact h

theorem Keeps.absorbed {batch : List (Entry V)} {f : Series V -> Action m V β}
    (h : Keeps J (f (kept start batch)) (s.absorbed start batch, w) good) :
    Keeps J (absorb start batch >>= f) (s, w) good := by
  apply after_except_bind.mpr
  unfold absorb
  apply after_except_bind.mpr
  apply after_request_modify.mpr
  exact after_except_pure.mpr h

end Rules

/--
Something that every call of a replica keeps up, as soon as the answer is stored, and that does
not hang on the coverage, the horizon seen, the mark of a start or the counters.
-/
structure Abides (replica : Replica m V) (J : State V × W -> Prop) : Prop where
  epoch : forall s w, J (s, w) ->
    After replica.epoch.current w (fun n w' => J (s.observeEpoch n, w'))
  horizon : forall s w, J (s, w) ->
    After replica.horizon.highest w (fun bound w' => J (s.observeBound bound, w'))
  latestUpTo : forall s w key, J (s, w) ->
    After (replica.source.latestUpTo key).run w (fun r w' => J (s.told key r, w'))
  batchFrom : forall s w start, J (s, w) ->
    After (replica.source.batchFrom start).run w (fun r w' => J (s.handed start r, w'))
  batchLimit : forall s w, J (s, w) ->
    After replica.source.batchLimit w (fun _ w' => J (s, w'))
  nextKey : forall s w key, J (s, w) ->
    After (replica.source.nextKey key) w (fun _ w' => J (s, w'))
  aside : forall s t w, t.loaded = s.loaded -> t.pending = s.pending -> t.memo = s.memo ->
    t.epoch = s.epoch -> J (s, w) -> J (t, w)
  remember : forall s w key found, NotAfter key found -> J (s, w) ->
    J (s.remember replica.settings.memoCapacity key found, w)

section Abiding

variable (h : replica.Abides J)

include h

theorem Abides.count (hp : J p) (f : Counters -> Counters) : J (p.1.count f, p.2) :=
  h.aside p.1 _ p.2 rfl rfl rfl rfl hp

theorem Abides.cover (hp : J p) (span : Span) : J (p.1.cover span, p.2) :=
  h.aside p.1 _ p.2 rfl rfl rfl rfl hp

/-!
## Reading the source
-/

theorem Abides.probe (hp : J p) (key : Instant) :
    After (replica.probe key).run p (fun r p' => J (p'.1.told key r, p'.2)) := by
  have hcounted : J (p.1.countProbe, p.2) := h.count hp _
  rcases p with ⟨s, w⟩
  unfold Replica.probe ask
  simp only [after_except_bind, after_request_modify, after_request_handOn, after_except_adapt]
  apply After.imp (h.latestUpTo s.countProbe w key hcounted)
  intro r w' hr
  rcases r with message | _ | latest <;> exact hr

theorem Abides.fill (hp : J p) (start : Instant) :
    Keeps J (replica.fill start) p (fun _ _ => True) := by
  unfold Replica.fill
  apply (Keeps.modify (h.count hp _)).bind
  intro _ p₁ hp₁ _
  rcases p₁ with ⟨s, w⟩
  apply Keeps.asked
  apply After.imp (h.batchFrom s w start hp₁)
  intro r w' hr
  cases r with
  | error cause => exact hr
  | ok batch =>
      apply Keeps.absorbed
      split
      · exact (Keeps.modify (h.cover hr _)).imp fun _ _ _ => trivial
      · exact .pure hr trivial

theorem Abides.fetch (hp : J p) (mark : Bookmark) :
    Keeps J (replica.fetch mark) p
      (fun page _ => forall e, e ∈ page.entries -> mark.start ≤ e.key) := by
  unfold Replica.fetch
  apply (Keeps.modify (h.count hp _)).bind
  intro _ p₁ hp₁ _
  rcases p₁ with ⟨s, w⟩
  apply Keeps.asked
  apply After.imp (h.batchFrom s w mark.start hp₁)
  intro r w₁ hr
  cases r with
  | error cause => exact hr
  | ok batch =>
      apply Keeps.looked
      apply After.imp (h.batchLimit _ w₁ hr)
      intro limit w₂ hr'
      apply Keeps.absorbed
      split
      · exact (Keeps.modify (h.cover hr' _)).bind fun _ _ hp₅ _ => .pure hp₅ fun e => le_of_mem_kept
      · exact .pure hr' fun e => le_of_mem_kept

theorem Abides.onward (hp : J p) (mark : Bookmark) (newest : Instant) :
    After (replica.onward mark newest) p.2 (fun _ w' => J (p.1, w')) := by
  unfold Replica.onward
  apply after_bind.mpr
  apply After.imp (h.nextKey p.1 p.2 newest hp)
  intro key w' hp'
  split <;> exact after_pure.mpr hp'

theorem Abides.nextPage (hp : J p) (mark : Bookmark) (full : Bool) (newest : Instant) :
    After (replica.nextPage mark full newest) p.2 (fun _ w' => J (p.1, w')) := by
  unfold Replica.nextPage
  split
  · exact h.onward hp mark newest
  · exact after_pure.mpr hp

theorem Abides.fetchUntil (goal : Instant) (mark : Bookmark) {p : State V × W} (hp : J p) :
    Keeps J (replica.fetchUntil goal mark) p (fun _ _ => True) := by
  rw [Replica.fetchUntil]
  apply (h.fetch hp mark).bind
  intro page p₁ hp₁ _
  split
  · exact .pure hp₁ trivial
  · rename_i newest _
    have honward : After (replica.onward mark newest.key) p₁.2
        (fun _ w' => J (p₁.1, w') ∧ True) :=
      After.imp (h.onward hp₁ mark newest.key) fun _ _ hJ => ⟨hJ, trivial⟩
    apply (Keeps.look honward).bind
    intro following p₂ hp₂ _
    cases following with
    | none => exact .pure hp₂ trivial
    | some following =>
        dsimp only
        split
        · exact Abides.fetchUntil goal following.val hp₂
        · exact .pure hp₂ trivial
termination_by mark.start.remaining
decreasing_by exact Instant.remaining_lt_of_lt following.property

/-!
## Lookups
-/

theorem Abides.resolveForward (hp : J p) (key : Instant) :
    Keeps J (replica.resolveForward key) p (fun found _ => NotAfter key found) := by
  have hlast : forall (isCold : Bool) (p : State V × W), J p -> Keeps J (do
      modify fun s => { s with loadedFromStart := s.loadedFromStart || isCold }
      return (<- get).loaded.latestUpTo key : Action m V (Option (Entry V))) p
      (fun found _ => NotAfter key found) := by
    intro isCold p hp
    apply (Keeps.modify (h.aside p.1 _ p.2 rfl rfl rfl rfl hp)).bind
    intro _ p₁ hp₁ _
    exact (Keeps.get hp₁).bind fun s _ hp₂ _ => .pure hp₂ (notAfter_latestUpTo s.loaded key)
  unfold Replica.resolveForward
  apply (Keeps.get hp).bind
  intro before p₁ hp₁ _
  dsimp only
  split
  · exact (h.fetchUntil key _ hp₁).bind fun _ p₂ hp₂ _ => hlast _ p₂ hp₂
  · exact hlast _ p₁ hp₁

/-- An entry after the key is refused; any other one is stored before the gap is filled. -/
theorem Abides.resolveLatest {latest : Entry V}
    (hp : J (p.1.told key (.ok (some latest) : Except QueryError _), p.2)) :
    Keeps J (replica.resolveLatest key latest) p (fun found _ => NotAfter key found) := by
  unfold Replica.resolveLatest
  unfold State.told named at hp
  dsimp only at hp
  split
  · rename_i hlt
    rw [if_pos hlt] at hp
    exact after_except_throw.mpr ⟨hp, trivial⟩
  · rename_i hle
    rw [if_neg hle] at hp
    have hlast : forall p₂, J p₂ -> Keeps J (do
        modify fun s => s.cover ⟨latest.key, .included key⟩
        return some latest : Action m V (Option (Entry V))) p₂
        (fun found _ => NotAfter key found) := by
      intro p₂ hp₂
      apply (Keeps.modify (h.cover hp₂ _)).bind
      intro _ p₃ hp₃ _
      refine .pure hp₃ fun e he => ?_
      cases he
      exact Std.not_lt.mp hle
    rcases p with ⟨s, w⟩
    apply Keeps.got
    apply (Keeps.modify hp).bind
    intro _ p₁ hp₁ _
    dsimp only
    split
    · exact (h.fill hp₁ _).bind fun _ p₂ hp₂ _ => hlast p₂ hp₂
    · exact hlast p₁ hp₁

theorem Abides.resolve (hp : J p) (key : Instant) :
    Keeps J (replica.resolve key) p (fun found _ => NotAfter key found) := by
  unfold Replica.resolve
  apply (Keeps.get hp).bind
  intro s p₁ hp₁ _
  split
  · apply (Keeps.modify (h.count hp₁ _)).bind
    exact fun _ _ hp₂ _ => .pure hp₂ (notAfter_latestUpTo s.loaded key)
  · apply (Keeps.modify (h.count hp₁ _)).bind
    intro _ p₂ hp₂ _
    apply after_except_bind.mpr
    apply After.imp (h.probe hp₂ key)
    intro r p₃ hr
    rcases r with e | _ | latest
    · exact ⟨hr, trivial⟩
    · exact h.resolveForward hr key
    · exact h.resolveLatest hr

end Abiding

/-!
## Scans
-/

structure Scan.From (first : Instant) (scan : Scan V) : Prop where
  next : forall mark, scan.next = some mark -> first ≤ mark.start
  buffer : forall e, e ∈ scan.buffer -> first ≤ e.key

structure Scan.Gives (first : Instant) (scan : Scan V)
    (r : Option (Except QueryError (Entry V)) × Scan V) : Prop where
  from_first : r.2.From first
  outcome :
    match r.1 with
    | some (.ok e) => first ≤ e.key ∧ scan.isNews e = true ∧ r.2.lastYielded = some e.key ∧
        ¬ Reading.Spent scan
    | some (.error _) => Reading.Spent r.2 ∧ ¬ Reading.Spent scan
    | none => Reading.Spent r.2

theorem Scan.from_ended (first : Instant) (scan : Scan V) : scan.ended.From first where
  next _ hmark := by cases hmark
  buffer _ he := by cases he

theorem Scan.from_startAt (key : Instant) : (startAt key : Scan V).From key where
  next mark hmark := by
    cases hmark
    exact Std.le_refl key
  buffer _ he := by cases he

theorem Scan.gives_ended (first : Instant) (scan : Scan V) :
    scan.Gives first (none, scan.ended) where
  from_first := scan.from_ended first
  outcome := ⟨rfl, rfl⟩

theorem Scan.gives_failure (first : Instant) {scan : Scan V} (hgoing : scan.next ≠ none)
    (e : QueryError) : scan.Gives first (some (.error e), scan.ended) where
  from_first := scan.from_ended first
  outcome := ⟨⟨rfl, rfl⟩, fun hspent => hgoing hspent.1⟩

theorem Scan.news_eq_cons {scan : Scan V} {e : Entry V} {rest : List (Entry V)}
    (hnews : scan.news = e :: rest) :
    scan.isNews e = true ∧ (e :: rest).Sublist scan.buffer := by
  have hsuffix : (e :: rest).Sublist scan.buffer := hnews ▸ (List.dropWhile_sublist _)
  have hhead := List.head?_dropWhile_not (fun e => !scan.isNews e) scan.buffer
  rw [show scan.buffer.dropWhile _ = e :: rest from hnews] at hhead
  exact ⟨by simpa using hhead, hsuffix⟩

theorem Scan.gives_news {first : Instant} {scan : Scan V} {e : Entry V} {rest : List (Entry V)}
    (hscan : scan.From first) (hnews : scan.news = e :: rest) :
    scan.Gives first (some (.ok e), scan.yielded e rest) := by
  rcases scan.news_eq_cons hnews with ⟨hisNews, hsub⟩
  have hin : e ∈ scan.buffer := hsub.subset (List.mem_cons_self ..)
  constructor
  · exact ⟨hscan.next, fun x hx => hscan.buffer x (hsub.subset (List.mem_cons_of_mem e hx))⟩
  · refine ⟨hscan.buffer e hin, hisNews, rfl, fun hspent => ?_⟩
    rw [hspent.2] at hin
    cases hin

theorem Scan.from_earliest (scan : Scan V) : scan.From .earliest where
  next mark _ := Instant.earliest_le mark.start
  buffer e _ := Instant.earliest_le e.key

/-!
## Requests

Between two requests nothing is pending.  A request begins with a look at the epoch, so what the
replica remembers need not be in step before it, if it is forgotten then.
-/

structure AtRest (J : State V × W -> Prop) (p : State V × W) : Prop where
  kept : J p
  pending : p.1.pending = []

def Announces (replica : Replica m V) (J : State V × W -> Prop) : Prop :=
  forall p, J p -> After replica.announce p (fun _ p' => AtRest J p')

theorem Abides.sync (h : replica.Abides J) (hp : AtRest J p) :
    After replica.sync p (fun _ p' => AtRest J p') := by
  rcases p with ⟨s, w⟩
  unfold Replica.sync
  simp only [after_bind, after_state_monadLift, after_state_modify]
  apply After.imp (h.epoch s w hp.kept)
  intro n w₁ hw₁
  apply After.imp (h.horizon _ w₁ hw₁)
  exact fun bound w₂ hw₂ => ⟨hw₂, (s.pending_observed n bound).trans hp.pending⟩

theorem Announces.announcing {α : Type} {x : Action m V α} {good : α -> Prop}
    (ha : replica.Announces J) (hx : Keeps J x p (fun a _ => good a)) :
    After (replica.announcing x).run p (fun r p' => AtRest J p' ∧ WhenOk good r) := by
  unfold Replica.announcing
  apply after_except_mk.mpr
  simp only [after_bind, after_pure]
  apply After.imp hx
  intro r p' hpost
  apply After.imp (ha p' hpost.1)
  exact fun _ p'' hp'' => ⟨hp'', hpost.2⟩

section Requests

variable (h : replica.Abides J) (ha : replica.Announces J)

include h ha

theorem Abides.lookup (hp : After replica.sync p (fun _ p' => AtRest J p')) (key : Instant) :
    After (replica.lookup key).run p (fun r p' => AtRest J p' ∧ WhenOk (fun found =>
      NotAfter key found ∨ exists q : State V × W, J q ∧ q.1.memo.find? key = some found) r) := by
  unfold Replica.lookup
  apply after_except_bind.mpr
  apply after_except_lift.mpr
  apply After.imp hp
  intro _ p₁ hp₁
  rcases p₁ with ⟨s, w⟩
  apply after_except_bind.mpr
  apply after_request_get.mpr
  dsimp only
  split
  · rename_i found hfound
    apply after_except_bind.mpr
    apply after_request_modify.mpr
    refine after_except_pure.mpr ⟨⟨h.count hp₁.kept _, hp₁.pending⟩, Or.inr ⟨_, hp₁.kept, hfound⟩⟩
  · have hresolved : Keeps J (do
        let found <- replica.resolve key
        modify fun s => s.remember replica.settings.memoCapacity key found
        return found) (s, w) (fun found _ => NotAfter key found) := by
      apply (h.resolve hp₁.kept key).bind
      intro found p₂ hp₂ hfound
      apply (Keeps.modify (h.remember _ _ key found hfound hp₂)).bind
      exact fun _ _ hp₃ _ => .pure hp₃ hfound
    apply After.imp (ha.announcing hresolved)
    exact fun r p' hpost => ⟨hpost.1, hpost.2.imp fun _ => Or.inl⟩

theorem Abides.loadPage (hp : After replica.sync p (fun _ p' => AtRest J p')) (mark : Bookmark) :
    After (replica.loadPage mark).run p (fun r p' => AtRest J p' ∧ WhenOk (fun page =>
      forall e, e ∈ page.entries -> mark.start ≤ e.key) r) := by
  unfold Replica.loadPage
  apply after_except_bind.mpr
  apply after_except_lift.mpr
  apply After.imp hp
  exact fun _ p₁ hp₁ => ha.announcing (h.fetch hp₁.kept mark)

/--
A pull leaves everything as it is or at rest, and gives what it gives in order, whatever pages
it reads.
-/
theorem Abides.pull (first : Instant) (scan : Scan V) {p : State V × W}
    (hp : After replica.sync p (fun _ p' => AtRest J p')) (hscan : scan.From first) :
    After (replica.pull scan) p (fun r p' => (p' = p ∨ AtRest J p') ∧ scan.Gives first r) := by
  rw [Replica.pull]
  split
  · rename_i e rest hnews
    exact after_pure.mpr ⟨Or.inl rfl, Scan.gives_news hscan hnews⟩
  · split
    · exact after_pure.mpr ⟨Or.inl rfl, scan.gives_ended first⟩
    · rename_i mark hmark
      have hgoing : scan.next ≠ none := by simp [hmark]
      apply after_bind.mpr
      apply After.imp (h.loadPage ha hp mark)
      intro r p₁ hpost
      rcases hpost with ⟨hp₁, hr⟩
      cases r with
      | error e =>
          exact after_pure.mpr ⟨Or.inr hp₁, Scan.gives_failure first hgoing e⟩
      | ok page =>
          dsimp only
          split
          · exact after_pure.mpr ⟨Or.inr hp₁, scan.gives_ended first⟩
          · rename_i newest hnewest
            rcases p₁ with ⟨s₁, w₁⟩
            apply after_bind.mpr
            apply after_state_monadLift.mpr
            apply After.imp (h.nextPage (p := (s₁, w₁)) hp₁.kept mark page.full newest.key)
            intro next w₂ hw₂
            have hp₂ : AtRest J (s₁, w₂) := ⟨hw₂, hp₁.pending⟩
            have hstart := hscan.next mark hmark
            have hturned : (scan.turned page.entries (next.map Subtype.val)).From first := by
              constructor
              · intro following hfollowing
                rcases Option.map_eq_some_iff.mp hfollowing with ⟨next, -, rfl⟩
                exact Std.le_trans hstart (Std.le_of_lt next.property)
              · intro e he
                exact Std.le_trans hstart (hr e (Series.mem_toList.mp he))
            have hpull := Abides.pull first (scan.turned page.entries (next.map Subtype.val))
              (h.sync hp₂) hturned
            apply After.imp hpull
            intro r p₃ hpost
            rcases hpost with ⟨hp₃, hgives⟩
            refine ⟨Or.inr ?_, hgives.from_first, ?_⟩
            · rcases hp₃ with rfl | hrest
              · exact hp₂
              · exact hrest
            · have houtcome := hgives.outcome
              rcases r with ⟨_ | e | e, left⟩
              · exact houtcome
              · exact ⟨houtcome.1, fun hspent => hgoing hspent.1⟩
              · exact ⟨houtcome.1, houtcome.2.1, houtcome.2.2.1, fun hspent => hgoing hspent.1⟩
termination_by scan.measure
decreasing_by exact Scan.measure_turned_lt ‹_› page.entries next

end Requests

/-!
## Errands
-/

def Errand.Gentle {A : Type} : Errand V A -> Prop
  | .done => True
  | .lookup _ next => forall r, (next r).Gentle
  | .pull _ next => forall r, (next r).Gentle
  | .clear _ => False
  | .act _ next => forall x, (next x).Gentle

/-- An errand leaves everything at rest, unless it clears what must not be cleared. -/
theorem Abides.conduct {A : Type} {effect : A -> m A} (h : replica.Abides J)
    (ha : replica.Announces J)
    (heffect : forall x s w, J (s, w) -> After (effect x) w (fun _ w' => J (s, w')))
    (errand : Errand V A)
    (hclear : errand.Gentle ∨ forall s w, J (s, w) -> J (s.forget, w)) {p : State V × W}
    (hp : AtRest J p) :
    After (errand.conduct replica effect) p (fun _ p' => AtRest J p') := by
  induction errand generalizing p with
  | done => exact after_pure.mpr hp
  | lookup key next ih =>
      apply after_bind.mpr
      apply After.imp (h.lookup ha (h.sync hp) key)
      exact fun r p' hpost => ih r (hclear.imp (fun hgentle => hgentle r) id) hpost.1
  | pull scan next ih =>
      apply after_bind.mpr
      apply After.imp (h.pull ha .earliest scan (h.sync hp) scan.from_earliest)
      intro r p' hpost
      have hp' : AtRest J p' := hpost.1.elim (fun heq => heq ▸ hp) id
      exact ih r (hclear.imp (fun hgentle => hgentle r) id) hp'
  | clear next ih =>
      have hforget := hclear.resolve_left id
      rcases p with ⟨s, w⟩
      apply after_bind.mpr
      apply after_state_modify.mpr
      exact ih (Or.inr hforget) ⟨hforget s w hp.kept, hp.pending⟩
  | act x next ih =>
      rcases p with ⟨s, w⟩
      apply after_bind.mpr
      apply after_state_monadLift.mpr
      apply After.imp (heffect x s w hp.kept)
      exact fun y w' hw' => ih y (hclear.imp (fun hgentle => hgentle y) id) ⟨hw', hp.pending⟩

end Replica
end AsOf
