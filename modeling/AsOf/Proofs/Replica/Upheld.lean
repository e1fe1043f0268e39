import AsOf.Proofs.Replica.Listening
import AsOf.Replica.Scan

/-!
# What a replica upholds

Nothing is assumed here of what a source answers, except that the instant it names after
an entry that it has handed out is not an earlier one.  Every request to a replica is a sequence
of a few changes of its state and of a few calls.  What each of them keeps up is kept up
by whole lookups and whole pulls, whether they fail or not.

An extension of the coverage is a change of its own: it always rests on loaded entries.
-/

namespace AsOf

variable {m : Type -> Type} [Monad m] {V W α β : Type} [Performs m W]

/-!
## Spans that rest on loaded keys
-/

namespace Series

variable {s : Series V} {e : Entry V} {key : Instant}

theorem contains_insert :
    (s.insert e).contains key = true ↔ key = e.key ∨ s.contains key = true := by
  simp only [contains_iff, mem_insert]
  constructor
  · rintro ⟨x, rfl | ⟨hx, -⟩, rfl⟩
    · exact Or.inl rfl
    · exact Or.inr ⟨x, hx, rfl⟩
  · rintro (rfl | ⟨x, hx, rfl⟩)
    · exact ⟨e, Or.inl rfl, rfl⟩
    · by_cases hkey : x.key = e.key
      · exact ⟨e, Or.inl rfl, hkey.symm⟩
      · exact ⟨x, Or.inr ⟨hx, hkey⟩, rfl⟩

end Series

/--
A span that rests on loaded keys: one that is not beyond its edge if the edge is included,
and the edge itself if it is excluded.
-/
def Span.Rests (span : Span) (loaded : Series V) : Prop :=
  match span.edge with
  | .included upper => exists key, loaded.contains key = true ∧ span.start ≤ key ∧ key ≤ upper
  | .excluded upper => loaded.contains upper = true ∧ span.start ≤ upper
  | .unbounded => False

namespace Replica

variable {replica : Replica m V} {J : State V × W -> Prop} {p p' : State V × W} {s t u : State V}
  {handed : Entry V -> Prop} {key start : Instant} {mark : Bookmark}

def State.HoldsKeys (s t : State V) : Prop :=
  forall key, s.loaded.contains key = true -> t.loaded.contains key = true

namespace State

theorem HoldsKeys.of_eq (h : t.loaded = s.loaded) : s.HoldsKeys t := by
  intro key hkey
  rwa [h]

theorem HoldsKeys.trans (h : s.HoldsKeys t) (h' : t.HoldsKeys u) : s.HoldsKeys u :=
  fun key hkey => h' key (h key hkey)

theorem holdsKeys_store (s : State V) (e : Entry V) : s.HoldsKeys (s.store e) :=
  fun _ hkey => Series.contains_insert.mpr (Or.inr hkey)

theorem contains_store (s : State V) (e : Entry V) :
    (s.store e).loaded.contains e.key = true :=
  Series.contains_insert.mpr (Or.inl rfl)

theorem foldl_store_of {K : State V -> Prop} (hstore : forall s e, K s -> K (s.store e))
    (hs : K s) (entries : List (Entry V)) :
    K (entries.foldl State.store s) ∧ s.HoldsKeys (entries.foldl State.store s) ∧
      forall e, e ∈ entries -> (entries.foldl State.store s).loaded.contains e.key = true := by
  induction entries generalizing s with
  | nil => exact ⟨hs, HoldsKeys.of_eq rfl, fun e he => absurd he List.not_mem_nil⟩
  | cons a rest ih =>
      rcases ih (hstore s a hs) with ⟨hkept, hholds, hall⟩
      refine ⟨hkept, (s.holdsKeys_store a).trans hholds, fun e he => ?_⟩
      rcases List.mem_cons.mp he with rfl | he
      · exact hholds e.key (s.contains_store e)
      · exact hall e he

end State

/-!
## Actions that keep something up
-/

def Keeps (J : State V × W -> Prop) (x : Action m V α) (p : State V × W)
    (good : α -> State V -> Prop) : Prop :=
  After x.run p fun r p' => J p' ∧ WhenOk (fun a => good a p'.1) r

section Rules

variable {x : Action m V α} {f : α -> Action m V β} {good : α -> State V -> Prop}
  {better : β -> State V -> Prop}

theorem Keeps.imp {good' : α -> State V -> Prop} (h : Keeps J x p good)
    (himp : forall a s, good a s -> good' a s) : Keeps J x p good' :=
  After.imp h fun _ p' hr => ⟨hr.1, hr.2.imp fun a ha => himp a p'.1 ha⟩

theorem Keeps.pure {a : α} (hp : J p) (ha : good a p.1) :
    Keeps J (Pure.pure a : Action m V α) p good :=
  after_except_pure.mpr ⟨hp, ha⟩

theorem Keeps.bind (hx : Keeps J x p good)
    (hf : forall a p', J p' -> good a p'.1 -> Keeps J (f a) p' better) :
    Keeps J (x >>= f) p better := by
  apply after_except_bind.mpr
  apply After.imp hx
  intro r p' hr
  cases r with
  | error e => exact ⟨hr.1, trivial⟩
  | ok a => exact hf a p' hr.1 hr.2

theorem Keeps.get (hp : J p) :
    Keeps J (MonadState.get : Action m V (State V)) p (fun s s' => s = p.1 ∧ s' = p.1) := by
  rcases p with ⟨s, w⟩
  exact after_request_get.mpr ⟨hp, rfl, rfl⟩

theorem Keeps.modify {g : State V -> State V} (hp : J (g p.1, p.2)) :
    Keeps J (modify g : Action m V PUnit) p (fun _ s' => s' = g p.1) := by
  rcases p with ⟨s, w⟩
  exact after_request_modify.mpr ⟨hp, rfl⟩

theorem Keeps.ask {key : Instant} {question : ExceptT String m α} {right : α -> Prop}
    (h : After question.run p.2 fun r w' => J (p.1, w') ∧ WhenOk right r) :
    Keeps J (Replica.ask key question : Action m V α) p (fun a s' => right a ∧ s' = p.1) := by
  rcases p with ⟨s, w⟩
  apply after_request_handOn.mpr
  apply after_except_adapt.mpr
  apply After.imp h
  intro r w' hr
  cases r with
  | error e => exact ⟨hr.1, trivial⟩
  | ok a => exact ⟨hr.1, hr.2, rfl⟩

theorem Keeps.look {x : m α} {right : α -> Prop}
    (h : After x p.2 fun a w' => J (p.1, w') ∧ right a) :
    Keeps J (liftM x : Action m V α) p (fun a s' => right a ∧ s' = p.1) := by
  rcases p with ⟨s, w⟩
  apply after_request_lift.mpr
  apply After.imp h
  exact fun a w' hr => ⟨hr.1, hr.2, rfl⟩

end Rules

/-!
## What has to be kept up
-/

/-- Something that every call of a replica and every change of its state keeps up. -/
structure Upholds (replica : Replica m V) (J : State V × W -> Prop) (handed : Entry V -> Prop) :
    Prop where
  epoch : forall s w, J (s, w) ->
    After replica.epoch.current w (fun n w' => J (s.observeEpoch n, w'))
  horizon : forall s w, J (s, w) ->
    After replica.horizon.highest w (fun bound w' => J (s.observeBound bound, w'))
  batchFrom : forall s w start, J (s, w) ->
    After (replica.source.batchFrom start).run w (fun r w' => J (s, w') ∧
      WhenOk (fun batch => forall e, e ∈ batch -> handed e) r)
  latestUpTo : forall s w key, J (s, w) ->
    After (replica.source.latestUpTo key).run w (fun _ w' => J (s, w'))
  batchLimit : forall s w, J (s, w) ->
    After replica.source.batchLimit w (fun _ w' => J (s, w'))
  nextKey : forall s w e, J (s, w) -> handed e ->
    After (replica.source.nextKey e.key) w (fun key w' => J (s, w') ∧ e.key ≤ key)
  /-- A change of nothing but the memo, what is pending, the mark of a start and the counters. -/
  aside : forall s t w, t.loaded = s.loaded -> t.coverage = s.coverage -> t.epoch = s.epoch ->
    t.bound = s.bound -> J (s, w) -> J (t, w)
  store : forall s w e, J (s, w) -> J (s.store e, w)
  cover : forall s w span, J (s, w) -> span.Rests s.loaded -> J (s.cover span, w)

structure State.Stable (K : State V -> Prop) : Prop where
  epoch : forall s n, K s -> K (s.observeEpoch n)
  bound : forall s bound, K s -> K (s.observeBound bound)
  aside : forall s t : State V, t.loaded = s.loaded -> t.coverage = s.coverage ->
    t.epoch = s.epoch -> t.bound = s.bound -> K s -> K t
  store : forall s e, K s -> K (s.store e)
  cover : forall s span, K s -> span.Rests s.loaded -> K (s.cover span)

theorem Upholds.and {K : State V -> Prop} (h : replica.Upholds J handed)
    (hK : State.Stable K) : replica.Upholds (fun p => J p ∧ K p.1) handed where
  epoch s w hp := After.imp (h.epoch s w hp.1) fun n _ hJ => ⟨hJ, hK.epoch s n hp.2⟩
  horizon s w hp := After.imp (h.horizon s w hp.1) fun bound _ hJ => ⟨hJ, hK.bound s bound hp.2⟩
  batchFrom s w start hp :=
    After.imp (h.batchFrom s w start hp.1) fun _ _ hpost => ⟨⟨hpost.1, hp.2⟩, hpost.2⟩
  latestUpTo s w key hp := After.imp (h.latestUpTo s w key hp.1) fun _ _ hJ => ⟨hJ, hp.2⟩
  batchLimit s w hp := After.imp (h.batchLimit s w hp.1) fun _ _ hJ => ⟨hJ, hp.2⟩
  nextKey s w e hp hhanded :=
    After.imp (h.nextKey s w e hp.1 hhanded) fun _ _ hpost => ⟨⟨hpost.1, hp.2⟩, hpost.2⟩
  aside s t w hloaded hcoverage hepoch hbound hp :=
    ⟨h.aside s t w hloaded hcoverage hepoch hbound hp.1,
      hK.aside s t hloaded hcoverage hepoch hbound hp.2⟩
  store s w e hp := ⟨h.store s w e hp.1, hK.store s e hp.2⟩
  cover s w span hp hrests := ⟨h.cover s w span hp.1 hrests, hK.cover s span hp.2 hrests⟩

def Spares (J : State V × W -> Prop) (listener : Entry V -> StateT (State V) m Unit) : Prop :=
  forall e p, J p -> After (listener e) p (fun _ p' => J p')

def Bookmark.Forward (mark : Bookmark) : Prop :=
  forall first, mark.completeFrom = some first -> first ≤ mark.start

theorem State.forward_missingStretch (h : s.missingStretch key = some mark) : mark.Forward := by
  unfold missingStretch at h
  intro first hfirst
  split at h
  · cases h
    cases hfirst
  · split at h
    · cases h
    · split at h
      · rcases Option.map_eq_some_iff.mp h with ⟨upper, -, rfl⟩
        cases hfirst
        exact Std.le_refl first
      · cases h

variable (h : replica.Upholds J handed)

include h

theorem Upholds.count (hp : J p) (f : Counters -> Counters) : J (p.1.count f, p.2) :=
  h.aside p.1 _ p.2 rfl rfl rfl rfl hp

/-!
## Reading the source
-/

theorem keeps_batchFrom (hp : J p) (start : Instant) :
    Keeps J (ask start (replica.source.batchFrom start)) p
      (fun batch s' => (forall e, e ∈ batch -> handed e) ∧ s' = p.1) :=
  .ask (h.batchFrom p.1 p.2 start hp)

theorem keeps_absorb {batch : List (Entry V)} (hp : J p)
    (hbatch : forall e, e ∈ batch -> handed e) :
    Keeps J (absorb start batch : Action m V (Series V)) p (fun page s' => p.1.HoldsKeys s' ∧
      forall e, e ∈ page -> handed e ∧ start ≤ e.key ∧ s'.loaded.contains e.key = true) := by
  have hcounted : J (p.1.countLoaded batch.length, p.2) := h.count hp _
  rcases State.foldl_store_of (K := fun s => J (s, p.2)) (fun s e hs => h.store s p.2 e hs)
    hcounted (kept start batch).toList with ⟨hkept, hholds, hall⟩
  unfold absorb
  apply (Keeps.modify hkept).bind
  intro _ p' hp' hs'
  refine .pure hp' ⟨?_, fun e he => ?_⟩
  · rw [hs']
    exact hholds
  · have hin : e ∈ batch ∧ start ≤ e.key := by
      have hfirst := Series.mem_of_mem_ofFirsts he
      simpa using List.mem_filter.mp hfirst
    refine ⟨hbatch e hin.1, hin.2, ?_⟩
    rw [hs']
    exact hall e (Series.mem_toList.mpr he)

theorem keeps_fill (hp : J p) (start : Instant) :
    Keeps J (replica.fill start) p (fun _ s' => p.1.HoldsKeys s') := by
  unfold fill
  apply (Keeps.modify (h.count hp _)).bind
  intro _ p₁ hp₁ hs₁
  apply (keeps_batchFrom h hp₁ start).bind
  intro batch p₂ hp₂ hpost
  rcases hpost with ⟨hbatch, hs₂⟩
  have hheld : p.1.HoldsKeys p₂.1 := State.HoldsKeys.of_eq (by rw [hs₂, hs₁]; rfl)
  apply (keeps_absorb h hp₂ hbatch).bind
  intro page p₃ hp₃ hpost
  rcases hpost with ⟨hholds, hpage⟩
  have hall := hheld.trans hholds
  cases hnewest : page.newest? with
  | none => exact .pure hp₃ hall
  | some newest =>
      have hin := hpage newest (Series.newest?_eq_some_iff.mp hnewest).1
      have hcovered := h.cover p₃.1 p₃.2 ⟨start, .excluded newest.key⟩ hp₃ ⟨hin.2.2, hin.2.1⟩
      exact (Keeps.modify hcovered).imp fun _ s' hs' => hall.trans (State.HoldsKeys.of_eq (by
        rw [hs']
        rfl))

theorem keeps_fetch (hp : J p) (hforward : mark.Forward) :
    Keeps J (replica.fetch mark) p (fun page _ => forall newest,
      page.entries.newest? = some newest -> handed newest ∧ mark.start ≤ newest.key) := by
  unfold fetch
  apply (Keeps.modify (h.count hp _)).bind
  intro _ p₁ hp₁ _
  apply (keeps_batchFrom h hp₁ mark.start).bind
  intro batch p₂ hp₂ hpost
  rcases hpost with ⟨hbatch, -⟩
  have hlimit : After replica.source.batchLimit p₂.2 (fun limit w' => J (p₂.1, w') ∧ True) :=
    After.imp (h.batchLimit p₂.1 p₂.2 hp₂) fun _ _ hJ => ⟨hJ, trivial⟩
  apply (Keeps.look hlimit).bind
  intro limit p₃ hp₃ _
  apply (keeps_absorb h hp₃ hbatch).bind
  intro kept p₄ hp₄ hpost
  rcases hpost with ⟨-, hkept⟩
  have hnewest : forall newest, kept.newest? = some newest ->
      handed newest ∧ mark.start ≤ newest.key := by
    intro newest hnewest
    have hin := hkept newest (Series.newest?_eq_some_iff.mp hnewest).1
    exact ⟨hin.1, hin.2.1⟩
  dsimp only
  split
  · rename_i oldest newest holdest hsome
    have hold := Series.oldest?_eq_some_iff.mp holdest
    have hnew := Series.newest?_eq_some_iff.mp hsome
    have hrests : Span.Rests ⟨mark.completeFrom.getD oldest.key, .excluded newest.key⟩
        p₄.1.loaded := by
      refine ⟨(hkept newest hnew.1).2.2, ?_⟩
      show mark.completeFrom.getD oldest.key ≤ newest.key
      cases hfirst : mark.completeFrom with
      | none => exact hnew.2 oldest hold.1
      | some first => exact Std.le_trans (hforward first hfirst) (hkept newest hnew.1).2.1
    apply (Keeps.modify (h.cover p₄.1 p₄.2 _ hp₄ hrests)).bind
    intro _ p₅ hp₅ _
    exact .pure hp₅ hnewest
  · exact .pure hp₄ hnewest

theorem after_onward_forward {e : Entry V} (hp : J p) (hhanded : handed e) (mark : Bookmark) :
    After (replica.onward mark e.key) p.2 (fun r w' => J (p.1, w') ∧
      forall next, r = some next -> next.val.Forward) := by
  unfold onward
  apply after_bind.mpr
  apply After.imp (h.nextKey p.1 p.2 e hp hhanded)
  intro key w' hpost
  rcases hpost with ⟨hJ, hle⟩
  split
  · refine after_pure.mpr ⟨hJ, fun next hnext => ?_⟩
    cases hnext
    intro first hfirst
    cases hfirst
    exact hle
  · exact after_pure.mpr ⟨hJ, fun next hnext => by cases hnext⟩

theorem after_nextPage_forward {e : Entry V} (hp : J p) (hhanded : handed e) (mark : Bookmark)
    (full : Bool) :
    After (replica.nextPage mark full e.key) p.2 (fun r w' => J (p.1, w') ∧
      forall next, r = some next -> next.val.Forward) := by
  unfold nextPage
  split
  · exact after_onward_forward h hp hhanded mark
  · exact after_pure.mpr ⟨hp, fun next hnext => by cases hnext⟩

theorem keeps_fetchUntil (goal : Instant) (mark : Bookmark) {p : State V × W} (hp : J p)
    (hforward : mark.Forward) :
    Keeps J (replica.fetchUntil goal mark) p (fun _ _ => True) := by
  rw [fetchUntil]
  apply (keeps_fetch h hp hforward).bind
  intro page p₁ hp₁ hpage
  split
  · exact .pure hp₁ trivial
  · rename_i newest hnewest
    have hnext := after_onward_forward h hp₁ (hpage newest hnewest).1 mark
    apply (Keeps.look hnext).bind
    intro following p₂ hp₂ hpost
    cases following with
    | none => exact .pure hp₂ trivial
    | some following =>
        dsimp only
        split
        · exact keeps_fetchUntil goal following.val hp₂ (hpost.1 following rfl)
        · exact .pure hp₂ trivial
termination_by mark.start.remaining
decreasing_by exact Instant.remaining_lt_of_lt following.property

/-!
## Lookups
-/

theorem keeps_resolveForward (hp : J p) (key : Instant) :
    Keeps J (replica.resolveForward key) p (fun _ _ => True) := by
  have hlast : forall (isCold : Bool) (p : State V × W), J p -> Keeps J (do
      modify fun s => { s with loadedFromStart := s.loadedFromStart || isCold }
      return (<- get).loaded.latestUpTo key : Action m V (Option (Entry V))) p
      (fun _ _ => True) := by
    intro isCold p hp
    apply (Keeps.modify (h.aside p.1 _ p.2 rfl rfl rfl rfl hp)).bind
    intro _ p₁ hp₁ _
    exact (Keeps.get hp₁).bind fun _ _ hp₂ _ => .pure hp₂ trivial
  unfold resolveForward
  apply (Keeps.get hp).bind
  intro before p₁ hp₁ _
  dsimp only
  split
  · rename_i mark hmark
    exact (keeps_fetchUntil h key mark hp₁ (State.forward_missingStretch hmark)).bind
      fun _ p₂ hp₂ _ => hlast _ p₂ hp₂
  · exact hlast _ p₁ hp₁

/-- What is covered at last rests on the latest entry, which stays loaded while a gap is filled. -/
theorem keeps_resolveLatest (hp : J p) (key : Instant) (latest : Entry V) :
    Keeps J (replica.resolveLatest key latest) p (fun _ _ => True) := by
  unfold resolveLatest
  split
  · exact after_except_throw.mpr ⟨hp, trivial⟩
  · rename_i hle
    apply (Keeps.get hp).bind
    intro before p₁ hp₁ _
    apply (Keeps.modify (h.store p₁.1 p₁.2 latest hp₁)).bind
    intro _ p₂ hp₂ hs₂
    have hlatest : p₂.1.loaded.contains latest.key = true := by
      rw [hs₂]
      exact p₁.1.contains_store latest
    have hlast : forall p₃, J p₃ -> p₂.1.HoldsKeys p₃.1 -> Keeps J (do
        modify fun s => s.cover ⟨latest.key, .included key⟩
        return some latest : Action m V (Option (Entry V))) p₃ (fun _ _ => True) := by
      intro p₃ hp₃ hholds
      have hrests : Span.Rests ⟨latest.key, .included key⟩ p₃.1.loaded :=
        ⟨latest.key, hholds _ hlatest, Std.le_refl _, Std.not_lt.mp hle⟩
      exact (Keeps.modify (h.cover p₃.1 p₃.2 _ hp₃ hrests)).bind
        fun _ _ hp₄ _ => .pure hp₄ trivial
    dsimp only
    split
    · exact (keeps_fill h hp₂ _).bind fun _ p₃ hp₃ hholds => hlast p₃ hp₃ hholds
    · exact hlast p₂ hp₂ (State.HoldsKeys.of_eq rfl)

theorem keeps_probe (hp : J p) (key : Instant) :
    Keeps J (replica.probe key) p (fun _ _ => True) := by
  unfold probe
  apply (Keeps.modify (h.count hp _)).bind
  intro _ p₁ hp₁ _
  have hasked : After (replica.source.latestUpTo key).run p₁.2 (fun r w' => J (p₁.1, w') ∧
      WhenOk (fun _ => True) r) := by
    apply After.imp (h.latestUpTo p₁.1 p₁.2 key hp₁)
    intro r w' hJ
    exact ⟨hJ, by cases r <;> trivial⟩
  exact (Keeps.ask hasked).imp fun _ _ _ => trivial

theorem keeps_resolve (hp : J p) (key : Instant) :
    Keeps J (replica.resolve key) p (fun _ _ => True) := by
  unfold resolve
  apply (Keeps.get hp).bind
  intro s p₁ hp₁ _
  split
  · apply (Keeps.modify (h.count hp₁ _)).bind
    exact fun _ _ hp₂ _ => .pure hp₂ trivial
  · apply (Keeps.modify (h.count hp₁ _)).bind
    intro _ p₂ hp₂ _
    apply (keeps_probe h hp₂ key).bind
    intro found p₃ hp₃ _
    cases found with
    | some latest => exact keeps_resolveLatest h hp₃ key latest
    | none => exact keeps_resolveForward h hp₃ key

theorem upheld_sync (hp : J p) : After replica.sync p (fun _ p' => J p') := by
  rcases p with ⟨s, w⟩
  unfold sync
  simp only [after_bind, after_state_monadLift, after_state_modify]
  apply After.imp (h.epoch s w hp)
  exact fun n w₁ hw₁ => h.horizon _ w₁ hw₁

variable (hl : Spares J replica.listener)

include hl

theorem upheld_announce (hp : J p) : After replica.announce p (fun _ p' => J p') := by
  rcases p with ⟨s, w⟩
  unfold announce
  simp only [after_bind, after_state_modifyGet]
  exact after_forM hl s.pending (h.aside s _ w rfl rfl rfl rfl hp)

theorem Keeps.announcing {x : Action m V α} {good : α -> Prop}
    (hx : Keeps J x p (fun a _ => good a)) :
    Keeps J (replica.announcing x) p (fun a _ => good a) := by
  unfold Replica.announcing
  apply after_except_mk.mpr
  simp only [after_bind, after_pure]
  apply After.imp hx
  intro r p' hpost
  rcases hpost with ⟨hp', hr⟩
  apply After.imp (upheld_announce h hl hp')
  exact fun _ p'' hp'' => ⟨hp'', hr⟩

theorem upheld_lookup (hp : J p) (key : Instant) :
    After (replica.lookup key).run p (fun _ p' => J p') := by
  suffices hkeeps : Keeps J (replica.lookup key) p (fun _ _ => True) from
    After.imp hkeeps fun _ _ hpost => hpost.1
  unfold lookup
  apply after_except_bind.mpr
  apply after_except_lift.mpr
  apply After.imp (upheld_sync h hp)
  intro _ p₁ hp₁
  show Keeps J _ p₁ (fun _ _ => True)
  apply (Keeps.get hp₁).bind
  intro s p₂ hp₂ _
  split
  · apply (Keeps.modify (h.count hp₂ _)).bind
    exact fun _ _ hp₃ _ => .pure hp₃ trivial
  · refine Keeps.announcing h hl ?_
    apply (keeps_resolve h hp₂ key).bind
    intro found p₃ hp₃ _
    apply (Keeps.modify (h.aside p₃.1 _ p₃.2 rfl rfl rfl rfl hp₃)).bind
    exact fun _ _ hp₄ _ => .pure hp₄ trivial

omit h hl in
theorem upholds_overheard {note : Overheard V -> m Unit} {inquire : Entry V -> Inquiry V}
    (h : replica.Upholds J handed)
    (hnote : forall s w x, J (s, w) -> After (note x) w (fun _ w' => J (s, w'))) (depth : Nat) :
    (replica.overheard note inquire depth).Upholds J handed ∧
      Spares J (replica.overheard note inquire depth).listener := by
  induction depth with
  | zero => exact ⟨{ h with }, fun _ _ hp => after_pure.mpr hp⟩
  | succ depth ih =>
      have hconduct : forall (inquiry : Inquiry V) (p : State V × W), J p ->
          After (inquiry.conduct (replica.overheard note inquire depth) note) p
            (fun _ p' => J p') := by
        intro inquiry
        induction inquiry with
        | done => exact fun p hp => after_pure.mpr hp
        | ask key following ih' =>
            intro p hp
            apply after_bind.mpr
            apply After.imp (upheld_lookup ih.1 ih.2 hp key)
            intro r p₁ hp₁
            rcases p₁ with ⟨s₁, w₁⟩
            apply after_bind.mpr
            apply after_state_monadLift.mpr
            apply After.imp (hnote s₁ w₁ ⟨key, r⟩ hp₁)
            exact fun _ w₂ hp₂ => ih' r (s₁, w₂) hp₂
      exact ⟨{ h with }, fun e p hp => hconduct (inquire e) p hp⟩

/-!
## Scans
-/

theorem keeps_loadPage (hp : J p) (hforward : mark.Forward) :
    Keeps J (replica.loadPage mark) p (fun page _ => forall newest,
      page.entries.newest? = some newest -> handed newest ∧ mark.start ≤ newest.key) := by
  unfold loadPage
  apply after_except_bind.mpr
  apply after_except_lift.mpr
  apply After.imp (upheld_sync h hp)
  intro _ p₁ hp₁
  exact Keeps.announcing h hl (keeps_fetch h hp₁ hforward)

def Scan.Forward (scan : Scan V) : Prop :=
  forall mark, scan.next = some mark -> mark.Forward

omit [Monad m] [Performs m W] h hl in
theorem Scan.forward_startAt (key : Instant) : (Scan.startAt key : Scan V).Forward := by
  intro mark hmark first hfirst
  cases hmark
  cases hfirst

/-- Pulls keep up what calls and changes keep up, also those of scans that were begun long ago. -/
theorem upheld_pull (scan : Scan V) {p : State V × W} (hp : J p) (hscan : scan.Forward) :
    After (replica.pull scan) p (fun r p' => J p' ∧ r.2.Forward) := by
  rw [pull]
  split
  · exact after_pure.mpr ⟨hp, hscan⟩
  · split
    · exact after_pure.mpr ⟨hp, fun mark hmark => by cases hmark⟩
    · rename_i mark hmark
      apply after_bind.mpr
      apply After.imp (keeps_loadPage h hl hp (hscan mark hmark))
      intro r p₁ hpost
      rcases hpost with ⟨hp₁, hr⟩
      cases r with
      | error e => exact after_pure.mpr ⟨hp₁, fun mark hmark => by cases hmark⟩
      | ok page =>
          dsimp only
          split
          · exact after_pure.mpr ⟨hp₁, fun mark hmark => by cases hmark⟩
          · rename_i newest hnewest
            rcases p₁ with ⟨s₁, w₁⟩
            apply after_bind.mpr
            apply after_state_monadLift.mpr
            apply After.imp (after_nextPage_forward (p := (s₁, w₁)) h hp₁
              (hr newest hnewest).1 mark page.full)
            intro next w₂ hpost
            rcases hpost with ⟨hp₂, hnext⟩
            apply upheld_pull (scan.turned page.entries (next.map Subtype.val)) hp₂
            intro following hfollowing
            rcases Option.map_eq_some_iff.mp hfollowing with ⟨next, hsome, rfl⟩
            exact hnext next hsome
termination_by scan.measure
decreasing_by exact Scan.measure_turned_lt ‹_› page.entries next

end Replica
end AsOf
