import AsOf.Proofs.Replica.Paging

/-!
# Lookups answer from the series

Every step of a lookup makes progress, and the lookup itself yields the entry in
effect in the series of the world, whatever was remembered before it.
-/

namespace AsOf
namespace Replica

open Outlook

variable {m : Type -> Type} [Monad m] {V W : Type} [Performs m W] {o : Outlook W V}
  {next : Instant -> Instant} {replica : Replica m V} {p p' : State V × W} {s : State V}
  {series : Series V} {key : Instant}

def Resolved (series : Series V) (key : Instant) (found : Option (Entry V)) (s : State V) : Prop :=
  found = series.latestUpTo key ∧ forall e, found = some e -> e ∈ s.loaded

section Resolving

variable (h : replica.Reads o next)

include h

theorem yields_resolveForward (hp : Settled o p) (hnone : (o.series p.2).latestUpTo key = none) :
    Yields o (replica.resolveForward key) p (Resolved (o.series p.2) key) := by
  unfold resolveForward
  apply (Yields.get hp).bind
  intro before p₁ hp₁ hpost
  rcases hpost with ⟨rfl, hs₁⟩
  have hsettled := hp₁.settled hp
  have hlast : forall p₂, Progress o p₁ p₂ -> Yields o (do
      modify fun s => { s with loadedFromStart := s.loadedFromStart || p.1.isCold }
      return (<- get).loaded.latestUpTo key : Action m V (Option (Entry V)))
      p₂ (Resolved (o.series p.2) key) := by
    intro p₂ hp₂
    have hsettled₂ := hp₂.settled hsettled
    apply (Yields.modify (hsettled₂.aside rfl rfl rfl rfl rfl)).bind
    intro _ p₃ hp₃ _
    have hsettled₃ := hp₃.settled hsettled₂
    apply (Yields.get hsettled₃).bind
    intro s p₄ hp₄ hpost
    rcases hpost with ⟨rfl, -⟩
    have hseries : (o.series p₃.2).latestUpTo key = none := by
      rw [hp₃.follows.series, hp₂.follows.series, hp₁.follows.series]
      exact hnone
    have hfound := hsettled₃.sound.latestUpTo_loaded_of_none hseries
    refine .pure (hp₄.settled hsettled₃) ⟨by rw [hfound, hnone], fun e he => ?_⟩
    rw [hfound] at he
    cases he
  dsimp only
  split
  · rename_i mark hmark
    have hfits := (hp.sound.fits_missingStretch hmark).mono hp₁.retains (by rw [hs₁])
    rw [← hp₁.follows.series] at hfits
    exact (yields_fetchUntil h.pages key mark hsettled hfits).bind fun _ p₂ hp₂ _ => hlast p₂ hp₂
  · exact hlast p₁ hsettled.refl

theorem yields_resolveLatest {latest : Entry V} (hp : Settled o p)
    (hlatest : (o.series p.2).latestUpTo key = some latest) :
    Yields o (replica.resolveLatest key latest) p (Resolved (o.series p.2) key) := by
  have hmem := Series.latestUpTo_eq_some_iff.mp hlatest
  unfold resolveLatest
  rw [if_neg (Std.not_lt.mpr hmem.1.2)]
  apply (Yields.get hp).bind
  intro before p₁ hp₁ hpost
  rcases hpost with ⟨rfl, hs₁⟩
  have hsettled := hp₁.settled hp
  have hlatest₁ : latest ∈ o.series p₁.2 := hp₁.follows.series ▸ hmem.1.1
  have hstore : Progress o p₁ (p₁.1.store latest, p₁.2) :=
    .of_state (hsettled.sound.store hlatest₁) (hsettled.sound.retains_store hlatest₁) rfl rfl
  apply (Yields.modify hstore).bind
  intro _ p₂ hp₂ hs₂
  have hsettled₂ := hp₂.settled hsettled
  have hloaded₂ : latest ∈ p₂.1.loaded := by
    rw [hs₂]
    exact (State.mem_loaded_store hsettled.sound.loaded hlatest₁).mpr (Or.inr rfl)
  have hlast : forall p₃, Progress o p₂ p₃ -> Yields o (do
      modify fun s => s.cover ⟨latest.key, .included key⟩
      return some latest : Action m V (Option (Entry V))) p₃ (Resolved (o.series p.2) key) := by
    intro p₃ hp₃
    have hsettled₃ := hp₃.settled hsettled₂
    have hloaded₃ := hp₃.retains latest hloaded₂
    have hcover : Progress o p₃ (p₃.1.cover ⟨latest.key, .included key⟩, p₃.2) := by
      refine hsettled₃.cover ?_ ?_ ?_
      · exact Or.inl (Series.contains_of_mem hloaded₃)
      · intro upper h
        cases h
        exact hmem.1.2
      · intro e he hin
        rcases Span.contains_iff.mp hin with ⟨hge, hle⟩
        rw [hp₃.follows.series, hp₂.follows.series, hp₁.follows.series] at he
        have hback := hmem.2 e he (by simpa [Edge.admits] using hle)
        exact Series.eq_of_key_eq hmem.1.1 he (Std.le_antisymm hge hback) ▸ hloaded₃
    apply (Yields.modify hcover).bind
    intro _ p₄ hp₄ _
    refine .pure (hp₄.settled hsettled₃) ⟨hlatest.symm, ?_⟩
    intro e h
    cases h
    exact hp₄.retains latest hloaded₃
  dsimp only
  split
  · rename_i start hstart
    have hground := hp.sound.grounded_gapStart hmem.1.1 hstart
    rw [← hs₁, ← hs₂] at hground
    exact (yields_fill h.pages hsettled₂ hground).bind fun _ p₃ hp₃ _ => hlast p₃ hp₃
  · exact hlast p₂ hsettled₂.refl

theorem yields_probe (hp : Settled o p) (key : Instant) :
    Yields o (replica.probe key) p (fun found _ => found = (o.series p.2).latestUpTo key) := by
  unfold probe
  apply (Yields.modify (hp.aside rfl rfl rfl rfl rfl)).bind
  intro _ p₁ hp₁ _
  have hsettled := hp₁.settled hp
  apply (Yields.ask hsettled (h.source.latestUpTo p₁.2 key hsettled.ready)).imp
  intro found p₂ hp₂ hpost
  rcases hpost with ⟨hfound, -⟩
  rw [hfound, hp₁.follows.series]

theorem yields_resolve (hp : Settled o p) (key : Instant) :
    Yields o (replica.resolve key) p (Resolved (o.series p.2) key) := by
  unfold resolve
  apply (Yields.get hp).bind
  intro s p₁ hp₁ hpost
  rcases hpost with ⟨rfl, hs₁⟩
  have hsettled := hp₁.settled hp
  split
  · rename_i hcovers
    apply (Yields.modify (hsettled.aside rfl rfl rfl rfl rfl)).bind
    intro _ p₂ hp₂ _
    refine .pure (hp₂.settled hsettled) ⟨hp.sound.latestUpTo_loaded hcovers, fun e he => ?_⟩
    exact hp₂.retains e (hp₁.retains e (Series.latestUpTo_eq_some_iff.mp he).1.1)
  · apply (Yields.modify (hsettled.aside rfl rfl rfl rfl rfl)).bind
    intro _ p₂ hp₂ _
    have hsettled₂ := hp₂.settled hsettled
    apply (yields_probe h hsettled₂ key).bind
    intro found p₃ hp₃ hfound
    have hseries : o.series p₃.2 = o.series p.2 := by
      rw [hp₃.follows.series, hp₂.follows.series, hp₁.follows.series]
    have hsettled₃ := hp₃.settled hsettled₂
    rw [← hp₃.follows.series] at hfound
    cases found with
    | some latest => exact hseries ▸ yields_resolveLatest h hsettled₃ hfound.symm
    | none => exact hseries ▸ yields_resolveForward h hsettled₃ hfound.symm

end Resolving

/-!
## Announcing

The listener is told after the state is settled, so it may look up instants itself.
-/

def Listens (o : Outlook W V) (listener : Entry V -> StateT (State V) m Unit) : Prop :=
  forall e p, Current o p -> After (listener e) p (fun _ p' => Progress o p p')

theorem Listens.forM {listener : Entry V -> StateT (State V) m Unit} (hl : Listens o listener)
    (entries : List (Entry V)) {p : State V × W} (hp : Current o p) :
    After (entries.forM listener) p (fun _ p' => Progress o p p') := by
  have hstep : forall e p', Progress o p p' ->
      After (listener e) p' (fun _ p'' => Progress o p p'') := by
    intro e p' hp'
    exact After.imp (hl e p' (hp'.current hp)) fun _ p'' hp'' => hp'.trans hp''
  exact after_forM hstep entries hp.refl

theorem after_announce (hl : Listens o replica.listener) (hp : Current o p) :
    After replica.announce p (fun _ p' => Progress o p p') := by
  rcases p with ⟨s, w⟩
  unfold announce
  simp only [after_bind, after_state_modifyGet]
  have htold : Progress o (s, w) ({ s with pending := [] }, w) := hp.aside rfl rfl rfl rfl rfl
  apply After.imp (hl.forM s.pending (htold.current hp))
  exact fun _ p' hp' => htold.trans hp'

theorem Yields.announcing {α : Type} {x : Action m V α} {good : α -> State V -> Prop}
    (hl : Listens o replica.listener) (hp : Current o p) (hx : Yields o x p good)
    (hkeep : forall a s t, s.Retains t -> good a s -> good a t) :
    Yields o (replica.announcing x) p good := by
  unfold Replica.announcing
  apply after_except_mk.mpr
  simp only [after_bind, after_pure]
  apply After.imp hx
  intro r p' hpost
  rcases hpost with ⟨hp', hr⟩
  apply After.imp (after_announce hl (hp'.current hp))
  intro _ p'' hp''
  constructor
  · exact hp'.trans hp''
  · exact (hr.earlier hp'.follows hp''.follows).imp fun a ha => hkeep a p'.1 p''.1 hp''.retains ha

/-!
## Whole lookups
-/

/--
What a replica remembers can be trusted in a world: in the epoch of the world it
is right for the series, or the series has grown since and the horizon has moved.
-/
def Trusted (o : Outlook W V) (p : State V × W) : Prop :=
  p.1.epoch = o.epoch p.2 -> exists old : Series V, p.1.Sound old ∧ old.Grown (o.series p.2) ∧
    (p.1.bound = o.bound p.2 -> old = o.series p.2)

theorem Settled.trusted (hp : Settled o p) : Trusted o p :=
  fun _ => ⟨o.series p.2, hp.sound, Series.Grown.refl _, fun _ => rfl⟩

structure Advance (o : Outlook W V) (p p' : State V × W) : Prop where
  follows : o.Follows p.2 p'.2
  current : Current o p'
  retains : p.1.epoch = o.epoch p.2 -> p.1.Retains p'.1

theorem Advance.progress (ha : Advance o p p') {p'' : State V × W} (hp : Progress o p' p'') :
    Advance o p p'' where
  follows := ha.follows.trans hp.follows
  current := hp.current ha.current
  retains := fun hepoch => (ha.retains hepoch).trans hp.retains

theorem Advance.yields {α : Type} {x : Action m V α} {g : Series V -> α -> State V -> Prop}
    (ha : Advance o p p') (hx : Yields o x p' (g (o.series p'.2))) :
    After x.run p' (fun r p'' => Advance o p p'' ∧
      o.Delivers p.2 p''.2 (fun a => g (o.series p.2) a p''.1) r) := by
  apply After.imp hx
  intro r p'' hr
  rcases hr with ⟨hp'', hr⟩
  rw [ha.follows.series] at hr
  exact ⟨ha.progress hp'', hr.later ha.follows hp''.follows⟩

theorem State.Sound.observeBound {old : Series V} {bound : Option Instant} (hs : s.Sound old)
    (hgrown : old.Grown series) (hmoved : s.bound = bound -> old = series) :
    (s.observeBound bound).Sound series ∧ s.Retains (s.observeBound bound) := by
  unfold State.observeBound
  split
  · rename_i heq
    exact ⟨hmoved heq.symm ▸ hs, State.Retains.refl s⟩
  · exact ⟨(hs.retreat hgrown).congr rfl rfl rfl, State.Retains.refl s⟩

theorem State.bound_observeBound (s : State V) (bound : Option Instant) :
    (s.observeBound bound).bound = bound ∧ (s.observeBound bound).epoch = s.epoch := by
  unfold State.observeBound
  split
  · rename_i heq
    exact ⟨heq.symm, rfl⟩
  · exact ⟨rfl, rfl⟩

theorem State.loaded_observeBound (s : State V) (bound : Option Instant) :
    (s.observeBound bound).loaded = s.loaded := by
  unfold State.observeBound
  split <;> rfl

theorem State.epoch_observeEpoch (s : State V) (n : Nat) : (s.observeEpoch n).epoch = n := by
  unfold State.observeEpoch
  split
  · rename_i heq
    exact heq.symm
  · rfl

theorem State.pending_observed (s : State V) (n : Nat) (bound : Option Instant) :
    ((s.observeEpoch n).observeBound bound).pending = s.pending := by
  unfold State.observeBound State.observeEpoch
  split <;> split <;> rfl

section Sync

variable (h : replica.Pages o next)

include h

theorem after_start {w : W} (hready : o.ready w) :
    After replica.start w (fun s w' => o.Follows w w' ∧ Settled o (s, w')) := by
  unfold start
  simp only [after_bind, after_pure]
  apply After.imp (h.epoch w hready)
  intro epoch w₁ hpost
  rcases hpost with ⟨-, hw₁⟩
  apply After.imp (h.horizon w₁ (hw₁.ready hready))
  intro bound w₂ hpost
  rcases hpost with ⟨-, hw₂⟩
  have hw := hw₁.trans hw₂
  exact ⟨hw, hw.ready hready, State.sound_start _ epoch bound⟩

theorem after_sync (hready : o.ready p.2) (hp : Trusted o p) :
    After replica.sync p (fun _ p' => Advance o p p') := by
  rcases p with ⟨s, w⟩
  unfold sync
  simp only [after_bind, after_state_monadLift, after_state_modify]
  apply After.imp (h.epoch w hready)
  intro _ w₁ hpost
  rcases hpost with ⟨rfl, hw₁⟩
  apply After.imp (h.horizon w₁ (hw₁.ready hready))
  intro _ w₂ hpost
  rcases hpost with ⟨rfl, hw₂⟩
  have hw := hw₁.trans hw₂
  unfold State.observeEpoch
  split
  · rename_i heq
    rcases hp heq.symm with ⟨old, hsound, hgrown, hmoved⟩
    rw [hw₁.bound]
    have hnow := hsound.observeBound hgrown hmoved
    have hseen := s.bound_observeBound (o.bound w)
    have hcurrent : Current o (_, w₂) := {
      ready := hw.ready hready
      sound := hw.series ▸ hnow.1
      epoch := hseen.2.trans (heq.symm.trans hw.epoch.symm)
      bound := hseen.1.trans hw.bound.symm }
    exact ⟨hw, hcurrent, fun _ => hnow.2⟩
  · rename_i hne
    generalize ht : State.mk _ _ _ _ _ _ _ _ = t
    have hfresh : t.Sound (o.series w) := by
      subst ht
      exact (State.sound_forget (o.series w) s).congr rfl rfl rfl
    have hepoch : t.epoch = o.epoch w := by rw [← ht]
    have hnow : (t.observeBound (o.bound w₁)).Sound (o.series w) ∧ _ :=
      hfresh.observeBound (Series.Grown.refl _) (fun _ => rfl)
    have hseen := t.bound_observeBound (o.bound w₁)
    have hcurrent : Current o (_, w₂) := {
      ready := hw.ready hready
      sound := hw.series ▸ hnow.1
      epoch := hseen.2.trans (hepoch.trans hw.epoch.symm)
      bound := hseen.1.trans hw₂.bound.symm }
    exact ⟨hw, hcurrent, fun heq => absurd heq.symm hne⟩

def State.observed (s : State V) (o : Outlook W V) (w : W) : State V :=
  (s.observeEpoch (o.epoch w)).observeBound (o.bound w)

theorem after_sync_observed (hready : o.ready p.2) :
    After replica.sync p (fun _ p' => p'.1 = p.1.observed o p.2) := by
  rcases p with ⟨s, w⟩
  unfold sync
  simp only [after_bind, after_state_monadLift, after_state_modify]
  apply After.imp (h.epoch w hready)
  intro _ w₁ hpost
  rcases hpost with ⟨rfl, hw₁⟩
  apply After.imp (h.horizon w₁ (hw₁.ready hready))
  intro _ w₂ hpost
  rcases hpost with ⟨rfl, -⟩
  rw [hw₁.bound]
  rfl

theorem after_lookup_of_resolve (hl : Listens o replica.listener) (hready : o.ready p.2)
    (hp : Trusted o p) (key : Instant)
    (hresolve : forall p', Advance o p p' -> p'.1 = p.1.observed o p.2 ->
      Yields o (replica.resolve key) p' (Resolved (o.series p'.2) key)) :
    After (replica.lookup key).run p (fun r p' => Advance o p p' ∧
      o.Delivers p.2 p'.2 (fun found => Resolved (o.series p.2) key found p'.1) r) := by
  unfold lookup
  apply after_except_bind.mpr
  apply after_except_lift.mpr
  apply After.imp ((after_sync h hready hp).and (after_sync_observed h hready))
  intro _ p₁ hpost
  rcases hpost with ⟨hp₁, hobserved⟩
  have hcurrent := hp₁.current
  apply hp₁.yields (g := fun series found s => Resolved series key found s)
  apply (Yields.get hcurrent.toSettled).bind
  intro s p₂ hp₂ hpost
  rcases hpost with ⟨rfl, hs₂⟩
  have hcurrent₂ := hp₂.current hcurrent
  split
  · rename_i found hfound
    apply (Yields.modify (hcurrent₂.aside rfl rfl rfl rfl rfl)).bind
    intro _ p₃ hp₃ _
    refine .pure (hp₃.settled hcurrent₂.toSettled) ⟨hcurrent.sound.memo key found hfound, ?_⟩
    intro e heq
    subst heq
    exact hp₃.retains e (hp₂.retains e (hcurrent.sound.memo_loaded key e hfound))
  · rw [← hp₂.follows.series]
    refine Yields.announcing hl hcurrent₂ ?_ ?_
    · apply (hresolve p₂ (hp₁.progress hp₂) (hs₂.trans hobserved)).bind
      intro found p₃ hp₃ hpost
      rcases hpost with ⟨rfl, hloaded⟩
      have hsettled₃ := hp₃.settled hcurrent₂.toSettled
      have hkept : Progress o p₃
          (p₃.1.remember replica.settings.memoCapacity key ((o.series p₃.2).latestUpTo key),
            p₃.2) :=
        .of_state (hsettled₃.sound.remember _ key (hp₃.follows.series ▸ hloaded))
          (State.Retains.refl p₃.1) rfl rfl
      rw [← hp₃.follows.series]
      apply (Yields.modify hkept).bind
      intro _ p₄ hp₄ _
      refine .pure (hp₄.settled hsettled₃) ⟨rfl, fun e he => ?_⟩
      exact hp₄.retains e (hloaded e (hp₃.follows.series ▸ he))
    · intro found s t hretains h
      rcases h with ⟨hfound, hloaded⟩
      exact ⟨hfound, fun e he => hretains e (hloaded e he)⟩

end Sync

/-- A lookup yields the entry in effect, or a failure of the source on the way to it. -/
theorem after_lookup (h : replica.Reads o next) (hl : Listens o replica.listener)
    (hready : o.ready p.2) (hp : Trusted o p) (key : Instant) :
    After (replica.lookup key).run p (fun r p' => Advance o p p' ∧
      o.Delivers p.2 p'.2 (fun found => Resolved (o.series p.2) key found p'.1) r) :=
  after_lookup_of_resolve h.pages hl hready hp key
    fun _ hp' _ => yields_resolve h hp'.current.toSettled key

end Replica
end AsOf
