import AsOf.Proofs.Perform

/-!
# Two runs side by side

An action is performed in two worlds that are alike in some way.  It is steady if both runs
give the same answer and lead to worlds that are alike again, and if no count of revisions is
lowered on the way.  What is put together from steady actions is steady, however it goes on
by their answers.
-/

namespace AsOf

variable {m : Type -> Type} [Monad m] {W σ α β γ δ ε : Type} [Performs m W]

/-- Two actions give related answers and lead to related worlds. -/
def Twin (answers : α -> β -> Prop) (worlds : W -> W -> Prop) (x : m α) (y : m β) (w v : W) :
    Prop :=
  answers (perform x w).1 (perform y v).1 ∧ worlds (perform x w).2 (perform y v).2

/-- An action that does not lower a count. -/
def Onward (count : W -> Nat) (x : m α) : Prop :=
  forall w, After x w (fun _ w' => count w ≤ count w')

/-- An action that goes alike in worlds that are alike, and leads to worlds that are. -/
def Steady (count : W -> Nat) (before after : W -> W -> Prop) (x : m α) : Prop :=
  forall w v, before w v ->
    Twin Eq (fun w' v' => after w' v' ∧ count w ≤ count w') x x w v

section Twins

variable {answers : α -> β -> Prop} {worlds worlds' : W -> W -> Prop} {x : m α} {y : m β}
  {f : α -> m γ} {g : β -> m δ} {results : γ -> δ -> Prop} {w v : W}

theorem twin_pure {a : α} {b : β} (hanswers : answers a b) (hworlds : worlds w v) :
    Twin answers worlds (pure a : m α) (pure b) w v := by
  unfold Twin
  rw [Performs.perform_pure, Performs.perform_pure]
  exact ⟨hanswers, hworlds⟩

theorem Twin.imp (h : Twin answers worlds x y w v)
    (himp : forall w' v', worlds w' v' -> worlds' w' v') : Twin answers worlds' x y w v :=
  ⟨h.1, himp _ _ h.2⟩

theorem Twin.bind (hx : Twin answers worlds x y w v)
    (hf : forall a b w' v', answers a b -> worlds w' v' ->
      Twin results worlds' (f a) (g b) w' v') :
    Twin results worlds' (x >>= f) (y >>= g) w v := by
  unfold Twin
  rw [Performs.perform_bind, Performs.perform_bind]
  exact hf _ _ _ _ hx.1 hx.2

def Matched (good : α -> β -> Prop) : Except ε α -> Except ε β -> Prop
  | .ok a, .ok b => good a b
  | .error e, .error e' => e = e'
  | _, _ => False

theorem matched_of_eq {r r' : Except ε α} (h : r = r') : Matched Eq r r' := by
  cases h
  cases r <;> exact rfl

theorem Matched.eq {r r' : Except ε α} (h : Matched Eq r r') : r = r' := by
  cases r <;> cases r' <;> cases h <;> rfl

theorem Twin.except_bind {x : ExceptT ε m α} {y : ExceptT ε m β} {f : α -> ExceptT ε m γ}
    {g : β -> ExceptT ε m δ} (hx : Twin (Matched answers) worlds x.run y.run w v)
    (hfail : forall w' v', worlds w' v' -> worlds' w' v')
    (hf : forall a b w' v', answers a b -> worlds w' v' ->
      Twin (Matched results) worlds' (f a).run (g b).run w' v') :
    Twin (Matched results) worlds' (x >>= f).run (y >>= g).run w v := by
  show Twin (Matched results) worlds' (x.run >>= ExceptT.bindCont f)
    (y.run >>= ExceptT.bindCont g) w v
  apply hx.bind
  intro r r' w' v' hr hworlds
  cases r with
  | ok a =>
      cases r' with
      | ok b => exact hf a b w' v' hr hworlds
      | error e => exact hr.elim
  | error e =>
      cases r' with
      | ok b => exact hr.elim
      | error e' => exact twin_pure hr (hfail w' v' hworlds)

end Twins

/-!
## Steady actions
-/

section Steadiness

variable {count : W -> Nat} {before between after : W -> W -> Prop} {x : m α} {f : α -> m β}

theorem onward_pure (a : α) : Onward count (pure a : m α) :=
  fun _ => after_pure.mpr (Nat.le_refl _)

theorem Onward.bind (hx : Onward count x) (hf : forall a, Onward count (f a)) :
    Onward count (x >>= f) := by
  intro w
  apply after_bind.mpr
  apply After.imp (hx w)
  intro a w' hle
  exact After.imp (hf a w') fun _ _ hle' => Nat.le_trans hle hle'

theorem steady_pure (a : α) : Steady count before before (pure a : m α) :=
  fun _ _ h => twin_pure rfl ⟨h, Nat.le_refl _⟩

theorem Steady.bind (hx : Steady count before between x)
    (hf : forall a, Steady count between after (f a)) : Steady count before after (x >>= f) := by
  intro w v h
  apply (hx w v h).bind
  intro a b w' v' hab hpost
  cases hab
  rcases hpost with ⟨hbetween, hle⟩
  apply (hf a w' v' hbetween).imp
  exact fun _ _ hpost => ⟨hpost.1, Nat.le_trans hle hpost.2⟩

theorem Steady.map {g : α -> β} (hx : Steady count before after x) :
    Steady count before after (g <$> x) := by
  intro w v h
  have hpost := hx w v h
  unfold Twin at hpost ⊢
  rw [Performs.perform_map, Performs.perform_map]
  exact ⟨congrArg g hpost.1, hpost.2⟩

theorem Steady.imp {before' after' : W -> W -> Prop} (hx : Steady count before after x)
    (hbefore : forall w v, before' w v -> before w v)
    (hafter : forall w v, after w v -> after' w v) : Steady count before' after' x :=
  fun w v h => (hx w v (hbefore w v h)).imp fun w' v' hpost => ⟨hafter w' v' hpost.1, hpost.2⟩

/-!
## Steady actions that may fail
-/

theorem steady_except_pure (a : α) :
    Steady count before before (pure a : ExceptT ε m α).run :=
  steady_pure (Except.ok a)

theorem steady_except_throw (e : ε) :
    Steady count before before (throw e : ExceptT ε m α).run :=
  steady_pure (Except.error e)

theorem Steady.except_bind {x : ExceptT ε m α} {f : α -> ExceptT ε m β}
    (hx : Steady count before after x.run) (hf : forall a, Steady count after after (f a).run) :
    Steady count before after (x >>= f).run := by
  show Steady count before after (x.run >>= ExceptT.bindCont f)
  apply hx.bind
  intro r
  cases r with
  | ok a => exact hf a
  | error e => exact steady_pure (Except.error e)

theorem Steady.except_lift (hx : Steady count before after x) :
    Steady count before after (liftM x : ExceptT ε m α).run := by
  show Steady count before after (Except.ok <$> x)
  exact hx.map

theorem Steady.lift_bind {f : α -> ExceptT ε m β} (hx : Steady count before between x)
    (hf : forall a, Steady count between after (f a).run) :
    Steady count before after (liftM x >>= f : ExceptT ε m β).run := by
  have heq : forall u, perform (liftM x >>= f : ExceptT ε m β).run u =
      perform (x >>= fun a => (f a).run) u := by
    intro u
    apply perform_eq
    apply after_except_bind.mpr
    apply after_except_lift.mpr
    rw [Performs.perform_bind]
    exact rfl
  intro w v h
  have hpost := hx.bind hf w v h
  unfold Twin at hpost ⊢
  rw [heq, heq]
  exact hpost

theorem Steady.except_map {g : α -> β} {x : ExceptT ε m α}
    (hx : Steady count before after x.run) : Steady count before after (g <$> x).run := by
  show Steady count before after (ExceptT.map g x).run
  unfold ExceptT.map ExceptT.mk
  apply Steady.bind hx
  intro r
  cases r with
  | ok a => exact steady_pure (Except.ok (g a))
  | error e => exact steady_pure (Except.error e)

end Steadiness

/-!
## Actions with a state
-/

section State

variable {s : σ} {w : W}

theorem perform_request_get_bind (f : σ -> Request m σ α) :
    perform (get >>= f : Request m σ α).run (s, w) = perform (f s).run (s, w) :=
  perform_eq (after_except_bind.mpr (after_request_get.mpr rfl))

theorem perform_state_modifyGet (f : σ -> α × σ) :
    perform (modifyGet f : StateT σ m α) (s, w) = ((f s).1, (f s).2, w) :=
  perform_eq (after_state_modifyGet.mpr rfl)

theorem perform_state_lift (x : m α) :
    perform (StateT.lift x : StateT σ m α) (s, w) =
      ((perform x w).1, s, (perform x w).2) :=
  perform_eq (after_state_lift.mpr rfl)

end State

theorem Twin.handOn {x : ExceptT QueryError m α} {y : ExceptT QueryError m β}
    {answers : Except QueryError α -> Except QueryError β -> Prop} {worlds : W -> W -> Prop}
    {w v : W} (h : Twin answers worlds x.run y.run w v) (s t : σ) :
    Twin answers (fun p q => p.1 = s ∧ q.1 = t ∧ worlds p.2 q.2)
      (Request.handOn x : Request m σ α).run (Request.handOn y : Request m σ β).run
      (s, w) (t, v) := by
  show Twin answers _ (StateT.lift x.run : StateT σ m _) (StateT.lift y.run : StateT σ m _)
    (s, w) (t, v)
  unfold Twin
  rw [perform_state_lift, perform_state_lift]
  exact ⟨h.1, rfl, rfl, h.2⟩

theorem Twin.get_bind {f : σ -> Request m σ α} {g : σ -> Request m σ β}
    {answers : Except QueryError α -> Except QueryError β -> Prop}
    {states : σ × W -> σ × W -> Prop} {s t : σ} {w v : W}
    (h : Twin answers states (f s).run (g t).run (s, w) (t, v)) :
    Twin answers states (get >>= f : Request m σ α).run (get >>= g : Request m σ β).run
      (s, w) (t, v) := by
  unfold Twin
  rw [perform_request_get_bind, perform_request_get_bind]
  exact h

section SteadyState

variable {count : W -> Nat} {before after : σ × W -> σ × W -> Prop}

theorem steady_modifyGet {g : σ -> α × σ}
    (hanswer : forall p q, before p q -> (g p.1).1 = (g q.1).1)
    (hg : forall p q, before p q -> after ((g p.1).2, p.2) ((g q.1).2, q.2)) :
    Steady (count ∘ Prod.snd) before after (modifyGet g : StateT σ m α) := by
  intro p q h
  rcases p with ⟨s, w⟩
  rcases q with ⟨t, v⟩
  unfold Twin
  rw [perform_state_modifyGet, perform_state_modifyGet]
  exact ⟨hanswer _ _ h, hg _ _ h, Nat.le_refl _⟩

theorem steady_modify {g : σ -> σ}
    (hg : forall p q, before p q -> after (g p.1, p.2) (g q.1, q.2)) :
    Steady (count ∘ Prod.snd) before after (modify g : StateT σ m PUnit) :=
  steady_modifyGet (g := fun s => (PUnit.unit, g s)) (fun _ _ _ => rfl) hg

theorem steady_lift {x : m α}
    (hx : forall p q, before p q -> Twin Eq (fun w v => after (p.1, w) (q.1, v) ∧
      count p.2 ≤ count w) x x p.2 q.2) :
    Steady (count ∘ Prod.snd) before after (StateT.lift x : StateT σ m α) := by
  intro p q h
  have hpost := hx p q h
  rcases p with ⟨s, w⟩
  rcases q with ⟨t, v⟩
  unfold Twin at hpost ⊢
  rw [perform_state_lift, perform_state_lift]
  exact hpost

/-- What follows goes alike if it reads nothing of the state but what is the same. -/
theorem steady_reading (core : σ -> σ) {f : σ -> Request m σ α}
    (hread : forall s, f (core s) = f s)
    (hbefore : forall p q, before p q -> core p.1 = core q.1)
    (hf : forall s, Steady (count ∘ Prod.snd) before after (f s).run) :
    Steady (count ∘ Prod.snd) before after (get >>= f : Request m σ α).run := by
  intro p q h
  rcases p with ⟨s, w⟩
  rcases q with ⟨t, v⟩
  have hsame : f s = f t := by
    rw [← hread s, ← hread t, hbefore _ _ h]
  apply Twin.get_bind
  rw [hsame]
  exact hf t (s, w) (t, v) h

end SteadyState
end AsOf
