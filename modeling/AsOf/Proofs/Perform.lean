import AsOf.Request

/-!
# Programs as changes of a world

The actions of this library are generic in a monad.  What they do is read off a
performance: from a world, an action leads to an answer and to a world after it.
State that an action adds becomes a part of the world, and what holds after an
action is found by following its steps from the first to the last.
-/

namespace AsOf

/-- A monad whose programs are read as changes of a world. -/
class Performs (m : Type -> Type) [Monad m] (W : outParam Type) where
  perform : {α : Type} -> m α -> W -> α × W
  perform_pure : forall {α : Type} (a : α) (w : W), perform (pure a) w = (a, w)
  perform_bind : forall {α β : Type} (x : m α) (f : α -> m β) (w : W),
    perform (x >>= f) w = perform (f (perform x w).1) (perform x w).2
  perform_map : forall {α β : Type} (f : α -> β) (x : m α) (w : W),
    perform (f <$> x) w = (f (perform x w).1, (perform x w).2)

export Performs (perform)

instance {W : Type} : Performs (StateM W) W where
  perform x w := x.run w
  perform_pure _ _ := rfl
  perform_bind _ _ _ := rfl
  perform_map _ _ _ := rfl

def withState {α σ W : Type} (r : (α × σ) × W) : α × (σ × W) :=
  (r.1.1, (r.1.2, r.2))

instance {m : Type -> Type} [Monad m] {W σ : Type} [Performs m W] :
    Performs (StateT σ m) (σ × W) where
  perform x p := withState (perform (x.run p.1) p.2)
  perform_pure a p := by
    show withState (perform (pure (a, p.1)) p.2) = _
    rw [Performs.perform_pure]
    rfl
  perform_bind x f p := by
    show withState (perform (x.run p.1 >>= fun r => (f r.1).run r.2) p.2) = _
    rw [Performs.perform_bind]
    rfl
  perform_map f x p := by
    show withState (perform (x.run p.1 >>= fun r => pure (f r.1, r.2)) p.2) = _
    rw [Performs.perform_bind, Performs.perform_pure]
    rfl

variable {m : Type -> Type} [Monad m] {W σ α β ε : Type} [Performs m W]

/-- Something holds of the answer of an action and of the world after it. -/
def After (x : m α) (w : W) (post : α -> W -> Prop) : Prop :=
  post (perform x w).1 (perform x w).2

theorem After.imp {x : m α} {w : W} {p q : α -> W -> Prop} (h : After x w p)
    (hpq : forall a w', p a w' -> q a w') : After x w q :=
  hpq _ _ h

theorem after_of_forall {x : m α} {w : W} {post : α -> W -> Prop}
    (h : forall a w', post a w') : After x w post :=
  h _ _

theorem perform_eq {x : m α} {w : W} {r : α × W} (h : After x w (fun a w' => (a, w') = r)) :
    perform x w = r :=
  h

theorem after_perform (x : m α) (w : W) : After x w (fun a _ => a = (perform x w).1) :=
  rfl

theorem After.and {x : m α} {w : W} {p q : α -> W -> Prop} (hp : After x w p)
    (hq : After x w q) : After x w (fun a w' => p a w' ∧ q a w') :=
  ⟨hp, hq⟩

theorem after_congr {x : m α} {w : W} {p q : α -> W -> Prop}
    (h : forall a w', p a w' ↔ q a w') : After x w p ↔ After x w q :=
  h _ _

theorem after_of_perform_eq {x : m α} {w w' : W} {a : α} {post : α -> W -> Prop}
    (h : perform x w = (a, w')) : After x w post ↔ post a w' := by
  unfold After
  rw [h]

@[simp] theorem after_pure {a : α} {w : W} {post : α -> W -> Prop} :
    After (pure a : m α) w post ↔ post a w :=
  after_of_perform_eq (Performs.perform_pure a w)

@[simp] theorem after_bind {x : m α} {f : α -> m β} {w : W} {post : β -> W -> Prop} :
    After (x >>= f) w post ↔ After x w (fun a w' => After (f a) w' post) := by
  unfold After
  rw [Performs.perform_bind]

@[simp] theorem after_map {f : α -> β} {x : m α} {w : W} {post : β -> W -> Prop} :
    After (f <$> x) w post ↔ After x w (fun a w' => post (f a) w') := by
  unfold After
  rw [Performs.perform_map]

/-- What each of some actions keeps up is kept up by one after the other. -/
theorem after_forM {f : α -> m PUnit} {kept : W -> Prop}
    (hf : forall a w, kept w -> After (f a) w (fun _ w' => kept w')) (l : List α) {w : W}
    (hw : kept w) : After (l.forM f) w (fun _ w' => kept w') := by
  induction l generalizing w with
  | nil => exact after_pure.mpr hw
  | cons a rest ih =>
      apply after_bind.mpr
      apply After.imp (hf a w hw)
      exact fun _ w' hw' => ih hw'

/-!
## Actions with a state
-/

section State

variable {s : σ} {w : W}

@[simp] theorem after_state_get {post : σ -> σ × W -> Prop} :
    After (get : StateT σ m σ) (s, w) post ↔ post s (s, w) := by
  show After (pure (s, s) : m (σ × σ)) w (fun r w' => post r.1 (r.2, w')) ↔ _
  exact after_pure

@[simp] theorem after_state_set {t : σ} {post : PUnit -> σ × W -> Prop} :
    After (set t : StateT σ m PUnit) (s, w) post ↔ post ⟨⟩ (t, w) := by
  show After (pure (⟨⟩, t) : m (PUnit × σ)) w (fun r w' => post r.1 (r.2, w')) ↔ _
  exact after_pure

@[simp] theorem after_state_modifyGet {f : σ -> α × σ} {post : α -> σ × W -> Prop} :
    After (modifyGet f : StateT σ m α) (s, w) post ↔ post (f s).1 ((f s).2, w) := by
  show After (pure (f s) : m (α × σ)) w (fun r w' => post r.1 (r.2, w')) ↔ _
  exact after_pure

@[simp] theorem after_state_modify {f : σ -> σ} {post : PUnit -> σ × W -> Prop} :
    After (modify f : StateT σ m PUnit) (s, w) post ↔ post ⟨⟩ (f s, w) :=
  after_state_modifyGet

@[simp] theorem after_state_lift {x : m α} {post : α -> σ × W -> Prop} :
    After (StateT.lift x : StateT σ m α) (s, w) post ↔
      After x w (fun a w' => post a (s, w')) := by
  show After (x >>= fun a => pure (a, s) : m (α × σ)) w
    (fun r w' => post r.1 (r.2, w')) ↔ _
  simp

@[simp] theorem after_state_monadLift {x : m α} {post : α -> σ × W -> Prop} :
    After (liftM x : StateT σ m α) (s, w) post ↔
      After x w (fun a w' => post a (s, w')) :=
  after_state_lift

end State

/-!
## Actions that may fail
-/

section Failure

variable {w : W}

@[simp] theorem after_except_pure {a : α} {post : Except ε α -> W -> Prop} :
    After (pure a : ExceptT ε m α).run w post ↔ post (.ok a) w :=
  after_pure

@[simp] theorem after_except_throw {e : ε} {post : Except ε α -> W -> Prop} :
    After (throw e : ExceptT ε m α).run w post ↔ post (.error e) w :=
  after_pure

theorem after_except_bind {x : ExceptT ε m α} {f : α -> ExceptT ε m β}
    {post : Except ε β -> W -> Prop} :
    After (x >>= f).run w post ↔
      After x.run w (fun r w' =>
        match r with
        | .ok a => After (f a).run w' post
        | .error e => post (.error e) w') := by
  show After (x.run >>= ExceptT.bindCont f) w post ↔ _
  rw [after_bind]
  apply after_congr
  intro r w'
  cases r with
  | ok a =>
      exact Iff.rfl
  | error e =>
      exact after_pure (m := m)

@[simp] theorem after_except_map {f : α -> β} {x : ExceptT ε m α}
    {post : Except ε β -> W -> Prop} :
    After (f <$> x).run w post ↔ After x.run w (fun r w' => post (r.map f) w') := by
  show After (ExceptT.map f x).run w post ↔ _
  unfold ExceptT.map ExceptT.mk
  rw [ExceptT.run, after_bind]
  apply after_congr
  intro r w'
  cases r with
  | ok a =>
      exact after_pure (m := m)
  | error e =>
      exact after_pure (m := m)

@[simp] theorem after_except_mk {x : m (Except ε α)} {post : Except ε α -> W -> Prop} :
    After (ExceptT.mk x).run w post ↔ After x w post := Iff.rfl

@[simp] theorem after_except_lift {x : m α} {post : Except ε α -> W -> Prop} :
    After (liftM x : ExceptT ε m α).run w post ↔ After x w (fun a w' => post (.ok a) w') := by
  show After (Except.ok <$> x) w post ↔ _
  exact after_map

@[simp] theorem after_except_adapt {δ : Type} {f : ε -> δ} {x : ExceptT ε m α}
    {post : Except δ α -> W -> Prop} :
    After (x.adapt f).run w post ↔ After x.run w (fun r w' => post (r.mapError f) w') := by
  show After (Except.mapError f <$> x.run) w post ↔ _
  exact after_map

end Failure

/-!
## Requests
-/

section Request

variable {s : σ} {w : W}

@[simp] theorem after_request_get {post : Except QueryError σ -> σ × W -> Prop} :
    After (get : Request m σ σ).run (s, w) post ↔ post (.ok s) (s, w) := by
  show After (Except.ok <$> (get : StateT σ m σ)) (s, w) post ↔ _
  exact after_map.trans after_state_get

@[simp] theorem after_request_set {t : σ} {post : Except QueryError PUnit -> σ × W -> Prop} :
    After (set t : Request m σ PUnit).run (s, w) post ↔ post (.ok ⟨⟩) (t, w) := by
  show After (Except.ok <$> (set t : StateT σ m PUnit)) (s, w) post ↔ _
  exact after_map.trans after_state_set

@[simp] theorem after_request_modify {f : σ -> σ}
    {post : Except QueryError PUnit -> σ × W -> Prop} :
    After (modify f : Request m σ PUnit).run (s, w) post ↔ post (.ok ⟨⟩) (f s, w) := by
  show After (Except.ok <$> (modify f : StateT σ m PUnit)) (s, w) post ↔ _
  exact after_map.trans after_state_modify

@[simp] theorem after_request_liftState {x : StateT σ m α}
    {post : Except QueryError α -> σ × W -> Prop} :
    After (liftM x : Request m σ α).run (s, w) post ↔
      After x (s, w) (fun a p => post (.ok a) p) :=
  after_except_lift

@[simp] theorem after_request_lift {x : m α} {post : Except QueryError α -> σ × W -> Prop} :
    After (liftM x : Request m σ α).run (s, w) post ↔
      After x w (fun a w' => post (.ok a) (s, w')) := by
  show After (Except.ok <$> (StateT.lift x : StateT σ m α)) (s, w) post ↔ _
  simp

@[simp] theorem after_request_handOn {below : ExceptT QueryError m α}
    {post : Except QueryError α -> σ × W -> Prop} :
    After (Request.handOn below : Request m σ α).run (s, w) post ↔
      After below.run w (fun r w' => post r (s, w')) :=
  after_state_lift

@[simp] theorem after_request_settled {outcome : Except QueryError α}
    {post : Except QueryError α -> σ × W -> Prop} :
    After (Request.settled outcome : Request m σ α).run (s, w) post ↔ post outcome (s, w) :=
  after_pure

end Request

/-!
## Results that are good unless they are failures
-/

section Results

variable {w : W}

def WhenOk (good : α -> Prop) : Except ε α -> Prop
  | .ok a => good a
  | .error _ => True

theorem WhenOk.imp {good better : α -> Prop} {r : Except ε α} (h : WhenOk good r)
    (himp : forall a, good a -> better a) : WhenOk better r := by
  cases r with
  | ok a => exact himp a h
  | error e => trivial

theorem WhenOk.map {good : α -> Prop} {better : β -> Prop} {f : α -> β} {r : Except ε α}
    (h : WhenOk good r) (himp : forall a, good a -> better (f a)) : WhenOk better (r.map f) := by
  cases r with
  | ok a => exact himp a h
  | error e => trivial

theorem after_bind_ok {x : ExceptT ε m α} {f : α -> ExceptT ε m β} {good : α -> W -> Prop}
    {better : β -> W -> Prop} (hx : After x.run w (fun r w' => WhenOk (fun a => good a w') r))
    (hf : forall a w', good a w' ->
      After (f a).run w' (fun r w'' => WhenOk (fun b => better b w'') r)) :
    After (x >>= f).run w (fun r w' => WhenOk (fun b => better b w') r) := by
  apply after_except_bind.mpr
  apply After.imp hx
  intro r w' hr
  cases r with
  | ok a => exact hf a w' hr
  | error e => trivial

theorem after_bind_whenOk {x : ExceptT ε m α} {f : α -> ExceptT ε m β} {good : α -> Prop}
    {better : β -> Prop} (hx : After x.run w (fun r _ => WhenOk good r))
    (hf : forall a w', good a -> After (f a).run w' (fun r _ => WhenOk better r)) :
    After (x >>= f).run w (fun r _ => WhenOk better r) :=
  after_bind_ok hx hf

def WhenError (bad : ε -> Prop) : Except ε α -> Prop
  | .ok _ => True
  | .error e => bad e

theorem WhenError.map {bad : ε -> Prop} {f : α -> β} {r : Except ε α} (h : WhenError bad r) :
    WhenError bad (r.map f) := by
  cases r with
  | ok a => trivial
  | error e => exact h

theorem after_bind_both {x : ExceptT ε m α} {f : α -> ExceptT ε m β} {good : α -> Prop}
    {better : β -> Prop} {bad : ε -> Prop}
    (hok : After x.run w (fun r _ => WhenOk good r))
    (herror : After x.run w (fun r _ => WhenError bad r))
    (hf : forall a w', good a ->
      After (f a).run w' (fun r _ => WhenOk better r ∧ WhenError bad r)) :
    After (x >>= f).run w (fun r _ => WhenOk better r ∧ WhenError bad r) := by
  apply after_except_bind.mpr
  apply After.imp (hok.and herror)
  intro r w' hr
  cases r with
  | ok a => exact hf a w' hr.1
  | error e => exact ⟨trivial, hr.2⟩

end Results
end AsOf
