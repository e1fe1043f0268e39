/-!
# Runs of commands

A machine is given one command after another.  What is right of every command that
is allowed, in states that allowed commands keep, is right of all commands of a run.
-/

namespace AsOf

variable {σ γ : Type} {step : σ -> γ -> σ} {x : σ} {commands : List γ}

/-- Something holds of every command of a run, in the state in which it is given. -/
def Each (step : σ -> γ -> σ) (P : σ -> γ -> Prop) (x : σ) : List γ -> Prop
  | [] => True
  | c :: rest => P x c ∧ Each step P (step x c) rest

/-- Something holds of every state that a run passes through. -/
def Throughout (step : σ -> γ -> σ) (P : σ -> Prop) (x : σ) : List γ -> Prop
  | [] => P x
  | c :: rest => P x ∧ Throughout step P (step x c) rest

theorem each_true : Each step (fun _ _ => True) x commands := by
  induction commands generalizing x with
  | nil => trivial
  | cons c rest ih => exact ⟨trivial, ih⟩

theorem each_of_mem {P : γ -> Prop} (h : forall c, c ∈ commands -> P c) :
    Each step (fun _ c => P c) x commands := by
  induction commands generalizing x with
  | nil => trivial
  | cons c rest ih =>
      exact ⟨h c (List.mem_cons_self ..), ih fun d hd => h d (List.mem_cons_of_mem c hd)⟩

theorem each_of_kept {Kept : σ -> Prop} {Allowed Answered : σ -> γ -> Prop}
    (h : forall x c, Kept x -> Allowed x c -> Answered x c ∧ Kept (step x c)) (hx : Kept x)
    (hallowed : Each step Allowed x commands) : Each step Answered x commands := by
  induction commands generalizing x with
  | nil => trivial
  | cons c rest ih =>
      have hstep := h x c hx hallowed.1
      exact ⟨hstep.1, ih hstep.2 hallowed.2⟩

theorem each_iff_of_kept {Kept : σ -> Prop} {Allowed P Q : σ -> γ -> Prop}
    (h : forall x c, Kept x -> Allowed x c -> (P x c ↔ Q x c) ∧ (Q x c -> Kept (step x c)))
    (hx : Kept x) (hallowed : Each step Allowed x commands) :
    Each step P x commands ↔ Each step Q x commands := by
  induction commands generalizing x with
  | nil => exact Iff.rfl
  | cons c rest ih =>
      have hstep := h x c hx hallowed.1
      exact and_congr hstep.1 (Iff.of_eq rfl) |>.trans
        (and_congr_right fun hq => ih (hstep.2 hq) hallowed.2)

theorem Throughout.here {P : σ -> Prop} (h : Throughout step P x commands) : P x := by
  cases commands with
  | nil => exact h
  | cons c rest => exact h.1

theorem throughout_of_kept {Kept Good : σ -> Prop} {Allowed : σ -> γ -> Prop}
    (h : forall x c, Kept x -> Allowed x c -> Kept (step x c)) (hgood : forall x, Kept x -> Good x)
    (hx : Kept x) (hallowed : Each step Allowed x commands) : Throughout step Good x commands := by
  induction commands generalizing x with
  | nil => exact hgood x hx
  | cons c rest ih => exact ⟨hgood x hx, ih (h x c hx hallowed.1) hallowed.2⟩

/-- What every kept state has, and none after a fault, is had throughout while there is no fault. -/
theorem throughout_iff_faultless {Kept Good : σ -> Prop} {Allowed Fault : σ -> γ -> Prop}
    (hgood : forall x, Kept x -> Good x)
    (hstep : forall x c, Kept x -> Allowed x c -> ¬ Fault x c -> Kept (step x c))
    (hfault : forall x c, Kept x -> Allowed x c -> Fault x c -> ¬ Good (step x c))
    (hx : Kept x) (hallowed : Each step Allowed x commands) :
    Throughout step Good x commands ↔ Each step (fun x c => ¬ Fault x c) x commands := by
  induction commands generalizing x with
  | nil => exact ⟨fun _ => trivial, fun _ => hgood x hx⟩
  | cons c rest ih =>
      rcases hallowed with ⟨hc, hrest⟩
      constructor
      · rintro ⟨-, hthroughout⟩
        have hnot : ¬ Fault x c := fun h => hfault x c hx hc h hthroughout.here
        exact ⟨hnot, (ih (hstep x c hx hc hnot) hrest).mp hthroughout⟩
      · rintro ⟨hnot, heach⟩
        exact ⟨hgood x hx, (ih (hstep x c hx hc hnot) hrest).mpr heach⟩

end AsOf
