import AsOf.Proofs.Ledger
import AsOf.Proofs.Replica.Scan
import AsOf.Proofs.Run

/-!
# A replica in use

A session is a replica with its world and the scans that were begun on it.  Between
two requests the world may move: the series may grow at its newest end, the horizon
may go anywhere, and the epoch may advance.  In every session in which the horizon
has moved by the time the replica looks at a series that has grown, each lookup
yields the entry in effect.
-/

namespace AsOf
namespace Replica

open Outlook

structure Begun (V : Type) where
  scan : Scan V
  age : Nat

structure Session (W V : Type) where
  world : W
  memory : State V
  scans : List (Begun V) := []
  resets : Nat := 0
  /-- The series that the replica looked at last, with its horizon. -/
  seen : Series V

inductive Command (W : Type) where
  | lookup (key : Instant)
  | begin (key : Instant)
  | pull (index : Nat)
  | clear
  | move (world : W)

namespace Session

variable {m : Type -> Type} [Monad m] {V W : Type} [Performs m W] {o : Outlook W V}
  {next : Instant -> Instant} {replica : Replica m V} {x : Session W V} {c : Command W}

def here (x : Session W V) : State V × W :=
  (x.memory, x.world)

def start (replica : Replica m V) (o : Outlook W V) (w : W) : Session W V :=
  let r := perform replica.start w
  { world := r.2, memory := r.1, seen := o.series r.2 }

def passed (x : Session W V) (o : Outlook W V) (p : State V × W) (looked : Bool) :
    Session W V :=
  { x with
    memory := p.1
    world := p.2
    seen := if looked then o.series p.2 else x.seen }

def step (replica : Replica m V) (o : Outlook W V) (x : Session W V) :
    Command W -> Session W V
  | .lookup key =>
      x.passed o (perform (replica.lookup key).run x.here).2 true
  | .begin key =>
      { x with scans := x.scans ++ [⟨.startAt key, x.resets⟩] }
  | .pull index =>
      match x.scans[index]? with
      | none => x
      | some begun =>
          let r := perform (replica.pull begun.scan) x.here
          let y := x.passed o r.2 begun.scan.due.isSome
          { y with scans := x.scans.set index ⟨r.1.2, begun.age⟩ }
  | .clear =>
      { x with memory := x.memory.forget, resets := x.resets + 1, seen := o.series x.world }
  | .move w =>
      { x with
        world := w
        resets := if o.epoch w = o.epoch x.world then x.resets else x.resets + 1 }

/-!
## Which commands are allowed, and what they answer
-/

/-- The series is the one seen last, or the horizon or the epoch is not. -/
def Fresh (o : Outlook W V) (x : Session W V) : Prop :=
  o.series x.world = x.seen ∨ o.bound x.world ≠ x.memory.bound ∨
    o.epoch x.world ≠ x.memory.epoch

/--
No scan is resumed after a reset, the series only grows, and it is seen under
another horizon after it has grown.
-/
def Allowed (o : Outlook W V) (x : Session W V) : Command W -> Prop
  | .lookup _ => x.Fresh o
  | .begin _ => True
  | .pull index => forall begun, x.scans[index]? = some begun ->
      begun.age = x.resets ∧ (begun.scan.due ≠ none -> x.Fresh o)
  | .clear => True
  | .move w => o.ready w ∧ (o.series x.world).Grown (o.series w)

def Heard (o : Outlook W V) (w w' : W) : Prop :=
  exists more, o.overheard w' = o.overheard w ++ more ∧
    forall x, x ∈ more -> o.Delivers w w' (· = (o.series w).latestUpTo x.key) x.answer

/-- A lookup, and each one that a listener makes meanwhile, yields the entry in effect. -/
def Answered (replica : Replica m V) (o : Outlook W V) (x : Session W V) : Command W -> Prop
  | .lookup key => After (replica.lookup key).run x.here (fun r p =>
      o.Delivers x.world p.2 (· = (o.series x.world).latestUpTo key) r ∧ Heard o x.world p.2)
  | .pull index => forall begun, x.scans[index]? = some begun ->
      After (replica.pull begun.scan) x.here (fun _ p => Heard o x.world p.2)
  | _ => True

/-!
## What holds between commands
-/

structure Right (o : Outlook W V) (next : Instant -> Instant) (x : Session W V) : Prop where
  ready : o.ready x.world
  sound : x.memory.Sound x.seen
  grown : x.seen.Grown (o.series x.world)
  scans : forall begun, begun ∈ x.scans -> begun.age = x.resets -> begun.scan.Fit o next x.here
  ages : forall begun, begun ∈ x.scans -> begun.age ≤ x.resets

theorem Right.trusted (hx : x.Right o next) (hfresh : x.Fresh o) : Trusted o x.here := by
  intro hepoch
  refine ⟨x.seen, hx.sound, hx.grown, ?_⟩
  intro hbound
  rcases hfresh with hseries | hne | hne
  · exact hseries.symm
  · exact absurd hbound.symm hne
  · exact absurd hepoch.symm hne

theorem Right.passed {p : State V × W} (hx : x.Right o next) (hp : Advance o x.here p) :
    (x.passed o p true).Right o next where
  ready := hp.current.ready
  sound := hp.current.sound
  grown := Series.Grown.refl _
  scans begun hbegun hage := (hx.scans begun hbegun hage).advance hp
  ages := hx.ages

theorem right_start_of_pages (h : replica.Pages o next) {w : W} (hready : o.ready w) :
    (start replica o w).Right o next := by
  have hstart : Settled o _ := (after_start h hready).2
  constructor
  · exact hstart.ready
  · exact hstart.sound
  · exact Series.Grown.refl _
  · intro begun hbegun
    cases hbegun
  · intro begun hbegun
    cases hbegun

theorem right_start (h : replica.Reads o next) {w : W} (hready : o.ready w) :
    (start replica o w).Right o next :=
  right_start_of_pages h.pages hready

theorem Right.set {scan : Scan V} {begun : Begun V} {index : Nat} (hx : x.Right o next)
    (hget : x.scans[index]? = some begun)
    (hfit : begun.age = x.resets -> scan.Fit o next x.here) :
    ({ x with scans := x.scans.set index ⟨scan, begun.age⟩ } : Session W V).Right o next where
  ready := hx.ready
  sound := hx.sound
  grown := hx.grown
  scans other hother hage := by
    rcases List.mem_or_eq_of_mem_set hother with hold | rfl
    · exact hx.scans other hold hage
    · exact hfit hage
  ages other hother := by
    rcases List.mem_or_eq_of_mem_set hother with hold | rfl
    · exact hx.ages other hold
    · exact hx.ages begun (List.mem_of_getElem? hget)

theorem Right.begin (hx : x.Right o next) (key : Instant) :
    (x.step replica o (.begin key)).Right o next where
  ready := hx.ready
  sound := hx.sound
  grown := hx.grown
  scans := by
    intro begun hbegun hage
    rcases List.mem_append.mp hbegun with hold | hnew
    · exact hx.scans begun hold hage
    · cases List.mem_singleton.mp hnew
      exact Scan.fit_startAt key x.here
  ages := by
    intro begun hbegun
    rcases List.mem_append.mp hbegun with hold | hnew
    · exact hx.ages begun hold
    · cases List.mem_singleton.mp hnew
      exact Nat.le_refl _

theorem Right.clear (hx : x.Right o next) : (x.step replica o .clear).Right o next where
  ready := hx.ready
  sound := State.sound_forget _ _
  grown := Series.Grown.refl _
  scans := by
    intro begun hbegun hage
    have hle := hx.ages begun hbegun
    exact absurd hage (Nat.ne_of_lt (Nat.lt_succ_of_le hle))
  ages begun hbegun := Nat.le_succ_of_le (hx.ages begun hbegun)

theorem Right.move (hx : x.Right o next) {w : W} (hready : o.ready w)
    (hgrown : (o.series x.world).Grown (o.series w)) :
    (x.step replica o (.move w)).Right o next where
  ready := hready
  sound := hx.sound
  grown := hx.grown.trans hgrown
  scans := by
    intro begun hbegun hage
    have hle := hx.ages begun hbegun
    by_cases hepoch : o.epoch w = o.epoch x.world
    · simp only [step, if_pos hepoch] at hage
      exact (hx.scans begun hbegun hage).onward hepoch
    · simp only [step, if_neg hepoch] at hage
      exact absurd hage (Nat.ne_of_lt (Nat.lt_succ_of_le hle))
  ages := by
    intro begun hbegun
    have hle := hx.ages begun hbegun
    simp only [step]
    split
    · exact hle
    · exact Nat.le_succ_of_le hle

theorem Heard.refl (w : W) : Heard o w w :=
  (Follows.refl o w).overheard

/-!
## What a command preserves
-/

theorem right_pull (h : replica.Pages o next) (hl : Listens o replica.listener)
    (hx : x.Right o next) {index : Nat} (hallowed : x.Allowed o (.pull index)) :
    x.Answered replica o (.pull index) ∧ (x.step replica o (.pull index)).Right o next := by
  cases hget : x.scans[index]? with
  | none =>
      constructor
      · intro begun hbegun
        rw [hget] at hbegun
        cases hbegun
      · simpa [step, hget] using hx
  | some begun =>
      rcases hallowed begun hget with ⟨hage, hfresh⟩
      have hfit := hx.scans begun (List.mem_of_getElem? hget) hage
      have hpull := after_pull h hl hx.ready hfit fun hdue => hx.trusted (hfresh hdue)
      constructor
      · intro other hother
        cases hget.symm.trans hother
        apply After.imp hpull
        intro r p hpost
        rcases hpost with ⟨-, -, ⟨-, rfl⟩ | ⟨-, hp⟩⟩
        · exact Heard.refl x.world
        · exact hp.follows.overheard
      · simp only [step, hget]
        rcases hpull with ⟨-, hnow, ⟨hnone, hstay⟩ | ⟨hdue, hp⟩⟩
        · rw [hstay] at hnow ⊢
          rw [hnone]
          exact hx.set hget fun _ => hnow
        · rw [Option.isSome_iff_ne_none.mpr hdue]
          exact (hx.passed hp).set hget fun _ => hnow

variable (h : replica.Reads o next) (hl : Listens o replica.listener)

include h hl

theorem right_lookup (hx : x.Right o next) (hfresh : x.Fresh o) (key : Instant) :
    x.Answered replica o (.lookup key) ∧ (x.step replica o (.lookup key)).Right o next := by
  have hlookup := after_lookup h hl hx.ready (hx.trusted hfresh) key
  constructor
  · unfold Answered
    apply After.imp hlookup
    intro r p hpost
    rcases hpost with ⟨hp, hr⟩
    exact ⟨hr.imp fun _ hfound => hfound.1, hp.follows.overheard⟩
  · exact hx.passed hlookup.1

/-- A command that is allowed is answered rightly and leaves the session right. -/
theorem right_step (hx : x.Right o next) (hallowed : x.Allowed o c) :
    x.Answered replica o c ∧ (x.step replica o c).Right o next := by
  cases c with
  | lookup key => exact right_lookup h hl hx hallowed key
  | begin key => exact ⟨trivial, hx.begin key⟩
  | pull index => exact right_pull h.pages hl hx hallowed
  | clear => exact ⟨trivial, hx.clear⟩
  | move w => exact ⟨trivial, hx.move hallowed.1 hallowed.2⟩

omit h hl in
/--
Lookups are exact along a series that grows: in every session of allowed commands,
over a faithful source whose calls may fail, each lookup yields the entry in effect
or a failure of a call made for it, and so does each one made by the listener.
-/
theorem lookups_exact_along_growth {note : Overheard V -> m Unit} {inquire : Entry V -> Inquiry V}
    {depth : Nat} {w : W} {commands : List (Command W)} (h : replica.Reads o next)
    (hnotes : Notes o note) (hready : o.ready w)
    (hallowed : Each (step (replica.overheard note inquire depth) o) (Allowed o)
      (start (replica.overheard note inquire depth) o w) commands) :
    Each (step (replica.overheard note inquire depth) o)
      (Answered (replica.overheard note inquire depth) o)
      (start (replica.overheard note inquire depth) o w) commands := by
  have hheard : (replica.overheard note inquire depth).Reads o next ∧
      Listens o (replica.overheard note inquire depth).listener :=
    listens_overheard h hnotes depth
  have hstep := fun x c (hx : Right o next x) hc => right_step (c := c) hheard.1 hheard.2 hx hc
  exact each_of_kept hstep (right_start hheard.1 hready) hallowed

def curious : Replica (StateM (Ledger Int)) Int :=
  Ledger.plain.overheard Ledger.note (fun e => .ask (e.key.shift 5) fun _ => .done) 2

def across : List (Command (Ledger Int)) :=
  [.lookup (.ofNanos 25), .begin (.ofNanos 10),
    .move { Ledger.holding [10, 20, 30] with bound := some (.ofNanos 35), outages := [true] },
    .lookup (.ofNanos 32), .lookup (.ofNanos 32), .pull 0]

omit h hl in
theorem lookups_exact_on_ledger :
    Each (step curious (Ledger.outlook Ledger.Open)) (Answered curious (Ledger.outlook Ledger.Open))
      (start curious (Ledger.outlook Ledger.Open)
        { Ledger.holding [10, 20] with limit := some ⟨1, by decide⟩ })
      across := by
  apply lookups_exact_along_growth (Ledger.reads_replica Ledger.closed_open {})
    Ledger.notes_note
  · show Ledger.Open _
    decide
  · have hgrown : Ledger.Open { Ledger.holding [10, 20, 30] with outages := [true] } := by decide
    refine ⟨Or.inl rfl, trivial, ⟨hgrown, by decide⟩, Or.inr (Or.inl (by decide)), Or.inl rfl, ?_,
      trivial⟩
    intro begun h
    cases h
    exact ⟨rfl, fun _ => Or.inl rfl⟩

end Session
end Replica
end AsOf
