import AsOf.Proofs.Engine.Session
import AsOf.Proofs.Replica.Archive

/-!
# Two engines over one replica

A direct and a windowed engine share a replica and its horizon, while the series grows
at its newest end and nothing is refreshed.  The horizon has moved by the time the
replica looks at a series that has grown, so the direct engine answers from the series
as it is.

The windowed engine answers in the same way, with one exception.  When it is asked
about the instant that its window was last shaped for, it takes the window for the
answer, although entries may have come up to that instant since.
-/

namespace AsOf

variable {V : Type}

/-!
## Runs from an earlier instant
-/

namespace Series

variable {s old new : Series V} {a b : Instant} {e : Entry V} {count n : Nat}

theorem exists_downFrom_append (hle : b ≤ a) : exists newer, s.downFrom a = newer ++ s.downFrom b ∧
    forall e, e ∈ newer ↔ e ∈ s ∧ b < e.key ∧ e.key ≤ a := by
  have hsplit : s.downFrom a =
      ((s.downFrom a).takeWhile fun e => b < e.key) ++ s.downFrom b := by
    have hrest := (s.descending_downFrom a).dropWhile_eq_filter b
    rw [filter_downFrom hle] at hrest
    rw [← hrest, List.takeWhile_append_dropWhile]
  refine ⟨_, hsplit, fun e => ⟨fun he => ?_, fun he => ?_⟩⟩
  · have hmem := mem_downFrom.mp ((List.takeWhile_sublist _).subset he)
    have hlater := List.all_eq_true.mp List.all_takeWhile e he
    exact ⟨hmem.1, of_decide_eq_true hlater, hmem.2⟩
  · have hrun : e ∈ s.downFrom a := mem_downFrom.mpr ⟨he.1, he.2.2⟩
    rw [hsplit] at hrun
    rcases List.mem_append.mp hrun with hnewer | hbelow
    · exact hnewer
    · exact absurd he.2.1 (Std.not_lt.mpr (mem_downFrom.mp hbelow).2)

theorem downFrom_eq_of_none (hle : b ≤ a) (hnone : forall e, e ∈ s -> b < e.key -> ¬ e.key ≤ a) :
    s.downFrom b = s.downFrom a := by
  rcases exists_downFrom_append hle with ⟨newer, hsplit, hnewer⟩
  have hnil : newer = [] := by
    apply List.eq_nil_iff_forall_not_mem.mpr
    intro e he
    have hbetween := (hnewer e).mp he
    exact hnone e hbetween.1 hbetween.2.1 hbetween.2.2
  rw [hsplit, hnil, List.nil_append]

theorem entryBack_eq_getElem? (s : Series V) (a : Instant) (n : Nat) :
    s.entryBack a n = (s.downFrom a)[min n ((s.downFrom a).length - 1)]? := by
  unfold entryBack
  generalize s.downFrom a = run
  rw [List.getLast?_eq_getElem?]
  by_cases hlt : n < run.length
  · rw [Nat.min_eq_left (by omega), List.getElem?_eq_getElem hlt]
    rfl
  · rw [Nat.min_eq_right (by omega), List.getElem?_eq_none (Nat.le_of_not_lt hlt)]
    rfl

section Between

variable (hle : b ≤ a) (hbelow : s.downFrom b ≠ [])
  (hbetween : exists e, e ∈ s ∧ b < e.key ∧ e.key ≤ a)

include hle hbelow hbetween

theorem lastUpTo_ne (hpos : 0 < count) : s.lastUpTo b count ≠ s.lastUpTo a count := by
  rcases exists_downFrom_append hle with ⟨newer, hsplit, hnewer⟩
  rcases hbetween with ⟨e, he⟩
  rcases List.exists_cons_of_ne_nil (List.ne_nil_of_mem ((hnewer e).mpr he)) with
    ⟨first, rest, rfl⟩
  rcases List.exists_cons_of_ne_nil hbelow with ⟨first', rest', hfirst'⟩
  intro heq
  rw [lastUpTo_eq, lastUpTo_eq, List.reverse_inj, hsplit, hfirst', List.cons_append,
    List.take_cons hpos, List.take_cons hpos] at heq
  have hfirst : first' ∈ s.downFrom b := by
    rw [hfirst']
    exact List.mem_cons_self ..
  have hlt := ((hnewer first).mp (List.mem_cons_self ..)).2.1
  rw [← (List.cons.inj heq).1] at hlt
  exact absurd hlt (Std.not_lt.mpr (mem_downFrom.mp hfirst).2)

/-- Going back from different entries in effect leads to one entry only at the oldest one. -/
theorem entryBack_eq_iff : s.entryBack b n = s.entryBack a n ↔ (s.upTo a).length ≤ n + 1 := by
  rcases exists_downFrom_append hle with ⟨newer, hsplit, hnewer⟩
  rcases hbetween with ⟨e, he⟩
  have hpos : 0 < newer.length := List.length_pos_of_mem ((hnewer e).mpr he)
  have hpos' : 0 < (s.downFrom b).length := List.length_pos_iff.mpr hbelow
  have hlength : (s.downFrom a).length = newer.length + (s.downFrom b).length := by
    rw [hsplit, List.length_append]
  have hnodup : (s.downFrom a).Nodup := by
    apply (s.descending_downFrom a).imp
    intro x y hlt heq
    exact absurd (heq ▸ hlt) Std.lt_irrefl
  have hback : s.entryBack b n =
      (s.downFrom a)[newer.length + min n ((s.downFrom b).length - 1)]? := by
    rw [entryBack_eq_getElem?, hsplit, List.getElem?_append_right (by omega)]
    congr 1
    omega
  rw [hback, entryBack_eq_getElem?, upTo_eq_reverse, List.length_reverse]
  exact (List.getElem?_inj (by omega) hnodup).trans (by omega)

end Between

theorem Grown.downFrom_eq (h : old.Grown new) (he : e ∈ old) :
    new.downFrom e.key = old.downFrom e.key := by
  apply (new.descending_downFrom e.key).eq_of_mem_iff (old.descending_downFrom e.key)
  intro x
  rw [mem_downFrom, mem_downFrom]
  constructor
  · intro hx
    rcases h.newer x hx.1 with hold | hnew
    · exact ⟨hold, hx.2⟩
    · exact absurd hx.2 (Std.not_le.mpr (hnew e he))
  · exact fun hx => ⟨h.mem x hx.1, hx.2⟩

end Series

namespace Window

variable {w : Window V} {s old new : Series V} {a : Instant}

theorem Gapless.grown (h : w.Gapless old) (hgrown : old.Grown new) : w.Gapless new where
  entries newest hnewest := by
    have hfront := h.entries newest hnewest
    have hmem := (Series.mem_of_prefix hfront (List.mem_of_head? hnewest)).1
    rw [hgrown.downFrom_eq hmem]
    exact hfront
  anchor := h.anchor

/-- A window that was last shaped for an instant up to which the series has newer entries. -/
structure Outgrown (s : Series V) (w : Window V) (a : Instant) : Prop where
  anchored : w.anchor = some a
  newer : exists newest e, w.newest? = some newest ∧ e ∈ s ∧ newest.key < e.key ∧ e.key ≤ a

theorem Gapless.downFrom_base (h : w.Gapless s) (hnot : ¬ w.Outgrown s a) :
    s.downFrom (w.base a) = s.downFrom a := by
  by_cases hanchor : w.anchor = some a
  · cases hnewest : w.newest? with
    | none => rw [base_of_none hnewest]
    | some newest =>
        rw [base_of_anchor hnewest hanchor]
        apply Series.downFrom_eq_of_none (h.anchor newest a hnewest hanchor)
        intro e he hlt hle
        exact hnot ⟨hanchor, newest, e, hnewest, he, hlt, hle⟩
  · rw [base_of_ne hanchor]

theorem Gapless.base_of_outgrown (h : w.Gapless s) (hout : w.Outgrown s a) :
    s.downFrom (w.base a) ≠ [] ∧ exists e, e ∈ s ∧ w.base a < e.key ∧ e.key ≤ a := by
  rcases hout.newer with ⟨newest, e, hnewest, he, hlt, hle⟩
  rw [base_of_anchor hnewest hout.anchored]
  constructor
  · exact List.ne_nil_of_mem ((h.entries newest hnewest).subset (List.mem_of_head? hnewest))
  · exact ⟨e, he, hlt, hle⟩

end Window

namespace Engine

open Outlook

/-!
## What the base of a window makes of a reply
-/

namespace Question

variable {s : Series V} {a b : Instant} {bound : Option Instant}

/-- The reply of a series about an instant, if its runs are read from another one. -/
def expected (s : Series V) (options : Options) (a b : Instant) (bound : Option Instant) :
    (q : Question) -> Except QueryError (q.Reply V)
  | entry => options.demand.verdict a (s.latestUpTo a)
  | previousEntry distance =>
      .ok (s.entryBack (if distance = 0 then a else b) (min distance (Count.limit - 1)))
  | previousEntries count => .ok (s.lastUpTo (if count ≤ 1 then a else b) count)
  | nextEntry distance => .ok (s.entryAhead a bound (min distance (Count.limit - 1)))
  | nextEntries count => .ok ((s.between a bound).take count)

/-- The reply is read off a run, and shows from where: it is not the oldest entry at any rate. -/
def Discerns (s : Series V) (a : Instant) : Question -> Prop
  | previousEntry distance =>
      distance ≠ 0 ∧ min distance (Count.limit - 1) + 1 < (s.upTo a).length
  | previousEntries count => 2 ≤ count
  | entry | nextEntry _ | nextEntries _ => False

theorem expected_congr (hrun : s.downFrom b = s.downFrom a) (options : Options) (q : Question) :
    q.expected s options a b bound = q.expected s options a a bound := by
  cases q with
  | previousEntry distance =>
      show Except.ok _ = Except.ok _
      unfold Series.entryBack
      rw [apply_ite s.downFrom, hrun, ite_self, ite_self]
  | previousEntries count =>
      show Except.ok _ = Except.ok _
      rw [Series.lastUpTo_eq, Series.lastUpTo_eq, apply_ite s.downFrom, hrun, ite_self, ite_self]
  | entry | nextEntry _ | nextEntries _ => rfl

theorem expected_eq_iff (hle : b ≤ a) (hbelow : s.downFrom b ≠ [])
    (hbetween : exists e, e ∈ s ∧ b < e.key ∧ e.key ≤ a) (options : Options) (q : Question) :
    q.expected s options a b bound = q.expected s options a a bound ↔ ¬ q.Discerns s a := by
  cases q with
  | previousEntry distance =>
      show (Except.ok _ : Except QueryError (Option (Entry V))) = .ok _ ↔ ¬ (_ ∧ _)
      rw [ite_self, Except.ok.injEq]
      by_cases hzero : distance = 0
      · simp [hzero]
      · rw [if_neg hzero, Series.entryBack_eq_iff hle hbelow hbetween]
        simp [hzero]
  | previousEntries count =>
      show (Except.ok _ : Except QueryError (List (Entry V))) = .ok _ ↔ ¬ 2 ≤ count
      rw [ite_self, Except.ok.injEq]
      by_cases hone : count ≤ 1
      · rw [if_pos hone]
        exact iff_of_true rfl (by omega)
      · rw [if_neg hone]
        exact iff_of_false (Series.lastUpTo_ne hle hbelow hbetween (by omega)) (by omega)
  | entry | nextEntry _ | nextEntries _ => exact iff_of_true rfl id

theorem expected_base_iff {w : Window V} (h : w.Gapless s) (options : Options) (q : Question) :
    q.expected s options a (w.base a) bound = q.expected s options a a bound ↔
      ¬ (w.Outgrown s a ∧ q.Discerns s a) := by
  by_cases hout : w.Outgrown s a
  · rcases h.base_of_outgrown hout with ⟨hbelow, hbetween⟩
    rw [expected_eq_iff (h.base_le a) hbelow hbetween]
    simp [hout]
  · rw [expected_congr (h.downFrom_base hout)]
    simp [hout]

variable {m : Type -> Type} [Monad m] {W : Type} [Performs m W] {o : Outlook W V}
  {view : View m V} {live : W -> view.archive.Scan -> Prop}
  {awaits : W -> view.archive.Scan -> List (Entry V) -> Prop}
  {P : Series V -> Window V -> Prop} {p : State V × W}

/-- Every question is replied to from the series, with runs from the base of the window on. -/
theorem after_put_base (h : view.Reads o live) (hscans : view.archive.Scans o awaits)
    (hready : o.ready p.2) (hP : forall series, Window.Shaping series (P series))
    (hkept : Kept P o p) (options : Options) (key : Instant) (q : Question) :
    After (q.put view options key).run p (fun r p' => Serves P o p p' ∧
      o.Returns p.2 p'.2 (q.expected (o.series p.2) options (o.about p.2 options key)
        (p.1.base (o.epoch p.2) (o.about p.2 options key)) (o.within p.2 options)) r) := by
  cases q with
  | entry => exact after_entry h hready options key
  | previousEntry distance =>
      apply After.imp (after_previousEntry_base h hready hP hkept options key distance)
      exact fun r p' hr => ⟨hr.1, hr.2.returns⟩
  | previousEntries count =>
      apply After.imp (after_previousEntries_base h hready hP hkept options key count)
      exact fun r p' hr => ⟨hr.1, hr.2.returns⟩
  | nextEntry distance =>
      apply After.imp (after_handOn (View.after_nextEntry h hscans hready options key distance))
      exact fun r p' hr => ⟨hr.1, hr.2.returns⟩
  | nextEntries count =>
      apply After.imp (after_handOn (View.after_nextEntries h hscans hready options key count))
      exact fun r p' hr => ⟨hr.1, hr.2.returns⟩

end Question

/-!
## Sessions
-/

structure Shared (W V : Type) where
  engines : Kind -> State V
  memory : Replica.State V
  world : W
  /-- The series when the replica last knew the horizon of the world. -/
  seen : Series V

namespace Shared

inductive Command (W : Type) where
  | ask (kind : Kind) (options : Options) (key : Instant) (q : Question)
  | move (world : W)

variable {m : Type -> Type} [Monad m] {W : Type} [Performs m W] {o : Outlook W V}
  {next : Instant -> Instant} {replica : Replica m V} {x : Shared W V} {c : Command W}

def below (x : Shared W V) : Replica.State V × W :=
  (x.memory, x.world)

def here (x : Shared W V) (kind : Kind) : State V × (Replica.State V × W) :=
  (x.engines kind, x.below)

def start (replica : Replica m V) (o : Outlook W V) (maximum : Option Positive) (w : W) :
    Shared W V :=
  let r := perform replica.start w
  let d := perform (Engine.start replica.view .direct none) r
  let e := perform (Engine.start replica.view .windowed maximum) d.2
  { engines := fun
      | .direct => d.1
      | .windowed => e.1
    memory := e.2.1
    world := e.2.2
    seen := o.series e.2.2 }

def reply (replica : Replica m V) (x : Shared W V) (kind : Kind) (options : Options)
    (key : Instant) (q : Question) : Except QueryError (q.Reply V) :=
  (perform (q.put replica.view options key).run (x.here kind)).1

def asked (x : Shared W V) (o : Outlook W V) (kind : Kind)
    (p : State V × (Replica.State V × W)) : Shared W V :=
  { engines := fun other => if other = kind then p.1 else x.engines other
    memory := p.2.1
    world := p.2.2
    seen := if p.2.1.bound = o.bound p.2.2 then o.series p.2.2 else x.seen }

def step (replica : Replica m V) (o : Outlook W V) (x : Shared W V) : Command W -> Shared W V
  | .ask kind options key q =>
      x.asked o kind (perform (q.put replica.view options key).run (x.here kind)).2
  | .move w =>
      { x with world := w }

/-- The series only grows, and it is looked at under another horizon after it has grown. -/
def Allowed (o : Outlook W V) (x : Shared W V) : Command W -> Prop
  | .ask _ _ _ _ => o.series x.world = x.seen ∨ o.bound x.world ≠ x.memory.bound
  | .move w => o.ready w ∧ o.epoch w = o.epoch x.world ∧ (o.series x.world).Grown (o.series w)

/-- Both engines reply to a question in the same way, in the state in which it is asked. -/
def Agrees (replica : Replica m V) (x : Shared W V) : Command W -> Prop
  | .ask _ options key q =>
      x.reply replica .windowed options key q = x.reply replica .direct options key q
  | .move _ => True

/-- The window is outgrown at the instant of a question that discerns it. -/
def Stale (o : Outlook W V) (x : Shared W V) : Command W -> Prop
  | .ask _ options key q =>
      exists window, (x.engines .windowed).window? = some window ∧
        window.Outgrown (o.series x.world) (o.about x.world options key) ∧
        q.Discerns (o.series x.world) (o.about x.world options key)
  | .move _ => False

/-!
## What holds between commands
-/

structure Knows (o : Outlook W V) (seen : Series V) (p : Replica.State V × W) : Prop where
  ready : o.ready p.2
  memory : Replica.Current o p ∨ p.1.Sound seen ∧ seen.Grown (o.series p.2) ∧
    (p.1.bound = o.bound p.2 -> seen = o.series p.2)

theorem lasting_knows (o : Outlook W V) (seen : Series V) :
    Replica.Lasting o (Knows o seen) where
  ready _ hp := hp.ready
  trusted _ hp := by
    rcases hp.memory with hcurrent | hseen
    · exact hcurrent.trusted
    · exact fun _ => ⟨seen, hseen⟩
  advance _ _ _ ha := ⟨ha.current.ready, Or.inl ha.current⟩
  onward p w hp hw := by
    refine ⟨hw.ready hp.ready, ?_⟩
    rcases hp.memory with hcurrent | ⟨hsound, hgrown, hmoved⟩
    · exact Or.inl ((hcurrent.onward hw).current hcurrent)
    · refine Or.inr ⟨hsound, hw.series ▸ hgrown, fun hbound => ?_⟩
      exact (hmoved (hbound.trans hw.bound)).trans hw.series.symm

structure Right (o : Outlook W V) (x : Shared W V) : Prop where
  ready : o.ready x.world
  sound : x.memory.Sound x.seen
  grown : x.seen.Grown (o.series x.world)
  kinds : forall kind, (x.engines kind).kind = kind
  windows : forall kind s, x.engines kind = .windowed s ->
    s.window.Gapless (o.series x.world) ∧ s.epoch = o.epoch x.world

theorem Right.knows (hx : x.Right o)
    (hfresh : o.series x.world = x.seen ∨ o.bound x.world ≠ x.memory.bound) :
    Knows o x.seen x.below := by
  refine ⟨hx.ready, Or.inr ⟨hx.sound, hx.grown, fun hbound => ?_⟩⟩
  rcases hfresh with hseries | hne
  · exact hseries.symm
  · exact absurd hbound.symm hne

theorem Knows.asked {p : State V × (Replica.State V × W)} (hp : Knows o x.seen p.2)
    (kind : Kind) :
    (x.asked o kind p).memory.Sound (x.asked o kind p).seen ∧
      (x.asked o kind p).seen.Grown (o.series p.2.2) := by
  unfold Shared.asked
  rcases hp.memory with hcurrent | ⟨hsound, hgrown, hmoved⟩
  · simp only [if_pos hcurrent.bound]
    exact ⟨hcurrent.sound, Series.Grown.refl _⟩
  · split
    · rename_i hbound
      rw [← hmoved hbound]
      exact ⟨hsound, Series.Grown.refl _⟩
    · exact ⟨hsound, hgrown⟩

theorem Right.asked {kind : Kind} {p : State V × (Replica.State V × W)} (hx : x.Right o)
    (hserves : Serves Window.Gapless (o.part Prod.snd (Knows o x.seen)) (x.here kind) p)
    (hknows : Knows o x.seen p.2) : (x.asked o kind p).Right o := by
  have hfollows := hserves.follows
  have hseries : o.series p.2.2 = o.series x.world := hfollows.series
  have hepoch : o.epoch p.2.2 = o.epoch x.world := hfollows.epoch
  have hseen := hknows.asked (x := x) kind
  constructor
  · exact hknows.ready
  · exact hseen.1
  · exact hseen.2
  · intro other
    by_cases heq : other = kind
    · subst heq
      simpa [Shared.asked] using hserves.kind.trans (hx.kinds other)
    · simpa [Shared.asked, heq] using hx.kinds other
  · intro other s hs
    by_cases heq : other = kind
    · subst heq
      simp only [Shared.asked, if_pos] at hs
      constructor
      · exact hserves.attached (fun s hs => (hx.windows other s hs).1) s hs
      · exact hserves.epoch_eq (fun s hs => (hx.windows other s hs).2) s hs
    · simp only [Shared.asked, if_neg heq] at hs ⊢
      rw [hseries, hepoch]
      exact hx.windows other s hs

theorem Right.move (hx : x.Right o) {w : W} (hallowed : x.Allowed o (.move w)) :
    (x.step replica o (.move w)).Right o where
  ready := hallowed.1
  sound := hx.sound
  grown := hx.grown.trans hallowed.2.2
  kinds := hx.kinds
  windows kind s hs := by
    have hwindow := hx.windows kind s hs
    exact ⟨hwindow.1.grown hallowed.2.2, hwindow.2.trans hallowed.2.1.symm⟩

section Steps

variable (h : replica.Reads o next) (hl : Replica.Listens o replica.listener)
  (hback : replica.source.StepsBack o) (hsure : forall w, o.ready w -> o.failures w = [])

include h hl hback

theorem right_start (maximum : Option Positive) {w : W} (hready : o.ready w) :
    (start replica o maximum w).Right o := by
  have hmemory : Replica.Settled o (perform replica.start w) :=
    (Replica.after_start h.pages hready).2
  have hlasting := Replica.lasting_usable o next fun _ => False
  have hreads := Replica.reads_view hlasting h hl hback
  have husable : Replica.Usable o next (fun _ => False) (perform replica.start w) :=
    ⟨hmemory, fun _ hscan => hscan.elim⟩
  have hdirect := after_start hreads.epoch husable .direct none
  have husable' := hdirect.1.ready husable
  have hwindowed := after_start hreads.epoch husable' .windowed maximum
  have hend := hwindowed.1.ready husable'
  have hkind : ((start replica o maximum w).engines .direct).kind = .direct :=
    kind_start replica.view .direct none
  constructor
  · exact hend.ready
  · exact hend.sound
  · exact Series.Grown.refl _
  · intro kind
    cases kind with
    | direct => exact hkind
    | windowed => exact kind_start replica.view .windowed maximum
  · intro kind s hs
    cases kind with
    | direct =>
        rw [hs] at hkind
        cases hkind
    | windowed =>
        have hfresh := hwindowed.2 s hs
        rw [hfresh.2]
        exact ⟨Window.gapless_empty _, hfresh.1⟩

theorem after_ask (hx : x.Right o)
    (hfresh : o.series x.world = x.seen ∨ o.bound x.world ≠ x.memory.bound) (kind : Kind)
    (options : Options) (key : Instant) (q : Question) :
    After (q.put replica.view options key).run (x.here kind) (fun r p' =>
      Serves Window.Gapless (o.part Prod.snd (Knows o x.seen)) (x.here kind) p' ∧
        (o.part Prod.snd (Knows o x.seen)).Returns x.below p'.2
          (q.expected (o.series x.world) options (o.about x.world options key)
            ((x.engines kind).base (o.epoch x.world) (o.about x.world options key))
            (o.within x.world options)) r) := by
  have hlasting := lasting_knows o x.seen
  exact Question.after_put_base (p := x.here kind) (Replica.reads_view hlasting h hl hback)
    (Replica.scans_archive h hl hlasting) (hx.knows hfresh) Window.shaping_gapless
    (fun s hs _ => (hx.windows kind s hs).1) options key q

include hsure in
theorem reply_eq (hx : x.Right o)
    (hfresh : o.series x.world = x.seen ∨ o.bound x.world ≠ x.memory.bound) (kind : Kind)
    (options : Options) (key : Instant) (q : Question) :
    x.reply replica kind options key q =
      q.expected (o.series x.world) options (o.about x.world options key)
        ((x.engines kind).base (o.epoch x.world) (o.about x.world options key))
        (o.within x.world options) := by
  have hask := after_ask h hl hback hx hfresh kind options key q
  have hknows := hask.1.follows.ready (hx.knows hfresh)
  exact hask.2.eq (hsure _ hknows.ready)

theorem Right.ask (hx : x.Right o)
    (hfresh : o.series x.world = x.seen ∨ o.bound x.world ≠ x.memory.bound) (kind : Kind)
    (options : Options) (key : Instant) (q : Question) :
    (x.step replica o (.ask kind options key q)).Right o := by
  have hserves := (after_ask h hl hback hx hfresh kind options key q).1
  have hknows := hserves.follows.ready (hx.knows hfresh)
  exact hx.asked hserves hknows

include hsure in
theorem agrees_iff (hx : x.Right o)
    (hfresh : o.series x.world = x.seen ∨ o.bound x.world ≠ x.memory.bound) (kind : Kind)
    (options : Options) (key : Instant) (q : Question) :
    x.Agrees replica (.ask kind options key q) ↔ ¬ x.Stale o (.ask kind options key q) := by
  dsimp only [Agrees, Stale]
  rw [reply_eq h hl hback hsure hx hfresh, reply_eq h hl hback hsure hx hfresh]
  have hdirect := hx.kinds .direct
  have hwindowed := hx.kinds .windowed
  cases hengine : x.engines .windowed with
  | direct n =>
      rw [hengine] at hwindowed
      cases hwindowed
  | windowed s =>
      cases hother : x.engines .direct with
      | windowed t =>
          rw [hother] at hdirect
          cases hdirect
      | direct n =>
          have hs := hx.windows .windowed s hengine
          have hbase : s.base (o.epoch x.world) (o.about x.world options key) =
              s.window.base (o.about x.world options key) := by
            unfold Windowed.State.base Windowed.State.observeEpoch
            rw [if_pos hs.2.symm]
          rw [State.base_direct, show State.base (.windowed s) _ _ = _ from hbase,
            Question.expected_base_iff hs.1]
          simp [State.window?]

include hsure in
/-- A question shows whether the window is stale, and every command leaves the session right. -/
theorem right_step (hx : x.Right o) (hallowed : x.Allowed o c) :
    (x.Agrees replica c ↔ ¬ x.Stale o c) ∧ (x.step replica o c).Right o := by
  cases c with
  | ask kind options key q =>
      constructor
      · exact agrees_iff h hl hback hsure hx hallowed kind options key q
      · exact Right.ask h hl hback hx hallowed kind options key q
  | move w => exact ⟨iff_of_true trivial id, hx.move hallowed⟩

end Steps

/--
Two engines over one replica agree on a question unless it finds the window stale: in
every session over a series that grows at its newest end, if the horizon has moved by the
time that the replica looks at a series that has grown.
-/
theorem agree_iff_not_stale (h : replica.Reads o next) (hl : Replica.Listens o replica.listener)
    (hback : replica.source.StepsBack o) (hsure : forall w, o.ready w -> o.failures w = [])
    (maximum : Option Positive) {w : W} {commands : List (Command W)} (hready : o.ready w)
    (hallowed : Each (step replica o) (Allowed o) (start replica o maximum w) commands) :
    Each (step replica o) (fun x c => x.Agrees replica c ↔ ¬ x.Stale o c)
      (start replica o maximum w) commands :=
  each_of_kept (fun _ _ hx hc => right_step h hl hback hsure hx hc)
    (right_start h hl hback maximum hready) hallowed

def early : Ledger Int :=
  { Ledger.holding [10, 20] with bound := some (.ofNanos 40) }

def late : Ledger Int :=
  { Ledger.holding [10, 20, 30] with bound := some (.ofNanos 50) }

def repeated : List (Command (Ledger Int)) :=
  [.ask .windowed {} (.ofNanos 40) (.previousEntries 2),
    .move late,
    .ask .windowed {} (.ofNanos 40) (.previousEntries 2),
    .ask .direct {} (.ofNanos 40) (.previousEntries 2),
    .ask .windowed {} (.ofNanos 40) (.previousEntry 2),
    .ask .windowed {} (.ofNanos 45) (.previousEntries 2),
    .ask .windowed {} (.ofNanos 40) (.previousEntries 2)]

theorem allowed_repeated :
    let o := Ledger.outlook Ledger.Reliable
    Each (step Ledger.plain o) (Allowed o) (start Ledger.plain o none early) repeated := by
  have hlate : Ledger.Reliable late := ⟨by decide, rfl, rfl⟩
  have hgrown : early.series.Grown late.series := by decide
  exact ⟨Or.inl rfl, ⟨hlate, rfl, hgrown⟩, Or.inr (by decide +kernel),
    Or.inr (by decide +kernel), Or.inl (by decide +kernel), Or.inl (by decide +kernel),
    Or.inl (by decide +kernel), trivial⟩

theorem agree_iff_not_stale_on_ledger :
    let o := Ledger.outlook Ledger.Reliable
    Each (step Ledger.plain o) (fun x c => x.Agrees Ledger.plain c ↔ ¬ x.Stale o c)
      (start Ledger.plain o none early) repeated :=
  agree_iff_not_stale (Ledger.reads_replica Ledger.closed_reliable {})
    (Ledger.quiet_replica {}).listens (Ledger.stepsBack_source Ledger.closed_reliable)
    (fun _ hreliable => hreliable.failures) none ⟨by decide, rfl, rfl⟩ allowed_repeated

def outgrown : Shared (Ledger Int) Int :=
  (repeated.take 2).foldl (step Ledger.plain (Ledger.outlook Ledger.Reliable))
    (start Ledger.plain (Ledger.outlook Ledger.Reliable) none early)

def lateReply (kind : Kind) : Option (List (Entry Int)) :=
  (outgrown.reply Ledger.plain kind {} (.ofNanos 40) (.previousEntries 2)).toOption

/-- An entry comes up to the instant of an earlier question, and only one engine knows of it. -/
theorem part_after_growth :
    let o := Ledger.outlook Ledger.Reliable
    Each (step Ledger.plain o) (Allowed o) (start Ledger.plain o none early) repeated ∧
      ¬ Each (step Ledger.plain o) (Agrees Ledger.plain) (start Ledger.plain o none early)
        repeated := by
  intro o
  refine ⟨allowed_repeated, fun hall => ?_⟩
  have hwindowed : lateReply .windowed = some [⟨.ofNanos 10, 10⟩, ⟨.ofNanos 20, 20⟩] := by
    decide +kernel
  have hdirect : lateReply .direct = some [⟨.ofNanos 20, 20⟩, ⟨.ofNanos 30, 30⟩] := by
    decide +kernel
  have hsame : lateReply .windowed = lateReply .direct :=
    congrArg Except.toOption (show outgrown.reply Ledger.plain .windowed _ _ _ = _ from hall.2.2.1)
  rw [hwindowed, hdirect] at hsame
  exact absurd hsame (by decide)

end Shared
end Engine
end AsOf
