import AsOf.Proofs.Query

/-!
# Answers in shape

Nothing is assumed of an archive here: it may fail, it may change from one lookup to
the next, and it may return any entry whatsoever.  A walk hands on what lies up to its
instant and before the entry it found last, and nothing else; what is scanned is cut
at the bound.  So the direct answers of a view descend, are no longer than asked for
and end where they should.
-/

namespace AsOf

variable {m : Type -> Type} [Monad m] {V W α β σ : Type} [Performs m W] {w : W}

/-!
## What a walk hands out
-/

/-- What is gathered from a feed is collected from a list that the states of the feed admit. -/
theorem Pull.after_gather {pull : Pull m α σ} (admits : σ -> List α -> Prop)
    (hnil : forall state, admits state [])
    (hcons : forall w state, After (pull state) w (fun r _ => forall a rest,
      r.1 = some (.ok a) -> admits r.2 rest -> admits state (a :: rest)))
    (wanted : α -> Bool) (n : Nat) (state : σ) :
    After (pull.gather wanted n state).run w (fun r _ =>
      WhenOk (fun out => exists items, admits state items ∧ out = collect wanted n items) r) := by
  induction n generalizing w state with
  | zero =>
      exact after_except_pure.mpr ⟨[], hnil state, rfl⟩
  | succ n ih =>
      unfold Pull.gather
      apply after_except_bind.mpr
      apply after_except_lift.mpr
      apply After.imp (hcons w state)
      intro out w' hadmits
      rcases out with ⟨r, next⟩
      rcases r with _ | e | a
      · exact after_except_pure.mpr ⟨[], hnil state, rfl⟩
      · exact after_except_throw.mpr trivial
      · dsimp only
        split
        · rename_i hwanted
          apply after_bind_whenOk (ih next)
          intro out w'' hout
          rcases hout with ⟨items, hitems, rfl⟩
          refine after_except_pure.mpr ⟨a :: items, hadmits a items rfl hitems, ?_⟩
          rw [collect, if_pos hwanted]
        · rename_i hwanted
          refine after_except_pure.mpr ⟨[a], hadmits a [] rfl (hnil next), ?_⟩
          rw [collect, if_neg hwanted]

theorem Pull.after_gather_any (pull : Pull m α σ) (wanted : α -> Bool) (n : Nat) (state : σ) :
    After (pull.gather wanted n state).run w (fun r _ =>
      WhenOk (fun out => exists items, out = collect wanted n items) r) := by
  apply After.imp (Pull.after_gather (fun _ _ => True) (fun _ => trivial)
    (fun _ _ => after_of_forall fun _ _ _ _ _ _ => trivial) wanted n state)
  intro r w' hr
  exact hr.imp fun out hout => hout.imp fun items hitems => hitems.2

/-- A walk hands out keys before the last one, and at first none after its next instant. -/
def Walk.Admits (walk : Walk) (key : Instant) : Prop :=
  match walk.last with
  | some last => key < last
  | none => forall next, walk.next = some next -> key ≤ next

def Walk.Promises (walk : Walk) (items : List (Entry V)) : Prop :=
  Descending items ∧ forall e, e ∈ items -> walk.Admits e.key

/-- A pull yields an entry that is admitted, and which the walk stands at then, or ends the walk. -/
def Walk.Steps (walk walk' : Walk) : Option (Except QueryError (Entry V)) -> Prop
  | some (.ok e) => walk.Admits e.key ∧ walk'.last = some e.key
  | some (.error _) | none => walk'.next = none

theorem Walk.after_pull (archive : Archive m V) (walk : Walk) :
    After (Walk.pull archive walk) w (fun r _ => walk.Steps r.2 r.1) := by
  unfold Walk.pull
  cases hnext : walk.next with
  | none => exact after_pure.mpr hnext
  | some key =>
      apply after_bind.mpr
      apply after_of_forall
      intro r w'
      match r with
      | .error e => exact after_pure.mpr rfl
      | .ok none => exact after_pure.mpr rfl
      | .ok (some found) =>
          dsimp only
          split
          · exact after_pure.mpr rfl
          · rename_i hle
            split
            · rename_i hdescends
              apply after_bind.mpr
              apply after_of_forall
              intro k w''
              refine after_pure.mpr ⟨?_, rfl⟩
              unfold Walk.Admits
              split
              · rename_i last hlast
                simpa [Walk.descendsTo, hlast] using hdescends
              · intro next heq
                rw [hnext] at heq
                cases heq
                exact Std.not_lt.mp hle
            · exact after_pure.mpr rfl

theorem Walk.Admits.earlier {walk : Walk} {key key' : Instant} (h : walk.Admits key)
    (hlt : key' < key) : walk.Admits key' := by
  unfold Walk.Admits at h ⊢
  split at h
  · exact Std.lt_trans hlt h
  · exact fun next hnext => Std.le_trans (Std.le_of_lt hlt) (h next hnext)

theorem Walk.Promises.cons {walk walk' : Walk} {e : Entry V} {items : List (Entry V)}
    (h : walk.Steps walk' (some (.ok e))) (hrest : walk'.Promises items) :
    walk.Promises (e :: items) := by
  rcases h with ⟨hadmits, hlast⟩
  have hbefore : forall x, x ∈ items -> x.key < e.key := fun x hx => by
    simpa [Walk.Admits, hlast] using hrest.2 x hx
  refine ⟨List.pairwise_cons.mpr ⟨hbefore, hrest.1⟩, fun x hx => ?_⟩
  rcases List.mem_cons.mp hx with rfl | hx
  · exact hadmits
  · exact hadmits.earlier (hbefore x hx)

theorem Walk.promises_nil (walk : Walk) : walk.Promises ([] : List (Entry V)) :=
  ⟨List.Pairwise.nil, fun _ he => absurd he List.not_mem_nil⟩

theorem Walk.after_gather (archive : Archive m V) (wanted : Entry V -> Bool) (n : Nat)
    (walk : Walk) :
    After (Pull.gather (Walk.pull archive) wanted n walk).run w (fun r _ =>
      WhenOk (fun out => exists items, walk.Promises items ∧ out = collect wanted n items) r) := by
  apply Pull.after_gather Walk.Promises Walk.promises_nil
  intro w walk
  apply After.imp (Walk.after_pull archive walk)
  intro r _ hsteps e rest hitem hrest
  rw [hitem] at hsteps
  exact hrest.cons hsteps

/-!
## Runs in shape
-/

/-- A run up to an instant, newest first: in order, of a limited length, and not later. -/
structure Shaped (a : Instant) (count : Nat) (run : List (Entry V)) : Prop where
  descending : Descending run
  length : run.length ≤ count
  upTo : forall e, e ∈ run -> e.key ≤ a

/-- A stretch that goes on behind the oldest entry of a run. -/
structure Behind (run : List (Entry V)) (room : Nat) (older : List (Entry V)) : Prop where
  oldest : exists oldest, run.getLast? = some oldest ∧ forall e, e ∈ older -> e.key < oldest.key
  descending : Descending older
  length : older.length ≤ room

section Runs

variable {a : Instant} {count room : Nat} {l run older : List (Entry V)}

theorem Shaped.take (hdesc : Descending l) (hle : forall e, e ∈ l -> e.key ≤ a) (count : Nat) :
    Shaped a count (l.take count) where
  descending := hdesc.sublist (List.take_sublist _ _)
  length := List.length_take_le _ _
  upTo e he := hle e (List.mem_of_mem_take he)

theorem Descending.getLast_le {x y : Entry V} (h : Descending l) (hlast : l.getLast? = some x)
    (hy : y ∈ l) : x.key ≤ y.key := by
  have hfirst := (ascending_reverse.mpr h).head?_eq_some_iff (x := x)
  rw [List.head?_reverse] at hfirst
  exact (hfirst.mp hlast).2 y (List.mem_reverse.mpr hy)

theorem Behind.descending_append (h : Behind run room older) (hl : Descending l)
    (hlast : l.getLast? = run.getLast?) : Descending (l ++ older) := by
  rcases h.oldest with ⟨oldest, holdest, hlt⟩
  apply List.pairwise_append.mpr
  refine ⟨hl, h.descending, fun x hx e he => ?_⟩
  exact Std.lt_of_lt_of_le (hlt e he) (hl.getLast_le (hlast.trans holdest) hx)

theorem Behind.shaped (h : Behind run (count - run.length) older) (hrun : Shaped a count run) :
    Shaped a count (run ++ older) where
  descending := h.descending_append hrun.descending rfl
  length := by
    have hfirst := hrun.length
    have hrest := h.length
    rw [List.length_append]
    omega
  upTo e he := by
    rcases List.mem_append.mp he with he | he
    · exact hrun.upTo e he
    · rcases h.oldest with ⟨oldest, holdest, hlt⟩
      have hin : oldest ∈ run := List.mem_of_getLast? holdest
      exact Std.le_trans (Std.le_of_lt (hlt e he)) (hrun.upTo oldest hin)

theorem Pull.after_take_walk (archive : Archive m V) (n : Nat) (walk : Walk) :
    After (Pull.take (Walk.pull archive) n walk).run w (fun r _ =>
      WhenOk (fun run => Descending run ∧ run.length ≤ n ∧ forall e, e ∈ run ->
        walk.Admits e.key) r) := by
  apply after_except_map.mpr
  apply After.imp (Walk.after_gather archive (fun _ => true) n walk)
  intro r w' hr
  apply hr.map
  intro out hout
  rcases hout with ⟨items, ⟨hdesc, hadmits⟩, rfl⟩
  rw [fst_collect, takeWhile_true]
  exact ⟨hdesc.sublist (List.take_sublist _ _), List.length_take_le _ _,
    fun e he => hadmits e (List.mem_of_mem_take he)⟩

namespace View

variable (view : View m V)

theorem shaped_trailing (a : Instant) (count : Nat) :
    After (view.trailing a count).run w (fun r _ => WhenOk (Shaped a count) r) := by
  apply After.imp (Pull.after_take_walk view.archive count (.startAt a count))
  intro r w' hr
  exact hr.imp fun run hrun => ⟨hrun.1, hrun.2.1, fun e he => hrun.2.2 e he a rfl⟩

theorem behind_furtherBack (a : Instant) (count : Nat) (run : List (Entry V)) :
    After (view.furtherBack a count run).run w (fun r _ =>
      WhenOk (Behind run (count - run.length)) r) := by
  unfold furtherBack
  split
  · exact after_except_throw.mpr trivial
  · rename_i oldest hlast
    apply after_except_bind.mpr
    apply after_except_lift.mpr
    unfold Walk.before
    simp only [after_bind, after_pure]
    apply after_of_forall
    intro k w'
    apply After.imp (Pull.after_take_walk view.archive _ _)
    intro r w'' hr
    exact hr.imp fun older holder => ⟨⟨oldest, hlast, holder.2.2⟩, holder.1, holder.2.1⟩

end View
end Runs

/-!
## Direct answers in shape

The instant that a request is about, and the bound of the entries after it, are those
that the horizon gives when the request is made.
-/

def Within (bound : Option Instant) (key : Instant) : Prop :=
  forall upper, bound = some upper -> key ≤ upper

theorem Within.of_le {bound : Option Instant} {a key : Instant} (ha : Within bound a)
    (hle : key ≤ a) : Within bound key :=
  fun upper hupper => Std.le_trans hle (ha upper hupper)

theorem Demand.eq_some_of_apply {demand : Demand} {key : Instant} {found : Option (Entry V)}
    {e : Entry V} (h : demand.apply key found = .ok (some e)) : found = some e := by
  rw [Demand.apply_eq_verdict] at h
  unfold Demand.verdict at h
  split at h
  · exact Except.ok.inj h
  · exact (Option.filter_eq_some_iff.mp (Except.ok.inj h)).1
  · exact Except.ok.inj h
  · split at h
    · exact Except.ok.inj h
    · cases h
  · cases h
  · cases h

namespace View

variable (view : View m V) (options : Options) (key : Instant)

def about (w : W) : Instant :=
  options.about (perform view.horizon.highest w).1 key

def bound (w : W) : Option Instant :=
  if options.future then none else (perform view.horizon.highest w).1

theorem within_about (w : W) : Within (view.bound options w) (view.about options key w) := by
  unfold View.bound View.about Options.about
  split
  · intro upper hupper
    cases hupper
  · intro upper hupper
    rw [hupper]
    exact Std.min_le_right

theorem adjust_about (w : W) :
    After (view.adjust options key) w (fun a _ => a = view.about options key w) := by
  unfold adjust View.about Options.about
  split
  · exact after_pure.mpr rfl
  · unfold Horizon.clamp
    apply after_bind.mpr
    apply After.imp (after_perform _ w)
    intro upper w' hpost
    rw [hpost]
    exact after_pure.mpr (Horizon.clampTo_eq _ key)

theorem highest_bound (w : W) :
    After (view.highest options) w (fun upper _ => upper = view.bound options w) := by
  unfold highest View.bound
  split
  · exact after_pure.mpr rfl
  · exact after_perform _ w

theorem shaped_entry :
    After (view.entry options key).run w (fun r _ => WhenOk (fun found =>
      forall e, found = some e -> e.key ≤ view.about options key w) r) := by
  unfold entry
  apply after_except_bind.mpr
  apply after_except_lift.mpr
  apply After.imp (view.adjust_about options key w)
  intro a w' ha
  cases ha
  apply after_except_bind.mpr
  apply after_of_forall
  intro r w''
  cases r with
  | error e => trivial
  | ok found =>
      dsimp only
      split
      · exact after_except_throw.mpr trivial
      · rename_i hle
        apply after_except_mk.mpr
        apply after_pure.mpr
        cases happly : options.demand.apply (view.about options key w) found with
        | error e => trivial
        | ok answer =>
            intro e he
            rw [he] at happly
            rw [Demand.eq_some_of_apply happly] at hle
            exact Std.not_lt.mp fun hlt => hle (by simpa using hlt)

theorem shaped_previousEntries (count : Nat) :
    After (view.previousEntries options key count).run w (fun r _ => WhenOk (fun run =>
      Shaped (view.about options key w) count run.reverse) r) := by
  unfold previousEntries
  apply after_except_bind.mpr
  apply after_except_lift.mpr
  apply After.imp (view.adjust_about options key w)
  intro a w' ha
  cases ha
  apply after_bind_whenOk (view.shaped_trailing _ count)
  intro run w'' hrun
  apply after_except_pure.mpr
  show Shaped _ count run.reverse.reverse
  rw [List.reverse_reverse]
  exact hrun

theorem shaped_previousEntry (distance : Nat) :
    After (view.previousEntry options key distance).run w (fun r _ => WhenOk (fun found =>
      forall e, found = some e -> e.key ≤ view.about options key w) r) := by
  unfold previousEntry
  apply after_except_bind.mpr
  apply after_except_lift.mpr
  apply After.imp (view.adjust_about options key w)
  intro a w' ha
  cases ha
  apply after_bind_whenOk (view.shaped_trailing _ (Count.succ distance))
  intro run w'' hrun
  exact after_except_pure.mpr fun e he => hrun.upTo e (List.mem_of_getLast? he)

theorem shaped_nextEntries (count : Nat) :
    After (view.nextEntries options key count).run w (fun r _ => WhenOk (fun run =>
      run.length ≤ count ∧ forall e, e ∈ run -> Within (view.bound options w) e.key) r) := by
  unfold nextEntries
  apply after_except_bind.mpr
  apply after_except_lift.mpr
  apply After.imp (view.highest_bound options w)
  intro bound w' hbound
  cases hbound
  apply after_except_bind.mpr
  apply after_except_lift.mpr
  apply after_of_forall
  intro a w''
  apply after_except_bind.mpr
  apply after_except_lift.mpr
  apply after_of_forall
  intro scan w₃
  apply after_except_map.mpr
  apply After.imp (Pull.after_gather_any view.archive.pull _ count scan)
  intro r w₄ hr
  apply hr.map
  intro out hout
  rcases hout with ⟨items, rfl⟩
  rw [fst_collect]
  constructor
  · exact Nat.le_trans (List.takeWhile_sublist _).length_le (List.length_take_le _ _)
  · intro e he upper hupper
    have hwanted := List.all_eq_true.mp List.all_takeWhile e he
    rw [hupper] at hwanted
    simpa using hwanted

theorem shaped_nextEntry (distance : Nat) :
    After (view.nextEntry options key distance).run w (fun r _ => WhenOk (fun found =>
      forall e, found = some e -> Within (view.bound options w) e.key) r) := by
  unfold nextEntry
  apply after_bind_whenOk (view.shaped_nextEntries options key _)
  intro run w' hrun
  exact after_except_pure.mpr fun e he => hrun.2 e (List.mem_of_getLast? he)

end View

end AsOf
