import AsOf.Proofs.Engine.Outlay

/-!
# How runs are counted

A run from an engine with a window is counted once, as a hit, as a partial hit, or as neither.
Over a series that stays as it is, this tells how many of its entries were in the window: all of
them, some, or none.  There is one exception.  A run that is walked back to the window, finds
nothing on the way, and is short because the series has no more entries, is counted as a partial
hit, although all of its entries were in the window.
-/

namespace AsOf

variable {V : Type} {series : Series V} {a : Instant}

def Window.Counters.served (c : Window.Counters) : HitCounter × Nat :=
  (c.answers, c.partialHits)

namespace Windowed

variable {s : State V} {count : Nat} {place : Place} {run : List (Entry V)}

/-!
## Marks
-/

inductive Mark where
  | hit
  | partialHit
  | miss

namespace Mark

variable {mark other : Mark} {window : Window V} {before after : Window.Counters}

def Fits (window : Window V) (run : List (Entry V)) : Mark -> Prop
  | hit => forall e, e ∈ run -> e ∈ window.entries
  | partialHit =>
      (exists e, e ∈ run ∧ e ∈ window.entries) ∧ exists e, e ∈ run ∧ e ∉ window.entries
  | miss => forall e, e ∈ run -> e ∉ window.entries

def Counted (before after : Window.Counters) : Mark -> Prop
  | hit =>
      after.answers.hits = before.answers.hits + 1 ∧ after.partialHits = before.partialHits
  | partialHit =>
      after.answers.hits = before.answers.hits ∧ after.partialHits = before.partialHits + 1
  | miss =>
      after.answers.hits = before.answers.hits ∧ after.partialHits = before.partialHits

def book : Mark -> Window.Counters -> Window.Counters
  | hit, c => c.hit
  | partialHit, c => c.partialHit
  | miss, c => c.miss

theorem Fits.unique (h : mark.Fits window run) (h' : other.Fits window run) (hne : run ≠ []) :
    mark = other := by
  rcases List.exists_mem_of_ne_nil run hne with ⟨e, he⟩
  cases mark with
  | hit =>
      cases other with
      | hit => rfl
      | partialHit =>
          rcases h'.2 with ⟨x, hx, hout⟩
          exact absurd (h x hx) hout
      | miss => exact absurd (h e he) (h' e he)
  | partialHit =>
      rcases h with ⟨⟨x, hx, hin⟩, y, hy, hout⟩
      cases other with
      | hit => exact absurd (h' y hy) hout
      | partialHit => rfl
      | miss => exact absurd hin (h' x hx)
  | miss =>
      cases other with
      | hit => exact absurd (h' e he) (h e he)
      | partialHit =>
          rcases h'.1 with ⟨x, hx, hin⟩
          exact absurd hin (h x hx)
      | miss => rfl

theorem served_book (mark : Mark) (h : before.served = after.served) :
    (mark.book before).served = (mark.book after).served := by
  have hanswers : before.answers = after.answers := congrArg Prod.fst h
  have hpartial : before.partialHits = after.partialHits := congrArg Prod.snd h
  cases mark with
  | hit => exact Prod.ext (congrArg HitCounter.hit hanswers) hpartial
  | partialHit =>
      exact Prod.ext (congrArg HitCounter.miss hanswers) (congrArg (· + 1) hpartial)
  | miss => exact Prod.ext (congrArg HitCounter.miss hanswers) hpartial

theorem requests_of_served (h : after.served = (mark.book before).served) :
    after.answers.requests = before.answers.requests + 1 := by
  have hanswers : after.answers = (mark.book before).answers := congrArg Prod.fst h
  rw [hanswers]
  cases mark <;> rfl

theorem counted_iff_of_served (h : after.served = (mark.book before).served) (other : Mark) :
    other.Counted before after ↔ other = mark := by
  have hhits : after.answers.hits = (mark.book before).answers.hits :=
    congrArg (fun served => served.1.hits) h
  have hpartial : after.partialHits = (mark.book before).partialHits := congrArg Prod.snd h
  unfold Counted
  rw [hhits, hpartial]
  cases mark <;> cases other <;>
    simp [book, Window.Counters.hit, Window.Counters.partialHit, Window.Counters.miss,
      HitCounter.hit, HitCounter.miss]

end Mark

structure Classified (window : Window V) (run : List (Entry V))
    (before after : Window.Counters) : Prop where
  requests : after.answers.requests = before.answers.requests + 1
  marks : forall mark : Mark, mark.Counted before after ↔ mark.Fits window run

/-!
## Marks of the courses
-/

inductive Ranked (s : State V) (a : Instant) (count : Nat) :
    Place -> List (Entry V) -> Mark -> Prop where
  /-- It is read off the window, and nothing older is found if it is short. -/
  | held {place : Place} (within : place = .same ∨ place = .inside) :
      Ranked s a count place ((s.reading a place).take count) .hit
  /-- It begins in the window and goes on behind it. -/
  | continued {place : Place} {older : List (Entry V)} (within : place = .same ∨ place = .inside)
      (found : older ≠ []) : Ranked s a count place (s.reading a place ++ older) .partialHit
  /-- It is walked back to the window, which has the rest of it. -/
  | joined {newest : Instant} {newer : List (Entry V)} (short : newer.length < count)
      (enough : count ≤ newer.length + s.window.size) :
      Ranked s a count (.after newest) (newer ++ s.window.entries.take (count - newer.length))
        (if newer.isEmpty then .hit else .partialHit)
  /-- It is walked back to the window, which is too short for the rest of it. -/
  | passed {newest : Instant} {newer older : List (Entry V)}
      (short : (newer ++ s.window.entries).length < count) :
      Ranked s a count (.after newest) (newer ++ s.window.entries ++ older) .partialHit
  /-- It does not meet the window. -/
  | missed {newest : Instant} {run : List (Entry V)} (apart : forall e, e ∈ run -> e.key ≠ newest) :
      Ranked s a count (.after newest) run .miss
  | outside {run : List (Entry V)} : Ranked s a count .outside run .miss

def Ranks (s : State V) (a : Instant) (count : Nat) (place : Place) (out : Outcome V) : Prop :=
  exists mark, Ranked s a count place out.1 mark ∧
    out.2.counters.served = (mark.book s.counters).served

namespace State

variable (s : State V)

theorem served_observeEpoch (epoch : Nat) :
    (s.observeEpoch epoch).counters.served = s.counters.served := by
  unfold observeEpoch
  split <;> rfl

theorem served_growToFit (required : Nat) :
    (s.growToFit required).counters.served = s.counters.served := by
  unfold growToFit
  split
  · rfl
  · split <;> rfl

theorem served_reshape (a : Instant) (run : List (Entry V)) :
    (s.reshape a run).counters.served = s.counters.served := by
  unfold reshape
  split
  · rfl
  · exact s.served_growToFit run.length

theorem served_append (a : Instant) (newer : List (Entry V)) (required : Nat) :
    (s.append a newer required).counters.served = s.counters.served :=
  s.served_growToFit required

theorem served_prepend (older : List (Entry V)) (required : Nat) :
    (s.prepend older required).counters.served = s.counters.served :=
  s.served_growToFit required

end State

section Runs

variable {m : Type -> Type} [Monad m] {W : Type} [Performs m W] {w : W} (view : View m V)

theorem ranks_runAtSame :
    After (runAtSame view a count s).run w (fun r _ => WhenOk (Ranks s a count .same) r) := by
  unfold runAtSame
  dsimp only
  split
  · rename_i hshort
    apply after_bind_whenOk (view.behind_furtherBack a count _)
    intro older w' hbehind
    split
    · exact after_except_pure.mpr ⟨.hit, .held (Or.inl rfl), rfl⟩
    · rename_i hfound
      rw [take_of_short hshort]
      refine after_except_pure.mpr ⟨.partialHit, .continued (Or.inl rfl) fun hnil => ?_, ?_⟩
      · exact hfound (List.isEmpty_iff.mpr hnil)
      · exact State.served_reshape _ _ _
  · exact after_except_pure.mpr ⟨.hit, .held (Or.inl rfl), rfl⟩

theorem ranks_runOnto {newest : Instant} {newer : List (Entry V)} (hlen : newer.length < count) :
    After (runOnto view newer a count s).run w
      (fun r _ => WhenOk (Ranks s a count (.after newest)) r) := by
  unfold runOnto
  dsimp only
  split
  · rename_i hshort
    have hall : s.window.entries.take (count - newer.length) = s.window.entries := by
      rw [List.length_append] at hshort
      exact take_of_short (Nat.lt_sub_iff_add_lt'.mpr hshort)
    rw [hall] at hshort ⊢
    apply after_bind_whenOk (view.behind_furtherBack a count _)
    intro older w' hbehind
    exact after_except_pure.mpr ⟨.partialHit, .passed hshort, State.served_reshape _ _ _⟩
  · rename_i hlong
    have henough : count ≤ newer.length + s.window.size := by
      rw [List.length_append, List.length_take] at hlong
      unfold Window.size
      omega
    refine after_except_pure.mpr ⟨_, .joined hlen henough, ?_⟩
    cases newer.isEmpty with
    | true => exact State.served_append _ _ _ _
    | false => exact State.served_append _ _ _ _

theorem ranks_runAfter {newest : Instant} :
    After (runAfter view newest a count s).run w
      (fun r _ => WhenOk (Ranks s a count (.after newest)) r) := by
  unfold runAfter
  apply after_bind_whenOk (Walk.after_gather view.archive _ count (.startAt a count))
  intro out w' hout
  rcases out with ⟨newer, met⟩
  rcases hout with ⟨items, -, hcollect⟩
  dsimp only
  cases met with
  | true =>
      have hexists := exists_of_met (congrArg Prod.snd hcollect.symm)
      rw [← hcollect] at hexists
      rcases hexists with ⟨e, rest, -, -, hlen⟩
      rw [if_pos rfl]
      exact ranks_runOnto view hlen
  | false =>
      have hnewer : newer = (items.take count).takeWhile fun e => e.key ≠ newest := by
        rw [← fst_collect, ← hcollect]
      rw [if_neg Bool.false_ne_true]
      refine after_except_pure.mpr ⟨.miss, .missed fun e he => ?_, State.served_reshape _ _ _⟩
      rw [hnewer] at he
      exact of_decide_eq_true (List.all_eq_true.mp List.all_takeWhile e he)

theorem ranks_runInside :
    After (runInside view a count s).run w (fun r _ => WhenOk (Ranks s a count .inside) r) := by
  have hreading : s.window.entries.filter (fun e => e.key ≤ a) = s.reading a .inside := rfl
  unfold runInside
  dsimp only
  rw [hreading]
  split
  · rename_i hshort
    apply after_bind_whenOk (view.behind_furtherBack a count _)
    intro older w' hbehind
    split
    · exact after_except_pure.mpr ⟨.hit, .held (Or.inr rfl), rfl⟩
    · rename_i hfound
      rw [take_of_short hshort]
      refine after_except_pure.mpr ⟨.partialHit, .continued (Or.inr rfl) fun hnil => ?_, ?_⟩
      · exact hfound (List.isEmpty_iff.mpr hnil)
      · exact State.served_prepend _ _ _
  · exact after_except_pure.mpr ⟨.hit, .held (Or.inr rfl), rfl⟩

theorem ranks_runOutside :
    After (runOutside view a count s.countMiss).run w
      (fun r _ => WhenOk (Ranks s a count .outside) r) := by
  unfold runOutside
  apply after_bind_whenOk (view.shaped_trailing a count)
  intro run w' hrun
  exact after_except_pure.mpr ⟨.miss, .outside, State.served_reshape _ _ _⟩

theorem ranks_entered (s : State V) (epoch : Nat) (a : Instant) (count : Nat) :
    let u := s.observeEpoch epoch
    let t := s.entered epoch a
    After (runAt view a count (t.locate a) t).run w
      (fun r _ => WhenOk (Ranks u a count (u.locate a)) r) := by
  intro u t
  show After (runAt view a count ((s.entered epoch a).locate a) (s.entered epoch a)).run w _
  unfold State.entered
  split
  · rename_i houtside
    have hsame : (s.observeEpoch epoch).countMiss.locate a = .outside := houtside
    rw [hsame, houtside]
    exact ranks_runOutside view
  · rename_i hnot
    cases hlocate : (s.observeEpoch epoch).locate a with
    | same => exact ranks_runAtSame view
    | after newest => exact ranks_runAfter view
    | inside => exact ranks_runInside view
    | outside => exact absurd hlocate hnot

theorem ranks_outcome (options : Options) (key : Instant) (count : Nat) (s : State V) (w : W) :
    let a := view.about options key w
    let u := s.observeEpoch (seen view options key w).1
    WhenOk (Ranks u a count (u.locate a)) (outcome view options key count s w).1 :=
  ranks_entered view s _ _ count

end Runs

/-!
## Marks over a series
-/

/--
A run from after the window that all lies in the window, but is counted as a partial hit: the
series has no more entries for it, and it comes short.
-/
structure Overlooked (series : Series V) (s : State V) (a : Instant) (count : Nat) : Prop where
  after : exists newest, s.locate a = .after newest
  short : (series.downFrom a).length < count
  held : forall e, e ∈ series.downFrom a -> e ∈ s.window.entries

theorem State.Proper.exists_oldest_reading (hs : s.Proper)
    (hwithin : s.locate a = .same ∨ s.locate a = .inside) :
    exists oldest, s.window.oldest? = some oldest ∧ oldest ∈ s.reading a (s.locate a) := by
  have hplace := hs.aligned a
  rcases hwithin with hsame | hinside
  · rw [hsame] at hplace ⊢
    exact exists_oldest hplace.1
  · rw [hinside] at hplace ⊢
    rcases hplace with ⟨oldest, holdest, hle⟩
    exact ⟨oldest, holdest, List.mem_of_getLast? (Window.getLast?_upTo holdest hle)⟩

theorem State.reading_subset (s : State V) (a : Instant) (place : Place) :
    s.reading a place ⊆ s.window.entries := by
  cases place with
  | same => exact List.Subset.refl _
  | after newest => exact List.nil_subset _
  | inside => exact List.filter_sublist.subset
  | outside => exact List.nil_subset _

theorem State.Proper.not_mem_of_newest_lt {e newest : Entry V} (hs : s.Proper)
    (hnewest : s.window.newest? = some newest) (hlt : newest.key < e.key) :
    e ∉ s.window.entries := by
  intro he
  have hle := (hs.window.1.head?_eq_some_iff.mp hnewest).2 e he
  exact absurd hlt (Std.not_lt.mpr hle)

theorem State.Proper.not_mem_of_lt_oldest {e oldest : Entry V} (hs : s.Proper)
    (holdest : s.window.oldest? = some oldest) (hlt : e.key < oldest.key) :
    e ∉ s.window.entries :=
  fun he => absurd hlt (Std.not_lt.mpr (hs.window.1.getLast_le holdest he))

section Fits

variable (hs : s.Proper) (hdesc : Descending run)

include hs hdesc

theorem fits_of_older {front older : List (Entry V)} {oldest : Entry V}
    (hrun : run = front ++ older) (holdest : s.window.oldest? = some oldest)
    (hin : oldest ∈ front) (hfound : older ≠ []) : Mark.partialHit.Fits s.window run := by
  subst hrun
  rcases List.exists_mem_of_ne_nil older hfound with ⟨e, he⟩
  have hlt := (List.pairwise_append.mp hdesc).2.2 oldest hin e he
  refine ⟨⟨oldest, ?_, List.mem_of_getLast? holdest⟩, e, ?_, ?_⟩
  · exact List.mem_append.mpr (Or.inl hin)
  · exact List.mem_append.mpr (Or.inr he)
  · exact hs.not_mem_of_lt_oldest holdest hlt

theorem fits_of_newer {newer rest : List (Entry V)} {newest : Entry V}
    (hrun : run = newer ++ rest) (hnewest : s.window.newest? = some newest)
    (hin : newest ∈ rest) (hfound : newer ≠ []) : Mark.partialHit.Fits s.window run := by
  subst hrun
  rcases List.exists_mem_of_ne_nil newer hfound with ⟨e, he⟩
  have hlt := (List.pairwise_append.mp hdesc).2.2 e he newest hin
  refine ⟨⟨newest, ?_, List.mem_of_head? hnewest⟩, e, ?_, ?_⟩
  · exact List.mem_append.mpr (Or.inr hin)
  · exact List.mem_append.mpr (Or.inl he)
  · exact hs.not_mem_of_newest_lt hnewest hlt

end Fits

theorem fits_of_missing {newest : Entry V} (hs : s.Proper)
    (hnewest : s.window.newest? = some newest) (hin : newest ∈ series.downFrom a)
    (hrun : run = (series.downFrom a).take count) (hmissing : newest ∉ run) :
    Mark.miss.Fits s.window run := by
  intro e he
  have hdesc := series.descending_downFrom a
  rw [← List.take_append_drop count (series.downFrom a), ← hrun] at hdesc hin
  rcases List.mem_append.mp hin with htaken | hdropped
  · exact absurd htaken hmissing
  · exact hs.not_mem_of_newest_lt hnewest ((List.pairwise_append.mp hdesc).2.2 e he newest hdropped)

section Series

variable {mark : Mark} (h : Ranked s a count (s.locate a) run mark) (hs : s.Proper)
  (hof : s.window.Of series) (hrun : run = (series.downFrom a).take count)

include h hs hof hrun

/-- A run that is short, and lies in the window, is one that goes on behind the window. -/
theorem Ranked.of_overlooked (hover : Overlooked series s a count) : mark = .partialHit := by
  rcases hover.after with ⟨key, hafter⟩
  have hall : run = series.downFrom a :=
    hrun.trans (List.take_of_length_le (Nat.le_of_lt hover.short))
  have hplace := hs.aligned a
  rw [hafter] at h hplace
  rcases hplace with ⟨newest, hnewest, rfl, hle⟩
  cases h with
  | held within => rcases within with hplace | hplace <;> cases hplace
  | continued within => rcases within with hplace | hplace <;> cases hplace
  | joined short enough =>
      have hlength := congrArg List.length hall
      have hshort := hover.short
      rw [List.length_append, List.length_take] at hlength
      unfold Window.size at enough
      omega
  | passed => rfl
  | missed apart =>
      have hmem : newest ∈ run :=
        hall ▸ Series.mem_downFrom.mpr ⟨hof.mem_of_newest hnewest, hle⟩
      exact absurd rfl (apart newest hmem)

/-- Unless it is overlooked, a run has the mark that its part in the window fits. -/
theorem Ranked.fits (hnot : ¬ Overlooked series s a count) : mark.Fits s.window run := by
  have hdesc : Descending run :=
    hrun ▸ (series.descending_downFrom a).sublist (List.take_sublist _ _)
  have hplace := hs.aligned a
  generalize hlocate : s.locate a = place at h hplace
  cases h with
  | held within =>
      exact fun e he => s.reading_subset a place (List.mem_of_mem_take he)
  | continued within found =>
      rw [← hlocate] at within
      rcases hs.exists_oldest_reading within with ⟨oldest, holdest, hin⟩
      exact fits_of_older hs hdesc rfl holdest (hlocate ▸ hin) found
  | @joined _ newer short enough =>
      rcases hplace with ⟨newest, hnewest, rfl, -⟩
      cases newer with
      | nil => exact fun e he => List.mem_of_mem_take he
      | cons e rest =>
          have hin : newest ∈ s.window.entries.take (count - (e :: rest).length) := by
            apply List.mem_of_head?
            rw [List.head?_take, if_neg (by omega)]
            exact hnewest
          exact fits_of_newer hs hdesc rfl hnewest hin (List.cons_ne_nil e rest)
  | @passed _ newer older short =>
      rcases hplace with ⟨newest, hnewest, rfl, -⟩
      have hin : newest ∈ s.window.entries := List.mem_of_head? hnewest
      by_cases hnewer : newer = []
      · by_cases holder : older = []
        · subst hnewer
          subst holder
          rw [List.append_nil, List.nil_append] at hrun
          have hshort : ((series.downFrom a).take count).length < count := hrun ▸ short
          rw [take_of_short hshort] at hrun hshort
          exact absurd ⟨⟨_, hlocate⟩, hshort, fun e he => hrun ▸ he⟩ hnot
        · rcases exists_oldest (List.ne_nil_of_mem hin) with ⟨oldest, holdest, hlast⟩
          exact fits_of_older hs hdesc rfl holdest (List.mem_append.mpr (Or.inr hlast)) holder
      · have hrest := List.append_assoc newer s.window.entries older
        exact fits_of_newer hs hdesc hrest hnewest (List.mem_append.mpr (Or.inl hin)) hnewer
  | missed apart =>
      rcases hplace with ⟨newest, hnewest, rfl, hle⟩
      have hin := Series.mem_downFrom.mpr ⟨hof.mem_of_newest hnewest, hle⟩
      exact fits_of_missing hs hnewest hin hrun fun hmem => absurd rfl (apart newest hmem)
  | outside =>
      intro e he hwindow
      have hle := (Series.mem_downFrom.mp (List.mem_of_mem_take (hrun ▸ he))).2
      exact hs.locate_ne_outside hwindow hle hlocate

end Series

theorem Ranks.classified_iff {out : Outcome V} (h : Ranks s a count (s.locate a) out)
    (hs : s.Proper) (hof : s.window.Of series) (hrun : out.1 = (series.downFrom a).take count)
    (hne : out.1 ≠ []) {before : Window.Counters} (hbefore : before.served = s.counters.served) :
    (Classified s.window out.1 before out.2.counters ↔ ¬ Overlooked series s a count) ∧
      (Overlooked series s a count -> Mark.hit.Fits s.window out.1 ∧
        out.2.counters.answers.requests = before.answers.requests + 1 ∧
        Mark.partialHit.Counted before out.2.counters) := by
  rcases h with ⟨mark, hranked, hserved⟩
  rw [← mark.served_book hbefore] at hserved
  have hcounted := Mark.counted_iff_of_served hserved
  by_cases hover : Overlooked series s a count
  · have hmark := hranked.of_overlooked hs hof hrun hover
    have hall : Mark.hit.Fits s.window out.1 := by
      intro e he
      exact hover.held e (List.mem_of_mem_take (hrun ▸ he))
    refine ⟨iff_of_false (fun hclass => ?_) (not_not_intro hover), fun _ => ⟨hall, ?_, ?_⟩⟩
    · have hhit := (hcounted .hit).mp ((hclass.marks .hit).mpr hall)
      cases hhit.trans hmark
    · exact Mark.requests_of_served hserved
    · exact (hcounted .partialHit).mpr hmark.symm
  · have hfits := hranked.fits hs hof hrun hover
    refine ⟨iff_of_true ⟨Mark.requests_of_served hserved, fun other => ?_⟩ hover, fun hyes => ?_⟩
    · rw [hcounted other]
      exact ⟨fun heq => heq ▸ hfits, fun hother => hother.unique hfits hne⟩
    · exact absurd hyes hover

end Windowed

/-!
## Sessions
-/

namespace Engine
namespace Session

variable {m : Type -> Type} [Monad m] {W : Type} [Performs m W] {o : Outlook W V}
  {view : View m V} {live : W -> view.archive.Scan -> Prop} {x : Session W V}
  {options : Options} {key : Instant} {q : Question} {count : Nat} {s s' : Windowed.State V}
  {run : List (Entry V)}

open Windowed

structure Finds (view : View m V) (o : Outlook W V) (x : Session W V) (options : Options)
    (key : Instant) (q : Question) (count : Nat) (s s' : Windowed.State V)
    (run : List (Entry V)) : Prop where
  reach : q.reach = some count
  before : x.engine = .windowed s
  after : (x.step view o (.ask options key q)).engine = .windowed s'
  answer : (perform (Windowed.run view options key count).run (s, x.world)).1 = .ok run
  found : run ≠ []

/-- The state in use for a request: a window of an earlier epoch has been dropped. -/
def inUse (o : Outlook W V) (x : Session W V) (s : Windowed.State V) : Windowed.State V :=
  s.observeEpoch (o.epoch x.world)

/-- A run that is found is counted once, as what it had from the window in use. -/
def Classifies (view : View m V) (o : Outlook W V) (x : Session W V) : Command W -> Prop
  | .ask options key q => forall count s s' run, Finds view o x options key q count s s' run ->
      Classified (x.inUse o s).window run s.counters s'.counters
  | _ => True

/-- A run that is found is walked back to the window in use, and all lies in it. -/
def Overlooks (view : View m V) (o : Outlook W V) (x : Session W V) : Command W -> Prop
  | .ask options key q => exists count s s' run, Finds view o x options key q count s s' run ∧
      Overlooked (o.series x.world) (x.inUse o s) (o.about x.world options key) count
  | _ => False

/-- A run that all lies in the window in use is counted as if only a part of it did. -/
def Underrates (view : View m V) (o : Outlook W V) (x : Session W V) : Command W -> Prop
  | .ask options key q => forall count s s' run, Finds view o x options key q count s s' run ->
      Mark.hit.Fits (x.inUse o s).window run ∧
        s'.counters.answers.requests = s.counters.answers.requests + 1 ∧
        Mark.partialHit.Counted s.counters s'.counters
  | _ => False

theorem Finds.unique (h : Finds view o x options key q count s s' run) {size : Nat}
    {t t' : Windowed.State V} {other : List (Entry V)}
    (h' : Finds view o x options key q size t t' other) :
    size = count ∧ t = s ∧ t' = s' ∧ other = run := by
  cases h.reach.symm.trans h'.reach
  cases h.before.symm.trans h'.before
  cases h.after.symm.trans h'.after
  cases h.answer.symm.trans h'.answer
  exact ⟨rfl, rfl, rfl, rfl⟩

theorem Finds.classified_iff (hfinds : Finds view o x options key q count s s' run)
    (h : view.Reads o live) (hx : x.Linked o) :
    let a := o.about x.world options key
    (Classified (x.inUse o s).window run s.counters s'.counters ↔
        ¬ Overlooked (o.series x.world) (x.inUse o s) a count) ∧
      (Overlooked (o.series x.world) (x.inUse o s) a count ->
        Mark.hit.Fits (x.inUse o s).window run ∧
          s'.counters.answers.requests = s.counters.answers.requests + 1 ∧
          Mark.partialHit.Counted s.counters s'.counters) := by
  intro a
  have hready := hx.ready
  have hof : s.window.Of (o.series x.world) := hx.attached s hfinds.before
  have hinUse : (x.inUse o s).window.Of (o.series x.world) := by
    rw [inUse, ← State.window_eq (s.uncounted_entered _ a)]
    exact State.of_entered hof _ a
  have hproper := (hx.proper s hfinds.before).observeEpoch (o.epoch x.world)
  have hkept : Engine.Kept Window.Of o (.windowed s, x.world) := by
    intro t ht _
    cases ht
    exact hof
  have hranks := ranks_outcome view options key count s x.world
  rw [seen_eq h hready, about_eq h hready] at hranks
  have hanswer := hfinds.answer
  have hserves := after_run (p := (s, x.world)) h hready Window.shaping_of (hkept s rfl) options
    key count
  have hhere : x.here = (.windowed s, x.world) := Prod.ext hfinds.before rfl
  have hengine : (perform (q.put view options key).run x.here).2.1 = .windowed s' := hfinds.after
  unfold After at hserves
  rw [hhere, q.perform_put_of_reach view hfinds.reach] at hengine
  rw [perform_run_outcome] at hanswer hserves hengine
  generalize outcome view options key count s x.world = result at *
  rcases result with ⟨r, w'⟩
  cases r with
  | error e => cases hanswer
  | ok out =>
      cases hanswer
      cases hengine
      have hrun : out.1 = ((o.series x.world).downFrom (s.base (o.epoch x.world) a)).take count :=
        hserves.2.2
      rw [show (o.series x.world).downFrom (s.base (o.epoch x.world) a) = _ from
        hkept.downFrom_base a] at hrun
      have hbefore := (s.served_observeEpoch (o.epoch x.world)).symm
      exact hranks.classified_iff hproper hinUse hrun hfinds.found hbefore

theorem classifies_or_overlooks (h : view.Reads o live) (hx : x.Linked o) (c : Command W) :
    (x.Classifies view o c ↔ ¬ x.Overlooks view o c) ∧
      (x.Overlooks view o c -> x.Underrates view o c) := by
  cases c with
  | ask options key q =>
      constructor
      · constructor
        · intro hclassifies hoverlooks
          rcases hoverlooks with ⟨count, s, s', run, hfinds, hover⟩
          exact (hfinds.classified_iff h hx).1.mp (hclassifies count s s' run hfinds) hover
        · intro hnot count s s' run hfinds
          apply (hfinds.classified_iff h hx).1.mpr
          exact fun hover => hnot ⟨count, s, s', run, hfinds, hover⟩
      · intro hoverlooks _ _ _ _ hother
        rcases hoverlooks with ⟨count, s, s', run, hfinds, hover⟩
        rcases hfinds.unique hother with ⟨rfl, rfl, rfl, rfl⟩
        exact (hfinds.classified_iff h hx).2 hover
  | clear => exact ⟨iff_of_true trivial id, False.elim⟩
  | raiseMaximum size => exact ⟨iff_of_true trivial id, False.elim⟩
  | move w => exact ⟨iff_of_true trivial id, False.elim⟩

/--
Over a series that stays as it is, in every session, a run that is found raises the requests by
one, and is counted as a hit if all of its entries were in the window, as a partial hit if some
were and some were not, and as neither if none was.  This fails just if the run was walked back to
a window that has all of it, and is short: it is then counted as a partial hit.
-/
theorem hits_iff_not_overlooked (h : view.Reads o live)
    (hseries : forall w, o.ready w -> o.series w = series) (maximum : Option Positive) {w : W}
    {commands : List (Command W)} (hready : o.ready w)
    (hgoes : Each (step view o) (Goes o) (start view .windowed maximum w) commands) :
    Each (step view o)
      (fun x c => (x.Classifies view o c ↔ ¬ x.Overlooks view o c) ∧
        (x.Overlooks view o c -> x.Underrates view o c))
      (start view .windowed maximum w) commands :=
  each_of_kept
    (fun _ c hx hc => ⟨classifies_or_overlooks h hx c, linked_step h hseries hx hc⟩)
    (linked_start h .windowed maximum hready) hgoes

def ranked : List (Command (Ledger Int)) :=
  [.ask {} (.ofNanos 35) (.previousEntries 2),
    .ask {} (.ofNanos 45) (.previousEntries 3),
    .ask {} (.ofNanos 25) (.previousEntries 4),
    .ask {} (.ofNanos 90) (.previousEntries 5),
    .move { Ledger.holding [10, 20, 30, 40] with outages := [false, true], epoch := 1 },
    .ask {} (.ofNanos 40) (.previousEntries 3),
    .ask {} (.ofNanos 40) (.previousEntry 2),
    .raiseMaximum 3,
    .ask { future := true } (.ofNanos 15) (.previousEntries 2)]

theorem hits_iff_not_overlooked_on_ledger :
    let ledger := Ledger.holding [10, 20, 30, 40]
    let o := Ledger.outlook (Ledger.Bears ledger.series)
    let x := start Ledger.view .windowed (some ⟨2, by decide⟩) ledger
    Each (step Ledger.view o)
      (fun x c => (x.Classifies Ledger.view o c ↔ ¬ x.Overlooks Ledger.view o c) ∧
        (x.Overlooks Ledger.view o c -> x.Underrates Ledger.view o c)) x ranked := by
  have hopen : Ledger.Open (Ledger.holding [10, 20, 30, 40]) := by decide
  apply hits_iff_not_overlooked (Ledger.reads_view (Ledger.closed_bears _))
    (fun _ hbears => hbears.1)
  · exact ⟨rfl, hopen⟩
  · exact ⟨trivial, trivial, trivial, trivial, ⟨rfl, hopen⟩, trivial, trivial, trivial, trivial,
      trivial⟩

def lasting : List (Command (Ledger Int)) :=
  [.ask {} (.ofNanos 20) (.previousEntries 2), .ask {} (.ofNanos 30) (.previousEntries 5)]

/-- All entries of the second run are in the window, and it is counted as a partial hit. -/
theorem partial_hit_within_window :
    let ledger := Ledger.holding [10, 20]
    let o := Ledger.outlook (Ledger.Bears ledger.series)
    let x := start Ledger.view .windowed none ledger
    Each (step Ledger.view o) (Goes o) x lasting ∧
      ¬ Each (step Ledger.view o) (Classifies Ledger.view o) x lasting := by
  intro ledger o x
  refine ⟨⟨trivial, trivial, trivial⟩, fun hall => ?_⟩
  have hclassified := hall.2.1 5 _ _ _ ⟨rfl, rfl, rfl, rfl, List.cons_ne_nil _ _⟩
  have hhit := (hclassified.marks .hit).mpr (by
    intro e he
    exact he)
  exact absurd hhit.1 (by decide +kernel)

end Session
end Engine
end AsOf
