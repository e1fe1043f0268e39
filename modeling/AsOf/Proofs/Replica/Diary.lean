import AsOf.Proofs.Replica.Upheld

/-!
# Diaries

A diary tells what is given to a replica to be stored, and what its listener hears of.
Operations are nested, since a listener may look up and pull while it is being told of an
entry: each note carries the level of the operation that it belongs to.

What is stored and not yet heard of is owed by the operations under way.  The account is in
balance if what was heard of and what is owed together are the first notes of each key, level
by level.
-/

namespace AsOf
namespace Replica

variable {m : Type -> Type} [Monad m] {V : Type}

abbrev Note (V : Type) := Nat × Entry V

/-- The epoch, with what was given to be stored and what was heard of since the last reset. -/
structure Diary (V : Type) where
  epoch : Nat
  stored : List (Note V) := []
  heard : List (Note V) := []

def keepFirst (notes : List (Note V)) (note : Note V) : List (Note V) :=
  if notes.any fun earlier => earlier.2.key = note.2.key then notes else notes ++ [note]

/-- The first note of each key. -/
def firsts (notes : List (Note V)) : List (Note V) :=
  notes.foldl keepFirst []

def atLevel (level : Nat) (notes : List (Note V)) : List (Note V) :=
  notes.filter fun note => note.1 = level

def leveled (level : Nat) (entries : List (Entry V)) : List (Note V) :=
  entries.map fun e => (level, e)

namespace Diary

def storing (diary : Diary V) (level : Nat) (entries : List (Entry V)) : Diary V :=
  { diary with stored := diary.stored ++ leveled level entries }

def hearing (diary : Diary V) (level : Nat) (e : Entry V) : Diary V :=
  { diary with heard := diary.heard ++ [(level, e)] }

def blank (diary : Diary V) : Diary V :=
  { epoch := diary.epoch }

def since (diary earlier : Diary V) : Diary V :=
  { diary with
    stored := diary.stored.drop earlier.stored.length
    heard := diary.heard.drop earlier.heard.length }

def clock : Epoch (StateT (Diary V) m) where
  current := do return (<- get).epoch
  advance := modifyGet fun diary => (diary.epoch + 1, { diary with epoch := diary.epoch + 1 })

end Diary

/-!
## First notes
-/

section Firsts

variable {notes more : List (Note V)} {note : Note V} {level : Nat} {key : Instant}

@[simp] theorem atLevel_nil (level : Nat) : atLevel level ([] : List (Note V)) = [] := rfl

@[simp] theorem atLevel_append (level : Nat) (notes more : List (Note V)) :
    atLevel level (notes ++ more) = atLevel level notes ++ atLevel level more :=
  List.filter_append ..

theorem mem_atLevel_self (h : note ∈ notes) : note ∈ atLevel note.1 notes :=
  List.mem_filter.mpr ⟨h, decide_eq_true rfl⟩

theorem atLevel_leveled_of_ne {k : Nat} (h : level ≠ k) (entries : List (Entry V)) :
    atLevel k (leveled level entries) = [] := by
  simp [atLevel, leveled, h]

theorem leveled_append (level : Nat) (entries rest : List (Entry V)) :
    leveled level (entries ++ rest) = leveled level entries ++ leveled level rest :=
  List.map_append

theorem firsts_append_singleton (notes : List (Note V)) (note : Note V) :
    firsts (notes ++ [note]) = keepFirst (firsts notes) note := by
  unfold firsts
  rw [List.foldl_append]
  rfl

def Mentions (notes : List (Note V)) (key : Instant) : Prop :=
  exists note, note ∈ notes ∧ note.2.key = key

theorem mentions_append_singleton :
    Mentions (notes ++ [note]) key ↔ Mentions notes key ∨ note.2.key = key := by
  simp only [Mentions, List.mem_append, List.mem_singleton, or_and_right, exists_or,
    exists_eq_left]

theorem any_eq_true_iff_mentions :
    (notes.any fun earlier => earlier.2.key = key) = true ↔ Mentions notes key := by
  simp [Mentions]

theorem mentions_keepFirst :
    Mentions (keepFirst notes note) key ↔ Mentions notes key ∨ note.2.key = key := by
  unfold keepFirst
  split
  · rename_i hany
    have hmentions := any_eq_true_iff_mentions.mp hany
    exact ⟨Or.inl, fun h => h.elim id fun heq => heq ▸ hmentions⟩
  · exact mentions_append_singleton

theorem mentions_firsts : Mentions (firsts notes) key ↔ Mentions notes key := by
  suffices hfold : forall earlier : List (Note V),
      Mentions (notes.foldl keepFirst earlier) key ↔ Mentions earlier key ∨ Mentions notes key by
    exact (hfold []).trans ⟨fun h => h.elim (fun h => by simp [Mentions] at h) id, Or.inr⟩
  induction notes with
  | nil => exact fun earlier => ⟨Or.inl, fun h => h.elim id fun h => by simp [Mentions] at h⟩
  | cons note rest ih =>
      intro earlier
      rw [List.foldl_cons, ih, mentions_keepFirst]
      simp only [Mentions, List.mem_cons, or_and_right, exists_or, exists_eq_left, or_assoc]

abbrev Distinct (notes : List (Note V)) : Prop :=
  notes.Pairwise fun x y => x.2.key ≠ y.2.key

theorem Distinct.keepFirst (h : Distinct notes) (note : Note V) :
    Distinct (keepFirst notes note) := by
  unfold Replica.keepFirst
  split
  · exact h
  · rename_i hany
    refine List.pairwise_append.mpr ⟨h, List.pairwise_singleton .., fun x hx y hy => ?_⟩
    cases List.mem_singleton.mp hy
    exact fun heq => hany (any_eq_true_iff_mentions.mpr ⟨x, hx, heq⟩)

theorem distinct_firsts (notes : List (Note V)) : Distinct (firsts notes) := by
  suffices hfold : forall earlier : List (Note V), Distinct earlier ->
      Distinct (notes.foldl keepFirst earlier) from hfold [] List.Pairwise.nil
  induction notes with
  | nil => exact fun _ h => h
  | cons note rest ih => exact fun _ h => ih _ (h.keepFirst note)

theorem Distinct.eq_of_key (h : Distinct notes) {x y : Note V} (hx : x ∈ notes) (hy : y ∈ notes)
    (hkey : x.2.key = y.2.key) : x = y := by
  induction notes with
  | nil => cases hx
  | cons note rest ih =>
      rcases List.pairwise_cons.mp h with ⟨hnote, hrest⟩
      rcases List.mem_cons.mp hx with hxnote | hx <;> rcases List.mem_cons.mp hy with hynote | hy
      · exact hxnote.trans hynote.symm
      · exact absurd (hxnote ▸ hkey) (hnote y hy)
      · exact absurd (hynote ▸ hkey).symm (hnote x hx)
      · exact ih hrest hx hy

theorem mem_iff_of_atLevel (h : forall level, atLevel level notes = atLevel level more)
    (x : Note V) : x ∈ notes ↔ x ∈ more := by
  constructor
  · exact fun hx => (List.mem_filter.mp (h x.1 ▸ mem_atLevel_self hx)).1
  · exact fun hx => (List.mem_filter.mp (h x.1 ▸ mem_atLevel_self hx)).1

theorem distinct_of_atLevel (hmore : Distinct more)
    (h : forall level, atLevel level notes = atLevel level more) : Distinct notes := by
  have hin : forall x, x ∈ notes -> x ∈ more := fun x => (mem_iff_of_atLevel h x).mp
  apply List.pairwise_iff_forall_sublist.mpr
  intro x y hsub hkey
  have hsame : x = y := hmore.eq_of_key (hin x (hsub.subset (List.mem_cons_self ..)))
    (hin y (hsub.subset (List.mem_cons_of_mem x (List.mem_singleton_self y)))) hkey
  subst hsame
  have htwice : [x, x].Sublist (atLevel x.1 more) := by
    rw [← h]
    simpa [atLevel] using hsub.filter fun note => note.1 = x.1
  exact List.pairwise_iff_forall_sublist.mp (hmore.filter _) htwice rfl

end Firsts

/-!
## What is owed
-/

/--
What is loaded is what was given to be stored, and what was heard of together with what is owed
are the first notes of each key, level by level.
-/
structure Balanced (loaded : Series V) (stored heard owed : List (Note V)) : Prop where
  loaded : forall key, loaded.contains key = true ↔ Mentions stored key
  told : forall level,
    atLevel level heard ++ atLevel level owed = atLevel level (firsts stored)

section Balance

variable {loaded : Series V} {stored heard owed : List (Note V)} {s : State V} {level : Nat}
  {e : Entry V}

theorem balanced_empty : Balanced (.empty : Series V) [] [] [] where
  loaded key := by
    constructor
    · intro h
      cases h
    · rintro ⟨note, hnote, -⟩
      cases hnote
  told _ := rfl

theorem Balanced.store
    (h : Balanced s.loaded stored heard (owed ++ leveled level s.pending)) (e : Entry V) :
    Balanced (s.store e).loaded (stored ++ [(level, e)]) heard
      (owed ++ leveled level (s.store e).pending) where
  loaded key := by
    rw [mentions_append_singleton]
    refine Series.contains_insert.trans ?_
    rw [h.loaded, or_comm, eq_comm]
  told k := by
    have htold := h.told k
    have hany : ((firsts stored).any fun earlier => earlier.2.key = e.key) =
        s.loaded.contains e.key := by
      rw [Bool.eq_iff_iff, any_eq_true_iff_mentions, mentions_firsts, h.loaded]
    rw [firsts_append_singleton]
    unfold keepFirst State.store
    simp only [hany]
    split
    · exact htold
    · rw [leveled_append, ← List.append_assoc, atLevel_append, ← List.append_assoc, htold,
        atLevel_append]
      rfl

/-- The first that an operation owes is heard of before anything else of its level. -/
theorem Balanced.hear {rest : List (Entry V)}
    (h : Balanced loaded stored heard (owed ++ leveled level (e :: rest)))
    (howed : atLevel level owed = []) :
    Balanced loaded stored (heard ++ [(level, e)]) (owed ++ leveled level rest) where
  loaded := h.loaded
  told k := by
    have hcons : leveled level (e :: rest) = leveled level [e] ++ leveled level rest :=
      leveled_append level [e] rest
    have htold := h.told k
    rw [hcons] at htold
    show atLevel k (heard ++ leveled level [e]) ++ _ = _
    by_cases hlevel : level = k
    · subst hlevel
      simpa [howed] using htold
    · simpa [atLevel_leveled_of_ne hlevel] using htold

theorem Balanced.distinct (h : Balanced loaded stored heard []) : Distinct heard :=
  distinct_of_atLevel (distinct_firsts stored) fun level => by simpa using h.told level

theorem Balanced.mentions (h : Balanced loaded stored heard []) (key : Instant) :
    loaded.contains key = true ↔ Mentions heard key := by
  have hsame : forall x, x ∈ heard ↔ x ∈ firsts stored := fun x =>
    mem_iff_of_atLevel (fun level => by simpa using h.told level) x
  rw [h.loaded, ← mentions_firsts]
  exact exists_congr fun x => and_congr_left fun _ => (hsame x).symm

end Balance

end Replica
end AsOf
