import AsOf.Entry

/-!
# Series

A series is a finite collection of entries with distinct keys.  Its entries are
kept from the newest to the oldest, so that the entry in effect at an instant is
the first one that is not later, and an entry newer than all others is added at
the front.  The order is part of the type.
-/

namespace AsOf

/-- A run of entries in which each is newer than all that follow. -/
abbrev Descending {V : Type} (entries : List (Entry V)) : Prop :=
  entries.Pairwise fun newer older => older.key < newer.key

/-- A finite collection of entries with distinct keys. -/
structure Series (V : Type) where
  newestFirst : List (Entry V)
  descending : Descending newestFirst

namespace Series

variable {V : Type}

/-!
## Insertion into a descending run
-/

/-- Place an entry in a descending run, over an entry of the same key if there is one. -/
def place (e : Entry V) : List (Entry V) -> List (Entry V)
  | [] => [e]
  | x :: rest =>
      if x.key < e.key then e :: x :: rest
      else if e.key < x.key then x :: place e rest
      else e :: rest

theorem mem_place {e y : Entry V} {entries : List (Entry V)} (h : Descending entries) :
    y ∈ place e entries ↔ y = e ∨ (y ∈ entries ∧ y.key ≠ e.key) := by
  induction entries with
  | nil => simp [place]
  | cons x rest ih =>
      have hx := List.pairwise_cons.mp h
      have ih := ih hx.2
      unfold place
      split
      · grind
      · split
        · grind
        · grind

theorem descending_place {e : Entry V} {entries : List (Entry V)} (h : Descending entries) :
    Descending (place e entries) := by
  induction entries with
  | nil => simp [place]
  | cons x rest ih =>
      have hx := List.pairwise_cons.mp h
      have hmem := fun y => mem_place (e := e) (y := y) hx.2
      have ih := ih hx.2
      unfold place
      split
      · grind [List.pairwise_cons]
      · split
        · grind [List.pairwise_cons]
        · grind [List.pairwise_cons]

/-!
## Operations
-/

def empty : Series V := ⟨[], List.Pairwise.nil⟩

instance : EmptyCollection (Series V) := ⟨empty⟩

instance : Inhabited (Series V) := ⟨empty⟩

instance : Membership (Entry V) (Series V) := ⟨fun s e => e ∈ s.newestFirst⟩

/-- Add an entry, in place of an entry of the same key if there is one. -/
def insert (s : Series V) (e : Entry V) : Series V :=
  ⟨place e s.newestFirst, descending_place s.descending⟩

def erase (s : Series V) (key : Instant) : Series V :=
  ⟨s.newestFirst.filter fun e => e.key ≠ key, s.descending.filter _⟩

def size (s : Series V) : Nat :=
  s.newestFirst.length

def toList (s : Series V) : List (Entry V) :=
  s.newestFirst.reverse

def newest? (s : Series V) : Option (Entry V) :=
  s.newestFirst.head?

def oldest? (s : Series V) : Option (Entry V) :=
  s.newestFirst.getLast?

def get? (s : Series V) (key : Instant) : Option (Entry V) :=
  s.newestFirst.find? fun e => e.key = key

def contains (s : Series V) (key : Instant) : Bool :=
  (s.get? key).isSome

/-- The entry in effect at an instant: the newest one that is not later. -/
def latestUpTo (s : Series V) (key : Instant) : Option (Entry V) :=
  s.newestFirst.find? fun e => e.key ≤ key

/-- Whether there is an entry at an instant or later. -/
def reaches (s : Series V) (key : Instant) : Bool :=
  s.newestFirst.any fun e => key ≤ e.key

/-- The entries up to an instant, from the oldest to the newest. -/
def upTo (s : Series V) (key : Instant) : List (Entry V) :=
  (s.newestFirst.dropWhile fun e => key < e.key).reverse

/-- The entries from an instant on, from the oldest to the newest. -/
def onwards (s : Series V) (key : Instant) : List (Entry V) :=
  (s.newestFirst.takeWhile fun e => key ≤ e.key).reverse

/-- The series of some entries, the later one of two with the same key. -/
def ofList (entries : List (Entry V)) : Series V :=
  entries.foldl insert empty

def insertNew (s : Series V) (e : Entry V) : Series V :=
  if s.contains e.key then s else s.insert e

/-- The series of some entries, the earlier one of two with the same key. -/
def ofFirsts (entries : List (Entry V)) : Series V :=
  entries.foldl insertNew empty

/-!
## Membership
-/

theorem mem_def {s : Series V} {e : Entry V} : e ∈ s ↔ e ∈ s.newestFirst := Iff.rfl

@[simp] theorem not_mem_empty (e : Entry V) : ¬ e ∈ (empty : Series V) := by
  simp [mem_def, empty]

@[simp] theorem mem_toList {s : Series V} {e : Entry V} : e ∈ s.toList ↔ e ∈ s := by
  simp [toList, mem_def]

theorem mem_insert {s : Series V} {e y : Entry V} :
    y ∈ s.insert e ↔ y = e ∨ (y ∈ s ∧ y.key ≠ e.key) :=
  mem_place s.descending

theorem mem_erase {s : Series V} {key : Instant} {y : Entry V} :
    y ∈ s.erase key ↔ y ∈ s ∧ y.key ≠ key := by
  simp [mem_def, erase]

theorem contains_iff {s : Series V} {key : Instant} :
    s.contains key = true ↔ exists e, e ∈ s ∧ e.key = key := by
  simp [contains, get?, mem_def, List.find?_isSome]

theorem reaches_iff {s : Series V} {key : Instant} :
    s.reaches key = true ↔ exists e, e ∈ s ∧ key ≤ e.key := by
  simp [reaches, mem_def]

theorem mem_insertNew {s : Series V} {e y : Entry V} :
    y ∈ s.insertNew e ↔ y ∈ s ∨ (y = e ∧ s.contains e.key = false) := by
  unfold insertNew
  split
  · simp_all
  · rename_i h
    have hkey : forall x, x ∈ s -> x.key ≠ e.key := fun x hx heq =>
      h (contains_iff.mpr ⟨x, hx, heq⟩)
    rw [mem_insert]
    grind

end Series
end AsOf
