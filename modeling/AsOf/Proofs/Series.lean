import AsOf.Series

/-!
# The order of a series

Since the entries of a series descend, what is picked out of it by an instant is
a stretch at one end.  This module says which entries belong to each stretch, and
that a run of entries in order is known by its members alone.
-/

namespace AsOf

abbrev Ascending {V : Type} (entries : List (Entry V)) : Prop :=
  entries.Pairwise fun older newer => older.key < newer.key

/-!
## Runs in order
-/

section Runs

variable {V : Type} {l l' : List (Entry V)} {x y : Entry V}

theorem ascending_reverse : Ascending l.reverse ↔ Descending l :=
  List.pairwise_reverse

theorem descending_reverse : Descending l.reverse ↔ Ascending l :=
  List.pairwise_reverse

theorem Descending.eq_of_key_eq (h : Descending l) (hx : x ∈ l) (hy : y ∈ l)
    (hkey : x.key = y.key) : x = y := by
  induction l with
  | nil =>
      cases hx
  | cons a rest ih =>
      have ha := List.pairwise_cons.mp h
      rcases List.mem_cons.mp hx with hxa | hx <;> rcases List.mem_cons.mp hy with hya | hy
      · rw [hxa, hya]
      · have hlt := ha.1 y hy
        rw [← hxa, hkey] at hlt
        exact absurd hlt Std.lt_irrefl
      · have hlt := ha.1 x hx
        rw [← hya, hkey] at hlt
        exact absurd hlt Std.lt_irrefl
      · exact ih ha.2 hx hy

theorem Descending.head_unique {a b : Entry V} {rest rest' : List (Entry V)}
    (h : Descending (a :: rest)) (h' : Descending (b :: rest'))
    (ha : a ∈ b :: rest') (hb : b ∈ a :: rest) : a = b := by
  rcases List.mem_cons.mp ha with hab | ha
  · exact hab
  rcases List.mem_cons.mp hb with hba | hb
  · exact hba.symm
  have hlt := (List.pairwise_cons.mp h).1 b hb
  have hgt := (List.pairwise_cons.mp h').1 a ha
  exact absurd hlt (Std.not_gt_of_lt hgt)

theorem Descending.eq_of_mem_iff (h : Descending l) (h' : Descending l')
    (hmem : forall e, e ∈ l ↔ e ∈ l') : l = l' := by
  induction l generalizing l' with
  | nil =>
      cases l' with
      | nil => rfl
      | cons b rest => exact absurd ((hmem b).mpr (by simp)) (by simp)
  | cons a rest ih =>
      cases l' with
      | nil => exact absurd ((hmem a).mp (by simp)) (by simp)
      | cons b rest' =>
          have hab : a = b :=
            h.head_unique h' ((hmem a).mp (by simp)) ((hmem b).mpr (by simp))
          subst hab
          have ha := List.pairwise_cons.mp h
          have hb := List.pairwise_cons.mp h'
          congr 1
          apply ih ha.2 hb.2
          intro e
          have he := hmem e
          simp only [List.mem_cons] at he
          constructor
          · intro hrest
            rcases he.mp (Or.inr hrest) with hea | hrest'
            · exact absurd (ha.1 e hrest) (hea ▸ Std.lt_irrefl)
            · exact hrest'
          · intro hrest
            rcases he.mpr (Or.inr hrest) with hea | hrest'
            · exact absurd (hb.1 e hrest) (hea ▸ Std.lt_irrefl)
            · exact hrest'

theorem Ascending.eq_of_mem_iff (h : Ascending l) (h' : Ascending l')
    (hmem : forall e, e ∈ l ↔ e ∈ l') : l = l' := by
  apply List.reverse_inj.mp
  apply Descending.eq_of_mem_iff (descending_reverse.mpr h) (descending_reverse.mpr h')
  simpa using hmem

theorem Descending.head?_eq_some_iff (h : Descending l) :
    l.head? = some x ↔ x ∈ l ∧ forall y, y ∈ l -> y.key ≤ x.key := by
  cases l with
  | nil => simp
  | cons a rest =>
      have ha := List.pairwise_cons.mp h
      have hmax : forall y, y ∈ a :: rest -> y.key ≤ a.key := by
        intro y hy
        rcases List.mem_cons.mp hy with hya | hy
        · exact hya ▸ Std.le_refl _
        · exact Std.le_of_lt (ha.1 y hy)
      constructor
      · intro hhead
        cases hhead
        exact ⟨by simp, hmax⟩
      · intro h
        rcases h with ⟨hx, hxmax⟩
        have hkey : a.key = x.key := Std.le_antisymm (hxmax a (by simp)) (hmax x hx)
        rw [h.eq_of_key_eq (by simp) hx hkey]
        rfl

theorem Ascending.head?_eq_some_iff (h : Ascending l) :
    l.head? = some x ↔ x ∈ l ∧ forall y, y ∈ l -> x.key ≤ y.key := by
  cases l with
  | nil => simp
  | cons a rest =>
      have ha := List.pairwise_cons.mp h
      have hmin : forall y, y ∈ a :: rest -> a.key ≤ y.key := by
        intro y hy
        rcases List.mem_cons.mp hy with hya | hy
        · exact hya ▸ Std.le_refl _
        · exact Std.le_of_lt (ha.1 y hy)
      constructor
      · intro hhead
        cases hhead
        exact ⟨by simp, hmin⟩
      · intro h
        rcases h with ⟨hx, hxmin⟩
        have hkey : x.key = a.key := Std.le_antisymm (hxmin a (by simp)) (hmin x hx)
        have heq := (descending_reverse.mpr h).eq_of_key_eq (List.mem_reverse.mpr hx) (by simp) hkey
        rw [heq]
        rfl

theorem Ascending.mem_take_of_lt (h : Ascending l) {n : Nat} (hx : x ∈ l)
    (hy : y ∈ l.take n) (hlt : x.key < y.key) : x ∈ l.take n := by
  induction l generalizing n with
  | nil =>
      cases hx
  | cons a rest ih =>
      cases n with
      | zero =>
          cases hy
      | succ n =>
          have ha := List.pairwise_cons.mp h
          rw [List.take_succ_cons, List.mem_cons] at hy ⊢
          rcases List.mem_cons.mp hx with hxa | hx
          · exact Or.inl hxa
          · rcases hy with hya | hy
            · rw [hya] at hlt
              exact absurd (ha.1 x hx) (Std.not_gt_of_lt hlt)
            · exact Or.inr (ih ha.2 hx hy)

theorem Descending.dropWhile_eq_filter (h : Descending l) (key : Instant) :
    (l.dropWhile fun e => key < e.key) = l.filter fun e => e.key ≤ key := by
  induction l with
  | nil => rfl
  | cons a rest ih =>
      have ha := List.pairwise_cons.mp h
      by_cases hkey : key < a.key
      · simp [hkey, Std.not_le.mpr hkey, ih ha.2]
      · have hle := Std.not_lt.mp hkey
        have hall : forall e, e ∈ rest -> e.key ≤ key := fun e he =>
          Std.le_trans (Std.le_of_lt (ha.1 e he)) hle
        have hrest : rest.filter (fun e => e.key ≤ key) = rest :=
          List.filter_eq_self.mpr (by simpa using hall)
        simp [hkey, hle, hrest]

theorem Descending.takeWhile_eq_filter (h : Descending l) (key : Instant) :
    (l.takeWhile fun e => key ≤ e.key) = l.filter fun e => key ≤ e.key := by
  induction l with
  | nil => rfl
  | cons a rest ih =>
      have ha := List.pairwise_cons.mp h
      by_cases hkey : key ≤ a.key
      · simp [hkey, ih ha.2]
      · have hlt := Std.not_le.mp hkey
        have hall : forall e, e ∈ rest -> ¬ key ≤ e.key := fun e he =>
          Std.not_le.mpr (Std.lt_trans (ha.1 e he) hlt)
        have hrest : rest.filter (fun e => key ≤ e.key) = [] :=
          List.filter_eq_nil_iff.mpr (by simpa using hall)
        simp [hkey, hrest]

end Runs

namespace Series

variable {V : Type} {s t : Series V} {e x y : Entry V} {key : Instant}

instance [DecidableEq V] : DecidableEq (Series V) := fun s t =>
  decidable_of_iff (s.newestFirst = t.newestFirst)
    ⟨fun h => by
      cases s
      cases t
      cases h
      rfl, fun h => h ▸ rfl⟩

instance [DecidableEq V] (e : Entry V) (s : Series V) : Decidable (e ∈ s) :=
  inferInstanceAs (Decidable (e ∈ s.newestFirst))

instance (s : Series V) (P : Entry V -> Prop) [DecidablePred P] :
    Decidable (forall e, e ∈ s -> P e) :=
  inferInstanceAs (Decidable (forall e, e ∈ s.newestFirst -> P e))

theorem eq_of_key_eq (hx : x ∈ s) (hy : y ∈ s) (hkey : x.key = y.key) : x = y :=
  s.descending.eq_of_key_eq hx hy hkey

theorem ascending_toList (s : Series V) : Ascending s.toList :=
  ascending_reverse.mpr s.descending

/-!
## Stretches

The entries up to an instant are counted from the newest one, those from an
instant on from the oldest one.
-/

def downFrom (s : Series V) (key : Instant) : List (Entry V) :=
  s.newestFirst.filter fun e => e.key ≤ key

theorem upTo_eq_reverse (s : Series V) (key : Instant) : s.upTo key = (s.downFrom key).reverse := by
  unfold upTo downFrom
  rw [s.descending.dropWhile_eq_filter]

theorem latestUpTo_eq_head? (s : Series V) (key : Instant) :
    s.latestUpTo key = (s.downFrom key).head? :=
  List.head?_filter.symm

theorem onwards_eq_filter (s : Series V) (key : Instant) :
    s.onwards key = s.toList.filter fun e => key ≤ e.key := by
  unfold onwards toList
  rw [s.descending.takeWhile_eq_filter, List.filter_reverse]

theorem descending_downFrom (s : Series V) (key : Instant) : Descending (s.downFrom key) :=
  s.descending.filter _

theorem ascending_onwards (s : Series V) (key : Instant) : Ascending (s.onwards key) := by
  rw [onwards_eq_filter]
  exact s.ascending_toList.filter _

@[simp] theorem mem_downFrom : e ∈ s.downFrom key ↔ e ∈ s ∧ e.key ≤ key := by
  simp [downFrom, mem_def]

@[simp] theorem mem_onwards : e ∈ s.onwards key ↔ e ∈ s ∧ key ≤ e.key := by
  simp [onwards_eq_filter]

/-!
## Entries at the ends
-/

theorem latestUpTo_eq_some_iff :
    s.latestUpTo key = some e ↔
      (e ∈ s ∧ e.key ≤ key) ∧ forall x, x ∈ s -> x.key ≤ key -> x.key ≤ e.key := by
  rw [latestUpTo_eq_head?, (s.descending_downFrom key).head?_eq_some_iff]
  simp

theorem latestUpTo_eq_none_iff :
    s.latestUpTo key = none ↔ forall x, x ∈ s -> key < x.key := by
  unfold latestUpTo
  rw [List.find?_eq_none]
  simp [mem_def, Std.not_le]

theorem newest?_eq_some_iff :
    s.newest? = some e ↔ e ∈ s ∧ forall x, x ∈ s -> x.key ≤ e.key :=
  s.descending.head?_eq_some_iff

theorem toList_eq_nil_iff : s.toList = [] ↔ s.newest? = none := by
  simp [toList, newest?]

theorem oldest?_eq_some_iff :
    s.oldest? = some e ↔ e ∈ s ∧ forall x, x ∈ s -> e.key ≤ x.key := by
  have h := s.ascending_toList.head?_eq_some_iff (x := e)
  simpa [toList, oldest?, List.head?_reverse, mem_def] using h

theorem oldest?_eq_none_iff : s.oldest? = none ↔ forall x, ¬ x ∈ s := by
  unfold oldest?
  rw [List.getLast?_eq_none_iff, List.eq_nil_iff_forall_not_mem]
  rfl

def latestBefore (s : Series V) (key : Instant) : Option (Entry V) :=
  s.newestFirst.find? fun e => e.key < key

def downBefore (s : Series V) (key : Instant) : List (Entry V) :=
  s.newestFirst.filter fun e => e.key < key

theorem latestBefore_eq_head? (s : Series V) (key : Instant) :
    s.latestBefore key = (s.downBefore key).head? :=
  List.head?_filter.symm

theorem descending_downBefore (s : Series V) (key : Instant) : Descending (s.downBefore key) :=
  s.descending.filter _

@[simp] theorem mem_downBefore : e ∈ s.downBefore key ↔ e ∈ s ∧ e.key < key := by
  simp [downBefore, mem_def]

theorem latestBefore_eq_some_iff :
    s.latestBefore key = some e ↔
      (e ∈ s ∧ e.key < key) ∧ forall x, x ∈ s -> x.key < key -> x.key ≤ e.key := by
  rw [latestBefore_eq_head?, (s.descending_downBefore key).head?_eq_some_iff]
  simp

theorem latestBefore_eq_none_iff :
    s.latestBefore key = none ↔ forall x, x ∈ s -> key ≤ x.key := by
  unfold latestBefore
  rw [List.find?_eq_none]
  simp [mem_def, Std.not_lt]

/-- An instant from which one sees the entry ahead of a key sees no other entry from the key on. -/
theorem le_iff_lt_of_latestUpTo_eq {k : Instant} (h : s.latestUpTo k = s.latestBefore key)
    (hx : x ∈ s) : x.key ≤ k ↔ x.key < key := by
  cases hbefore : s.latestBefore key with
  | none =>
      have hk := latestUpTo_eq_none_iff.mp (h.trans hbefore) x hx
      have hkey := latestBefore_eq_none_iff.mp hbefore x hx
      exact ⟨fun hle => absurd hk (Std.not_lt.mpr hle), fun hlt => absurd hlt (Std.not_lt.mpr hkey)⟩
  | some e =>
      have hk := latestUpTo_eq_some_iff.mp (h.trans hbefore)
      have hkey := latestBefore_eq_some_iff.mp hbefore
      constructor
      · intro hle
        exact Std.lt_of_le_of_lt (hk.2 x hx hle) hkey.1.2
      · intro hlt
        exact Std.le_trans (hkey.2 x hx hlt) hk.1.2

theorem downFrom_eq_downBefore {k : Instant} (h : s.latestUpTo k = s.latestBefore key) :
    s.downFrom k = s.downBefore key := by
  apply (s.descending_downFrom k).eq_of_mem_iff (s.descending_downBefore key)
  intro x
  rw [mem_downFrom, mem_downBefore]
  constructor
  · intro h
    rcases h with ⟨hx, hle⟩
    exact ⟨hx, (le_iff_lt_of_latestUpTo_eq h hx).mp hle⟩
  · intro h
    rcases h with ⟨hx, hlt⟩
    exact ⟨hx, (le_iff_lt_of_latestUpTo_eq h hx).mpr hlt⟩

theorem downFrom_eq_cons (h : s.latestUpTo key = some e) :
    s.downFrom key = e :: s.downBefore e.key := by
  have he := latestUpTo_eq_some_iff.mp h
  have hcons : Descending (e :: s.downBefore e.key) :=
    List.pairwise_cons.mpr ⟨fun x hx => (mem_downBefore.mp hx).2, s.descending_downBefore e.key⟩
  apply (s.descending_downFrom key).eq_of_mem_iff hcons
  intro x
  rw [mem_downFrom, List.mem_cons, mem_downBefore]
  constructor
  · intro h
    rcases h with ⟨hx, hle⟩
    rcases Std.lt_trichotomy x.key e.key with hlt | heq | hgt
    · exact Or.inr ⟨hx, hlt⟩
    · exact Or.inl (eq_of_key_eq hx he.1.1 heq)
    · exact absurd (he.2 x hx hle) (Std.not_le.mpr hgt)
  · intro h
    rcases h with rfl | ⟨hx, hlt⟩
    · exact he.1
    · exact ⟨hx, Std.le_trans (Std.le_of_lt hlt) he.1.2⟩

/-!
## Sizes
-/

theorem length_place_le (e : Entry V) (l : List (Entry V)) :
    (place e l).length ≤ l.length + 1 := by
  induction l with
  | nil =>
      exact Nat.le_refl _
  | cons x rest ih =>
      unfold place
      split
      · exact Nat.le_refl _
      · split
        · exact Nat.succ_le_succ ih
        · exact Nat.le_succ _

theorem size_insertNew_le (s : Series V) (e : Entry V) : (s.insertNew e).size ≤ s.size + 1 := by
  unfold insertNew
  split
  · exact Nat.le_succ _
  · exact length_place_le e s.newestFirst

theorem size_ofFirsts_le (entries : List (Entry V)) : (ofFirsts entries).size ≤ entries.length := by
  suffices hfold : forall s : Series V,
      (entries.foldl insertNew s).size ≤ s.size + entries.length by
    simpa [ofFirsts, size, empty] using hfold empty
  induction entries with
  | nil =>
      intro s
      exact Nat.le_refl _
  | cons a rest ih =>
      intro s
      have hfirst := size_insertNew_le s a
      have hrest := ih (s.insertNew a)
      rw [List.foldl_cons, List.length_cons]
      omega

theorem length_toList (s : Series V) : s.toList.length = s.size :=
  List.length_reverse

/-!
## Series of entries that belong together
-/

theorem contains_of_mem (h : e ∈ s) : s.contains e.key = true :=
  contains_iff.mpr ⟨e, h, rfl⟩

theorem mem_insert_of_subset (hs : forall x, x ∈ s -> x ∈ t) (he : e ∈ t) :
    y ∈ s.insert e ↔ y ∈ s ∨ y = e := by
  rw [mem_insert]
  constructor
  · intro h
    rcases h with hy | ⟨hy, _⟩
    · exact Or.inr hy
    · exact Or.inl hy
  · intro h
    rcases h with hy | hy
    · by_cases hkey : y.key = e.key
      · exact Or.inl (eq_of_key_eq (hs y hy) he hkey)
      · exact Or.inr ⟨hy, hkey⟩
    · exact Or.inl hy

theorem mem_insertNew_of_subset (hs : forall x, x ∈ s -> x ∈ t) (he : e ∈ t) :
    y ∈ s.insertNew e ↔ y ∈ s ∨ y = e := by
  rw [mem_insertNew]
  constructor
  · intro h
    rcases h with hy | ⟨hy, _⟩
    · exact Or.inl hy
    · exact Or.inr hy
  · intro h
    rcases h with hy | hy
    · exact Or.inl hy
    · cases hc : s.contains e.key with
      | false =>
          exact Or.inr ⟨hy, rfl⟩
      | true =>
          rcases contains_iff.mp hc with ⟨x, hx, hkey⟩
          have hxe := eq_of_key_eq (hs x hx) he hkey
          exact Or.inl (by rwa [hy, ← hxe])

theorem mem_of_mem_ofFirsts {entries : List (Entry V)} (he : e ∈ ofFirsts entries) :
    e ∈ entries := by
  suffices hfold : forall s : Series V, e ∈ entries.foldl insertNew s -> e ∈ s ∨ e ∈ entries by
    exact (hfold empty he).resolve_left (not_mem_empty e)
  clear he
  induction entries with
  | nil =>
      intro s he
      exact Or.inl he
  | cons a rest ih =>
      intro s he
      rcases ih (s.insertNew a) he with hin | hrest
      · rcases mem_insertNew.mp hin with hs | ⟨rfl, -⟩
        · exact Or.inl hs
        · exact Or.inr (List.mem_cons_self ..)
      · exact Or.inr (List.mem_cons_of_mem a hrest)

theorem mem_ofFirsts_of_subset {entries : List (Entry V)}
    (h : forall x, x ∈ entries -> x ∈ t) : e ∈ ofFirsts entries ↔ e ∈ entries := by
  suffices hfold : forall (s : Series V), (forall x, x ∈ s -> x ∈ t) ->
      (e ∈ entries.foldl insertNew s ↔ e ∈ s ∨ e ∈ entries) by
    simpa [ofFirsts] using hfold empty (by simp)
  induction entries with
  | nil =>
      intro s _
      simp
  | cons a rest ih =>
      intro s hs
      have ha : a ∈ t := h a (by simp)
      have hmem := fun x => mem_insertNew_of_subset (y := x) hs ha
      have hs' : forall x, x ∈ s.insertNew a -> x ∈ t := by
        intro x hx
        rcases (hmem x).mp hx with hx | hx
        · exact hs x hx
        · exact hx ▸ ha
      rw [List.foldl_cons, ih (fun x hx => h x (by simp [hx])) (s.insertNew a) hs', hmem]
      simp [or_assoc]

end Series
end AsOf
