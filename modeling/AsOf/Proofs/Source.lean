import AsOf.Archive
import AsOf.Proofs.Outlook
import AsOf.Replica.Lookup

/-!
# Faithful sources

A source is faithful if it answers from the series of the world, apart from
failures: a batch holds the first entries from an instant on, in any order, and
the latest entry is the one in effect.  The key that it names after a key passes
over no entry, whatever the series may come to hold.
-/

namespace AsOf

variable {V : Type}

namespace Series

/-- The entries that a batch from an instant on has to hold, the oldest first. -/
def page (s : Series V) (start : Instant) (limit : Option Positive) : List (Entry V) :=
  limit.elim (s.onwards start) fun size => (s.onwards start).take size.val

/-- A batch that holds its page, in any order, and nothing from later on. -/
structure Batch (s : Series V) (start : Instant) (limit : Option Positive)
    (batch : List (Entry V)) : Prop where
  mem : forall e, e ∈ batch -> e ∈ s
  mem_page : forall e, e ∈ batch -> start ≤ e.key -> e ∈ s.page start limit
  of_mem_page : forall e, e ∈ s.page start limit -> e ∈ batch

variable {s : Series V} {start : Instant} {limit : Option Positive} {batch : List (Entry V)}
  {e x : Entry V}

theorem page_sublist (s : Series V) (start : Instant) (limit : Option Positive) :
    (s.page start limit).Sublist (s.onwards start) := by
  cases limit with
  | none => exact List.Sublist.refl _
  | some size => exact List.take_sublist _ _

theorem ascending_page (s : Series V) (start : Instant) (limit : Option Positive) :
    Ascending (s.page start limit) :=
  (s.ascending_onwards start).sublist (s.page_sublist start limit)

theorem mem_of_mem_page (h : e ∈ s.page start limit) : e ∈ s ∧ start ≤ e.key :=
  mem_onwards.mp ((s.page_sublist start limit).subset h)

theorem mem_page_of_lt (hx : x ∈ s) (hstart : start ≤ x.key) (he : e ∈ s.page start limit)
    (hlt : x.key < e.key) : x ∈ s.page start limit := by
  have hxon : x ∈ s.onwards start := mem_onwards.mpr ⟨hx, hstart⟩
  cases limit with
  | none => exact hxon
  | some size => exact (s.ascending_onwards start).mem_take_of_lt hxon he hlt

theorem onwards_eq_nil_of_page (h : s.page start limit = []) : s.onwards start = [] := by
  cases limit with
  | none => exact h
  | some size =>
      have hpos := size.pos
      rcases List.take_eq_nil_iff.mp h with hzero | hnil
      · omega
      · exact hnil

theorem Batch.of_perm (h : batch.Perm (s.page start limit)) : s.Batch start limit batch where
  mem _ he := (mem_of_mem_page (h.mem_iff.mp he)).1
  mem_page _ he _ := h.mem_iff.mp he
  of_mem_page _ he := h.mem_iff.mpr he

/-!
## The entries kept of a batch
-/

theorem Batch.mem_kept (h : s.Batch start limit batch) :
    e ∈ Replica.kept start batch ↔ e ∈ s.page start limit := by
  have hsub : forall x, x ∈ batch.filter (fun e => start ≤ e.key) -> x ∈ s := by
    intro x hx
    exact h.mem x (List.mem_filter.mp hx).1
  unfold Replica.kept
  rw [mem_ofFirsts_of_subset hsub]
  simp only [List.mem_filter, decide_eq_true_eq]
  constructor
  · intro h
    rcases h with ⟨he, hkey⟩
    exact h.mem_page e he hkey
  · intro he
    exact ⟨h.of_mem_page e he, (mem_of_mem_page he).2⟩

theorem Batch.toList_kept (h : s.Batch start limit batch) :
    (Replica.kept start batch).toList = s.page start limit := by
  apply (ascending_toList _).eq_of_mem_iff (s.ascending_page start limit)
  intro e
  rw [mem_toList, h.mem_kept]

theorem length_page (s : Series V) (start : Instant) (size : Positive) :
    (s.page start (some size)).length = min size.val (s.onwards start).length := by
  simp [page]

theorem Batch.length_page_le (h : s.Batch start limit batch) :
    (s.page start limit).length ≤ batch.length := by
  rw [← h.toList_kept, length_toList]
  calc
    (Replica.kept start batch).size
      ≤ (batch.filter fun e => start ≤ e.key).length := size_ofFirsts_le _
    _ ≤ batch.length := List.length_filter_le _ _

theorem Batch.page_eq_onwards (h : s.Batch start limit batch)
    (hfull : limit.any (fun size => size.val ≤ batch.length) = false) :
    s.page start limit = s.onwards start := by
  cases limit with
  | none => rfl
  | some size =>
      have hshort : batch.length < size.val := by
        simpa using hfull
      have hle := h.length_page_le
      rw [length_page] at hle
      show (s.onwards start).take size.val = s.onwards start
      apply List.take_of_length_le
      omega

end Series

variable {m : Type -> Type} [Monad m] {W : Type} [Performs m W]

namespace Source

/--
A source that answers from the series of the world, or fails.  The key it names
after an entry lies beyond that entry and beyond none that follows it in any of
the worlds that are spoken of.
-/
structure Faithful (source : Source m V) (o : Outlook W V) (next : Instant -> Instant) :
    Prop where
  batchFrom : forall w start, o.ready w ->
    After (source.batchFrom start).run w (fun r w' => o.Follows w w' ∧
      o.Delivers w w' ((o.series w).Batch start (o.limit w)) (r.mapError (.load start)))
  latestUpTo : forall w key, o.ready w ->
    After (source.latestUpTo key).run w (fun r w' => o.Follows w w' ∧
      o.Delivers w w' (· = (o.series w).latestUpTo key) (r.mapError (.load key)))
  batchLimit : forall w, o.ready w ->
    After source.batchLimit w (fun limit w' => limit = o.limit w ∧ o.Follows w w')
  nextKey : forall w key, o.ready w ->
    After (source.nextKey key) w (fun k w' => k = next key ∧ o.Follows w w')
  lt_next : forall w e, o.ready w -> e ∈ o.series w -> e.key < next e.key
  next_le : forall w w' e x, o.ready w -> o.ready w' -> e ∈ o.series w -> x ∈ o.series w' ->
    e.key < x.key -> next e.key ≤ x.key

structure Batches (source : Source m V) (o : Outlook W V) (next : Instant -> Instant) :
    Prop where
  batchFrom : forall w start, o.ready w ->
    After (source.batchFrom start).run w (fun r w' => o.Follows w w' ∧
      o.Delivers w w' ((o.series w).Batch start (o.limit w)) (r.mapError (.load start)))
  batchLimit : forall w, o.ready w ->
    After source.batchLimit w (fun limit w' => limit = o.limit w ∧ o.Follows w w')
  nextKey : forall w key, o.ready w ->
    After (source.nextKey key) w (fun k w' => k = next key ∧ o.Follows w w')
  lt_next : forall w e, o.ready w -> e ∈ o.series w -> e.key < next e.key
  next_le : forall w w' e x, o.ready w -> o.ready w' -> e ∈ o.series w -> x ∈ o.series w' ->
    e.key < x.key -> next e.key ≤ x.key

theorem Faithful.batches {source : Source m V} {o : Outlook W V} {next : Instant -> Instant}
    (h : source.Faithful o next) : source.Batches o next where
  batchFrom := h.batchFrom
  batchLimit := h.batchLimit
  nextKey := h.nextKey
  lt_next := h.lt_next
  next_le := h.next_le

theorem Batches.deaf {source : Source m V} {o : Outlook W V} {next : Instant -> Instant}
    (h : source.Batches o next) : source.Batches o.deaf next where
  batchFrom w start hready :=
    After.imp (h.batchFrom w start hready) fun _ _ hpost => ⟨hpost.1.deaf, hpost.2⟩
  batchLimit w hready :=
    After.imp (h.batchLimit w hready) fun _ _ hpost => ⟨hpost.1, hpost.2.deaf⟩
  nextKey w key hready :=
    After.imp (h.nextKey w key hready) fun _ _ hpost => ⟨hpost.1, hpost.2.deaf⟩
  lt_next := h.lt_next
  next_le := h.next_le

/-- The key that a source names before an entry leads to the entry ahead of it. -/
def StepsBack (source : Source m V) (o : Outlook W V) : Prop :=
  forall w e, o.ready w -> e ∈ o.series w ->
    After (source.previousKey e.key) w (fun k w' => o.Follows w w' ∧
      (o.series w).latestUpTo k = (o.series w).latestBefore e.key)

end Source
end AsOf
