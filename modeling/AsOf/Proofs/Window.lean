import AsOf.Window
import AsOf.Proofs.Series

/-!
# Windows of a series

A window of a series holds the newest of the entries that are in effect up to its
anchor, without a gap.  Every way of shaping a window keeps this, when what is put
in front of it leads up to it and what is put behind it goes on from it.

Every way keeps also that a window misses nothing from its newest entry down, even
if the series has grown between that entry and the anchor since.  A run that is read
off the window begins at the newest entry then, and not at the anchor.
-/

namespace AsOf

variable {V : Type} {s : Series V} {a : Instant} {e oldest : Entry V} {l rest : List (Entry V)}

namespace Series

theorem downFrom_of_append (h : s.downFrom a = l ++ e :: rest) :
    s.downFrom e.key = e :: rest ∧ s.downBefore e.key = rest := by
  have hin : e ∈ s.downFrom a := by
    rw [h]
    simp
  have hdesc := s.descending_downFrom a
  rw [h] at hdesc
  have hparts := List.pairwise_append.mp hdesc
  have hrest := List.pairwise_cons.mp hparts.2.1
  have hbefore : s.downBefore e.key = rest := by
    apply (s.descending_downBefore e.key).eq_of_mem_iff hrest.2
    intro x
    rw [mem_downBefore]
    constructor
    · intro h
      rcases h with ⟨hx, hlt⟩
      have hxa : x ∈ s.downFrom a :=
        mem_downFrom.mpr ⟨hx, Std.le_trans (Std.le_of_lt hlt) (mem_downFrom.mp hin).2⟩
      rw [h] at hxa
      rcases List.mem_append.mp hxa with hl | hcons
      · exact absurd hlt (Std.not_gt_of_lt (hparts.2.2 x hl e (by simp)))
      · rcases List.mem_cons.mp hcons with rfl | hx
        · exact absurd hlt Std.lt_irrefl
        · exact hx
    · intro hx
      have hxa : x ∈ s.downFrom a := by
        rw [h]
        simp [hx]
      exact ⟨(mem_downFrom.mp hxa).1, hrest.1 x hx⟩
  constructor
  · have hlatest : s.latestUpTo e.key = some e :=
      latestUpTo_eq_some_iff.mpr ⟨⟨(mem_downFrom.mp hin).1, Std.le_refl e.key⟩, fun _ _ hle => hle⟩
    rw [downFrom_eq_cons hlatest, hbefore]
  · exact hbefore

theorem downFrom_eq_append (h : l <+: s.downFrom a) (hlast : l.getLast? = some oldest) :
    s.downFrom a = l ++ s.downBefore oldest.key := by
  rcases h with ⟨tail, htail⟩
  rcases List.getLast?_eq_some_iff.mp hlast with ⟨init, rfl⟩
  have hsplit : s.downFrom a = init ++ oldest :: tail := by
    rw [← htail]
    simp
  rw [(downFrom_of_append hsplit).2, htail]

theorem mem_of_prefix (h : l <+: s.downFrom a) (he : e ∈ l) : e ∈ s ∧ e.key ≤ a :=
  mem_downFrom.mp (h.subset he)

theorem append_take_eq {count : Nat} (h : l <+: s.downFrom a) (hlast : l.getLast? = some oldest)
    (hlen : l.length ≤ count) :
    l ++ (s.downBefore oldest.key).take (count - l.length) = (s.downFrom a).take count := by
  rw [downFrom_eq_append h hlast, List.take_append, List.take_of_length_le hlen]

theorem filter_downFrom {b : Instant} (hle : b ≤ a) :
    (s.downFrom a).filter (fun e => e.key ≤ b) = s.downFrom b := by
  have hfilter : Descending ((s.downFrom a).filter fun e => e.key ≤ b) :=
    (s.descending_downFrom a).filter _
  apply hfilter.eq_of_mem_iff (s.descending_downFrom b)
  intro x
  rw [List.mem_filter, mem_downFrom, mem_downFrom, decide_eq_true_eq]
  constructor
  · intro h
    rcases h with ⟨⟨hx, -⟩, hb⟩
    exact ⟨hx, hb⟩
  · intro h
    rcases h with ⟨hx, hb⟩
    exact ⟨⟨hx, Std.le_trans hb hle⟩, hb⟩

end Series

namespace Window

variable {w : Window V} {newest : Entry V}

/-!
## Trims
-/

theorem entries_trimNewest (w : Window V) (size : Nat) :
    (w.trimNewest size).entries = w.entries.drop (w.excess size) := by
  unfold trimNewest
  split
  · rename_i hnone
    rw [hnone, List.drop_zero]
  · rfl

theorem size_trimOldest (w : Window V) (size : Nat) :
    (w.trimOldest size).size = min w.size size := by
  show (w.entries.take size).length = min w.entries.length size
  rw [List.length_take, Nat.min_comm]

theorem size_trimNewest (w : Window V) (size : Nat) :
    (w.trimNewest size).size = min w.size size := by
  show (w.trimNewest size).entries.length = min w.entries.length size
  rw [entries_trimNewest, List.length_drop]
  show w.entries.length - (w.entries.length - size) = min w.entries.length size
  omega

theorem suffix_toList_trimOldest (w : Window V) (size : Nat) :
    (w.trimOldest size).toList <:+ w.toList :=
  List.reverse_suffix.mpr (List.take_prefix _ _)

theorem prefix_toList_trimNewest (w : Window V) (size : Nat) :
    (w.trimNewest size).toList <+: w.toList := by
  unfold toList
  rw [entries_trimNewest]
  exact List.reverse_prefix.mpr (List.drop_suffix _ _)

/-!
## Runs that are read off a window
-/

def base (w : Window V) (a : Instant) : Instant :=
  match w.newest? with
  | some newest => if w.anchor = some a then newest.key else a
  | none => a

theorem base_of_anchor (hnewest : w.newest? = some newest) (hanchor : w.anchor = some a) :
    w.base a = newest.key := by
  unfold base
  rw [hnewest]
  exact if_pos hanchor

theorem base_of_none (hnone : w.newest? = none) : w.base a = a := by
  unfold base
  rw [hnone]

theorem base_of_ne (hne : w.anchor ≠ some a) : w.base a = a := by
  unfold base
  split
  · exact if_neg hne
  · rfl

theorem base_newest (hnewest : w.newest? = some newest) : w.base newest.key = newest.key := by
  unfold base
  rw [hnewest]
  exact ite_self newest.key

/--
What every way of shaping a window of a series keeps, if it implies that the window
misses nothing from its newest entry down.
-/
structure Shaping (s : Series V) (P : Window V -> Prop) : Prop where
  empty : P empty
  front : forall w newest, P w -> w.newest? = some newest -> w.entries <+: s.downFrom newest.key
  replace : forall w a l, P w -> l <+: s.downFrom (w.base a) -> P (w.replace a l)
  extendNewer : forall (w : Window V) a l, l ++ w.entries <+: s.downFrom a ->
    P (w.extendNewer a l)
  extendOlder : forall w oldest n, P w -> w.oldest? = some oldest ->
    P (w.extendOlder ((s.downBefore oldest.key).take n))
  trimOldest : forall w size, P w -> P (w.trimOldest size)
  trimNewest : forall w size, P w -> P (w.trimNewest size)

theorem prefix_of_drop {n : Nat} (h : l <+: s.downFrom a) (hdrop : l.drop n = e :: rest) :
    e :: rest <+: s.downFrom e.key := by
  rcases h with ⟨tail, htail⟩
  have hsplit : s.downFrom a = l.take n ++ e :: (rest ++ tail) := by
    calc
      s.downFrom a
        = l.take n ++ l.drop n ++ tail := by
          rw [List.take_append_drop, htail]
      _ = l.take n ++ e :: (rest ++ tail) := by
          rw [hdrop]
          simp
  rw [(Series.downFrom_of_append hsplit).1]
  exact ⟨tail, rfl⟩

theorem getLast?_upTo (holdest : w.oldest? = some oldest) (hle : oldest.key ≤ a) :
    (w.entries.filter fun e => e.key ≤ a).getLast? = some oldest := by
  rcases List.getLast?_eq_some_iff.mp holdest with ⟨init, hentries⟩
  rw [hentries, List.filter_append]
  simp [hle]

/-!
## Windows up to their anchors
-/

/-- A window of a series: the newest entries up to its anchor. -/
structure Of (s : Series V) (w : Window V) : Prop where
  entries : forall anchor, w.anchor = some anchor -> w.entries <+: s.downFrom anchor
  anchor : w.anchor = none -> w.entries = []

theorem of_empty (s : Series V) : Of s (empty : Window V) where
  entries _ hanchor := by cases hanchor
  anchor _ := rfl

theorem Of.of_newest (h : w.Of s) (hnewest : w.newest? = some newest) :
    exists anchor, w.anchor = some anchor ∧
      s.downFrom anchor = s.downFrom newest.key ∧ w.entries <+: s.downFrom newest.key := by
  rcases List.head?_eq_some_iff.mp hnewest with ⟨rest, hentries⟩
  cases hanchor : w.anchor with
  | none =>
      rw [h.anchor hanchor] at hentries
      cases hentries
  | some anchor =>
      have hfront := h.entries anchor hanchor
      rcases hfront with ⟨tail, htail⟩
      have hsplit : s.downFrom anchor = [] ++ newest :: (rest ++ tail) := by
        rw [← htail, hentries]
        rfl
      have hsame : s.downFrom anchor = s.downFrom newest.key := by
        rw [(Series.downFrom_of_append hsplit).1, hsplit]
        rfl
      exact ⟨anchor, rfl, hsame, hsame ▸ ⟨tail, htail⟩⟩

theorem Of.downFrom_base (h : w.Of s) (a : Instant) : s.downFrom (w.base a) = s.downFrom a := by
  by_cases hanchor : w.anchor = some a
  · cases hnewest : w.newest? with
    | none => rw [base_of_none hnewest]
    | some newest =>
        rcases h.of_newest hnewest with ⟨anchor, hsome, hsame, -⟩
        cases hsome.symm.trans hanchor
        rw [base_of_anchor hnewest hanchor, hsame]
  · rw [base_of_ne hanchor]

theorem of_replace (w : Window V) (h : l <+: s.downFrom a) : Of s (w.replace a l) where
  entries _ hanchor := by
    cases hanchor
    exact h
  anchor hanchor := by cases hanchor

theorem of_extendNewer (h : l ++ w.entries <+: s.downFrom a) : Of s (w.extendNewer a l) where
  entries _ hanchor := by
    cases hanchor
    exact h
  anchor hanchor := by cases hanchor

theorem Of.extendOlder (h : w.Of s) {n : Nat} (hlast : w.oldest? = some oldest) :
    Of s (w.extendOlder ((s.downBefore oldest.key).take n)) where
  entries anchor hanchor := by
    have hfront := h.entries anchor hanchor
    rw [Series.downFrom_eq_append hfront hlast]
    exact List.prefix_append_right_inj _ |>.mpr (List.take_prefix _ _)
  anchor hanchor := by
    have hnil := h.anchor hanchor
    unfold oldest? at hlast
    rw [hnil] at hlast
    cases hlast

theorem Of.trimOldest (h : w.Of s) (size : Nat) : Of s (w.trimOldest size) where
  entries anchor hanchor := (List.take_prefix _ _).trans (h.entries anchor hanchor)
  anchor hanchor := by
    show w.entries.take size = []
    rw [h.anchor hanchor]
    exact List.take_nil

theorem Of.trimNewest (h : w.Of s) (size : Nat) : Of s (w.trimNewest size) := by
  unfold Window.trimNewest
  split
  · exact h
  · cases hkept : w.entries.drop (w.excess size) with
    | nil =>
        exact of_empty s
    | cons e kept =>
        constructor
        · intro _ h
          cases h
          cases hanchor : w.anchor with
          | none =>
              rw [h.anchor hanchor] at hkept
              simp at hkept
          | some anchor => exact prefix_of_drop (h.entries anchor hanchor) hkept
        · exact fun hanchor => by cases hanchor

theorem shaping_of (s : Series V) : Shaping s (Of s) where
  empty := of_empty s
  front _ _ h hnewest := by
    rcases h.of_newest hnewest with ⟨-, -, -, hfront⟩
    exact hfront
  replace w a _ h hrun := of_replace w (h.downFrom_base a ▸ hrun)
  extendNewer _ _ _ hrun := of_extendNewer hrun
  extendOlder _ _ _ h holdest := h.extendOlder holdest
  trimOldest _ size h := h.trimOldest size
  trimNewest _ size h := h.trimNewest size

/-!
## Windows up to their newest entries
-/

/-- A window that misses nothing from its newest entry down, with an anchor no earlier. -/
structure Gapless (s : Series V) (w : Window V) : Prop where
  entries : forall newest, w.newest? = some newest -> w.entries <+: s.downFrom newest.key
  anchor : forall newest anchor, w.newest? = some newest -> w.anchor = some anchor ->
    newest.key ≤ anchor

theorem gapless_empty (s : Series V) : Gapless s (empty : Window V) where
  entries _ hnewest := by cases hnewest
  anchor _ _ hnewest := by cases hnewest

theorem gapless_of_prefix {b : Instant} (h : l <+: s.downFrom a) (hle : a ≤ b) :
    Gapless s ⟨l, some b⟩ where
  entries newest hnewest := by
    rcases List.head?_eq_some_iff.mp hnewest with ⟨rest, rfl⟩
    exact prefix_of_drop (n := 0) h rfl
  anchor newest _ hnewest hanchor := by
    cases hanchor
    have hmem : newest ∈ l := List.mem_of_head? hnewest
    exact Std.le_trans (Series.mem_of_prefix h hmem).2 hle

theorem Gapless.base_le (h : w.Gapless s) (a : Instant) : w.base a ≤ a := by
  unfold base
  split
  · rename_i newest hnewest
    split
    · rename_i hanchor
      exact h.anchor newest a hnewest hanchor
    · exact Std.le_refl a
  · exact Std.le_refl a

theorem Gapless.extendOlder (h : w.Gapless s) {n : Nat} (hlast : w.oldest? = some oldest) :
    Gapless s (w.extendOlder ((s.downBefore oldest.key).take n)) := by
  have hsame : (w.extendOlder ((s.downBefore oldest.key).take n)).newest? = w.newest? := by
    rcases List.exists_cons_of_ne_nil (List.ne_nil_of_mem (List.mem_of_getLast? hlast)) with
      ⟨newest, rest, hentries⟩
    unfold newest? Window.extendOlder
    rw [hentries]
    rfl
  constructor
  · intro newest hnewest
    rw [hsame] at hnewest
    rw [Series.downFrom_eq_append (h.entries newest hnewest) hlast]
    exact List.prefix_append_right_inj _ |>.mpr (List.take_prefix _ _)
  · intro newest anchor hnewest hanchor
    rw [hsame] at hnewest
    exact h.anchor newest anchor hnewest hanchor

theorem Gapless.trimOldest (h : w.Gapless s) (size : Nat) : Gapless s (w.trimOldest size) := by
  have hsame : forall newest, (w.trimOldest size).newest? = some newest ->
      w.newest? = some newest := by
    intro newest hnewest
    unfold newest? Window.trimOldest at hnewest
    rw [List.head?_take] at hnewest
    split at hnewest
    · cases hnewest
    · exact hnewest
  constructor
  · intro newest hnewest
    exact (List.take_prefix _ _).trans (h.entries newest (hsame newest hnewest))
  · intro newest anchor hnewest hanchor
    exact h.anchor newest anchor (hsame newest hnewest) hanchor

theorem Gapless.trimNewest (h : w.Gapless s) (size : Nat) : Gapless s (w.trimNewest size) := by
  unfold Window.trimNewest
  split
  · exact h
  · cases hkept : w.entries.drop (w.excess size) with
    | nil =>
        exact gapless_empty s
    | cons e kept =>
        cases hnewest : w.newest? with
        | none =>
            rw [List.head?_eq_none_iff.mp hnewest] at hkept
            simp at hkept
        | some newest =>
            exact gapless_of_prefix (prefix_of_drop (h.entries newest hnewest) hkept)
              (Std.le_refl e.key)

theorem shaping_gapless (s : Series V) : Shaping s (Gapless s) where
  empty := gapless_empty s
  front _ newest h hnewest := h.entries newest hnewest
  replace _ a _ h hrun := gapless_of_prefix hrun (h.base_le a)
  extendNewer _ a _ hrun := gapless_of_prefix hrun (Std.le_refl a)
  extendOlder _ _ _ h holdest := h.extendOlder holdest
  trimOldest _ size h := h.trimOldest size
  trimNewest _ size h := h.trimNewest size

end Window
end AsOf
