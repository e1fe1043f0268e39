import AsOf.Proofs.Engine.Order
import AsOf.Proofs.Run

/-!
# Windows under any edits

A window is shaped anew, extended at either end, trimmed at either end and cleared.  All of this
keeps it consistent, as long as what is put into it is in order, with one exception.  A window
that is trimmed at its old end down to nothing keeps its anchor, while one that is trimmed at its
new end down to nothing loses it.  An anchor without entries is not consistent.
-/

namespace AsOf
namespace Window

variable {V : Type} {w : Window V} {size : Nat}

inductive Edit (V : Type) where
  | replace (anchor : Instant) (newestFirst : List (Entry V))
  | append (anchor : Instant) (ascending : List (Entry V))
  | prepend (newestFirst : List (Entry V))
  | clear
  | trimOldest (size : Nat)
  | trimNewest (size : Nat)

def edit (w : Window V) : Edit V -> Window V
  | .replace anchor newestFirst => w.replace anchor newestFirst
  | .append anchor ascending => w.extendNewer anchor ascending.reverse
  | .prepend newestFirst => w.extendOlder newestFirst
  | .clear => .empty
  | .trimOldest size => w.trimOldest size
  | .trimNewest size => w.trimNewest size

/--
What may be put into a window: entries in order that join it at an end, under an anchor that is
not before the newest of them.
-/
def Allows (w : Window V) : Edit V -> Prop
  | .replace anchor newestFirst =>
      Descending newestFirst ∧ exists newest, newestFirst.head? = some newest ∧ newest.key ≤ anchor
  | .append anchor ascending =>
      Ascending ascending ∧
        (exists newest, w.newest? = some newest ∧
          forall e, e ∈ ascending -> newest.key < e.key) ∧
        forall newest, (w.extendNewer anchor ascending.reverse).newest? = some newest ->
          newest.key ≤ anchor
  | .prepend newestFirst =>
      Descending newestFirst ∧
        exists oldest, w.oldest? = some oldest ∧ forall e, e ∈ newestFirst -> e.key < oldest.key
  | .clear | .trimOldest _ | .trimNewest _ => True

/-- A trim at the old end that leaves no entry of a window. -/
def Drains (w : Window V) : Edit V -> Prop
  | .trimOldest size => size = 0 ∧ w.entries ≠ []
  | _ => False

/-!
## One edit
-/

theorem consistent_replace {anchor : Instant} {newestFirst : List (Entry V)}
    (hallows : w.Allows (.replace anchor newestFirst)) :
    (w.replace anchor newestFirst).Consistent := by
  rcases hallows with ⟨hdesc, newest, hnewest, hle⟩
  have hmax := (hdesc.head?_eq_some_iff.mp hnewest).2
  apply consistent_of_anchor hdesc
  · rintro rfl
    cases hnewest
  · exact fun e he => Std.le_trans (hmax e he) hle

theorem Consistent.append {anchor : Instant} {ascending : List (Entry V)} (h : w.Consistent)
    (hallows : w.Allows (.append anchor ascending)) :
    (w.extendNewer anchor ascending.reverse).Consistent := by
  rcases hallows with ⟨hasc, ⟨newest, hnewest, habove⟩, hanchor⟩
  have hmax := h.1.head?_eq_some_iff.mp hnewest
  have hdesc : Descending (ascending.reverse ++ w.entries) := by
    apply List.pairwise_append.mpr
    refine ⟨descending_reverse.mpr hasc, h.1, fun e he x hx => ?_⟩
    exact Std.lt_of_le_of_lt (hmax.2 x hx) (habove e (List.mem_reverse.mp he))
  have hne : ascending.reverse ++ w.entries ≠ [] :=
    List.append_ne_nil_of_right_ne_nil _ (List.ne_nil_of_mem hmax.1)
  apply consistent_of_anchor hdesc hne
  intro e he
  rcases List.exists_cons_of_ne_nil hne with ⟨first, rest, hcons⟩
  have hfirst : (ascending.reverse ++ w.entries).head? = some first := by
    rw [hcons]
    rfl
  exact Std.le_trans ((hdesc.head?_eq_some_iff.mp hfirst).2 e he) (hanchor first hfirst)

theorem Consistent.prepend {newestFirst : List (Entry V)} (h : w.Consistent)
    (hallows : w.Allows (.prepend newestFirst)) : (w.extendOlder newestFirst).Consistent := by
  rcases hallows with ⟨hdesc, oldest, holdest, hbelow⟩
  apply h.extendOlder (List.ne_nil_of_mem (List.mem_of_getLast? holdest))
  apply List.pairwise_append.mpr
  refine ⟨h.1, hdesc, fun x hx e he => ?_⟩
  exact Std.lt_of_lt_of_le (hbelow e he) (h.1.getLast_le holdest hx)

theorem Consistent.edit {c : Edit V} (h : w.Consistent) (hallows : w.Allows c)
    (hnot : ¬ w.Drains c) : (w.edit c).Consistent := by
  cases c with
  | replace anchor newestFirst => exact consistent_replace hallows
  | append anchor ascending => exact h.append hallows
  | prepend newestFirst => exact h.prepend hallows
  | clear => exact consistent_empty
  | trimOldest size =>
      cases size with
      | succ size => exact h.trimOldest (Nat.succ_pos size)
      | zero =>
          have hnil : w.entries = [] := Classical.not_not.mp fun hne => hnot ⟨rfl, hne⟩
          have hsame : w.trimOldest 0 = w := by
            unfold Window.trimOldest
            rw [hnil, List.take_nil, ← hnil]
          exact hsame ▸ h
  | trimNewest size => exact h.trimNewest size

theorem Consistent.not_consistent_of_drains {c : Edit V} (h : w.Consistent) (hdrains : w.Drains c) :
    ¬ (w.edit c).Consistent := by
  cases c with
  | trimOldest size =>
      rcases hdrains with ⟨rfl, hne⟩
      rcases h.exists_anchor hne with ⟨anchor, hanchor, -⟩
      intro hconsistent
      rcases anchored_iff.mp hconsistent.2 with ⟨-, hnone⟩ | ⟨newest, rest, -, hentries, -⟩
      · cases hanchor.symm.trans hnone
      · cases hentries
  | _ => exact hdrains.elim

/-!
## Runs of edits
-/

/--
A window that starts out empty and is edited as it allows is consistent after every edit just if
none of its trims drains it at the old end.  All trims remove as many entries as they say, and
leave the newest entries, or the oldest, in order.
-/
theorem consistent_iff_never_drained {edits : List (Edit V)}
    (hallows : Each edit Allows empty edits) :
    (Throughout edit Consistent empty edits ↔
        Each edit (fun w c => ¬ w.Drains c) empty edits) ∧
      forall (w : Window V) size,
        (w.excess size + (w.trimOldest size).size = w.size ∧
          (w.trimOldest size).size = min w.size size ∧
          (w.trimOldest size).toList <:+ w.toList) ∧
        (w.excess size + (w.trimNewest size).size = w.size ∧
          (w.trimNewest size).size = min w.size size ∧
          (w.trimNewest size).toList <+: w.toList) := by
  have hcount : forall (w : Window V) size, w.excess size + min w.size size = w.size := by
    intro w size
    unfold excess
    omega
  constructor
  · apply throughout_iff_faultless (fun _ h => h) _ _ consistent_empty hallows
    · exact fun w c h hallows hnot => h.edit hallows hnot
    · exact fun w c h _ hdrains => h.not_consistent_of_drains hdrains
  · intro w size
    have holdest := size_trimOldest w size
    have hnewest := size_trimNewest w size
    exact ⟨⟨holdest ▸ hcount w size, holdest, suffix_toList_trimOldest w size⟩,
      hnewest ▸ hcount w size, hnewest, prefix_toList_trimNewest w size⟩

def edited : List (Edit Int) :=
  [.trimOldest 0, .replace (.ofNanos 35) [⟨.ofNanos 30, 3⟩, ⟨.ofNanos 20, 2⟩],
    .append (.ofNanos 50) [⟨.ofNanos 40, 4⟩, ⟨.ofNanos 50, 5⟩], .prepend [⟨.ofNanos 10, 1⟩],
    .trimOldest 4, .trimNewest 9, .trimNewest 2, .trimNewest 0, .clear]

theorem consistent_when_edited :
    Each edit Allows empty edited ∧ Throughout edit Consistent empty edited := by
  have hallows : Each edit Allows empty edited := by
    simp +decide [edited, Each, Allows]
  have hnever : Each edit (fun w c => ¬ w.Drains c) empty edited := by
    simp +decide [edited, Each, Drains]
  exact ⟨hallows, (consistent_iff_never_drained hallows).1.mpr hnever⟩

/-- The anchor is kept when the last entries are trimmed at the old end. -/
theorem inconsistent_when_drained :
    let edits : List (Edit Int) :=
      [.replace (.ofNanos 30) [⟨.ofNanos 30, 3⟩, ⟨.ofNanos 20, 2⟩], .trimOldest 0]
    Each edit Allows empty edits ∧ ¬ Throughout edit Consistent empty edits := by
  intro edits
  constructor
  · simp +decide [edits, Each, Allows]
  · rintro ⟨-, -, hdrained⟩
    exact absurd hdrained.here (by decide)

end Window
end AsOf
