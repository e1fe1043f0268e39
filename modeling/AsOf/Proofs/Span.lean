import AsOf.Span

/-!
# Joined and cut spans

A span that is joined to another holds no instant that neither of them held, and
begins where one of them began.  Unless one of the two ends before the other begins
they have a union, which holds just what they held.  A span that is cut back keeps
what lies before the cut.
-/

namespace AsOf

variable {s t u : Span} {key : Instant}

namespace Edge

variable {a b : Edge}

theorem admits_of_lt_of_reaches {start : Instant} (h : a.reaches start = true)
    (hkey : key < start) : a.admits key = true := by
  cases a with
  | included upper =>
      have hle : start ≤ upper := by simpa [reaches] using h
      simpa [admits] using Std.le_of_lt (Std.lt_of_lt_of_le hkey hle)
  | excluded upper =>
      have hle : start ≤ upper := by simpa [reaches] using h
      simpa [admits] using Std.lt_of_lt_of_le hkey hle
  | unbounded => rfl

theorem admits_of_le {upper : Instant} (h : a.admits upper = true) (hkey : key ≤ upper) :
    a.admits key = true := by
  cases a with
  | included last =>
      have hle : upper ≤ last := by simpa [admits] using h
      simpa [admits] using Std.le_trans hkey hle
  | excluded last =>
      have hlt : upper < last := by simpa [admits] using h
      simpa [admits] using Std.lt_of_le_of_lt hkey hlt
  | unbounded => rfl

theorem reaches_of_le {start : Instant} (h : a.reaches start = true) (hkey : key ≤ start) :
    a.reaches key = true := by
  cases a with
  | included last =>
      have hle : start ≤ last := by simpa [reaches] using h
      simpa [reaches] using Std.le_trans hkey hle
  | excluded last =>
      have hle : start ≤ last := by simpa [reaches] using h
      simpa [reaches] using Std.le_trans hkey hle
  | unbounded => rfl

theorem outer_eq (a b : Edge) : a.outer b = a ∨ a.outer b = b := by
  cases a <;> cases b <;> simp only [outer] <;> grind

theorem outer_comm (a b : Edge) : a.outer b = b.outer a := by
  cases a <;> cases b <;> simp only [outer] <;> grind

theorem reaches_iff_of_key? {upper : Instant} (h : a.key? = some upper) :
    a.reaches key = true ↔ key ≤ upper := by
  cases a <;> simp_all [key?, reaches]

theorem reaches_of_unbounded (h : a.key? = none) : a.reaches key = true := by
  cases a <;> simp_all [key?, reaches]

theorem reaches_outer_left (h : a.reaches key = true) : (a.outer b).reaches key = true := by
  cases a <;> cases b <;> simp only [outer, reaches, decide_eq_true_eq] at h ⊢ <;> grind [reaches]

theorem reaches_outer_right (h : b.reaches key = true) : (a.outer b).reaches key = true := by
  cases a <;> cases b <;> simp only [outer, reaches, decide_eq_true_eq] at h ⊢ <;> grind [reaches]

theorem admits_outer_right (h : b.admits key = true) : (a.outer b).admits key = true := by
  cases a <;> cases b <;> simp only [outer, admits, decide_eq_true_eq] at h ⊢ <;> grind [admits]

end Edge

namespace Span

theorem contains_iff : s.contains key = true ↔ s.start ≤ key ∧ s.edge.admits key = true := by
  simp [contains]

theorem upright_iff : s.Upright ↔ s.edge.reaches s.start = true := by
  unfold Upright
  cases h : s.edge.key? with
  | some upper =>
      rw [Edge.reaches_iff_of_key? h]
      simp
  | none =>
      simp [Edge.reaches_of_unbounded h]

theorem touches_iff :
    s.touches t = true ↔ s.edge.reaches t.start = true ∧ t.edge.reaches s.start = true := by
  simp [touches]

theorem join_of_touches (h : s.touches t = true) :
    s.join t = ⟨min s.start t.start, s.edge.outer t.edge⟩ := by
  simp [join, union?, h]

theorem join_of_not_touches (h : s.touches t = false) : s.join t = t := by
  simp [join, union?, h]

theorem min_eq (a b : Instant) : min a b = a ∧ a ≤ b ∨ min a b = b ∧ b ≤ a := by
  rw [Instant.min_def]
  grind

theorem start_join (s t : Span) : (s.join t).start = s.start ∨ (s.join t).start = t.start := by
  cases h : s.touches t with
  | true =>
      rw [join_of_touches h]
      rcases min_eq s.start t.start with ⟨hmin, _⟩ | ⟨hmin, _⟩
      · exact Or.inl hmin
      · exact Or.inr hmin
  | false =>
      rw [join_of_not_touches h]
      exact Or.inr rfl

theorem contains_or_of_contains_join (h : (s.join t).contains key = true) :
    s.contains key = true ∨ t.contains key = true := by
  cases htouch : s.touches t with
  | false =>
      rw [join_of_not_touches htouch] at h
      exact Or.inr h
  | true =>
      rw [join_of_touches htouch] at h
      have hreach := touches_iff.mp htouch
      rcases contains_iff.mp h with ⟨hstart, hedge⟩
      simp only [contains_iff]
      have hstart' : s.start ≤ key ∨ t.start ≤ key := by
        rcases min_eq s.start t.start with ⟨hmin, _⟩ | ⟨hmin, _⟩
        · exact Or.inl (hmin ▸ hstart)
        · exact Or.inr (hmin ▸ hstart)
      rcases Edge.outer_eq s.edge t.edge with heq | heq
      · have hadmits : s.edge.admits key = true := heq ▸ hedge
        by_cases hs : s.start ≤ key
        · exact Or.inl ⟨hs, hadmits⟩
        · have ht := hstart'.resolve_left hs
          exact Or.inr ⟨ht, Edge.admits_of_lt_of_reaches hreach.2 (Std.not_le.mp hs)⟩
      · have hadmits : t.edge.admits key = true := heq ▸ hedge
        by_cases ht : t.start ≤ key
        · exact Or.inr ⟨ht, hadmits⟩
        · have hs := hstart'.resolve_right ht
          exact Or.inl ⟨hs, Edge.admits_of_lt_of_reaches hreach.1 (Std.not_le.mp ht)⟩

theorem contains_join_of_right (h : t.contains key = true) : (s.join t).contains key = true := by
  cases htouch : s.touches t with
  | false =>
      rwa [join_of_not_touches htouch]
  | true =>
      rcases contains_iff.mp h with ⟨hstart, hedge⟩
      rw [join_of_touches htouch]
      have hle : min s.start t.start ≤ t.start := by
        rcases min_eq s.start t.start with ⟨hmin, hle⟩ | ⟨hmin, _⟩
        · rwa [hmin]
        · rw [hmin]
          exact Std.le_refl t.start
      exact contains_iff.mpr ⟨Std.le_trans hle hstart, Edge.admits_outer_right hedge⟩

theorem Upright.join (hs : s.Upright) (ht : t.Upright) : (s.join t).Upright := by
  cases htouch : s.touches t with
  | false =>
      rwa [join_of_not_touches htouch]
  | true =>
      rw [upright_iff] at *
      rw [join_of_touches htouch]
      show (s.edge.outer t.edge).reaches (min s.start t.start) = true
      rcases min_eq s.start t.start with ⟨hmin, _⟩ | ⟨hmin, _⟩
      · rw [hmin]
        exact Edge.reaches_outer_left hs
      · rw [hmin]
        exact Edge.reaches_outer_right ht

/-!
## Unions

A union is a join that does not give up anything, so what it holds follows from what
a join holds, taken from either side.
-/

def EndsBefore (s t : Span) : Prop :=
  exists upper, s.edge.key? = some upper ∧ upper < t.start

theorem endsBefore_iff : s.EndsBefore t ↔ s.edge.reaches t.start = false := by
  unfold EndsBefore
  cases h : s.edge.key? with
  | some upper =>
      rw [← Bool.not_eq_true, Edge.reaches_iff_of_key? h, Std.not_le]
      simp
  | none =>
      simp [Edge.reaches_of_unbounded h]

theorem touches_comm (s t : Span) : s.touches t = t.touches s :=
  Bool.and_comm _ _

theorem union?_comm (s t : Span) : s.union? t = t.union? s := by
  have hmin : min s.start t.start = min t.start s.start := by
    rw [Instant.min_def, Instant.min_def]
    grind
  unfold union?
  rw [touches_comm, hmin, Edge.outer_comm]

theorem union?_eq_none_iff : s.union? t = none ↔ s.EndsBefore t ∨ t.EndsBefore s := by
  have htouch : s.union? t = none ↔ s.touches t = false := by
    unfold union?
    cases s.touches t <;> simp
  rw [htouch, endsBefore_iff, endsBefore_iff]
  exact Bool.and_eq_false_iff

theorem join_of_union? (h : s.union? t = some u) : s.join t = u := by
  simp [join, h]

theorem contains_iff_of_union? (h : s.union? t = some u) :
    u.contains key = true ↔ s.contains key = true ∨ t.contains key = true := by
  have hjoin := join_of_union? h
  have hjoin' := join_of_union? (union?_comm s t ▸ h)
  constructor
  · intro hu
    exact contains_or_of_contains_join (hjoin ▸ hu)
  · rintro (hs | ht)
    · exact hjoin' ▸ contains_join_of_right hs
    · exact hjoin ▸ contains_join_of_right ht

theorem Upright.union? (hs : s.Upright) (ht : t.Upright) (h : s.union? t = some u) :
    u.Upright :=
  join_of_union? h ▸ hs.join ht

/--
A union is exact, whatever the edges: the order of the two spans does not matter, there is none
just if one of them ends before the other begins, and it holds the instants that one of them
holds and no others.
-/
theorem union_exact (s t : Span) :
    s.union? t = t.union? s ∧
      (s.union? t = none ↔ s.EndsBefore t ∨ t.EndsBefore s) ∧
      forall u, s.union? t = some u ->
        (forall key, u.contains key = true ↔ s.contains key = true ∨ t.contains key = true) ∧
        (s.Upright -> t.Upright -> u.Upright) := by
  refine ⟨union?_comm s t, union?_eq_none_iff, fun u h => ?_⟩
  constructor
  · exact fun key => contains_iff_of_union? h
  · exact fun hs ht => hs.union? ht h

/-- Two spans that meet at an edge which only one of them holds, as its only instant. -/
theorem union_exact_at_edge :
    let s : Span := ⟨.ofNanos 10, .excluded (.ofNanos 20)⟩
    let t : Span := ⟨.ofNanos 20, .included (.ofNanos 20)⟩
    exists u, s.union? t = some u ∧ t.union? s = some u ∧ u.Upright ∧
      forall key, u.contains key = true ↔ s.contains key = true ∨ t.contains key = true := by
  intro s t
  have hexact := union_exact s t
  have hunion : s.union? t = some ⟨.ofNanos 10, .included (.ofNanos 20)⟩ := by decide
  have hs : s.Upright := upright_iff.mpr (by decide)
  have ht : t.Upright := upright_iff.mpr (by decide)
  rcases hexact.2.2 _ hunion with ⟨hcontains, hupright⟩
  exact ⟨_, hunion, hexact.1 ▸ hunion, hupright hs ht, hcontains⟩

/-!
## Cuts
-/

theorem start_cutBefore (s : Span) (key : Instant) : (s.cutBefore key).start = s.start := by
  unfold cutBefore
  split
  · split <;> rfl
  · rfl

theorem cutBefore_eq (s : Span) (cut : Instant) :
    s.cutBefore cut = s ∧ (exists upper, s.edge = .excluded upper ∧ upper ≤ cut) ∨
      s.cutBefore cut = ⟨s.start, .excluded cut⟩ := by
  unfold cutBefore
  split
  · rename_i upper heq
    split
    · rename_i hle
      exact Or.inl ⟨rfl, upper, heq, hle⟩
    · exact Or.inr rfl
  · exact Or.inr rfl

theorem lt_of_contains_cutBefore {cut : Instant} (h : (s.cutBefore cut).contains key = true) :
    key < cut := by
  have hedge := (contains_iff.mp h).2
  rcases cutBefore_eq s cut with ⟨heq, upper, hupper, hle⟩ | heq
  · rw [heq, hupper] at hedge
    exact Std.lt_of_lt_of_le (by simpa [Edge.admits] using hedge) hle
  · rw [heq] at hedge
    simpa [Edge.admits] using hedge

theorem contains_of_contains_cutBefore {cut : Instant} (hcut : s.contains cut = true)
    (h : (s.cutBefore cut).contains key = true) : s.contains key = true := by
  have hlt := lt_of_contains_cutBefore h
  have hstart := (contains_iff.mp h).1
  rw [start_cutBefore] at hstart
  exact contains_iff.mpr
    ⟨hstart, Edge.admits_of_le (contains_iff.mp hcut).2 (Std.le_of_lt hlt)⟩

theorem Upright.cutBefore {cut : Instant} (h : s.Upright) (hcut : s.start ≤ cut) :
    (s.cutBefore cut).Upright := by
  rcases cutBefore_eq s cut with ⟨heq, _⟩ | heq
  · rwa [heq]
  · rw [heq]
    intro upper hupper
    cases hupper
    exact hcut

end Span
end AsOf
