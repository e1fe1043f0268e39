import AsOf.Engine.View
import AsOf.Proofs.Outlook

/-!
# Walks find every earlier entry

A feed that hands out a list one item at a time can be gathered into any wanted
prefix of it.  A walk over an archive that answers from a series is such a feed: it
hands out the entries that are not later than an instant, from the newest on.
-/

namespace AsOf

variable {m : Type -> Type} [Monad m] {V W α σ : Type} [Performs m W] {o : Outlook W V}

/-!
## Gathering a list
-/

def collect (wanted : α -> Bool) : Nat -> List α -> List α × Bool
  | 0, _ => ([], false)
  | _ + 1, [] => ([], false)
  | n + 1, a :: rest =>
      if wanted a then
        let (items, met) := collect wanted n rest
        (a :: items, met)
      else
        ([], true)

theorem fst_collect (wanted : α -> Bool) (n : Nat) (items : List α) :
    (collect wanted n items).1 = (items.take n).takeWhile wanted := by
  induction items generalizing n with
  | nil =>
      cases n <;> rfl
  | cons a rest ih =>
      cases n with
      | zero => rfl
      | succ n =>
          unfold collect
          rw [List.take_succ_cons, List.takeWhile_cons]
          split
          · exact congrArg (a :: ·) (ih n)
          · rfl

theorem takeWhile_true (items : List α) : items.takeWhile (fun _ => true) = items := by
  induction items with
  | nil => rfl
  | cons a rest ih => exact congrArg (a :: ·) ih

theorem exists_of_met {wanted : α -> Bool} {n : Nat} {items : List α}
    (hmet : (collect wanted n items).2 = true) :
    exists a rest, items = (collect wanted n items).1 ++ a :: rest ∧ wanted a = false ∧
      (collect wanted n items).1.length < n := by
  induction items generalizing n with
  | nil =>
      cases n <;> cases hmet
  | cons a rest ih =>
      cases n with
      | zero => cases hmet
      | succ n =>
          unfold collect at hmet ⊢
          cases hwanted : wanted a with
          | true =>
              rw [hwanted] at hmet
              rcases ih hmet with ⟨b, later, hrest, hb, hlen⟩
              exact ⟨b, later, congrArg (a :: ·) hrest, hb, Nat.succ_lt_succ hlen⟩
          | false =>
              exact ⟨a, rest, rfl, hwanted, Nat.succ_pos n⟩

theorem fst_collect_of_not_met {wanted : α -> Bool} {n : Nat} {items : List α}
    (hmet : (collect wanted n items).2 = false) : (collect wanted n items).1 = items.take n := by
  induction items generalizing n with
  | nil =>
      cases n <;> rfl
  | cons a rest ih =>
      cases n with
      | zero => rfl
      | succ n =>
          unfold collect at hmet ⊢
          cases hwanted : wanted a with
          | true =>
              rw [hwanted] at hmet
              exact congrArg (a :: ·) (ih hmet)
          | false =>
              rw [hwanted] at hmet
              cases hmet

/-!
## Feeds that hand out a list
-/

def Outlook.HandsOut (o : Outlook W V) (awaits : W -> σ -> List α -> Prop) (w : W)
    (items : List α) (r : Option (Except QueryError α) × σ) (w' : W) : Prop :=
  match r.1 with
  | none => items = []
  | some (.ok a) => exists rest, items = a :: rest ∧ awaits w' r.2 rest
  | some (.error e) => e ∈ o.since w w'

/-- A feed that hands out, one by one, the items that its state awaits. -/
def Pull.Feeds (pull : Pull m α σ) (o : Outlook W V) (awaits : W -> σ -> List α -> Prop) : Prop :=
  forall w state items, o.ready w -> awaits w state items ->
    After (pull state) w (fun r w' => o.Follows w w' ∧ o.HandsOut awaits w items r w')

theorem Pull.Feeds.gather {pull : Pull m α σ} {awaits : W -> σ -> List α -> Prop}
    (h : pull.Feeds o awaits) (wanted : α -> Bool) (n : Nat) {w : W} {state : σ}
    {items : List α} (hready : o.ready w) (hawaits : awaits w state items) :
    After (pull.gather wanted n state).run w (fun r w' => o.Follows w w' ∧
      o.Delivers w w' (· = collect wanted n items) r) := by
  induction n generalizing w state items with
  | zero =>
      exact after_except_pure.mpr ⟨Outlook.Follows.refl o w, rfl⟩
  | succ n ih =>
      unfold Pull.gather
      apply after_except_bind.mpr
      apply after_except_lift.mpr
      apply After.imp (h w state items hready hawaits)
      intro out w' hpost
      rcases out with ⟨r, next⟩
      rcases hpost with ⟨hw', hr⟩
      match r, hr with
      | none, hr =>
          refine after_except_pure.mpr ⟨hw', ?_⟩
          rw [show items = [] from hr]
          rfl
      | some (.error e), hr =>
          exact after_except_throw.mpr ⟨hw', hr⟩
      | some (.ok a), hr =>
          rcases hr with ⟨rest, rfl, hrest⟩
          dsimp only
          split
          · rename_i hwanted
            apply after_except_bind.mpr
            apply After.imp (ih (hw'.ready hready) hrest)
            intro r w'' hpost
            rcases hpost with ⟨hw'', hr⟩
            have hall := hw'.trans hw''
            cases r with
            | error e =>
                exact ⟨hall, hr.later hw' hw''⟩
            | ok out =>
                refine after_except_pure.mpr ⟨hall, ?_⟩
                rw [show out = _ from hr]
                show _ = collect wanted (n + 1) (a :: rest)
                rw [collect, if_pos hwanted]
          · rename_i hwanted
            refine after_except_pure.mpr ⟨hw', ?_⟩
            show _ = collect wanted (n + 1) (a :: rest)
            rw [collect, if_neg hwanted]

theorem Pull.Feeds.takeWhile {pull : Pull m α σ} {awaits : W -> σ -> List α -> Prop}
    (h : pull.Feeds o awaits) (wanted : α -> Bool) (n : Nat) {w : W} {state : σ}
    {items : List α} (hready : o.ready w) (hawaits : awaits w state items) :
    After (pull.takeWhile wanted n state).run w (fun r w' => o.Follows w w' ∧
      o.Delivers w w' (· = (items.take n).takeWhile wanted) r) := by
  apply after_except_map.mpr
  apply After.imp (h.gather wanted n hready hawaits)
  intro r w' hpost
  rcases hpost with ⟨hw', hr⟩
  exact ⟨hw', hr.map fun out hout => by rw [hout, fst_collect]⟩

theorem Pull.Feeds.take {pull : Pull m α σ} {awaits : W -> σ -> List α -> Prop}
    (h : pull.Feeds o awaits) (n : Nat) {w : W} {state : σ} {items : List α} (hready : o.ready w)
    (hawaits : awaits w state items) :
    After (pull.take n state).run w (fun r w' => o.Follows w w' ∧
      o.Delivers w w' (· = items.take n) r) := by
  apply After.imp (h.takeWhile (fun _ => true) n hready hawaits)
  intro r w' hpost
  rcases hpost with ⟨hw', hr⟩
  exact ⟨hw', hr.imp fun out hout => by rw [hout, takeWhile_true]⟩

theorem Pull.follows_gather {pull : Pull m α σ} {live : W -> σ -> Prop}
    (h : forall w state, o.ready w -> live w state ->
      After (pull state) w (fun r w' => o.Follows w w' ∧ live w' r.2))
    (wanted : α -> Bool) (n : Nat) {w : W} {state : σ} (hready : o.ready w)
    (hlive : live w state) :
    After (pull.gather wanted n state).run w (fun _ w' => o.Follows w w') := by
  induction n generalizing w state with
  | zero =>
      exact after_except_pure.mpr (Outlook.Follows.refl o w)
  | succ n ih =>
      unfold Pull.gather
      apply after_except_bind.mpr
      apply after_except_lift.mpr
      apply After.imp (h w state hready hlive)
      intro out w' hpost
      rcases out with ⟨r, next⟩
      rcases hpost with ⟨hw', hnext⟩
      match r with
      | none =>
          exact after_except_pure.mpr hw'
      | some (.error e) =>
          exact after_except_throw.mpr hw'
      | some (.ok a) =>
          dsimp only
          split
          · apply after_except_bind.mpr
            apply After.imp (ih (hw'.ready hready) hnext)
            intro r w'' hw''
            cases r with
            | error e => exact hw'.trans hw''
            | ok out => exact after_except_pure.mpr (hw'.trans hw'')
          · exact after_except_pure.mpr hw'

/-!
## Archives that answer from the series
-/

/--
An archive that answers from the series of the world, or fails.  Its scans may do
anything that leaves the world one that follows.
-/
structure Archive.Faithful (archive : Archive m V) (o : Outlook W V)
    (live : W -> archive.Scan -> Prop) : Prop where
  lookup : forall w key, o.ready w ->
    After (archive.lookup key).run w (fun r w' => o.Follows w w' ∧
      o.Delivers w w' (· = (o.series w).latestUpTo key) r)
  previousKey : forall w e, o.ready w -> e ∈ o.series w ->
    After (archive.previousKey e.key) w (fun k w' => o.Follows w w' ∧
      (o.series w).latestUpTo k = (o.series w).latestBefore e.key)
  scanFrom : forall w key, o.ready w ->
    After (archive.scanFrom key) w (fun scan w' => o.Follows w w' ∧ live w' scan)
  pull : forall w scan, o.ready w -> live w scan ->
    After (archive.pull scan) w (fun r w' => o.Follows w w' ∧ live w' r.2)

structure Archive.Scans (archive : Archive m V) (o : Outlook W V)
    (awaits : W -> archive.Scan -> List (Entry V) -> Prop) : Prop where
  scanFrom : forall w key, o.ready w ->
    After (archive.scanFrom key) w (fun scan w' => o.Follows w w' ∧
      awaits w' scan ((o.series w).onwards key))
  feeds : Pull.Feeds archive.pull o awaits

namespace Walk

def Awaits (o : Outlook W V) (w : W) (walk : Walk) (items : List (Entry V)) : Prop :=
  match walk.next with
  | none => items = []
  | some key => items = (o.series w).downFrom key ∧
      forall e last, e ∈ items -> walk.last = some last -> e.key < last

theorem awaits_startAt (w : W) (key : Instant) (units : Nat) :
    (startAt key units).Awaits o w ((o.series w).downFrom key) := by
  constructor
  · rfl
  · intro e last _ hlast
    cases hlast

theorem awaits_next {w : W} {key k : Instant} {units : Nat}
    (h : (o.series w).latestUpTo k = (o.series w).latestBefore key) :
    (Walk.mk (some k) (some key) units).Awaits o w ((o.series w).downBefore key) := by
  constructor
  · exact (Series.downFrom_eq_downBefore h).symm
  · intro e last he hlast
    cases hlast
    exact (Series.mem_downBefore.mp he).2

theorem Awaits.descendsTo {w : W} {walk : Walk} {key : Instant} {e : Entry V}
    {items : List (Entry V)} (h : walk.Awaits o w items) (hnext : walk.next = some key)
    (he : e ∈ items) : walk.descendsTo e.key = true := by
  unfold Awaits at h
  rw [hnext] at h
  unfold Walk.descendsTo
  split
  · rename_i last hlast
    exact decide_eq_true (h.2 e last he hlast)
  · rfl

theorem awaits_congr {w w' : W} (hw : o.Follows w w') {walk : Walk} {items : List (Entry V)}
    (h : walk.Awaits o w items) : walk.Awaits o w' items := by
  unfold Awaits at h ⊢
  rwa [hw.series]

/-- A walk over a faithful archive hands out the entries that it awaits. -/
theorem feeds {archive : Archive m V} {live : W -> archive.Scan -> Prop}
    (h : archive.Faithful o live) : Pull.Feeds (Walk.pull archive) o (Awaits o) := by
  intro w walk items hready hawaits
  unfold Walk.pull
  cases hnext : walk.next with
  | none =>
      unfold Awaits at hawaits
      rw [hnext] at hawaits
      exact after_pure.mpr ⟨Outlook.Follows.refl o w, hawaits⟩
  | some key =>
      have hitems : items = (o.series w).downFrom key := by
        unfold Awaits at hawaits
        rw [hnext] at hawaits
        exact hawaits.1
      dsimp only
      apply after_bind.mpr
      apply After.imp (h.lookup w key hready)
      intro r w₁ hpost
      rcases hpost with ⟨hw₁, hr⟩
      match r, hr with
      | .error e, hr =>
          exact after_pure.mpr ⟨hw₁, hr⟩
      | .ok none, hr =>
          refine after_pure.mpr ⟨hw₁, ?_⟩
          have hhead : ((o.series w).downFrom key).head? = none := by
            rw [← Series.latestUpTo_eq_head?]
            exact hr.symm
          exact hitems.trans (List.head?_eq_none_iff.mp hhead)
      | .ok (some e), hr =>
          have hlatest : (o.series w).latestUpTo key = some e := hr.symm
          have hsplit := Series.downFrom_eq_cons hlatest
          have hmem := (Series.latestUpTo_eq_some_iff.mp hlatest).1
          have hin : e ∈ items := by
            rw [hitems, hsplit]
            exact List.mem_cons_self ..
          dsimp only
          rw [if_neg (Std.not_lt.mpr hmem.2), if_pos (hawaits.descendsTo hnext hin)]
          apply after_bind.mpr
          apply After.imp (h.previousKey w₁ e (hw₁.ready hready) (hw₁.series ▸ hmem.1))
          intro k w₂ hpost
          rcases hpost with ⟨hw₂, hk⟩
          rw [hw₁.series] at hk
          refine after_pure.mpr ⟨hw₁.trans hw₂, (o.series w).downBefore e.key, ?_, ?_⟩
          · exact hitems.trans hsplit
          · exact awaits_congr (hw₁.trans hw₂) (awaits_next hk)

end Walk
end AsOf
