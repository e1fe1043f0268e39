import AsOf.Proofs.Confined
import AsOf.Replica.Scan

/-!
# Failures of a replica

Whatever its source answers, a replica comes up with two kinds of failures: the source could not
be read, or it named an entry from after the instant that it was asked about.
-/

namespace AsOf
namespace Replica

variable {m : Type -> Type} [Monad m] {V W α : Type} [Performs m W]

def Own : QueryError -> Prop
  | .load _ _ => True
  | .breach _ _ cause => cause = .sourceEntryAfterKey
  | .noData _ _ => False
  | .keyMismatch _ _ => False

def Loose (_ : W) : Prop := True

theorem sustained_loose (x : m α) : Sustained Loose x :=
  fun _ _ => after_of_forall fun _ _ => trivial

abbrev Fails (x : Action m V α) : Prop :=
  Confined (fun p : State V × W => Loose p.2) Own (fun _ => True) x

theorem fails_ask (key : Instant) (question : ExceptT String m α) :
    Fails (ask key question : Action m V α) := by
  intro p _
  apply after_request_handOn.mpr
  apply after_except_adapt.mpr
  apply after_of_forall
  intro r w
  cases r with
  | ok a => exact ⟨trivial, trivial, trivial⟩
  | error cause => exact ⟨trivial, trivial, trivial⟩

theorem fails_absorb (start : Instant) (batch : List (Entry V)) :
    Fails (absorb start batch : Action m V (Series V)) :=
  (Confined.modify _).bind fun _ _ => .pure trivial

theorem fails_fill (replica : Replica m V) (start : Instant) : Fails (replica.fill start) := by
  unfold fill
  apply (Confined.modify _).bind
  intro _ _
  apply (fails_ask start _).bind
  intro batch _
  apply (fails_absorb start batch).bind
  intro page _
  split
  · exact .modify _
  · exact .pure trivial

theorem fails_fetch (replica : Replica m V) (mark : Bookmark) : Fails (replica.fetch mark) := by
  unfold fetch
  apply (Confined.modify _).bind
  intro _ _
  apply (fails_ask mark.start _).bind
  intro batch _
  apply (Confined.look (sustained_loose _)).bind
  intro limit _
  apply (fails_absorb mark.start batch).bind
  intro page _
  split
  · exact (Confined.modify _).bind fun _ _ => .pure trivial
  · exact .pure trivial

theorem fails_fetchUntil (replica : Replica m V) (goal : Instant) (mark : Bookmark) :
    Fails (replica.fetchUntil goal mark) := by
  rw [fetchUntil]
  apply (fails_fetch replica mark).bind
  intro page _
  split
  · exact .pure trivial
  · apply (Confined.look (sustained_loose _)).bind
    intro following _
    cases following with
    | none => exact .pure trivial
    | some following =>
        dsimp only
        split
        · exact fails_fetchUntil replica goal following.val
        · exact .pure trivial
termination_by mark.start.remaining
decreasing_by exact Instant.remaining_lt_of_lt following.property

theorem fails_resolveForward (replica : Replica m V) (key : Instant) :
    Fails (replica.resolveForward key) := by
  have hlast : forall isCold : Bool, Fails (do
      modify fun s => { s with loadedFromStart := s.loadedFromStart || isCold }
      return (<- get).loaded.latestUpTo key : Action m V (Option (Entry V))) := by
    intro isCold
    exact (Confined.modify _).bind fun _ _ => Confined.get.bind fun _ _ => .pure trivial
  unfold resolveForward
  apply Confined.get.bind
  intro before _
  dsimp only
  split
  · exact (fails_fetchUntil replica key _).bind fun _ _ => hlast _
  · exact hlast _

theorem fails_resolveLatest (replica : Replica m V) (key : Instant) (latest : Entry V) :
    Fails (replica.resolveLatest key latest) := by
  have hlast : Fails (do
      modify fun s => s.cover ⟨latest.key, .included key⟩
      return some latest : Action m V (Option (Entry V))) :=
    (Confined.modify _).bind fun _ _ => .pure trivial
  unfold resolveLatest
  split
  · exact .throw rfl
  · apply Confined.get.bind
    intro before _
    apply (Confined.modify _).bind
    intro _ _
    dsimp only
    split
    · exact (fails_fill replica _).bind fun _ _ => hlast
    · exact hlast

theorem fails_resolve (replica : Replica m V) (key : Instant) : Fails (replica.resolve key) := by
  unfold resolve
  apply Confined.get.bind
  intro s _
  split
  · exact (Confined.modify _).bind fun _ _ => .pure trivial
  · apply (Confined.modify _).bind
    intro _ _
    unfold probe
    apply ((Confined.modify _).bind fun _ _ => fails_ask key _).bind
    intro found _
    cases found with
    | none => exact fails_resolveForward replica key
    | some latest => exact fails_resolveLatest replica key latest

theorem fails_announcing {x : Action m V α} (replica : Replica m V) (hx : Fails x) :
    Fails (replica.announcing x) := by
  intro p hp
  unfold announcing
  apply after_except_mk.mpr
  apply after_bind.mpr
  apply After.imp (hx p hp)
  intro r p' hr
  apply after_bind.mpr
  apply after_of_forall
  exact fun _ _ => after_pure.mpr hr

theorem fails_sync (replica : Replica m V) :
    Fails (liftM replica.sync : Action m V Unit) :=
  .lift fun _ _ => after_of_forall fun _ _ => trivial

theorem fails_lookup (replica : Replica m V) (key : Instant) : Fails (replica.lookup key) := by
  unfold lookup
  apply (fails_sync replica).bind
  intro _ _
  apply Confined.get.bind
  intro s _
  split
  · exact (Confined.modify _).bind fun _ _ => .pure trivial
  · apply fails_announcing
    apply (fails_resolve replica key).bind
    exact fun _ _ => (Confined.modify _).bind fun _ _ => .pure trivial

theorem fails_loadPage (replica : Replica m V) (mark : Bookmark) : Fails (replica.loadPage mark) :=
  (fails_sync replica).bind fun _ _ => fails_announcing replica (fails_fetch replica mark)

theorem fails_pull (replica : Replica m V) (scan : Scan V) (p : State V × W) :
    After (replica.pull scan) p (fun r _ => forall e, r.1 = some (.error e) -> Own e) := by
  rw [pull]
  split
  · exact after_pure.mpr fun e he => by cases he
  · split
    · exact after_pure.mpr fun e he => by cases he
    · apply after_bind.mpr
      apply After.imp (fails_loadPage replica _ p trivial)
      intro r p₁ hr
      cases r with
      | error e =>
          refine after_pure.mpr fun e' he => ?_
          cases he
          exact hr.2.1
      | ok page =>
          dsimp only
          split
          · exact after_pure.mpr fun e he => by cases he
          · apply after_bind.mpr
            apply after_of_forall
            intro next p₂
            exact fails_pull replica (scan.turned page.entries (next.map Subtype.val)) p₂
termination_by scan.measure
decreasing_by exact Scan.measure_turned_lt ‹_› page.entries next

end Replica
end AsOf
