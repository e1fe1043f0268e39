import AsOf.Entry
import AsOf.Error

/-!
# Feeds

A feed hands out items one at a time: each pull yields an item, a failure or the
news that the feed has ended, together with the state to pull from next.
Nothing is produced before it is pulled.
-/

namespace AsOf

/-- A step that pulls the next item from a state, none at the end. -/
abbrev Pull (m : Type -> Type) (α σ : Type) := σ -> m (Option (Except QueryError α) × σ)

namespace Pull

variable {m : Type -> Type} [Monad m] {α β σ : Type}

def map (f : α -> β) (pull : Pull m α σ) : Pull m β σ := fun state => do
  let (item, next) <- pull state
  return (item.map fun outcome => outcome.map f, next)

/--
Pull up to a number of items while they are wanted.  The first unwanted item
ends the collection, and the answer tells whether one was met.  The first
failure is the failure of the whole.
-/
def gather (pull : Pull m α σ) (wanted : α -> Bool) :
    Nat -> σ -> ExceptT QueryError m (List α × Bool)
  | 0, _ =>
      pure ([], false)
  | n + 1, state => do
      match <- pull state with
      | (none, _) =>
          pure ([], false)
      | (some (.error e), _) =>
          throw e
      | (some (.ok item), next) =>
          if wanted item then do
            let (items, met) <- gather pull wanted n next
            pure (item :: items, met)
          else
            pure ([], true)

/-- Pull up to a number of items while they are wanted. -/
def takeWhile (pull : Pull m α σ) (wanted : α -> Bool) (n : Nat) (state : σ) :
    ExceptT QueryError m (List α) :=
  Prod.fst <$> gather pull wanted n state

def take (pull : Pull m α σ) (n : Nat) (state : σ) : ExceptT QueryError m (List α) :=
  takeWhile pull (fun _ => true) n state

end Pull
end AsOf
