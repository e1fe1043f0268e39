import AsOf.Archive
import AsOf.Proofs.Perform

/-!
# Calls that are recorded

A source whose calls are noted in a record before they are made.  Whatever is done over such a
source can be charged with the calls that it makes: with probes, which ask for the entry in
effect at an instant, and with loads, which ask for a batch.
-/

namespace AsOf
namespace Source

variable {m : Type -> Type} [Monad m] {V W α : Type} [Performs m W]

inductive Call where
  | batchFrom (start : Instant)
  | latestUpTo (key : Instant)
  | previousKey (key : Instant)
  | nextKey (key : Instant)
  | batchLimit
  deriving DecidableEq

def Call.recorded (call : Call) (x : m α) : StateT (List Call) m α := do
  modify (· ++ [call])
  x

def recorded (source : Source m V) : Source (StateT (List Call) m) V where
  batchFrom start := .mk ((Call.batchFrom start).recorded (source.batchFrom start).run)
  latestUpTo key := .mk ((Call.latestUpTo key).recorded (source.latestUpTo key).run)
  previousKey key := (Call.previousKey key).recorded (source.previousKey key)
  nextKey key := (Call.nextKey key).recorded (source.nextKey key)
  batchLimit := Call.batchLimit.recorded source.batchLimit

theorem Call.after_recorded {call : Call} {x : m α} {calls : List Call} {w : W}
    {post : α -> List Call × W -> Prop} :
    After (call.recorded x) (calls, w) post ↔
      After x w (fun a w' => post a (calls ++ [call], w')) := by
  unfold Call.recorded
  rw [after_bind, after_state_modify]
  exact after_state_monadLift

/-!
## Counting calls
-/

def Call.isProbe : Call -> Bool
  | latestUpTo _ => true
  | batchFrom _ | previousKey _ | nextKey _ | batchLimit => false

def Call.isLoad : Call -> Bool
  | batchFrom _ => true
  | latestUpTo _ | previousKey _ | nextKey _ | batchLimit => false

def probes (calls : List Call) : Nat :=
  calls.countP Call.isProbe

def loads (calls : List Call) : Nat :=
  calls.countP Call.isLoad

theorem probes_append (calls more : List Call) :
    probes (calls ++ more) = probes calls + probes more :=
  List.countP_append

theorem loads_append (calls more : List Call) :
    loads (calls ++ more) = loads calls + loads more :=
  List.countP_append

end Source
end AsOf
