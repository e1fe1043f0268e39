import AsOf.Query
import AsOf.Replica.Scan

/-!
# Caches

A cache is an archive with an engine in front of it, under one horizon and one
epoch.  The archive is usually a replica that the cache has to itself, but
several caches may share one.
-/

namespace AsOf
namespace Cache

structure Config where
  kind : Engine.Kind := .windowed
  maximum : Option Positive := none
  replica : Replica.Settings := {}
  deriving DecidableEq

instance : Inspect Config where
  inspect config :=
    Text.record "HistoricalCacheConfig"
      [("core", inspect config.kind),
        ("maximum_size", inspect (config.maximum.map Positive.val)),
        ("store", inspect config.replica)]

end Cache

/-- An archive with an engine in front of it. -/
structure Cache (m : Type -> Type) (V : Type) where
  config : Cache.Config
  view : View m V

namespace Cache

variable {m : Type -> Type} [Monad m] {V : Type}

/-- A cache over an archive. -/
def ofArchive (config : Config) (archive : Archive m V) (horizon : Horizon m) (epoch : Epoch m) :
    Cache m V :=
  { config, view := { archive, horizon, epoch } }

/-- A cache over a replica of its own. -/
def ofReplica (config : Config) (replica : Replica m V) :
    Cache (StateT (Replica.State V) m) V :=
  ofArchive config replica.archive (replica.horizon.hoist StateT.lift)
    (replica.epoch.hoist StateT.lift)

def ofSource (config : Config) (source : Source m V) (horizon : Horizon m) (epoch : Epoch m) :
    Cache (StateT (Replica.State V) m) V :=
  ofReplica config (.silent source horizon epoch config.replica)

def start (cache : Cache m V) : m (Engine.State V) :=
  Engine.start cache.view cache.config.kind cache.config.maximum

def query (cache : Cache m V) (options : Options) : Query m V :=
  { view := cache.view, options }

/-- Forget the window and whatever the archive remembers. -/
def clear (cache : Cache m V) : StateT (Engine.State V) m Unit := do
  modify Engine.State.clear
  cache.view.archive.clear

/-- Raise the maximum of the window to a larger size, and name the maximum. -/
def raiseMaximum (_ : Cache m V) (size : Nat) : StateT (Engine.State V) m (Option Nat) := do
  modify (Engine.State.raiseMaximum size)
  return (<- get).maximum

def report (cache : Cache m V) : StateT (Engine.State V) m Report := do
  let archive <- (cache.view.archive.report : m Report)
  return archive.under "store" ++ (<- get).report.under "query"

def inspectPresent (cache : Cache m V) : m String := do
  let epoch <- cache.view.epoch.current
  return Text.openRecord "HistoricalCache"
    [("config", inspect cache.config),
      ("store", inspect cache.view.archive.component),
      ("core", inspect cache.config.kind.component),
      ("epoch", inspect epoch)]

end Cache
end AsOf
