import PointTiles.Json.Record
import PointTiles.Pool

/-! # Pool settings

A reader's options may size its pool. Settings that are not given have defaults; the number of
threads then depends on the machine and is left open.
-/

namespace PointTiles
set_option autoImplicit false

structure PoolConfig where
  threads : Option UInt64
  queueSize : UInt64
  /-- Whether failures are logged loudly. -/
  verbose : Bool

namespace PoolConfig

def fields : List Json.Field :=
  [⟨"threads", .natural⟩, ⟨"queue_size", .natural⟩, ⟨"verbose", .flag⟩]

def ofRecord (r : Json.Record) : PoolConfig where
  threads := r.natural? "threads"
  queueSize := (r.natural? "queue_size").getD 1
  verbose := (r.flag? "verbose").getD true

def parse (text : String) : Except Fault PoolConfig :=
  match Json.Record.read fields text with
  | .ok r => .ok (ofRecord r)
  | .error error => .error (.unreadable error)

/-- A started pool with these settings, on a machine with a given number of threads. -/
def create {σ : Type} (config : PoolConfig) (machineThreads : Nat) (shared : σ) : Pool σ :=
  Pool.create ((config.threads.map UInt64.toNat).getD machineThreads) config.queueSize.toNat shared

end PoolConfig

end PointTiles
