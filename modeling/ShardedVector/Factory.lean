/-
# Making vectors of one kind

A factory makes vectors for one seat with one config, so that the backend of a vector is
always chosen and never found somewhere.
-/
import ShardedVector.Config
import ShardedVector.Shard.Basic

namespace ShardedVector

structure Factory where
  seat : Seat
  config : Config
deriving DecidableEq

namespace Factory

/-- A factory for a backend, with the standard settings for the rest. -/
def ofBackend (seat : Seat) (backend : Backend) : Factory :=
  ⟨seat, { Config.standard with backend := backend }⟩

/-- The same settings for another seat. -/
def on (f : Factory) (seat : Seat) : Factory := { f with seat := seat }

/-- The shard with the instrumentation of the factory. -/
def instrument (f : Factory) (v : Shard) : Shard :=
  { v with instrumented := f.config.instrument }

/-- An unbound vector. -/
def create (f : Factory) : Shard := f.instrument (.unbound f.seat f.config.backend)

/-- A vector of `n` zeros, laid out evenly. -/
def createOfSize (f : Factory) (n : UInt64) : Shard :=
  f.instrument (.ofSize f.seat n f.config.backend)

end Factory

end ShardedVector
