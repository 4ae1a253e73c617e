/-
# Readings of the clocks

A `Sample` is an amount of time on three clocks, in seconds: wall time, and the processor time
spent in the process and in the system for it.  It serves as a reading of the clocks and as the
difference of two readings.
-/
import ShardedVector.Binary64.Basic

namespace ShardedVector

structure Sample where
  wall : Binary64
  user : Binary64
  system : Binary64
deriving DecidableEq

namespace Sample

def zero : Sample := ⟨.zero, .zero, .zero⟩

def add (x y : Sample) : Sample := ⟨x.wall + y.wall, x.user + y.user, x.system + y.system⟩

def sub (x y : Sample) : Sample := ⟨x.wall - y.wall, x.user - y.user, x.system - y.system⟩

instance : Add Sample := ⟨add⟩
instance : Sub Sample := ⟨sub⟩

/-- Equality of the three numbers: a sample with a NaN equals nothing. -/
def eq (x y : Sample) : Bool :=
  Binary64.eq x.wall y.wall && Binary64.eq x.user y.user && Binary64.eq x.system y.system

/-- No clock ran backwards. -/
def isNonnegative (x : Sample) : Bool :=
  Binary64.le .zero x.wall && Binary64.le .zero x.user && Binary64.le .zero x.system

end Sample

end ShardedVector
