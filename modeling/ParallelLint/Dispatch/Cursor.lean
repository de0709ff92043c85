set_option autoImplicit false

/-!
The counter that all workers of a run take their tasks from. It counts modulo 64 bits.
-/
namespace ParallelLint

structure Cursor where
  next : UInt64
  deriving DecidableEq, Repr, Inhabited

namespace Cursor

def fresh : Cursor := ⟨0⟩

def claim (c : Cursor) : UInt64 × Cursor := (c.next, ⟨c.next + 1⟩)

/-- Leaves no number below `count` to be taken. -/
def exhaust (c : Cursor) (count : UInt64) : Cursor := ⟨max c.next count⟩

def isExhausted (c : Cursor) (count : UInt64) : Bool := count ≤ c.next

def position (c : Cursor) : Nat := c.next.toNat

end Cursor
end ParallelLint
