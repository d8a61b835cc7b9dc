/-!
# Configuration

The initial capacities of a coroutine's stacks and of new vectors.  Every stack
grows on demand, so a capacity is only where it starts.
-/

namespace ScriptVm

/-- Initial capacities. -/
structure Config where
  /-- Slots of the value stack. -/
  valueStack : Nat
  /-- Slots of the call stack. -/
  callStack : Nat
  /-- Slots of the delimiter stack. -/
  delimiterStack : Nat
  /-- Slots of a new vector. -/
  vector : Nat
  deriving DecidableEq, Repr

namespace Config

/-- The capacities used where nothing is configured. -/
def standard : Config := ⟨128, 16, 16, 4⟩

instance : Inhabited Config := ⟨standard⟩

end Config

end ScriptVm
