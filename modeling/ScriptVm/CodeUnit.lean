import ScriptVm.Bytes

/-!
# Units of code

A unit is what a compiler hands to the machine: function prototypes, string
constants and the index of the entry function.  It never changes once it is
made; closures and coroutines share it.
-/

namespace ScriptVm

/-- The code of one function. -/
structure Prototype where
  /-- The function's name, for backtraces. -/
  name : String
  /-- The instructions. -/
  code : Bytes
  /-- The number of local variables. -/
  locals : Nat
  /-- Names that must exist as variables of the frame's context. -/
  declared : List String
  deriving DecidableEq, Repr

instance : Inhabited Prototype := ⟨⟨"", #[], 0, []⟩⟩

/-- Prototypes, strings and the index of the entry prototype. -/
structure CodeUnit where
  /-- The functions of the unit. -/
  prototypes : Array Prototype
  /-- The string constants. -/
  strings : Array String
  /-- The index of the entry function. -/
  entry : Nat
  deriving DecidableEq, Repr

instance : Inhabited CodeUnit := ⟨⟨#[], #[], 0⟩⟩

/-- The prototype the unit is entered at, if the index is in range. -/
def CodeUnit.entryPrototype? (u : CodeUnit) : Option Prototype :=
  u.prototypes[u.entry]?

end ScriptVm
