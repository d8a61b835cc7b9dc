/-!
# Values

A value is what an instruction computes with: nil, an integer of 64 bits, a
float, a boolean, a text, or a reference to an object of the heap or to a
function of the host.  References are typed by the kind of object, so a table
reference can never be followed into the vectors.

A float is kept as its 64 bits.  That is its identity: two NaN values with
different payloads are different values, and so are `0.0` and `-0.0`.
-/

namespace ScriptVm

/-- The kinds of objects a reference can lead to. -/
inductive Kind
  | unit | function | context | table | vector | coroutine
  | pureExternal | effectExternal | asyncExternal
  deriving DecidableEq, Repr

/-- A reference to an object of kind `k`, given by its place in the store of that kind. -/
structure Ref (k : Kind) where
  /-- The place in the store. -/
  index : Nat
  deriving DecidableEq, Repr

/-- The twelve types of values. -/
inductive ValueType
  | nil | integer | float | boolean | table | string | function | vector | coroutine
  | pureFunction | effectFunction | asyncFunction
  deriving DecidableEq, Repr

namespace ValueType

/-- The name that the `Typeof` instruction reports; every function is a `function`. -/
def name : ValueType → String
  | nil => "nil"
  | integer => "integer"
  | float => "float"
  | boolean => "boolean"
  | table => "table"
  | string => "string"
  | function | pureFunction | effectFunction | asyncFunction => "function"
  | vector => "vector"
  | coroutine => "coroutine"

end ValueType

/-- A value. -/
inductive Value
  | nil
  | int (i : Int64)
  /-- A float, by its bit pattern. -/
  | float (bits : UInt64)
  | bool (b : Bool)
  | str (s : String)
  | table (r : Ref .table)
  | vector (r : Ref .vector)
  | function (r : Ref .function)
  | coroutine (r : Ref .coroutine)
  /-- A function of the host that only computes. -/
  | pureFn (r : Ref .pureExternal)
  /-- A function of the host that also sees the running coroutine. -/
  | effectFn (r : Ref .effectExternal)
  /-- A function of the host that runs in steps. -/
  | asyncFn (r : Ref .asyncExternal)
  deriving DecidableEq, Repr

instance : Inhabited Value := ⟨.nil⟩

namespace Value

/-- The type of a value. -/
def type : Value → ValueType
  | nil => .nil
  | int _ => .integer
  | float _ => .float
  | bool _ => .boolean
  | str _ => .string
  | table _ => .table
  | vector _ => .vector
  | function _ => .function
  | coroutine _ => .coroutine
  | pureFn _ => .pureFunction
  | effectFn _ => .effectFunction
  | asyncFn _ => .asyncFunction

/-- Only nil and `false` are falsy. -/
def truthy : Value → Bool
  | nil | bool false => false
  | _ => true

/-- Whether the value is nil. -/
def isNil : Value → Bool
  | nil => true
  | _ => false

/-- Whether the value can be called or serve as a metamethod. -/
def invokable : Value → Bool
  | function _ | pureFn _ | effectFn _ | asyncFn _ => true
  | _ => false

/-- The integer, if the value is one. -/
def integer? : Value → Option Int64
  | int i => some i
  | _ => none

/-- Two references of one kind to one object; false for every value that is no reference. -/
def sameObject : Value → Value → Bool
  | table a, table b => a = b
  | vector a, vector b => a = b
  | function a, function b => a = b
  | coroutine a, coroutine b => a = b
  | pureFn a, pureFn b => a = b
  | effectFn a, effectFn b => a = b
  | asyncFn a, asyncFn b => a = b
  | _, _ => false

end Value

end ScriptVm
