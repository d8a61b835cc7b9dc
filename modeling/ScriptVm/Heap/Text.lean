import ScriptVm.Decimal.Notation
import ScriptVm.Heap
import ScriptVm.Text.Quoted

/-!
# Texts of values

Three texts show a value.  `display` is what messages use, `debugText` what
diagnostics use, and `stringify` what is printed for a result; the last one
quotes strings.  Where an object lives is never told: a question mark stands for
its address.
-/

namespace ScriptVm.Heap

/-- The text of a boolean. -/
def boolText (b : Bool) : String :=
  if b then "true" else "false"

/-- The text of an item of a vector; a vector inside a vector is not opened. -/
def displayItem (h : Heap) : Value → String
  | .nil => "nil"
  | .int i => toString i
  | .float bits => Decimal.floatText bits
  | .bool b => boolText b
  | .str s => s
  | .table _ => "<table 0x?>"
  | .vector _ => "[...]"
  | .function r => "<function " ++ (h.prototype r).name ++ ">"
  | .coroutine _ => "<coroutine 0x?>"
  | .pureFn _ | .effectFn _ | .asyncFn _ => "<external function>"

/-- The text of a value in messages. -/
def display (h : Heap) : Value → String
  | .vector r => "[" ++ ", ".intercalate ((h.vector r).toList.map h.displayItem) ++ "]"
  | v => h.displayItem v

/-- The text of a value for diagnostics. -/
def debugText (h : Heap) : Value → String
  | .str s => Text.quotePlain s
  | .float bits => "Float(" ++ Decimal.floatText bits ++ ")"
  | .int i => "Integer(" ++ toString i ++ ")"
  | v => h.display v

/-- The text that is printed for a value without asking its metamethod. -/
def stringify (h : Heap) : Value → String
  | .nil => "nil"
  | .int i => toString i
  | .float bits => Decimal.floatText bits
  | .bool b => boolText b
  | .str s => Text.quoteAscii s
  | .table _ => "<table: ?>"
  | .vector _ => "<vector: ?>"
  | .function r =>
    let name := (h.prototype r).name
    match (h.function r).parent with
    | some _ => "<function \"" ++ name ++ " at ?\">"
    | none => "<function \"" ++ name ++ " unbound\">"
  | .coroutine _ => "<coroutine: ?>"
  | .pureFn _ => "<pure efunction: ?>"
  | .effectFn _ => "<efunction: ?>"
  | .asyncFn _ => "<async efunction: ?>"

/-- The text that sums a closure up. -/
def functionSummary (h : Heap) (r : Ref .function) : String :=
  "Function \x7b name: " ++ Text.quotePlain (h.prototype r).name ++ ", bound: "
    ++ boolText (h.function r).parent.isSome ++ " \x7d"

/-- The text that sums a context up. -/
def contextSummary (h : Heap) (r : Ref .context) : String :=
  let c := h.context r
  "Context \x7b variables: " ++ toString c.cells.size ++ ", cached: " ++ toString c.owners.size
    ++ ", has_parent: " ++ boolText c.parent.isSome ++ " \x7d"

/-- The text that sums a coroutine up. -/
def coroutineSummary (h : Heap) (r : Ref .coroutine) : String :=
  let c := h.coroutine r
  "Coroutine \x7b state: " ++ c.state.name ++ ", frames: " ++ toString c.memory.frames.size
    ++ ", stack: " ++ toString c.memory.values.size ++ " \x7d"

/-! ### Demanding a type -/

/-- The fault of a value that is not of the type demanded. -/
def mismatch (h : Heap) (expected : ValueType) (v : Value) : Fault :=
  .assertionFailed expected v.type (h.display v)

/-- The integer, or a fault. -/
def integer (h : Heap) : Value → Except Fault Int64
  | .int i => .ok i
  | v => .error (h.mismatch .integer v)

/-- The text, or a fault. -/
def string (h : Heap) : Value → Except Fault String
  | .str s => .ok s
  | v => .error (h.mismatch .string v)

/-- The table, or a fault. -/
def asTable (h : Heap) : Value → Except Fault (Ref .table)
  | .table r => .ok r
  | v => .error (h.mismatch .table v)

/-- The vector, or a fault. -/
def asVector (h : Heap) : Value → Except Fault (Ref .vector)
  | .vector r => .ok r
  | v => .error (h.mismatch .vector v)

/-- The closure, or a fault. -/
def asFunction (h : Heap) : Value → Except Fault (Ref .function)
  | .function r => .ok r
  | v => .error (h.mismatch .function v)

/-- The coroutine, or a fault. -/
def asCoroutine (h : Heap) : Value → Except Fault (Ref .coroutine)
  | .coroutine r => .ok r
  | v => .error (h.mismatch .coroutine v)

end ScriptVm.Heap
