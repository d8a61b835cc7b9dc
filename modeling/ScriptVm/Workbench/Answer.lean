import ScriptVm.CodeUnit
import ScriptVm.Host.Scripted
import ScriptVm.Operator
import ScriptVm.Scheduler
import ScriptVm.View

/-!
# Answers of the workbench

What a command answers, as views.  Making a view gives numbers to objects, so
answers are made in the numbering state: first the events of a command in the
order in which they happened, then its answer.
-/

namespace ScriptVm.Workbench

/-- Why a command was refused. -/
inductive Refusal
  /-- A value of the wrong type was given, or an operator does not apply. -/
  | fault (f : Fault)
  /-- A run failed, or the request was a wrong one. -/
  | failure (e : Failure)
  /-- The bytes of a unit cannot be read. -/
  | unitFile (e : UnitFileError)

/-- Something recorded while a command ran. -/
inductive EventView
  | logged (values : List View)
  | dumped (frames : List FrameView) (values : List View) (delimiters : List Nat)

/-- How control left a coroutine that was resumed directly. -/
inductive ExitView
  | finished (values : List View)
  | yielded (values : List View)
  | switched (coroutine : View) (args : List View)
  | failed (e : Failure)

/-- Every way in which two values can be equal. -/
structure Comparison where
  /-- As the equality operator sees them; none where it asks a metamethod. -/
  native : Option Bool
  /-- As that operator sees them where no metamethod answers. -/
  identity : Bool
  /-- As table keys. -/
  raw : Bool
  /-- As one object. -/
  sameObject : Bool
  /-- Whether raw-equal values have one hash; none unless they are raw-equal. -/
  sameHash : Option Bool
  deriving DecidableEq, Repr

/-- Everything that can be told of a value. -/
structure Portrait where
  /-- What is shown of it. -/
  view : View
  /-- The value. -/
  value : Value
  /-- Its hash, where no address goes into it. -/
  hash : Option UInt64
  /-- Its text in messages. -/
  display : String
  /-- Its text in diagnostics. -/
  debug : String
  /-- Its text in results. -/
  stringify : String
  /-- Whether it passes where a type is demanded: integer, string, table, vector, function and
  coroutine. -/
  demands : List (ValueType × Except Fault Unit)

/-- What a command answers. -/
inductive Answer
  | nothing
  | value (v : View)
  | values (vs : List View)
  /-- A value that may be missing. -/
  | item (v : Option View)
  | unit (u : CodeUnit)
  | text (s : String)
  | flag (b : Bool)
  | flags (bs : List Bool)
  | number (n : Nat)
  | numbers (ns : List Nat)
  | context (c : ContextView)
  /-- A context with what it knows of a name: whether it owns it, whether it remembers an owner, and
  the value of its own variable. -/
  | contextName (c : ContextView) (owns remembers : Bool) (own : Option View)
  | coroutine (c : CoroutineView)
  /-- How control left a coroutine, and the coroutine afterwards. -/
  | exit (e : ExitView) (after : CoroutineView)
  /-- The place of an entry and its value. -/
  | found (id : Option Nat) (value : Option View)
  | entry (hash : UInt64) (key value : View)
  | table (size buckets : Nat) (keys : List View) (summary : String)
  | vector (items : List View)
  /-- The result of an operator. -/
  | result (v : View)
  /-- A binary operator asks a metamethod. -/
  | overload (o : Overload) (method : Option View)
  /-- A unary operator asks a metamethod. -/
  | unaryOverload (name : String) (method : Option View)
  | comparison (c : Comparison)
  | portrait (p : Portrait)

/-- What is shown of an event, as it was when it happened. -/
def viewEvent : Scripted.Event → StateM Numbering EventView
  | .logged h values => .logged <$> h.views values
  | .dumped h memory => do
    let frames ← memory.frames.toList.mapM h.viewFrame
    let values ← h.views memory.values.toList
    return .dumped frames values memory.delimiters.toList

/-- What is shown of an exit. -/
def viewExit (h : Heap) : Except Failure Exit → StateM Numbering ExitView
  | .ok (.finished vs) => .finished <$> h.views vs
  | .ok (.yielded vs) => .yielded <$> h.views vs
  | .ok (.switched r vs) => do
    let coroutine ← h.view (.coroutine r)
    return .switched coroutine (← h.views vs)
  | .error e => return .failed e

/-- Every way in which two values can be equal. -/
def compare (h : Heap) (x y : Value) : Comparison :=
  let raw := h.rawEquals x y
  { native := Operator.nativeEquals? h x y
    identity := Operator.identical x y
    raw
    sameObject := x.sameObject y
    sameHash := if raw then some (h.rawHash x == h.rawHash y) else none }

/-- The hash of a value that is no reference. -/
def plainHash? (h : Heap) : Value → Option UInt64
  | .nil => some (h.rawHash .nil)
  | .int i => some (h.rawHash (.int i))
  | .float bits => some (h.rawHash (.float bits))
  | .bool b => some (h.rawHash (.bool b))
  | .str s => some (h.rawHash (.str s))
  | _ => none

/-- Everything that can be told of a value. -/
def portray (h : Heap) (v : Value) : StateM Numbering Portrait := do
  let view ← h.view v
  let demand {α : Type} (r : Except Fault α) : Except Fault Unit := r.map fun _ => ()
  return {
    view
    value := v
    hash := plainHash? h v
    display := h.display v
    debug := h.debugText v
    stringify := h.stringify v
    demands := [
      (.integer, demand (h.integer v)), (.string, demand (h.string v)),
      (.table, demand (h.asTable v)), (.vector, demand (h.asVector v)),
      (.function, demand (h.asFunction v)), (.coroutine, demand (h.asCoroutine v))] }

end ScriptVm.Workbench
