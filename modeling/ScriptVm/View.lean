import ScriptVm.Heap.Text
import ScriptVm.Host
import ScriptVm.Machine.Exec

/-!
# Views

A heap is a graph, and a view is the finite tree that is shown of it.  A table or
a vector is opened the first time it is met; from then on only its number stands
for it.  Below a fixed depth nothing is opened and nothing is numbered.

Objects are numbered in the order in which they are first shown, tables, vectors
and coroutines in one sequence and contexts in another.  A `Numbering` remembers
the numbers, so a number means one object for as long as the numbering lives;
`afresh` forgets only which objects were opened.
-/

namespace ScriptVm

/-- What is shown of a value. -/
inductive View
  | nil
  | bool (b : Bool)
  | int (i : Int64)
  | float (bits : UInt64)
  | str (s : String)
  /-- A table that is opened: its entries in order, its metatable, and how many buckets it has. -/
  | table (id : Nat) (entries : List (View × View)) (metatable : Option View) (buckets : Nat)
  /-- A vector that is opened. -/
  | vector (id : Nat) (items : List View)
  /-- A table or vector that was opened before. -/
  | again (id : Nat)
  | coroutine (id : Nat) (state : Lifecycle)
  /-- A closure: its prototype's name and index, and the number of the context it is bound to. -/
  | function (name : String) (index : Nat) (context : Option Nat)
  | pureFn (r : Ref .pureExternal)
  | effectFn (r : Ref .effectExternal)
  | asyncFn (r : Ref .asyncExternal)
  /-- An object that lies too deep to be shown. -/
  | deep (type : ValueType)

/-- An object that gets a number of its own. -/
inductive Numbered
  | table (r : Ref .table)
  | vector (r : Ref .vector)
  | coroutine (r : Ref .coroutine)
  deriving DecidableEq, Repr

/-- The numbers given so far. -/
structure Numbering where
  /-- The objects in the order of their numbers. -/
  objects : List Numbered
  /-- The contexts in the order of their numbers. -/
  contexts : List (Ref .context)
  /-- The tables and vectors that were opened. -/
  opened : List Numbered
  deriving DecidableEq, Repr

namespace Numbering

/-- No numbers given. -/
def empty : Numbering := ⟨[], [], []⟩

instance : Inhabited Numbering := ⟨empty⟩

/-- The numbers, with nothing opened. -/
def afresh (n : Numbering) : Numbering :=
  { n with opened := [] }

/-- The number of an object, a new one if it has none. -/
def number (o : Numbered) : StateM Numbering Nat := fun n =>
  match n.objects.idxOf? o with
  | some id => (id, n)
  | none => (n.objects.length, { n with objects := n.objects ++ [o] })

/-- The number of a context, a new one if it has none. -/
def numberContext (c : Ref .context) : StateM Numbering Nat := fun n =>
  match n.contexts.idxOf? c with
  | some id => (id, n)
  | none => (n.contexts.length, { n with contexts := n.contexts ++ [c] })

/-- The number of a context where there is one. -/
def numberContext? : Option (Ref .context) → StateM Numbering (Option Nat)
  | some c => some <$> numberContext c
  | none => pure none

/-- Mark an object as opened; whether it was opened before. -/
def visit (o : Numbered) : StateM Numbering Bool := fun n =>
  (n.opened.contains o, { n with opened := o :: n.opened })

end Numbering

/-- How many levels of objects are shown. -/
def viewDepth : Nat := 24

namespace Heap

/-- What is shown of a value with this many levels left. -/
def viewWithin (h : Heap) : (depth : Nat) → Value → StateM Numbering View
  | _, .nil => return .nil
  | _, .bool b => return .bool b
  | _, .int i => return .int i
  | _, .float bits => return .float bits
  | _, .str s => return .str s
  | _, .pureFn r => return .pureFn r
  | _, .effectFn r => return .effectFn r
  | _, .asyncFn r => return .asyncFn r
  | _, .function r => do
    let context ← Numbering.numberContext? (h.function r).parent
    return .function (h.prototype r).name (h.function r).index context
  | 0, .table _ => return .deep .table
  | 0, .vector _ => return .deep .vector
  | 0, .coroutine _ => return .deep .coroutine
  | _ + 1, .coroutine r => do
    let id ← Numbering.number (.coroutine r)
    return .coroutine id (h.coroutine r).state
  | depth + 1, .vector r => do
    let id ← Numbering.number (.vector r)
    if ← Numbering.visit (.vector r) then
      return .again id
    let items ← (h.vector r).toList.mapM (h.viewWithin depth)
    return .vector id items
  | depth + 1, .table r => do
    let id ← Numbering.number (.table r)
    if ← Numbering.visit (.table r) then
      return .again id
    let t := h.table r
    let entries ← t.toList.mapM fun (key, value) => do
      let key ← h.viewWithin depth key
      let value ← h.viewWithin depth value
      return (key, value)
    match t.metatable with
    | none => return .table id entries none t.bucketCount
    | some m =>
      let metatable ← h.viewWithin depth (.table m)
      return .table id entries (some metatable) t.bucketCount

/-- What is shown of a value. -/
def view (h : Heap) (v : Value) : StateM Numbering View :=
  h.viewWithin viewDepth v

/-- What is shown of some values. -/
def views (h : Heap) (vs : List Value) : StateM Numbering (List View) :=
  vs.mapM h.view

/-- What is shown of a value that may be missing. -/
def view? (h : Heap) : Option Value → StateM Numbering (Option View)
  | some v => some <$> h.view v
  | none => pure none

end Heap

/-- What is shown of a frame. -/
structure FrameView where
  /-- The name of its function. -/
  name : String
  /-- The text that sums up what it runs. -/
  summary : String
  /-- The number of its context. -/
  context : Option Nat
  /-- How many local variables it has. -/
  locals : Nat
  /-- The frame itself. -/
  frame : Frame

/-- What is shown of a context. -/
structure ContextView where
  /-- Its number. -/
  id : Nat
  /-- The number of its parent. -/
  parent : Option Nat
  /-- Its variables, sorted by name. -/
  locals : List (String × View)
  /-- The text that sums it up. -/
  summary : String

/-- What is shown of a coroutine. -/
structure CoroutineView where
  /-- Where it is in its life. -/
  state : Lifecycle
  /-- How many frames it has. -/
  depth : Nat
  /-- The values on its stack. -/
  stack : List View
  /-- The capacity of its value stack. -/
  capacity : Nat
  /-- Its backtrace. -/
  trace : List TraceLine
  /-- The text that sums it up. -/
  summary : String

namespace Heap

/-- What is shown of a frame. -/
def viewFrame (h : Heap) (f : Frame) : StateM Numbering FrameView := do
  let context ← Numbering.numberContext? f.context?
  return {
    name := h.frameName f
    summary := h.activityText f.activity
    context
    locals := f.localCount
    frame := f }

/-- What is shown of a context. -/
def viewContext (h : Heap) (r : Ref .context) : StateM Numbering ContextView := do
  let c := h.context r
  let id ← Numbering.numberContext r
  let parent ← Numbering.numberContext? c.parent
  let sorted := c.cells.toList.mergeSort fun a b => decide (a.1 ≤ b.1)
  let locals ← sorted.mapM fun (name, value) => do
    return (name, ← h.view value)
  return { id, parent, locals, summary := h.contextSummary r }

/-- What is shown of a coroutine. -/
def viewCoroutine (h : Heap) (r : Ref .coroutine) : StateM Numbering CoroutineView := do
  let c := h.coroutine r
  let stack ← h.views c.memory.values.toList
  return {
    state := c.state
    depth := c.memory.frames.size
    stack
    capacity := c.memory.values.capacity
    trace := h.backtrace c.memory
    summary := h.coroutineSummary r }

end Heap

end ScriptVm
