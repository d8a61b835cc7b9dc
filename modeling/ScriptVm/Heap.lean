import ScriptVm.Assoc
import ScriptVm.CodeUnit
import ScriptVm.Heap.Store
import ScriptVm.Machine.Frame
import ScriptVm.Table

/-!
# The heap

The heap holds everything that values refer to and that can change: closures,
contexts, tables, vectors and coroutines, and the units the closures come from.
There is one store for each kind.

A **context** owns named variables and links to its parent.  The context without
a parent is the root of its chain and serves as the global scope.  It also
remembers, for names it does not own, which ancestor does.

A **closure** is a prototype of a unit with the context it was bound to.
-/

namespace ScriptVm

/-- A scope of named variables. -/
structure Context where
  /-- The enclosing scope. -/
  parent : Option (Ref .context)
  /-- The variables of this scope. -/
  cells : Assoc Value
  /-- For names looked up here before, the ancestor that owns them. -/
  owners : Assoc (Ref .context)
  deriving DecidableEq, Repr

instance : Inhabited Context := ⟨⟨none, .empty, .empty⟩⟩

/-- A function: a prototype and the context it is bound to. -/
structure Closure where
  /-- The unit. -/
  unit : Ref .unit
  /-- The index of the prototype. -/
  index : Nat
  /-- The context it is bound to, none at first. -/
  parent : Option (Ref .context)
  deriving DecidableEq, Repr

instance : Inhabited Closure := ⟨⟨⟨0⟩, 0, none⟩⟩

/-- All objects that values can refer to. -/
structure Heap where
  /-- Units of code. -/
  units : Store .unit CodeUnit
  /-- Closures. -/
  functions : Store .function Closure
  /-- Scopes. -/
  contexts : Store .context Context
  /-- Tables. -/
  tables : Store .table Table
  /-- Vectors. -/
  vectors : Store .vector (Array Value)
  /-- Coroutines. -/
  coroutines : Store .coroutine Coroutine

namespace Heap

/-- A heap without objects. -/
def empty : Heap := ⟨.empty, .empty, .empty, .empty, .empty, .empty⟩

instance : Inhabited Heap := ⟨empty⟩

/-- The unit behind a reference. -/
def unit (h : Heap) (r : Ref .unit) : CodeUnit := h.units.get r

/-- The closure behind a reference. -/
def function (h : Heap) (r : Ref .function) : Closure := h.functions.get r

/-- The context behind a reference. -/
def context (h : Heap) (r : Ref .context) : Context := h.contexts.get r

/-- The table behind a reference. -/
def table (h : Heap) (r : Ref .table) : Table := h.tables.get r

/-- The vector behind a reference. -/
def vector (h : Heap) (r : Ref .vector) : Array Value := h.vectors.get r

/-- The coroutine behind a reference. -/
def coroutine (h : Heap) (r : Ref .coroutine) : Coroutine := h.coroutines.get r

/-- A new unit. -/
def newUnit (h : Heap) (u : CodeUnit) : Ref .unit × Heap :=
  let (r, units) := h.units.add u
  (r, { h with units })

/-- A new context. -/
def newContext (h : Heap) (parent : Option (Ref .context)) : Ref .context × Heap :=
  let (r, contexts) := h.contexts.add ⟨parent, .empty, .empty⟩
  (r, { h with contexts })

/-- A new table without entries. -/
def newTable (h : Heap) : Ref .table × Heap :=
  let (r, tables) := h.tables.add .empty
  (r, { h with tables })

/-- A new vector of the given values. -/
def newVector (h : Heap) (values : List Value) : Ref .vector × Heap :=
  let (r, vectors) := h.vectors.add values.toArray
  (r, { h with vectors })

/-- A new coroutine. -/
def newCoroutine (h : Heap) (c : Coroutine) : Ref .coroutine × Heap :=
  let (r, coroutines) := h.coroutines.add c
  (r, { h with coroutines })

/-- The heap with a table changed. -/
def modifyTable (h : Heap) (r : Ref .table) (f : Table → Table) : Heap :=
  { h with tables := h.tables.modify r f }

/-- The heap with a vector changed. -/
def modifyVector (h : Heap) (r : Ref .vector) (f : Array Value → Array Value) : Heap :=
  { h with vectors := h.vectors.modify r f }

/-- The heap with a context changed. -/
def modifyContext (h : Heap) (r : Ref .context) (f : Context → Context) : Heap :=
  { h with contexts := h.contexts.modify r f }

/-- The heap with a closure changed. -/
def modifyFunction (h : Heap) (r : Ref .function) (f : Closure → Closure) : Heap :=
  { h with functions := h.functions.modify r f }

/-- The heap with a coroutine changed. -/
def modifyCoroutine (h : Heap) (r : Ref .coroutine) (f : Coroutine → Coroutine) : Heap :=
  { h with coroutines := h.coroutines.modify r f }

/-! ### Closures -/

/-- A new closure; the prototype has to exist. -/
def newFunction (h : Heap) (unit : Ref .unit) (index : Nat) (parent : Option (Ref .context)) :
    Except Defect (Ref .function × Heap) :=
  if index < (h.unit unit).prototypes.size then
    let (r, functions) := h.functions.add ⟨unit, index, parent⟩
    .ok (r, { h with functions })
  else .error .prototypeOutOfRange

/-- A new closure over the entry prototype of a unit. -/
def entryFunction (h : Heap) (unit : Ref .unit) (parent : Option (Ref .context)) :
    Except UsageError (Ref .function × Heap) :=
  let u := h.unit unit
  if u.entry < u.prototypes.size then
    let (r, functions) := h.functions.add ⟨unit, u.entry, parent⟩
    .ok (r, { h with functions })
  else .error (.entryIndexOutOfRange u.entry u.prototypes.size)

/-- The prototype of a closure. -/
def prototype (h : Heap) (r : Ref .function) : Prototype :=
  let f := h.function r
  (h.unit f.unit).prototypes.getD f.index default

/-- The heap with a closure bound to a context. -/
def bind (h : Heap) (r : Ref .function) (context : Ref .context) : Heap :=
  h.modifyFunction r fun f => { f with parent := some context }

end Heap

end ScriptVm
