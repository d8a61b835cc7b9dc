import ScriptVm.Machine.Call
import ScriptVm.Operator

/-!
# Operators, tables and variables

An operator first tries its native path.  Where there is none it calls a
metamethod over the operands, which already lie on the stack, and the
instruction is entered again at a later phase when the metamethod has returned.
Nothing here waits for a metamethod: the machine goes on with its frame.
-/

namespace ScriptVm.Exec

variable {σ : Type}

/-- The current instruction is to be entered again at a later phase. -/
def continueAt (phase : Nat) : Exec σ Unit :=
  modifyFrame fun f => { f with progress := { f.progress with next := phase } }

/-- Call a metamethod on the uppermost operands and come back at a later phase. -/
def callMethod (host : Host σ) (method : Value) (argc returns phase : Nat) : Exec σ Unit := do
  continueAt phase
  let base ← heightLess argc
  invoke host method base (some returns)

/-! ### Binary operators -/

/-- The operator in its first phase, when it has no native value: call the metamethod with the
operands in call order.  `Leq` and `Geq` keep a copy of the operands for their second phase. -/
def callOverload (host : Host σ) (op : BinaryOp) (method x y : Value) : Exec σ Unit := do
  let overload := Overload.ofBinary op
  let (a, b) := overload.order x y
  if overload.swap then
    overwriteTop [a, b]
  if op = .leq ∨ op = .geq then
    push a
    push b
  callMethod host method 2 1 1

/-- The first phase of a binary operator. -/
def operateBinary (host : Host σ) (op : BinaryOp) : Exec σ Unit := do
  let y ← peek 0
  let x ← peek 1
  let h ← heap
  match ← ofFault (Operator.binary h op x y) with
  | some value => replaceTop 2 value
  | none =>
    match h.overloadMethod op x y with
    | some method => callOverload host op method x y
    | none =>
      match op with
      | .equ => replaceTop 2 (.bool (Operator.identical x y))
      | .neq => replaceTop 2 (.bool !(Operator.identical x y))
      | _ => fault (.invalidBinaryOperand op x.type y.type)

/-- Collect the result of the metamethod of an operator other than `Leq` and `Geq`. -/
def finishBinary (op : BinaryOp) : Exec σ Unit := do
  match op with
  | .lss | .gtr | .equ =>
    let result ← pop
    push (.bool result.truthy)
  | .neq =>
    let result ← pop
    push (.bool !result.truthy)
  | _ => pure ()

/-- The second phase of `Leq` and `Geq`: done if the first metamethod said so, otherwise ask `__equ`
about the same operands.  They lie on the stack in call order, while a fault names them in source
order. -/
def orderEqual (host : Host σ) (op : BinaryOp) : Exec σ Unit := do
  let less ← pop
  if less.truthy then
    replaceTop 2 (.bool true)
  else
    let overload := Overload.ofBinary op
    let b ← peek 0
    let a ← peek 1
    match (← heap).binaryMethod a b "__equ" overload.latterFirst with
    | some method => callMethod host method 2 1 2
    | none =>
      let (left, right) := overload.order a b
      fault (.invalidBinaryOperand .lss left.type right.type)

/-- Collect the result of `__equ`. -/
def orderFinish : Exec σ Unit := do
  let equal ← pop
  push (.bool equal.truthy)

/-- One phase of a binary operator. -/
def binaryOperator (host : Host σ) (op : BinaryOp) (phase : Nat) : Exec σ Unit :=
  if op = .leq ∨ op = .geq then
    match OrderPhase.ofNumber phase with
    | .less => operateBinary host op
    | .equal => orderEqual host op
    | .finish => orderFinish
  else
    match OperatorPhase.ofNumber phase with
    | .operate => operateBinary host op
    | .finish => finishBinary op

/-! ### Unary operators -/

/-- One phase of a unary operator. -/
def unaryOperator (host : Host σ) (op : UnaryOp) (phase : Nat) : Exec σ Unit := do
  match OperatorPhase.ofNumber phase with
  | .operate =>
    let x ← peek 0
    match Operator.unary op x with
    | some value => replaceTop 1 value
    | none =>
      match (← heap).metamethod x (Overload.ofUnary op) with
      | some method => callMethod host method 1 1 1
      | none => fault (.invalidUnaryOperand op x.type)
  | .finish => pure ()

/-! ### Tables and vectors -/

/-- The item of a vector at a key; nil unless the key is an index of it. -/
def vectorItem (items : Array Value) : Value → Value
  | .int i => if i < 0 then .nil else items.getD i.toNatClampNeg .nil
  | _ => .nil

/-- Read an entry, with the container and the key on the stack. -/
def readEntry (host : Host σ) (throughMethod : Bool) : Exec σ Unit := do
  let key ← peek 0
  let container ← peek 1
  let h ← heap
  match container with
  | .vector v => replaceTop 2 (vectorItem (h.vector v) key)
  | other =>
    let t ← ofFault (h.asTable other)
    match (if throughMethod then h.tableMethod t "__ren" else none) with
    | some method => callMethod host method 2 1 1
    | none => replaceTop 2 ((h.readEntry t key).getD .nil)

/-- Remove the three operands of a write. -/
def dropWrite : Exec σ Unit := do
  let start ← heightLess 3
  modify fun m => m.onValues fun values => values.truncate start

/-- Write an entry, with the value, the container and the key on the stack. -/
def updateEntry (host : Host σ) (throughMethod : Bool) : Exec σ Unit := do
  let key ← peek 0
  let container ← peek 1
  let value ← peek 2
  let h ← heap
  match container with
  | .vector v =>
    let index ← ofFault (h.integer key)
    let len := (h.vector v).size
    if index < 0 ∨ len ≤ index.toNatClampNeg then
      fault (.vectorIndexOutOfRange index len)
    else
      modify fun m => m.onHeap fun h =>
        h.modifyVector v fun items => items.setIfInBounds index.toNatClampNeg value
      dropWrite
  | other =>
    let t ← ofFault (h.asTable other)
    match (if throughMethod then h.tableMethod t "__uen" else none) with
    | some method =>
      overwriteTop [container, key, value]
      callMethod host method 3 0 1
    | none =>
      modify fun m => m.onHeap fun h => h.writeEntry t key value
      dropWrite

/-- The metatable that a value stands for: nil takes it away. -/
def metatableOf (h : Heap) : Value → Except Fault (Option (Ref .table))
  | .nil => .ok none
  | other => (h.asTable other).map some

/-- The first phase of a table or vector instruction. -/
def operateTable (host : Host σ) : TableOp → Exec σ Unit
  | .setMeta => do
    let h ← heap
    let t ← ofFault (h.asTable (← pop))
    let metatable ← ofFault (metatableOf h (← pop))
    modify fun m => m.onHeap fun h => h.modifyTable t fun table => { table with metatable }
  | .getMeta => do
    let h ← heap
    let t ← ofFault (h.asTable (← pop))
    match (h.table t).metatable with
    | some metatable => push (.table metatable)
    | none => push .nil
  | .read => readEntry host true
  | .readLocal => readEntry host false
  | .update => updateEntry host true
  | .updateLocal => updateEntry host false
  | .insert => do
    let value ← pop
    let key ← pop
    let t ← ofFault ((← heap).asTable (← peek 0))
    modify fun m => m.onHeap fun h => h.writeEntry t key value
  | .push => do
    let v ← ofFault ((← heap).asVector (← pop))
    let value ← pop
    modify fun m => m.onHeap fun h => h.modifyVector v fun items => items.push value
  | .pop => do
    let h ← heap
    let v ← ofFault (h.asVector (← pop))
    match (h.vector v).back? with
    | some value =>
      modify fun m => m.onHeap fun h => h.modifyVector v Array.pop
      push value
    | none => fault (.vectorIndexOutOfRange (-1) 0)

/-- One phase of a table or vector instruction.  In the second phase `__ren` has left its result and
`__uen` nothing. -/
def tableOperator (host : Host σ) (op : TableOp) (phase : Nat) : Exec σ Unit :=
  match OperatorPhase.ofNumber phase with
  | .operate => operateTable host op
  | .finish => pure ()

/-! ### Variables -/

/-- Read the variable whose name is on the stack, as seen from a scope. -/
def readVariable (scope : Ref .context) : Exec σ Unit := do
  let name ← ofFault ((← heap).string (← pop))
  let value ← modifyGet fun m =>
    let (value, h) := m.heap.readVariable scope name
    (value, { m with heap := h })
  push value

/-- Write the variable whose name is on the stack, as seen from a scope. -/
def writeVariable (scope : Ref .context) : Exec σ Unit := do
  let name ← ofFault ((← heap).string (← pop))
  let value ← pop
  modify fun m => m.onHeap fun h => h.writeVariable scope name value

/-- An instruction on variables, seen from the frame's context or from its root. -/
def scopeOperator (context : Ref .context) (op : ScopeOp) : Exec σ Unit := do
  match op with
  | .read => readVariable context
  | .write => writeVariable context
  | .readGlobal => readVariable ((← heap).root context)
  | .writeGlobal => writeVariable ((← heap).root context)

end ScriptVm.Exec
