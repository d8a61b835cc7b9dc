import ScriptVm.Heap
import ScriptVm.Text.Hash

/-!
# Equality and hashes

Two values are raw-equal if they have one type and one payload: floats by their
bits, texts by their content, closures by prototype and bound context, and every
other reference by identity.  The hash agrees with that equality.

Every object has an address, a number that tells it from all others; it is only
used for hashing.  The hash of a closure mixes the addresses of its unit and of
the context it is bound to, so it changes when the closure is bound anew.

Main statement: `hash_eq_of_rawEquals`.
-/

namespace ScriptVm

/-- A number for each kind of object. -/
def Kind.tag : Kind → Nat
  | unit => 0 | function => 1 | context => 2 | table => 3 | vector => 4 | coroutine => 5
  | pureExternal => 6 | effectExternal => 7 | asyncExternal => 8

/-- The address of an object: high up, and different for different objects. -/
def Ref.address {k : Kind} (r : Ref k) : UInt64 :=
  0x550000000000 + 16 * UInt64.ofNat (9 * r.index + k.tag)

namespace Heap

/-- The same prototype of the same unit, bound to the same context. -/
def sameClosure (h : Heap) (a b : Ref .function) : Bool :=
  h.function a = h.function b

/-- The hash of a closure. -/
def closureHash (h : Heap) (r : Ref .function) : UInt64 :=
  let f := h.function r
  let code := f.unit.address + UInt64.ofNat f.index
  let parent := match f.parent with
    | some c => c.address
    | none => 0
  (code <<< 32) ^^^ parent

/-- One type and one payload. -/
def rawEquals (h : Heap) : Value → Value → Bool
  | .nil, .nil => true
  | .int a, .int b => a = b
  | .float a, .float b => a = b
  | .bool a, .bool b => a = b
  | .str a, .str b => a = b
  | .function a, .function b => h.sameClosure a b
  | x, y => x.sameObject y

/-- The hash of a value. -/
def rawHash (h : Heap) : Value → UInt64
  | .nil | .bool false => 0
  | .bool true => 0xffffffffffffffff
  | .int i => i.toUInt64
  | .float bits => bits
  | .str s => Text.hash s
  | .function r => h.closureHash r
  | .table r => r.address
  | .vector r => r.address
  | .coroutine r => r.address
  | .pureFn r => r.address
  | .effectFn r => r.address
  | .asyncFn r => r.address

/-- Keys compared by raw equality. -/
def rawKeys (h : Heap) : KeyComparer :=
  ⟨h.rawHash, h.rawEquals⟩

/-- Raw-equal values have one hash. -/
theorem hash_eq_of_rawEquals (h : Heap) {x y : Value} (heq : h.rawEquals x y = true) :
    h.rawHash x = h.rawHash y := by
  unfold rawEquals at heq
  split at heq
  · rfl
  · simp_all
  · simp_all
  · simp_all
  · simp_all
  · have hf := of_decide_eq_true heq
    simp [rawHash, closureHash, hf]
  · unfold Value.sameObject at heq
    split at heq <;> simp_all [rawHash]

/-- The value stored in a table under a key. -/
def readEntry (h : Heap) (t : Ref .table) (key : Value) : Option Value :=
  (h.table t).get? h.rawKeys key

/-- The heap with a value stored in a table under a key. -/
def writeEntry (h : Heap) (t : Ref .table) (key value : Value) : Heap :=
  let found := (h.table t).find? h.rawKeys key
  let hash := h.rawHash key
  h.modifyTable t fun table => table.put found hash key value

/-- The entry of this name in a table's metatable, if it can be called. -/
def tableMethod (h : Heap) (t : Ref .table) (name : String) : Option Value :=
  ((h.table t).metatable.bind fun m => h.readEntry m (.str name)).filter Value.invokable

/-- The metamethod of a value; only tables have any. -/
def metamethod (h : Heap) (v : Value) (name : String) : Option Value :=
  match v with
  | .table t => h.tableMethod t name
  | _ => none

end Heap

end ScriptVm
