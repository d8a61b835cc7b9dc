import ScriptVm.Bytecode.Listing
import ScriptVm.CodeUnit.Binary
import ScriptVm.Host.Scripted
import ScriptVm.Operator

/-!
# Commands of the workbench

A workbench holds one scheduler with its heap and runs commands on it, one at a
time: make objects, run functions, look at what came of it.  A command names
objects by values and references that earlier commands made.
-/

namespace ScriptVm

/-- Where a unit comes from. -/
inductive UnitSource
  /-- Listings to assemble, with the strings to intern first and the entry function. -/
  | listings (strings : List String) (functions : List Listing) (entry : Nat)
  /-- The binary form. -/
  | binary (bytes : Bytes)

/-- A rule for telling table keys apart. -/
inductive KeyRule
  /-- Raw hash and raw equality. -/
  | raw
  /-- One hash for all keys, raw equality. -/
  | crowded
  /-- A float hashes as its integral part; equality is native. -/
  | numeric
  deriving DecidableEq, Repr

/-- The hash that all keys have under the crowded rule. -/
def KeyRule.crowdedHash : UInt64 := 7

/-- The comparer of a rule. -/
def KeyRule.comparer (h : Heap) : KeyRule → KeyComparer
  | raw => h.rawKeys
  | crowded => ⟨fun _ => crowdedHash, h.rawEquals⟩
  | numeric => {
      hash := fun v => match v with
        | .float bits => (Float.ofBits bits).toInt64.toUInt64
        | v => h.rawHash v
      equals := fun a b => (Operator.nativeEquals? h a b).getD false }

namespace Workbench

/-- A command on a table. -/
inductive TableCommand
  /-- Store a value under a key. -/
  | store (rule : KeyRule) (key value : Value)
  /-- Make a new entry with a given hash, whatever entries there are. -/
  | append (hash : UInt64) (key value : Value)
  /-- Find the entry of a key. -/
  | find (rule : KeyRule) (key : Value)
  /-- The entries that a look-up of this hash visits. -/
  | chain (hash : UInt64)
  /-- An entry by its place. -/
  | entry (id : Nat)
  /-- Set the metatable; what is no table clears it. -/
  | setMetatable (metatable : Value)
  /-- A metamethod of the table. -/
  | method (name : String)
  | inspect

/-- A command on a vector. -/
inductive VectorCommand
  | push (v : Value)
  | pop
  | get (i : Nat)
  | set (i : Nat) (v : Value)
  | inspect

/-- A command on a context. -/
inductive ContextCommand
  /-- Make a variable in this very context. -/
  | create (name : String) (v : Value)
  /-- Read a variable as seen from the context. -/
  | read (name : String)
  /-- Write a variable as seen from the context. -/
  | write (name : String) (v : Value)
  /-- The context, and what it knows of a name. -/
  | inspect (name : Option String)
  /-- The context that owns a name as seen from this one. -/
  | owner (name : String)
  | root

/-- A command. -/
inductive Command
  /-- Give a value a name. -/
  | name (name : String) (v : Value)
  | inspect (v : Value)
  /-- Make a unit and give it a name. -/
  | unit (name : String) (source : UnitSource)
  /-- Bind a closure to a context. -/
  | bind (function : Value) (context : Ref .context)
  /-- A closure over the entry function of a unit. -/
  | entry (unit : Ref .unit) (context : Option (Ref .context))
  /-- Run a unit from its entry function. -/
  | runUnit (unit : Ref .unit) (args : List Value) (context : Option (Ref .context))
  /-- Run a closure. -/
  | runFunction (function : Value) (args : List Value)
  /-- Run a closure with its first frame in a given context. -/
  | runInContext (function : Value) (context : Ref .context) (args : List Value)
  /-- Call any value that can be called. -/
  | call (callee : Value) (args : List Value)
  /-- The text of a value. -/
  | stringify (v : Value)
  /-- Fill or clear a slot for a system call. -/
  | syscall (slot : Nat) (script : Option (List Scripted.SyscallScript))
  /-- Make a coroutine; its first frame may be given a context. -/
  | coroutine (entry : Value) (context : Option (Ref .context))
  /-- Resume a coroutine directly, without the scheduler. -/
  | resume (coroutine : Value) (args : List Value)
  /-- Let a coroutine that had switched away be resumed again. -/
  | setResumable (coroutine : Value)
  | inspectCoroutine (coroutine : Value)
  /-- Make a context with some variables and give it a name. -/
  | newContext (name : String) (parent : Option (Ref .context)) (locals : List (String × Value))
  | onContext (context : Ref .context) (command : ContextCommand)
  | onTable (table : Value) (command : TableCommand)
  | onVector (vector : Value) (command : VectorCommand)
  /-- A binary operator without running any metamethod. -/
  | binary (op : Op) (x y : Value)
  /-- A unary operator without running any metamethod. -/
  | unary (op : Op) (x : Value)
  /-- Every way in which two values can be equal. -/
  | compare (x y : Value)
  /-- Everything that can be told of a value. -/
  | describe (v : Value)

end Workbench

end ScriptVm
