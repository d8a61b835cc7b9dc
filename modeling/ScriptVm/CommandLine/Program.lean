import ScriptVm.CodeUnit.Load
import ScriptVm.CommandLine
import ScriptVm.Config.Load
import ScriptVm.Scheduler

/-!
# The program

What an invocation does, over any platform.  The configuration is loaded first,
for every command.  A failure ends the program with one line on the standard
error, in which each cause follows what it prevented; a defect of the machine ends
it without a word.  What was printed before stays.
-/

namespace ScriptVm.CommandLine

/-- Why the program failed. -/
inductive Problem
  | config (e : Config.LoadError)
  | unreadableUnit (path : String)
  | invalidUnit (path : String) (e : CodeUnit.LoadError)
  | execution (path : String) (e : Failure)
  /-- A result has no text. -/
  | result (e : Failure)
  | unwritable (path : String)
  /-- The configuration holds a number that configuration files cannot. -/
  | unprintableConfig
  deriving DecidableEq, Repr

/-- A failure with its causes. -/
def causes : Failure → String
  | .runtime f trace => (Failure.runtime f trace).message ++ ": " ++ f.message
  | e => e.message

/-- The text of a problem. -/
def Problem.message : Problem → String
  | config e => e.message?.getD "internal error"
  | unreadableUnit path => "Failed to read unit file " ++ path
  | invalidUnit path (.binary e) => "Invalid binary unit " ++ path ++ ": " ++ e.message
  | invalidUnit path .json => "Invalid unit file " ++ path
  | execution path e => "Execution of " ++ path ++ " failed: " ++ causes e
  | result e => causes e
  | unwritable path => "Failed to write " ++ path
  | unprintableConfig => "Failed to render configuration: out-of-range value for u64 type"

/-- How the program ends. -/
inductive Ending
  | success
  | problem (p : Problem)
  /-- The words spell no invocation. -/
  | misuse
  /-- A defect of the machine, about which nothing is said. -/
  | crash
  deriving DecidableEq, Repr

/-- The code that the program exits with. -/
def Ending.code : Ending → Nat
  | success => 0
  | problem _ => 1
  | misuse => 2
  | crash => 101

/-- How a failure ends the program, given the problem it makes. -/
def Ending.ofFailure (problem : Failure → Problem) : Failure → Ending
  | .defect _ => crash
  | e => .problem (problem e)

/-- What running a unit gives: its results, and the scheduler afterwards. -/
def runUnit (fuel : Nat) (config : Config) (unit : CodeUnit) (args : List Int64) :
    Except Failure (List Value × Vm Unit) :=
  let (r, heap) := Heap.empty.newUnit unit
  let start : Vm Unit := { Vm.new config () with heap }
  match Vm.executeUnit Host.bare fuel r (args.map .int) none start with
  | .ok values vm => .ok (values, vm)
  | .error e _ => .error e

variable {m : Type → Type} [Monad m]

/-- Print some values, one on a line. -/
def printAll (p : Platform m) (fuel : Nat) : Vm Unit → List Value → m Ending
  | _, [] => return .success
  | vm, v :: rest => do
    match Vm.stringify Host.bare fuel v vm with
    | .ok text vm =>
      p.print (text ++ "\n")
      printAll p fuel vm rest
    | .error e _ => return .ofFailure .result e

/-- Load a unit. -/
def loadUnit (p : Platform m) (path : String) : m (Except Problem CodeUnit) := do
  match ← p.readFile path with
  | none => return .error (.unreadableUnit path)
  | some bytes =>
    match CodeUnit.load bytes with
    | .ok unit => return .ok unit
    | .error e => return .error (.invalidUnit path e)

/-- Do what a command says. -/
def Command.perform (p : Platform m) (fuel : Nat) (config : Config) : Command → m Ending
  | .run path args => do
    match ← loadUnit p path with
    | .error problem => return .problem problem
    | .ok unit =>
      match runUnit fuel config unit args with
      | .error e => return .ofFailure (.execution path) e
      | .ok (values, vm) => printAll p fuel vm values
  | .compile path output => do
    match ← loadUnit p path with
    | .error problem => return .problem problem
    | .ok unit =>
      if ← p.writeFile output unit.toBinary then
        return .success
      else
        return .problem (.unwritable output)
  | .config => do
    match config.toToml? with
    | none => return .problem .unprintableConfig
    | some text =>
      p.print text
      return .success

/-- Do what an invocation says. -/
def Invocation.perform (p : Platform m) (fuel : Nat) (i : Invocation) : m Ending := do
  match ← Config.load p i.config with
  | .error (.defect _) => return .crash
  | .error e => return .problem (.config e)
  | .ok config => i.command.perform p fuel config

/-- The program: how it ends, having said why on the standard error. -/
def program (p : Platform m) (fuel : Nat) (words : List String) : m Ending := do
  match Invocation.parse? words with
  | none => return .misuse
  | some i =>
    let ending ← i.perform p fuel
    match ending with
    | .problem problem => p.complain ("Error: " ++ problem.message)
    | _ => pure ()
    return ending

end ScriptVm.CommandLine
