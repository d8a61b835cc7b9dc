import ScriptVm.CommandLine.Program

/-!
# The executable

The program on the system it is started on.
-/

namespace ScriptVm.Main

open CommandLine (Platform)

/-- An action's result, or none if it fails. -/
def attempt {α : Type} (act : IO α) : IO (Option α) := do
  try
    return some (← act)
  catch _ =>
    return none

/-- The variables of a block in which each one ends in a zero byte. -/
def parseBlock (block : String) : Config.Environment :=
  (block.splitOn "\x00").filterMap fun line =>
    let cs := line.toList
    match cs.dropWhile (· != '=') with
    | [] => none
    | _ :: value => some (String.ofList (cs.takeWhile (· != '=')), String.ofList value)

/-- The system the program is started on. -/
def platform : Platform IO where
  isFile := fun path => do
    return (← attempt (IO.FS.readBinFile path)).isSome
  readFile := fun path => do
    return (← attempt (IO.FS.readBinFile path)).map ByteArray.data
  writeFile := fun path bytes => do
    return (← attempt (IO.FS.writeBinFile path ⟨bytes⟩)).isSome
  environment := do
    let block ← attempt (IO.FS.readBinFile "/proc/self/environ")
    return ((block.bind fun b => Bytes.toString? b.data).map parseBlock).getD []
  print := fun text => IO.print text
  complain := fun line => IO.eprintln line

/-- More instructions than any run executes. -/
def fuel : Nat := 0x4000000000000000

end ScriptVm.Main

/-- Run the program on the given words. -/
def main (words : List String) : IO UInt32 := do
  let ending ← ScriptVm.CommandLine.program ScriptVm.Main.platform ScriptVm.Main.fuel words
  return UInt32.ofNat ending.code
