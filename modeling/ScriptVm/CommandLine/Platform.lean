import ScriptVm.Bytes
import ScriptVm.Config.Environment

/-!
# Platforms

What the command line needs of the system it runs on: files, the environment and
somewhere to print.  The program is written once over any platform.  `Sandbox` is
a platform of plain data: a working directory with some files, and the text
printed so far.

Paths of a sandbox are followed part by part, and every part but the last has to
be a directory that exists.  Nothing outside the working directory can be reached.
-/

namespace ScriptVm.CommandLine

/-- The services of a system, as actions of a monad. -/
structure Platform (m : Type → Type) where
  /-- Whether there is a file at a path. -/
  isFile : String → m Bool
  /-- The content of a file, if it can be read. -/
  readFile : String → m (Option Bytes)
  /-- Write a file; whether that went well. -/
  writeFile : String → Bytes → m Bool
  /-- The environment variables. -/
  environment : m Config.Environment
  /-- Print to the standard output. -/
  print : String → m Unit
  /-- Print a line to the standard error. -/
  complain : String → m Unit

/-- A system of plain data. -/
structure Sandbox where
  /-- The files of the working directory, by path. -/
  files : List (String × Bytes)
  /-- The environment variables. -/
  environment : Config.Environment
  /-- What was printed to the standard output. -/
  output : String
  /-- The lines printed to the standard error. -/
  complaints : List String

namespace Sandbox

/-- The parts of a file's name. -/
def partsOf (name : String) : List String :=
  (name.splitOn "/").filter fun part => !part.isEmpty && part != "."

/-- Whether a directory exists: the working directory, and every one that a file lies in. -/
def isDirectory (s : Sandbox) (parts : List String) : Bool :=
  parts.isEmpty || s.files.any fun (name, _) =>
    let file := partsOf name
    parts.length < file.length && parts.isPrefixOf file

/-- The number of bytes that a part of a path may have. -/
def partLimit : Nat := 255

/-- Follow the parts of a path from a place on. -/
def follow (s : Sandbox) (place : List String) : List String → Option (List String)
  | [] => some place
  | part :: rest =>
    if !s.isDirectory place then none
    else if part.isEmpty || part = "." then s.follow place rest
    else if part = ".." then
      if place.isEmpty then none else s.follow place.dropLast rest
    else if partLimit < part.utf8ByteSize then none
    else s.follow (place ++ [part]) rest

/-- The place that a path leads to, below the working directory. -/
def locate (s : Sandbox) (path : String) : Option (List String) :=
  if path.isEmpty || path.startsWith "/" || path.contains '\x00' then none
  else s.follow [] (path.splitOn "/")

/-- The file that is always empty, whatever is written to it. -/
def nullFile : String := "/dev/null"

/-- The file at a path. -/
def file? (s : Sandbox) (path : String) : Option Bytes := do
  let place ← s.locate path
  let (_, bytes) ← s.files.find? fun (name, _) => partsOf name = place
  return bytes

/-- Whether a file can be written at a path. -/
def isWritable (s : Sandbox) (path : String) : Bool :=
  (s.locate path).any fun place => !s.isDirectory place

/-- The sandbox with a file written. -/
def write (s : Sandbox) (path : String) (bytes : Bytes) : Sandbox :=
  let others := s.files.filter fun (name, _) => some (partsOf name) ≠ s.locate path
  { s with files := others ++ [(path, bytes)] }

/-- The content that a path has for a reader. -/
def content? (s : Sandbox) (path : String) : Option Bytes :=
  if path = nullFile then some #[] else s.file? path

/-- The platform of a sandbox. -/
def platform : Platform (StateM Sandbox) where
  isFile := fun path => do
    return ((← get).file? path).isSome
  readFile := fun path => do
    return (← get).content? path
  writeFile := fun path bytes => do
    if path = nullFile then
      return true
    else if (← get).isWritable path then
      modify fun s => s.write path bytes
      return true
    else
      return false
  environment := do
    return (← get).environment
  print := fun text => modify fun s => { s with output := s.output ++ text }
  complain := fun line => modify fun s => { s with complaints := s.complaints ++ [line] }

end Sandbox

end ScriptVm.CommandLine
