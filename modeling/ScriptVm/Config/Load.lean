import ScriptVm.CommandLine.Platform
import ScriptVm.Config.DotEnv
import ScriptVm.Config.Format
import ScriptVm.Config.Path

/-!
# Loading the configuration

Three sources, each laid over the one before: the standard capacities, a
configuration file, and the environment.  The file is the one asked for, which has
to be there, or else `glos.toml` in the working directory, if there is one.  A name
without a file of that very name may leave out the extension.
-/

namespace ScriptVm.Config

open CommandLine (Platform)

/-- Why no configuration could be loaded. -/
inductive LoadError
  /-- The file cannot be found or read, with the path if one was asked for. -/
  | unreadable (path : Option String)
  /-- A setting is no capacity. -/
  | invalid
  /-- A source could not be worked with at all. -/
  | defect (d : Defect)
  deriving DecidableEq, Repr

/-- The text of the error, where it has one of its own. -/
def LoadError.message? : LoadError → Option String
  | unreadable (some path) => some ("Failed to load configuration from " ++ path)
  | unreadable none => some "Failed to load configuration"
  | invalid => some "Invalid configuration values"
  | defect _ => none

/-- The file that is read where none is asked for. -/
def defaultPath : String := "glos.toml"

/-- The file of variables that the environment is completed from. -/
def variablesPath : String := ".env"

/-! ### Names of files -/

/-- A path without the separators and points at its end that mean the same file. -/
def trimPath : (reversed : List Char) → List Char
  | '/' :: rest => trimPath rest
  | '.' :: '/' :: rest => trimPath rest
  | cs => cs.reverse

/-- The path to which extensions are added.  There is none if the path ends in no name. -/
def stem? (path : String) : Option String :=
  let stem := String.ofList (trimPath path.toList.reverse)
  if fileName stem ∈ ["", ".", ".."] then none else some stem

/-- The paths that a path may stand for when no file has that very name, with their formats. -/
def candidates (path : String) : List (String × Format) :=
  match stem? path with
  | none => []
  | some stem => Format.all.flatMap fun f => f.extensions.map fun e => (stem ++ "." ++ e, f)

variable {m : Type → Type} [Monad m]

/-- The first of some paths under which there is a file. -/
def firstFile (p : Platform m) : List (String × Format) → m (Option (String × Format))
  | [] => return none
  | (path, format) :: rest => do
    if ← p.isFile path then return some (path, format) else firstFile p rest

/-- The configuration file of a name, with its format.  A file of that very name has to tell its
format; otherwise an extension is added. -/
def findFile (p : Platform m) (path : String) : m (Option (String × Format)) := do
  if ← p.isFile path then
    return (Format.ofPath? path).map fun format => (path, format)
  else
    firstFile p (candidates path)

/-- The text of the configuration file of a name, with its format. -/
def readText (p : Platform m) (path : String) : m (Option (String × Format)) := do
  match ← findFile p path with
  | none => return none
  | some (path, format) =>
    return ((← p.readFile path).bind Bytes.toString?).map fun text => (text, format)

/-! ### Sources -/

/-- The settings of the configuration file.  Only the default file may be missing. -/
def fileSource (p : Platform m) (path : Option String) : m (Except LoadError Members) := do
  match ← readText p (path.getD defaultPath) with
  | none => return if path.isSome then .error (.unreadable path) else .ok []
  | some (text, format) =>
    match format.parse text with
    | .ok members => return .ok members
    | .error .malformed => return .error (.unreadable path)
    | .error (.defect d) => return .error (.defect d)

/-- The environment, completed from the file of variables. -/
def completeEnvironment (p : Platform m) : m (Except Defect Environment) := do
  let env ← p.environment
  if ← p.isFile variablesPath then
    return DotEnv.supply env ((← p.readFile variablesPath).getD #[])
  else
    return .ok env

/-- The configuration of some sources, the lowest first, over the standard capacities. -/
def ofSources (sources : List Members) : Except LoadError Config :=
  match sources.foldlM laySource standard.toSetting with
  | .error d => .error (.defect d)
  | .ok settings =>
    match ofSetting? settings with
    | some config => .ok config
    | none => .error .invalid

/-- The configuration, without asking the environment. -/
def loadFile (p : Platform m) (path : Option String) : m (Except LoadError Config) := do
  match ← fileSource p path with
  | .error e => return .error e
  | .ok file => return ofSources [file]

/-- The configuration. -/
def load (p : Platform m) (path : Option String) : m (Except LoadError Config) := do
  match ← completeEnvironment p with
  | .error d => return .error (.defect d)
  | .ok env =>
    match ← fileSource p path with
    | .error e => return .error e
    | .ok file => return ofSources [file, env.source]

end ScriptVm.Config
