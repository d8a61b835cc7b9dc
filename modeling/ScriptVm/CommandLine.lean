import ScriptVm.Decimal.Reading

/-!
# The command line

```text
[--config FILE] run UNIT [--arg N]...
[--config FILE] compile UNIT --output FILE
[--config FILE] config
```

The option `--config` may also stand behind the command, where it wins.  An
option's value is the next word or follows an equals sign; the short form of
`--output` may also have its value attached.  A word that looks like an option is
no value, except that `--arg` takes negative numbers.  Behind two dashes every
word stands for itself.

`Invocation.parse?` answers `none` for every other line.
-/

namespace ScriptVm.CommandLine

/-- What to do. -/
inductive Command
  /-- Run a unit's entry function with some arguments and print its results. -/
  | run (unit : String) (args : List Int64)
  /-- Write a unit in its binary form. -/
  | compile (unit output : String)
  /-- Print the configuration. -/
  | config
  deriving DecidableEq, Repr

/-- A command with the configuration file to use. -/
structure Invocation where
  /-- The configuration file. -/
  config : Option String
  /-- What to do. -/
  command : Command
  deriving DecidableEq, Repr

/-- The options. -/
inductive Opt
  | config
  | arg
  | output
  deriving DecidableEq, Repr

/-- The name of an option behind two dashes. -/
def Opt.long : Opt → String
  | config => "config"
  | arg => "arg"
  | output => "output"

/-- The letter of an option behind one dash. -/
def Opt.short? : Opt → Option Char
  | output => some 'o'
  | config | arg => none

/-- How a word reads where options may stand. -/
inductive Word
  /-- Two dashes. -/
  | separator
  /-- An option that takes the next word. -/
  | opens (o : Opt)
  /-- An option with its value. -/
  | complete (o : Opt) (value : String)
  /-- A word that stands for itself. -/
  | plain (text : String)
  /-- An option that is not known. -/
  | unknown
  deriving DecidableEq, Repr

/-- A word behind two dashes: a name, and a value behind the first equals sign. -/
def Word.ofLong (opts : List Opt) (body : List Char) : Word :=
  let name := String.ofList (body.takeWhile (· != '='))
  match opts.find? fun o => o.long = name with
  | none => .unknown
  | some o =>
    match body.dropWhile (· != '=') with
    | [] => .opens o
    | _ :: value => .complete o (String.ofList value)

/-- A word behind one dash: a letter, and an attached value, possibly behind an equals sign. -/
def Word.ofShort (opts : List Opt) (letter : Char) (attached : List Char) : Word :=
  match opts.find? fun o => o.short? = some letter with
  | none => .unknown
  | some o =>
    match attached with
    | [] => .opens o
    | '=' :: value => .complete o (String.ofList value)
    | value => .complete o (String.ofList value)

/-- How a word reads, given the options that may stand here. -/
def Word.read (opts : List Opt) (text : String) : Word :=
  match text.toList with
  | ['-', '-'] => .separator
  | '-' :: '-' :: body => ofLong opts body
  | ['-'] => .plain text
  | '-' :: letter :: attached => ofShort opts letter attached
  | _ => .plain text

/-- Digits with at most one point, not in front, and an exponent that is not empty. -/
def looksNumeric (cs : List Char) : Bool :=
  let whole := cs.takeWhile Char.isDigit
  let fraction := match cs.dropWhile Char.isDigit with
    | '.' :: rest => if whole.isEmpty then '.' :: rest else rest.dropWhile Char.isDigit
    | rest => rest
  match fraction with
  | [] => true
  | c :: digits =>
    (c = 'e' || c = 'E') && !whole.isEmpty && !digits.isEmpty && digits.all Char.isDigit

/-- Whether an option takes this word as its value. -/
def Opt.takes (o : Opt) (text : String) : Bool :=
  match text.toList with
  | ['-'] => true
  | '-' :: '-' :: _ => false
  | '-' :: rest => o = .arg && looksNumeric rest
  | _ => true

/-- A piece of the line behind a command: an option with its value, or a word for itself. -/
inductive Piece
  | option (o : Opt) (value : String)
  | operand (text : String)
  deriving DecidableEq, Repr

/-- The pieces behind a command. -/
def pieces? (opts : List Opt) : List String → Option (List Piece)
  | [] => some []
  | word :: rest =>
    match Word.read opts word with
    | .separator => some (rest.map .operand)
    | .plain text => (pieces? opts rest).map (.operand text :: ·)
    | .complete o value => (pieces? opts rest).map (.option o value :: ·)
    | .opens o =>
      match rest with
      | [] => none
      | value :: rest =>
        if o.takes value then (pieces? opts rest).map (.option o value :: ·) else none
    | .unknown => none

/-- The options before the command, the command's name, and the words behind it. -/
def heading? : List String → Option (List Piece × String × List String)
  | [] => none
  | word :: rest =>
    let more (piece : Piece) (found : Option (List Piece × String × List String)) :=
      found.map fun (pieces, name, rest) => (piece :: pieces, name, rest)
    match Word.read [.config] word with
    | .plain text => some ([], text, rest)
    | .complete o value => more (.option o value) (heading? rest)
    | .opens o =>
      match rest with
      | [] => none
      | value :: rest => if o.takes value then more (.option o value) (heading? rest) else none
    | .separator | .unknown => none

/-- The values of an option, in order. -/
def valuesOf (o : Opt) (pieces : List Piece) : List String :=
  pieces.filterMap fun
    | .option o' value => if o' = o then some value else none
    | .operand _ => none

/-- The words that stand for themselves, in order. -/
def operandsOf (pieces : List Piece) : List String :=
  pieces.filterMap fun
    | .operand text => some text
    | .option _ _ => none

/-- A path; an empty text is none. -/
def path? (text : String) : Option String :=
  if text.isEmpty then none else some text

/-- The only path of a list. -/
def onePath? : List String → Option String
  | [text] => path? text
  | _ => none

/-- The path of a list that may be empty. -/
def optionalPath? : List String → Option (Option String)
  | [] => some none
  | [text] => (path? text).map some
  | _ => none

/-- An integer argument. -/
def integer? (text : String) : Option Int64 :=
  ((Decimal.integer? text.toList).filter Decimal.inInt64).map Int64.ofInt

/-- The options that may stand behind a command. -/
def optionsOf : String → List Opt
  | "run" => [.config, .arg]
  | "compile" => [.config, .output]
  | _ => [.config]

/-- The command of a name and the pieces behind it. -/
def Command.ofPieces? (name : String) (pieces : List Piece) : Option Command :=
  match name with
  | "run" => do
    let unit ← onePath? (operandsOf pieces)
    let args ← (valuesOf .arg pieces).mapM integer?
    return .run unit args
  | "compile" => do
    let unit ← onePath? (operandsOf pieces)
    let output ← onePath? (valuesOf .output pieces)
    return .compile unit output
  | "config" => if (operandsOf pieces).isEmpty then some .config else none
  | _ => none

/-- The invocation that the words of a command line spell. -/
def Invocation.parse? (words : List String) : Option Invocation := do
  let (front, name, rest) ← heading? words
  let pieces ← pieces? (optionsOf name) rest
  let outer ← optionalPath? (valuesOf .config front)
  let inner ← optionalPath? (valuesOf .config pieces)
  let command ← Command.ofPieces? name pieces
  return { config := inner.or outer, command }

end ScriptVm.CommandLine
