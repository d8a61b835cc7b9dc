import ScriptVm.Yaml.Scalar
import ScriptVm.Yaml.Token

/-!
# Cutting a YAML text into tokens

The reader keeps the indentation of the blocks that are open and closes those that
a line is not indented for.  A name of a mapping is found out only by the colon
behind it, so the reader remembers where one may have started and puts the tokens
that belong there in later.

Inside of brackets and braces indentation says nothing, but a line has to be
indented further than the block around it.
-/

namespace ScriptVm.Yaml

/-- A place at which the name of a mapping may have started. -/
structure NameStart where
  possible : Bool
  /-- Whether it has to be a name, since nothing else can stand there. -/
  required : Bool
  place : Place
  /-- The number of tokens before it. -/
  position : Nat

/-- No place. -/
def NameStart.none : NameStart :=
  { possible := false, required := false, place := ⟨0, 0, 0⟩, position := 0 }

/-- An indentation, with the one around it. -/
structure Indent where
  /-- The indentation around. -/
  outer : Int
  /-- Whether a block is open that needs a token at its end. -/
  block : Bool

/-- A collection in brackets or braces that is open. -/
inductive Flow
  | mapping
  /-- A sequence; `single` says whether a mapping of one member is open in it, and `asked` whether a
  question mark opened that. -/
  | sequence (single asked : Bool)
  deriving DecidableEq, Repr

/-- A text of which a part has been cut into tokens. -/
structure Lexer where
  cursor : Cursor
  tokens : Array Token
  /-- The column of the token that was read last, if it was an anchor or a tag. -/
  propertyColumn : Option Nat
  /-- Where a colon needs no white space behind it. -/
  adjacent : Nat
  /-- Whether a name may start here. -/
  mayName : Bool
  /-- The place where a name may have started outside of all brackets and braces, and in each of
  them, the innermost first. -/
  names : List NameStart
  indent : Int
  indents : List Indent
  /-- The collections in brackets and braces that are open, the innermost first. -/
  flows : List Flow

namespace Lexer

/-- The start of a text. -/
def start (text : String) : Lexer where
  cursor := .start text
  tokens := #[]
  propertyColumn := none
  adjacent := 0
  mayName := true
  names := [.none]
  indent := -1
  indents := []
  flows := []

/-- Whether brackets or braces are open. -/
def inFlow (x : Lexer) : Bool :=
  !x.flows.isEmpty

/-- The column of the next character. -/
def column (x : Lexer) : Nat :=
  x.cursor.column

/-- Put a token behind the others. -/
def push (x : Lexer) (t : Token) : Lexer :=
  { x with tokens := x.tokens.push t, propertyColumn := none }

/-- Put a token in front of those from a position on. -/
def insertAt (x : Lexer) (position : Nat) (t : Token) : Lexer :=
  { x with tokens := x.tokens.insertIdxIfInBounds position t }

/-- Go on at another place. -/
def moveTo (x : Lexer) (k : Cursor) : Lexer :=
  { x with cursor := k }

/-- Read so many characters. -/
def advance (x : Lexer) (n : Nat) : Lexer :=
  x.moveTo (x.cursor.advance n)

/-- Go on behind the blanks here and a comment. -/
def toLineEnd? (x : Lexer) : Option Lexer :=
  x.cursor.toLineEnd?.map fun (_, k) => x.moveTo k

/-- Say whether a name may start here. -/
def allowName (x : Lexer) (allowed : Bool) : Lexer :=
  { x with mayName := allowed }

/-! ### Indentation -/

/-- Close the blocks that are indented further than a column. -/
def closeBlocks (column : Int) : List Indent → Lexer → Lexer
  | [], x => x
  | i :: rest, x =>
    if x.indent ≤ column then x
    else
      let x := { x with indent := i.outer, indents := rest }
      closeBlocks column rest (if i.block then x.push .blockEnd else x)

/-- Close the blocks that are indented further than a column, unless brackets or braces are open. -/
def unindent (x : Lexer) (column : Int) : Lexer :=
  if x.inFlow then x else closeBlocks column x.indents x

/-- Leave an indentation that belongs to no block if the column is indented as far. -/
def settle (x : Lexer) (column : Nat) : Lexer :=
  match x.indents with
  | i :: rest =>
    if x.indent ≤ column ∧ !i.block then { x with indent := i.outer, indents := rest } else x
  | [] => x

/-- Open a block at a column that is indented further than the block around; its token goes in at a
position. -/
def openBlock (x : Lexer) (column : Nat) (position : Nat) (t : Token) : Lexer :=
  if x.inFlow then x
  else
    let x := x.settle column
    if x.indent < column then
      let x := { x with indents := ⟨x.indent, true⟩ :: x.indents, indent := column }
      if position < x.tokens.size then x.insertAt position t else x.push t
    else x

/-- Demand that what follows is indented further than the block around. -/
def hang (x : Lexer) : Lexer :=
  if !x.inFlow ∧ x.indents.head?.any Indent.block then
    { x with indents := ⟨x.indent, false⟩ :: x.indents, indent := x.indent + 1 }
  else x

/-- Leave the indentations that belong to no block. -/
def unhang : List Indent → Lexer → Lexer
  | [], x => x
  | i :: rest, x => if i.block then x else unhang rest { x with indent := i.outer, indents := rest }

/-! ### Names -/

/-- Forget where the innermost name may have started. -/
def dropName? (x : Lexer) : Option Lexer :=
  match x.names with
  | n :: rest =>
    if n.possible ∧ n.required then none
    else some { x with names := { n with possible := false } :: rest }
  | [] => none

/-- Remember that a name may start here. -/
def noteName? (x : Lexer) : Option Lexer := do
  if !x.mayName then return x
  let x ← x.dropName?
  let n : NameStart :=
    { possible := true
      required := !x.inFlow && x.indent = x.column && x.indents.head?.any Indent.block
      place := x.cursor.toPlace
      position := x.tokens.size }
  return { x with names := n :: x.names.tail }

/-- How far the colon may stand from the start of a name. -/
def nameLimit : Nat := 1024

/-- Forget the starts of names that are too far away.  Outside of brackets and braces a name does
not leave its line. -/
def expireNames? (x : Lexer) : Option Lexer :=
  let expired (n : NameStart) : Bool :=
    n.possible && !x.inFlow
      && (n.place.line < x.cursor.line || n.place.index + nameLimit < x.cursor.index)
  if x.names.any fun n => expired n && n.required then none
  else some { x with
    names := x.names.map fun n => if expired n then { n with possible := false } else n }

/-! ### White space -/

/-- Go on behind white space and comments.  A tab cannot indent a line of a block. -/
def skipWhite? : (fuel : Nat) → Lexer → Option Lexer
  | 0, x => some x
  | fuel + 1, x =>
    match x.cursor.next? with
    | none => some x
    | some c =>
      if c = '\t' ∧ !x.indents.isEmpty ∧ x.cursor.fresh ∧ x.column < x.indent then do
        let x ← x.toLineEnd?
        if endsLine x.cursor.next? then skipWhite? fuel x else none
      else if isBlank c then skipWhite? fuel (x.moveTo (x.cursor.move 1))
      else if isBreak c then
        skipWhite? fuel { x with cursor := x.cursor.nextLine, mayName := x.mayName || !x.inFlow }
      else if c = '#' then skipWhite? fuel (x.moveTo (x.cursor.skip fun c => !isBreak c))
      else some x

/-- Go on behind spaces, line ends and comments behind a question mark; there has to be a space or a
line end. -/
def skipBehindKey? : (fuel : Nat) → (found : Bool) → Lexer → Option Lexer
  | 0, _, _ => none
  | fuel + 1, found, x =>
    match x.cursor.next? with
    | some c =>
      if c = ' ' then skipBehindKey? fuel true (x.moveTo (x.cursor.move 1))
      else if isBreak c then
        skipBehindKey? fuel true
          { x with cursor := x.cursor.nextLine, mayName := x.mayName || !x.inFlow }
      else if c = '#' then
        skipBehindKey? fuel found (x.moveTo (x.cursor.skip fun c => !isBreak c))
      else if found ∧ c ≠ '\t' then some x else none
    | none => if found then some x else none

/-! ### Documents -/

/-- Read a directive. -/
def directive? (x : Lexer) : Option Lexer := do
  let x ← (x.unindent (-1)).dropName?
  let (t, rest) ← Yaml.directive? x.cursor.rest.tail
  let x := (x.allowName false).advance (x.cursor.rest.length - rest.length)
  let x ← x.toLineEnd?
  if !endsLine x.cursor.next? then none
  return (x.push t).moveTo x.cursor.nextLine

/-- Read the mark at the start or the end of a document. -/
def documentMark? (t : Token) (x : Lexer) : Option Lexer := do
  let x ← (x.unindent (-1)).dropName?
  return ((x.allowName false).advance 3).push t

/-- Read the end of a document, behind which only a comment may stand. -/
def documentEnd? (x : Lexer) : Option Lexer := do
  let x ← documentMark? .documentEnd x
  let x ← x.toLineEnd?
  if endsLine x.cursor.next? then return x else none

/-- The end of the text. -/
def finish? (x : Lexer) : Option Lexer :=
  if x.names.any fun n => n.required && n.possible then none
  else some (x.unindent (-1))

/-! ### Brackets and braces -/

/-- How deeply brackets and braces may be nested. -/
def flowLimit : Nat := 255

/-- Read an opening bracket or brace. -/
def openFlow? (t : Token) (flow : Flow) (x : Lexer) : Option Lexer := do
  let x := (← x.noteName?).hang
  if flowLimit ≤ x.flows.length then none
  let x := { x with flows := flow :: x.flows, names := .none :: x.names, mayName := true }
  let x ← (x.advance 1).toLineEnd?
  return x.push t

/-- Close the mapping of one member that is open in a sequence. -/
def endSingle (x : Lexer) : Lexer :=
  match x.flows with
  | .sequence single _ :: rest =>
    let x := { x with flows := .sequence false false :: rest }
    if single then x.push .flowMappingEnd else x
  | _ => x

/-- Read a closing bracket or brace. -/
def closeFlow? (t : Token) (x : Lexer) : Option Lexer := do
  let x ← x.dropName?
  let x := if t = .flowSequenceEnd then x.endSingle else x
  let x := if x.inFlow then { x with flows := x.flows.tail, names := x.names.tail } else x
  let x ← ((x.allowName false).advance 1).toLineEnd?
  let x := if x.inFlow then { x with adjacent := x.cursor.index } else x
  return x.push t

/-- Read a comma. -/
def comma? (x : Lexer) : Option Lexer := do
  let x := ((← x.dropName?).allowName true).endSingle
  return (← (x.advance 1).toLineEnd?).push .comma

/-! ### Entries and members -/

/-- Read the dash of an entry. -/
def entry? (x : Lexer) : Option Lexer := do
  if x.inFlow ∨ !x.mayName then none
  if x.propertyColumn = some 0 ∧ x.column = 0 ∧ 0 ≤ x.indent then none
  let x := (x.advance 1).openBlock x.column x.tokens.size .sequenceStart
  let (blanks, k) ← x.cursor.toLineEnd?
  if blanks.contains '\t' ∧ k.next? = some '-' ∧ endsWord k.second? then none
  let x := x.moveTo k
  let x := if k.next?.any fun c => isBreak c || isFlow c then x.hang else x
  return ((← x.dropName?).allowName true).push .entry

/-- Note that a question mark opens a mapping of one member. -/
def ask (x : Lexer) : Lexer :=
  match x.flows with
  | .sequence single _ :: rest => { x with flows := .sequence single true :: rest }
  | _ => x

/-- Read a question mark. -/
def key? (x : Lexer) : Option Lexer := do
  if !x.inFlow ∧ !x.mayName then none
  let x := (x.openBlock x.column x.tokens.size .mappingStart).ask
  let x ← x.dropName?
  let x := (x.allowName !x.inFlow).advance 1
  return (← skipBehindKey? (x.cursor.rest.length + 1) false x).push .key

/-- Whether a colon opens a mapping of one member in a sequence. -/
def opensSingle (x : Lexer) : Bool :=
  match x.flows with
  | .sequence single asked :: _ => !single && !asked
  | _ => false

/-- Note that a mapping of one member is open in a sequence. -/
def beginSingle (x : Lexer) : Lexer :=
  match x.flows with
  | .sequence _ asked :: rest => { x with flows := .sequence true asked :: rest }
  | _ => x

/-- Read the colon behind a name that started at a place. -/
def namedValue? (n : NameStart) (place : Place) (x : Lexer) : Option Lexer := do
  let single := x.opensSingle
  if single ∧ n.place.line < place.line then none
  let x := x.insertAt n.position .key
  let x := if single then (x.insertAt n.position .flowMappingStart).beginSingle else x
  let x := (x.openBlock n.place.column n.position .mappingStart).hang
  let x := { x with names := { n with possible := false } :: x.names.tail, mayName := false }
  return x.push .value

/-- Read a colon with no name in front of it. -/
def bareValue? (place : Place) (x : Lexer) : Option Lexer := do
  if !x.inFlow ∧ !x.mayName then none
  let x := if x.opensSingle then (x.push .flowMappingStart).beginSingle else x
  let x := (x.openBlock place.column x.tokens.size .mappingStart).hang
  return (x.allowName !x.inFlow).push .value

/-- Read a colon.  A tab alone cannot divide it from a word. -/
def value? (x : Lexer) : Option Lexer := do
  let place := x.cursor.toPlace
  let n ← x.names.head?
  let x := x.advance 1
  let x ←
    if x.cursor.next? = some '\t' then do
      let (blanks, k) ← x.cursor.toLineEnd?
      if !blanks.contains ' ' ∧ k.next?.any isWordChar then none
      some (x.moveTo k)
    else some x
  if n.possible then namedValue? n place x else bareValue? place x

/-! ### Nodes -/

/-- Read an anchor or an alias. -/
def anchor? (isAlias : Bool) (x : Lexer) : Option Lexer := do
  let column := x.column
  let x := (← x.noteName?).allowName false
  let (name, k) ← anchorName? x.cursor
  if isAlias then return (x.moveTo k).push (.alias name)
  else return { (x.moveTo k).push (.anchor name) with propertyColumn := some column }

/-- Read a tag. -/
def tag? (x : Lexer) : Option Lexer := do
  let column := x.column
  let x := (← x.noteName?).allowName false
  let (t, rest) ← Yaml.tag? x.cursor.rest
  if !(endsWord rest.head? || (x.inFlow && rest.head?.any isFlow)) then none
  let x := x.advance (x.cursor.rest.length - rest.length)
  return { x.push t with propertyColumn := some column }

/-- Read a block of lines. -/
def block? (literal : Bool) (x : Lexer) : Option Lexer := do
  let x := (← x.noteName?).allowName true
  let x := unhang x.indents x
  let (chars, k) ← Yaml.block? literal x.indent x.cursor
  return (x.moveTo k).push (.scalar false (String.ofList chars))

/-- Read a quoted scalar. -/
def quoted? (single : Bool) (x : Lexer) : Option Lexer := do
  let x := (← x.noteName?).allowName false
  let (chars, k) ← Yaml.quoted? single x.inFlow x.indent x.cursor
  return { (x.moveTo k).push (.scalar false (String.ofList chars)) with adjacent := k.index }

/-- Read a plain scalar. -/
def plain? (x : Lexer) : Option Lexer := do
  let x := (← x.noteName?).allowName false
  let x := unhang x.indents x
  let (chars, k) ← Yaml.plain? x.inFlow (x.indent + 1) x.cursor
  return ((x.moveTo k).allowName k.fresh).push (.scalar true (String.ofList chars))

/-! ### The whole text -/

/-- Read the token that starts with a character. -/
def token? (c : Char) (x : Lexer) : Option Lexer :=
  let following := x.cursor.second?
  if c = '[' then openFlow? .flowSequenceStart (.sequence false false) x
  else if c = '\x7b' then openFlow? .flowMappingStart .mapping x
  else if c = ']' then closeFlow? .flowSequenceEnd x
  else if c = '\x7d' then closeFlow? .flowMappingEnd x
  else if c = ',' then comma? x
  else if c = '-' ∧ endsWord following then entry? x
  else if c = '?' ∧ endsWord following then key? x
  else if c = ':' ∧ (endsWord following
      ∨ x.inFlow ∧ (following.any isFlow ∨ x.cursor.index = x.adjacent)) then value? x
  else if c = '*' then anchor? true x
  else if c = '&' then anchor? false x
  else if c = '!' then tag? x
  else if c = '|' ∧ !x.inFlow then block? true x
  else if c = '>' ∧ !x.inFlow then block? false x
  else if c = '\'' then quoted? true x
  else if c = '"' then quoted? false x
  else if c = '%' ∨ c = '@' ∨ c.toNat = 0x60 then none
  else plain? x

/-- Read what comes next. -/
def next? (c : Char) (x : Lexer) : Option Lexer :=
  if x.column = 0 ∧ c = '%' then directive? x
  else if x.column = 0 ∧ x.cursor.atMark '-' then documentMark? .documentStart x
  else if x.column = 0 ∧ x.cursor.atMark '.' then documentEnd? x
  else if x.column < x.indent then none
  else token? c x

/-- Read the rest of a text. -/
def run? : (fuel : Nat) → Lexer → Option Lexer
  | 0, _ => none
  | fuel + 1, x => do
    let x ← skipWhite? x.cursor.rest.length x
    let x ← x.expireNames?
    let x := x.unindent x.column
    match x.cursor.next? with
    | none => x.finish?
    | some c => run? fuel (← x.next? c)

end Lexer

/-- The tokens of a text. -/
def tokens? (text : String) : Option (List Token) :=
  (Lexer.run? (text.length + 1) (.start text)).map fun x => x.tokens.toList

end ScriptVm.Yaml
