import ScriptVm.Yaml
import ScriptVm.Yaml.Lexer

/-!
# Reading YAML documents

The document of a text is read off its tokens by descent.  A node may have a name,
and an alias stands for the node that has its name; while that node is being read,
the alias stands for nothing.

Every step of the descent either takes a token or is followed by one that does, so
the number of tokens bounds it.
-/

namespace ScriptVm.Yaml

/-- What remains to be read, and what is known of the nodes read before. -/
structure Parser where
  tokens : List Token
  /-- What the handles of tags stand for. -/
  handles : List (String × String)
  /-- The numbers of the nodes with a name, the latest first. -/
  anchors : List (String × Nat)
  /-- The nodes that are complete, by their numbers. -/
  nodes : List (Nat × Yaml)

namespace Parser

/-- Go on with other tokens. -/
def goOn (p : Parser) (tokens : List Token) : Parser :=
  { p with tokens }

/-- Leave out the next token. -/
def skip (p : Parser) : Parser :=
  p.goOn p.tokens.tail

/-- Give the next number to a name. -/
def name (p : Parser) (name : String) : Parser :=
  { p with anchors := (name, p.anchors.length) :: p.anchors }

/-- Record the node of a number. -/
def complete (p : Parser) (number : Option Nat) (x : Yaml) : Parser :=
  match number with
  | some n => { p with nodes := (n, x) :: p.nodes }
  | none => p

/-- The node that an alias stands for. -/
def aliased? (p : Parser) (name : String) : Option Yaml :=
  (p.anchors.lookup name).map fun n => (p.nodes.lookup n).getD .bad

/-- A tag with its handle replaced.  Only a handle between two marks has to be known. -/
def resolve? (p : Parser) (handle suffix : String) : Option Tag :=
  match p.handles.lookup handle with
  | some full => some ⟨full, suffix⟩
  | none =>
    if handle = "!!" then some ⟨coreHandle, suffix⟩
    else if 2 ≤ handle.length then none
    else some ⟨handle, suffix⟩

/-! ### Nodes -/

/-- The name and the tag of a node. -/
structure Properties where
  number : Option Nat
  tag : Option Tag

/-- The properties in front of a node, at most one of each kind. -/
def properties? (p : Parser) : Option (Properties × Parser) := do
  match p.tokens with
  | .anchor name :: .tag handle suffix :: rest =>
    let number := p.anchors.length
    let tag ← p.resolve? handle suffix
    return (⟨some number, some tag⟩, (p.name name).goOn rest)
  | .tag handle suffix :: .anchor name :: rest =>
    let number := p.anchors.length
    let tag ← p.resolve? handle suffix
    return (⟨some number, some tag⟩, (p.name name).goOn rest)
  | .anchor name :: rest => return (⟨some p.anchors.length, none⟩, (p.name name).goOn rest)
  | .tag handle suffix :: rest =>
    let tag ← p.resolve? handle suffix
    return (⟨none, some tag⟩, p.goOn rest)
  | _ => return (⟨none, none⟩, p)

/-- Whether there is nothing between a mark of a block and the next. -/
def lacksNode : List Token → Bool
  | .key :: _ | .value :: _ | .blockEnd :: _ => true
  | _ => false

/-- Whether there is nothing between a mark in braces and the next. -/
def lacksFlowNode : List Token → Bool
  | .comma :: _ | .flowMappingEnd :: _ => true
  | _ => false

/-- Whether there is nothing between a mark of a mapping of one member and the next. -/
def lacksSingleNode : List Token → Bool
  | .comma :: _ | .flowSequenceEnd :: _ => true
  | _ => false

mutual

/-- A node.  Only in a block may it be a block itself, and only as a member may its entries be
indented no further than the block around. -/
def node? : (fuel : Nat) → (block member : Bool) → Parser → Option (Yaml × Parser)
  | 0, _, _, _ => none
  | fuel + 1, block, member, p =>
    match p.tokens with
    | .alias name :: _ => (p.aliased? name).map fun x => (x, p.skip)
    | _ => do
      let (properties, p) ← p.properties?
      let (x, p) ← content? fuel block member properties p
      return (x, p.complete properties.number x)

/-- What a node holds. -/
def content? : (fuel : Nat) → (block member : Bool) → Properties → Parser →
    Option (Yaml × Parser)
  | 0, _, _, _, _ => none
  | fuel + 1, block, member, properties, p =>
    match p.tokens, block, member with
    | .entry :: _, _, true => (looseEntries? fuel p).map fun (xs, p) => (.sequence xs, p)
    | .scalar true s :: _, _, _ => some (ofScalar properties.tag s, p.skip)
    | .scalar false s :: _, _, _ => some (.text s, p.skip)
    | .flowSequenceStart :: _, _, _ =>
      (flowItems? fuel true p.skip).map fun (xs, p) => (.sequence xs, p)
    | .flowMappingStart :: _, _, _ =>
      (flowMembers? fuel true p.skip).map fun (xs, p) => (ofNodes xs, p)
    | .sequenceStart :: _, true, _ => (entries? fuel p.skip).map fun (xs, p) => (.sequence xs, p)
    | .mappingStart :: _, true, _ => (members? fuel p.skip).map fun (xs, p) => (ofNodes xs, p)
    | _, _, _ =>
      if properties.tag.isSome ∨ properties.number.isSome then
        some (ofScalar properties.tag "", p)
      else none

/-- The entries of a block. -/
def entries? : (fuel : Nat) → Parser → Option (List Yaml × Parser)
  | 0, _ => none
  | fuel + 1, p =>
    match p.tokens with
    | .blockEnd :: _ => some ([], p.skip)
    | .entry :: .entry :: _ | .entry :: .blockEnd :: _ =>
      (entries? fuel p.skip).map fun (xs, p) => (.null :: xs, p)
    | .entry :: _ => do
      let (x, p) ← node? fuel true false p.skip
      let (xs, p) ← entries? fuel p
      return (x :: xs, p)
    | _ => none

/-- Entries that no token ends. -/
def looseEntries? : (fuel : Nat) → Parser → Option (List Yaml × Parser)
  | 0, _ => none
  | fuel + 1, p =>
    match p.tokens with
    | .entry :: rest =>
      if lacksNode rest ∨ rest.head? = some .entry then
        (looseEntries? fuel p.skip).map fun (xs, p) => (.null :: xs, p)
      else do
        let (x, p) ← node? fuel true false p.skip
        let (xs, p) ← looseEntries? fuel p
        return (x :: xs, p)
    | _ => some ([], p)

/-- The members of a block, as nodes by turns. -/
def members? : (fuel : Nat) → Parser → Option (List Yaml × Parser)
  | 0, _ => none
  | fuel + 1, p =>
    match p.tokens with
    | .key :: rest => do
      let (name, p) ← if lacksNode rest then some (.null, p.skip) else node? fuel true true p.skip
      memberValue? fuel name p
    | .value :: _ => memberValue? fuel .null p
    | .blockEnd :: _ => some ([], p.skip)
    | _ => none

/-- What a name of a block stands for, and the further members. -/
def memberValue? : (fuel : Nat) → Yaml → Parser → Option (List Yaml × Parser)
  | 0, _, _ => none
  | fuel + 1, name, p => do
    let (x, p) ← match p.tokens with
      | .value :: rest =>
        if lacksNode rest then some (.null, p.skip) else node? fuel true true p.skip
      | _ => some (.null, p)
    let (xs, p) ← members? fuel p
    return (name :: x :: xs, p)

/-- The items in brackets, behind the opening one or behind another item. -/
def flowItems? : (fuel : Nat) → (first : Bool) → Parser → Option (List Yaml × Parser)
  | 0, _, _ => none
  | fuel + 1, first, p => do
    let p ← match p.tokens with
      | .flowSequenceEnd :: _ => some p
      | .comma :: _ => if first then some p else some p.skip
      | _ => if first then some p else none
    match p.tokens with
    | .flowSequenceEnd :: _ => return ([], p.skip)
    | .key :: _ =>
      let (x, p) ← single? fuel p.skip
      let (xs, p) ← flowItems? fuel false p
      return (x :: xs, p)
    | _ =>
      let (x, p) ← node? fuel false false p
      let (xs, p) ← flowItems? fuel false p
      return (x :: xs, p)

/-- A mapping of one member in brackets. -/
def single? : (fuel : Nat) → Parser → Option (Yaml × Parser)
  | 0, _ => none
  | fuel + 1, p => do
    let (name, p) ←
      if lacksSingleNode p.tokens ∨ p.tokens.head? = some .value then some (.null, p.skip)
      else node? fuel false false p
    let (x, p) ← match p.tokens with
      | .value :: rest =>
        if lacksSingleNode rest then some (.null, p.skip) else node? fuel false false p.skip
      | _ => some (.null, p)
    return (ofNodes [name, x], p)

/-- The members in braces, as nodes by turns, behind the opening one or behind another member. -/
def flowMembers? : (fuel : Nat) → (first : Bool) → Parser → Option (List Yaml × Parser)
  | 0, _, _ => none
  | fuel + 1, first, p => do
    let p ← match p.tokens with
      | .flowMappingEnd :: _ => some p
      | .comma :: _ => if first then some p else some p.skip
      | _ => if first then some p else none
    match p.tokens with
    | .flowMappingEnd :: _ => return ([], p.skip)
    | .key :: rest =>
      let (name, p) ←
        if lacksFlowNode rest ∨ rest.head? = some .value then some (.null, p.skip)
        else node? fuel false false p.skip
      flowValue? fuel name p
    | .value :: _ => flowValue? fuel .null p
    | _ =>
      let (name, p) ← node? fuel false false p
      let (xs, p) ← flowMembers? fuel false p
      return (name :: .null :: xs, p)

/-- What a name in braces stands for, and the further members. -/
def flowValue? : (fuel : Nat) → Yaml → Parser → Option (List Yaml × Parser)
  | 0, _, _ => none
  | fuel + 1, name, p => do
    let (x, p) ← match p.tokens with
      | .value :: rest =>
        if lacksFlowNode rest then some (.null, p.skip) else node? fuel false false p.skip
      | _ => some (.null, p)
    let (xs, p) ← flowMembers? fuel false p
    return (name :: x :: xs, p)

end

/-! ### Documents -/

/-- The place behind the directives of a document.  Of several only the last one counts, and only
one of them may give a version. -/
def directives? (versioned : Bool) (handles : List (String × String)) :
    List Token → Option (List (String × String) × List Token)
  | .version :: rest => if versioned then none else directives? true [] rest
  | .handle name full :: rest => directives? versioned [(name, full)] rest
  | tokens => some (handles, tokens)

/-- Whether a document without content ends here. -/
def lacksContent : List Token → Bool
  | [] | .version :: _ | .handle _ _ :: _ | .documentStart :: _ | .documentEnd :: _ => true
  | _ => false

/-- A bound on the number of steps that the descent over some tokens takes. -/
def fuelFor (tokens : List Token) : Nat :=
  4 * tokens.length + 4

/-- The document that some tokens start with, and the tokens behind it. -/
def document? (tokens : List Token) : Option (Yaml × List Token) := do
  let (handles, rest) ← directives? false [] tokens
  let explicit := rest.head? = some .documentStart
  if !explicit ∧ rest.length ≠ tokens.length then none
  let rest := if explicit then rest.tail else rest
  if explicit ∧ lacksContent rest then return (.null, rest)
  let (x, p) ← node? (fuelFor rest) true false ⟨rest, handles, [], []⟩
  return (x, p.tokens)

end Parser

/-- The tokens behind the ends of documents. -/
def behindEnds (tokens : List Token) : List Token :=
  tokens.dropWhile (· = .documentEnd)

/-- The document that a text holds, if it holds one; it cannot hold several. -/
def parse? (text : String) : Option (Option Yaml) := do
  match behindEnds (← tokens? text) with
  | [] => return none
  | tokens =>
    let (x, rest) ← Parser.document? tokens
    if (behindEnds rest).isEmpty then return some x else none

end ScriptVm.Yaml
