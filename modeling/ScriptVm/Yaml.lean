import ScriptVm.Decimal.Reading
import ScriptVm.Json

/-!
# YAML documents

A document is a tree of scalars, sequences and mappings.  What a scalar without
quotes stands for is told by its spelling, unless it has a tag.

Names are unique in a mapping: a later member takes the place of an earlier one of
the same name, and moves to the end.
-/

namespace ScriptVm

/-- A YAML document. -/
inductive Yaml
  | null
  /-- A scalar that does not suit its tag, or a node that is asked for before it is complete. -/
  | bad
  | boolean (b : Bool)
  | integer (n : Int)
  /-- A number with a fraction or an exponent, as written, or one that is not finite. -/
  | real (literal : String)
  | text (s : String)
  | sequence (items : List Yaml)
  /-- The members in order. -/
  | mapping (members : List (Yaml × Yaml))
  deriving Repr

namespace Yaml

/-! ### Plain scalars -/

/-- Digits of a base with an optional sign, within 64 bits. -/
def radix? (base : Nat) (cs : List Char) : Option Int := do
  let (negative, digits) := Decimal.sign cs
  if digits.isEmpty then none
  let digits ← digits.mapM Json.hexDigit?
  if digits.any (base ≤ ·) then none
  let n := digits.foldl (fun n d => base * n + d) 0
  let x : Int := if negative then -(n : Int) else n
  if Decimal.inInt64 x then return x else none

/-- The integer that a plain scalar stands for.  A plus sign may stand in front of any integer in
decimal. -/
def integer? : List Char → Option Int
  | '0' :: 'x' :: digits => radix? 16 digits
  | '0' :: 'o' :: digits => radix? 8 digits
  | '+' :: rest => radix? 10 rest
  | cs => radix? 10 cs

/-- The spellings of the reals that are not finite. -/
def infinite : List String :=
  [".inf", ".Inf", ".INF", "+.inf", "+.Inf", "+.INF", "-.inf", "-.Inf", "-.INF",
    ".nan", ".NaN", ".NAN"]

/-- Whether a plain scalar is a real. -/
def isReal (s : String) : Bool :=
  infinite.contains s || (s.toList.any Char.isDigit && (Decimal.float? s.toList).isSome)

/-- What a plain scalar without a tag stands for. -/
def ofPlain (s : String) : Yaml :=
  match integer? s.toList with
  | some n => .integer n
  | none =>
    if s = "~" ∨ s = "null" then .null
    else if s = "true" then .boolean true
    else if s = "false" then .boolean false
    else if isReal s then .real s
    else .text s

/-! ### Tags -/

/-- A tag, after its handle has been replaced. -/
structure Tag where
  handle : String
  suffix : String
  deriving DecidableEq, Repr

/-- What the tags that every document knows start with. -/
def coreHandle : String := "tag:yaml.org,2002:"

/-- What a plain scalar with one of the core tags stands for. -/
def ofCore (suffix s : String) : Yaml :=
  if suffix = "bool" then
    if s = "true" then .boolean true else if s = "false" then .boolean false else .bad
  else if suffix = "int" then
    match radix? 10 s.toList with
    | some n => .integer n
    | none => .bad
  else if suffix = "float" then if isReal s then .real s else .bad
  else if suffix = "null" then if s = "~" ∨ s = "null" then .null else .bad
  else .text s

/-- What a plain scalar with or without a tag stands for. -/
def ofScalar : Option Tag → String → Yaml
  | none, s => ofPlain s
  | some tag, s => if tag.handle = coreHandle then ofCore tag.suffix s else .text s

/-! ### Mappings -/

/-- Whether two nodes are the same name. -/
def sameName : Yaml → Yaml → Bool
  | .text s, .text t => s = t
  | .integer m, .integer n => m = n
  | _, _ => false

/-- Put a member at the end, in place of another of the same name. -/
def putMember (members : List (Yaml × Yaml)) (name x : Yaml) : List (Yaml × Yaml) :=
  members.filter (fun (other, _) => !sameName name other) ++ [(name, x)]

/-- Whether a node is bad. -/
def isBad : Yaml → Bool
  | .bad => true
  | _ => false

/-- The members of a mapping, from its nodes: a name and what it stands for by turns.  A bad node is
no name. -/
def pairUp (members : List (Yaml × Yaml)) : List Yaml → List (Yaml × Yaml)
  | [] => members
  | name :: rest =>
    if name.isBad then pairUp members rest
    else
      match rest with
      | [] => members
      | x :: rest => pairUp (putMember members name x) rest

/-- The mapping of some nodes, a name and what it stands for by turns. -/
def ofNodes (nodes : List Yaml) : Yaml :=
  .mapping (pairUp [] nodes)

end Yaml

end ScriptVm
