import ScriptVm.Heap

/-!
# Variables

A name is looked up in a context, then in its parent, and so on.  The nearest
context that owns the name answers; if none does, the root gets a new variable
with the value nil.  Each context on the way remembers the answer, and a
remembered answer is taken without looking further.

A parent is older than its children, which is why the lookup ends.  `lineage` is
the chain from a context to its root.
-/

namespace ScriptVm.Heap

/-- A context and its ancestors, the root last. -/
def lineage (h : Heap) (c : Ref .context) : List (Ref .context) :=
  match (h.context c).parent with
  | none => [c]
  | some p => if p.index < c.index then c :: h.lineage p else [c]
termination_by c.index

/-- The root of a context's chain. -/
def root (h : Heap) (c : Ref .context) : Ref .context :=
  (h.lineage c).getLast?.getD c

/-- Whether a context owns a variable of this name. -/
def owns (h : Heap) (c : Ref .context) (name : String) : Bool :=
  (h.context c).cells.contains name

/-- The heap with a variable made, or set, in a context. -/
def createVariable (h : Heap) (c : Ref .context) (name : String) (value : Value) : Heap :=
  h.modifyContext c fun ctx => { ctx with cells := ctx.cells.insert name value }

/-- The heap in which a context remembers the owner of a name. -/
def rememberOwner (h : Heap) (c : Ref .context) (name : String) (owner : Ref .context) : Heap :=
  h.modifyContext c fun ctx => { ctx with owners := ctx.owners.insert name owner }

/-- The context that owns a name as seen from `c`, and the heap after the lookup. -/
def ownerOf (h : Heap) (c : Ref .context) (name : String) : Ref .context × Heap :=
  let ctx := h.context c
  if ctx.cells.contains name then (c, h)
  else
    match ctx.owners.get? name with
    | some owner => (owner, h)
    | none =>
      match ctx.parent with
      | none => (c, h.createVariable c name .nil)
      | some p =>
        if p.index < c.index then
          let (owner, h) := h.ownerOf p name
          (owner, h.rememberOwner c name owner)
        else (c, h.createVariable c name .nil)
termination_by c.index

/-- The value of a variable as seen from a context. -/
def readVariable (h : Heap) (c : Ref .context) (name : String) : Value × Heap :=
  let (owner, h) := h.ownerOf c name
  (((h.context owner).cells.get? name).getD .nil, h)

/-- The heap with a variable written as seen from a context. -/
def writeVariable (h : Heap) (c : Ref .context) (name : String) (value : Value) : Heap :=
  let (owner, h) := h.ownerOf c name
  h.createVariable owner name value

/-- The heap in which a context has variables of the given names; missing ones start as nil. -/
def declareVariables (h : Heap) (c : Ref .context) (names : List String) : Heap :=
  names.foldl (fun h name => if h.owns c name then h else h.createVariable c name .nil) h

/-- The owner of a name found without any remembered answer: the nearest context of the lineage
that owns it, or else the root. -/
def nearestOwner (h : Heap) (c : Ref .context) (name : String) : Ref .context :=
  ((h.lineage c).find? fun d => h.owns d name).getD (h.root c)

end ScriptVm.Heap
