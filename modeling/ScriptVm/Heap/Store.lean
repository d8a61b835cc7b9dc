import ScriptVm.Value

/-!
# Stores

A store holds the objects of one kind.  A new object comes behind the others and
its place never changes, so a reference stays good for ever.

Main statements: reading over changing an object (`get_modify_self`) and over
making a new one (`get_add_self`, `get_add_of_lt`).
-/

namespace ScriptVm

/-- The objects of kind `k`. -/
structure Store (k : Kind) (α : Type) where
  /-- The objects in the order in which they were made. -/
  cells : Array α
  deriving Repr

namespace Store

variable {k : Kind} {α : Type}

/-- A store without objects. -/
def empty : Store k α := ⟨#[]⟩

instance : Inhabited (Store k α) := ⟨empty⟩

/-- The number of objects. -/
def size (s : Store k α) : Nat :=
  s.cells.size

/-- Whether a reference leads to an object. -/
def Holds (s : Store k α) (r : Ref k) : Prop :=
  r.index < s.size

/-- The object a reference leads to. -/
def get [Inhabited α] (s : Store k α) (r : Ref k) : α :=
  s.cells.getD r.index default

/-- The store with the object behind a reference changed. -/
def modify (s : Store k α) (r : Ref k) (f : α → α) : Store k α :=
  ⟨s.cells.modify r.index f⟩

/-- The store with the object behind a reference replaced. -/
def set (s : Store k α) (r : Ref k) (a : α) : Store k α :=
  ⟨s.cells.setIfInBounds r.index a⟩

/-- A reference to a new object, and the store that holds it. -/
def add (s : Store k α) (a : α) : Ref k × Store k α :=
  (⟨s.cells.size⟩, ⟨s.cells.push a⟩)

@[simp] theorem size_set (s : Store k α) (r : Ref k) (a : α) : (s.set r a).size = s.size := by
  simp [size, set]

@[simp] theorem size_modify (s : Store k α) (r : Ref k) (f : α → α) :
    (s.modify r f).size = s.size := by
  simp [size, modify]

@[simp] theorem size_add (s : Store k α) (a : α) : (s.add a).2.size = s.size + 1 := by
  simp [size, add]

/-- Changing an object changes what is read there. -/
theorem get_modify_self [Inhabited α] (s : Store k α) (r : Ref k) (f : α → α)
    (h : s.Holds r) : (s.modify r f).get r = f (s.get r) := by
  have h' : r.index < s.cells.size := h
  simp [get, modify, Array.getD, h', Array.getElem_modify]

/-- Changing one object leaves the others alone. -/
theorem get_modify_of_ne [Inhabited α] (s : Store k α) {r r' : Ref k} (f : α → α)
    (h : r' ≠ r) : (s.modify r f).get r' = s.get r' := by
  have h' : r.index ≠ r'.index := fun e => h (by cases r; cases r'; simp_all)
  simp only [get, modify, Array.getD_eq_getD_getElem?, Array.getElem?_modify, if_neg h']

/-- A new object is found under its reference. -/
theorem get_add_self [Inhabited α] (s : Store k α) (a : α) :
    (s.add a).2.get (s.add a).1 = a := by
  simp [get, add, Array.getD]

/-- Making an object leaves the others alone. -/
theorem get_add_of_holds [Inhabited α] (s : Store k α) (a : α) {r : Ref k} (h : s.Holds r) :
    (s.add a).2.get r = s.get r := by
  have h' : r.index < s.cells.size := h
  simp only [get, add, Array.getD_eq_getD_getElem?]
  rw [Array.getElem?_push_lt h']
  simp [h']

end Store

end ScriptVm
