/-!
# Association lists

Names are bound to things in a few places: variables of a context, owners that
a context remembers, positions of interned strings.  An `Assoc` keeps such
bindings in the order in which the names first came, each name once.

Main statements: `get?_insert_self` and `get?_insert_of_ne` (reading over
writing).
-/

namespace ScriptVm

/-- Names with what they are bound to, in order of their first binding. -/
structure Assoc (α : Type) where
  /-- The bindings. -/
  toList : List (String × α)
  deriving DecidableEq, Repr

namespace Assoc

variable {α : Type}

/-- No bindings. -/
def empty : Assoc α := ⟨[]⟩

instance : Inhabited (Assoc α) := ⟨empty⟩

/-- What a name is bound to. -/
def get? (a : Assoc α) (name : String) : Option α :=
  a.toList.lookup name

/-- Whether a name is bound. -/
def contains (a : Assoc α) (name : String) : Bool :=
  (a.get? name).isSome

/-- The number of bindings. -/
def size (a : Assoc α) : Nat :=
  a.toList.length

/-- A list of bindings with one name bound anew, in place or at the end. -/
def insertInto (name : String) (x : α) : List (String × α) → List (String × α)
  | [] => [(name, x)]
  | (n, y) :: rest => if n = name then (n, x) :: rest else (n, y) :: insertInto name x rest

/-- Bind a name, in place if it is bound already. -/
def insert (a : Assoc α) (name : String) (x : α) : Assoc α :=
  ⟨insertInto name x a.toList⟩

@[simp] theorem get?_empty (name : String) : (empty : Assoc α).get? name = none := rfl

@[simp] theorem get?_insert_self (a : Assoc α) (name : String) (x : α) :
    (a.insert name x).get? name = some x := by
  rcases a with ⟨bindings⟩
  simp only [insert, get?]
  induction bindings with
  | nil => simp [insertInto]
  | cons head rest ih =>
    rcases head with ⟨n, y⟩
    by_cases h : n = name
    · simp [insertInto, h]
    · have h' : (name == n) = false := by simpa using fun e => h e.symm
      simp [insertInto, h, List.lookup_cons, h', ih]

theorem get?_insert_of_ne (a : Assoc α) {name other : String} (x : α) (h : other ≠ name) :
    (a.insert name x).get? other = a.get? other := by
  rcases a with ⟨bindings⟩
  simp only [insert, get?]
  have h' : (other == name) = false := by simpa using h
  induction bindings with
  | nil => simp [insertInto, List.lookup_cons, h']
  | cons head rest ih =>
    rcases head with ⟨n, y⟩
    by_cases hn : n = name
    · subst hn
      simp [insertInto, List.lookup_cons, h']
    · simp only [insertInto, hn, if_false, List.lookup_cons, ih]

end Assoc

end ScriptVm
