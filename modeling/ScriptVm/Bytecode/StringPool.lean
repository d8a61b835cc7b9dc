import ScriptVm.Assoc

/-!
# Interned strings

The string constants of a unit are kept once each.  A pool holds them in order
of first use, together with the position of each one.
-/

namespace ScriptVm

/-- The strings of a unit under construction. -/
structure StringPool where
  /-- The strings in order of first use. -/
  strings : Array String
  /-- The position of each string. -/
  positions : Assoc Nat
  deriving DecidableEq, Repr

namespace StringPool

/-- A pool without strings. -/
def empty : StringPool := ⟨#[], .empty⟩

instance : Inhabited StringPool := ⟨empty⟩

/-- The position of a string, and the pool that holds it there. -/
def intern (pool : StringPool) (s : String) : Nat × StringPool :=
  match pool.positions.get? s with
  | some index => (index, pool)
  | none =>
    (pool.strings.size,
      ⟨pool.strings.push s, pool.positions.insert s pool.strings.size⟩)

end StringPool

end ScriptVm
