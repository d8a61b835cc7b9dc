import ScriptVm.Table.Growth
import ScriptVm.Value

/-!
# Hash tables

Entries stand in the order of their insertion.  A bucket holds the newest entry
of its chain, and every entry links to the next older one of the same bucket.
When as many entries as buckets are in use, the next insertion first moves to a
larger bucket count and links all entries anew, oldest first.

How keys are hashed and compared is not built in: a `KeyComparer` says it.

A link always leads to an older entry.  That is why the walk along a chain,
`links`, comes to an end.

Main statements: `toList_resize` (growing keeps all entries and their order) and
`toList_append` (a new entry comes last).
-/

namespace ScriptVm

/-- How the keys of a table are hashed and compared. -/
structure KeyComparer where
  /-- The hash of a key. -/
  hash : Value → UInt64
  /-- Whether two keys are the same. -/
  equals : Value → Value → Bool

/-- A key and its value, with the hash of the key at the time of insertion. -/
structure Entry where
  /-- The hash the entry was inserted under. -/
  hash : UInt64
  /-- The next older entry of the same bucket. -/
  next : Option Nat
  /-- The key. -/
  key : Value
  /-- The value stored under the key. -/
  value : Value
  deriving DecidableEq, Repr

/-- A hash table. -/
structure Table where
  /-- The newest entry of each bucket. -/
  buckets : Array (Option Nat)
  /-- The entries in order of insertion. -/
  entries : Array Entry
  /-- The table that supplies metamethods. -/
  metatable : Option (Ref .table)
  deriving DecidableEq, Repr

namespace Table

/-- A table without entries and without metatable. -/
def empty : Table :=
  ⟨Array.replicate firstPrime none, #[], none⟩

instance : Inhabited Table := ⟨empty⟩

/-- The number of entries. -/
def size (t : Table) : Nat :=
  t.entries.size

/-- The number of buckets. -/
def bucketCount (t : Table) : Nat :=
  t.buckets.size

/-- The keys and values in order of insertion. -/
def toList (t : Table) : List (Value × Value) :=
  t.entries.toList.map fun e => (e.key, e.value)

/-- The keys in order of insertion. -/
def keys (t : Table) : List Value :=
  t.entries.toList.map Entry.key

/-- The bucket of a hash. -/
def bucketOf (t : Table) (hash : UInt64) : Nat :=
  hash.toNat % t.buckets.size

/-- The entry that an entry links to. -/
def link? (t : Table) (id : Nat) : Option Nat :=
  (t.entries[id]?).bind Entry.next

/-- The chain from an entry on: the entry, the one it links to, and so on. -/
def links (t : Table) (id : Nat) : List Nat :=
  match t.link? id with
  | some older => if older < id then id :: links t older else [id]
  | none => [id]

/-- The entries that were inserted under `hash`, newest first. -/
def chain (t : Table) (hash : UInt64) : List Nat :=
  match t.buckets[t.bucketOf hash]? with
  | some (some newest) =>
    (t.links newest).filter fun id => (t.entries[id]?).any fun e => e.hash == hash
  | _ => []

/-- The entry whose key is the given one. -/
def find? (t : Table) (keys : KeyComparer) (key : Value) : Option Nat :=
  (t.chain (keys.hash key)).find? fun id =>
    (t.entries[id]?).any fun e => keys.equals key e.key

/-- The value stored under a key. -/
def get? (t : Table) (keys : KeyComparer) (key : Value) : Option Value :=
  (t.find? keys key).bind fun id => (t.entries[id]?).map Entry.value

/-- Put the entry `id` in front of its chain. -/
def relink (t : Table) (id : Nat) : Table :=
  match t.entries[id]? with
  | some e =>
    let bucket := t.bucketOf e.hash
    let next := (t.buckets[bucket]?).join
    { t with
      entries := t.entries.setIfInBounds id { e with next }
      buckets := t.buckets.setIfInBounds bucket (some id) }
  | none => t

/-- The table with another bucket count, its entries linked anew in order of insertion. -/
def resize (t : Table) (count : Nat) : Table :=
  (List.range t.entries.size).foldl relink { t with buckets := Array.replicate count none }

/-- The table with room for one more entry: it grows when every bucket's worth is used. -/
def makeRoom (t : Table) : Table :=
  if t.buckets.size ≤ t.entries.size then t.resize (nextPrime (t.buckets.size * 2)) else t

/-- Append an entry under a hash, whether or not the key is there. -/
def append (t : Table) (hash : UInt64) (key value : Value) : Table :=
  let t := t.makeRoom
  let id := t.entries.size
  let bucket := t.bucketOf hash
  let next := (t.buckets[bucket]?).join
  { t with
    entries := t.entries.push { hash, next, key, value }
    buckets := t.buckets.setIfInBounds bucket (some id) }

/-- Replace the value of an entry. -/
def setValue (t : Table) (id : Nat) (value : Value) : Table :=
  { t with entries := t.entries.modify id fun e => { e with value } }

/-- Store a value in the entry that was found for its key, or in a new one. -/
def put (t : Table) (found : Option Nat) (hash : UInt64) (key value : Value) : Table :=
  match found with
  | some id => t.setValue id value
  | none => t.append hash key value

/-- Store a value under a key: in the entry of that key, or in a new one. -/
def insert (t : Table) (keys : KeyComparer) (key value : Value) : Table :=
  t.put (t.find? keys key) (keys.hash key) key value

/-! ### What the operations do to the entries -/

/-- Linking an entry anew changes no key and no value. -/
@[simp] theorem toList_relink (t : Table) (id : Nat) : (t.relink id).toList = t.toList := by
  unfold relink
  split
  · next e he =>
    obtain ⟨hid, rfl⟩ := Array.getElem?_eq_some_iff.mp he
    simp only [toList, Array.toList_setIfInBounds, List.map_set]
    apply List.ext_getElem?
    intro i
    rw [List.getElem?_set]
    split
    · next h =>
      subst h
      simp [hid]
    · rfl
  · rfl

/-- Another bucket count changes no key and no value. -/
@[simp] theorem toList_resize (t : Table) (count : Nat) : (t.resize count).toList = t.toList := by
  have step (ids : List Nat) (t : Table) : (ids.foldl relink t).toList = t.toList := by
    induction ids generalizing t with
    | nil => rfl
    | cons id ids ih => rw [List.foldl_cons, ih, toList_relink]
  exact step _ _

@[simp] theorem toList_makeRoom (t : Table) : t.makeRoom.toList = t.toList := by
  unfold makeRoom
  split
  · exact toList_resize _ _
  · rfl

/-- A new entry comes last. -/
@[simp] theorem toList_append (t : Table) (hash : UInt64) (key value : Value) :
    (t.append hash key value).toList = t.toList ++ [(key, value)] := by
  rw [← toList_makeRoom t]
  simp [append, toList]

/-- The text that sums a table up. -/
def summary (t : Table) : String :=
  "Table \x7b len: " ++ toString t.size ++ ", buckets: " ++ toString t.bucketCount
    ++ ", has_metatable: " ++ (if t.metatable.isSome then "true" else "false") ++ " \x7d"

end Table

end ScriptVm
