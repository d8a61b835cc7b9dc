import Mathlib.Data.List.Forall2
import ScriptVm.Operator
import ScriptVm.Proofs.Entries
import ScriptVm.Proofs.Growth
import ScriptVm.Proofs.OrderedMap
import ScriptVm.Proofs.Spelling

/-!
# Heaps up to the identity of coroutines

What a program does does not depend on which coroutine has which reference.  So
two heaps are compared with the coroutines of the one **paired** with coroutines of
the other: the same objects are in the same places, and where a coroutine is
referred to in the one, the coroutine that is paired with it is referred to in the
other.  Such heaps are twins, and so are the values in them.

What a closure's code spells may differ too: a `Likeness` says which addresses of it
are beside each other.

Tables are twins with their entries in one order.  Their buckets may differ, for a
coroutine is hashed by its reference.

A few coroutines may be set aside: they are paired, but what they are is left open.

Main statements: `Table.Twin.find?_eq` (a key is found in the same place) and
`Likeness.le_load` (a likeness goes on as units are loaded).
-/

namespace ScriptVm

variable {α : Type}

/-- **How two heaps are alike.** -/
structure Likeness where
  /-- Which coroutines stand for each other. -/
  pairs : Ref .coroutine → Ref .coroutine → Prop
  /-- The coroutines of the second heap that stand for none of the first. -/
  extra : Ref .coroutine → Prop
  /-- The prototype of a closure: its unit and its index. -/
  home : Ref .function → Option (Ref .unit × Nat)
  /-- Which addresses of a prototype are beside each other, by its unit and its index. -/
  beside : Ref .unit → Nat → Nat → Nat → Prop
  /-- Which words are beside each other. -/
  words : Word → Word → Prop
  /-- Words beside each other mean the same. -/
  alike : ∀ x y, words x y → x.Alike y

namespace Likeness

/-- No coroutine stands for two. -/
def Sharp (T : Likeness) : Prop :=
  ∀ r r' q q', T.pairs r r' → T.pairs q q' → (r = q ↔ r' = q')

/-- Every coroutine stands for itself. -/
def Strict (T : Likeness) : Prop :=
  (∀ r r', T.pairs r r' → r' = r) ∧ ∀ r, ¬ T.extra r

/-- Which addresses of a closure's code are beside each other. -/
def code (T : Likeness) (r : Ref .function) (a a' : Nat) : Prop :=
  ∃ u i, T.home r = some (u, i) ∧ T.beside u i a a'

/-- Code is spelled in one way. -/
def Exact (T : Likeness) : Prop :=
  (∀ x y, T.words x y ↔ y = x) ∧ ∀ u i a a', T.beside u i a a' ↔ a' = a

/-- What is known in the one way is known in the other. -/
structure Within (T U : Likeness) : Prop where
  pairs : ∀ {r r'}, T.pairs r r' → U.pairs r r'
  home : ∀ {r p}, T.home r = some p → U.home r = some p
  beside : ∀ {r u i}, T.home r = some (u, i) → U.beside u i = T.beside u i
  words : U.words = T.words

/-- More coroutines and closures are known. -/
structure Le (T U : Likeness) : Prop extends Within T U where
  extra : U.extra = T.extra
  strict : T.Strict → U.Strict
  exact : T.Exact → U.Exact

instance : LE Likeness := ⟨Le⟩

theorem le_refl (T : Likeness) : T ≤ T :=
  ⟨⟨id, id, fun _ => rfl, rfl⟩, rfl, id, id⟩

theorem le_trans {T U V : Likeness} (h : T ≤ U) (h' : U ≤ V) : T ≤ V :=
  ⟨⟨h'.pairs ∘ h.pairs, h'.home ∘ h.home,
    fun hr => (h'.beside (h.home hr)).trans (h.beside hr), h'.words.trans h.words⟩,
    h'.extra.trans h.extra, h'.strict ∘ h.strict, h'.exact ∘ h.exact⟩

theorem Within.code {T U : Likeness} (h : T.Within U) {r : Ref .function} {a a' : Nat}
    (ha : T.code r a a') : U.code r a a' := by
  obtain ⟨u, i, hhome, hbeside⟩ := ha
  exact ⟨u, i, h.home hhome, h.beside hhome ▸ hbeside⟩

/-- One more pair of coroutines. -/
def pair (T : Likeness) (r r' : Ref .coroutine) : Likeness :=
  { T with pairs := fun q q' => T.pairs q q' ∨ q = r ∧ q' = r' }

/-- One more closure. -/
def settle (T : Likeness) (r : Ref .function) (u : Ref .unit) (i : Nat) : Likeness :=
  { T with home := fun q => if q = r then some (u, i) else T.home q }

/-- Which addresses of a unit are beside each other. -/
def load (T : Likeness) (u : Ref .unit) (beside : Nat → Nat → Nat → Prop) : Likeness :=
  { T with beside := fun v => if v = u then beside else T.beside v }

/-- One coroutine of the second heap stands for none of the first. -/
def spare (T : Likeness) (r' : Ref .coroutine) : Likeness :=
  { T with extra := fun q => q = r' }

theorem within_spare (T : Likeness) (r' : Ref .coroutine) : T.Within (T.spare r') :=
  ⟨id, id, fun _ => rfl, rfl⟩

theorem le_pair {T : Likeness} {r r' : Ref .coroutine} (h : T.Strict → r' = r) :
    T ≤ T.pair r r' where
  pairs := .inl
  home := id
  beside _ := rfl
  words := rfl
  extra := rfl
  exact := id
  strict hT := by
    refine ⟨fun q q' hq => ?_, hT.2⟩
    rcases hq with hq | ⟨rfl, rfl⟩
    · exact hT.1 q q' hq
    · exact h hT

theorem le_settle {T : Likeness} {r : Ref .function} (hnew : T.home r = none) (u : Ref .unit)
    (i : Nat) : T ≤ T.settle r u i where
  pairs := id
  home {q p} hq := by
    have hne : q ≠ r := fun heq => by
      rw [heq, hnew] at hq
      cases hq
    simpa [settle, hne] using hq
  beside _ := rfl
  words := rfl
  extra := rfl
  strict := id
  exact := id

/-- A unit that no closure belongs to. -/
theorem le_load {T : Likeness} {u : Ref .unit} (hnew : ∀ r i, T.home r ≠ some (u, i))
    {beside : Nat → Nat → Nat → Prop}
    (hexact : T.Exact → ∀ i a a', beside i a a' ↔ a' = a) : T ≤ T.load u beside where
  pairs := id
  home := id
  beside {r v i} hr := by
    have hne : v ≠ u := fun heq => hnew r i (heq ▸ hr)
    simp [load, hne]
  words := rfl
  extra := rfl
  strict := id
  exact hT := by
    refine ⟨hT.1, fun v i a a' => ?_⟩
    by_cases hv : v = u
    · simpa [load, hv] using hexact hT i a a'
    · simpa [load, hv] using hT.2 v i a a'

end Likeness

variable {T U : Likeness}

/-! ### Values -/

/-- A value that is the same in two heaps: no coroutine, and a closure only if it is known. -/
structure Value.Plain (T : Likeness) (v : Value) : Prop where
  ne : ∀ r, v ≠ .coroutine r
  known : ∀ r, v = .function r → ∃ p, T.home r = some p

/-- One value as it is in two heaps: paired coroutines, or the same value. -/
inductive Value.Twin (T : Likeness) : Value → Value → Prop
  | coroutine {r r' : Ref .coroutine} (paired : T.pairs r r') :
      Twin T (.coroutine r) (.coroutine r')
  | plain {v : Value} (plain : v.Plain T) : Twin T v v

/-- The values of two lists are twins. -/
abbrev Value.Twins (T : Likeness) : List Value → List Value → Prop :=
  List.Forall₂ (Value.Twin T)

namespace Value.Twin

variable {v v' w w' : Value}

theorem mono (hle : T.Within U) (h : v.Twin T v') : v.Twin U v' := by
  cases h with
  | coroutine paired => exact .coroutine (hle.pairs paired)
  | plain hv =>
    refine .plain ⟨hv.ne, fun r hr => ?_⟩
    obtain ⟨p, hp⟩ := hv.known r hr
    exact ⟨p, hle.home hp⟩

/-- What refers to no coroutine and to no closure. -/
theorem inert {v : Value} (hcoroutine : ∀ r, v ≠ .coroutine r)
    (hfunction : ∀ r, v ≠ .function r) : v.Twin T v :=
  .plain ⟨hcoroutine, fun r hr => absurd hr (hfunction r)⟩

theorem nil : Value.nil.Twin T .nil := .inert nofun nofun

theorem int (i : Int64) : (Value.int i).Twin T (.int i) := .inert nofun nofun

theorem float (bits : UInt64) : (Value.float bits).Twin T (.float bits) :=
  .inert nofun nofun

theorem bool (b : Bool) : (Value.bool b).Twin T (.bool b) := .inert nofun nofun

theorem str (s : String) : (Value.str s).Twin T (.str s) := .inert nofun nofun

theorem table (r : Ref .table) : (Value.table r).Twin T (.table r) :=
  .inert nofun nofun

theorem vector (r : Ref .vector) : (Value.vector r).Twin T (.vector r) :=
  .inert nofun nofun

theorem function {r : Ref .function} {p : Ref .unit × Nat} (h : T.home r = some p) :
    (Value.function r).Twin T (.function r) := by
  refine .plain ⟨nofun, fun q hq => ?_⟩
  cases hq
  exact ⟨p, h⟩

/-- A value of another type than a coroutine is the same in both heaps. -/
theorem eq_of_ne (h : v.Twin T v') (hv : ∀ r, v ≠ .coroutine r) : v' = v := by
  cases h with
  | coroutine paired => exact absurd rfl (hv _)
  | plain _ => rfl

theorem type_eq (h : v.Twin T v') : v'.type = v.type := by cases h <;> rfl

theorem truthy_eq (h : v.Twin T v') : v'.truthy = v.truthy := by cases h <;> rfl

theorem isNil_eq (h : v.Twin T v') : v'.isNil = v.isNil := by cases h <;> rfl

/-- What can be called is the same in both heaps. -/
theorem eq_of_invokable (h : v.Twin T v') (hv : v.invokable) : v' = v :=
  h.eq_of_ne fun r hr => by
    subst hr
    cases hv

theorem invokable_eq (h : v.Twin T v') : v'.invokable = v.invokable := by cases h <;> rfl

/-- A value that may be missing. -/
theorem getD {x y : Option Value} (h : Option.Rel (Value.Twin T) x y) :
    (x.getD .nil).Twin T (y.getD .nil) := by
  cases h with
  | none => exact .nil
  | some hv => exact hv

/-- Identity is the same in both heaps. -/
theorem sameObject_eq (hT : T.Sharp) (hv : v.Twin T v') (hw : w.Twin T w') :
    v'.sameObject w' = v.sameObject w := by
  cases hv with
  | coroutine hr =>
    cases hw with
    | coroutine hq => exact decide_eq_decide.mpr (hT _ _ _ _ hr hq).symm
    | plain hw => cases w <;> first | rfl | exact absurd rfl (hw.ne _)
  | plain hv =>
    cases hw with
    | coroutine hq => cases v <;> first | rfl | exact absurd rfl (hv.ne _)
    | plain hw => rfl

theorem identical_eq (hT : T.Sharp) (hv : v.Twin T v') (hw : w.Twin T w') :
    Operator.identical v' w' = Operator.identical v w := by
  rw [Operator.identical, Operator.identical, hv.type_eq, hw.type_eq, hv.sameObject_eq hT hw]

/-- A unary operator has one native result. -/
theorem unary_eq (h : v.Twin T v') (op : UnaryOp) : Operator.unary op v' = Operator.unary op v := by
  cases h with
  | coroutine _ => cases op <;> rfl
  | plain _ => rfl

end Value.Twin

namespace Value.Twins

variable {vs vs' ws ws' : List Value}

theorem mono (hle : T.Within U) (h : Twins T vs vs') : Twins U vs vs' :=
  h.imp fun _ _ hv => hv.mono hle

theorem append (hv : Twins T vs vs') (hw : Twins T ws ws') : Twins T (vs ++ ws) (vs' ++ ws') :=
  List.rel_append hv hw

/-- The values at one place, if there are values there. -/
theorem getElem? (h : Twins T vs vs') (i : Nat) : Option.Rel (Twin T) vs[i]? vs'[i]? := by
  induction h generalizing i with
  | nil => exact .none
  | cons hv _ ih =>
    cases i with
    | zero => exact .some hv
    | succ i => exact ih i

theorem getLast? (h : Twins T vs vs') : Option.Rel (Twin T) vs.getLast? vs'.getLast? := by
  rw [List.getLast?_eq_getElem?, List.getLast?_eq_getElem?, h.length_eq]
  exact h.getElem? _

theorem dropLast (h : Twins T vs vs') : Twins T vs.dropLast vs'.dropLast := by
  rw [List.dropLast_eq_take, List.dropLast_eq_take, h.length_eq]
  exact List.forall₂_take _ h

theorem set (h : Twins T vs vs') (i : Nat) {v v' : Value} (hv : v.Twin T v') :
    Twins T (vs.set i v) (vs'.set i v') := by
  induction h generalizing i with
  | nil => exact .nil
  | cons hw hrest ih =>
    cases i with
    | zero => exact .cons hv hrest
    | succ i => exact .cons hw (ih i)

theorem replicate (n : Nat) {v v' : Value} (hv : v.Twin T v') :
    Twins T (List.replicate n v) (List.replicate n v') := by
  induction n with
  | zero => exact .nil
  | succ n ih => exact .cons hv ih

end Value.Twins

/-! ### Tables -/

/-- The mark of an entry: a coroutine as a key is hashed by its reference. -/
inductive Mark.Twin (T : Likeness) : UInt64 × Value → UInt64 × Value → Prop
  | coroutine {r r' : Ref .coroutine} (paired : T.pairs r r') :
      Twin T (r.address, .coroutine r) (r'.address, .coroutine r')
  | plain {hash : UInt64} {v : Value} (plain : ∀ r, v ≠ .coroutine r) :
      Twin T (hash, v) (hash, v)

theorem Mark.Twin.mono (hle : T.Within U) {x y : UInt64 × Value}
    (h : Mark.Twin T x y) : Mark.Twin U x y := by
  cases h with
  | coroutine paired => exact .coroutine (hle.pairs paired)
  | plain hv => exact .plain hv

/-- The values of the entries. -/
def Table.contents (t : Table) : List Value :=
  t.entries.toList.map Entry.value

/-- One table as it is in two heaps. -/
structure Table.Twin (T : Likeness) (t t' : Table) : Prop where
  linked : t.Linked
  linked' : t'.Linked
  metatable : t'.metatable = t.metatable
  marks : List.Forall₂ (Mark.Twin T) t.marks t'.marks
  contents : Value.Twins T t.contents t'.contents

namespace Table

theorem length_marks (t : Table) : t.marks.length = t.entries.size := by simp [Table.marks]

theorem marks_getElem? (t : Table) (id : Nat) :
    t.marks[id]? = (t.entries[id]?).map fun e => (e.hash, e.key) := by
  simp [Table.marks]

theorem contents_getElem? (t : Table) (id : Nat) :
    t.contents[id]? = (t.entries[id]?).map Entry.value := by
  simp [Table.contents]

@[simp] theorem metatable_append (t : Table) (hash : UInt64) (key value : Value) :
    (t.append hash key value).metatable = t.metatable := by
  have hrelink (t : Table) (id : Nat) : (t.relink id).metatable = t.metatable := by
    unfold relink
    split <;> rfl
  have hsteps (ids : List Nat) (t : Table) : (ids.foldl relink t).metatable = t.metatable := by
    induction ids generalizing t with
    | nil => rfl
    | cons id ids ih => rw [List.foldl_cons, ih, hrelink]
  show t.makeRoom.metatable = t.metatable
  unfold makeRoom
  split
  · exact hsteps _ _
  · rfl

/-- **What a lookup looks at**: the newest entry that was inserted under the hash of a key and has
an equal one. -/
theorem Linked.find?_eq {t : Table} (h : t.Linked) (keys : KeyComparer) (key : Value) :
    t.find? keys key = ((List.range t.entries.size).reverse.find? fun id =>
      (t.marks[id]?).any fun m => m.1 == keys.hash key && keys.equals key m.2) := by
  rw [find?, h.chain_eq, below_eq, List.find?_filter]
  refine congrArg (List.find? · _) (funext fun id => ?_)
  rw [marks_getElem?, isUnder, hashAt?]
  cases t.entries[id]? with
  | none => rfl
  | some e => simp only [Option.map_some, Option.any_some, Bool.decide_and, Bool.decide_eq_true]

namespace Twin

variable {t t' : Table}

theorem mono (hle : T.Within U) (h : t.Twin T t') : t.Twin U t' :=
  { h with
    marks := h.marks.imp fun _ _ hm => hm.mono hle
    contents := h.contents.mono hle }

theorem empty : Table.empty.Twin T Table.empty :=
  ⟨linked_empty, linked_empty, rfl, .nil, .nil⟩

theorem size_eq (h : t.Twin T t') : t'.entries.size = t.entries.size := by
  rw [← length_marks, ← length_marks, h.marks.length_eq]

theorem marks_rel (h : t.Twin T t') (id : Nat) :
    Option.Rel (Mark.Twin T) t.marks[id]? t'.marks[id]? := by
  have hmarks := h.marks
  generalize t.marks = ms at hmarks
  generalize t'.marks = ms' at hmarks
  induction hmarks generalizing id with
  | nil => exact .none
  | cons hm _ ih =>
    cases id with
    | zero => exact .some hm
    | succ id => exact ih id

end Twin

end Table

/-- A key is compared with the key of an entry as its twin is with that of the twin entry. -/
theorem Mark.Twin.verdict_eq (hT : T.Sharp) {h h' : Heap} (hfunctions : h'.functions = h.functions)
    {key key' : Value} (hkey : key.Twin T key') {m m' : UInt64 × Value} (hm : Mark.Twin T m m') :
    (m'.1 == h'.rawHash key' && h'.rawEquals key' m'.2)
      = (m.1 == h.rawHash key && h.rawEquals key m.2) := by
  have hkeys := Heap.rawKeys_of_functions_eq hfunctions
  have hhash : h'.rawHash = h.rawHash := congrArg KeyComparer.hash hkeys
  have hequals : h'.rawEquals = h.rawEquals := congrArg KeyComparer.equals hkeys
  rw [hhash, hequals]
  cases hkey with
  | @coroutine r r' hr =>
    cases hm with
    | @coroutine q q' hq =>
      have hsame := hT _ _ _ _ hr hq
      show ((q'.address == r'.address) && decide (r' = q'))
        = ((q.address == r.address) && decide (r = q))
      by_cases heq : r = q
      · rw [hsame.mp heq, heq]
        simp
      · simp [heq, mt hsame.mpr heq]
    | @plain hash v hv =>
      have hne (p : Ref .coroutine) : h.rawEquals (.coroutine p) v = false := by
        cases v <;> first | rfl | exact absurd rfl (hv _)
      simp [hne]
  | plain hkey =>
    cases hm with
    | @coroutine q q' hq =>
      have hne (p : Ref .coroutine) : h.rawEquals key (.coroutine p) = false := by
        cases key <;> first | rfl | exact absurd rfl (hkey.ne _)
      simp [hne]
    | plain hv => rfl

namespace Table.Twin

variable {t t' : Table} {h h' : Heap} {key key' value value' : Value}

/-- **A key is found in the same place.** -/
theorem find?_eq (ht : t.Twin T t') (hT : T.Sharp) (hfunctions : h'.functions = h.functions)
    (hkey : key.Twin T key') : t'.find? h'.rawKeys key' = t.find? h.rawKeys key := by
  rw [ht.linked.find?_eq, ht.linked'.find?_eq, ht.size_eq]
  refine congrArg (List.find? · _) (funext fun id => ?_)
  have hmark := ht.marks_rel id
  generalize t.marks[id]? = m at hmark
  generalize t'.marks[id]? = m' at hmark
  cases hmark with
  | none => rfl
  | some hm => exact hm.verdict_eq hT hfunctions hkey

theorem get? (ht : t.Twin T t') (hT : T.Sharp) (hfunctions : h'.functions = h.functions)
    (hkey : key.Twin T key') :
    Option.Rel (Value.Twin T) (t.get? h.rawKeys key) (t'.get? h'.rawKeys key') := by
  rw [Table.get?, Table.get?, ht.find?_eq hT hfunctions hkey]
  cases t.find? h.rawKeys key with
  | none => exact .none
  | some id =>
    rw [Option.bind_some, Option.bind_some, ← contents_getElem?, ← contents_getElem?]
    exact ht.contents.getElem? id

theorem setValue (ht : t.Twin T t') (id : Nat) (hvalue : value.Twin T value') :
    (t.setValue id value).Twin T (t'.setValue id value') where
  linked := ht.linked.setValue id value
  linked' := ht.linked'.setValue id value'
  metatable := ht.metatable
  marks := by
    rw [marks_setValue, marks_setValue]
    exact ht.marks
  contents := by
    have hset (t : Table) (value : Value) :
        (t.setValue id value).contents = t.contents.set id value := by
      refine List.ext_getElem? fun i => ?_
      rw [contents_getElem?, entries_setValue, List.getElem?_set, contents_getElem?, Option.map_map]
      by_cases hi : id = i
      · subst hi
        cases hentry : t.entries[id]? with
        | none =>
          have hout : ¬ id < t.contents.length := by
            simpa [Table.contents] using hentry
          simp [hout]
        | some e =>
          have hin : id < t.contents.length := by
            simpa [Table.contents] using (Array.getElem?_eq_some_iff.mp hentry).1
          simp [hin]
      · cases t.entries[i]? with
        | none => simp [hi]
        | some e => simp [hi, Ne.symm hi]
    rw [hset, hset]
    exact ht.contents.set id hvalue

theorem append (ht : t.Twin T t') {hash hash' : UInt64}
    (hmark : Mark.Twin T (hash, key) (hash', key')) (hvalue : value.Twin T value') :
    (t.append hash key value).Twin T (t'.append hash' key' value') where
  linked := ht.linked.append hash key value
  linked' := ht.linked'.append hash' key' value'
  metatable := by rw [metatable_append, metatable_append, ht.metatable]
  marks := by
    rw [marks_append, marks_append]
    exact List.rel_append ht.marks (.cons hmark .nil)
  contents := by
    rw [Table.contents, Table.contents, map_entries_append fun _ _ => rfl,
      map_entries_append fun _ _ => rfl]
    exact ht.contents.append (.cons hvalue .nil)

/-- A value is stored under a key. -/
theorem put (ht : t.Twin T t') (hT : T.Sharp) (hfunctions : h'.functions = h.functions)
    (hkey : key.Twin T key') (hvalue : value.Twin T value') :
    (t.put (t.find? h.rawKeys key) (h.rawHash key) key value).Twin T
      (t'.put (t'.find? h'.rawKeys key') (h'.rawHash key') key' value') := by
  rw [ht.find?_eq hT hfunctions hkey]
  cases t.find? h.rawKeys key with
  | some id => exact ht.setValue id hvalue
  | none =>
    refine ht.append ?_ hvalue
    cases hkey with
    | coroutine hr => exact .coroutine hr
    | plain hkey =>
      have hhash : h'.rawHash key = h.rawHash key :=
        congrArg (fun keys => keys.hash key) (Heap.rawKeys_of_functions_eq hfunctions)
      rw [hhash]
      exact .plain hkey.ne

end Table.Twin

/-! ### Contexts, stacks and coroutines -/

/-- One context as it is in two heaps. -/
structure Context.Twin (T : Likeness) (c c' : Context) : Prop where
  parent : c'.parent = c.parent
  owners : c'.owners = c.owners
  cells :
    List.Forall₂ (fun x y => y.1 = x.1 ∧ Value.Twin T x.2 y.2) c.cells.toList c'.cells.toList

namespace Context.Twin

variable {c c' : Context} {v v' : Value}

theorem mono (hle : T.Within U) (h : c.Twin T c') : c.Twin U c' :=
  { h with cells := h.cells.imp fun _ _ hx => ⟨hx.1, hx.2.mono hle⟩ }

theorem bare (parent : Option (Ref .context)) :
    Context.Twin T ⟨parent, .empty, .empty⟩ ⟨parent, .empty, .empty⟩ :=
  ⟨rfl, rfl, .nil⟩

theorem get? (h : c.Twin T c') (name : String) :
    Option.Rel (Value.Twin T) (c.cells.get? name) (c'.cells.get? name) := by
  have hcells := h.cells
  unfold Assoc.get?
  generalize c.cells.toList = xs at hcells
  generalize c'.cells.toList = ys at hcells
  induction hcells with
  | nil => exact .none
  | @cons x y xs ys hxy _ ih =>
    rw [List.lookup_cons, List.lookup_cons, hxy.1]
    cases name == x.1 with
    | true => exact .some hxy.2
    | false => exact ih

theorem contains_eq (h : c.Twin T c') (name : String) :
    c'.cells.contains name = c.cells.contains name := by
  have hget := h.get? name
  unfold Assoc.contains
  generalize c.cells.get? name = x at hget
  generalize c'.cells.get? name = y at hget
  cases hget <;> rfl

theorem insert (h : c.Twin T c') (name : String) (hv : v.Twin T v') :
    Context.Twin T { c with cells := c.cells.insert name v }
      { c' with cells := c'.cells.insert name v' } := by
  refine ⟨h.parent, h.owners, ?_⟩
  have hcells := h.cells
  show List.Forall₂ _ (Assoc.insertInto name v c.cells.toList)
    (Assoc.insertInto name v' c'.cells.toList)
  generalize c.cells.toList = xs at hcells
  generalize c'.cells.toList = ys at hcells
  induction hcells with
  | nil => exact .cons ⟨rfl, hv⟩ .nil
  | @cons x y xs ys hxy hrest ih =>
    simp only [Assoc.insertInto, hxy.1]
    split
    · exact .cons ⟨rfl, hv⟩ hrest
    · exact .cons ⟨rfl, hxy.2⟩ ih

end Context.Twin

/-- What a frame runs, as it is in two heaps. -/
inductive Activity.Twin (T : Likeness) : Activity → Activity → Prop
  | bytecode (r : Ref .function) (c : Ref .context) : Twin T (.bytecode r c) (.bytecode r c)
  | async (q : Ref .asyncExternal) (object : Nat) {past past' : List (List Value)}
      (history : List.Forall₂ (Value.Twins T) past past') :
      Twin T (.async ⟨q, object, past⟩) (.async ⟨q, object, past'⟩)

/-- Which addresses are beside each other for a frame with a given activity. -/
def Activity.beside (T : Likeness) : Activity → Nat → Nat → Prop
  | .bytecode r _ => T.code r
  | .async _ => fun a a' => a' = a

/-- The progress of one frame as it is in two heaps.  What jumps is never in the middle of an
instruction. -/
inductive Progress.Twin (T : Likeness) : Progress → Progress → Prop
  | idle {p : Progress} (idle : p.op = .none) : Twin T p p
  | busy {op op' : Op} {imm imm' : Int64} {phase next count : Nat}
      (word : T.words (op, imm) (op', imm'))
      (done : op.jumps → count ≤ 1 ∧ count ≤ next) :
      Twin T ⟨some op, imm, phase, next, count⟩ ⟨some op', imm', phase, next, count⟩

/-- The frame at its next instruction. -/
def Frame.arrive (f : Frame) : Frame :=
  { f with ip := f.nextIp }

/-- The frame with its next instruction elsewhere. -/
def Frame.goTo (a : Nat) (f : Frame) : Frame :=
  { f with nextIp := a }

/-- The frame inside an instruction. -/
def Frame.inside (p : Progress) (f : Frame) : Frame :=
  { f with progress := p }

/-- One frame as it is in two heaps. -/
structure Frame.Twin (T : Likeness) (f f' : Frame) : Prop where
  activity : f.activity.Twin T f'.activity
  ip : f.activity.beside T f.ip f'.ip
  nextIp : f.activity.beside T f.nextIp f'.nextIp
  progress : f.progress.Twin T f'.progress
  rest : f' = { f with
    activity := f'.activity, ip := f'.ip, nextIp := f'.nextIp, progress := f'.progress }

/-- One try mark as it is in two heaps. -/
structure TryMark.Twin (T : Likeness) (x x' : TryMark) : Prop where
  target : ∃ r, T.code r x.target x'.target
  rest : x' = { x with target := x'.target }

/-- The stacks of one coroutine, as they are in two heaps. -/
structure Stacks.Twin (T : Likeness) (s s' : Stacks) : Prop where
  values : Value.Twins T s.values.toList s'.values.toList
  frames : List.Forall₂ (Frame.Twin T) s.frames.toList s'.frames.toList
  delimiters : s'.delimiters.toList = s.delimiters.toList
  marks : List.Forall₂ (TryMark.Twin T) s.marks.toList s'.marks.toList

/-- One coroutine as it is in two heaps. -/
structure Coroutine.Twin (T : Likeness) (c c' : Coroutine) : Prop where
  entry : c.entry.Twin T c'.entry
  entryContext : c'.entryContext = c.entryContext
  state : c'.state = c.state
  config : c'.config = c.config
  memory : c.memory.Twin T c'.memory

theorem Activity.Twin.mono (hle : T.Within U) {a a' : Activity} (h : a.Twin T a') :
    a.Twin U a' := by
  cases h with
  | bytecode r c => exact .bytecode r c
  | async q object history => exact .async q object (history.imp fun _ _ hvs => hvs.mono hle)

theorem Activity.beside_mono (hle : T.Within U) {a : Activity} {ip ip' : Nat}
    (h : a.beside T ip ip') : a.beside U ip ip' := by
  cases a with
  | bytecode r c => exact hle.code h
  | async call => exact h

theorem Progress.Twin.finished_eq {p p' : Progress} (h : p.Twin T p') :
    p'.finished = p.finished := by
  cases h <;> rfl

/-- The phase that is to come is entered. -/
theorem Progress.Twin.advance {p p' : Progress} (h : p.Twin T p') :
    p.advance.Twin T p'.advance := by
  cases h with
  | idle idle => exact .idle idle
  | busy word done => exact .busy word fun hjumps => ⟨(done hjumps).1, Nat.le_refl _⟩

theorem Progress.Twin.mono (hle : T.Within U) {p p' : Progress} (h : p.Twin T p') :
    p.Twin U p' := by
  cases h with
  | idle idle => exact .idle idle
  | busy word done => exact .busy (hle.words ▸ word) done

namespace Frame.Twin

variable {f f' : Frame}

theorem mono (hle : T.Within U) (h : f.Twin T f') : f.Twin U f' :=
  ⟨h.activity.mono hle, Activity.beside_mono hle h.ip, Activity.beside_mono hle h.nextIp,
    h.progress.mono hle, h.rest⟩

theorem inside (h : f.Twin T f') {p p' : Progress} (hp : p.Twin T p') :
    (f.inside p).Twin T (f'.inside p') :=
  ⟨h.activity, h.ip, h.nextIp, hp, congrArg _ h.rest⟩

theorem arrive (h : f.Twin T f') : f.arrive.Twin T f'.arrive :=
  ⟨h.activity, h.nextIp, h.nextIp, h.progress, congrArg _ h.rest⟩

theorem goTo (h : f.Twin T f') {a a' : Nat} (ha : f.activity.beside T a a') :
    (f.goTo a).Twin T (f'.goTo a') :=
  ⟨h.activity, h.ip, ha, h.progress, congrArg _ h.rest⟩

end Frame.Twin

theorem TryMark.Twin.mono (hle : T.Within U) {x x' : TryMark} (h : x.Twin T x') : x.Twin U x' := by
  obtain ⟨r, hcode⟩ := h.target
  exact ⟨⟨r, hle.code hcode⟩, h.rest⟩

namespace Stacks.Twin

variable {s s' : Stacks}

theorem mono (hle : T.Within U) (h : s.Twin T s') : s.Twin U s' :=
  { h with
    values := h.values.mono hle
    frames := h.frames.imp fun _ _ hf => hf.mono hle
    marks := h.marks.imp fun _ _ hx => hx.mono hle }

theorem new (config : Config) : (Stacks.new config).Twin T (Stacks.new config) :=
  ⟨.nil, .nil, rfl, .nil⟩

theorem height_eq (h : s.Twin T s') : s'.values.size = s.values.size := by
  rw [Stack.size_eq_length, Stack.size_eq_length, h.values.length_eq]

theorem frames_size_eq (h : s.Twin T s') : s'.frames.size = s.frames.size := by
  rw [Stack.size_eq_length, Stack.size_eq_length, h.frames.length_eq]

theorem delimiters_size_eq (h : s.Twin T s') : s'.delimiters.size = s.delimiters.size := by
  rw [Stack.size_eq_length, Stack.size_eq_length, h.delimiters]

theorem marks_size_eq (h : s.Twin T s') : s'.marks.size = s.marks.size := by
  rw [Stack.size_eq_length, Stack.size_eq_length, h.marks.length_eq]

theorem last_frame (h : s.Twin T s') :
    Option.Rel (Frame.Twin T) s.frames.last? s'.frames.last? := by
  have hframes := h.frames
  rw [Stack.last?_eq_getLast?, Stack.last?_eq_getLast?, List.getLast?_eq_head?_reverse,
    List.getLast?_eq_head?_reverse]
  have hreverse := List.forall₂_reverse_iff.mpr hframes
  generalize s.frames.toList.reverse = fs at hreverse
  generalize s'.frames.toList.reverse = fs' at hreverse
  cases hreverse with
  | nil => exact .none
  | cons hf _ => exact .some hf

end Stacks.Twin

namespace Coroutine.Twin

variable {c c' : Coroutine}

theorem mono (hle : T.Within U) (h : c.Twin T c') : c.Twin U c' :=
  { h with
    entry := h.entry.mono hle
    memory := h.memory.mono hle }

theorem new {entry entry' : Value} (h : entry.Twin T entry') (context : Option (Ref .context))
    (config : Config) : (Coroutine.new entry context config).Twin T (.new entry' context config) :=
  ⟨h, rfl, rfl, rfl, .new config⟩

end Coroutine.Twin

/-- Whether there is room for the stacks of a new coroutine does not depend on its entry. -/
theorem Coroutine.make_entry (sizes : Sizes) (entry entry' : Value)
    (context : Option (Ref .context)) (config : Config) : Coroutine.make sizes entry' context config
      = (Coroutine.make sizes entry context config).map fun c => { c with entry := entry' } := by
  unfold Coroutine.make
  cases Stacks.reserve sizes config <;> rfl

/-! ### Stores -/

theorem Store.holds_add_iff {k : Kind} {s : Store k α} {a : α} {r : Ref k} :
    (s.add a).2.Holds r ↔ s.Holds r ∨ r = (s.add a).1 := by
  have hsize : (s.add a).2.Holds r ↔ r.index < s.size + 1 := by simp [Store.Holds]
  rw [hsize, Nat.lt_succ_iff_lt_or_eq]
  refine or_congr Iff.rfl ?_
  cases r
  simp [Store.add, Store.size]

/-- No reference leads to an object before it is made. -/
theorem Store.Holds.ne_add {k : Kind} {s : Store k α} {r : Ref k} (h : s.Holds r) (a : α) :
    r ≠ (s.add a).1 := by
  rintro rfl
  exact Nat.lt_irrefl _ h

/-- A new object leaves all other references alone. -/
theorem Store.get_add_of_ne {k : Kind} [Inhabited α] (s : Store k α) (a : α) {r : Ref k}
    (h : r ≠ (s.add a).1) : (s.add a).2.get r = s.get r := by
  have hindex : r.index ≠ s.cells.size := fun e => h (congrArg Ref.mk e)
  simp only [get, add, Array.getD_eq_getD_getElem?, Array.getElem?_push, if_neg hindex]

/-- Two stores of one size, with twins in the same places. -/
structure Store.Twin {k : Kind} [Inhabited α] (R : α → α → Prop) (s s' : Store k α) :
    Prop where
  size : s'.size = s.size
  get : ∀ r, R (s.get r) (s'.get r)

namespace Store.Twin

variable {k : Kind} [Inhabited α] {R Q : α → α → Prop} {s s' : Store k α} {a a' : α}

theorem imp (h : s.Twin R s') (himp : ∀ a b, R a b → Q a b) : s.Twin Q s' :=
  ⟨h.size, fun r => himp _ _ (h.get r)⟩

theorem holds_iff (h : s.Twin R s') {r : Ref k} : s'.Holds r ↔ s.Holds r := by
  rw [Store.Holds, Store.Holds, h.size]

theorem add_fst (h : s.Twin R s') (a a' : α) : (s'.add a').1 = (s.add a).1 :=
  congrArg Ref.mk h.size

theorem add (h : s.Twin R s') (ha : R a a') : (s.add a).2.Twin R (s'.add a').2 := by
  refine ⟨by simp [h.size], fun r => ?_⟩
  by_cases hr : r = (s.add a).1
  · rw [hr, s.get_add_self, ← h.add_fst a a', s'.get_add_self]
    exact ha
  · rw [s.get_add_of_ne a hr, s'.get_add_of_ne a' (h.add_fst a a' ▸ hr)]
    exact h.get r

theorem modify (h : s.Twin R s') (r : Ref k) {φ ψ : α → α}
    (hφ : R (φ (s.get r)) (ψ (s'.get r))) : (s.modify r φ).Twin R (s'.modify r ψ) := by
  refine ⟨by simp [h.size], fun q => ?_⟩
  by_cases hq : q = r
  · subst hq
    by_cases hheld : s.Holds q
    · rw [s.get_modify_self q φ hheld, s'.get_modify_self q ψ (h.holds_iff.mpr hheld)]
      exact hφ
    · have hnone (s : Store k α) (φ : α → α) (hr : ¬ s.Holds q) :
        (s.modify q φ).get q = s.get q := by
        have hout : ¬ q.index < s.cells.size := hr
        simp [Store.get, Store.modify, Array.getD, hout]
      rw [hnone s φ hheld, hnone s' ψ (mt h.holds_iff.mp hheld)]
      exact h.get q
  · rw [s.get_modify_of_ne φ hq, s'.get_modify_of_ne ψ hq]
    exact h.get q

end Store.Twin

end ScriptVm
