import ScriptVm.Proofs.Twins

/-!
# Heaps up to the identity of coroutines and to the spelling of code

Two heaps are twins if the same objects are in the same places, up to which
coroutines stand for each other and to how code is spelled.  What is known of the
closures that are there tells which addresses of their code are beside each other.

A few coroutines may be set aside: they are paired, but what they are is left open.

Main statements: one lemma for each operation of the heap, such as
`Heap.Twin.writeEntry` and `Heap.Twin.readVariable`.  Where something new is made,
more is known afterwards (`Heap.Twin.newCoroutine`, `Heap.Twin.addFunction`,
`Heap.Twin.newUnit`).
-/

namespace ScriptVm

variable {α : Type} {T : Likeness} {S : Ref .coroutine → Prop}

/-- A unit with a function is there. -/
theorem Heap.holds_unit {h : Heap} {u : Ref .unit} {i : Nat} (hi : i < (h.unit u).prototypes.size) :
    h.units.Holds u := by
  by_contra hnone
  have hdefault : h.unit u = default := by
    have hout : ¬ u.index < h.units.cells.size := hnone
    simp [Heap.unit, Store.get, Array.getD, hout]
  rw [hdefault] at hi
  exact Nat.not_lt_zero i hi

/-- **Two heaps that are alike.**  The coroutines of `S` are set aside: what they are is left
open. -/
structure Heap.Twin (T : Likeness) (S : Ref .coroutine → Prop) (h h' : Heap) : Prop where
  sharp : T.Sharp
  units : ∀ u, (h.unit u).Twin (T.beside u) T.words (h'.unit u)
  /-- There are as many units. -/
  counted : h'.units.size = h.units.size
  functions : h'.functions = h.functions
  /-- The units of closures are there. -/
  loaded : ∀ r, h.functions.Holds r → h.units.Holds (h.function r).unit
  /-- The closures that are there are known. -/
  home : ∀ r p, T.home r = some p ↔
    h.functions.Holds r ∧ ((h.function r).unit, (h.function r).index) = p
  contexts : h.contexts.Twin (Context.Twin T) h'.contexts
  tables : h.tables.Twin (Table.Twin T) h'.tables
  vectors : h.vectors.Twin (fun a b => Value.Twins T a.toList b.toList) h'.vectors
  /-- All coroutines are paired. -/
  total : ∀ r, h.coroutines.Holds r → ∃ r', T.pairs r r'
  /-- All but a few coroutines of the second heap are paired. -/
  onto : ∀ r', h'.coroutines.Holds r' → (∃ r, T.pairs r r') ∨ T.extra r'
  /-- Those few are there, and stand for none. -/
  lone : ∀ r', T.extra r' → h'.coroutines.Holds r' ∧ ∀ r, ¬ T.pairs r r'
  /-- What is paired is there. -/
  held : ∀ r r', T.pairs r r' → h.coroutines.Holds r ∧ h'.coroutines.Holds r'
  coroutines : ∀ r r', T.pairs r r' → ¬ S r → (h.coroutine r).Twin T (h'.coroutine r')

namespace Heap.Twin

variable {h h' : Heap} {v v' w w' : Value} {vs vs' : List Value}

/-! #### What is read -/

section

variable (hh : h.Twin T S h')
include hh

theorem context (c : Ref .context) : (h.context c).Twin T (h'.context c) := hh.contexts.get c

theorem table (t : Ref .table) : (h.table t).Twin T (h'.table t) := hh.tables.get t

theorem vector (r : Ref .vector) : Value.Twins T (h.vector r).toList (h'.vector r).toList :=
  hh.vectors.get r

theorem function_eq (r : Ref .function) : h'.function r = h.function r :=
  congrArg (fun s : Store .function Closure => s.get r) hh.functions

/-- The prototype of a closure has two spellings. -/
theorem prototype (r : Ref .function) :
    (h.prototype r).Twin (T.beside (h.function r).unit (h.function r).index) T.words
      (h'.prototype r) := by
  rw [Heap.prototype, Heap.prototype, hh.function_eq]
  exact (hh.units _).prototype _

/-- The code of a closure that is known has two spellings. -/
theorem code {r : Ref .function} {a a' : Nat} (ha : T.code r a a') :
    Code.Twin (T.code r) T.words (h.prototype r).code (h'.prototype r).code := by
  obtain ⟨u, i, hhome, -⟩ := ha
  have hcode : T.code r = T.beside (h.function r).unit (h.function r).index := by
    obtain ⟨-, hp⟩ := (hh.home _ _).mp hhome
    cases hp
    refine funext fun a => funext fun a' =>
      propext ⟨?_, fun hbeside => ⟨_, _, hhome, hbeside⟩⟩
    rintro ⟨u, i, hhome', hbeside⟩
    cases hhome.symm.trans hhome'
    exact hbeside
  rw [hcode]
  exact (hh.prototype r).code

/-- The first address of a closure that is known. -/
theorem code_zero {r : Ref .function} {p : Ref .unit × Nat} (hr : T.home r = some p) :
    T.code r 0 0 := by
  refine ⟨p.1, p.2, hr, ?_⟩
  obtain ⟨-, rfl⟩ := (hh.home _ _).mp hr
  exact ((hh.units _).prototype _).code.start

theorem name_eq (r : Ref .function) : (h'.prototype r).name = (h.prototype r).name :=
  (hh.prototype r).name

theorem displayItem_eq (hv : v.Twin T v') : h'.displayItem v' = h.displayItem v := by
  cases hv with
  | coroutine _ => rfl
  | plain _ => cases v <;> simp only [Heap.displayItem, hh.name_eq]

/-- A text does not tell where an object lives. -/
theorem display_eq (hv : v.Twin T v') : h'.display v' = h.display v := by
  have hitem := hh.displayItem_eq hv
  cases hv with
  | coroutine _ => rfl
  | plain _ =>
    cases v with
    | vector r =>
      have hitems : (h'.vector r).toList.map h'.displayItem
        = (h.vector r).toList.map h.displayItem := by
        have hvector := hh.vector r
        generalize (h.vector r).toList = vs at hvector
        generalize (h'.vector r).toList = vs' at hvector
        induction hvector with
        | nil => rfl
        | cons hv _ ih => rw [List.map_cons, List.map_cons, hh.displayItem_eq hv, ih]
      simp only [Heap.display, hitems]
    | _ => exact hitem

theorem mismatch_eq (expected : ValueType) (hv : v.Twin T v') :
    h'.mismatch expected v' = h.mismatch expected v := by
  rw [Heap.mismatch, Heap.mismatch, hv.type_eq, hh.display_eq hv]

/-- A demand for a type that is not that of coroutines. -/
theorem demand_eq (demand : Heap → Value → Except Fault α) {expected : ValueType}
    (hother : ∀ (h : Heap) r,
      demand h (.coroutine r) = .error (h.mismatch expected (.coroutine r)))
    (hplain : ∀ v : Value, v.Plain T → demand h' v = demand h v) (hv : v.Twin T v') :
    demand h' v' = demand h v := by
  cases hv with
  | coroutine paired => rw [hother, hother, hh.mismatch_eq expected (.coroutine paired)]
  | plain hv => exact hplain v hv

theorem integer_eq (hv : v.Twin T v') : h'.integer v' = h.integer v := by
  refine hh.demand_eq Heap.integer (fun _ _ => rfl) (fun v hv => ?_) hv
  cases v <;> first | rfl | exact congrArg Except.error (hh.mismatch_eq _ (.plain hv))

theorem string_eq (hv : v.Twin T v') : h'.string v' = h.string v := by
  refine hh.demand_eq Heap.string (fun _ _ => rfl) (fun v hv => ?_) hv
  cases v <;> first | rfl | exact congrArg Except.error (hh.mismatch_eq _ (.plain hv))

theorem asTable_eq (hv : v.Twin T v') : h'.asTable v' = h.asTable v := by
  refine hh.demand_eq Heap.asTable (fun _ _ => rfl) (fun v hv => ?_) hv
  cases v <;> first | rfl | exact congrArg Except.error (hh.mismatch_eq _ (.plain hv))

theorem asVector_eq (hv : v.Twin T v') : h'.asVector v' = h.asVector v := by
  refine hh.demand_eq Heap.asVector (fun _ _ => rfl) (fun v hv => ?_) hv
  cases v <;> first | rfl | exact congrArg Except.error (hh.mismatch_eq _ (.plain hv))

theorem asFunction_eq (hv : v.Twin T v') : h'.asFunction v' = h.asFunction v := by
  refine hh.demand_eq Heap.asFunction (fun _ _ => rfl) (fun v hv => ?_) hv
  cases v <;> first | rfl | exact congrArg Except.error (hh.mismatch_eq _ (.plain hv))

theorem asCoroutine (hv : v.Twin T v') : Replies T.pairs (h.asCoroutine v) (h'.asCoroutine v') := by
  cases hv with
  | coroutine paired => exact .ok paired
  | plain hv =>
    have hfault := hh.mismatch_eq .coroutine (.plain hv)
    cases v with
    | coroutine r => exact absurd rfl (hv.ne r)
    | _ =>
      simp only [Heap.asCoroutine, hfault]
      exact .error _

theorem metatableOf_eq (hv : v.Twin T v') : Exec.metatableOf h' v' = Exec.metatableOf h v := by
  have htable := hh.asTable_eq hv
  cases hv with
  | coroutine _ => simp only [Exec.metatableOf, htable]
  | plain _ => cases v <;> first | rfl | simp only [Exec.metatableOf, htable]

/-- What a coroutine can be made over. -/
theorem coroutineEntry (hv : v.Twin T v') :
    Replies (Value.Twin T) (Exec.coroutineEntry h v) (Exec.coroutineEntry h' v') := by
  have hfault := hh.mismatch_eq .function hv
  cases hv with
  | coroutine _ =>
    simp only [Exec.coroutineEntry, hfault]
    exact .error _
  | plain hv =>
    cases v with
    | function r => exact .ok (.plain hv)
    | asyncFn r => exact .ok (.plain hv)
    | _ =>
      simp only [Exec.coroutineEntry, hfault]
      exact .error _

theorem readEntry (t : Ref .table) (hv : v.Twin T v') :
    Option.Rel (Value.Twin T) (h.readEntry t v) (h'.readEntry t v') :=
  (hh.table t).get? hh.sharp hh.functions hv

/-- The metamethods of a table are no coroutines. -/
theorem tableMethod_eq (t : Ref .table) (name : String) :
    h'.tableMethod t name = h.tableMethod t name := by
  rw [Heap.tableMethod, Heap.tableMethod, (hh.table t).metatable]
  cases (h.table t).metatable with
  | none => rfl
  | some m =>
    have hentry := hh.readEntry m (.str name)
    rw [Option.bind_some, Option.bind_some]
    generalize h.readEntry m (.str name) = x at hentry
    generalize h'.readEntry m (.str name) = y at hentry
    cases hentry with
    | none => rfl
    | @some v v' hv =>
      rw [Option.filter, Option.filter, hv.invokable_eq]
      cases hinvokable : v.invokable with
      | true => rw [hv.eq_of_invokable hinvokable]
      | false => rfl

theorem tableMethod {t : Ref .table} {name : String} {method : Value}
    (hmethod : h.tableMethod t name = some method) : method.Twin T method := by
  obtain ⟨hfound, hinvokable⟩ := Option.filter_eq_some_iff.mp hmethod
  obtain ⟨m, hm, hfound⟩ := Option.bind_eq_some_iff.mp hfound
  have hentry := hh.readEntry m (.str name)
  rw [hfound] at hentry
  generalize h'.readEntry m (.str name) = y at hentry
  cases hentry with
  | some hv =>
    have hsame := hv.eq_of_invokable hinvokable
    subst hsame
    exact hv

theorem methodIf {t : Ref .table} {name : String} {method : Value} {through : Bool}
    (hmethod : (if through then h.tableMethod t name else none) = some method) :
    method.Twin T method := by
  split at hmethod
  · exact hh.tableMethod hmethod
  · cases hmethod

theorem metamethod_eq (hv : v.Twin T v') (name : String) :
    h'.metamethod v' name = h.metamethod v name := by
  cases hv with
  | coroutine _ => rfl
  | plain _ =>
    cases v with
    | table t => exact hh.tableMethod_eq t name
    | _ => rfl

theorem metamethod {v method : Value} {name : String}
    (hmethod : h.metamethod v name = some method) : method.Twin T method := by
  cases v with
  | table t => exact hh.tableMethod hmethod
  | _ => cases hmethod

theorem binaryMethod_eq (hv : v.Twin T v') (hw : w.Twin T w') (name : String) (latterFirst : Bool) :
    h'.binaryMethod v' w' name latterFirst = h.binaryMethod v w name latterFirst := by
  cases latterFirst <;>
    simp only [Heap.binaryMethod, hh.metamethod_eq hv, hh.metamethod_eq hw, if_true, if_false,
      Bool.false_eq_true]

theorem binaryMethod {v w method : Value} {name : String} {latterFirst : Bool}
    (hmethod : h.binaryMethod v w name latterFirst = some method) : method.Twin T method := by
  cases latterFirst <;>
    rcases Option.or_eq_some_iff.mp hmethod with hfound | ⟨-, hfound⟩ <;>
      exact hh.metamethod hfound

theorem overloadMethod_eq (op : BinaryOp) (hv : v.Twin T v') (hw : w.Twin T w') :
    h'.overloadMethod op v' w' = h.overloadMethod op v w := by
  simp only [Heap.overloadMethod, Overload.order]
  split
  · exact hh.binaryMethod_eq hw hv _ _
  · exact hh.binaryMethod_eq hv hw _ _

theorem overloadMethod {op : BinaryOp} {v w method : Value}
    (hmethod : h.overloadMethod op v w = some method) : method.Twin T method :=
  hh.binaryMethod hmethod

/-- A binary operator has one native result. -/
theorem binary_eq (op : BinaryOp) (hv : v.Twin T v') (hw : w.Twin T w') :
    Operator.binary h' op v' w' = Operator.binary h op v w := by
  have hclosure (a b : Ref .function) : h'.sameClosure a b = h.sameClosure a b := by
    rw [Heap.sameClosure, Heap.sameClosure, hh.function_eq, hh.function_eq]
  cases hv with
  | coroutine _ =>
    cases hw with
    | coroutine _ => cases op <;> rfl
    | plain _ => cases op <;> cases w <;> rfl
  | plain _ =>
    cases hw with
    | coroutine _ => cases op <;> cases v <;> rfl
    | plain _ =>
      cases op with
      | equ => cases v <;> cases w <;> simp only [Operator.binary, Operator.nativeEquals?, hclosure]
      | neq => cases v <;> cases w <;> simp only [Operator.binary, Operator.nativeEquals?, hclosure]
      | _ => rfl

theorem lineage_eq (c : Ref .context) : h'.lineage c = h.lineage c := by
  fun_induction Heap.lineage h c with
  | case1 c hparent =>
    rw [Heap.lineage, (hh.context c).parent, hparent]
  | case2 c p hparent hlt ih =>
    rw [Heap.lineage, (hh.context c).parent, hparent]
    simp only [if_pos hlt, ih]
  | case3 c p hparent hlt =>
    rw [Heap.lineage, (hh.context c).parent, hparent]
    simp only [if_neg hlt]

theorem root_eq (c : Ref .context) : h'.root c = h.root c := by
  rw [Heap.root, Heap.root, hh.lineage_eq]

end

/-! #### What is written -/

section

variable (hh : h.Twin T S h')
include hh

theorem newContext (parent : Option (Ref .context)) :
    (h'.newContext parent).1 = (h.newContext parent).1 ∧
      (h.newContext parent).2.Twin T S (h'.newContext parent).2 :=
  ⟨congrArg Ref.mk hh.contexts.size, { hh with contexts := hh.contexts.add (.bare parent) }⟩

theorem newTable : h'.newTable.1 = h.newTable.1 ∧ h.newTable.2.Twin T S h'.newTable.2 :=
  ⟨congrArg Ref.mk hh.tables.size, { hh with tables := hh.tables.add .empty }⟩

theorem newVector (hvs : Value.Twins T vs vs') :
    (h'.newVector vs').1 = (h.newVector vs).1 ∧ (h.newVector vs).2.Twin T S
    (h'.newVector vs').2 :=
  ⟨congrArg Ref.mk hh.vectors.size, { hh with vectors := hh.vectors.add (by simpa using hvs) }⟩

theorem setMetatable (t : Ref .table) (metatable : Option (Ref .table)) :
    (h.modifyTable t fun table => { table with metatable }).Twin T S
      (h'.modifyTable t fun table => { table with metatable }) := by
  have ht := hh.table t
  refine { hh with tables := hh.tables.modify t ⟨?_, ?_, rfl, ht.marks, ht.contents⟩ }
  · exact ht.linked.congr rfl (fun _ _ => rfl) fun _ _ => rfl
  · exact ht.linked'.congr rfl (fun _ _ => rfl) fun _ _ => rfl

/-- A value is stored in a table. -/
theorem writeEntry (t : Ref .table) (hv : v.Twin T v') (hw : w.Twin T w') :
    (h.writeEntry t v w).Twin T S (h'.writeEntry t v' w') :=
  { hh with tables := hh.tables.modify t ((hh.table t).put hh.sharp hh.functions hv hw) }

theorem modifyVector (r : Ref .vector) {φ ψ : Array Value → Array Value}
    (hφ : Value.Twins T (φ (h.vector r)).toList (ψ (h'.vector r)).toList) :
    (h.modifyVector r φ).Twin T S (h'.modifyVector r ψ) :=
  { hh with vectors := hh.vectors.modify r hφ }

/-- A closure is bound, and has the prototype that it had. -/
theorem bind (r : Ref .function) (c : Ref .context) : (h.bind r c).Twin T S (h'.bind r c) := by
  refine { hh with
    functions := congrArg (fun s : Store .function Closure => s.modify r _) hh.functions
    loaded := fun q hq => ?_
    home := fun q p => ?_ }
  all_goals
    have hholds : (h.bind r c).functions.Holds q ↔ h.functions.Holds q := by
      simp [Heap.bind, Heap.modifyFunction, Store.Holds]
  · rw [hholds] at hq
    obtain ⟨-, hunit, -⟩ := (Heap.Move.bind (h := h) r c).retains.functions q hq
    rw [hunit]
    exact hh.loaded q hq
  · rw [hh.home q p, hholds]
    refine and_congr_right fun hq => ?_
    obtain ⟨-, hunit, hindex⟩ := (Heap.Move.bind (h := h) r c).retains.functions q hq
    rw [hunit, hindex]

theorem createVariable (c : Ref .context) (name : String) (hv : v.Twin T v') :
    (h.createVariable c name v).Twin T S (h'.createVariable c name v') :=
  { hh with contexts := hh.contexts.modify c ((hh.context c).insert name hv) }

theorem rememberOwner (c : Ref .context) (name : String) (owner : Ref .context) :
    (h.rememberOwner c name owner).Twin T S (h'.rememberOwner c name owner) := by
  have hc := hh.context c
  refine { hh with contexts := hh.contexts.modify c ⟨hc.parent, ?_, hc.cells⟩ }
  exact congrArg (fun owners : Assoc (Ref .context) => owners.insert name owner) hc.owners

theorem declareVariables (c : Ref .context) (names : List String) :
    (h.declareVariables c names).Twin T S (h'.declareVariables c names) := by
  unfold Heap.declareVariables
  induction names generalizing h h' with
  | nil => exact hh
  | cons name names ih =>
    rw [List.foldl_cons, List.foldl_cons]
    refine ih ?_
    rw [Heap.owns, Heap.owns, (hh.context c).contains_eq]
    split
    · exact hh
    · exact hh.createVariable c name .nil

/-- **The owner of a variable** is the same context, and the heaps are twins after the lookup. -/
theorem ownerOf (c : Ref .context) (name : String) :
    (h'.ownerOf c name).1 = (h.ownerOf c name).1 ∧
      (h.ownerOf c name).2.Twin T S (h'.ownerOf c name).2 := by
  have hown (c : Ref .context) := (hh.context c).contains_eq name
  have howners (c : Ref .context) := (hh.context c).owners
  have hparent (c : Ref .context) := (hh.context c).parent
  have hcreate (c : Ref .context) := hh.createVariable c name .nil
  fun_induction Heap.ownerOf h c name with
  | case1 c ctx here =>
    rw [Heap.ownerOf, hown c, if_pos here]
    exact ⟨rfl, hh⟩
  | case2 c ctx here owner remembered =>
    rw [Heap.ownerOf, hown c, if_neg here, howners c]
    simp only [ctx] at remembered
    simp only [remembered]
    exact ⟨trivial, hh⟩
  | case3 c ctx here forgotten top =>
    rw [Heap.ownerOf, hown c, if_neg here, howners c, hparent c]
    simp only [ctx] at forgotten top
    simp only [forgotten, top]
    exact ⟨trivial, hcreate c⟩
  | case4 c ctx here forgotten p parent older owner found hfound ih =>
    rw [Heap.ownerOf, hown c, if_neg here, howners c, hparent c]
    simp only [ctx] at forgotten parent
    simp only [forgotten, parent, if_pos older]
    obtain ⟨hsame, htwin⟩ := ih
    rw [hfound] at hsame htwin
    rw [hsame]
    exact ⟨rfl, htwin.rememberOwner c name owner⟩
  | case5 c ctx here forgotten p parent younger =>
    rw [Heap.ownerOf, hown c, if_neg here, howners c, hparent c]
    simp only [ctx] at forgotten parent
    simp only [forgotten, parent, if_neg younger]
    exact ⟨trivial, hcreate c⟩

theorem readVariable (c : Ref .context) (name : String) :
    (h.readVariable c name).1.Twin T (h'.readVariable c name).1 ∧
      (h.readVariable c name).2.Twin T S (h'.readVariable c name).2 := by
  obtain ⟨hsame, htwin⟩ := hh.ownerOf c name
  refine ⟨?_, htwin⟩
  have hget := (htwin.context (h.ownerOf c name).1).get? name
  show (((h.ownerOf c name).2.context (h.ownerOf c name).1).cells.get? name |>.getD .nil).Twin T
    (((h'.ownerOf c name).2.context (h'.ownerOf c name).1).cells.get? name |>.getD .nil)
  rw [hsame]
  exact .getD hget

theorem writeVariable (c : Ref .context) (name : String) (hv : v.Twin T v') :
    (h.writeVariable c name v).Twin T S (h'.writeVariable c name v') := by
  obtain ⟨hsame, htwin⟩ := hh.ownerOf c name
  show ((h.ownerOf c name).2.createVariable (h.ownerOf c name).1 name v).Twin T S
    ((h'.ownerOf c name).2.createVariable (h'.ownerOf c name).1 name v')
  rw [hsame]
  exact htwin.createVariable _ name hv

/-- A closure that is not there is not known. -/
theorem home_eq_none {r : Ref .function} (hr : ¬ h.functions.Holds r) : T.home r = none := by
  cases hhome : T.home r with
  | none => rfl
  | some p => exact absurd ((hh.home r p).mp hhome).1 hr

/-- **A new closure** is the same one in both heaps, and becomes known. -/
theorem addFunction (closure : Closure) (hunit : h.units.Holds closure.unit) :
    (h'.functions.add closure).1 = (h.functions.add closure).1 ∧
      T ≤ T.settle (h.functions.add closure).1 closure.unit closure.index ∧
      Heap.Twin (T.settle (h.functions.add closure).1 closure.unit closure.index) S
        { h with functions := (h.functions.add closure).2 }
        { h' with functions := (h'.functions.add closure).2 } := by
  have hfresh : ¬ h.functions.Holds (h.functions.add closure).1 := Nat.lt_irrefl _
  have hle := Likeness.le_settle (hh.home_eq_none hfresh) closure.unit closure.index
  have hkept {q : Ref .function} (hheld : h.functions.Holds q) :
      (h.functions.add closure).2.get q = h.function q := h.functions.get_add_of_holds closure hheld
  rw [hh.functions]
  refine ⟨rfl, hle, { hh with
    functions := rfl
    loaded := fun q hq => ?_
    contexts := hh.contexts.imp fun _ _ hx => hx.mono hle.toWithin
    tables := hh.tables.imp fun _ _ hx => hx.mono hle.toWithin
    vectors := hh.vectors.imp fun _ _ hx => hx.mono hle.toWithin
    coroutines := fun r r' hr hS => (hh.coroutines r r' hr hS).mono hle.toWithin
    home := fun q p => ?_ }⟩
  · show h.units.Holds ((h.functions.add closure).2.get q).unit
    rcases Store.holds_add_iff.mp hq with hheld | rfl
    · rw [hkept hheld]
      exact hh.loaded q hheld
    · rw [Store.get_add_self]
      exact hunit
  show (if q = (h.functions.add closure).1 then some (closure.unit, closure.index) else T.home q)
    = some p ↔ (h.functions.add closure).2.Holds q ∧ (((h.functions.add closure).2.get q).unit,
      ((h.functions.add closure).2.get q).index) = p
  by_cases hq : q = (h.functions.add closure).1
  · subst hq
    have hheld : (h.functions.add closure).2.Holds (h.functions.add closure).1 := by
      simp [Store.Holds, Store.add, Store.size]
    rw [if_pos rfl, Store.get_add_self, Option.some_inj]
    exact (and_iff_right hheld).symm
  · have hholds : (h.functions.add closure).2.Holds q ↔ h.functions.Holds q := by
      refine Iff.trans ?_ (Store.holds_add_iff.trans (or_iff_left hq))
      exact Iff.rfl
    rw [if_neg hq, hh.home q p, hholds]
    refine and_congr_right fun hheld => ?_
    rw [hkept hheld]

/-- **A new unit**, in two spellings. -/
theorem newUnit {u u' : CodeUnit} {beside : Nat → Nat → Nat → Prop}
    (hu : u.Twin beside T.words u') (hexact : T.Exact → ∀ i a a', beside i a a' ↔ a' = a) :
    (h'.newUnit u').1 = (h.newUnit u).1 ∧ T ≤ T.load (h.newUnit u).1 beside ∧
      (h.newUnit u).2.Twin (T.load (h.newUnit u).1 beside) S (h'.newUnit u').2 := by
  have hsame : (h'.newUnit u').1 = (h.newUnit u).1 := congrArg Ref.mk hh.counted
  have hfresh {v : Ref .unit} (hv : h.units.Holds v) : v ≠ (h.newUnit u).1 := hv.ne_add u
  have hle : T ≤ T.load (h.newUnit u).1 beside := by
    refine Likeness.le_load (fun r i hr => ?_) hexact
    obtain ⟨hheld, hp⟩ := (hh.home _ _).mp hr
    exact hfresh (hh.loaded r hheld) (congrArg Prod.fst hp)
  refine ⟨hsame, hle, { hh with
    units := fun v => ?_
    counted := by simp [Heap.newUnit, hh.counted]
    loaded := fun r hr => Store.holds_add_iff.mpr (.inl (hh.loaded r hr))
    contexts := hh.contexts.imp fun _ _ hx => hx.mono hle.toWithin
    tables := hh.tables.imp fun _ _ hx => hx.mono hle.toWithin
    vectors := hh.vectors.imp fun _ _ hx => hx.mono hle.toWithin
    coroutines := fun r r' hr hS => (hh.coroutines r r' hr hS).mono hle.toWithin }⟩
  show ((h.units.add u).2.get v).Twin (if v = (h.newUnit u).1 then beside else T.beside v) T.words
    ((h'.units.add u').2.get v)
  by_cases hv : v = (h.newUnit u).1
  · have hself : (h.units.add u).2.get v = u := hv ▸ h.units.get_add_self u
    have hself' : (h'.units.add u').2.get v = u' :=
      (hv.trans hsame.symm) ▸ h'.units.get_add_self u'
    rw [if_pos hv, hself, hself']
    exact hu
  · have hv' : v ≠ (h'.newUnit u').1 := hsame ▸ hv
    rw [if_neg hv, h.units.get_add_of_ne u hv, h'.units.get_add_of_ne u' hv']
    exact hh.units v

/-- A new closure can be made in both heaps or in none. -/
theorem newFunction (unit : Ref .unit) (index : Nat) (parent : Option (Ref .context)) :
    (∃ d, h.newFunction unit index parent = .error d ∧
      h'.newFunction unit index parent = .error d) ∨
      ∃ r g g', h.newFunction unit index parent = .ok (r, g) ∧
        h'.newFunction unit index parent = .ok (r, g') ∧ T ≤ T.settle r unit index ∧
        g.Twin (T.settle r unit index) S g' := by
  simp only [Heap.newFunction, (hh.units unit).size]
  split
  · next hindex =>
    obtain ⟨hsame, hle, htwin⟩ :=
      hh.addFunction ⟨unit, index, parent⟩ (Heap.holds_unit hindex)
    exact .inr ⟨_, _, _, rfl, congrArg (fun r => Except.ok (r, _)) hsame, hle, htwin⟩
  · exact .inl ⟨_, rfl, rfl⟩

/-- The entry function of a unit can be made in both heaps or in none. -/
theorem entryFunction (unit : Ref .unit) (parent : Option (Ref .context)) :
    (∃ e, h.entryFunction unit parent = .error e ∧ h'.entryFunction unit parent = .error e) ∨
      ∃ r g g', h.entryFunction unit parent = .ok (r, g) ∧
        h'.entryFunction unit parent = .ok (r, g') ∧ T ≤ T.settle r unit (h.unit unit).entry ∧
        g.Twin (T.settle r unit (h.unit unit).entry) S g' := by
  simp only [Heap.entryFunction, (hh.units unit).size, (hh.units unit).entry]
  split
  · next hindex =>
    obtain ⟨hsame, hle, htwin⟩ :=
      hh.addFunction ⟨unit, (h.unit unit).entry, parent⟩ (Heap.holds_unit hindex)
    exact .inr ⟨_, _, _, rfl, congrArg (fun r => Except.ok (r, _)) hsame, hle, htwin⟩
  · exact .inl ⟨_, rfl, rfl⟩

/-- What is alike need not be set aside. -/
theorem free {S' : Ref .coroutine → Prop}
    (halike : ∀ r r', T.pairs r r' → ¬ S' r → S r →
      (h.coroutine r).Twin T (h'.coroutine r')) :
    h.Twin T S' h' := by
  refine { hh with coroutines := fun r r' hr hS' => ?_ }
  by_cases hS : S r
  · exact halike r r' hr hS' hS
  · exact hh.coroutines r r' hr hS

/-- A coroutine that is set aside may be changed in the first heap. -/
theorem modifyLeft {r : Ref .coroutine} (hr : S r) (φ : Coroutine → Coroutine) :
    (h.modifyCoroutine r φ).Twin T S h' :=
  { hh with
    total := fun q hq => hh.total q (by simpa [Heap.modifyCoroutine, Store.Holds] using hq)
    held := fun q q' hq => by simpa [Heap.modifyCoroutine, Store.Holds] using hh.held q q' hq
    coroutines := fun q q' hq hS => by
      have hne : q ≠ r := fun heq => hS (heq ▸ hr)
      have hother : (h.modifyCoroutine r φ).coroutine q = h.coroutine q :=
        Store.get_modify_of_ne _ _ hne
      rw [hother]
      exact hh.coroutines q q' hq hS }

/-- A coroutine may be changed in the second heap that stands for none, or for one that is set
aside. -/
theorem modifyRight {r' : Ref .coroutine} (hr' : ∀ r, T.pairs r r' → S r)
    (ψ : Coroutine → Coroutine) : h.Twin T S (h'.modifyCoroutine r' ψ) :=
  { hh with
    onto := fun q hq => hh.onto q (by simpa [Heap.modifyCoroutine, Store.Holds] using hq)
    lone := fun q hq => by simpa [Heap.modifyCoroutine, Store.Holds] using hh.lone q hq
    held := fun q q' hq => by simpa [Heap.modifyCoroutine, Store.Holds] using hh.held q q' hq
    coroutines := fun q q' hq hS => by
      have hne : q' ≠ r' := fun heq => hS (hr' q (heq ▸ hq))
      have hother : (h'.modifyCoroutine r' ψ).coroutine q' = h'.coroutine q' :=
        Store.get_modify_of_ne _ _ hne
      rw [hother]
      exact hh.coroutines q q' hq hS }

/-- Paired coroutines are changed. -/
theorem modifyCoroutine {r r' : Ref .coroutine} (hr : T.pairs r r')
    {φ ψ : Coroutine → Coroutine}
    (hφ : ¬ S r → (φ (h.coroutine r)).Twin T (ψ (h'.coroutine r'))) :
    (h.modifyCoroutine r φ).Twin T S (h'.modifyCoroutine r' ψ) where
  sharp := hh.sharp
  units := hh.units
  counted := hh.counted
  functions := hh.functions
  loaded := hh.loaded
  contexts := hh.contexts
  tables := hh.tables
  vectors := hh.vectors
  home := hh.home
  total q hq := hh.total q (by simpa [Heap.modifyCoroutine, Store.Holds] using hq)
  onto q hq := hh.onto q (by simpa [Heap.modifyCoroutine, Store.Holds] using hq)
  lone q hq := by simpa [Heap.modifyCoroutine, Store.Holds] using hh.lone q hq
  held q q' hq := by simpa [Heap.modifyCoroutine, Store.Holds] using hh.held q q' hq
  coroutines q q' hq hS := by
    obtain ⟨hheld, hheld'⟩ := hh.held r r' hr
    have hsame := hh.sharp _ _ _ _ hq hr
    by_cases heq : q = r
    · obtain rfl := heq
      obtain rfl := hsame.mp rfl
      have hself : (h.modifyCoroutine q φ).coroutine q = φ (h.coroutine q) :=
        Store.get_modify_self _ _ _ hheld
      have hself' : (h'.modifyCoroutine q' ψ).coroutine q' = ψ (h'.coroutine q') :=
        Store.get_modify_self _ _ _ hheld'
      rw [hself, hself']
      exact hφ hS
    · have hother : (h.modifyCoroutine r φ).coroutine q = h.coroutine q :=
        Store.get_modify_of_ne _ _ heq
      have hother' : (h'.modifyCoroutine r' ψ).coroutine q' = h'.coroutine q' :=
        Store.get_modify_of_ne _ _ (mt hsame.mpr heq)
      rw [hother, hother']
      exact hh.coroutines q q' hq hS

/-- In strict twins the same coroutines are there, so the next one has the same reference. -/
theorem newCoroutine_same (strict : T.Strict) (c c' : Coroutine) :
    (h'.newCoroutine c').1 = (h.newCoroutine c).1 := by
  have hholds (r : Ref .coroutine) : h.coroutines.Holds r ↔ h'.coroutines.Holds r := by
    constructor
    · intro hr
      obtain ⟨r', hr'⟩ := hh.total r hr
      exact strict.1 r r' hr' ▸ (hh.held r r' hr').2
    · intro hr
      obtain ⟨q, hq⟩ | hextra := hh.onto r hr
      · exact strict.1 q r hq ▸ (hh.held q r hq).1
      · exact absurd hextra (strict.2 r)
  have hle {s s' : Store .coroutine Coroutine} (h : ∀ r, s.Holds r → s'.Holds r) :
      s.size ≤ s'.size :=
    Nat.le_of_not_lt fun hlt => Nat.lt_irrefl _ (h ⟨s'.size⟩ hlt)
  exact congrArg Ref.mk (Nat.le_antisymm (hle fun r => (hholds r).mpr) (hle fun r => (hholds r).mp))

/-- **New coroutines** are paired with each other. -/
theorem newCoroutine {c c' : Coroutine} (hc : c.Twin T c') :
    T ≤ T.pair (h.newCoroutine c).1 (h'.newCoroutine c').1 ∧
      (h.newCoroutine c).2.Twin (T.pair (h.newCoroutine c).1 (h'.newCoroutine c').1) S
        (h'.newCoroutine c').2 := by
  have hle := Likeness.le_pair fun strict => hh.newCoroutine_same strict c c'
  refine ⟨hle, {
    sharp := ?_
    units := hh.units
    counted := hh.counted
    functions := hh.functions
    loaded := hh.loaded
    home := hh.home
    contexts := hh.contexts.imp fun _ _ hx => hx.mono hle.toWithin
    tables := hh.tables.imp fun _ _ hx => hx.mono hle.toWithin
    vectors := hh.vectors.imp fun _ _ hx => hx.mono hle.toWithin
    total := fun r hr => ?_
    onto := fun r hr => ?_
    lone := fun r hr => ?_
    held := fun r r' hr => ?_
    coroutines := fun r r' hr hS => ?_ }⟩
  · rintro r r' q q' (hr | ⟨rfl, rfl⟩) (hq | ⟨rfl, rfl⟩)
    · exact hh.sharp _ _ _ _ hr hq
    · obtain ⟨hheld, hheld'⟩ := hh.held _ _ hr
      exact iff_of_false (hheld.ne_add c) (hheld'.ne_add c')
    · obtain ⟨hheld, hheld'⟩ := hh.held _ _ hq
      exact iff_of_false (hheld.ne_add c).symm (hheld'.ne_add c').symm
    · exact iff_of_true rfl rfl
  · rcases Store.holds_add_iff.mp hr with hr | rfl
    · obtain ⟨r', hr'⟩ := hh.total r hr
      exact ⟨r', .inl hr'⟩
    · exact ⟨_, .inr ⟨rfl, rfl⟩⟩
  · rcases Store.holds_add_iff.mp hr with hr | rfl
    · obtain ⟨q, hq⟩ | hextra := hh.onto r hr
      · exact .inl ⟨q, .inl hq⟩
      · exact .inr hextra
    · exact .inl ⟨_, .inr ⟨rfl, rfl⟩⟩
  · obtain ⟨hheld, hnone⟩ := hh.lone r hr
    refine ⟨Store.holds_add_iff.mpr (.inl hheld), fun q hq => ?_⟩
    rcases hq with hq | ⟨-, rfl⟩
    · exact hnone q hq
    · exact hheld.ne_add c' rfl
  · rcases hr with hr | ⟨rfl, rfl⟩
    · obtain ⟨hheld, hheld'⟩ := hh.held _ _ hr
      exact ⟨Store.holds_add_iff.mpr (.inl hheld), Store.holds_add_iff.mpr (.inl hheld')⟩
    · exact ⟨Store.holds_add_iff.mpr (.inr rfl), Store.holds_add_iff.mpr (.inr rfl)⟩
  · rcases hr with hr | ⟨rfl, rfl⟩
    · obtain ⟨hheld, hheld'⟩ := hh.held _ _ hr
      have hold : (h.newCoroutine c).2.coroutine r = h.coroutine r :=
        Store.get_add_of_holds _ _ hheld
      have hold' : (h'.newCoroutine c').2.coroutine r' = h'.coroutine r' :=
        Store.get_add_of_holds _ _ hheld'
      rw [hold, hold']
      exact (hh.coroutines r r' hr hS).mono hle.toWithin
    · have hself : (h.newCoroutine c).2.coroutine (h.newCoroutine c).1 = c :=
        Store.get_add_self _ _
      have hself' : (h'.newCoroutine c').2.coroutine (h'.newCoroutine c').1 = c' :=
        Store.get_add_self _ _
      rw [hself, hself']
      exact hc.mono hle.toWithin

/-- **A new coroutine of the second heap** stands for none of the first. -/
theorem newSpare (hnone : ∀ r, ¬ T.extra r) (c' : Coroutine) :
    h.Twin (T.spare (h'.newCoroutine c').1) S (h'.newCoroutine c').2 := by
  have hwithin := T.within_spare (h'.newCoroutine c').1
  exact {
    sharp := hh.sharp
    units := hh.units
    counted := hh.counted
    functions := hh.functions
    loaded := hh.loaded
    home := hh.home
    contexts := hh.contexts.imp fun _ _ hx => hx.mono hwithin
    tables := hh.tables.imp fun _ _ hx => hx.mono hwithin
    vectors := hh.vectors.imp fun _ _ hx => hx.mono hwithin
    total := hh.total
    onto := fun r hr => by
      rcases Store.holds_add_iff.mp hr with hr | rfl
      · exact .inl ((hh.onto r hr).resolve_right (hnone r))
      · exact .inr rfl
    lone := fun r hr => by
      obtain rfl : r = (h'.newCoroutine c').1 := hr
      exact ⟨Store.holds_add_iff.mpr (.inr rfl), fun q hq => (hh.held q _ hq).2.ne_add c' rfl⟩
    held := fun r r' hr => by
      obtain ⟨hheld, hheld'⟩ := hh.held r r' hr
      exact ⟨hheld, Store.holds_add_iff.mpr (.inl hheld')⟩
    coroutines := fun r r' hr hS => by
      have hold' : (h'.newCoroutine c').2.coroutine r' = h'.coroutine r' :=
        Store.get_add_of_holds _ _ (hh.held r r' hr).2
      rw [hold']
      exact (hh.coroutines r r' hr hS).mono hwithin }

end

end Heap.Twin

end ScriptVm
