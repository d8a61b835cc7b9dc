import ScriptVm.Host
import ScriptVm.Operator
import ScriptVm.Proofs.Assembly
import ScriptVm.Proofs.Growth
import ScriptVm.Proofs.OrderedMap
import ScriptVm.Proofs.Scopes

/-!
# Closures of some sort

Values refer to closures.  Where all references lead to closures of some sort, so
do those of everything that is read from the heap, and of the heap after a change
that only stores what was found.

`Among good` says of a value, of stacks or of a heap that no closure is referred to
but good ones; for a `Whole` heap these are all that are there and have prototypes
of some sort.  It may be any sort, so that nothing is dangling (`Heap.There`), or
the sort that can be run (`Heap.Runnable`).

Main statements: the lemmas of `Heap.Among` and `Heap.Whole`, one for each way to
read or to change the heap, and `Operator.scalar_binary`.
-/

namespace ScriptVm

variable {σ α : Type} {good good' : Ref .function → Prop} {fit : Prototype → Prop}

/-! ### References to closures -/

/-- A value that refers to no closure but good ones. -/
def Value.Among (good : Ref .function → Prop) (v : Value) : Prop :=
  ∀ r, v = .function r → good r

/-- Values that refer to no closures but good ones. -/
def Value.AllAmong (good : Ref .function → Prop) (vs : List Value) : Prop :=
  ∀ v ∈ vs, v.Among good

def Table.Among (good : Ref .function → Prop) (t : Table) : Prop :=
  ∀ key value, (key, value) ∈ t.toList → key.Among good ∧ value.Among good

def Context.Among (good : Ref .function → Prop) (c : Context) : Prop :=
  ∀ name v, c.cells.get? name = some v → v.Among good

/-- A frame that runs a good closure, or has been given no others. -/
def Frame.Among (good : Ref .function → Prop) (f : Frame) : Prop :=
  match f.activity with
  | .bytecode r _ => good r
  | .async call => ∀ args ∈ call.history, Value.AllAmong good args

structure Stacks.Among (good : Ref .function → Prop) (s : Stacks) : Prop where
  values : Value.AllAmong good s.values.toList
  frames : ∀ f ∈ s.frames.toList, f.Among good

structure Coroutine.Among (good : Ref .function → Prop) (c : Coroutine) : Prop where
  entry : c.state = .initial → c.entry.Among good
  memory : c.memory.Among good

structure Heap.Among (good : Ref .function → Prop) (h : Heap) : Prop where
  tables : ∀ t, (h.table t).Among good
  vectors : ∀ v, Value.AllAmong good (h.vector v).toList
  contexts : ∀ c, (h.context c).Among good
  coroutines : ∀ r, (h.coroutine r).Among good

namespace Value

variable {v : Value} {vs ws : List Value}

/-- Every value that is no closure. -/
theorem Among.plain (h : ∀ r, v ≠ .function r) : v.Among good :=
  fun r hr => absurd hr (h r)

theorem Among.mono (hle : ∀ r, good r → good' r) (h : v.Among good) : v.Among good' :=
  fun r hr => hle r (h r hr)

@[simp] theorem among_nil : Among good .nil := .plain nofun
@[simp] theorem among_int (i : Int64) : Among good (.int i) := .plain nofun
@[simp] theorem among_float (bits : UInt64) : Among good (.float bits) := .plain nofun
@[simp] theorem among_bool (b : Bool) : Among good (.bool b) := .plain nofun
@[simp] theorem among_str (s : String) : Among good (.str s) := .plain nofun
@[simp] theorem among_table (r : Ref .table) : Among good (.table r) := .plain nofun
@[simp] theorem among_vector (r : Ref .vector) : Among good (.vector r) := .plain nofun
@[simp] theorem among_coroutine (r : Ref .coroutine) : Among good (.coroutine r) := .plain nofun

theorem among_function {r : Ref .function} : Among good (.function r) ↔ good r := by
  refine ⟨fun h => h r rfl, fun h q hq => ?_⟩
  cases hq
  exact h

namespace AllAmong

theorem nil : AllAmong good [] := fun _ hv => absurd hv List.not_mem_nil

theorem cons (hv : v.Among good) (hvs : AllAmong good vs) : AllAmong good (v :: vs) :=
  List.forall_mem_cons.mpr ⟨hv, hvs⟩

theorem append (hvs : AllAmong good vs) (hws : AllAmong good ws) : AllAmong good (vs ++ ws) := by
  intro v hv
  rcases List.mem_append.mp hv with hv | hv
  · exact hvs v hv
  · exact hws v hv

/-- Some of the values. -/
theorem some (hvs : AllAmong good vs) (h : ws ⊆ vs) : AllAmong good ws :=
  fun v hv => hvs v (h hv)

theorem mono (hle : ∀ r, good r → good' r) (h : AllAmong good vs) : AllAmong good' vs :=
  fun v hv => (h v hv).mono hle

end AllAmong

end Value

theorem Frame.Among.mono (hle : ∀ r, good r → good' r) {f : Frame} (h : f.Among good) :
    f.Among good' := by
  unfold Frame.Among at h ⊢
  split
  · next hf =>
    rw [hf] at h
    exact hle _ h
  · next hf =>
    rw [hf] at h
    exact fun args hargs => (h args hargs).mono hle

namespace Stacks.Among

variable {s : Stacks}

theorem mono (hle : ∀ r, good r → good' r) (h : s.Among good) : s.Among good' :=
  ⟨h.values.mono hle, fun f hf => (h.frames f hf).mono hle⟩

theorem new (config : Config) : (Stacks.new config).Among good :=
  ⟨.nil, fun _ hf => absurd hf List.not_mem_nil⟩

theorem clear (s : Stacks) : s.clear.Among good :=
  ⟨.nil, fun _ hf => absurd hf List.not_mem_nil⟩

theorem last (h : s.Among good) {f : Frame} (hf : s.frames.last? = some f) : f.Among good := by
  rw [Stack.last?_eq_getLast?] at hf
  exact h.frames f (List.mem_of_getLast? hf)

end Stacks.Among

/-! ### The heap -/

namespace Stack

variable {s : Stack α} {φ : α → α}

theorem last?_modifyLast : (s.modifyLast φ).last? = s.last?.map φ := by
  rw [last?_eq_getLast?, last?_eq_getLast?]
  rcases List.eq_nil_or_concat s.toList with hnil | ⟨below, a, hlist⟩
  · have hitems : s.items = #[] := Array.toList_eq_nil_iff.mp hnil
    simp [modifyLast, toList, hitems]
  · rw [List.concat_eq_append] at hlist
    rw [toList_modifyLast hlist, hlist]
    simp

/-- A stack with its top slot changed has the slots it had, and the new one. -/
theorem mem_modifyLast {b : α} (hb : b ∈ (s.modifyLast φ).toList) :
    b ∈ s.toList ∨ ∃ a, s.last? = some a ∧ b = φ a := by
  rcases List.eq_nil_or_concat s.toList with hnil | ⟨below, a, hlist⟩
  · have hitems : s.items = #[] := Array.toList_eq_nil_iff.mp hnil
    simp [modifyLast, toList, hitems] at hb
  · rw [List.concat_eq_append] at hlist
    rw [toList_modifyLast hlist, List.mem_append, List.mem_singleton] at hb
    rcases hb with hold | rfl
    · exact .inl (hlist ▸ List.mem_append_left _ hold)
    · exact .inr ⟨a, last?_of_toList hlist, rfl⟩

end Stack

namespace Store

variable {kind : Kind} [Inhabited α] {s : Store kind α} {P : α → Prop}

theorem all_add (hs : ∀ q, P (s.get q)) {a : α} (ha : P a) (q : Ref kind) :
    P ((s.add a).2.get q) := by
  rcases s.get_add_cases a q with heq | heq
  · rw [heq]
    exact hs q
  · rw [heq]
    exact ha

theorem all_modify (hs : ∀ q, P (s.get q)) {r : Ref kind} {φ : α → α}
    (hφ : P (φ (s.get r))) (q : Ref kind) : P ((s.modify r φ).get q) := by
  by_cases hq : q = r
  · subst hq
    rcases s.get_modify_cases φ q q with heq | heq
    · rw [heq]
      exact hs q
    · rw [heq]
      exact hφ
  · rw [s.get_modify_of_ne φ hq]
    exact hs q

end Store

namespace Table.Among

variable {t : Table}

theorem empty : Table.empty.Among good := fun _ _ h => absurd h List.not_mem_nil

/-- What is found in a table is in it. -/
theorem get? (h : t.Among good) {keys : KeyComparer} {key value : Value}
    (hget : t.get? keys key = some value) : value.Among good := by
  obtain ⟨id, -, hid⟩ := Option.bind_eq_some_iff.mp hget
  obtain ⟨e, he, rfl⟩ := Option.map_eq_some_iff.mp hid
  exact (h e.key e.value ((mem_toList t).mpr ⟨id, e, he, rfl, rfl⟩)).2

theorem put (h : t.Among good) (found : Option Nat) (hash : UInt64) {key value : Value}
    (hkey : key.Among good) (hvalue : value.Among good) :
    (t.put found hash key value).Among good := by
  intro x y hxy
  cases found with
  | none =>
    rw [Table.put, toList_append, List.mem_append, List.mem_singleton] at hxy
    rcases hxy with hxy | hxy
    · exact h x y hxy
    · cases hxy
      exact ⟨hkey, hvalue⟩
  | some id =>
    obtain ⟨i, e, he, rfl, rfl⟩ := (mem_toList _).mp hxy
    rw [Table.put, entries_setValue] at he
    obtain ⟨e', he', rfl⟩ := Option.map_eq_some_iff.mp he
    have hold := h _ _ ((mem_toList t).mpr ⟨i, e', he', rfl, rfl⟩)
    split
    · exact ⟨hold.1, hvalue⟩
    · exact hold

end Table.Among

namespace Heap.Among

variable {h : Heap}

theorem empty : Heap.empty.Among good where
  tables _ _ _ h := absurd h List.not_mem_nil
  vectors _ := .nil
  contexts _ _ _ h := by cases h
  coroutines _ := ⟨fun _ => Value.among_nil, .new .standard⟩

theorem mono (hle : ∀ r, good r → good' r) (hh : h.Among good) : h.Among good' where
  tables t key value hmem := ⟨(hh.tables t key value hmem).1.mono hle,
    (hh.tables t key value hmem).2.mono hle⟩
  vectors v := (hh.vectors v).mono hle
  contexts c name v hv := (hh.contexts c name v hv).mono hle
  coroutines r := ⟨fun hinitial => ((hh.coroutines r).entry hinitial).mono hle,
    (hh.coroutines r).memory.mono hle⟩

/-- Units and closures do not count. -/
theorem congr (hh : h.Among good) {h' : Heap} (htables : h'.tables = h.tables)
    (hvectors : h'.vectors = h.vectors) (hcontexts : h'.contexts = h.contexts)
    (hcoroutines : h'.coroutines = h.coroutines) : h'.Among good where
  tables t := by
    unfold Heap.table
    rw [htables]
    exact hh.tables t
  vectors v := by
    unfold Heap.vector
    rw [hvectors]
    exact hh.vectors v
  contexts c := by
    unfold Heap.context
    rw [hcontexts]
    exact hh.contexts c
  coroutines r := by
    unfold Heap.coroutine
    rw [hcoroutines]
    exact hh.coroutines r

theorem modifyTable (hh : h.Among good) (t : Ref .table) {φ : Table → Table}
    (hφ : ∀ u : Table, u.Among good → (φ u).Among good) :
    (h.modifyTable t φ).Among good where
  tables := Store.all_modify hh.tables (hφ _ (hh.tables _))
  vectors := hh.vectors
  contexts := hh.contexts
  coroutines := hh.coroutines

theorem newTable (hh : h.Among good) : h.newTable.2.Among good where
  tables := Store.all_add hh.tables .empty
  vectors := hh.vectors
  contexts := hh.contexts
  coroutines := hh.coroutines

theorem writeEntry (hh : h.Among good) (t : Ref .table) {key value : Value} (hkey : key.Among good)
    (hvalue : value.Among good) : (h.writeEntry t key value).Among good :=
  hh.modifyTable t fun _ hu => hu.put _ _ hkey hvalue

theorem modifyVector (hh : h.Among good) (v : Ref .vector) {φ : Array Value → Array Value}
    (hφ : ∀ items : Array Value, Value.AllAmong good items.toList →
      Value.AllAmong good (φ items).toList) :
    (h.modifyVector v φ).Among good where
  tables := hh.tables
  vectors := Store.all_modify (P := fun items : Array Value => Value.AllAmong good items.toList)
    hh.vectors (hφ _ (hh.vectors v))
  contexts := hh.contexts
  coroutines := hh.coroutines

theorem newVector (hh : h.Among good) {items : List Value} (hitems : Value.AllAmong good items) :
    (h.newVector items).2.Among good where
  tables := hh.tables
  vectors := Store.all_add (P := fun items : Array Value => Value.AllAmong good items.toList)
    hh.vectors hitems
  contexts := hh.contexts
  coroutines := hh.coroutines

theorem modifyContext (hh : h.Among good) (c : Ref .context) {φ : Context → Context}
    (hφ : ∀ d : Context, d.Among good → (φ d).Among good) :
    (h.modifyContext c φ).Among good where
  tables := hh.tables
  vectors := hh.vectors
  contexts := Store.all_modify hh.contexts (hφ _ (hh.contexts _))
  coroutines := hh.coroutines

theorem newContext (hh : h.Among good) (parent : Option (Ref .context)) :
    (h.newContext parent).2.Among good where
  tables := hh.tables
  vectors := hh.vectors
  contexts := Store.all_add hh.contexts fun _ _ hv => by cases hv
  coroutines := hh.coroutines

theorem createVariable (hh : h.Among good) (c : Ref .context) (name : String) {value : Value}
    (hvalue : value.Among good) : (h.createVariable c name value).Among good := by
  refine hh.modifyContext c fun d hd other v hv => ?_
  by_cases heq : other = name
  · subst heq
    rw [Assoc.get?_insert_self] at hv
    cases hv
    exact hvalue
  · rw [Assoc.get?_insert_of_ne _ _ heq] at hv
    exact hd other v hv

theorem declareVariables (hh : h.Among good) (c : Ref .context) (names : List String) :
    (h.declareVariables c names).Among good := by
  unfold Heap.declareVariables
  induction names generalizing h with
  | nil => exact hh
  | cons name rest ih =>
    rw [List.foldl_cons]
    split
    · exact ih hh
    · exact ih (hh.createVariable c name Value.among_nil)

/-- Looking a variable up may make it, with the value nil. -/
theorem ownerOf (hh : h.Among good) (c : Ref .context) (name : String) :
    (h.ownerOf c name).2.Among good := by
  fun_induction Heap.ownerOf h c name with
  | case1 => exact hh
  | case2 => exact hh
  | case3 => exact hh.createVariable _ _ Value.among_nil
  | case4 _ _ _ _ _ _ _ owner h' hrec ih =>
    rw [hrec] at ih
    exact Heap.Among.modifyContext ih _ fun _ hd => hd
  | case5 => exact hh.createVariable _ _ Value.among_nil

theorem readVariable (hh : h.Among good) (c : Ref .context) (name : String) :
    (h.readVariable c name).1.Among good ∧ (h.readVariable c name).2.Among good := by
  refine ⟨?_, hh.ownerOf c name⟩
  unfold Heap.readVariable
  dsimp only
  cases hget : ((h.ownerOf c name).2.context (h.ownerOf c name).1).cells.get? name with
  | none => exact Value.among_nil
  | some v => exact (hh.ownerOf c name).contexts _ name v hget

theorem writeVariable (hh : h.Among good) (c : Ref .context) (name : String) {value : Value}
    (hvalue : value.Among good) : (h.writeVariable c name value).Among good :=
  (hh.ownerOf c name).createVariable _ name hvalue

theorem modifyCoroutine (hh : h.Among good) (r : Ref .coroutine) {φ : Coroutine → Coroutine}
    (hφ : (φ (h.coroutine r)).Among good) : (h.modifyCoroutine r φ).Among good where
  tables := hh.tables
  vectors := hh.vectors
  contexts := hh.contexts
  coroutines := Store.all_modify hh.coroutines hφ

theorem newCoroutine (hh : h.Among good) {c : Coroutine} (hc : c.Among good) :
    (h.newCoroutine c).2.Among good where
  tables := hh.tables
  vectors := hh.vectors
  contexts := hh.contexts
  coroutines := Store.all_add hh.coroutines hc

theorem bind (hh : h.Among good) (r : Ref .function) (c : Ref .context) : (h.bind r c).Among good :=
  hh.congr rfl rfl rfl rfl

theorem readEntry (hh : h.Among good) {t : Ref .table} {key value : Value}
    (hget : h.readEntry t key = some value) : value.Among good :=
  (hh.tables t).get? hget

theorem tableMethod (hh : h.Among good) {t : Ref .table} {name : String} {method : Value}
    (hmethod : h.tableMethod t name = some method) : method.Among good := by
  obtain ⟨hfound, -⟩ := Option.filter_eq_some_iff.mp hmethod
  obtain ⟨m, -, hread⟩ := Option.bind_eq_some_iff.mp hfound
  exact hh.readEntry hread

theorem metamethod (hh : h.Among good) {v : Value} {name : String} {method : Value}
    (hmethod : h.metamethod v name = some method) : method.Among good := by
  cases v with
  | table t => exact hh.tableMethod hmethod
  | _ => cases hmethod

theorem binaryMethod (hh : h.Among good) {a b : Value} {name : String} {latterFirst : Bool}
    {method : Value} (hmethod : h.binaryMethod a b name latterFirst = some method) :
    method.Among good := by
  rcases Option.or_eq_some_iff.mp hmethod with hfirst | ⟨-, hsecond⟩
  · exact hh.metamethod hfirst
  · exact hh.metamethod hsecond

end Heap.Among

/-- A prototype with code that can be run. -/
def Prototype.Runnable (p : Prototype) : Prop :=
  Instruction.WellFormed p.code

namespace Heap

/-- A unit that is there, with prototypes of some sort. -/
def UnitOf (fit : Prototype → Prop) (h : Heap) (u : Ref .unit) : Prop :=
  h.units.Holds u ∧ ∀ p ∈ (h.unit u).prototypes, fit p

/-- A closure that is there, and so is its unit, with prototypes of some sort. -/
def ClosureOf (fit : Prototype → Prop) (h : Heap) (r : Ref .function) : Prop :=
  h.functions.Holds r ∧ h.UnitOf fit (h.function r).unit

/-- **A closure that is there**, and so is its unit. -/
abbrev There (h : Heap) : Ref .function → Prop :=
  h.ClosureOf fun _ => True

/-- A unit that is there, and all code of which can be run. -/
abbrev Loaded (h : Heap) : Ref .unit → Prop :=
  h.UnitOf Prototype.Runnable

/-- **A runnable closure**: it is there, and all code of its unit can be run. -/
abbrev Runnable (h : Heap) : Ref .function → Prop :=
  h.ClosureOf Prototype.Runnable

/-- The heap refers to no closures but good ones, and these are all of some sort. -/
structure Whole (fit : Prototype → Prop) (good : Ref .function → Prop) (h : Heap) : Prop
    extends h.Among good where
  closures : h.ClosureOf fit = good

end Heap

namespace Heap.Whole

variable {h : Heap}

theorem newContext (hh : h.Whole fit good) (parent : Option (Ref .context)) :
    (h.newContext parent).2.Whole fit good :=
  ⟨hh.toAmong.newContext parent, hh.closures⟩

theorem newTable (hh : h.Whole fit good) : h.newTable.2.Whole fit good :=
  ⟨hh.toAmong.newTable, hh.closures⟩

theorem newVector (hh : h.Whole fit good) {items : List Value}
    (hitems : Value.AllAmong good items) : (h.newVector items).2.Whole fit good :=
  ⟨hh.toAmong.newVector hitems, hh.closures⟩

theorem newCoroutine (hh : h.Whole fit good) {c : Coroutine} (hc : c.Among good) :
    (h.newCoroutine c).2.Whole fit good :=
  ⟨hh.toAmong.newCoroutine hc, hh.closures⟩

theorem modifyTable (hh : h.Whole fit good) (t : Ref .table) {φ : Table → Table}
    (hφ : ∀ u : Table, u.Among good → (φ u).Among good) :
    (h.modifyTable t φ).Whole fit good :=
  ⟨hh.toAmong.modifyTable t hφ, hh.closures⟩

theorem modifyVector (hh : h.Whole fit good) (v : Ref .vector) {φ : Array Value → Array Value}
    (hφ : ∀ items : Array Value, Value.AllAmong good items.toList →
      Value.AllAmong good (φ items).toList) :
    (h.modifyVector v φ).Whole fit good :=
  ⟨hh.toAmong.modifyVector v hφ, hh.closures⟩

theorem writeEntry (hh : h.Whole fit good) (t : Ref .table) {key value : Value}
    (hkey : key.Among good)
    (hvalue : value.Among good) : (h.writeEntry t key value).Whole fit good :=
  ⟨hh.toAmong.writeEntry t hkey hvalue, hh.closures⟩

theorem bind (hh : h.Whole fit good) (r : Ref .function) (c : Ref .context) :
    (h.bind r c).Whole fit good := by
  refine ⟨hh.toAmong.bind r c, hh.closures ▸ funext fun q => ?_⟩
  have hheld : (h.bind r c).functions.Holds q = h.functions.Holds q := by
    simp [Heap.bind, Heap.modifyFunction, Store.Holds]
  have hunit : ((h.bind r c).function q).unit = (h.function q).unit := by
    show ((h.functions.modify r fun f => { f with parent := some c }).get q).unit
      = (h.functions.get q).unit
    rcases h.functions.get_modify_cases (fun f => { f with parent := some c }) q r with heq | heq
    · rw [heq]
    · rw [heq]
  unfold Heap.ClosureOf
  rw [hheld, hunit]
  rfl

theorem declareVariables (hh : h.Whole fit good) (c : Ref .context) (names : List String) :
    (h.declareVariables c names).Whole fit good := by
  refine ⟨hh.toAmong.declareVariables c names, ?_⟩
  rw [h.declareVariables_eq]
  exact hh.closures

theorem readVariable (hh : h.Whole fit good) (c : Ref .context) (name : String) :
    (h.readVariable c name).2.Whole fit good := by
  refine ⟨(hh.toAmong.readVariable c name).2, ?_⟩
  rw [h.readVariable_eq]
  exact hh.closures

theorem writeVariable (hh : h.Whole fit good) (c : Ref .context) (name : String) {value : Value}
    (hvalue : value.Among good) : (h.writeVariable c name value).Whole fit good := by
  refine ⟨hh.toAmong.writeVariable c name hvalue, ?_⟩
  rw [h.writeVariable_eq]
  exact hh.closures

end Heap.Whole

/-! ### The host -/

/-- What a step of an asynchronous function asks for. -/
def AsyncStep.Among (good : Ref .function → Prop) : AsyncStep → Prop
  | .finish vs | .yield vs | .switch _ vs => Value.AllAmong good vs
  | .call callee vs => callee.Among good ∧ Value.AllAmong good vs

/-- **The host makes no closure up**: if all closures that a function or a system call is shown are
good ones, and all that the state of the host refers to, so are all that it answers, or leaves on
the stacks, or keeps in the state.  `keeps` says which states refer to no closures but good ones. -/
structure Host.Honest (host : Host σ) (fit : Prototype → Prop)
    (keeps : (Ref .function → Prop) → σ → Prop) : Prop where
  mono : ∀ {good good' : Ref .function → Prop} {state : σ}, (∀ r, good r → good' r) →
    keeps good state → keeps good' state
  pureFn : ∀ {good r h args results}, h.Whole fit good → Value.AllAmong good args →
    host.callPure r h args = .ok results → Value.AllAmong good results
  effectFn : ∀ {good args} (r) (scene : Scene) {state : σ}, scene.heap.Whole fit good →
    scene.memory.Among good → Value.AllAmong good args → keeps good state →
    (∀ results, (host.callEffect r scene args state).1 = .ok results →
      Value.AllAmong good results) ∧ keeps good (host.callEffect r scene args state).2
  opening : ∀ {good} (r) (scene : Scene) {state : σ}, scene.heap.Whole fit good →
    scene.memory.Among good → keeps good state → keeps good (host.openAsync r scene state).2
  asyncFn : ∀ {good h history} (r) (object : Nat) {state : σ}, h.Whole fit good →
    (∀ args ∈ history, Value.AllAmong good args) → keeps good state →
    (∀ answer, (host.stepAsync r object h history state).1 = .ok answer → answer.Among good) ∧
    keeps good (host.stepAsync r object h history state).2
  syscall : ∀ {i call}, host.syscall i = some call → ∀ {good h memory} {state : σ},
    h.Whole fit good → memory.Among good → keeps good state →
    (call h memory state).memory.Among good ∧ keeps good (call h memory state).state

/-- The values that leave a coroutine with control. -/
def Exit.Among (good : Ref .function → Prop) : Exit → Prop
  | .finished vs | .yielded vs | .switched _ vs => Value.AllAmong good vs

/-! ### Native operators

Their answers refer to no object. -/

/-- A value that is no reference. -/
def Value.scalar : Value → Bool
  | nil | int _ | float _ | bool _ | str _ => true
  | _ => false

theorem Value.among_of_scalar {v : Value} (hv : v.scalar) : v.Among good := by
  rintro r rfl
  cases hv

namespace Operator

variable {x y v : Value}

theorem scalar_arithmetic {ints : Int64 → Int64 → Int64} {floats : Float → Float → Float}
    (h : arithmetic ints floats x y = some v) : v.scalar := by
  unfold arithmetic at h
  split at h
  · cases h
    rfl
  · obtain ⟨_, -, rfl⟩ := Option.map_eq_some_iff.mp h
    rfl

theorem scalar_bitwise {ints : Int64 → Int64 → Int64} {bools : Bool → Bool → Bool}
    (h : bitwise ints bools x y = some v) : v.scalar := by
  unfold bitwise at h
  split at h <;> cases h <;> rfl

theorem scalar_comparison {verdict : Ordering → Bool} (h : comparison verdict x y = some v) :
    v.scalar := by
  obtain ⟨_, -, rfl⟩ := Option.map_eq_some_iff.mp h
  rfl

theorem scalar_binary {h : Heap} {op : BinaryOp} (hvalue : binary h op x y = .ok (some v)) :
    v.scalar := by
  have hinteger {i : Int64} (hi : (.ok (some (.int i)) : Except Fault (Option Value))
    = .ok (some v)) :
      v.scalar := by
    cases hi
    rfl
  cases op with
  | add =>
    simp only [binary] at hvalue
    split at hvalue
    · cases hvalue
      rfl
    · exact scalar_arithmetic (Except.ok.inj hvalue)
  | sub => exact scalar_arithmetic (Except.ok.inj hvalue)
  | mul => exact scalar_arithmetic (Except.ok.inj hvalue)
  | div =>
    simp only [binary] at hvalue
    split at hvalue
    · split at hvalue
      · cases hvalue
      · exact hinteger hvalue
    · exact scalar_arithmetic (Except.ok.inj hvalue)
  | mod =>
    simp only [binary] at hvalue
    split at hvalue
    · split at hvalue
      · cases hvalue
      · exact hinteger hvalue
    · cases hvalue
  | lsh | rsh =>
    simp only [binary] at hvalue
    split at hvalue
    · exact hinteger hvalue
    · cases hvalue
  | and | orr | xor => exact scalar_bitwise (Except.ok.inj hvalue)
  | lss | gtr | leq | geq => exact scalar_comparison (Except.ok.inj hvalue)
  | equ | neq =>
    obtain ⟨_, -, rfl⟩ := Option.map_eq_some_iff.mp (Except.ok.inj hvalue)
    rfl

theorem scalar_unary {op : UnaryOp} (h : unary op x = some v) : v.scalar := by
  unfold unary at h
  split at h <;> cases h <;> rfl

end Operator

end ScriptVm
