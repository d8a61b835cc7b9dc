import ScriptVm.Proofs.Upkeep

/-!
# What a step writes to tables

Three instructions store entries in tables, and nothing else in a step does.  What
the next step of a machine stores can be read off the machine: the instruction that
is fetched and its operands say it.

Main statement: `Exec.step_deals` (a step stores exactly that, and no entry of any
table changes otherwise).
-/

namespace ScriptVm

variable {σ α : Type}

/-- A value, with the table it is stored in and the key it is stored under. -/
structure Write where
  table : Ref .table
  key : Value
  value : Value
  deriving DecidableEq, Repr

/-! ### Tables of a heap -/

namespace Heap

variable {h h' h'' : Heap} {t u : Ref .table}

theorem table_modify_self (ht : h.tables.Holds t) (f : Table → Table) :
    (h.modifyTable t f).table t = f (h.table t) :=
  Store.get_modify_self _ _ _ ht

theorem table_modify_of_ne (hne : u ≠ t) (f : Table → Table) :
    (h.modifyTable t f).table u = h.table u :=
  Store.get_modify_of_ne _ _ hne

/-- A reference that leads nowhere reads like an empty table, and there is nothing to change. -/
theorem table_modify_of_not_holds (ht : ¬ h.tables.Holds t) (f : Table → Table) :
    (h.modifyTable t f).table t = h.table t := by
  have hsize : ¬ t.index < h.tables.cells.size := ht
  simp [table, modifyTable, Store.get, Store.modify, Array.getD_eq_getD_getElem?, hsize]

/-- A new table reads like a reference that leads nowhere. -/
theorem table_newTable (h : Heap) (t : Ref .table) : h.newTable.2.table t = h.table t := by
  simp only [table, newTable, Store.get, Store.add, Array.getD_eq_getD_getElem?,
    Array.getElem?_push]
  split
  · next heq =>
    simp [heq]
    rfl
  · rfl

/-- All tables have the entries they had. -/
def SameEntries (h h' : Heap) : Prop :=
  ∀ t, ∃ metatable, h'.table t = { h.table t with metatable }

namespace SameEntries

theorem of_tables_eq (heq : h'.tables = h.tables) : h.SameEntries h' := by
  intro t
  exact ⟨(h.table t).metatable, by rw [table, heq]; rfl⟩

theorem refl (h : Heap) : h.SameEntries h :=
  of_tables_eq rfl

theorem trans (hfirst : h.SameEntries h') (hsecond : h'.SameEntries h'') : h.SameEntries h'' := by
  intro t
  obtain ⟨m, hm⟩ := hfirst t
  obtain ⟨m', hm'⟩ := hsecond t
  exact ⟨m', by rw [hm', hm]⟩

theorem newTable (h : Heap) : h.SameEntries h.newTable.2 := by
  intro t
  exact ⟨(h.table t).metatable, h.table_newTable t⟩

theorem metatable (h : Heap) (u : Ref .table) (metatable : Option (Ref .table)) :
    h.SameEntries (h.modifyTable u fun table => { table with metatable }) := by
  intro t
  by_cases hne : t = u
  · subst hne
    by_cases ht : h.tables.Holds t
    · exact ⟨metatable, table_modify_self ht _⟩
    · exact ⟨(h.table t).metatable, table_modify_of_not_holds ht _⟩
  · exact ⟨(h.table t).metatable, table_modify_of_ne hne _⟩

theorem declareVariables (h : Heap) (c : Ref .context) (names : List String) :
    h.SameEntries (h.declareVariables c names) := by
  rw [declareVariables_eq]
  exact of_tables_eq rfl

theorem readVariable (h : Heap) (c : Ref .context) (name : String) :
    h.SameEntries (h.readVariable c name).2 := by
  rw [readVariable_eq]
  exact of_tables_eq rfl

theorem writeVariable (h : Heap) (c : Ref .context) (name : String) (value : Value) :
    h.SameEntries (h.writeVariable c name value) := by
  rw [writeVariable_eq]
  exact of_tables_eq rfl

theorem newFunction {unit : Ref .unit} {index : Nat} {parent : Option (Ref .context)}
    {r : Ref .function} (hnew : h.newFunction unit index parent = .ok (r, h')) :
    h.SameEntries h' := by
  rw [h.newFunction_eq hnew]
  exact of_tables_eq rfl

end SameEntries

/-- **What a heap comes to by a write**, or without one: the value is stored and no closure changes,
or no entry changes. -/
def Deals (h : Heap) : Option Write → Heap → Prop
  | some w, h' =>
    h'.tables = (h.writeEntry w.table w.key w.value).tables ∧ h'.functions = h.functions
  | none, h' => h.SameEntries h'

/-- What is stored depends on the tables and on the closures. -/
theorem tables_writeEntry_congr (htables : h'.tables = h.tables)
    (hfunctions : h'.functions = h.functions) (w : Write) :
    (h'.writeEntry w.table w.key w.value).tables = (h.writeEntry w.table w.key w.value).tables := by
  obtain ⟨units, functions, contexts, tables, vectors, coroutines⟩ := h
  obtain ⟨units', functions', contexts', tables', vectors', coroutines'⟩ := h'
  cases htables
  cases hfunctions
  rfl

end Heap

/-- Entries that stay, as an invariant of steps. -/
def Machine.sameEntries (host : Host σ) (h : Heap) : Machine.StepKeeping host where
  holds N := h.SameEntries N.heap
  values _ hN := hN
  frame _ hN := hN
  enter {N} r _ _ _ _ hN := by
    have hcontext : N.heap.SameEntries (N.heap.newContext (N.heap.function r).parent).2 :=
      .of_tables_eq rfl
    exact hN.trans (hcontext.trans (.declareVariables _ _ _))
  enterAsync _ _ hN := hN
  effect _ _ hN := hN
  opening _ hN := hN
  async _ _ _ hN := hN
  scope _ := True
  root _ _ := trivial
  delimiters _ hN := hN
  marks _ hN := hN
  table hN := hN.trans (.newTable _)
  vector _ hN := hN.trans (.of_tables_eq rfl)
  function made hN := hN.trans (.newFunction made)
  coroutine _ _ hN := hN.trans (.of_tables_eq rfl)
  metatable t m hN := hN.trans (.metatable _ t m)
  items _ _ hN := hN.trans (.of_tables_eq rfl)
  bind _ _ hN := hN.trans (.of_tables_eq rfl)
  read name _ hN := hN.trans (.readVariable _ _ name)
  write name value _ hN := hN.trans (.writeVariable _ _ name value)

/-- Tables and closures that stay, as an invariant of calls. -/
def Machine.sameTables (host : Host σ) (h : Heap) : Machine.CallKeeping host where
  holds N := N.heap.tables = h.tables ∧ N.heap.functions = h.functions
  values _ hN := hN
  frame _ hN := hN
  enter _ _ _ _ _ hN := by
    rw [entered, Heap.declareVariables_eq]
    exact hN
  enterAsync _ _ hN := hN
  effect _ _ hN := hN
  opening _ hN := hN
  async _ _ _ hN := hN

/-! ### Instructions -/

namespace Exec

/-- What an update stores: nothing if the container is no table, or if a metamethod stands in. -/
def updated (throughMethod : Bool) : Exec σ (Option Write) := do
  let key ← peek 0
  let container ← peek 1
  let value ← peek 2
  let h ← heap
  match container with
  | .table t =>
    return if throughMethod && (h.tableMethod t "__uen").isSome then none
      else some ⟨t, key, value⟩
  | _ => return none

/-- What an instruction on tables stores, with its operands on the stack. -/
def stored : TableOp → Exec σ (Option Write)
  | .update => updated true
  | .updateLocal => updated false
  | .insert => do
    let value ← pop
    let key ← pop
    match ← peek 0 with
    | .table t => return some ⟨t, key, value⟩
    | _ => return none
  | _ => return none

/-- What the next step stores. -/
def nextStored : Exec σ (Option Write) := do
  match (← get).memory.frames.last? with
  | none => return none
  | some f =>
    match f.activity with
    | .async _ => return none
    | .bytecode r _ =>
      match ← fetch r with
      | (.table op, _, phase) =>
        match OperatorPhase.ofNumber phase with
        | .operate => stored op
        | .finish => return none
      | _ => return none

/-- A write that was announced; a computation that fails announces none. -/
def announced : EStateM.Result Stop (Machine σ) (Option Write) → Option Write
  | .ok w _ => w
  | .error _ _ => none

end Exec

/-- **What the next step of a machine stores**, if it does. -/
def Machine.writes? (M : Machine σ) : Option Write :=
  Exec.announced (Exec.nextStored M)

namespace Exec

variable {β : Type}

/-- A computation on the value stack leaves the heap alone. -/
theorem heap_last {x : Exec σ α} (hx : ∀ K : Machine.Keeping σ, Upholds K x) (M : Machine σ) :
    (last (x M)).heap = M.heap :=
  hx ⟨fun N => N.heap = M.heap, fun _ hN => hN⟩ M rfl

/-- Operands are taken to announce a write, and the same ones to make it. -/
theorem deals_operand {M : Machine σ} {x : Exec σ β} {f : β → Exec σ (Option Write)}
    {g : β → Exec σ α} (hx : ∀ K : Machine.Keeping σ, Upholds K x)
    (hrest : ∀ b (N : Machine σ), N.heap.Deals (announced (f b N)) (last (g b N)).heap) :
    M.heap.Deals (announced ((x >>= f) M)) (last ((x >>= g) M)).heap := by
  have hheap := heap_last hx M
  rw [bind_apply, bind_apply]
  generalize x M = result at hheap
  cases result with
  | error e N =>
    rw [← hheap]
    exact .refl _
  | ok b N =>
    rw [← hheap]
    exact hrest b N

theorem deals_updateEntry (host : Host σ) (throughMethod : Bool) (M : Machine σ) :
    M.heap.Deals (announced (updated throughMethod M))
      (last (updateEntry host throughMethod M)).heap := by
  refine deals_operand (fun _ => .peek 0) fun key M => deals_operand (fun _ => .peek 1)
    fun container M => deals_operand (fun _ => .peek 2) fun value M => ?_
  rw [bind_of_ok (heap_apply M), bind_of_ok (heap_apply M)]
  let K := Machine.sameEntries host M.heap
  cases container with
  | vector v =>
    have hitems (items : Array Value → Array Value) : Upholds K.toKeeping (do
        modify fun m => m.onHeap fun h => h.modifyVector v items
        dropWrite : Exec σ Unit) :=
      (Upholds.change fun N hN => K.items v items hN).bind fun _ => .dropWrite
    exact (Upholds.ofFault _).bind (fun index => .ite (.fault _) (hitems _)) M (.refl _)
  | table t =>
    have hsome : (throughMethod && (M.heap.tableMethod t "__uen").isSome)
        = (if throughMethod then M.heap.tableMethod t "__uen" else none).isSome := by
      cases throughMethod <;> rfl
    simp only [hsome]
    rw [bind_of_ok (show ofFault (M.heap.asTable (.table t)) M = .ok t M from rfl)]
    cases hmethod : if throughMethod then M.heap.tableMethod t "__uen" else none with
    | some method =>
      exact (Upholds.overwriteTop _).bind
        (fun _ => .callMethod (K := K.toCallKeeping) method 3 0 1) M (.refl _)
    | none =>
      have hheap := heap_last (fun _ => .dropWrite) (M.onHeap fun h => h.writeEntry t key value)
      show (last (dropWrite _)).heap.tables = _ ∧ (last (dropWrite _)).heap.functions = _
      rw [hheap]
      exact ⟨rfl, rfl⟩
  | _ => exact .refl _

/-- **An instruction on tables** stores what it has announced. -/
theorem deals_operateTable (host : Host σ) (op : TableOp) (M : Machine σ) :
    M.heap.Deals (announced (stored op M)) (last (operateTable host op M)).heap := by
  let K := Machine.sameEntries host M.heap
  have hother (hop : op.stores = false) : M.heap.SameEntries (last (operateTable host op M)).heap :=
    Upholds.operateTable (K := K.toInstructionKeeping) op
      (fun h => absurd h (by simp [hop])) M (.refl _)
  cases op with
  | update => exact deals_updateEntry host true M
  | updateLocal => exact deals_updateEntry host false M
  | insert =>
    refine deals_operand (fun _ => .pop) fun value M =>
      deals_operand (fun _ => .pop) fun key M => ?_
    rw [bind_of_ok (heap_apply M)]
    refine deals_operand (fun _ => .peek 0) fun container M => ?_
    cases container with
    | table t => exact ⟨rfl, rfl⟩
    | _ => exact .refl _
  | _ => exact hother rfl

/-- The heap of a fetched instruction has the tables and closures of before. -/
theorem sameTables_of_fetch (host : Host σ) {M N : Machine σ} {r : Ref .function}
    {next : Op × Int64 × Nat} (hfetch : fetch r M = .ok next N) :
    N.heap.tables = M.heap.tables ∧ N.heap.functions = M.heap.functions := by
  have hlast := Upholds.fetch (K := Machine.sameTables host M.heap) r M ⟨rfl, rfl⟩
  rw [hfetch] at hlast
  exact hlast

section

variable {M N : Machine σ} {f : Frame} {r : Ref .function} {context : Ref .context} {op : TableOp}
  {imm : Int64} {phase : Nat}

/-- What is announced when an instruction on tables is fetched. -/
theorem writes?_of_fetch (hf : M.memory.frames.last? = some f)
    (hactivity : f.activity = .bytecode r context)
    (hfetch : fetch r M = .ok (.table op, imm, phase) N) :
    M.writes? = match OperatorPhase.ofNumber phase with
      | .operate => announced (stored op N)
      | .finish => none := by
  rw [Machine.writes?, nextStored, bind_of_ok (get_apply M), hf]
  dsimp only
  rw [hactivity]
  dsimp only
  rw [bind_of_ok hfetch]
  dsimp only
  cases OperatorPhase.ofNumber phase <;> rfl

/-- A write is announced only when an instruction on tables is fetched, and in its first phase. -/
theorem fetch_of_writes? {w : Write} (hw : M.writes? = some w) :
    ∃ f r context op imm phase N, M.memory.frames.last? = some f ∧
      f.activity = .bytecode r context ∧ fetch r M = .ok (.table op, imm, phase) N ∧
      OperatorPhase.ofNumber phase = .operate ∧ announced (stored op N) = some w := by
  cases hf : M.memory.frames.last? with
  | none =>
    rw [Machine.writes?, nextStored, bind_of_ok (get_apply M), hf] at hw
    cases hw
  | some f =>
    cases hactivity : f.activity with
    | async call =>
      rw [Machine.writes?, nextStored, bind_of_ok (get_apply M), hf] at hw
      simp only [hactivity] at hw
      cases hw
    | bytecode r context =>
      cases hfetch : fetch r M with
      | error e N =>
        rw [Machine.writes?, nextStored, bind_of_ok (get_apply M), hf] at hw
        simp only [hactivity, bind_of_error hfetch] at hw
        cases hw
      | ok next N =>
        obtain ⟨o, imm, phase⟩ := next
        cases o with
        | table op =>
          rw [writes?_of_fetch hf hactivity hfetch] at hw
          cases hphase : OperatorPhase.ofNumber phase with
          | operate =>
            rw [hphase] at hw
            exact ⟨f, r, context, op, imm, phase, N, rfl, hactivity, hfetch, hphase, hw⟩
          | finish =>
            rw [hphase] at hw
            cases hw
        | _ =>
          rw [Machine.writes?, nextStored, bind_of_ok (get_apply M), hf] at hw
          simp only [hactivity, bind_of_ok hfetch] at hw
          cases hw

end

/-- **A step stores what it has announced**, and no entry of any table changes otherwise. -/
theorem step_deals (host : Host σ) (M : Machine σ) :
    M.heap.Deals M.writes? (last (step host M)).heap := by
  cases hw : M.writes? with
  | none =>
    let K := Machine.sameEntries host M.heap
    refine Upholds.step (K := K) (fun _ hN => hN) (fun _ _ _ _ hN => hN) (.refl _)
      (fun _ _ _ _ _ => trivial) ?_
    intro f r context op imm phase N hf hactivity hfetch hN
    rw [writes?_of_fetch hf hactivity hfetch] at hw
    unfold tableOperator
    cases hphase : OperatorPhase.ofNumber phase with
    | finish => exact hN
    | operate =>
      rw [hphase] at hw
      have hdeals := deals_operateTable host op N
      rw [show announced (stored op N) = none from hw] at hdeals
      exact hN.trans hdeals
  | some w =>
    obtain ⟨f, r, context, op, imm, phase, N, hf, hactivity, hfetch, hphase, hannounced⟩ :=
      fetch_of_writes? hw
    have hdeals := deals_operateTable host op N
    rw [hannounced] at hdeals
    obtain ⟨htables, hfunctions⟩ := sameTables_of_fetch host hfetch
    have hlast : last (step host M) = last (operateTable host op N) := by
      rw [step, bind_of_ok (get_apply M), hf]
      simp only [hactivity, bind_of_ok hfetch, execute, tableOperator, hphase]
      rw [bind_apply]
      cases operateTable host op N <;> rfl
    rw [hlast]
    exact ⟨hdeals.1.trans (Heap.tables_writeEntry_congr htables hfunctions w),
      hdeals.2.trans hfunctions⟩

end Exec

end ScriptVm
