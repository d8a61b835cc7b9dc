import ScriptVm.Machine.Operate
import ScriptVm.Proofs.Closures
import ScriptVm.Proofs.Mirror.Calls

/-!
# Operators, tables and variables, in a mirror

The native result of an operator refers to no object, so it is the same on both
sides.  A metamethod can be called, so it is no coroutine, and it is the same on
both sides as well.

Main statements: `Mirrors.binaryOperator`, `Mirrors.tableOperator` and
`Mirrors.scopeOperator`.
-/

namespace ScriptVm

variable {σ : Type} {m : Mirror σ} {host : Host σ}

/-- What refers to no object is its own twin. -/
theorem Value.Twin.of_scalar {T : Likeness} {v : Value} (hv : v.scalar) : v.Twin T v := by
  refine .inert (fun r hr => ?_) fun r hr => ?_ <;>
  · subst hr
    cases hv

namespace Mirrors

variable {v v' : Value}

/-! ### Operators -/

/-- A later phase is to come. -/
theorem continueAt {phase : Nat} (hphase : 1 ≤ phase) :
    Mirrors (σ := σ) m (Exec.continueAt phase) (Exec.continueAt phase) Equal := by
  refine modifyFrame fun f f' hf => hf.inside ?_
  have hprogress := hf.progress
  generalize f.progress = p at hprogress
  generalize f'.progress = p' at hprogress
  cases hprogress with
  | idle idle => exact .idle idle
  | busy word done =>
    exact .busy word fun hjumps => ⟨(done hjumps).1, Nat.le_trans (done hjumps).1 hphase⟩

theorem finishBinary (op : BinaryOp) :
    Mirrors (σ := σ) m (Exec.finishBinary op) (Exec.finishBinary op) Equal := by
  have hresult (g : Bool → Bool) : Mirrors (σ := σ) m
      (do
        let result ← Exec.pop
        Exec.push (.bool (g result.truthy)))
      (do
        let result ← Exec.pop
        Exec.push (.bool (g result.truthy))) Equal :=
    pop.bind fun _ _ hv => push (hv.truthy_eq ▸ .bool _)
  cases op with
  | lss => exact hresult id
  | gtr => exact hresult id
  | equ => exact hresult id
  | neq => exact hresult not
  | _ => exact done

theorem orderFinish : Mirrors (σ := σ) m Exec.orderFinish Exec.orderFinish Equal :=
  pop.bind fun _ _ hv => push (hv.truthy_eq ▸ .bool _)

theorem vectorItem {items items' : Array Value}
    (hitems : Value.Twins m.like items.toList items'.toList) (hv : v.Twin m.like v') :
    (Exec.vectorItem items v).Twin m.like (Exec.vectorItem items' v') := by
  have hget (i : Nat) : (items.getD i .nil).Twin m.like (items'.getD i .nil) := by
    rw [Array.getD_eq_getD_getElem?, Array.getD_eq_getD_getElem?, ← Array.getElem?_toList,
      ← Array.getElem?_toList]
    exact .getD (hitems.getElem? i)
  cases hv with
  | coroutine _ => exact .nil
  | plain _ =>
    cases v with
    | int i =>
      simp only [Exec.vectorItem]
      split
      · exact .nil
      · exact hget _
    | _ => exact .nil

theorem dropWrite : Mirrors (σ := σ) m Exec.dropWrite Exec.dropWrite Equal :=
  (heightLess 3).andThen fun start => truncate start

section

variable (oblivious : host.Oblivious m.states m.aside)
include oblivious

theorem callMethod {method : Value} (hmethod : method.Twin m.like method) (argc returns : Nat)
    {phase : Nat} (hphase : 1 ≤ phase) :
    Mirrors m (Exec.callMethod host method argc returns phase)
      (Exec.callMethod host method argc returns phase) Equal :=
  (continueAt hphase).andThen fun _ => (heightLess argc).andThen fun base =>
    invoke oblivious hmethod base _

theorem callOverload (op : BinaryOp) {method : Value} (hmethod : method.Twin m.like method)
    (hv : v.Twin m.like v') {w w' : Value} (hw : w.Twin m.like w') :
    Mirrors m (Exec.callOverload host op method v w) (Exec.callOverload host op method v' w')
      Equal := by
  have hcall := callMethod oblivious hmethod 2 1 (Nat.le_refl 1)
  have horder : ∀ o : Overload, (o.order v w).1.Twin m.like (o.order v' w').1 ∧
      (o.order v w).2.Twin m.like (o.order v' w').2 := by
    intro o
    unfold Overload.order
    split
    · exact ⟨hw, hv⟩
    · exact ⟨hv, hw⟩
  obtain ⟨hfirst, hsecond⟩ := horder (.ofBinary op)
  have hkeep : Mirrors (σ := σ) m
      (if op = .leq ∨ op = .geq then do
        Exec.push ((Overload.ofBinary op).order v w).1
        Exec.push ((Overload.ofBinary op).order v w).2
        Exec.callMethod host method 2 1 1
      else Exec.callMethod host method 2 1 1)
      (if op = .leq ∨ op = .geq then do
        Exec.push ((Overload.ofBinary op).order v' w').1
        Exec.push ((Overload.ofBinary op).order v' w').2
        Exec.callMethod host method 2 1 1
      else Exec.callMethod host method 2 1 1) Equal :=
    ite Iff.rfl (fun _ => (push hfirst).andThen fun _ => (push hsecond).andThen fun _ => hcall)
      fun _ => hcall
  unfold Exec.callOverload
  refine ite Iff.rfl (fun _ => ?_) fun _ => hkeep
  exact (overwriteTop (.cons hfirst (.cons hsecond .nil))).andThen fun _ => hkeep

theorem operateBinary (op : BinaryOp) :
    Mirrors m (Exec.operateBinary host op) (Exec.operateBinary host op) Equal := by
  refine (peek 0).bind fun y y' hy => (peek 1).bind fun x x' hx => heap.bind fun h h' hh => ?_
  rw [hh.binary_eq op hx hy, hh.overloadMethod_eq op hx hy, hx.type_eq, hy.type_eq,
    hx.identical_eq hh.sharp hy]
  cases hnative : Operator.binary h op x y with
  | error f => exact fault f
  | ok value =>
  cases value with
  | some value => exact replaceTop 2 (.of_scalar (Operator.scalar_binary hnative))
  | none =>
    dsimp only [Exec.ofFault, pure_bind]
    cases hmethod : h.overloadMethod op x y with
    | some method => exact callOverload oblivious op (hh.overloadMethod hmethod) hx hy
    | none =>
      cases op with
      | equ => exact replaceTop 2 (.bool _)
      | neq => exact replaceTop 2 (.bool _)
      | _ => exact fault _

theorem orderEqual (op : BinaryOp) :
    Mirrors m (Exec.orderEqual host op) (Exec.orderEqual host op) Equal := by
  refine pop.bind fun less less' hless => ?_
  rw [hless.truthy_eq]
  refine ite Iff.rfl (fun _ => replaceTop 2 (.bool true)) fun _ => ?_
  refine (peek 0).bind fun b b' hb => (peek 1).bind fun a a' ha => heap.bind fun h h' hh => ?_
  rw [hh.binaryMethod_eq ha hb]
  cases hmethod : h.binaryMethod a b "__equ" (Overload.ofBinary op).latterFirst with
  | some method => exact callMethod oblivious (hh.binaryMethod hmethod) 2 1 (by decide)
  | none =>
    have htypes (o : Overload) : (o.order a' b').1.type = (o.order a b).1.type ∧
        (o.order a' b').2.type = (o.order a b).2.type := by
      unfold Overload.order
      split
      · exact ⟨hb.type_eq, ha.type_eq⟩
      · exact ⟨ha.type_eq, hb.type_eq⟩
    obtain ⟨hleft, hright⟩ := htypes (.ofBinary op)
    dsimp only
    rw [hleft, hright]
    exact fault _

theorem binaryOperator (op : BinaryOp) (phase : Nat) :
    Mirrors m (Exec.binaryOperator host op phase) (Exec.binaryOperator host op phase) Equal := by
  unfold Exec.binaryOperator
  split
  · cases OrderPhase.ofNumber phase with
    | less => exact operateBinary oblivious op
    | equal => exact orderEqual oblivious op
    | finish => exact orderFinish
  · cases OperatorPhase.ofNumber phase with
    | operate => exact operateBinary oblivious op
    | finish => exact finishBinary op

theorem unaryOperator (op : UnaryOp) (phase : Nat) :
    Mirrors m (Exec.unaryOperator host op phase) (Exec.unaryOperator host op phase) Equal := by
  unfold Exec.unaryOperator
  cases OperatorPhase.ofNumber phase with
  | finish => exact done
  | operate =>
    refine (peek 0).bind fun x x' hx => ?_
    rw [hx.unary_eq op, hx.type_eq]
    cases hvalue : Operator.unary op x with
    | some value => exact replaceTop 1 (.of_scalar (Operator.scalar_unary hvalue))
    | none =>
      refine heap.bind fun h h' hh => ?_
      rw [hh.metamethod_eq hx]
      cases hmethod : h.metamethod x (Overload.ofUnary op) with
      | some method => exact callMethod oblivious (hh.metamethod hmethod) 1 1 (Nat.le_refl 1)
      | none => exact fault _

/-! ### Tables and vectors -/

theorem readEntry (throughMethod : Bool) :
    Mirrors m (Exec.readEntry host throughMethod) (Exec.readEntry host throughMethod) Equal := by
  refine (peek 0).bind fun key key' hkey => (peek 1).bind fun container container' hcontainer =>
    heap.bind fun h h' hh => ?_
  have hsame := hcontainer
  cases hsame
  on_goal 2 => cases container
  case plain.vector v _ => exact replaceTop 2 (vectorItem (hh.vector v) hkey)
  -- What is no vector has to be a table.
  all_goals
    refine (ofFault (.of_eq (hh.asTable_eq hcontainer))).andThen fun t => ?_
    rw [hh.tableMethod_eq]
    cases hmethod : (if throughMethod then h.tableMethod t "__ren" else none) with
    | some method => exact callMethod oblivious (hh.methodIf hmethod) 2 1 (Nat.le_refl 1)
    | none => exact replaceTop 2 (.getD (hh.readEntry t hkey))

theorem updateEntry (throughMethod : Bool) :
    Mirrors m (Exec.updateEntry host throughMethod)
      (Exec.updateEntry host throughMethod) Equal := by
  refine (peek 0).bind fun key key' hkey => (peek 1).bind fun container container' hcontainer =>
    (peek 2).bind fun value value' hvalue => heap.bind fun h h' hh => ?_
  have hsame := hcontainer
  cases hsame
  on_goal 2 => cases container
  case plain.vector v _ =>
    refine (ofFault (.of_eq (hh.integer_eq hkey))).andThen fun index => ?_
    have hsize : (h'.vector v).size = (h.vector v).size := by
      simpa using (hh.vector v).length_eq.symm
    dsimp only
    rw [hsize]
    refine ite Iff.rfl (fun _ => fault _) fun _ => ?_
    refine (onHeap fun H H' hH => hH.modifyVector v ?_).andThen fun _ => dropWrite
    rw [Array.toList_setIfInBounds, Array.toList_setIfInBounds]
    exact Value.Twins.set (hH.vector v) _ hvalue
  all_goals
    refine (ofFault (.of_eq (hh.asTable_eq hcontainer))).andThen fun t => ?_
    rw [hh.tableMethod_eq]
    cases hmethod : (if throughMethod then h.tableMethod t "__uen" else none) with
    | some method =>
      exact (overwriteTop (.cons hcontainer (.cons hkey (.cons hvalue .nil)))).andThen fun _ =>
        callMethod oblivious (hh.methodIf hmethod) 3 0 (Nat.le_refl 1)
    | none => exact (onHeap fun H H' hH => hH.writeEntry t hkey hvalue).andThen fun _ => dropWrite

theorem operateTable (op : TableOp) :
    Mirrors m (Exec.operateTable host op) (Exec.operateTable host op) Equal := by
  have popTable {f g : Ref .table → Exec σ Unit} {h h' : Heap} (hh : h.Twin m.like m.aside h')
      (hf : ∀ t, Mirrors m (f t) (g t) Equal) :
      Mirrors m (do f (← Exec.ofFault (h.asTable (← Exec.pop))))
        (do g (← Exec.ofFault (h'.asTable (← Exec.pop)))) Equal :=
    pop.bind fun v v' hv => (ofFault (.of_eq (hh.asTable_eq hv))).andThen hf
  cases op with
  | setMeta =>
    refine heap.bind fun h h' hh => popTable hh fun t => pop.bind fun v v' hv => ?_
    refine (ofFault (.of_eq (hh.metatableOf_eq hv))).andThen fun metatable => ?_
    exact onHeap fun H H' hH => hH.setMetatable t metatable
  | getMeta =>
    refine heap.bind fun h h' hh => popTable hh fun t => ?_
    rw [(hh.table t).metatable]
    cases (h.table t).metatable with
    | some metatable => exact push (.table metatable)
    | none => exact push .nil
  | read => exact readEntry oblivious true
  | readLocal => exact readEntry oblivious false
  | update => exact updateEntry oblivious true
  | updateLocal => exact updateEntry oblivious false
  | insert =>
    refine pop.bind fun value value' hvalue => pop.bind fun key key' hkey =>
      heap.bind fun h h' hh => (peek 0).bind fun v v' hv => ?_
    refine (ofFault (.of_eq (hh.asTable_eq hv))).andThen fun t => ?_
    exact onHeap fun H H' hH => hH.writeEntry t hkey hvalue
  | push =>
    refine heap.bind fun h h' hh => pop.bind fun v v' hv => ?_
    refine (ofFault (.of_eq (hh.asVector_eq hv))).andThen fun r =>
      pop.bind fun value value' hvalue => ?_
    refine onHeap fun H H' hH => hH.modifyVector r ?_
    rw [Array.toList_push, Array.toList_push]
    exact (hH.vector r).append (.cons hvalue .nil)
  | pop =>
    refine heap.bind fun h h' hh => pop.bind fun v v' hv => ?_
    refine (ofFault (.of_eq (hh.asVector_eq hv))).andThen fun r => ?_
    have hlast := (hh.vector r).getLast?
    rw [Array.getLast?_toList, Array.getLast?_toList] at hlast
    generalize (h.vector r).back? = x at hlast
    generalize (h'.vector r).back? = y at hlast
    cases hlast with
    | none => exact fault _
    | some hvalue =>
      refine (onHeap fun H H' hH => hH.modifyVector r ?_).andThen fun _ => Mirrors.push hvalue
      rw [Array.toList_pop, Array.toList_pop]
      exact (hH.vector r).dropLast

theorem tableOperator (op : TableOp) (phase : Nat) :
    Mirrors m (Exec.tableOperator host op phase) (Exec.tableOperator host op phase) Equal := by
  unfold Exec.tableOperator
  cases OperatorPhase.ofNumber phase with
  | operate => exact operateTable oblivious op
  | finish => exact done

end

/-! ### Variables -/

theorem readVariable (scope : Ref .context) :
    Mirrors (σ := σ) m (Exec.readVariable scope) (Exec.readVariable scope) Equal := by
  refine heap.bind fun h h' hh => pop.bind fun v v' hv => ?_
  refine (ofFault (.of_eq (hh.string_eq hv))).andThen fun name => ?_
  have hread : Mirrors (σ := σ) m
      (modifyGet fun M => ((M.heap.readVariable scope name).1,
        { M with heap := (M.heap.readVariable scope name).2 }))
      (modifyGet fun M => ((M.heap.readVariable scope name).1,
        { M with heap := (M.heap.readVariable scope name).2 })) (Value.Twin m.like) := by
    intro M M' twin
    obtain ⟨hvalue, hheap⟩ := twin.heap.readVariable scope name
    exact .ok { twin with heap := hheap } hvalue
  exact hread.bind fun _ _ hvalue => push hvalue

theorem writeVariable (scope : Ref .context) :
    Mirrors (σ := σ) m (Exec.writeVariable scope) (Exec.writeVariable scope) Equal := by
  refine heap.bind fun h h' hh => pop.bind fun v v' hv => ?_
  refine (ofFault (.of_eq (hh.string_eq hv))).andThen fun name =>
    pop.bind fun value value' hvalue => ?_
  exact onHeap fun H H' hH => hH.writeVariable scope name hvalue

theorem scopeOperator (context : Ref .context) (op : ScopeOp) :
    Mirrors (σ := σ) m (Exec.scopeOperator context op) (Exec.scopeOperator context op) Equal := by
  cases op with
  | read => exact readVariable context
  | write => exact writeVariable context
  | readGlobal =>
    refine heap.bind fun h h' hh => ?_
    rw [hh.root_eq]
    exact readVariable _
  | writeGlobal =>
    refine heap.bind fun h h' hh => ?_
    rw [hh.root_eq]
    exact writeVariable _

end Mirrors

end ScriptVm
