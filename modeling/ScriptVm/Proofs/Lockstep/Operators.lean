import ScriptVm.Machine.Operate
import ScriptVm.Proofs.Lockstep.Calls

/-!
# Operators, tables and variables, in lockstep

What an operator, a table instruction or an access to a variable does to the
activation that runs it: it stays in place with other operands, or a metamethod
has been called on top of it.
-/

namespace ScriptVm

variable {σ α : Type}

namespace Lockstep

variable {t : Footing} {pre : Layer → Prop} {f : Frame} {k : Nat} {host : Host σ}
  {r : Ref .function} {context : Ref .context}

/-- An activation that keeps running in its place. -/
theorem stays (code : f.activity = .bytecode r context) (laid : f.Laid) {x y : Exec σ α}
    (h : Lockstep t pre x y (Same fun _ => Layer.Runs f k)) :
    Lockstep t pre x y (Same fun _ => Layer.Continues f) := by
  refine h.mono (fun _ h => h) ?_
  intro _ _ _ hc
  obtain ⟨rfl, hc⟩ := hc
  exact ⟨rfl, .stays (.bytecode code laid (hc.mono (Nat.zero_le _)))⟩

theorem continueAt (phase : Nat) :
    Steady (σ := σ) t (Layer.Runs f k) (Exec.continueAt phase) fun _ => Layer.Runs f k :=
  modifyFrame (fun _ _ => rfl) fun _ _ _ => ⟨_, _, _, rfl⟩

section

variable (suits : host.Suits t) (code : f.activity = .bytecode r context) (laid : f.Laid)
include code laid

/-- A result of a metamethod becomes a truth value. -/
theorem judge (φ : Value → Value) :
    Steady (σ := σ) t (Layer.Runs f k) (do Exec.push (φ (← Exec.pop))) fun _ =>
      Layer.Continues f :=
  pop.andThen fun _ => stays code laid (push _)

theorem finishBinary (op : BinaryOp) :
    Steady (σ := σ) t (Layer.Runs f k) (Exec.finishBinary op) fun _ => Layer.Continues f := by
  cases op with
  | lss => exact judge code laid _
  | gtr => exact judge code laid _
  | equ => exact judge code laid _
  | neq => exact judge code laid _
  | _ => exact stays code laid (.pure fun c hc => ⟨rfl, hc⟩)

/-- The operands of a write are there, so they can be removed. -/
theorem dropWrite (hk : 3 ≤ k) :
    Steady (σ := σ) t (Layer.Runs f k) Exec.dropWrite fun _ => Layer.Continues f := by
  refine stays (k := 0) code laid ?_
  refine (heightLess fun c hc => ?_).andAt fun i => ?_
  · have := hc.operands
    omega
  · intro c M N alike hc
    obtain ⟨hi, hc⟩ := hc
    have h (M : Machine σ) (p : Layer) (on : M.On p c) :
        (M.memory.values.truncate (p.values.length + i)).toList = p.values ++ c.values.take i := by
      rw [Stack.toList_truncate, on.values, List.take_length_add_append]
    refine .ok (alike.onValues (h M _ alike.left) (h N _ alike.right) fun e => by rw [e]) (.refl _)
      ⟨rfl, { hc with operands := ?_ }⟩
    have := hc.operands
    simp only [List.length_take]
    omega

include suits

/-! ### Operators -/

/-- A metamethod called on operands that are there. -/
theorem callMethod (method : Value) {argc : Nat} (returns phase : Nat) (hk : argc ≤ k) :
    Steady t (Layer.Runs f k) (Exec.callMethod host method argc returns phase)
      fun _ => Layer.Continues f := by
  refine (continueAt phase).andThen fun _ => (heightLess fun c hc => ?_).andAt fun i => ?_
  · have := hc.operands
    omega
  · refine (invokeAt suits code laid method (some returns)).mono ?_ fun _ _ _ h => h
    intro c hc
    obtain ⟨hi, hc⟩ := hc
    have := hc.operands
    exact ⟨hc.mono (Nat.zero_le _), by omega, by omega⟩

/-- The metamethod of a binary operator called on its operands, or on a copy of them. -/
theorem callOverload (op : BinaryOp) (method x y : Value) (hk : 2 ≤ k) :
    Steady t (Layer.Runs f k) (Exec.callOverload host op method x y)
      fun _ => Layer.Continues f := by
  unfold Exec.callOverload
  dsimp only
  generalize (Overload.ofBinary op).order x y = operands
  obtain ⟨a, b⟩ := operands
  have copied : Steady t (Layer.Runs f k)
      (if op = .leq ∨ op = .geq then do
        Exec.push a
        Exec.push b
        Exec.callMethod host method 2 1 1
      else Exec.callMethod host method 2 1 1) fun _ => Layer.Continues f := by
    refine ite Iff.rfl (fun _ => ?_) fun _ => callMethod suits code laid method 1 1 hk
    refine (push a).andThen fun _ => (push b).andThen fun _ => ?_
    exact callMethod suits code laid method 1 1 (by omega)
  exact ite Iff.rfl (fun _ => (overwriteTop (by simpa using hk)).andThen fun _ => copied)
    fun _ => copied

theorem operateBinary (op : BinaryOp) :
    Steady t (Layer.Runs f k) (Exec.operateBinary host op) fun _ => Layer.Continues f := by
  refine (peek 0).andThen fun y => (peek 1).andThen fun x => heap.andThen fun h => ?_
  refine ofFault.andThen fun result => assume fun _ => ?_
  cases result with
  | some value => exact stays code laid (replaceTop 2 value)
  | none =>
    dsimp only
    cases h.overloadMethod op x y with
    | some method => exact callOverload suits code laid op method x y (by omega)
    | none =>
      cases op with
      | equ => exact stays code laid (replaceTop 2 _)
      | neq => exact stays code laid (replaceTop 2 _)
      | _ => exact .fault

theorem orderEqual (op : BinaryOp) :
    Steady t (Layer.Runs f k) (Exec.orderEqual host op) fun _ => Layer.Continues f := by
  refine pop.andThen fun less => ite Iff.rfl (fun _ => stays code laid (replaceTop 2 _)) fun _ => ?_
  refine (peek 0).andThen fun b => (peek 1).andThen fun a => heap.andThen fun h => ?_
  cases h.binaryMethod a b "__equ" (Overload.ofBinary op).latterFirst with
  | some method => exact callMethod suits code laid method 1 2 (by omega)
  | none => exact .fault

/-- One phase of a binary operator. -/
theorem binaryOperator (op : BinaryOp) (phase : Nat) :
    Steady t (Layer.Runs f k) (Exec.binaryOperator host op phase)
      fun _ => Layer.Continues f := by
  refine ite Iff.rfl (fun _ => ?_) fun _ => ?_
  · cases OrderPhase.ofNumber phase with
    | less => exact operateBinary suits code laid op
    | equal => exact orderEqual suits code laid op
    | finish => exact judge code laid _
  · cases OperatorPhase.ofNumber phase with
    | operate => exact operateBinary suits code laid op
    | finish => exact finishBinary code laid op

/-- One phase of a unary operator. -/
theorem unaryOperator (op : UnaryOp) (phase : Nat) :
    Steady t (Layer.Runs f k) (Exec.unaryOperator host op phase)
      fun _ => Layer.Continues f := by
  unfold Exec.unaryOperator
  cases OperatorPhase.ofNumber phase with
  | finish => exact stays code laid (.pure fun c hc => ⟨rfl, hc⟩)
  | operate =>
    refine (peek 0).andThen fun x => ?_
    cases Operator.unary op x with
    | some value => exact stays code laid (replaceTop 1 value)
    | none =>
      refine heap.andThen fun h => ?_
      cases h.metamethod x (Overload.ofUnary op) with
      | some method => exact callMethod suits code laid method 1 1 (by omega)
      | none => exact .fault

/-! ### Tables and vectors -/

theorem readEntry (throughMethod : Bool) :
    Steady t (Layer.Runs f k) (Exec.readEntry host throughMethod) fun _ => Layer.Continues f := by
  refine (peek 0).andThen fun key => (peek 1).andThen fun container => heap.andThen fun h => ?_
  cases container with
  | vector v => exact stays code laid (replaceTop 2 _)
  | _ =>
    refine ofFault.andThen fun table => assume fun _ => ?_
    cases (if throughMethod then h.tableMethod table "__ren" else none) with
    | some method => exact callMethod suits code laid method 1 1 (by omega)
    | none => exact stays code laid (replaceTop 2 _)

theorem updateEntry (throughMethod : Bool) :
    Steady t (Layer.Runs f k) (Exec.updateEntry host throughMethod)
      fun _ => Layer.Continues f := by
  refine (peek 0).andThen fun key => (peek 1).andThen fun container => (peek 2).andThen fun value =>
    heap.andThen fun h => ?_
  have hwrite {φ : Heap → Heap} (hφ : ∀ h, (φ h).coroutines = h.coroutines) :
      Steady (σ := σ) t (Layer.Runs f (max (max (max k 1) 2) 3))
        (do
          modify fun m => m.onHeap φ
          Exec.dropWrite)
        fun _ => Layer.Continues f :=
    (onHeap hφ).andThen fun _ => dropWrite code laid (by omega)
  cases container with
  | vector v =>
    refine ofFault.andThen fun index => assume fun _ => ite Iff.rfl (fun _ => .fault) fun _ => ?_
    exact hwrite fun h => by simp
  | _ =>
    refine ofFault.andThen fun table => assume fun _ => ?_
    cases (if throughMethod then h.tableMethod table "__uen" else none) with
    | some method =>
      refine (overwriteTop (Nat.le_max_right _ 3)).andThen fun _ => ?_
      exact callMethod suits code laid method 0 1 (by omega)
    | none => exact hwrite fun h => by simp

/-- One phase of a table or vector instruction. -/
theorem tableOperator (op : TableOp) (phase : Nat) :
    Steady t (Layer.Runs f k) (Exec.tableOperator host op phase) fun _ => Layer.Continues f := by
  unfold Exec.tableOperator
  cases OperatorPhase.ofNumber phase with
  | finish => exact stays code laid (.pure fun c hc => ⟨rfl, hc⟩)
  | operate =>
    cases op with
    | setMeta =>
      refine heap.andThen fun h => pop.andThen fun x => ofFault.andThen fun table =>
        assume fun _ => pop.andThen fun y => ofFault.andThen fun metatable => assume fun _ => ?_
      exact stays code laid (onHeap fun h => by simp)
    | getMeta =>
      refine heap.andThen fun h => pop.andThen fun x => ofFault.andThen fun table =>
        assume fun _ => ?_
      cases (h.table table).metatable with
      | some metatable => exact stays code laid (push _)
      | none => exact stays code laid (push _)
    | read => exact readEntry suits code laid true
    | readLocal => exact readEntry suits code laid false
    | update => exact updateEntry suits code laid true
    | updateLocal => exact updateEntry suits code laid false
    | insert =>
      refine pop.andThen fun value => pop.andThen fun key => heap.andThen fun h =>
        (peek 0).andThen fun x => ofFault.andThen fun table => assume fun _ => ?_
      exact stays code laid (onHeap fun h => by simp)
    | push =>
      refine heap.andThen fun h => pop.andThen fun x => ofFault.andThen fun v => assume fun _ =>
        pop.andThen fun value => ?_
      exact stays code laid (onHeap fun h => by simp)
    | pop =>
      refine heap.andThen fun h => pop.andThen fun x => ofFault.andThen fun v => assume fun _ => ?_
      cases (h.vector v).back? with
      | some value => exact (onHeap fun h => by simp).andThen fun _ => stays code laid (push value)
      | none => exact .fault

/-! ### Variables -/

omit suits in
/-- An instruction on variables. -/
theorem scopeOperator (op : ScopeOp) :
    Steady (σ := σ) t (Layer.Runs f k) (Exec.scopeOperator context op)
      fun _ => Layer.Continues f := by
  have hread (scope : Ref .context) : Steady (σ := σ) t (Layer.Runs f k)
      (Exec.readVariable scope) fun _ => Layer.Continues f := by
    refine heap.andThen fun h => pop.andThen fun x => ofFault.andThen fun name => assume fun _ => ?_
    refine (getHeap (φ := fun h => h.readVariable scope name) fun h => ?_).andThen fun v =>
      stays code laid (push v)
    exact .of_coroutines_eq (by simp)
  have hwrite (scope : Ref .context) : Steady (σ := σ) t (Layer.Runs f k)
      (Exec.writeVariable scope) fun _ => Layer.Continues f := by
    refine heap.andThen fun h => pop.andThen fun x => ofFault.andThen fun name => assume fun _ => ?_
    exact pop.andThen fun value => stays code laid (onHeap fun h => by simp)
  cases op with
  | read => exact hread context
  | write => exact hwrite context
  | readGlobal => exact heap.andThen fun h => hread _
  | writeGlobal => exact heap.andThen fun h => hwrite _

end

end Lockstep

end ScriptVm
