import ScriptVm.Machine.Step
import ScriptVm.Proofs.Mirror.Operators

/-!
# Instructions in a mirror

An instruction that does not jump does in the mirror what it does, so long as the
host tells no twins apart.  One that makes a closure or a coroutine makes it known in
the mirror.

Main statements: `Mirrors.execute`, `Machine.Twin.loadFunction` (a closure is made)
and `Machine.Twin.makeCoroutine` (a coroutine is made).
-/

namespace ScriptVm

variable {σ α β γ : Type} {m : Mirror σ} {host : Host σ}

namespace Mirrors

/-! ### Loads and stores -/

theorem loadString (r : Ref .function) (imm : Int64) :
    Mirrors (σ := σ) m (Exec.loadString r imm) (Exec.loadString r imm) Equal := by
  refine heap.bind fun h h' hh => ?_
  rw [hh.function_eq]
  dsimp only
  rw [(hh.units _).strings]
  generalize (if imm < 0 then none else (h.unit (h.function r).unit).strings[imm.toNatClampNeg]?)
    = found
  cases found with
  | some s => exact push (.str s)
  | none => exact fault _

theorem loadConstant (c : Constant) (imm : Int64) :
    Mirrors m (Exec.loadConstant host c imm) (Exec.loadConstant host c imm) Equal := by
  cases c with
  | newTable => exact (allocate fun H H' hH => hH.newTable).andThen fun r => push (.table r)
  | newVector =>
    refine get fun M M' twin => ?_
    rw [twin.config]
    exact (ofDefect _).andThen fun _ => (allocate fun H H' hH => hH.newVector .nil).andThen fun r =>
      push (.vector r)
  | argumentCount =>
    refine frame.bind fun f f' hf => ?_
    rw [hf.rest]
    exact push (.int _)
  | nil => exact push .nil
  | float => exact push (.float _)
  | true => exact push (.bool _)
  | false => exact push (.bool _)

theorem localSlot (imm : Int64) :
    Mirrors (σ := σ) m (Exec.localSlot imm) (Exec.localSlot imm) Equal := by
  refine frame.bind fun f f' hf => ?_
  rw [hf.rest]
  exact ite Iff.rfl (fun _ => fault _) fun _ => done

theorem loadLocal (imm : Int64) :
    Mirrors (σ := σ) m (Exec.loadLocal imm) (Exec.loadLocal imm) Equal :=
  (localSlot imm).andThen fun i => (slot i).bind fun _ _ hv => push hv

theorem storeLocal (imm : Int64) :
    Mirrors (σ := σ) m (Exec.storeLocal imm) (Exec.storeLocal imm) Equal :=
  (localSlot imm).andThen fun i => pop.bind fun _ _ hv => setSlot i hv

theorem loadArgument (imm : Int64) :
    Mirrors (σ := σ) m (Exec.loadArgument imm) (Exec.loadArgument imm) Equal := by
  refine frame.bind fun f f' hf => ?_
  rw [hf.rest]
  exact ite Iff.rfl (fun _ => (slot _).bind fun _ _ hv => push hv) fun _ => push .nil

/-! ### Conditions -/

theorem condition (c : Condition) :
    Mirrors (σ := σ) m (Exec.condition c) (Exec.condition c) Equal := by
  cases c with
  | always => exact done
  | falsy => exact pop.bind fun _ _ hv => pure (congrArg not hv.truthy_eq)
  | truthy => exact pop.bind fun _ _ hv => pure hv.truthy_eq
  | isNil => exact pop.bind fun _ _ hv => pure hv.isNil_eq
  | notNil => exact pop.bind fun _ _ hv => pure (congrArg not hv.isNil_eq)

/-- The top try mark is removed. -/
theorem tryLeave (r : Ref .function) (imm : Int64) :
    Mirrors (σ := σ) m (Exec.tryOperator r .leave imm) (Exec.tryOperator r .leave imm) Equal := by
  refine frame.bind fun f f' hf => get fun M M' twin => ?_
  rw [hf.rest, twin.memory.marks_size_eq]
  refine ite Iff.rfl (fun _ => modify fun M M' twin => twin.onMarks ?_) fun _ => done
  rw [Stack.toList_dropLast, Stack.toList_dropLast, List.dropLast_eq_take, List.dropLast_eq_take,
    twin.memory.marks.length_eq]
  exact List.forall₂_take _ twin.memory.marks

theorem tryThrow (r : Ref .function) (imm : Int64) :
    Mirrors (σ := σ) m (Exec.tryOperator r .throw imm) (Exec.tryOperator r .throw imm) Equal := by
  refine pop.bind fun v v' hv => heap.bind fun h h' hh => ?_
  rw [hh.display_eq hv]
  exact fault _

theorem shapeRun (imm : Int64) :
    Mirrors m (Exec.shapeRun host imm) (Exec.shapeRun host imm) Equal :=
  popDelimiter.andThen fun start => shape _ start _

/-! ### The stack, calls and coroutines -/

section

variable (oblivious : host.Oblivious m.states m.aside)
include oblivious

/-- An instruction on the stack, a call or a coroutine, but for the one that makes a coroutine. -/
theorem control (context : Ref .context) (op : ControlOp) (hop : op ≠ .makeCoroutine) :
    Mirrors m (Exec.control host context op) (Exec.control host context op)
      (Option.Rel (Exit.Twin m.like)) := by
  cases op with
  | dup => exact (peek 0).bind fun _ _ hv => (push hv).andThen fun _ => pure .none
  | pop => exact pop.bind fun _ _ _ => pure .none
  | makeCoroutine => exact absurd rfl hop
  | yield =>
    exact peekDelimiter.andThen fun start => (takeFrom start).bind fun _ _ hvs =>
      pure (.some (.yielded hvs))
  | resume =>
    refine heap.bind fun h h' hh => pop.bind fun v v' hv => ?_
    refine (ofFault (hh.asCoroutine hv)).bind fun r r' hr => peekDelimiter.andThen fun start => ?_
    exact (takeFrom start).bind fun _ _ hvs => pure (.some (.switched hr hvs))
  | delimit => exact pushDelimiter.andThen fun _ => pure .none
  | call =>
    exact pop.bind fun _ _ hcallee => peekDelimiter.andThen fun base =>
      (invoke oblivious hcallee base none).andThen fun _ => pure .none
  | ret => exact ret.andThen fun _ => pure .none
  | bind =>
    refine heap.bind fun h h' hh => (peek 0).bind fun v v' hv => ?_
    refine (ofFault (.of_eq (hh.asFunction_eq hv))).andThen fun r => ?_
    exact (onHeap fun H H' hH => hH.bind r context).andThen fun _ => pure .none
  | undelimit => exact popDelimiter.andThen fun _ => pure .none
  | dupRun =>
    exact peekDelimiter.andThen fun start => valuesFrom start fun _ _ hvs =>
      pushDelimiter.andThen fun _ => (pushAll hvs).andThen fun _ => pure .none
  | pack =>
    exact popDelimiter.andThen fun start => (takeFrom start).bind fun _ _ hvs =>
      (allocate fun H H' hH => hH.newVector hvs).andThen fun r =>
        (push (.vector r)).andThen fun _ => pure .none
  | unpack =>
    refine heap.bind fun h h' hh => pop.bind fun v v' hv => ?_
    refine (ofFault (.of_eq (hh.asVector_eq hv))).andThen fun r => heap.bind fun g g' hg => ?_
    exact pushDelimiter.andThen fun _ => (pushAll (hg.vector r)).andThen fun _ => pure .none
  | nop => exact pure .none

/-- A system call. -/
theorem syscall (i : Fin 8) :
    Mirrors m (Exec.syscall host i) (Exec.syscall host i) Equal := by
  unfold Exec.syscall
  cases hcall : host.syscall i with
  | none => exact done
  | some call =>
    refine get fun M M' twin => ?_
    have hresult := oblivious.syscall hcall twin.heap twin.memory twin.state
    have htwin : Machine.Twin m
        { M with
          memory := (call M.heap M.memory M.state).memory
          state := (call M.heap M.memory M.state).state }
        { M' with
          memory := (call M'.heap M'.memory M'.state).memory
          state := (call M'.heap M'.memory M'.state).state } :=
      ⟨twin.heap, hresult.memory, twin.config, hresult.state⟩
    refine (set htwin).andThen fun _ => ?_
    rw [hresult.defect]
    cases (call M.heap M.memory M.state).defect with
    | none => exact done
    | some d => exact defect d

/-! ### Instructions -/

/-- One phase of an instruction that neither jumps nor makes a closure or a coroutine. -/
theorem execute (r : Ref .function) (context : Ref .context) {op : Op} (hop : op.jumps = false)
    (hclosure : ∀ w, op ≠ .loadFunction w) (hcoroutine : op ≠ .control .makeCoroutine)
    (imm : Int64) (phase : Nat) :
    Mirrors m (Exec.execute host r context op imm phase) (Exec.execute host r context op imm phase)
      (Option.Rel (Exit.Twin m.like)) := by
  have goes {x : Exec σ Unit} (hx : Mirrors m x x Equal) :
      Mirrors m
        (do
          x
          return none)
        (do
          x
          return none) (Option.Rel (Exit.Twin m.like)) :=
    hx.andThen fun _ => pure .none
  cases op with
  | binary o => exact goes (binaryOperator oblivious o phase)
  | table o => exact goes (tableOperator oblivious o phase)
  | unary o => exact goes (unaryOperator oblivious o phase)
  | scope o => exact goes (scopeOperator context o)
  | loadFunction w => exact absurd rfl (hclosure w)
  | loadString _ => exact goes (loadString r imm)
  | loadInt w => cases w <;> exact goes (push (.int _))
  | loadConstant c => exact goes (loadConstant c imm)
  | loadLocal _ => exact goes (loadLocal imm)
  | storeLocal _ => exact goes (storeLocal imm)
  | loadArgument _ => exact goes (loadArgument imm)
  | branch _ _ => cases hop
  | guarded o =>
    cases o with
    | enter _ => cases hop
    | leave => exact goes (tryLeave r imm)
    | throw => exact goes (tryThrow r imm)
  | shape _ => exact goes (shapeRun imm)
  | syscall i => exact goes (syscall oblivious i)
  | control o => exact control oblivious context o fun h => hcoroutine (by rw [h])

end

end Mirrors

/-! ### Steps that make something known -/

/-- The outcomes match once it is known what was made. -/
def Mirrored.Grown (m : Mirror σ) (R : Likeness → α → β → Prop)
    (r : EStateM.Result Stop (Machine σ) α) (r' : EStateM.Result Stop (Machine σ) β) : Prop :=
  ∃ T, m.like ≤ T ∧ Mirrored { m with like := T } (R T) r r'

/-- Nothing was made. -/
theorem Mirrored.stay {R : Likeness → α → β → Prop}
    {r : EStateM.Result Stop (Machine σ) α}
    {r' : EStateM.Result Stop (Machine σ) β} (h : Mirrored m (R m.like) r r') :
    Mirrored.Grown m R r r' :=
  ⟨m.like, Likeness.le_refl _, h⟩

/-- What leaves the coroutine running. -/
theorem Mirrored.goes {x y : Exec σ Unit} {M M' : Machine σ}
    (h : Mirrored m Mirrors.Equal (x M) (y M')) :
    Mirrored m (Option.Rel (Exit.Twin m.like))
      ((do
        x
        return none) M)
      ((do
        y
        return none) M') := by
  rw [Exec.bind_apply, Exec.bind_apply]
  generalize x M = r at h
  generalize y M' = r' at h
  cases h with
  | ok twin _ => exact .ok twin .none
  | error e twin => exact .error e twin

theorem Mirrored.Grown.goes {x y : Exec σ Unit} {M M' : Machine σ}
    (h : Mirrored.Grown m (fun _ => Mirrors.Equal) (x M) (y M')) :
    Mirrored.Grown m (fun T => Option.Rel (Exit.Twin T))
      ((do
        x
        return none) M)
      ((do
        y
        return none) M') := by
  obtain ⟨T, hle, hx⟩ := h
  exact ⟨T, hle, hx.goes⟩

namespace Machine.Twin

variable {M M' : Machine σ} {R : Likeness → α → β → Prop}

/-- More is known. -/
theorem mono (oblivious : host.Oblivious m.states m.aside) (twin : M.Twin m M') {T : Likeness}
    (hle : m.like ≤ T) {h h' : Heap} (hh : h.Twin T m.aside h') :
    Machine.Twin { m with like := T } { M with heap := h } { M' with heap := h' } where
  heap := hh
  memory := twin.memory.mono hle.toWithin
  config := twin.config
  state := oblivious.mono hle twin.state

/-- A value is pushed. -/
theorem push (twin : M.Twin m M') {v v' : Value} (hv : v.Twin m.like v') :
    (M.onValues fun values => values.push v).Twin m (M'.onValues fun values => values.push v') := by
  refine twin.onValues ?_
  rw [Stack.toList_push, Stack.toList_push]
  exact Value.Twins.append twin.memory.values (.cons hv .nil)

/-- A computation that makes nothing, and what comes after it. -/
theorem grow {x : Exec σ γ} {f : γ → Exec σ α} {g : γ → Exec σ β}
    {Q : γ → γ → Prop} (twin : M.Twin m M') (hx : Mirrors m x x Q)
    (hf : ∀ a b N N', Q a b → N.Twin m N' → Mirrored.Grown m R (f a N) (g b N')) :
    Mirrored.Grown m R ((x >>= f) M) ((x >>= g) M') := by
  have h := hx M M' twin
  rw [Exec.bind_apply, Exec.bind_apply]
  generalize x M = r at h
  generalize x M' = r' at h
  cases h with
  | error e twin' => exact Mirrored.stay (.error e twin')
  | ok twin' result => exact hf _ _ _ _ result twin'

variable (oblivious : host.Oblivious m.states m.aside)
include oblivious

/-- A closure is made. -/
theorem loadFunction (twin : M.Twin m M') (r : Ref .function) (imm : Int64) :
    Mirrored.Grown m (fun _ => Mirrors.Equal) (Exec.loadFunction r imm M)
      (Exec.loadFunction r imm M') := by
  unfold Exec.loadFunction
  refine twin.grow Mirrors.heap fun h h' N N' hh twin => ?_
  dsimp only
  rw [hh.function_eq, (hh.units _).size]
  split
  · exact Mirrored.stay (.error _ twin)
  · rcases hh.newFunction (h.function r).unit imm.toNatClampNeg none with
      ⟨d, hnone, hnone'⟩ | ⟨made, g, g', hnew, hnew', hle, hg⟩
    · rw [hnone, hnone']
      exact Mirrored.stay (.error _ twin)
    · rw [hnew, hnew']
      have hknown : (m.like.settle made (h.function r).unit imm.toNatClampNeg).home made
          = some ((h.function r).unit, imm.toNatClampNeg) := if_pos rfl
      exact ⟨_, hle, .ok ((twin.mono oblivious hle hg).push (.function hknown)) rfl⟩

/-- A coroutine is made. -/
theorem makeCoroutine (twin : M.Twin m M') (context : Ref .context) :
    Mirrored.Grown m (fun T => Option.Rel (Exit.Twin T))
      (Exec.control host context .makeCoroutine M)
      (Exec.control host context .makeCoroutine M') := by
  refine twin.grow Mirrors.heap fun h h' _ _ hh twin =>
    twin.grow Mirrors.pop fun v v' N N' hv twin => ?_
  have hentry := hh.coroutineEntry hv
  generalize Exec.coroutineEntry h v = x at hentry
  generalize Exec.coroutineEntry h' v' = y at hentry
  cases hentry with
  | error f => exact Mirrored.stay (.error _ twin)
  | @ok entry entry' hentry =>
    have hsame := Coroutine.make_entry host.sizes entry entry' none N.config
    rcases Coroutine.make_cases host.sizes entry none N.config with hmade | ⟨d, hmade, -⟩
    · rw [hmade] at hsame
      simp only [Exec.ofFault, Exec.bind_apply, Exec.pure_apply, Exec.get_apply, twin.config, hmade,
        hsame, Exec.ofDefect, Except.map]
      obtain ⟨hle, hheap⟩ := twin.heap.newCoroutine (Coroutine.Twin.new hentry none N.config)
      have hmore := twin.mono oblivious hle hheap
      exact ⟨_, hle, .ok (hmore.push (.coroutine (.inr ⟨rfl, rfl⟩))) .none⟩
    · rw [hmade] at hsame
      simp only [Exec.ofFault, Exec.bind_apply, Exec.pure_apply, Exec.get_apply, twin.config, hmade,
        hsame, Exec.ofDefect, Except.map, Exec.defect_apply]
      exact Mirrored.stay (.error _ twin)

end Machine.Twin

end ScriptVm
