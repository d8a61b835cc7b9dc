import Mathlib.Logic.Relation
import ScriptVm.Proofs.Upkeep

/-!
# Moves of the machine

There are only a few ways in which an instruction changes a machine, and this
file says which: a **move** is one elementary change.  Whatever an instruction
does, and however it ends, the machine has made moves and nothing else.  So what
every move keeps is kept by every instruction, on any stacks, by any program.

Two things are no moves: the return from an activation, which takes its frame
off the call stack, and a system call, which may do anything to the stacks.  A
step makes moves and at most one of these.

Main statements: `Exec.step_paces` (what a step does), `Exec.run_grows` (no run
touches a coroutine of the heap).
-/

namespace ScriptVm

variable {σ α β : Type}

/-- **What an instruction can do to the heap**, one change at a time. -/
inductive Heap.Move : Heap → Heap → Prop
  | table (h : Heap) : Move h h.newTable.2
  | vector (h : Heap) (items : List Value) : Move h (h.newVector items).2
  | context (h : Heap) (parent : Option (Ref .context)) : Move h (h.newContext parent).2
  | function {h h' : Heap} {unit : Ref .unit} {index : Nat} {r : Ref .function}
      (made : h.newFunction unit index none = .ok (r, h')) : Move h h'
  | coroutine (h : Heap) (entry : Value) (config : Config) :
      Move h (h.newCoroutine (.new entry none config)).2
  | metatable (h : Heap) (t : Ref .table) (metatable : Option (Ref .table)) :
      Move h (h.modifyTable t fun table => { table with metatable })
  | entry (h : Heap) (t : Ref .table) (key value : Value) : Move h (h.writeEntry t key value)
  | items (h : Heap) (v : Ref .vector) (φ : Array Value → Array Value) :
      Move h (h.modifyVector v φ)
  | bind (h : Heap) (r : Ref .function) (context : Ref .context) : Move h (h.bind r context)
  | declare (h : Heap) (c : Ref .context) (names : List String) :
      Move h (h.declareVariables c names)
  | read (h : Heap) (c : Ref .context) (name : String) : Move h (h.readVariable c name).2
  | write (h : Heap) (c : Ref .context) (name : String) (value : Value) :
      Move h (h.writeVariable c name value)

/-- No change of the heap touches a coroutine that is already there. -/
theorem Heap.Move.grows {h h' : Heap} (move : h.Move h') : h.Grows h' := by
  cases move with
  | coroutine entry config => exact .newCoroutine h entry config
  | function made => exact .of_coroutines_eq (h.coroutines_newFunction made)
  | declare c names => exact .of_coroutines_eq (h.coroutines_declareVariables c names)
  | read c name => exact .of_coroutines_eq (h.coroutines_readVariable c name)
  | write c name value => exact .of_coroutines_eq (h.coroutines_writeVariable c name value)
  | _ => exact .of_coroutines_eq rfl

namespace Machine

/-- Some function is active. -/
def Busy (M : Machine σ) : Prop :=
  M.memory.frames.toList ≠ []

/-- **What an instruction can do to the machine**, one change at a time. -/
inductive Move (host : Host σ) : Machine σ → Machine σ → Prop
  | values (M : Machine σ) (φ : Stack Value → Stack Value) : Move host M (M.onValues φ)
  | delimiters {M : Machine σ} (busy : M.Busy) (φ : Stack Nat → Stack Nat) :
      Move host M (M.onDelimiters φ)
  | marks {M : Machine σ} (busy : M.Busy) (φ : Stack TryMark → Stack TryMark) :
      Move host M (M.onMarks φ)
  /-- The current frame goes on in its code, or has made a step. -/
  | frame (M : Machine σ) (φ : Frame → Frame)
      (place : ∀ f, { φ f with
        activity := f.activity, ip := f.ip, nextIp := f.nextIp, progress := f.progress } = f) :
      Move host M (M.onFrames fun frames => frames.modifyLast φ)
  /-- A function becomes active. -/
  | enter (M : Machine σ) (f : Frame) (delimiters : f.delimiterBase = M.memory.delimiters.size)
      (marks : f.tryBase = M.memory.marks.size) :
      Move host M (M.onFrames fun frames => frames.push f)
  | heap {M : Machine σ} {φ : Heap → Heap} (move : M.heap.Move (φ M.heap)) :
      Move host M (M.onHeap φ)
  /-- An effectful function of the host is called. -/
  | effect (M : Machine σ) (r : Ref .effectExternal) (args : List Value) :
      Move host M
        { M with state := (host.callEffect r ⟨M.heap, M.memory, M.config⟩ args M.state).2 }
  /-- An asynchronous function of the host opens a call. -/
  | opening (M : Machine σ) (r : Ref .asyncExternal) :
      Move host M { M with state := (host.openAsync r ⟨M.heap, M.memory, M.config⟩ M.state).2 }
  /-- An asynchronous function of the host makes a step. -/
  | async (M : Machine σ) (r : Ref .asyncExternal) (object : Nat) (history : List (List Value)) :
      Move host M { M with state := (host.stepAsync r object M.heap history M.state).2 }

/-- Any number of moves. -/
abbrev Moves (host : Host σ) : Machine σ → Machine σ → Prop :=
  Relation.ReflTransGen (Move host)

theorem Move.busy {host : Host σ} {M N : Machine σ} (move : Move host M N) (hM : M.Busy) :
    N.Busy := by
  cases move with
  | frame φ place =>
    have hf := (List.dropLast_concat_getLast hM).symm
    have hmodified : (M.memory.frames.modifyLast φ).toList = _ := Stack.toList_modifyLast hf φ
    simp [Busy, onFrames, hmodified]
  | enter f => simp [Busy, onFrames]
  | _ => exact hM

theorem Moves.busy {host : Host σ} {M N : Machine σ} (moves : Moves host M N) (hM : M.Busy) :
    N.Busy := by
  induction moves with
  | refl => exact hM
  | tail _ move ih => exact move.busy ih

end Machine

/-- A closure gets its frame in a context that is there. -/
theorem Machine.Moves.entered {host : Host σ} {M N : Machine σ} {h : Heap}
    (hN : M.Moves host (N.onHeap fun _ => h)) (r : Ref .function) (c : Ref .context) (room : Nat)
    {f : Frame} (htops : N.Tops f) : M.Moves host (N.entered h r c room f) := by
  have hdeclared :=
    hN.tail (.heap (φ := fun h => h.declareVariables c (N.heap.prototype r).declared)
    (.declare h c _))
  have hroom := hdeclared.tail (.values _ fun values => values.fillTo room)
  exact hroom.tail (.enter _ f htops.delimiters htops.marks)

/-- The machines that moves lead to, as an invariant of calls. -/
def Machine.movesByCalls (host : Host σ) (M : Machine σ) : Machine.CallKeeping host where
  holds N := M.Moves host N
  values φ hN := hN.tail (.values _ φ)
  frame hφ hN := hN.tail (.frame _ _ fun f => (hφ f).1)
  enter {N} r room _ htops _ hN := by
    have hcontext :=
      hN.tail (.heap (φ := fun _ => (N.heap.newContext (N.heap.function r).parent).2)
      (.context N.heap _))
    exact Moves.entered hcontext r _ room htops
  enterAsync htops _ hN := hN.tail (.enter _ _ htops.delimiters htops.marks)
  effect r args hN := hN.tail (.effect _ r args)
  opening r hN := hN.tail (.opening _ r)
  async r object history hN := hN.tail (.async _ r object history)

/-- The machines that moves lead to while a function is active, as an invariant of steps. -/
def Machine.movesBySteps (host : Host σ) {M : Machine σ} (hM : M.Busy) :
    Machine.StepKeeping host where
  toCallKeeping := M.movesByCalls host
  scope _ := True
  root _ _ := trivial
  delimiters φ hN := hN.tail (.delimiters (hN.busy hM) φ)
  marks φ hN := hN.tail (.marks (hN.busy hM) φ)
  table hN := hN.tail (.heap (.table _))
  vector items hN := hN.tail (.heap (.vector _ items))
  function made hN := hN.tail (.heap (.function made))
  coroutine entry config hN := hN.tail (.heap (.coroutine _ entry config))
  metatable t m hN := hN.tail (.heap (.metatable _ t m))
  items v φ hN := hN.tail (.heap (.items _ v φ))
  bind r _ hN := hN.tail (.heap (.bind _ r _))
  read name _ hN := hN.tail (.heap (.read _ _ name))
  write name value _ hN := hN.tail (.heap (.write _ _ name value))

namespace Exec

/-- **A computation that makes moves only**, however it ends.  It may rely on an active function if
`busy` says so. -/
def Tame (host : Host σ) (busy : Prop) (x : Exec σ α) : Prop :=
  ∀ M : Machine σ, (busy → M.Busy) → M.Moves host (last (x M))

namespace Tame

variable {host : Host σ} {busy : Prop}

theorem of_calls {x : Exec σ α}
    (h : ∀ M : Machine σ, Upholds (M.movesByCalls host).toKeeping x) : Tame host busy x :=
  fun M _ => h M M .refl

theorem bind {x : Exec σ α} {f : α → Exec σ β} (hx : Tame host busy x)
    (hf : ∀ a, Tame host busy (f a)) : Tame host busy (x >>= f) := by
  intro M hM
  have hmoves := hx M hM
  rw [bind_apply]
  generalize x M = r at hmoves
  cases r with
  | error e N => exact hmoves
  | ok a N => exact hmoves.trans (hf a N fun hb => hmoves.busy (hM hb))

theorem height : Tame host busy (Exec.height : Exec σ Nat) :=
  of_calls fun _ => .height

theorem pushAll (vs : List Value) : Tame host busy (Exec.pushAll vs : Exec σ Unit) :=
  of_calls fun _ => .pushAll vs

/-- Entering a closure, also in a given context. -/
theorem enter (r : Ref .function) (base : Nat) (returnSize : Option Nat)
    (context : Option (Ref .context)) :
    Tame host busy (Exec.enter host r base returnSize context) := by
  cases context with
  | none => exact of_calls fun _ => .enter r base returnSize
  | some c =>
    intro M _
    rcases enter_cases host r base returnSize (some c) M with ⟨d, h⟩ |
      ⟨room, f, htops, -, h⟩
    · rw [h]
      exact .refl
    · rw [h]
      have hstay : M.Moves host (M.onHeap fun _ => M.heap) := .refl
      exact hstay.entered r c room htops

/-- **Every call** makes moves only. -/
theorem invoke (callee : Value) (base : Nat) (returnSize : Option Nat) :
    Tame host busy (Exec.invoke host callee base returnSize) :=
  of_calls fun _ => .invoke callee base returnSize

theorem fetch (r : Ref .function) :
    Tame host busy (Exec.fetch r : Exec σ (Op × Int64 × Nat)) :=
  of_calls fun _ => .fetch r

/-- **Every instruction but a system call**, with a return still to be made. -/
theorem perform (hb : busy) (r : Ref .function) (context : Ref .context) (op : Op) (imm : Int64)
    (phase : Nat) (hop : ∀ i, op ≠ .syscall i) :
    Tame host busy (Exec.perform host r context op imm phase) := by
  intro M hM
  let K := Machine.movesBySteps host (hM hb)
  refine Upholds.perform (K := K.toInstructionKeeping) trivial r op imm phase .refl ?_
    (fun o _ => Upholds.tryOperator (K := K) r o imm M .refl) fun i hi => absurd hi (hop i)
  intro o _
  refine Upholds.tableOperator (K := K.toInstructionKeeping) o
    (fun _ N t key value hN => ?_) phase M .refl
  exact hN.tail (.heap (.entry N.heap t key value))

/-- One step of an asynchronous call, with a return still to be made. -/
theorem advanceAsync (f : Frame) (call : AsyncCall) :
    Tame host busy (Exec.advanceAsync host f call) :=
  of_calls fun _ => .advanceAsync f call

end Tame

end Exec

/-! ### Whole steps -/

namespace Machine

/-- Moves, and perhaps a system call behind them. -/
inductive Strides (host : Host σ) (M : Machine σ) : Machine σ → Prop
  | moves {N : Machine σ} (moves : M.Moves host N) : Strides host M N
  | called {N : Machine σ} {i : Fin 8} {call : Syscall σ} (moves : M.Moves host N) (busy : N.Busy)
      (slot : host.syscall i = some call) : Strides host M (N.called call)

/-- What a step does that comes to a result: moves, perhaps a system call, and perhaps a return,
which takes the current frame off the call stack, with its delimiters and try marks. -/
inductive Paces (host : Host σ) (M : Machine σ) : Machine σ → Prop
  | goes {N : Machine σ} (strides : Strides host M N) : Paces host M N
  | returns {N : Machine σ} (strides : Strides host M N) {f : Frame}
      (frame : N.memory.frames.last? = some f) (values : Stack Value) :
      Paces host M { N with memory := {
        values
        frames := N.memory.frames.dropLast
        delimiters := N.memory.delimiters.truncate f.delimiterBase
        marks := N.memory.marks.truncate f.tryBase } }

theorem Strides.after {host : Host σ} {M N L : Machine σ} (strides : N.Strides host L)
    (moves : M.Moves host N) : M.Strides host L := by
  cases strides with
  | moves more => exact .moves (moves.trans more)
  | called more busy slot => exact .called (moves.trans more) busy slot

theorem Moves.grows {host : Host σ} {M N : Machine σ} (moves : M.Moves host N) :
    M.heap.Grows N.heap := by
  induction moves with
  | refl => exact .refl _
  | tail _ move ih =>
    refine ih.trans ?_
    cases move with
    | heap move => exact move.grows
    | _ => exact .refl _

theorem Strides.grows {host : Host σ} {M N : Machine σ} (strides : M.Strides host N) :
    M.heap.Grows N.heap := by
  cases strides with
  | moves moves => exact moves.grows
  | called moves busy slot => exact moves.grows

/-- The capacities stay as they are. -/
theorem Moves.config_eq {host : Host σ} {M N : Machine σ} (moves : M.Moves host N) :
    N.config = M.config := by
  induction moves with
  | refl => rfl
  | tail _ move ih => exact Eq.trans (by cases move <;> rfl) ih

theorem Strides.config_eq {host : Host σ} {M N : Machine σ} (strides : M.Strides host N) :
    N.config = M.config := by
  cases strides with
  | moves moves => exact moves.config_eq
  | called moves busy slot => exact moves.config_eq

theorem Paces.config_eq {host : Host σ} {M N : Machine σ} (paces : M.Paces host N) :
    N.config = M.config := by
  cases paces with
  | goes strides => exact strides.config_eq
  | returns strides frame values => exact strides.config_eq

theorem Paces.grows {host : Host σ} {M N : Machine σ} (paces : M.Paces host N) :
    M.heap.Grows N.heap := by
  cases paces with
  | goes strides => exact strides.grows
  | returns strides frame values => exact strides.grows

end Machine

namespace Exec

variable {host : Host σ}

/-- Every instruction, with a return still to be made. -/
theorem strides_perform {M : Machine σ} (hM : M.Busy) (r : Ref .function) (context : Ref .context)
    (op : Op) (imm : Int64) (phase : Nat) :
    M.Strides host (last (perform host r context op imm phase M)) := by
  by_cases hop : ∃ i, op = .syscall i
  · obtain ⟨i, rfl⟩ := hop
    have hlast : last (perform host r context (.syscall i) imm phase M)
      = last (syscall host i M) := by
      cases hcall : syscall host i M <;>
        simp [perform, execute, bind_apply, map_apply, hcall, last]
    rw [hlast, last_syscall]
    cases hslot : host.syscall i with
    | none => exact .moves .refl
    | some call => exact .called .refl hM hslot
  · exact .moves (Tame.perform hM r context op imm phase (fun i hi => hop ⟨i, hi⟩) M id)

/-- A step of an active function, with a return still to be made. -/
theorem strides_advance_busy {M : Machine σ} (hM : M.Busy) :
    M.Strides host (last (advance host M)) := by
  have hframe : M.memory.frames.last? = some (M.memory.frames.toList.getLast hM) := by
    rw [Stack.last?_eq_getLast?, List.getLast?_eq_some_getLast hM]
  generalize M.memory.frames.toList.getLast hM = f at hframe
  rw [advance, bind_of_ok (get_apply M), hframe]
  dsimp only
  cases hactivity : f.activity with
  | async call => exact .moves (Tame.advanceAsync f call M id)
  | bytecode r context =>
    have hmoves : M.Moves host (last (fetch r M)) := Tame.fetch r M id
    dsimp only
    rw [bind_apply]
    generalize fetch r M = result at hmoves
    cases result with
    | error e N => exact .moves hmoves
    | ok next N =>
      obtain ⟨op, imm, phase⟩ := next
      exact (strides_perform (hmoves.busy hM) r context op imm phase).after hmoves

/-- A machine without active functions hands out its values. -/
theorem advance_idle {M : Machine σ} (hM : ¬ M.Busy) :
    advance host M = .ok (.exits (.finished M.memory.values.toList))
      (M.onValues fun values => values.truncate 0) := by
  have hframes : M.memory.frames.last? = none := by
    rw [Stack.last?_eq_getLast?, List.getLast?_eq_none_iff]
    exact Classical.not_not.mp hM
  simp [advance, takeFrom, bind_apply, map_apply, hframes, Stack.valuesFrom_eq, ofDefect]

/-- A return takes the current frame off the call stack, with its delimiters and try marks, unless
the limits of sizes are reached. -/
theorem leave_cases (host : Host σ) (results : List Value) (M : Machine σ) :
    (∃ f values, M.memory.frames.last? = some f ∧
      leave host results M = .ok () { M with memory := {
        values
        frames := M.memory.frames.dropLast
        delimiters := M.memory.delimiters.truncate f.delimiterBase
        marks := M.memory.marks.truncate f.tryBase } }) ∨
    ∃ d N, leave host results M = .error (.defect d) N ∧ N.heap = M.heap ∧
      N.state = M.state := by
  cases hf : M.memory.frames.last? with
  | none => exact .inr ⟨.stackUnderflow, M, by simp [leave, frame, bind_apply, hf], rfl, rfl⟩
  | some f =>
    cases hsize : f.returnSize with
    | none =>
      refine .inl ⟨f, (M.memory.values.truncate f.stackBase).pushAll results, rfl, ?_⟩
      simp [leave, bind_apply, frame_apply hf, pushAll, shape, hsize, Machine.onValues,
        Machine.onFrames, Machine.onDelimiters, Machine.onMarks]
    | some size =>
      cases hgoal : host.sizes.add f.stackBase size with
      | error d =>
        refine .inr ⟨d, ((M.onFrames Stack.dropLast).onValues fun values =>
          values.truncate f.stackBase).onValues fun values => values.pushAll results, ?_,
            rfl, rfl⟩
        simp [leave, bind_apply, frame_apply hf, pushAll, hsize, shape_limit hgoal]
      | ok goal =>
        refine .inl ⟨f, fitTo goal ((M.memory.values.truncate f.stackBase).pushAll results),
          rfl, ?_⟩
        simp [leave, bind_apply, frame_apply hf, pushAll, hsize, shape_apply hgoal,
          Machine.onValues, Machine.onFrames, Machine.onDelimiters, Machine.onMarks]

/-- A step, with a return still to be made. -/
theorem strides_advance (host : Host σ) (M : Machine σ) :
    M.Strides host (last (advance host M)) := by
  by_cases hM : M.Busy
  · exact strides_advance_busy hM
  · rw [advance_idle hM]
    exact .moves (.single (.values M fun values => values.truncate 0))

/-- **What a step does**, if it comes to a result; and if it does not, it has done no more to the
heap and to the host's state. -/
theorem step_paces (host : Host σ) (M : Machine σ) :
    (∀ {e N}, step host M = .ok e N → M.Paces host N) ∧
    ∀ {e N}, step host M = .error e N →
      ∃ L, M.Strides host L ∧ N.heap = L.heap ∧ N.state = L.state := by
  have hstrides := strides_advance host M
  rw [step_eq]
  simp only [bind_apply]
  generalize advance host M = result at hstrides
  cases result with
  | error e N =>
    constructor
    · intro _ _ h
      cases h
    · intro _ _ h
      cases h
      exact ⟨N, hstrides, rfl, rfl⟩
  | ok outcome N =>
    cases outcome with
    | returns results =>
      simp only [conclude, bind_apply]
      rcases leave_cases host results N with ⟨f, values, hf, hleave⟩ |
        ⟨d, L, hleave, hheap, hstate⟩
      · rw [hleave]
        constructor
        · intro _ _ h
          cases h
          exact .returns hstrides hf values
        · intro _ _ h
          cases h
      · rw [hleave]
        constructor
        · intro _ _ h
          cases h
        · intro _ _ h
          cases h
          exact ⟨N, hstrides, hheap, hstate⟩
    | _ =>
      constructor
      · intro _ _ h
        cases h
        exact .goes hstrides
      · intro _ _ h
        cases h

/-- A step that stops with a fault has not begun to return. -/
theorem strides_of_fault {M N : Machine σ} {f : Fault} (h : step host M = .error (.fault f) N) :
    M.Strides host N := by
  have hstrides := strides_advance host M
  rw [step_eq, bind_apply] at h
  generalize advance host M = result at hstrides h
  cases result with
  | error e L =>
    cases h
    exact hstrides
  | ok outcome L =>
    cases outcome with
    | returns results =>
      simp only [conclude, bind_apply] at h
      rcases leave_cases host results L with ⟨g, values, -, hleave⟩ | ⟨d, K, hleave, -⟩
      · rw [hleave] at h
        cases h
      · rw [hleave] at h
        cases h
    | _ => cases h

/-- A step leaves the capacities as they are. -/
theorem step_config {M N : Machine σ} {e : Option Exit} (h : step host M = .ok e N) :
    N.config = M.config :=
  ((step_paces host M).1 h).config_eq

/-- No step touches a coroutine of the heap, however it ends. -/
theorem step_grows (host : Host σ) (M : Machine σ) : M.heap.Grows (last (step host M)).heap := by
  cases hstep : step host M with
  | ok e N => exact ((step_paces host M).1 hstep).grows
  | error e N =>
    obtain ⟨L, strides, hheap, -⟩ := (step_paces host M).2 hstep
    show M.heap.Grows N.heap
    rw [hheap]
    exact strides.grows

/-- Nor does a run of any length. -/
theorem run_grows (host : Host σ) (fuel : Nat) (M : Machine σ) :
    M.heap.Grows (last (run host fuel M)).heap := by
  induction fuel generalizing M with
  | zero => exact .refl _
  | succ fuel ih =>
    have hstep := step_grows host M
    rw [run, bind_apply]
    generalize step host M = result at hstep
    cases result with
    | error e N => exact hstep
    | ok exit N =>
      cases exit with
      | some e => exact hstep
      | none => exact hstep.trans (ih N)

end Exec

end ScriptVm
