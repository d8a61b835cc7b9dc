import ScriptVm.Machine.Step
import ScriptVm.Proofs.Exec

/-!
# A step and its return

A step that returns from an activation does two things: it determines the list of
results, and it puts them where the arguments of the activation were.  `advance`
is a step up to the second of these, so that the list of results can be seen:
the run that `Ret` takes, or the list that an asynchronous call finishes with.
`Exec.leave` is all that remains to be done.

Main statement: `Exec.step_eq` (a step is `advance`, and then `conclude`).
-/

namespace ScriptVm

variable {σ : Type}

/-- What the running activation comes to in a step. -/
inductive Outcome
  /-- It goes on, or has called another one. -/
  | goes
  /-- Control leaves the coroutine. -/
  | exits (e : Exit)
  /-- It returns these results. -/
  | returns (results : List Value)
  deriving DecidableEq, Repr

/-- The outcome of an instruction that is no return. -/
def Outcome.ofExit : Option Exit → Outcome
  | none => goes
  | some e => exits e

namespace Exec

/-- One phase of an instruction, with a return still to be made. -/
def perform (host : Host σ) (r : Ref .function) (context : Ref .context) (op : Op) (imm : Int64)
    (phase : Nat) : Exec σ Outcome :=
  if op = .control .ret then do
    let start ← popDelimiter
    return .returns (← takeFrom start)
  else do
    return .ofExit (← execute host r context op imm phase)

/-- One step of an asynchronous call, with a return still to be made. -/
def advanceAsync (host : Host σ) (f : Frame) (call : AsyncCall) : Exec σ Outcome := do
  let args ← takeFrom f.stackBase
  let history := call.history ++ [args]
  modifyFrame fun f => recordStep f history
  match ← askStep host call.function call.object history with
  | .finish results => return .returns results
  | .yield values => return .exits (.yielded values)
  | .switch coroutine args => return .exits (.switched coroutine args)
  | .call callee args =>
    pushAll args
    invoke host callee f.stackBase none
    return .goes

/-- One step, with a return still to be made. -/
def advance (host : Host σ) : Exec σ Outcome := do
  match (← get).memory.frames.last? with
  | none => return .exits (.finished (← takeFrom 0))
  | some f =>
    match f.activity with
    | .bytecode r context =>
      let (op, imm, phase) ← fetch r
      perform host r context op imm phase
    | .async call => advanceAsync host f call

/-- Make the return that is still to be made. -/
def conclude (host : Host σ) : Outcome → Exec σ (Option Exit)
  | .goes => return none
  | .exits e => return some e
  | .returns results => do
    leave host results
    return none

theorem execute_eq (host : Host σ) (r : Ref .function) (context : Ref .context) (op : Op)
    (imm : Int64) (phase : Nat) :
    execute host r context op imm phase
      = perform host r context op imm phase >>= conclude host := by
  unfold perform
  split
  case isTrue h =>
    subst h
    simp [execute, control, ret, conclude]
  case isFalse =>
    have hexit (e : Option Exit) : conclude host (.ofExit e) = pure e := by cases e <;> rfl
    simp [hexit]

theorem stepAsync_eq (host : Host σ) (f : Frame) (call : AsyncCall) :
    stepAsync host f call = advanceAsync host f call >>= conclude host := by
  simp only [stepAsync, advanceAsync, bind_assoc]
  refine bind_congr fun args => bind_congr fun _ => bind_congr fun answer => ?_
  cases answer <;> simp [conclude]

/-- **A step** is its outcome, and then the return that is still to be made. -/
theorem step_eq (host : Host σ) : step host = advance host >>= conclude host := by
  simp only [step, advance, bind_assoc]
  refine bind_congr fun m => ?_
  cases m.memory.frames.last? with
  | none => simp [conclude]
  | some f =>
    cases hf : f.activity with
    | bytecode r context => simp [hf, execute_eq]
    | async call => simp [hf, stepAsync_eq]

end Exec

end ScriptVm
