import ScriptVm.Proofs.Tower

/-!
# System calls that behave

A system call gets the stacks of the running coroutine and can do anything to them.
It **behaves** if what it changes stays within the activation that makes it: its
operands, its delimiters, its place in the code.  A step that makes such a call does
to a tower of activations what other steps do, and a step that makes none is one of
the host without its system calls.

Main statement: `Machine.Behaves.step` (what a step does to a tower).
-/

namespace ScriptVm

variable {σ : Type}

/-- **What has changed stays within** the topmost activation, one of bytecode: what it stands on is
the same; its frame may only be at another place of its code; and its operands, delimiters and try
marks still lie above its local variables. -/
def Stacks.Within (s s' : Stacks) : Prop :=
  ∀ (p c : Layer) (f : Frame), s.view = p.pile c → f.Laid → Layer.Runs f 0 c →
    ∃ c', s'.view = p.pile c' ∧ Layer.Runs f 0 c'

/-- The next step of the machine `M` is a system call, which is made on the machine `L`. -/
def Machine.MakesSyscall (host : Host σ) (M : Machine σ) (call : Syscall σ)
    (L : Machine σ) : Prop :=
  ∃ r context f index imm phase, M.memory.frames.last? = some f ∧
    f.activity = .bytecode r context ∧
    Exec.fetch r M = .ok (.syscall index, imm, phase) L ∧ host.syscall index = some call

/-- The machine after a system call. -/
def Machine.afterSyscall (L : Machine σ) (call : Syscall σ) : Machine σ :=
  { L with
    memory := (call L.heap L.memory L.state).memory
    state := (call L.heap L.memory L.state).state }

/-- **A system call that comes next, if any, behaves**: what it changes stays within the activation
that makes it. -/
def Machine.Behaves (host : Host σ) (M : Machine σ) : Prop :=
  ∀ call L, M.MakesSyscall host call L → L.memory.Within (L.afterSyscall call).memory

/-- The host without its system calls. -/
def Host.mute (host : Host σ) : Host σ :=
  { host with syscall := fun _ => none }

theorem Host.mute_suits (host : Host σ) (p : Layer) : host.mute.Suits (.single p host.sizes) :=
  .single (fun _ => rfl) p

variable {host : Host σ} {M N : Machine σ} {p : Layer} {f : Frame}

namespace Exec

/-- Calls do not depend on system calls. -/
theorem invoke_mute (callee : Value) (base : Nat) (returnSize : Option Nat) :
    invoke host.mute callee base returnSize = invoke host callee base returnSize := rfl

theorem execute_mute {r : Ref .function} {context : Ref .context} {op : Op} {imm : Int64}
    {phase : Nat} (hop : ∀ i, op = .syscall i → host.syscall i = none) :
    execute host.mute r context op imm phase = execute host r context op imm phase := by
  cases op with
  | syscall i =>
    simp only [execute, syscall, hop i rfl]
    rfl
  | loadInt w => cases w <;> rfl
  | _ => rfl

/-- A step that makes no system call does not depend on them. -/
theorem advance_mute (h : ∀ call L, ¬ M.MakesSyscall host call L) :
    advance host.mute M = advance host M := by
  unfold advance
  rw [bind_of_ok (get_apply M), bind_of_ok (get_apply M)]
  cases hf : M.memory.frames.last? with
  | none => rfl
  | some f =>
    cases hcode : f.activity with
    | async call =>
      simp only [hcode]
      rfl
    | bytecode r context =>
      simp only [hcode]
      rw [bind_apply, bind_apply]
      cases hfetch : fetch r M with
      | error e L => rfl
      | ok next L =>
        obtain ⟨op, imm, phase⟩ := next
        have hexecute : execute host.mute r context op imm phase
          = execute host r context op imm phase :=
          execute_mute fun i hop => by
            subst hop
            cases hcall : host.syscall i with
            | none => rfl
            | some call =>
              exact absurd ⟨r, context, f, i, imm, phase, hf, hcode, hfetch, hcall⟩ (h call L)
        dsimp only
        unfold perform
        rw [hexecute]

/-- A step that makes a system call does nothing else. -/
theorem advance_of_syscall {call : Syscall σ} {L : Machine σ} (h : M.MakesSyscall host call L) :
    advance host M = match (call L.heap L.memory L.state).defect with
      | some d => .error (.defect d) (L.afterSyscall call)
      | none => .ok .goes (L.afterSyscall call) := by
  obtain ⟨r, context, f, index, imm, phase, hf, hcode, hfetch, hcall⟩ := h
  have hne : Op.syscall index ≠ .control .ret := nofun
  unfold advance
  rw [bind_of_ok (get_apply M)]
  simp only [hf, hcode]
  rw [bind_of_ok hfetch, perform, if_neg hne, bind_apply, execute, bind_apply, syscall, hcall]
  dsimp only
  rw [bind_of_ok (get_apply L), bind_of_ok (set_apply L _)]
  unfold Machine.afterSyscall
  cases (call L.heap L.memory L.state).defect <;> rfl

end Exec

/-- Nothing else is told of a host by what a step can do to a tower than what the step returns. -/
theorem Stepped.of_host {host host' : Host σ} {t : Footing} {ground : List Value} {fs : List Frame}
    {r r' : EStateM.Result Stop (Machine σ) (Option Exit)}
    (h : Stepped host' t ground f fs M N r r') (hM : M.returning host' = M.returning host)
    (hN : N.returning host' = N.returning host) : Stepped host t ground f fs M N r r' := by
  cases h with
  | goes quiet quiet' alike grows tower =>
    exact .goes (hM ▸ quiet) (hN ▸ quiet') alike grows tower
  | calls quiet quiet' alike grows tower =>
    exact .calls (hM ▸ quiet) (hN ▸ quiet') alike grows tower
  | exits quiet quiet' alike grows tower =>
    exact .exits (hM ▸ quiet) (hN ▸ quiet') alike grows tower
  | returns result result' alike grows tower =>
    exact .returns (hM ▸ result) (hN ▸ result') alike grows tower
  | fault alike grows => exact .fault alike grows
  | limitLeft limit => exact .limitLeft limit
  | limitRight limit => exact .limitRight limit

/-- **All that a step can do to a tower**, if a system call that it makes behaves. -/
theorem Machine.Behaves.step {ground : List Value} {fs : List Frame} {c : Layer}
    (behaves : M.Behaves host) (on : M.On p c) (tower : Layer.Tower ground (f :: fs) c)
    {e : Option Exit} (hstep : Exec.step host M = .ok e N) :
    Stepped host (.single p host.sizes) ground f fs M M (.ok e N) (.ok e N) := by
  by_cases hmakes : ∃ call L, M.MakesSyscall host call L
  · obtain ⟨call, L, hmakes⟩ := hmakes
    have hwithin := behaves call L hmakes
    have hadvance := Exec.advance_of_syscall hmakes
    rw [Exec.step_eq, Exec.bind_apply, hadvance] at hstep
    obtain ⟨r, context, g, index, imm, phase, hg, hcode, hfetch, -⟩ := hmakes
    cases tower with
    | @call _ _ q a lower upper =>
    have on' : M.On (p.pile q) a := Machine.on_pile.mpr on
    cases upper with
    | async steps laid waits =>
      obtain ⟨now, hframes⟩ := waits.frames
      rw [on'.last_frame hframes] at hg
      cases hg
      cases hcode
    | bytecode code laid runs =>
      have hfares :=
        Steady.fares (Lockstep.fetch (r := r) (t := .single (p.pile q) host.sizes)) on' runs
      rw [hfetch] at hfares
      cases hfares with
      | @ok _ b _ onL grows runs' =>
      cases hdefect : (call L.heap L.memory L.state).defect with
      | some d =>
        rw [hdefect] at hstep
        cases hstep
      | none =>
        rw [hdefect] at hstep hadvance
        cases hstep
        have hquiet : M.returning host = none := by simp only [Machine.returning, hadvance]
        obtain ⟨b', hview, hruns⟩ := hwithin _ _ _ onL laid runs'
        have hon : (L.afterSyscall call).On (p.pile q) b' := hview
        exact .goes hquiet hquiet (.single (Machine.on_pile.mp hon)) grows
          (.call lower (.bytecode code laid hruns))
  · have hmute : Exec.advance host.mute M = Exec.advance host M :=
      Exec.advance_mute fun call L h => hmakes ⟨call, L, h⟩
    have hreturning : M.returning host.mute = M.returning host := by
      simp only [Machine.returning, hmute]
    have hstep' : Exec.step host.mute M = .ok e N := by
      rw [← hstep, Exec.step_eq, Exec.step_eq, Exec.bind_apply, Exec.bind_apply, hmute]
      rfl
    have hsyscall : ∀ i, host.mute.syscall i = none := fun _ => rfl
    have hspec := Machine.step_spec hsyscall on tower
    rw [hstep'] at hspec
    exact hspec.of_host hreturning hreturning

/-- A host all of whose system calls behave. -/
theorem Machine.Behaves.of_syscalls (h : ∀ i call, host.syscall i = some call →
    ∀ heap (s : Stacks) state, s.Within (call heap s state).memory) (M : Machine σ) :
      M.Behaves host := by
  rintro call L ⟨-, -, -, index, -, -, -, -, -, hcall⟩
  exact h index call hcall L.heap L.memory L.state

/-- Without system calls, there is none that could misbehave. -/
theorem Machine.Behaves.of_none (hsyscall : ∀ i, host.syscall i = none) (M : Machine σ) :
    M.Behaves host :=
  .of_syscalls (fun i call hcall => by rw [hsyscall i] at hcall; cases hcall) M

/-- A system call that puts a value on the stack behaves. -/
theorem Stacks.within_push (s : Stacks) (v : Value) :
    s.Within { s with values := s.values.push v } := by
  intro p c f hview laid runs
  refine ⟨{ c with values := c.values ++ [v] }, ?_, { runs with operands := ?_ }⟩
  · have hvalues : s.values.toList = p.values ++ c.values := congrArg Layer.values hview
    have hpush : (s.values.push v).toList = p.values ++ (c.values ++ [v]) := by
      rw [Stack.toList_push, hvalues, List.append_assoc]
    exact congrArg (fun values => { s.view with values }) hpush |>.trans (by rw [hview])
  · rw [List.length_append]
    exact Nat.le_add_right_of_le runs.operands

end ScriptVm
