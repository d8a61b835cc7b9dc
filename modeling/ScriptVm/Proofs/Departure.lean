import ScriptVm.Proofs.Moves

/-!
# How control leaves a coroutine

Control leaves a coroutine in three ways.  When no function is active any more,
all that is left on the value stack is handed out.  An instruction may yield the
run of values above a position, or pass it to another coroutine.  And an
asynchronous call may do either with values of its own; it has taken what lay
above the base of its frame.

In the last two cases the frames stay in their places, with their delimiters and
try marks, and on the value stack remains exactly what lay below the position.
That is where the values come that the coroutine is resumed with.

Main statement: `Exec.departs_of_step`.
-/

namespace ScriptVm

variable {σ α β : Type}

/-- The instruction that an opcode on the stack, a call or a coroutine is decoded from has its
immediate, if any, in the code. -/
theorem Instruction.control_onStack {code : Bytes} {ip : Nat} {ins : Instruction} {o : ControlOp}
    (hdecode : decode code ip = .ok ins) (hop : ins.op = some (.control o)) :
    ins.onStack = false := by
  unfold decode at hdecode
  split at hdecode
  case isTrue h =>
    split at hdecode
    · cases hdecode
    · cases hdecode
      have hshape : shapeOfByte code[ip] = .none := by
        rw [shapeOfByte, show Op.ofByte? code[ip] = some (.control o) from hop]
        rfl
      simp [hshape]
  case isFalse h =>
    split at hdecode
    · cases hdecode
      rfl
    · cases hdecode

namespace Machine

/-- Nothing has moved on the stacks; only the place of the current frame in its code may be
another. -/
structure Level (M N : Machine σ) : Prop where
  values : N.memory.values = M.memory.values
  frames : N.memory.frames.size = M.memory.frames.size
  delimiters : N.memory.delimiters = M.memory.delimiters
  marks : N.memory.marks = M.memory.marks

theorem Level.trans {M N L : Machine σ} (h : M.Level N) (h' : N.Level L) : M.Level L :=
  ⟨h'.values.trans h.values, h'.frames.trans h.frames, h'.delimiters.trans h.delimiters,
    h'.marks.trans h.marks⟩

theorem Level.modifyLast (M : Machine σ) (φ : Frame → Frame) :
    M.Level (M.onFrames fun frames => frames.modifyLast φ) :=
  ⟨rfl, by simp [onFrames, Stack.modifyLast, Stack.size], rfl, rfl⟩

/-- The frames of `M` are there in `N`, with their delimiters and try marks. -/
structure Stays (M N : Machine σ) : Prop where
  busy : M.Busy
  frames : N.memory.frames.size = M.memory.frames.size
  delimiters : N.memory.delimiters = M.memory.delimiters
  marks : N.memory.marks = M.memory.marks

theorem Stays.of_level {M N L : Machine σ} (hM : M.Busy) (level : M.Level N)
    {φ : Stack Value → Stack Value} (h : L = N.onValues φ) : M.Stays L := by
  subst h
  exact ⟨hM, level.frames, level.delimiters, level.marks⟩

theorem busy_iff {M : Machine σ} : M.Busy ↔ M.memory.frames.size ≠ 0 := by
  rw [Busy, Stack.size_eq_length, ne_eq, ne_eq, List.length_eq_zero_iff]

theorem busy_of_last? {M : Machine σ} {f : Frame} (hf : M.memory.frames.last? = some f) :
    M.Busy := by
  intro hnone
  simp [Stack.last?_eq_getLast?, hnone] at hf

theorem Stays.busy_after {M N : Machine σ} (h : M.Stays N) : N.Busy := by
  rw [busy_iff, h.frames]
  exact busy_iff.mp h.busy

/-- **How control leaves a coroutine.**  What stays on the value stack is what lay below the
position from which the values were taken. -/
inductive Departs (M N : Machine σ) : Exit → Prop
  /-- No function is active any more. -/
  | finished (idle : ¬ M.Busy) (left : N = M.onValues fun values => values.truncate 0) :
      Departs M N (.finished M.memory.values.toList)
  /-- An instruction has taken the values it yields. -/
  | yielded {vs : List Value} (stays : M.Stays N)
      (taken : M.memory.values.toList = N.memory.values.toList ++ vs) : Departs M N (.yielded vs)
  /-- An instruction has taken the coroutine and the values it passes on. -/
  | switched {q : Ref .coroutine} {vs : List Value} (stays : M.Stays N)
      (taken : M.memory.values.toList = N.memory.values.toList ++ vs ++ [.coroutine q]) :
      Departs M N (.switched q vs)
  /-- An asynchronous call has taken what it was given. -/
  | asyncYielded {f : Frame} {call : AsyncCall} {vs : List Value} (stays : M.Stays N)
      (frame : M.memory.frames.last? = some f) (activity : f.activity = .async call)
      (taken : N.memory.values.toList = M.memory.values.toList.take f.stackBase) :
      Departs M N (.yielded vs)
  | asyncSwitched {f : Frame} {call : AsyncCall} {q : Ref .coroutine} {vs : List Value}
      (stays : M.Stays N) (frame : M.memory.frames.last? = some f)
      (activity : f.activity = .async call)
      (taken : N.memory.values.toList = M.memory.values.toList.take f.stackBase) :
      Departs M N (.switched q vs)

end Machine

namespace Exec

/-! ### Computations that have come to a result -/

/-- What comes before the result of two computations, one after the other. -/
theorem bind_eq_ok {x : Exec σ α} {f : α → Exec σ β} {M N : Machine σ} {b : β}
    (h : (x >>= f) M = .ok b N) : ∃ a L, x M = .ok a L ∧ f a L = .ok b N := by
  rw [bind_apply] at h
  cases hx : x M with
  | ok a L =>
    rw [hx] at h
    exact ⟨a, L, rfl, h⟩
  | error e L =>
    rw [hx] at h
    cases h

theorem ofFault_eq_ok {x : Except Fault α} {M N : Machine σ} {a : α}
    (h : (ofFault x : Exec σ α) M = .ok a N) : x = .ok a ∧ M = N := by
  cases x with
  | ok b =>
    cases h
    exact ⟨rfl, rfl⟩
  | error f => cases h

theorem ofDefect_eq_ok {x : Except Defect α} {M N : Machine σ} {a : α}
    (h : (ofDefect x : Exec σ α) M = .ok a N) : x = .ok a ∧ M = N := by
  cases x with
  | ok b =>
    cases h
    exact ⟨rfl, rfl⟩
  | error f => cases h

/-- A frame was asked for: it is the last one. -/
theorem frame_eq_ok {M N : Machine σ} {f : Frame} (h : (frame : Exec σ Frame) M = .ok f N) :
    M.memory.frames.last? = some f ∧ M = N := by
  cases hf : M.memory.frames.last? with
  | none => simp [frame, bind_apply, hf] at h
  | some g =>
    rw [frame_apply hf] at h
    cases h
    exact ⟨rfl, rfl⟩

theorem modifyFrame_eq_ok {M N : Machine σ} {φ : Frame → Frame} {u : Unit}
    (h : (modifyFrame φ : Exec σ Unit) M = .ok u N) :
    N = M.onFrames fun frames => frames.modifyLast φ := by
  obtain ⟨f, L, hf, h⟩ := bind_eq_ok h
  obtain ⟨-, rfl⟩ := frame_eq_ok hf
  cases h
  rfl

theorem pop_eq_ok {M N : Machine σ} {v : Value} (h : (pop : Exec σ Value) M = .ok v N) :
    M.memory.values.toList = N.memory.values.toList ++ [v] ∧ N = M.onValues Stack.dropLast := by
  obtain ⟨f, L, hf, h⟩ := bind_eq_ok h
  obtain ⟨-, rfl⟩ := frame_eq_ok hf
  by_cases hlow : M.memory.values.size ≤ f.privateBase
  · simp [bind_apply, hlow] at h
  · cases hv : M.memory.values.last? with
    | none => simp [bind_apply, hlow, hv] at h
    | some w =>
      simp only [bind_apply, height_apply, hlow, if_false, get_apply, hv, modify_apply, pure_apply]
        at h
      cases h
      refine ⟨?_, rfl⟩
      rw [Stack.last?_eq_getLast?] at hv
      obtain ⟨below, hbelow⟩ := List.getLast?_eq_some_iff.mp hv
      simp [Machine.onValues, hbelow]

theorem takeFrom_eq_ok {M N : Machine σ} {start : Nat} {taken : List Value}
    (h : (takeFrom start : Exec σ (List Value)) M = .ok taken N) :
    M.memory.values.toList = N.memory.values.toList ++ taken ∧
      N = M.onValues fun values => values.truncate start := by
  obtain ⟨m, L, hget, h⟩ := bind_eq_ok h
  cases hget
  obtain ⟨vs, L, hvs, h⟩ := bind_eq_ok h
  obtain ⟨hfrom, rfl⟩ := ofDefect_eq_ok hvs
  cases h
  refine ⟨?_, rfl⟩
  rw [Stack.valuesFrom_eq] at hfrom
  split at hfrom
  · cases hfrom
    simp [Machine.onValues]
  · cases hfrom

theorem checkDelimiter_eq_ok {M N : Machine σ} {position start : Nat}
    (h : (checkDelimiter position : Exec σ Nat) M = .ok start N) : M = N := by
  obtain ⟨n, L, hn, h⟩ := bind_eq_ok h
  cases hn
  split at h
  · cases h
  · cases h
    rfl

/-- Looking for the innermost delimiter changes nothing. -/
theorem peekDelimiter_eq_ok {M N : Machine σ} {start : Nat}
    (h : (peekDelimiter : Exec σ Nat) M = .ok start N) : M = N := by
  obtain ⟨f, L, hf, h⟩ := bind_eq_ok h
  obtain ⟨-, rfl⟩ := frame_eq_ok hf
  obtain ⟨own, L', hown, h⟩ := bind_eq_ok h
  cases hown
  split at h
  · obtain ⟨m, L, hm, h⟩ := bind_eq_ok h
    cases hm
    obtain ⟨d, L, hd, h⟩ := bind_eq_ok h
    obtain ⟨-, rfl⟩ := ofDefect_eq_ok hd
    exact checkDelimiter_eq_ok h
  · exact checkDelimiter_eq_ok h

/-- Fetching an instruction on the stack, a call or a coroutine moves nothing. -/
theorem level_of_fetchNext {M N : Machine σ} {r : Ref .function} {o : ControlOp} {imm : Int64}
    {phase : Nat} (h : (fetchNext r : Exec σ _) M = .ok (.control o, imm, phase) N) :
    M.Level N := by
  obtain ⟨_, M₁, h₁, h⟩ := bind_eq_ok h
  have hlevel : M.Level M₁ := by
    rw [modifyFrame_eq_ok h₁]
    exact .modifyLast M _
  obtain ⟨f, L, hf, h⟩ := bind_eq_ok h
  obtain ⟨-, rfl⟩ := frame_eq_ok hf
  obtain ⟨heap, L', hheap, h⟩ := bind_eq_ok h
  cases hheap
  obtain ⟨ins, L', hins, h⟩ := bind_eq_ok h
  obtain ⟨hdecode, rfl⟩ := ofFault_eq_ok hins
  obtain ⟨_, M₂, h₂, h⟩ := bind_eq_ok h
  have hlevel' : M.Level M₂ := by
    rw [modifyFrame_eq_ok h₂]
    exact hlevel.trans (.modifyLast _ _)
  cases hop : ins.op with
  | none =>
    rw [hop] at h
    cases h
  | some op =>
    rw [hop] at h
    dsimp only at h
    -- The last thing done before the answer is to note the opcode that is answered.
    have hstart {imm' : Int64} {L : Machine σ}
        (h : (do
          modifyFrame fun f => { f with progress := (Progress.start op imm').complete }
          return (op, imm', 0) : Exec σ (Op × Int64 × Nat)) L = .ok (.control o, imm, phase) N) :
        op = .control o ∧ L.Level N := by
      obtain ⟨_, L', h', h⟩ := bind_eq_ok h
      cases h
      rw [modifyFrame_eq_ok h']
      exact ⟨rfl, .modifyLast _ _⟩
    cases honStack : ins.onStack with
    | false =>
      rw [honStack] at h
      exact hlevel'.trans (hstart h).2
    | true =>
      rw [honStack] at h
      obtain ⟨heap, L, hheap, h⟩ := bind_eq_ok h
      obtain ⟨v, L, hpop, h⟩ := bind_eq_ok h
      obtain ⟨imm', L, himm, h⟩ := bind_eq_ok h
      have hfalse := Instruction.control_onStack hdecode (hop.trans (congrArg some (hstart h).1))
      rw [hfalse] at honStack
      cases honStack

theorem level_of_fetch {M N : Machine σ} {r : Ref .function} {o : ControlOp} {imm : Int64}
    {phase : Nat} (h : (fetch r : Exec σ _) M = .ok (.control o, imm, phase) N) : M.Level N := by
  obtain ⟨f, L, hf, h⟩ := bind_eq_ok h
  obtain ⟨-, rfl⟩ := frame_eq_ok hf
  dsimp only at h
  split at h
  · exact level_of_fetchNext h
  · obtain ⟨_, L, hL, h⟩ := bind_eq_ok h
    have hlevel : M.Level L := by
      rw [modifyFrame_eq_ok hL]
      exact .modifyLast M _
    cases hop : f.progress.op with
    | none =>
      rw [hop] at h
      exact hlevel.trans (level_of_fetchNext h)
    | some op =>
      rw [hop] at h
      cases h
      exact hlevel

/-! ### Exits -/

/-- A computation that never hands control out. -/
def Silent (x : Exec σ (Option Exit)) : Prop :=
  ∀ (M N : Machine σ) (e : Exit), x M ≠ .ok (some e) N

theorem Silent.bind {x : Exec σ α} {f : α → Exec σ (Option Exit)} (hf : ∀ a, Silent (f a)) :
    Silent (x >>= f) := by
  intro M N e h
  obtain ⟨a, L, -, h⟩ := bind_eq_ok h
  exact hf a L N e h

theorem Silent.none : Silent (pure none : Exec σ (Option Exit)) := by
  intro M N e h
  cases h

/-- Of the instructions on the stack, only two hand control out. -/
theorem silent_control (host : Host σ) (context : Ref .context) {o : ControlOp}
    (hyield : o ≠ .yield) (hresume : o ≠ .resume) : Silent (control host context o) := by
  cases o with
  | yield => exact absurd rfl hyield
  | resume => exact absurd rfl hresume
  | dup => exact .bind fun _ => .bind fun _ => .none
  | pop => exact .bind fun _ => .none
  | makeCoroutine =>
    refine .bind fun _ => .bind fun _ => .bind fun _ => .bind fun _ => .bind fun _ => ?_
    exact .bind fun _ => .bind fun _ => .none
  | delimit => exact .bind fun _ => .none
  | call => exact .bind fun _ => .bind fun _ => .bind fun _ => .none
  | ret => exact .bind fun _ => .none
  | bind => exact .bind fun _ => .bind fun _ => .bind fun _ => .bind fun _ => .none
  | undelimit => exact .bind fun _ => .none
  | dupRun =>
    exact .bind fun _ => .bind fun _ => .bind fun _ => .bind fun _ => .bind fun _ => .none
  | pack => exact .bind fun _ => .bind fun _ => .bind fun _ => .bind fun _ => .none
  | unpack =>
    refine .bind fun _ => .bind fun _ => .bind fun _ => .bind fun _ => ?_
    exact .bind fun _ => .bind fun _ => .none
  | nop => exact .none

/-- And no other instruction does. -/
theorem silent_execute (host : Host σ) (r : Ref .function) (context : Ref .context) {op : Op}
    (imm : Int64) (phase : Nat) (hop : ∀ o, op ≠ .control o) :
    Silent (execute host r context op imm phase) := by
  cases op with
  | control o => exact absurd rfl (hop o)
  | loadInt w => cases w <;> exact .bind fun _ => .none
  | _ => exact .bind fun _ => .none

variable {host : Host σ} {M N L : Machine σ} {e : Exit}

/-- An instruction that hands control out, after it was fetched. -/
theorem departs_of_control {context : Ref .context} {o : ControlOp} (hM : M.Busy)
    (level : M.Level L) (h : control host context o L = .ok (some e) N) : M.Departs N e := by
  by_cases hyield : o = .yield
  · subst hyield
    obtain ⟨start, K, hstart, h⟩ := bind_eq_ok h
    obtain rfl := peekDelimiter_eq_ok hstart
    obtain ⟨vs, K, hvs, h⟩ := bind_eq_ok h
    obtain ⟨htaken, hN⟩ := takeFrom_eq_ok hvs
    cases h
    rw [level.values] at htaken
    exact .yielded (.of_level hM level hN) htaken
  by_cases hresume : o = .resume
  · subst hresume
    obtain ⟨heap, K, hheap, h⟩ := bind_eq_ok h
    cases hheap
    obtain ⟨v, K, hv, h⟩ := bind_eq_ok h
    obtain ⟨hpopped, hK⟩ := pop_eq_ok hv
    obtain ⟨q, K', hq, h⟩ := bind_eq_ok h
    obtain ⟨hcoroutine, rfl⟩ := ofFault_eq_ok hq
    obtain ⟨start, K', hstart, h⟩ := bind_eq_ok h
    obtain rfl := peekDelimiter_eq_ok hstart
    obtain ⟨vs, K', hvs, h⟩ := bind_eq_ok h
    obtain ⟨htaken, hN⟩ := takeFrom_eq_ok hvs
    cases h
    obtain rfl : v = .coroutine q := by
      cases v <;> cases hcoroutine
      rfl
    refine .switched (.of_level hM level (φ := fun values => values.dropLast.truncate start) ?_) ?_
    · rw [hN, hK]
      rfl
    · rw [← level.values, hpopped, htaken]
  · exact absurd h (silent_control host context hyield hresume L N e)

/-- A step of an asynchronous function leaves the stacks alone. -/
theorem askStep_eq_ok {r : Ref .asyncExternal} {object : Nat} {history : List (List Value)}
    {step : AsyncStep} (h : askStep host r object history M = .ok step N) :
    M.memory = N.memory := by
  obtain ⟨m, L, hget, h⟩ := bind_eq_ok h
  cases hget
  obtain ⟨_, L, hset, h⟩ := bind_eq_ok h
  cases hset
  obtain ⟨-, rfl⟩ := ofFault_eq_ok h
  rfl

/-- An asynchronous call that hands control out. -/
theorem departs_of_stepAsync {f : Frame} {call : AsyncCall} (hf : M.memory.frames.last? = some f)
    (hactivity : f.activity = .async call) (h : stepAsync host f call M = .ok (some e) N) :
    M.Departs N e := by
  obtain ⟨args, M₁, hargs, h⟩ := bind_eq_ok h
  obtain ⟨-, rfl⟩ := takeFrom_eq_ok hargs
  obtain ⟨_, M₂, hrecord, h⟩ := bind_eq_ok h
  obtain rfl := modifyFrame_eq_ok hrecord
  obtain ⟨answer, L, hanswer, h⟩ := bind_eq_ok h
  have hmemory := askStep_eq_ok hanswer
  have hstays : M.Stays L := by
    refine ⟨Machine.busy_of_last? hf, ?_, ?_, ?_⟩
    · rw [← hmemory]
      simp [Machine.onFrames, Machine.onValues, Stack.modifyLast, Stack.size]
    · rw [← hmemory]
      rfl
    · rw [← hmemory]
      rfl
  have htaken : L.memory.values.toList = M.memory.values.toList.take f.stackBase := by
    rw [← hmemory]
    simp [Machine.onFrames, Machine.onValues]
  cases answer with
  | finish results => exact absurd h (Silent.bind (fun _ => .none) L N e)
  | call callee args => exact absurd h (Silent.bind (fun _ => .bind fun _ => .none) L N e)
  | yield vs =>
    cases h
    exact .asyncYielded hstays hf hactivity htaken
  | switch q vs =>
    cases h
    exact .asyncSwitched hstays hf hactivity htaken

/-- **Control has left a coroutine.** -/
theorem departs_of_step (h : step host M = .ok (some e) N) : M.Departs N e := by
  obtain ⟨m, L, hget, h⟩ := bind_eq_ok h
  cases hget
  cases hf : M.memory.frames.last? with
  | none =>
    rw [hf] at h
    obtain ⟨vs, L, hvs, h⟩ := bind_eq_ok h
    obtain ⟨htaken, rfl⟩ := takeFrom_eq_ok hvs
    cases h
    have hall : vs = M.memory.values.toList := by
      rw [htaken]
      simp [Machine.onValues]
    rw [hall]
    refine .finished (fun hM => hM ?_) rfl
    rwa [Stack.last?_eq_getLast?, List.getLast?_eq_none_iff] at hf
  | some f =>
    rw [hf] at h
    dsimp only at h
    cases hactivity : f.activity with
    | async call =>
      rw [hactivity] at h
      exact departs_of_stepAsync hf hactivity h
    | bytecode r context =>
      rw [hactivity] at h
      obtain ⟨⟨op, imm, phase⟩, L, hfetch, h⟩ := bind_eq_ok h
      by_cases hop : ∃ o, op = .control o
      · obtain ⟨o, rfl⟩ := hop
        exact departs_of_control (Machine.busy_of_last? hf) (level_of_fetch hfetch) h
      · exact absurd h
          (silent_execute host r context imm phase (fun o ho => hop ⟨o, ho⟩) L N e)

end Exec

end ScriptVm
