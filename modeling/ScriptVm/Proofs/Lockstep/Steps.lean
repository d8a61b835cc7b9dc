import ScriptVm.Proofs.Advance
import ScriptVm.Proofs.Lockstep.Operators

/-!
# Steps, in lockstep

What one step does to the activation on top of the stacks: it goes on, it has
called another activation, control leaves the coroutine and it stays as it is, or
it returns.  Nothing below it has a part in that.

Main statement: `Lockstep.advance` (a step of an activation, up to the return).
-/

namespace ScriptVm

variable {σ α β : Type}

/-- What an activation is after a step with some outcome. -/
def Layer.After (f : Frame) : Outcome → Layer → Prop
  | .goes, c => Layer.Continues f c
  | .exits (.finished _), _ => False
  | .exits _, c => Layer.Activation f c
  | .returns _, c => Layer.Activation f c

/-- A coroutine is new when it is made, and only the limits of sizes can prevent that. -/
theorem Coroutine.make_cases (sizes : Sizes) (entry : Value) (context : Option (Ref .context))
    (config : Config) :
    Coroutine.make sizes entry context config = .ok (.new entry context config) ∨
      ∃ d, Coroutine.make sizes entry context config = .error d ∧ sizes.Refuses d := by
  unfold Coroutine.make Stacks.reserve
  cases hvalues : sizes.reserve Stacks.valueBytes config.valueStack with
  | error d => exact .inr ⟨d, rfl, .inr ⟨_, _, hvalues⟩⟩
  | ok =>
    cases hframes : sizes.reserve Stacks.frameBytes config.callStack with
    | error d => exact .inr ⟨d, rfl, .inr ⟨_, _, hframes⟩⟩
    | ok =>
      cases hdelimiters : sizes.reserve Stacks.delimiterBytes config.delimiterStack with
      | error d => exact .inr ⟨d, rfl, .inr ⟨_, _, hdelimiters⟩⟩
      | ok => exact .inl rfl

namespace Lockstep

variable {t : Footing} {pre : Layer → Prop} {f : Frame} {k : Nat} {host : Host σ}
  {r : Ref .function} {context : Ref .context}

/-- What comes after a look at the whole machine. -/
theorem get {φ : Machine σ → Exec σ α} {ψ : Machine σ → Exec σ β}
    {post : α → β → Layer → Prop}
    (h : ∀ c M N, Alike t c M N → pre c → Lockstep t (· = c) (φ M) (ψ N) post) :
    Lockstep t pre (MonadState.get >>= φ) (MonadState.get >>= ψ) post :=
  fun c M N alike hc => h c M N alike hc c M N alike rfl

/-! ### Fetching -/

theorem fetchNext : Steady (σ := σ) t (Layer.Runs f k) (Exec.fetchNext r)
    fun _ => Layer.Runs f 0 := by
  refine (modifyFrame (fun _ _ => rfl) fun _ _ _ => ⟨_, _, _, rfl⟩).andThen fun _ => ?_
  refine frame fun ip nextIp progress => heap.andThen fun h => ?_
  refine ofFault.andThen fun instruction => assume fun _ => ?_
  refine (modifyFrame (fun _ _ => rfl) fun _ _ _ => ⟨_, _, _, rfl⟩).andThen fun _ => ?_
  cases instruction.op with
  | none => exact .fault
  | some op =>
    have hstart (imm : Int64) : Steady (σ := σ) t (Layer.Runs f 0)
        (do
          Exec.modifyFrame fun f => { f with progress := (Progress.start op imm).complete }
          return (op, imm, 0))
        fun _ => Layer.Runs f 0 :=
      (modifyFrame (fun _ _ => rfl) fun _ _ _ => ⟨_, _, _, rfl⟩).andThen fun _ =>
        .pure fun _ hc => ⟨rfl, hc⟩
    have hzero : ∀ (l : Nat) (c : Layer), Layer.Runs f l c → Layer.Runs f 0 c :=
      fun _ _ hc => hc.mono (Nat.zero_le _)
    refine ite Iff.rfl (fun _ => ?_) fun _ => (hstart instruction.imm).mono (hzero k)
      fun _ _ _ h => h
    refine heap.andThen fun h => pop.andThen fun x => ofFault.andThen fun imm => assume fun _ => ?_
    exact (hstart imm).mono (hzero (k - 1)) fun _ _ _ h => h

theorem fetch : Steady (σ := σ) t (Layer.Runs f k) (Exec.fetch r) fun _ => Layer.Runs f 0 := by
  refine frame fun ip nextIp progress => ite Iff.rfl (fun _ => fetchNext) fun _ => ?_
  refine (modifyFrame (fun _ _ => rfl) fun _ _ _ => ⟨_, _, _, rfl⟩).andThen fun _ => ?_
  simp only [Layer.liftFrame]
  cases progress.op with
  | some op => exact .pure fun _ hc => ⟨rfl, hc.mono (Nat.zero_le _)⟩
  | none => exact fetchNext

/-! ### Positions and conditions -/

/-- The position of a local variable lies between the arguments and the operands. -/
theorem localSlot (imm : Int64) :
    Lockstep (σ := σ) t (Layer.Runs f k) (Exec.localSlot imm) (Exec.localSlot imm)
      (Position t fun i c => i < f.privateBase ∧ Layer.Runs f k c) := by
  refine frame fun ip nextIp progress => ?_
  have hcount (p : Layer) : (p.liftFrame { f with ip, nextIp, progress }).localCount
      = f.privateBase - f.localsBase := by
    simp [Frame.localCount, Layer.liftFrame, Nat.add_sub_add_left]
  simp only [hcount]
  refine ite Iff.rfl (fun _ => .fault) fun hbound => .pure fun c hc => ?_
  refine ⟨f.localsBase + imm.toNatClampNeg, ?_, ?_, by omega, hc⟩
  · simp [Layer.liftFrame, Nat.add_assoc]
  · simp [Layer.liftFrame, Nat.add_assoc]

theorem jumpTarget (imm : Int64) :
    Steady (σ := σ) t (Layer.Runs f k) (Exec.jumpTarget r imm) fun _ => Layer.Runs f k := by
  refine heap.andThen fun h => frame fun ip nextIp progress => ?_
  exact ite Iff.rfl (fun _ => .fault) fun _ => .pure fun c hc => ⟨rfl, hc⟩

theorem condition (c : Condition) :
    Steady (σ := σ) t (Layer.Runs f k) (Exec.condition c) fun _ => Layer.Runs f 0 := by
  have hpop (φ : Value → Bool) :
      Steady (σ := σ) t (Layer.Runs f k) (do return φ (← Exec.pop))
      fun _ => Layer.Runs f 0 :=
    pop.andThen fun _ => .pure fun _ hc => ⟨rfl, hc.mono (Nat.zero_le _)⟩
  cases c with
  | always => exact .pure fun _ hc => ⟨rfl, hc.mono (Nat.zero_le _)⟩
  | falsy => exact hpop _
  | truthy => exact hpop _
  | isNil => exact hpop _
  | notNil => exact hpop _

/-- A new mark remembers positions of the activation. -/
theorem pushMark (target : Nat) :
    Steady (σ := σ) t (Layer.Runs f k)
      (modify fun m => m.onMarks fun marks =>
        marks.push ⟨target, m.memory.values.size, m.memory.frames.size,
          m.memory.delimiters.size⟩)
      fun _ => Layer.Runs f k := by
  intro c M N alike hc
  let mark : TryMark := ⟨target, c.values.length, c.frames.length, c.delimiters.length⟩
  have h (M : Machine σ) (p : Layer) (on : M.On p c) :
      (M.memory.marks.push ⟨target, M.memory.values.size, M.memory.frames.size,
        M.memory.delimiters.size⟩).toList = p.marks ++ (c.marks ++ [mark]).map p.liftMark := by
    rw [Stack.toList_push, on.marks, on.height, on.frames_size, on.delimiters_size]
    simp [Layer.liftMark, mark]
  refine .ok (alike.onMarks (h M _ alike.left) (h N _ alike.right) fun ho => ?_) (.refl _)
    ⟨rfl, { hc with marks := ?_ }⟩
  · rw [alike.one ho]
  · intro m hm
    rcases List.mem_append.mp hm with hm | hm
    · exact hc.marks m hm
    · rw [List.mem_singleton.mp hm]
      obtain ⟨_, _, _, hframes⟩ := hc.frames
      have := hc.operands
      exact ⟨by simp [mark, hframes], by simp only [mark]; omega⟩

/-- The innermost mark of the activation goes. -/
theorem dropMark :
    Steady (σ := σ) t (fun c => 0 < c.marks.length ∧ Layer.Runs f k c)
      (modify fun m => m.onMarks Stack.dropLast) fun _ => Layer.Runs f k := by
  intro c M N alike hc
  obtain ⟨hpos, hc⟩ := hc
  obtain ⟨ks, m, hm⟩ := exists_concat hpos
  have h (M : Machine σ) (p : Layer) (on : M.On p c) :
      M.memory.marks.dropLast.toList = p.marks ++ ks.map p.liftMark := by
    rw [Stack.toList_dropLast, on.marks, hm, List.map_append, ← List.append_assoc]
    exact List.dropLast_concat
  refine .ok (alike.onMarks (h M _ alike.left) (h N _ alike.right) fun _ => rfl) (.refl _)
    ⟨rfl, { hc with marks := fun k hk => hc.marks k ?_ }⟩
  rw [hm]
  exact List.mem_append_left _ hk

/-! ### Loads and stores -/

section

variable (suits : host.Suits t) (code : f.activity = .bytecode r context) (laid : f.Laid)
include code laid

/-- A new closure.  The prototype is there, for its index was checked. -/
theorem loadFunction (imm : Int64) :
    Steady (σ := σ) t (Layer.Runs f k) (Exec.loadFunction r imm) fun _ => Layer.Continues f := by
  refine stays (k := k + 1) code laid ?_
  intro c M N alike hc
  by_cases hbound : imm < 0 ∨ (M.heap.unit (M.heap.function r).unit).prototypes.size
      ≤ imm.toNatClampNeg
  · have h (M' : Machine σ) (hheap : M.heap = M'.heap) :
        Exec.loadFunction r imm M' = .error (.fault (.functionIndexOutOfRange imm
          (M.heap.unit (M.heap.function r).unit).prototypes.size)) M' := by
      rw [hheap] at hbound ⊢
      simp [Exec.loadFunction, Exec.bind_apply, hbound]
    rw [h M rfl, h N alike.heap]
    exact .fault alike (.refl _)
  · obtain ⟨made, heap', hnew⟩ : ∃ made heap', M.heap.newFunction (M.heap.function r).unit
        imm.toNatClampNeg none = .ok (made, heap') := by
      simp only [Heap.newFunction, if_pos (show imm.toNatClampNeg
        < (M.heap.unit (M.heap.function r).unit).prototypes.size by omega)]
      exact ⟨_, _, rfl⟩
    have h (M' : Machine σ) (hheap : M.heap = M'.heap) :
        Exec.loadFunction r imm M' = Exec.push (.function made) { M' with heap := heap' } := by
      rw [hheap] at hbound hnew
      simp [Exec.loadFunction, Exec.bind_apply, hbound, hnew, Exec.ofDefect, Exec.setHeap]
    have alike' : Alike t c { M with heap := heap' } { N with heap := heap' } := { alike with
      heap := rfl
      one := fun ho => by rw [alike.one ho] }
    rw [h M rfl, h N alike.heap]
    exact (push _ c _ _ alike' hc).mono (.of_coroutines_eq (M.heap.coroutines_newFunction hnew))
      fun _ _ _ h => h

theorem loadString (imm : Int64) :
    Steady (σ := σ) t (Layer.Runs f k) (Exec.loadString r imm) fun _ => Layer.Continues f := by
  refine heap.andThen fun h => ?_
  dsimp only
  generalize (if imm < 0 then none else (h.unit (h.function r).unit).strings[imm.toNatClampNeg]?)
    = found
  cases found with
  | some s => exact stays code laid (push _)
  | none => exact .fault

theorem loadLocal (imm : Int64) :
    Steady (σ := σ) t (Layer.Runs f k) (Exec.loadLocal imm) fun _ => Layer.Continues f := by
  refine (localSlot imm).andAt fun i => assume fun hi => ?_
  refine (slot fun c hc => ?_).andThen fun v => stays code laid (push v)
  have := hc.operands
  omega

theorem storeLocal (imm : Int64) :
    Steady (σ := σ) t (Layer.Runs f k) (Exec.storeLocal imm) fun _ => Layer.Continues f :=
  (localSlot imm).andAt fun _ => assume fun hi => pop.andThen fun v =>
    stays code laid (setSlot hi v)

theorem loadArgument (imm : Int64) :
    Steady (σ := σ) t (Layer.Runs f k) (Exec.loadArgument imm) fun _ => Layer.Continues f := by
  refine frame fun ip nextIp progress => ite Iff.rfl (fun hbound => ?_) fun _ =>
    stays code laid (push _)
  have hbase (p : Layer) : (p.liftFrame { f with ip, nextIp, progress }).stackBase
      = p.values.length := by
    simp [Layer.liftFrame, laid.stackBase]
  rw [hbase, hbase]
  refine (slot fun c hc => ?_).andThen fun v => stays code laid (push v)
  have hcount : imm.toNatClampNeg < f.argumentCount := hbound.2
  have := hc.operands
  have := laid.arguments
  have := laid.locals
  omega

/-! ### Control flow -/

theorem branch (c : Condition) (imm : Int64) :
    Steady (σ := σ) t (Layer.Runs f k) (Exec.branch r c imm) fun _ => Layer.Continues f := by
  refine (condition c).andThen fun taken => ite Iff.rfl (fun _ => ?_) fun _ =>
    stays code laid (.pure fun _ hc => ⟨rfl, hc⟩)
  refine (jumpTarget imm).andThen fun target => stays (k := 0) code laid ?_
  exact modifyFrame (fun _ _ => rfl) fun _ _ _ => ⟨_, _, _, rfl⟩

theorem tryOperator (op : TryOp) (imm : Int64) :
    Steady (σ := σ) t (Layer.Runs f k) (Exec.tryOperator r op imm) fun _ =>
      Layer.Continues f := by
  cases op with
  | enter w =>
    exact (jumpTarget imm).andThen fun target =>
      stays code laid (pushMark target)
  | leave =>
    refine frame fun ip nextIp progress => get fun c M N alike hc => ?_
    have hiff (p : Layer) (M : Machine σ) (on : M.On p c) :
        (p.liftFrame { f with ip, nextIp, progress }).tryBase < M.memory.marks.size
          ↔ 0 < c.marks.length := by
      simp [Layer.liftFrame, on.marks_size, laid.tryBase]
    refine ite ((hiff _ M alike.left).trans (hiff _ N alike.right).symm) (fun hmarks => ?_)
      fun _ => stays (k := k) code laid (.pure fun _ h => ⟨rfl, h ▸ hc⟩)
    refine stays (k := k) code laid (dropMark.mono ?_ fun _ _ _ h => h)
    intro _ hc
    obtain rfl := hc
    exact ⟨(hiff _ N alike.right).mp hmarks, hc⟩
  | throw => exact pop.andThen fun v => heap.andThen fun h => .fault

/-- The configuration is the same on both sides. -/
theorem loadConstant (suits : host.Suits t) (c : Constant) (imm : Int64) :
    Steady t (Layer.Runs f k) (Exec.loadConstant host c imm) fun _ => Layer.Continues f := by
  cases c with
  | newTable =>
    refine (allocate fun h => .of_coroutines_eq ?_).andThen fun r => stays code laid (push _)
    simp
  | newVector =>
    refine get fun c M N alike hc => ?_
    rw [suits.sizes, alike.config]
    refine reserve.andThen fun _ => (allocate fun h => .of_coroutines_eq ?_).andThen fun r =>
      stays (k := k + 1) code laid ((push _).mono ?_ fun _ _ _ h => h)
    · simp
    · intro _ hc
      obtain rfl := hc
      exact hc
  | argumentCount => exact frame fun _ _ _ => stays code laid (push _)
  | _ => exact stays code laid (push _)

end

/-! ### The stack, calls and coroutines -/

/-- A new coroutine. -/
theorem make (entry : Value) (config : Config) :
    Steady (σ := σ) t pre (Exec.ofDefect (Coroutine.make t.sizes entry none config))
      fun made c => made = .new entry none config ∧ pre c := by
  intro c M N alike hc
  rcases Coroutine.make_cases t.sizes entry none config with h | ⟨d, h, hlimit⟩
  · rw [h]
    exact .ok alike (.refl _) ⟨rfl, rfl, hc⟩
  · rw [h]
    exact .limitLeft hlimit

/-- The run of values from a position upward. -/
theorem readRun {i : Nat} : Lockstep (σ := σ) t (RunsFrom f i)
    (do Exec.ofDefect ((← MonadState.get).memory.values.valuesFrom (t.left.values.length + i)))
    (do Exec.ofDefect ((← MonadState.get).memory.values.valuesFrom (t.right.values.length + i)))
    (Same fun _ => Layer.Runs f 0) := by
  intro c M N alike hc
  have hi := hc.high
  have h (M : Machine σ) (p : Layer) (on : M.On p c) :
      M.memory.values.valuesFrom (p.values.length + i) = .ok (c.values.drop i) := by
    simp [Stack.valuesFrom_eq, on.height, hi, on.values, List.drop_length_add_append]
  simp only [Exec.bind_apply, Exec.get_apply, h M _ alike.left, h N _ alike.right]
  exact .ok alike (.refl _) ⟨rfl, hc.runs⟩

section

variable (suits : host.Suits t) (code : f.activity = .bytecode r context) (laid : f.Laid)
include suits code laid

/-- An instruction on the stack, a call or a coroutine. -/
theorem control (op : ControlOp) (hop : op ≠ .ret) :
    Steady t (Layer.Runs f k) (Exec.control host context op)
      fun e => Layer.After f (.ofExit e) := by
  have done {l : Nat} : Steady (σ := σ) t (Layer.Runs f l) (Pure.pure none)
      fun e => Layer.After f (.ofExit e) :=
    .pure fun c hc => ⟨rfl, .stays (.bytecode code laid (hc.mono (Nat.zero_le _)))⟩
  cases op with
  | dup => exact (peek 0).andThen fun v => (push v).andThen fun _ => done
  | pop => exact pop.andThen fun _ => done
  | makeCoroutine =>
    refine heap.andThen fun h => pop.andThen fun v => ofFault.andThen fun entry => assume fun _ =>
      get fun c M N alike hc => ?_
    rw [suits.sizes, alike.config]
    refine (make entry N.config).andThen fun made => assume ?_
    intro hc
    obtain rfl := hc
    refine (allocate fun h => .newCoroutine h entry N.config).andThen fun r => ?_
    exact ((push (.coroutine r)).andThen fun _ => done).mono (fun c h => h ▸ hc) fun _ _ _ h => h
  | yield =>
    refine peekDelimiter.andAt fun i => takeRun.andThen fun vs => .pure ?_
    exact fun c hc => ⟨rfl, .bytecode code laid hc⟩
  | resume =>
    refine heap.andThen fun h => pop.andThen fun v => ofFault.andThen fun coroutine =>
      assume fun _ => peekDelimiter.andAt fun i => takeRun.andThen fun vs => .pure ?_
    exact fun c hc => ⟨rfl, .bytecode code laid hc⟩
  | delimit => exact pushDelimiter.andThen fun _ => done
  | call =>
    refine pop.andThen fun callee => peekDelimiter.andAt fun i => ?_
    exact (invokeAt suits code laid callee none).andThen fun _ => .pure fun c hc => ⟨rfl, hc⟩
  | ret => exact absurd rfl hop
  | bind =>
    refine heap.andThen fun h => (peek 0).andThen fun v => ofFault.andThen fun r =>
      assume fun _ => ?_
    exact (onHeap fun h => by simp).andThen fun _ => done
  | undelimit =>
    exact popDelimiter.andAt fun i => done.mono (fun _ hc => hc.runs) fun _ _ _ h => h
  | dupRun =>
    refine peekDelimiter.andAt fun i => ?_
    refine readRun.andThen fun run => pushDelimiter.andThen fun _ => (pushMany run).andThen fun _ =>
      done
  | pack =>
    refine popDelimiter.andAt fun i => takeRun.andThen fun items => ?_
    refine (allocate fun h => .of_coroutines_eq ?_).andThen fun r => (push _).andThen fun _ => done
    simp
  | unpack =>
    refine heap.andThen fun h => pop.andThen fun v => ofFault.andThen fun r => assume fun _ =>
      heap.andThen fun h' => ?_
    exact pushDelimiter.andThen fun _ => (pushMany _).andThen fun _ => done
  | nop => exact done

/-! ### Steps -/

/-- One phase of an instruction of an activation. -/
theorem perform (op : Op) (imm : Int64) (phase : Nat) :
    Steady t (Layer.Runs f k) (Exec.perform host r context op imm phase) (Layer.After f) := by
  have goes {x : Exec σ Unit} (h : Steady t (Layer.Runs f k) x fun _ => Layer.Continues f) :
      Steady t (Layer.Runs f k)
        (do
          x
          return none)
        fun e => Layer.After f (.ofExit e) :=
    h.andThen fun _ => .pure fun c hc => ⟨rfl, hc⟩
  have execute (hop : op ≠ .control .ret) :
      Steady t (Layer.Runs f k) (Exec.execute host r context op imm phase)
        fun e => Layer.After f (.ofExit e) := by
    cases op with
    | binary o => exact goes (binaryOperator suits code laid o phase)
    | table o => exact goes (tableOperator suits code laid o phase)
    | unary o => exact goes (unaryOperator suits code laid o phase)
    | scope o => exact goes (scopeOperator code laid o)
    | loadFunction _ => exact goes (loadFunction code laid imm)
    | loadString _ => exact goes (loadString code laid imm)
    | loadInt w => cases w <;> exact goes (stays code laid (push _))
    | loadConstant c => exact goes (loadConstant code laid suits c imm)
    | loadLocal _ => exact goes (loadLocal code laid imm)
    | storeLocal _ => exact goes (storeLocal code laid imm)
    | loadArgument _ => exact goes (loadArgument code laid imm)
    | branch c _ => exact goes (branch code laid c imm)
    | guarded o => exact goes (tryOperator code laid o imm)
    | shape _ =>
      refine goes (popDelimiter.andAt fun i => ?_)
      rw [suits.sizes]
      exact stays code laid (shapeRun _)
    | syscall index =>
      refine goes (stays (k := k) code laid ?_)
      unfold Exec.syscall
      rw [suits.syscalls index]
      exact .pure fun c hc => ⟨rfl, hc⟩
    | control o => exact control suits code laid o fun h => hop (by rw [h])
  refine ite Iff.rfl (fun _ => ?_) fun hop => (execute hop).andThen fun e => .pure fun c hc =>
    ⟨rfl, hc⟩
  refine popDelimiter.andAt fun i => takeRun.andThen fun results => .pure fun c hc => ⟨rfl, ?_⟩
  exact Layer.Activation.bytecode code laid hc

end

/-- An asynchronous function answers both sides alike. -/
theorem askStep (q : Ref .asyncExternal) (object : Nat) (history : List (List Value)) :
    Steady t pre (Exec.askStep host q object history) fun _ => pre := by
  intro c M N alike hc
  rcases hanswer : host.stepAsync q object N.heap history N.state with ⟨result, state⟩
  have alike' : Alike t c { M with state } { N with state } := { alike with
    state := rfl
    one := fun ho => by rw [alike.one ho] }
  have h (L : Machine σ) (hheap : L.heap = N.heap) (hstate : L.state = N.state) :
      Exec.askStep host q object history L = Exec.ofFault result { L with state } := by
    simp only [Exec.askStep, Exec.bind_apply, Exec.get_apply, hheap, hstate, hanswer,
      Exec.set_apply]
  rw [h M alike.heap alike.state, h N rfl rfl]
  exact (ofFault c _ _ alike' hc).mono (.refl _) fun _ _ _ h => ⟨h.1, h.2.2⟩

/-- One step of an asynchronous call. -/
theorem advanceAsync (suits : host.Suits t) {call now : AsyncCall} {c₀ : Layer}
    (steps : f.activity = .async call) (laid : f.Laid) (waits : Layer.Waits f c₀)
    (hg : c₀.frames = [{ f with activity := .async now }]) :
    Lockstep t (· = c₀)
      (Exec.advanceAsync host (t.left.liftFrame { f with activity := .async now }) now)
      (Exec.advanceAsync host (t.right.liftFrame { f with activity := .async now }) now)
      (Same (Layer.After f)) := by
  have hbase (p : Layer) : (p.liftFrame { f with activity := .async now }).stackBase
      = p.values.length + 0 := by
    simp [Layer.liftFrame, laid.stackBase]
  unfold Exec.advanceAsync
  rw [hbase, hbase]
  refine (takeFrom (Nat.zero_le _)).andThen fun args => assume fun _ => ?_
  have hg' : ({ c₀ with values := c₀.values.take 0 } : Layer).frames
      = [{ f with activity := .async now }] := hg
  refine (modifyOnly hg' ?_).andThen fun _ =>
    (askStep now.function now.object _).andThen fun answer => ?_
  · intro p
    rfl
  -- The arguments are gone and the step is on record; this is what the call stands on.
  generalize ha : ({ c₀ with
    values := c₀.values.take 0
    frames := [Exec.recordStep { f with activity := .async now } (now.history ++ [args])] } : Layer)
    = a
  have hact : Layer.Activation f a := by
    subst ha
    exact .async steps laid ⟨⟨_, rfl⟩, waits.delimiters, waits.marks⟩
  have hempty : a.values = [] := by
    subst ha
    rfl
  cases answer with
  | finish results => exact .pure fun c hc => ⟨rfl, hc ▸ hact⟩
  | yield values => exact .pure fun c hc => ⟨rfl, hc ▸ hact⟩
  | switch coroutine args => exact .pure fun c hc => ⟨rfl, hc ▸ hact⟩
  | call callee args' =>
    refine (pushAll args').andThen fun _ => ?_
    have hcall := (invoke (suits.on a) callee args' none).on
    have hleft : (t.on a).left.values.length = t.left.values.length + 0 := by
      simp [Footing.on, hempty]
    have hright : (t.on a).right.values.length = t.right.values.length + 0 := by
      simp [Footing.on, hempty]
    rw [hleft, hright] at hcall
    refine (hcall.mono ?_ fun _ _ _ h => h).bind fun _ _ => .pure ?_
    · intro c hc
      exact ⟨_, by rw [hc, Layer.pile_bare], rfl⟩
    · intro c hc
      obtain ⟨b, hpile, -, hb⟩ := hc
      subst hpile
      refine ⟨rfl, ?_⟩
      cases hb with
      | done results =>
        rw [Layer.pile_bare]
        exact .stays (hact.pushed _)
      | entered activation =>
        obtain ⟨g, -, hg⟩ := activation
        exact .calls hact hg

/-- **One step of an activation**, with a return still to be made. -/
theorem advance (suits : host.Suits t) :
    Steady t (Layer.Activation f) (Exec.advance host) (Layer.After f) := by
  refine ofLayer fun c hc => get fun c' M N alike hc' => ?_
  subst hc'
  cases hc with
  | bytecode code laid runs =>
    obtain ⟨ip, nextIp, progress, hg⟩ := runs.frames
    rw [alike.left.last_frame hg, alike.right.last_frame hg]
    simp only [Layer.liftFrame, code]
    refine Lockstep.mono (fetch.andThen fun next => ?_) (fun c hc => hc ▸ runs) fun _ _ _ h => h
    exact perform suits code laid next.1 next.2.1 next.2.2
  | async steps laid waits =>
    obtain ⟨now, hg⟩ := waits.frames
    rw [alike.left.last_frame hg, alike.right.last_frame hg]
    exact advanceAsync suits steps laid waits hg

end Lockstep

end ScriptVm
