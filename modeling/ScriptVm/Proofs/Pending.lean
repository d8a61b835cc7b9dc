import ScriptVm.Proofs.Phases

/-!
# Frames in the middle of an instruction

What a frame executes in one step is a **dispatch**: an instruction in one of its
phases.  The dispatches of a frame make up executions of instructions.  An execution
begins with an instruction that is decoded, in its first phase, and goes on for one
reason only: a metamethod has been called, and its result is still to be collected.
Then the same instruction is entered again at the next phase, whatever has happened
in the meantime.

A frame is followed through its **course**: the steps of its coroutine, as long as it
is there, whoever is on top of it.  Between two steps control may be away.

Main statements: `Exec.step_noticed` (what one step is for a frame),
`Machine.Course.records` (what a frame has executed, and where that has left it) and
`Dispatch.Log.executions` (the dispatches of a frame, one execution after the other).
-/

namespace ScriptVm

variable {σ : Type}

/-! ### Dispatches -/

/-- What a frame executes in one step. -/
structure Dispatch where
  ip : Nat
  /-- The instruction, if it is decoded now. -/
  decoded : Option Instruction
  op : Op
  imm : Int64
  phase : Nat
  /-- The metamethod that is called, and whose result is still to be collected. -/
  called : Option String

/-- The metamethods that an instruction may call, in the order of its phases. -/
def Op.metamethods (op : Op) : List String :=
  (List.range op.phaseCount).filterMap op.asks

namespace Op

variable {op : Op} {phase : Nat} {name : String}

/-- There is always a first phase. -/
theorem phaseCount_pos (op : Op) : 0 < op.phaseCount := by
  cases op with
  | binary o => cases o <;> decide
  | unary o => cases o <;> decide
  | table o => cases o <;> decide
  | _ => exact Nat.one_pos

/-- No metamethod is called in two phases. -/
theorem nodup_metamethods (op : Op) : op.metamethods.Nodup := by
  refine List.Pairwise.filterMap op.asks ?_ List.nodup_range
  rintro phase phase' hne name hname _ hname' rfl
  exact hne (asks_injective hname hname')

example : (binary .geq).metamethods = ["__lss", "__equ"] := by decide

/-- Some of the phases tell some of the metamethods. -/
theorem filterMap_asks_prefix {n : Nat} (h : n ≤ op.phaseCount) :
    (List.range n).filterMap op.asks <+: op.metamethods := by
  have hrange : List.range n <+: List.range op.phaseCount := by
    rw [← Nat.min_eq_left h, ← List.take_range]
    exact List.take_prefix _ _
  exact hrange.filterMap op.asks

end Op

namespace Dispatch

/-- A metamethod that is called is the one that the phase may ask for. -/
def Asked (d : Dispatch) : Prop :=
  ∀ name, d.called = some name → d.op.asks d.phase = some name

/-- **A new instruction**, in its first phase. -/
structure Fresh (d : Dispatch) : Prop where
  phase : d.phase = 0
  decoded : ∃ ins, d.decoded = some ins ∧ ins.op = some d.op ∧
    (ins.onStack = false → ins.imm = d.imm)
  asked : d.Asked

/-- **The same instruction again**, in the next phase, without decoding anything. -/
structure Again (a d : Dispatch) : Prop where
  ip : d.ip = a.ip
  op : d.op = a.op
  imm : d.imm = a.imm
  phase : d.phase = a.phase + 1
  decoded : d.decoded = none
  asked : d.Asked

/-- **What can come next**, after what a frame has executed last. -/
inductive Next : Option Dispatch → Dispatch → Prop
  | fresh {last : Option Dispatch} {d : Dispatch} (idle : ∀ a ∈ last, a.called = none)
      (fresh : d.Fresh) :
      Next last d
  | again {a d : Dispatch} {name : String} (called : a.called = some name) (again : a.Again d) :
      Next (some a) d

/-- The dispatches of one frame, in order. -/
inductive Log : List Dispatch → Prop
  | nil : Log []
  | snoc {log : List Dispatch} {d : Dispatch} (before : Log log) (next : Next log.getLast? d) :
      Log (log ++ [d])

/-- **An execution of an instruction**, by its phases so far and the last one: it begins with a new
instruction, and goes on with the same one while a metamethod is called. -/
inductive Execution : List Dispatch → Dispatch → Prop
  | fresh {d : Dispatch} (fresh : d.Fresh) : Execution [] d
  | again {e : List Dispatch} {a d : Dispatch} {name : String} (before : Execution e a)
      (called : a.called = some name) (again : a.Again d) : Execution (e ++ [a]) d

namespace Execution

variable {e : List Dispatch} {a d : Dispatch} {name : String}

theorem asked (h : Execution e d) : d.Asked := by
  cases h with
  | fresh fresh => exact fresh.asked
  | again _ _ again => exact again.asked

/-- **The phases are those from the first one on**, each of them once. -/
theorem phases (h : Execution e d) : e.map phase = List.range e.length ∧ d.phase = e.length := by
  induction h with
  | fresh fresh => exact ⟨rfl, fresh.phase⟩
  | @again e a d _ _ _ again ih =>
    rw [List.map_append, List.length_append, List.length_singleton, List.range_succ, ih.1,
      List.map_singleton, ih.2, again.phase, ih.2]
    exact ⟨rfl, rfl⟩

/-- **It is one instruction**, which has been decoded once. -/
theorem instruction (h : Execution e d) :
    ∃ first rest, e ++ [d] = first :: rest ∧ first.Fresh ∧
      d.ip = first.ip ∧ d.op = first.op ∧ d.imm = first.imm ∧
      ∀ a ∈ rest, a.decoded = none ∧ a.ip = first.ip ∧ a.op = first.op ∧
        a.imm = first.imm := by
  induction h with
  | fresh fresh => exact ⟨_, [], rfl, fresh, rfl, rfl, rfl, List.forall_mem_nil _⟩
  | @again e a d _ _ _ again ih =>
    obtain ⟨first, rest, hfirst, fresh, hip, hop, himm, hrest⟩ := ih
    have hd : d.decoded = none ∧ d.ip = first.ip ∧ d.op = first.op ∧ d.imm = first.imm :=
      ⟨again.decoded, again.ip.trans hip, again.op.trans hop, again.imm.trans himm⟩
    refine ⟨first, rest ++ [d], by rw [hfirst]; rfl, fresh, hd.2.1, hd.2.2.1, hd.2.2.2,
      fun x hx => ?_⟩
    rcases List.mem_append.mp hx with hx | hx
    · exact hrest x hx
    · exact List.mem_singleton.mp hx ▸ hd

/-- The instruction has a phase for each dispatch. -/
theorem length_lt (h : Execution e d) : e.length < d.op.phaseCount := by
  cases h with
  | fresh _ => exact d.op.phaseCount_pos
  | @again e a _ name before called again =>
    have hlt := Op.lt_phaseCount_of_asks (before.asked name called)
    rwa [before.phases.2, ← again.op, ← List.length_singleton (a := a), ← List.length_append]
      at hlt

/-- All phases but the last one have called a metamethod. -/
theorem filterMap_called (h : Execution e d) :
    e.filterMap called = (List.range e.length).filterMap d.op.asks := by
  induction h with
  | fresh _ => rfl
  | @again e a d name before hcalled again ih =>
    have hasks := before.asked name hcalled
    rw [before.phases.2] at hasks
    rw [List.filterMap_append, List.length_append, List.length_singleton, List.range_succ,
      List.filterMap_append, ih, again.op]
    simp [hcalled, hasks]

/-- **The metamethods that are called** are those that the instruction has, in order. -/
theorem called_prefix (h : Execution e d) : (e ++ [d]).filterMap called <+: d.op.metamethods := by
  have hlength := h.length_lt
  rw [List.filterMap_append, h.filterMap_called]
  cases hcalled : d.called with
  | none =>
    simpa [hcalled] using Op.filterMap_asks_prefix (Nat.le_of_lt hlength)
  | some name =>
    have hasks := h.asked name hcalled
    rw [h.phases.2] at hasks
    have hnext : (List.range (e.length + 1)).filterMap d.op.asks <+: d.op.metamethods :=
      Op.filterMap_asks_prefix hlength
    rw [List.range_succ, List.filterMap_append] at hnext
    simpa [hcalled, hasks] using hnext

end Execution

/-- **The dispatches of a frame** are executions, one after the other, and only the last one may not
be over. -/
theorem Log.executions {log : List Dispatch} (h : Log log) :
    ∃ es : List (List Dispatch × Dispatch), log = es.flatMap (fun e => e.1 ++ [e.2]) ∧
      (∀ e ∈ es, Execution e.1 e.2) ∧ ∀ e ∈ es.dropLast, e.2.called = none := by
  induction h with
  | nil => exact ⟨[], rfl, List.forall_mem_nil _, List.forall_mem_nil _⟩
  | @snoc log d _ next ih =>
    obtain ⟨es, rfl, hes, hover⟩ := ih
    rcases List.eq_nil_or_concat' es with rfl | ⟨es, ⟨e, a⟩, rfl⟩
    · cases next with
      | fresh _ fresh =>
        refine ⟨[([], d)], rfl, ?_, List.forall_mem_nil _⟩
        simpa using Execution.fresh fresh
    · have hpast (x : List Dispatch × Dispatch) (hx : x ∈ es) : x.2.called = none :=
        hover x (by rwa [List.dropLast_concat])
      have hbefore : Execution e a := hes (e, a) (by simp)
      have hlast : ((es ++ [(e, a)]).flatMap fun e => e.1 ++ [e.2]).getLast? = some a := by simp
      rw [hlast] at next
      cases next with
      | fresh idle fresh =>
        refine ⟨es ++ [(e, a)] ++ [([], d)], by simp, fun x hx => ?_, fun x hx => ?_⟩
        · rcases List.mem_append.mp hx with hx | hx
          · exact hes x hx
          · rw [List.mem_singleton.mp hx]
            exact .fresh fresh
        · rw [List.dropLast_concat] at hx
          rcases List.mem_append.mp hx with hx | hx
          · exact hpast x hx
          · rw [List.mem_singleton.mp hx]
            exact idle a rfl
      | again called again =>
        refine ⟨es ++ [(e ++ [a], d)], by simp, fun x hx => ?_, fun x hx => ?_⟩
        · rcases List.mem_append.mp hx with hx | hx
          · exact hes x (List.mem_append_left _ hx)
          · rw [List.mem_singleton.mp hx]
            exact hbefore.again called again
        · rw [List.dropLast_concat] at hx
          exact hpast x hx

end Dispatch

/-! ### What a dispatch leaves -/

namespace Post

/-- A frame that executes a phase of an instruction, and is done with it unless the phase says
otherwise. -/
def executing (activity : Activity) (ip : Nat) (op : Op) (imm : Int64) (phase : Nat) : Post :=
  ⟨activity, ip, ⟨some op, imm, phase, op.phaseCount, op.phaseCount⟩⟩

/-- **Where a frame is** after what it has executed last. -/
inductive After : Option Dispatch → Post → Prop
  | new {p : Post} (progress : p.progress = .none) : After none p
  | done {d : Dispatch} {p : Post} (called : d.called = none) (phase : d.phase < d.op.phaseCount)
      (progress : p.progress = ⟨some d.op, d.imm, d.phase, d.op.phaseCount, d.op.phaseCount⟩) :
      After (some d) p
  | awaits {d : Dispatch} {activity : Activity} {name : String} (called : d.called = some name)
      (asks : d.op.asks d.phase = some name) :
      After (some d) ((executing activity d.ip d.op d.imm d.phase).again (d.phase + 1))

variable {last : Option Dispatch} {d : Dispatch} {p : Post}

/-- **The phases are in order**, and the next one is still to come only if a metamethod has been
called, whose result is then to be collected by the same instruction. -/
structure InPhase (p : Post) : Prop where
  le_next : p.progress.phase ≤ p.progress.next
  le_count : p.progress.next ≤ p.progress.count
  awaits : p.progress.next < p.progress.count → ∃ op name, p.progress.op = some op ∧
    p.progress.count = op.phaseCount ∧ p.progress.next = p.progress.phase + 1 ∧
    op.asks p.progress.phase = some name

namespace After

theorem inPhase (h : p.After last) : p.InPhase := by
  cases h with
  | new progress =>
    obtain ⟨activity, ip, _⟩ := p
    cases progress
    exact ⟨Nat.le_refl 0, Nat.le_refl 0, fun hpending => absurd hpending (Nat.lt_irrefl 0)⟩
  | done _ hphase progress =>
    obtain ⟨activity, ip, _⟩ := p
    cases progress
    exact ⟨Nat.le_of_lt hphase, Nat.le_refl _,
      fun hpending => absurd hpending (Nat.lt_irrefl _)⟩
  | awaits _ asks =>
    have hlt := Op.lt_phaseCount_of_asks asks
    exact ⟨Nat.le_succ _, Nat.le_of_lt hlt, fun _ => ⟨_, _, rfl, rfl, rfl, asks⟩⟩

/-- A frame is in the middle of an instruction if it has called a metamethod last. -/
theorem finished_iff (h : p.After last) :
    p.progress.finished = true ↔ ∀ d ∈ last, d.called = none := by
  cases h with
  | new progress => simp [progress, Progress.finished, Progress.none]
  | done called _ progress => simp [progress, Progress.finished, called]
  | awaits called asks =>
    have hlt := Op.lt_phaseCount_of_asks asks
    simp [Progress.finished, executing, Post.again, called, Nat.not_le.mpr hlt]

theorem finished_of_unknown (h : p.After last) (hunknown : p.progress.op = none) :
    p.progress.finished = true := by
  cases h with
  | new progress =>
    rw [progress]
    rfl
  | done _ _ progress =>
    rw [progress] at hunknown
    cases hunknown
  | awaits _ _ => cases hunknown

/-- A frame in the middle of an instruction is where it was dispatched last, in the next phase. -/
theorem again_of_unfinished (h : p.After last) (hunfinished : p.progress.finished = false) :
    ∃ d name, last = some d ∧ d.called = some name ∧ d.op.asks d.phase = some name ∧
      p = (executing p.activity d.ip d.op d.imm d.phase).again (d.phase + 1) := by
  cases h with
  | new progress =>
    rw [progress] at hunfinished
    cases hunfinished
  | done _ _ progress => simp [progress, Progress.finished] at hunfinished
  | awaits called asks => exact ⟨_, _, rfl, called, asks, rfl⟩

/-- If a frame is in no middle, it makes no difference where it is. -/
theorem moves (h : p.After last) (hfinished : p.progress.finished = true) {p' : Post}
    (hprogress : p'.progress = p.progress) : p'.After last := by
  cases h with
  | new progress => exact .new (hprogress.trans progress)
  | done called phase progress => exact .done called phase (hprogress.trans progress)
  | awaits called asks =>
    have hlt := Op.lt_phaseCount_of_asks asks
    simp [Progress.finished, executing, Post.again, Nat.not_le.mpr hlt] at hfinished

/-- It makes no difference what the frame runs. -/
theorem runs (h : p.After last) (activity : Activity) : Post.After last { p with activity } := by
  cases h with
  | new progress => exact .new progress
  | done called phase progress => exact .done called phase progress
  | awaits called asks => exact .awaits called asks

end After

end Post

/-! ### One step -/

/-- **What the frame on top executes**, if it is one of bytecode and gets that far. -/
def Machine.dispatch (host : Host σ) (M : Machine σ) : Option Dispatch :=
  match M.memory.frames.last? with
  | none => none
  | some f =>
    match f.activity with
    | .async _ => none
    | .bytecode r _ =>
      match Exec.fetch r M with
      | .error _ _ => none
      | .ok (op, imm, phase) N =>
        let ip := (N.posts.getLast?.map Post.ip).getD 0
        let after := (Exec.last (Exec.step host M)).posts[M.depth - 1]?
        some {
          ip, op, imm, phase
          decoded :=
            if f.progress.finished then (Instruction.decode (M.heap.prototype r).code ip).toOption
            else none
          called := if after.all (·.progress.finished) then none else op.asks phase }

/-- **What a dispatch does**: it calls the metamethod that it tells, on the stacks that have been
found, and nothing else; or, if it tells none and is an operator, it calls nothing. -/
structure Dispatch.Does (host : Host σ) (d : Dispatch) (M : Machine σ) : Prop where
  calls : ∀ name, d.called = some name →
    ∃ (K : Machine σ) (v method : Value) (argc returns : Nat),
    K.depth = M.depth ∧ K.heap = M.heap ∧ K.state = M.state ∧
    M.heap.metamethod v name = some method ∧
    Exec.last (Exec.step host M)
      = Exec.last (Exec.callMethod host method argc returns (d.phase + 1) K)
  rests : d.called = none → d.op.isOperator →
    (Exec.last (Exec.step host M)).depth = M.depth ∧
    (Exec.last (Exec.step host M)).state = M.state

namespace Exec

variable {host : Host σ} {M N : Machine σ} {below : List Post} {p : Post} {last : Option Dispatch}

/-- A step of a bytecode function. -/
theorem step_bytecode (host : Host σ) {f : Frame} {r : Ref .function} {context : Ref .context}
    (hf : M.memory.frames.last? = some f) (hactivity : f.activity = .bytecode r context) :
    step host M = (fetch r >>= fun x => execute host r context x.1 x.2.1 x.2.2) M := by
  simp [step, bind_apply, hf, hactivity]

/-- A step without frames ends the coroutine. -/
theorem step_nil (host : Host σ) (hnone : M.memory.frames.toList = []) :
    step host M
      = (takeFrom 0 >>= fun values => pure (some (.finished values)) :
        Exec σ (Option Exit)) M := by
  have hlast : M.memory.frames.last? = none := by
    rw [Stack.last?_eq_getLast?, hnone]
    rfl
  rw [step, bind_of_ok (get_apply M), hlast]

theorem frames_step_nil (host : Host σ) (hnone : M.memory.frames.toList = []) :
    (Exec.last (step host M)).memory.frames.toList = [] := by
  have htake : Still (takeFrom 0 >>= fun values => pure (some (.finished values)) :
      Exec σ (Option Exit)) :=
    (Still.smooth fun _ => .takeFrom 0).bind fun values => .smooth fun _ => .pure _
  rw [step_nil host hnone, htake M, hnone]

/-- A step of an asynchronous function of the host. -/
theorem step_async (host : Host σ) {f : Frame} {call : AsyncCall}
    (hf : M.memory.frames.last? = some f)
    (hactivity : f.activity = .async call) : step host M = stepAsync host f call M := by
  simp [step, bind_apply, hf, hactivity]

/-- What has been fetched for the frame on top, and where that has brought it. -/
theorem fetched {r : Ref .function} (hposts : M.posts = below ++ [p]) (hp : p.After last)
    {op : Op} {imm : Int64} {phase : Nat} (hfetch : fetch r M = .ok (op, imm, phase) N) :
    ∃ ip, N.posts = below ++ [.executing p.activity ip op imm phase] ∧ N.heap = M.heap ∧
      N.state = M.state ∧ phase < op.phaseCount ∧
      ∀ called, (∀ name, called = some name → op.asks phase = some name) →
        Dispatch.Next last {
          ip, op, imm, phase, called
          decoded :=
            if p.progress.finished then (Instruction.decode (M.heap.prototype r).code ip).toOption
            else none } := by
  obtain ⟨fs, f, hframes, rfl, rfl⟩ := Machine.exists_frame hposts
  have hfetches := fetches hframes r
  rw [hfetch] at hfetches
  cases hfetches with
  | @fresh ins _ _ _ idle decodes hop himm frames heap state =>
    have hfinished : f.post.progress.finished = true := idle.elim id hp.finished_of_unknown
    refine ⟨f.nextIp, posts_of_toList frames, heap, state, op.phaseCount_pos,
      fun called hcalled => ?_⟩
    refine .fresh (hp.finished_iff.mp hfinished) ⟨rfl, ⟨ins, ?_, hop, himm⟩, hcalled⟩
    simp [hfinished, decodes, Except.toOption]
  | again unfinished hop frames heap state =>
    obtain ⟨d, name, rfl, called, asks, hagain⟩ := hp.again_of_unfinished unfinished
    have posts :
        N.posts = fs.map Frame.post ++ [{ f.post with progress := f.post.progress.advance }] :=
      posts_of_toList frames
    have hprogress : f.progress = f.post.progress := rfl
    rw [hprogress] at unfinished hop ⊢
    generalize f.post = p at unfinished hop hagain posts ⊢
    generalize p.activity = activity at hagain posts ⊢
    subst hagain
    obtain rfl : d.op = op := Option.some.inj hop
    refine ⟨d.ip, posts, heap, state, Op.lt_phaseCount_of_asks asks, fun called' hcalled' => ?_⟩
    exact .again called ⟨rfl, rfl, rfl, rfl, by simp [unfinished], hcalled'⟩

/-- The post at its place, whatever has come on top. -/
theorem getElem?_top (below : List Post) (q : Post) (new : List Post) :
    (below ++ [q] ++ new)[below.length]? = some q := by
  simp

/-- The dispatch of the frame on top, once its step is known. -/
theorem dispatch_eq (host : Host σ) {r : Ref .function} {context : Ref .context}
    (hposts : M.posts = below ++ [p])
    (hactivity : p.activity = .bytecode r context) {op : Op} {imm : Int64} {phase ip : Nat}
    (hfetch : fetch r M = .ok (op, imm, phase) N)
    (hN : N.posts = below ++ [.executing p.activity ip op imm phase]) :
    M.dispatch host = some {
      ip, op, imm, phase
      decoded :=
        if p.progress.finished then (Instruction.decode (M.heap.prototype r).code ip).toOption
        else none
      called :=
        if (Exec.last (step host M)).posts[below.length]?.all (·.progress.finished) then none
        else op.asks phase } := by
  obtain ⟨fs, f, hframes, rfl, rfl⟩ := Machine.exists_frame hposts
  have hf : M.memory.frames.last? = some f := Stack.last?_of_toList hframes
  have hdepth : M.depth - 1 = (fs.map Frame.post).length := by
    rw [← M.length_posts, hposts, List.length_append]
    rfl
  have hcode : f.activity = .bytecode r context := hactivity
  unfold Machine.dispatch
  simp only [hf, hcode, hfetch, hN, hdepth, List.getLast?_concat, Option.map_some, Option.getD_some]
  rfl

/-- How a step of a bytecode function comes about: with the dispatch `d`, which it executes on the
machine `K`. -/
structure Executes (host : Host σ) (M : Machine σ) (below : List Post) (p : Post)
    (last : Option Dispatch) (r : Ref .function) (context : Ref .context) (d : Dispatch)
    (K : Machine σ) : Prop where
  dispatch : M.dispatch host = some d
  next : d.Next last
  phase : d.phase < d.op.phaseCount
  called : d.called =
    if (Exec.last (step host M)).posts[below.length]?.all (·.progress.finished) then none
    else d.op.asks d.phase
  posts : K.posts = below ++ [.executing p.activity d.ip d.op d.imm d.phase]
  heap : K.heap = M.heap
  state : K.state = M.state
  execute : step host M = Exec.execute host r context d.op d.imm d.phase K

/-- **A step of a bytecode function** executes a dispatch, unless there is no instruction. -/
theorem step_executes (host : Host σ) {r : Ref .function} {context : Ref .context}
    (hposts : M.posts = below ++ [p]) (hactivity : p.activity = .bytecode r context)
    (hp : p.After last) :
    (M.dispatch host = none ∧ ∃ p', (Exec.last (step host M)).posts = below ++ [p'] ∧
      p'.activity = p.activity ∧ p'.After last) ∨
    ∃ d K, Executes host M below p last r context d K := by
  obtain ⟨fs, f, hframes, rfl, rfl⟩ := Machine.exists_frame hposts
  have hf : M.memory.frames.last? = some f := Stack.last?_of_toList hframes
  have hcode : f.activity = .bytecode r context := hactivity
  have hrun := step_bytecode host hf hcode
  cases hfetch : fetch r M with
  | error e K =>
    have hfetches := fetches hframes r
    rw [hfetch] at hfetches
    cases hfetches with
    | @fails _ _ g idle frames activity _ _ progress _ =>
      have hfinished : f.progress.finished = true := idle.elim id hp.finished_of_unknown
      rw [hrun, bind_of_error hfetch]
      refine .inl ⟨?_, g.post, posts_of_toList frames, activity,
        hp.moves hfinished (progress hfinished)⟩
      simp [Machine.dispatch, hf, hcode, hfetch]
  | ok what K =>
    obtain ⟨op, imm, phase⟩ := what
    rw [bind_of_ok hfetch] at hrun
    obtain ⟨ip, hK, hheap, hstate, hphase, hnext⟩ := Exec.fetched hposts hp hfetch
    have hdispatch := dispatch_eq host hposts hactivity hfetch hK
    refine .inr ⟨_, K, hdispatch, hnext _ fun name hname => ?_, hphase, rfl, hK, hheap,
      hstate, hrun⟩
    split at hname
    · cases hname
    · exact hname

namespace Executes

variable {r : Ref .function} {context : Ref .context} {d : Dispatch} {K : Machine σ}

/-- The frame is gone, or where the dispatch leaves it. -/
theorem leaves (h : Executes host M below p last r context d K) (orderly : host.Orderly) :
    (Exec.last (step host M)).posts = below ∨ ∃ p' new, (∀ q ∈ new, Post.Begins q) ∧
      (Exec.last (step host M)).posts = below ++ [p'] ++ new ∧
      p'.activity = p.activity ∧ p'.After (some d) := by
  have hposted := posts_execute orderly h.posts r context d.op d.imm d.phase
  have hcalled := h.called
  rw [← h.execute] at hposted
  generalize (Exec.last (step host M)).posts = posts at hposted hcalled
  cases hposted with
  | stays begins =>
    refine .inr ⟨_, _, begins, rfl, rfl, .done ?_ h.phase rfl⟩
    rw [hcalled, getElem?_top]
    simp [Progress.finished, Post.executing]
  | asks asks begins =>
    have hlt := Op.lt_phaseCount_of_asks asks
    refine .inr ⟨_, _, begins, rfl, rfl, .awaits ?_ asks⟩
    rw [hcalled, getElem?_top]
    simp [Progress.finished, Post.executing, Post.again, Nat.not_le.mpr hlt, asks]
  | returns ret => exact .inl rfl

/-- A machine that has come from the one that executes without anything being called. -/
theorem rests (h : Executes host M below p last r context d K) (hposts : M.posts = below ++ [p])
    {L : Machine σ} (hrests : K.Rests L) : L.depth = M.depth ∧ L.state = M.state := by
  refine ⟨?_, hrests.state.trans h.state⟩
  rw [← L.length_posts, Machine.posts_of_frames hrests.frames, ← M.length_posts,
    h.posts, hposts, List.length_append, List.length_append]
  rfl

theorem does (h : Executes host M below p last r context d K) (hposts : M.posts = below ++ [p]) :
    d.Does host M := by
  have absent {name : String} (hnone : d.called = none) (hname : d.called = some name) : False :=
    Option.some_ne_none name (hname.symm.trans hnone)
  cases hasks : d.op.asks d.phase with
  | none =>
    have hnone : d.called = none := by
      rw [h.called, hasks, ite_self]
    refine ⟨fun name hname => (absent hnone hname).elim, fun _ hop => ?_⟩
    rw [h.execute]
    exact h.rests hposts (Resting.execute host r context d.imm hasks hop K)
  | some name =>
    obtain ⟨x, hx, hattempts⟩ := Attempts.execute host r context d.imm hasks
    have hlast : Exec.last (step host M) = Exec.last (x K) := by
      rw [h.execute, hx, bind_apply]
      cases x K <;> rfl
    have hcalled := h.called
    rw [hlast] at hcalled
    have htries := hattempts K.heap K rfl
    generalize x K = result at htries hcalled hlast
    cases htries with
    | native rests =>
      have hnone : d.called = none := by
        rw [hcalled, Machine.posts_of_frames rests.frames, h.posts, List.getElem?_concat_length]
        simp [Progress.finished, Post.executing]
      exact ⟨fun name hname => (absent hnone hname).elim,
        fun _ _ => hlast ▸ h.rests hposts rests⟩
    | @calls L v method argc returns rests heap found =>
      have hL := (Machine.posts_of_frames rests.frames).trans h.posts
      obtain ⟨new, -, hnoted⟩ := posts_callMethod host hL method argc returns (d.phase + 1)
      have hsome : d.called = some name := by
        have hlt := Op.lt_phaseCount_of_asks hasks
        rw [hcalled, hnoted, getElem?_top]
        simp [Progress.finished, Post.executing, Post.again, Nat.not_le.mpr hlt, hasks]
      refine ⟨fun name' hname => ?_, fun hnone => (absent hnone hsome).elim⟩
      obtain rfl : name = name' := Option.some.inj (hsome.symm.trans hname)
      obtain ⟨hdepth, hstate⟩ := h.rests hposts rests
      exact ⟨L, v, method, argc, returns, hdepth, heap.trans h.heap, hstate,
        h.heap ▸ found, hlast⟩

end Executes

/-- **Whatever a step does, it does on top**: all frames below are left alone. -/
theorem posts_step (orderly : host.Orderly) (hposts : M.posts = below ++ [p]) :
    (Exec.last (step host M)).posts = below ∨ ∃ p' new, (∀ q ∈ new, Post.Begins q) ∧
      (Exec.last (step host M)).posts = below ++ [p'] ++ new := by
  obtain ⟨fs, f, hframes, rfl, rfl⟩ := Machine.exists_frame hposts
  have hf : M.memory.frames.last? = some f := Stack.last?_of_toList hframes
  cases hactivity : f.activity with
  | async call =>
    rw [step_async host hf hactivity]
    rcases posts_stepAsync host hframes hactivity with hgone | ⟨call', new, begins, hstays⟩
    · exact .inl hgone
    · exact .inr ⟨_, new, begins, hstays⟩
  | bytecode r context =>
    have hexecuted {g : Frame} {K : Machine σ} (hK : K.memory.frames.toList = fs ++ [g]) (op : Op)
        (imm : Int64) (phase : Nat) :
        (Exec.last (execute host r context op imm phase K)).posts = fs.map Frame.post ∨
        ∃ p' new, (∀ q ∈ new, Post.Begins q) ∧
          (Exec.last (execute host r context op imm phase K)).posts
            = fs.map Frame.post ++ [p'] ++ new := by
      have hposted := posts_execute orderly (posts_of_toList hK) r context op imm phase
      generalize (Exec.last (execute host r context op imm phase K)).posts = posts at hposted
      cases hposted with
      | stays begins => exact .inr ⟨_, _, begins, rfl⟩
      | asks _ begins => exact .inr ⟨_, _, begins, rfl⟩
      | returns _ => exact .inl rfl
    have hfetches := fetches hframes r
    rw [step_bytecode host hf hactivity, bind_apply]
    generalize fetch r M = result at hfetches
    cases hfetches with
    | fails _ frames _ _ _ _ _ =>
      exact .inr ⟨_, [], List.forall_mem_nil _,
        (posts_of_toList frames).trans (List.append_nil _).symm⟩
    | fresh _ _ _ _ frames _ _ => exact hexecuted frames _ _ _
    | again _ _ frames _ _ => exact hexecuted frames _ _ _

end Exec

/-- What the frame at the place `n` executes in the next step: something if it is on top. -/
def Machine.dispatched (host : Host σ) (n : Nat) (M : Machine σ) : Option Dispatch :=
  if M.depth = n + 1 then M.dispatch host else none

namespace Exec

variable {host : Host σ} {M : Machine σ} {p : Post} {last : Option Dispatch} {n : Nat}

/-- **What a step is for one frame**: nothing to it, or a dispatch. -/
inductive Noticed (host : Host σ) (n : Nat) (M : Machine σ) (last : Option Dispatch)
    (p' : Post) : Prop
  | rests (dispatched : M.dispatched host n = none) (after : p'.After last) :
      Noticed host n M last p'
  | dispatches {d : Dispatch} (dispatched : M.dispatched host n = some d) (next : d.Next last)
      (after : p'.After (some d)) : Noticed host n M last p'

/-- **A step**, as seen by a frame that is still there. -/
theorem step_noticed (orderly : host.Orderly) (hp : M.posts[n]? = some p) (after : p.After last)
    (deep : n < (Exec.last (step host M)).depth) :
    ∃ p', (Exec.last (step host M)).posts[n]? = some p' ∧
      (∀ r context, p.activity = .bytecode r context → p'.activity = p.activity) ∧
      Noticed host n M last p' := by
  obtain ⟨hn, -⟩ := List.getElem?_eq_some_iff.mp hp
  rcases List.eq_nil_or_concat' M.posts with hnone | ⟨below, top, hposts⟩
  · rw [hnone] at hn
    exact absurd hn (Nat.not_lt_zero n)
  have hlength : M.posts.length = below.length + 1 := by
    rw [hposts, List.length_append, List.length_singleton]
  have hdepth : M.depth = below.length + 1 := M.length_posts.symm.trans hlength
  rw [← Machine.length_posts] at deep
  rcases Nat.lt_or_ge n below.length with hlow | hge
  · -- another frame is on top
    have hold : below[n]? = some p := by
      rwa [hposts, List.getElem?_append_left hlow] at hp
    refine ⟨p, ?_, fun _ _ _ => rfl, .rests (if_neg (by omega)) after⟩
    rcases posts_step orderly hposts with hgone | ⟨p', new, -, hstays⟩
    · rw [hgone, hold]
    · rw [hstays, List.append_assoc, List.getElem?_append_left hlow, hold]
  · obtain rfl : n = below.length := by omega
    obtain rfl : top = p := by simpa [hposts] using hp
    have hdispatched : M.dispatched host below.length = M.dispatch host := if_pos hdepth
    have hstays (h : (Exec.last (step host M)).posts = below) : False := by
      rw [h] at deep
      exact Nat.lt_irrefl _ deep
    cases hactivity : top.activity with
    | bytecode r context =>
      rcases step_executes host hposts hactivity after with
        ⟨hnone, p', hlast, hsame, hafter⟩ | ⟨d, K, h⟩
      · refine ⟨p', ?_, fun _ _ _ => hsame.trans hactivity, .rests ?_ hafter⟩
        · rw [hlast, List.getElem?_concat_length]
        · rw [hdispatched, hnone]
      · obtain ⟨p', new, begins, hlast, hsame, hafter⟩ :=
          (h.leaves orderly).resolve_left hstays
        refine ⟨p', ?_, fun _ _ _ => hsame.trans hactivity, .dispatches ?_ h.next hafter⟩
        · rw [hlast, getElem?_top]
        · rw [hdispatched, h.dispatch]
    | async call =>
      obtain ⟨fs, f, hframes, rfl, rfl⟩ := Machine.exists_frame hposts
      have hf : M.memory.frames.last? = some f := Stack.last?_of_toList hframes
      have hcall : f.activity = .async call := hactivity
      have hmoves := posts_stepAsync host hframes hcall
      rw [← step_async host hf hcall] at hmoves
      obtain ⟨call', new, -, hlast⟩ := hmoves.resolve_left hstays
      refine ⟨{ f.post with activity := .async call' }, by rw [hlast, getElem?_top], nofun,
        .rests ?_ (after.runs _)⟩
      rw [hdispatched, Machine.dispatch, hf]
      simp [hcall]

/-- A dispatch is one of the bytecode function on top, whose code it decodes if it decodes. -/
theorem code_of_dispatch {d : Dispatch} (hd : M.dispatch host = some d) :
    ∃ f r context, M.memory.frames.last? = some f ∧ f.activity = .bytecode r context ∧
      ∀ ins, d.decoded = some ins → Instruction.decode (M.heap.prototype r).code d.ip
        = .ok ins := by
  unfold Machine.dispatch at hd
  split at hd
  · cases hd
  · next f hf =>
    split at hd
    · cases hd
    · next r context hactivity =>
      split at hd
      · cases hd
      · obtain rfl := Option.some.inj hd
        refine ⟨f, r, context, hf, hactivity, fun ins hins => ?_⟩
        dsimp only at hins
        split at hins
        · generalize Instruction.decode _ _ = result at hins
          cases result with
          | error e => cases hins
          | ok made => rw [Option.some.inj hins]
        · cases hins

/-- The frame at its place executes something if it is on top, and then it is one of bytecode. -/
theorem top_of_dispatched {d : Dispatch} (hp : M.posts[n]? = some p)
    (hd : M.dispatched host n = some d) : ∃ below r context, M.posts = below ++ [p] ∧
      p.activity = .bytecode r context ∧ M.dispatch host = some d ∧
      ∀ ins, d.decoded = some ins → Instruction.decode (M.heap.prototype r).code d.ip
        = .ok ins := by
  unfold Machine.dispatched at hd
  split at hd
  · next hdepth =>
    obtain ⟨f, r, context, hf, hactivity, hdecode⟩ := code_of_dispatch hd
    rw [Stack.last?_eq_getLast?] at hf
    obtain ⟨fs, hframes⟩ := List.getLast?_eq_some_iff.mp hf
    have hposts := posts_of_toList hframes
    have hn : n = (fs.map Frame.post).length := by
      rw [← M.length_posts, hposts, List.length_append, List.length_singleton] at hdepth
      exact (Nat.succ.inj hdepth).symm
    rw [hposts, hn, List.getElem?_concat_length] at hp
    obtain rfl := Option.some.inj hp
    exact ⟨_, r, context, hposts, hactivity, hd, hdecode⟩
  · cases hd

/-- **What a frame executes next** goes on where it is, and does what it tells. -/
theorem next_of_dispatched {d : Dispatch} (hp : M.posts[n]? = some p) (after : p.After last)
    (hd : M.dispatched host n = some d) : d.Next last ∧ d.Does host M := by
  obtain ⟨below, r, context, hposts, hactivity, hdispatch, -⟩ := top_of_dispatched hp hd
  rcases step_executes host hposts hactivity after with ⟨hnone, -⟩ | ⟨d', K, h⟩
  · cases hdispatch.symm.trans hnone
  · obtain rfl : d = d' := Option.some.inj (hdispatch.symm.trans h.dispatch)
    exact ⟨h.next, h.does hposts⟩

end Exec

/-! ### The course of a frame -/

/-- **The code of closures stays**, where there is any. -/
def Heap.KeepsCode (h h' : Heap) : Prop :=
  ∀ r, h.functions.Holds r → (h.prototype r).code ≠ #[] →
    h'.functions.Holds r ∧ (h'.prototype r).code = (h.prototype r).code

namespace Heap.KeepsCode

variable {h h' h'' : Heap}

theorem refl (h : Heap) : h.KeepsCode h := fun _ hr _ => ⟨hr, rfl⟩

theorem trans (hfirst : h.KeepsCode h') (hsecond : h'.KeepsCode h'') : h.KeepsCode h'' := by
  intro r hr hcode
  obtain ⟨hr', hsame⟩ := hfirst r hr hcode
  obtain ⟨hr'', hsame'⟩ := hsecond r hr' (hsame ▸ hcode)
  exact ⟨hr'', hsame'.trans hsame⟩

/-- No run changes code. -/
theorem of_retains (hretains : h.Retains h') : h.KeepsCode h' :=
  fun r hr _ => ⟨(hretains.functions r hr).1, congrArg _ (hretains.prototype hr)⟩

end Heap.KeepsCode

namespace Machine

/-- **The course of the frame at the place `n`**, with what it executes: its coroutine makes steps;
and control may be away, whereupon anything may happen but to the code and to the stacks, until the
coroutine is resumed with some values. -/
inductive Course (host : Host σ) (n : Nat) (M : Machine σ) : List Dispatch → Machine σ → Prop
  | start (deep : n < M.depth) : Course host n M [] M
  | step {log : List Dispatch} {N : Machine σ} (before : Course host n M log N)
      (deep : n < (Exec.last (Exec.step host N)).depth) :
      Course host n M (log ++ (N.dispatched host n).toList) (Exec.last (Exec.step host N))
  | away {log : List Dispatch} {N L : Machine σ} (before : Course host n M log N)
      (keeps : N.heap.KeepsCode L.heap) (values : List Value)
      (memory : L.memory = (N.onValues fun s => s.pushAll values).memory) : Course host n M log L

namespace Course

variable {host : Host σ} {n : Nat} {M N L : Machine σ} {log : List Dispatch} {p : Post}

/-- No course changes code. -/
theorem keeps (h : Course host n M log N) : M.heap.KeepsCode N.heap := by
  induction h with
  | start _ => exact .refl _
  | @step _ N _ _ ih => exact ih.trans (.of_retains (Exec.step_retains host N))
  | away _ keeps _ _ ih => exact ih.trans keeps

/-- **What a frame has executed, and where that has left it**, from its beginning on. -/
theorem records (orderly : host.Orderly) (hp : M.posts[n]? = some p) (begins : p.Begins)
    (h : Course host n M log N) :
    ∃ p', N.posts[n]? = some p' ∧
      (∀ r context, p.activity = .bytecode r context → p'.activity = p.activity) ∧
      Dispatch.Log log ∧ p'.After log.getLast? := by
  induction h with
  | start _ => exact ⟨p, hp, fun _ _ _ => rfl, .nil, .new begins.progress⟩
  | @step log N _ deep ih =>
    obtain ⟨q, hq, hsame, hlog, hafter⟩ := ih
    obtain ⟨q', hq', hsame', hnoticed⟩ := Exec.step_noticed orderly hq hafter deep
    refine ⟨q', hq', fun r context hactivity => ?_, ?_⟩
    · have hkept := hsame r context hactivity
      exact (hsame' r context (hkept.trans hactivity)).trans hkept
    · cases hnoticed with
      | rests dispatched after =>
        rw [dispatched, Option.toList_none, List.append_nil]
        exact ⟨hlog, after⟩
      | dispatches dispatched next after =>
        rw [dispatched, Option.toList_some, List.getLast?_concat]
        exact ⟨.snoc hlog next, after⟩
  | @away log N L _ _ values memory ih =>
    obtain ⟨q, hq, hrest⟩ := ih
    have hposts : L.posts = N.posts := posts_of_frames (by rw [memory]; rfl)
    exact ⟨q, hposts ▸ hq, hrest⟩

/-- **All that a frame decodes is code of its closure**, and that is what the code still is. -/
theorem decodes (orderly : host.Orderly) {r : Ref .function} {context : Ref .context}
    (hp : M.posts[n]? = some p) (begins : p.Begins) (hactivity : p.activity = .bytecode r context)
    (hheld : M.heap.functions.Holds r) (hcode : (M.heap.prototype r).code ≠ #[])
    (h : Course host n M log N) :
    ∀ d ∈ log, ∀ ins, d.decoded = some ins →
      Instruction.decode (N.heap.prototype r).code d.ip = .ok ins := by
  have hsame {K : Machine σ} {log : List Dispatch} (h : Course host n M log K) :
      (K.heap.prototype r).code = (M.heap.prototype r).code := (h.keeps r hheld hcode).2
  rw [hsame h]
  induction h with
  | start _ => exact List.forall_mem_nil _
  | away _ _ _ _ ih => exact ih
  | @step log N before _ ih =>
    intro d hd ins hins
    rcases List.mem_append.mp hd with hd | hd
    · exact ih d hd ins hins
    · obtain ⟨q, hq, hkept, -⟩ := before.records orderly hp begins
      obtain ⟨_, r', context', -, hactivity', -, hdecode⟩ :=
        Exec.top_of_dispatched hq (Option.mem_toList.mp hd)
      obtain ⟨rfl, -⟩ : r' = r ∧ context' = context := by
        simpa [hactivity', hactivity] using hkept r context hactivity
      rw [← hsame before]
      exact hdecode ins hins

end Course

end Machine

end ScriptVm
