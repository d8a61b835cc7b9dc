import ScriptVm.Host.Scripted
import ScriptVm.Proofs.Tower

/-!
# Frames further down

A step works on the current frame.  The frames below it are there for the returns to
come, and what they say makes no difference until then.  So two runs are compared that
have different frames at the bottom, in equal number, and are the same apart from that:
the values, the frames above, the heap.  An **underlay** has the frames that differ.

The host must not tell the two apart either.  It may keep an account of what it sees,
so its states need not be the same on both sides.

Main statements: `Along.bind` and the other rules of composition, `Along.invoke`
(a call), `Along.step` (a step).
-/

namespace ScriptVm

/-- What two runs differ in. -/
structure Underlay (σ : Type) where
  /-- The lowest frames of the first run. -/
  left : List Frame
  /-- The lowest frames of the second run. -/
  right : List Frame
  length_eq : right.length = left.length
  /-- Which states of the host may stand beside each other. -/
  states : σ → σ → Prop

variable {σ α β : Type} {u : Underlay σ} {host : Host σ}

/-- Stacks that differ in the lowest frames only. -/
structure Stacks.Over (u : Underlay σ) (s s' : Stacks) : Prop where
  values : s'.values = s.values
  delimiters : s'.delimiters = s.delimiters
  marks : s'.marks = s.marks
  frames : ∃ up, s.frames.toList = u.left ++ up ∧ s'.frames.toList = u.right ++ up

/-- Machines that differ in the lowest frames only, and in the state of the host. -/
structure Machine.Over (u : Underlay σ) (M M' : Machine σ) : Prop where
  heap : M'.heap = M.heap
  memory : M.memory.Over u M'.memory
  config : M'.config = M.config
  state : u.states M.state M'.state

/-- **The host does not look at the lowest frames**: it does the same on stacks that differ in
nothing else.  A system call leaves them alone as long as there is a frame above them. -/
structure Host.Overlooks (host : Host σ) (u : Underlay σ) : Prop where
  effects : ∀ r heap config args s s' a a', s.Over u s' → u.states a a' →
    (host.callEffect r ⟨heap, s', config⟩ args a').1
      = (host.callEffect r ⟨heap, s, config⟩ args a).1 ∧
    u.states (host.callEffect r ⟨heap, s, config⟩ args a).2
      (host.callEffect r ⟨heap, s', config⟩ args a').2
  opening : ∀ r heap config s s' a a', s.Over u s' → u.states a a' →
    (host.openAsync r ⟨heap, s', config⟩ a').1
      = (host.openAsync r ⟨heap, s, config⟩ a).1 ∧
    u.states (host.openAsync r ⟨heap, s, config⟩ a).2
      (host.openAsync r ⟨heap, s', config⟩ a').2
  asyncs : ∀ r object heap history a a', u.states a a' →
    (host.stepAsync r object heap history a').1 = (host.stepAsync r object heap history a).1 ∧
    u.states (host.stepAsync r object heap history a).2 (host.stepAsync r object heap history a').2
  syscalls : ∀ i call, host.syscall i = some call → ∀ heap s s' a a', s.Over u s' →
    u.left.length < s.frames.size → u.states a a' →
    (call heap s a).memory.Over u (call heap s' a').memory ∧
    u.states (call heap s a).state (call heap s' a').state ∧
    (call heap s' a').defect = (call heap s a).defect

/-- The outcomes of two computations match: they have one result, or one reason to stop.  There are
at least `b` frames if there is a result. -/
inductive Underlay.Matched (u : Underlay σ) (b : Nat) :
    EStateM.Result Stop (Machine σ) α → EStateM.Result Stop (Machine σ) α → Prop
  | ok (a : α) {M M' : Machine σ} (above : M.Over u M') (deep : b ≤ M.depth) :
      Matched u b (.ok a M) (.ok a M')
  | error (e : Stop) {M M' : Machine σ} (above : M.Over u M') :
      Matched u b (.error e M) (.error e M')

/-- **A computation that the lowest frames make no difference to**, if there are at least `a`
frames, and that leaves at least `b` of them. -/
def Along (u : Underlay σ) (a b : Nat) (x : Exec σ α) : Prop :=
  ∀ M M' : Machine σ, M.Over u M' → a ≤ M.depth → u.Matched b (x M) (x M')

namespace Stacks.Over

variable {s s' : Stacks} (h : s.Over u s')
include h

theorem size_frames : s'.frames.size = s.frames.size := by
  obtain ⟨up, hs, hs'⟩ := h.frames
  rw [Stack.size_eq_length, Stack.size_eq_length, hs, hs', List.length_append, List.length_append,
    u.length_eq]

/-- With a frame above, the current one is the same. -/
theorem above (hdeep : u.left.length < s.frames.size) :
    ∃ up f, s.frames.toList = u.left ++ up ++ [f] ∧
      s'.frames.toList = u.right ++ up ++ [f] := by
  obtain ⟨up, hs, hs'⟩ := h.frames
  rcases List.eq_nil_or_concat up with rfl | ⟨up, f, rfl⟩
  · rw [Stack.size_eq_length, hs, List.append_nil] at hdeep
    exact absurd hdeep (Nat.lt_irrefl _)
  · exact ⟨up, f, by rw [hs, List.concat_eq_append, List.append_assoc],
      by rw [hs', List.concat_eq_append, List.append_assoc]⟩

theorem last_frame (hdeep : u.left.length < s.frames.size) : s'.frames.last? = s.frames.last? := by
  obtain ⟨up, f, hs, hs'⟩ := h.above hdeep
  rw [Stack.last?_eq_getLast?, Stack.last?_eq_getLast?, hs, hs', List.getLast?_concat,
    List.getLast?_concat]

end Stacks.Over

/-- Frames that are the same in both runs. -/
def Underlay.same (fs : List Frame) (states : σ → σ → Prop) : Underlay σ :=
  ⟨fs, fs, rfl, states⟩

/-- A machine stands beside itself. -/
theorem Machine.over_self {M : Machine σ} {fs up : List Frame}
    (hframes : M.memory.frames.toList = fs ++ up) {states : σ → σ → Prop}
    (hstate : states M.state M.state) : M.Over (.same fs states) M :=
  ⟨rfl, ⟨rfl, rfl, rfl, up, hframes, hframes⟩, rfl, hstate⟩

namespace Machine.Over

variable {M M' : Machine σ} (h : M.Over u M')
include h

theorem depth_eq : M'.depth = M.depth :=
  h.memory.size_frames

theorem le_depth : u.left.length ≤ M.depth := by
  obtain ⟨up, hs, -⟩ := h.memory.frames
  rw [Machine.depth, Stack.size_eq_length, hs, List.length_append]
  exact Nat.le_add_right _ _

theorem onHeap (f : Heap → Heap) : (M.onHeap f).Over u (M'.onHeap f) :=
  { h with heap := congrArg f h.heap }

theorem onValues (f : Stack Value → Stack Value) : (M.onValues f).Over u (M'.onValues f) :=
  { h with memory := { h.memory with values := congrArg f h.memory.values } }

theorem onDelimiters (f : Stack Nat → Stack Nat) :
    (M.onDelimiters f).Over u (M'.onDelimiters f) :=
  { h with memory := { h.memory with delimiters := congrArg f h.memory.delimiters } }

theorem onMarks (f : Stack TryMark → Stack TryMark) : (M.onMarks f).Over u (M'.onMarks f) :=
  { h with memory := { h.memory with marks := congrArg f h.memory.marks } }

/-- A frame is pushed. -/
theorem push (f : Frame) :
    (M.onFrames fun frames => frames.push f).Over u (M'.onFrames fun frames => frames.push f) := by
  obtain ⟨up, hs, hs'⟩ := h.memory.frames
  refine { h with memory := { h.memory with frames := ⟨up ++ [f], ?_, ?_⟩ } }
  · exact (Stack.toList_push _ f).trans (by rw [hs, List.append_assoc])
  · exact (Stack.toList_push _ f).trans (by rw [hs', List.append_assoc])

/-- The current frame is changed. -/
theorem modifyLast (hdeep : u.left.length < M.depth) (φ : Frame → Frame) :
    (M.onFrames fun frames => frames.modifyLast φ).Over u
      (M'.onFrames fun frames => frames.modifyLast φ) := by
  obtain ⟨up, f, hs, hs'⟩ := h.memory.above hdeep
  refine { h with memory := { h.memory with frames := ⟨up ++ [φ f], ?_, ?_⟩ } }
  · exact (Stack.toList_modifyLast hs φ).trans (List.append_assoc _ _ _)
  · exact (Stack.toList_modifyLast hs' φ).trans (List.append_assoc _ _ _)

/-- The current frame is removed. -/
theorem dropLast (hdeep : u.left.length < M.depth) :
    (M.onFrames Stack.dropLast).Over u (M'.onFrames Stack.dropLast) := by
  obtain ⟨up, f, hs, hs'⟩ := h.memory.above hdeep
  refine { h with memory := { h.memory with frames := ⟨up, ?_, ?_⟩ } }
  · exact (Stack.toList_dropLast _).trans (by rw [hs, List.dropLast_concat])
  · exact (Stack.toList_dropLast _).trans (by rw [hs', List.dropLast_concat])

end Machine.Over

/-! ### Rules -/

namespace Along

variable {a b c d : Nat} {x : Exec σ α}

/-- Computations one after the other. -/
theorem bind {f : α → Exec σ β} (hx : Along u a b x) (hf : ∀ r, Along u b c (f r)) :
    Along u a c (x >>= f) := by
  intro M M' above deep
  have h := hx M M' above deep
  rw [Exec.bind_apply, Exec.bind_apply]
  generalize x M = r at h
  generalize x M' = r' at h
  cases h with
  | ok result above deep => exact hf result _ _ above deep
  | error e above => exact .error e above

theorem mono (h : Along u a b x) (hab : a ≤ c) (hbd : d ≤ b) : Along u c d x := by
  intro M M' above deep
  have hx := h M M' above (Nat.le_trans hab deep)
  generalize x M = r at hx
  generalize x M' = r' at hx
  cases hx with
  | ok result above deep => exact .ok result above (Nat.le_trans hbd deep)
  | error e above => exact .error e above

theorem pure (r : α) : Along u d d (Pure.pure r : Exec σ α) :=
  fun _ _ above deep => .ok r above deep

theorem fault (f : Fault) : Along u d b (Exec.fault f : Exec σ α) :=
  fun _ _ above _ => .error _ above

theorem defect (e : Defect) : Along u d b (Exec.defect e : Exec σ α) :=
  fun _ _ above _ => .error _ above

theorem ofFault (r : Except Fault α) : Along u d d (Exec.ofFault r : Exec σ α) := by
  cases r with
  | ok r => exact pure r
  | error f => exact fault f

theorem ofDefect (r : Except Defect α) : Along u d d (Exec.ofDefect r : Exec σ α) := by
  cases r with
  | ok r => exact pure r
  | error e => exact defect e

/-- What is read off the machine is the same on both sides. -/
theorem get {f : Machine σ → Exec σ α}
    (h : ∀ M M' : Machine σ, M.Over u M' → a ≤ M.depth → f M' = f M ∧
      Along u a b (f M)) :
    Along u a b (MonadState.get >>= f) := by
  intro M M' above deep
  obtain ⟨heq, hf⟩ := h M M' above deep
  show u.Matched b (f M M) (f M' M')
  rw [heq]
  exact hf M M' above deep

/-- A change of the machine that keeps the number of frames. -/
theorem modify {f : Machine σ → Machine σ}
    (h : ∀ M M' : Machine σ, M.Over u M' → (f M).Over u (f M'))
    (hdepth : ∀ M : Machine σ, d ≤ M.depth → d ≤ (f M).depth) : Along u d d (modify f) :=
  fun M M' above deep => .ok () (h M M' above) (hdepth M deep)

theorem ite {P : Prop} [Decidable P] {y : Exec σ α} (hpos : Along u a b x)
    (hneg : Along u a b y) : Along u a b (if P then x else y) := by
  split
  · exact hpos
  · exact hneg

/-! ### Computations without the current frame -/

theorem heap : Along u d d (Exec.heap : Exec σ Heap) := by
  intro M M' above deep
  have hheap := above.heap
  simp only [Exec.heap_apply, hheap]
  exact .ok _ above deep

theorem onHeap (f : Heap → Heap) :
    Along u d d (MonadState.modifyGet fun M : Machine σ => ((), M.onHeap f)) :=
  modify (fun _ _ above => above.onHeap f) fun _ => id

theorem setHeap (h : Heap) : Along u d d (Exec.setHeap h : Exec σ Unit) :=
  modify (fun _ _ above => above.onHeap fun _ => h) fun _ => id

theorem allocate {k : Kind} (make : Heap → Ref k × Heap) :
    Along u d d (Exec.allocate make : Exec σ (Ref k)) := by
  intro M M' above deep
  have hheap := above.heap
  show u.Matched d (.ok (make M.heap).1 _) (.ok (make M'.heap).1 _)
  rw [hheap]
  exact .ok _ { above with heap := rfl } deep

theorem onValues (f : Stack Value → Stack Value) :
    Along u d d (MonadState.modifyGet fun M : Machine σ => ((), M.onValues f)) :=
  modify (fun _ _ above => above.onValues f) fun _ => id

theorem onDelimiters (f : Stack Nat → Stack Nat) :
    Along u d d (MonadState.modifyGet fun M : Machine σ => ((), M.onDelimiters f)) :=
  modify (fun _ _ above => above.onDelimiters f) fun _ => id

theorem onMarks (f : Stack TryMark → Stack TryMark) :
    Along u d d (MonadState.modifyGet fun M : Machine σ => ((), M.onMarks f)) :=
  modify (fun _ _ above => above.onMarks f) fun _ => id

theorem height : Along u d d (Exec.height : Exec σ Nat) := by
  intro M M' above deep
  have hvalues := above.memory.values
  simp only [Exec.height_apply, hvalues]
  exact .ok _ above deep

theorem heightLess (n : Nat) : Along u d d (Exec.heightLess n : Exec σ Nat) :=
  height.bind fun _ => ite (pure _) (defect _)

theorem push (v : Value) : Along u d d (Exec.push v : Exec σ Unit) := onValues _

theorem pushAll (vs : List Value) : Along u d d (Exec.pushAll vs : Exec σ Unit) := onValues _

theorem overwriteTop (vs : List Value) : Along u d d (Exec.overwriteTop vs : Exec σ Unit) :=
  (heightLess _).bind fun _ => onValues _

theorem slot (i : Nat) : Along u d d (Exec.slot i : Exec σ Value) :=
  get fun M M' above _ => ⟨by rw [above.memory.values], ofDefect _⟩

theorem setSlot (i : Nat) (v : Value) : Along u d d (Exec.setSlot i v : Exec σ Unit) :=
  height.bind fun _ => ite (onValues _) (defect _)

theorem takeFrom (start : Nat) : Along u d d (Exec.takeFrom start : Exec σ (List Value)) :=
  get fun M M' above _ => ⟨by rw [above.memory.values],
    (ofDefect _).bind fun _ => (onValues _).bind fun _ => pure _⟩

theorem shape (sizes : Sizes) (base : Nat) (size : Option Nat) :
    Along u d d (Exec.shape sizes base size : Exec σ Unit) := by
  cases size with
  | none => exact pure ()
  | some size =>
    exact (ofDefect _).bind fun _ => height.bind fun _ => ite (onValues _) (onValues _)

theorem pushDelimiter : Along u d d (Exec.pushDelimiter : Exec σ Unit) := by
  refine modify (fun M M' above => ?_) fun _ => id
  rw [above.memory.values]
  exact above.onDelimiters _

theorem checkDelimiter (position : Nat) :
    Along u d d (Exec.checkDelimiter position : Exec σ Nat) :=
  height.bind fun _ => ite (fault _) (pure _)

theorem ownsDelimiter (f : Frame) : Along u d d (Exec.ownsDelimiter f : Exec σ Bool) :=
  get fun M M' above _ => ⟨by rw [above.memory.delimiters], pure _⟩

/-- The position of the innermost delimiter. -/
theorem topDelimiter {f : Nat → Exec σ α} (hf : ∀ position, Along u d d (f position)) :
    Along u d d (do f (← Exec.ofDefect ((← MonadState.get).memory.delimiters.top 0))) :=
  get fun M M' above _ => ⟨by rw [above.memory.delimiters], (ofDefect _).bind hf⟩

/-! ### Constants of the unit -/

theorem loadFunction (r : Ref .function) (imm : Int64) :
    Along u d d (Exec.loadFunction r imm : Exec σ Unit) :=
  heap.bind fun _ => ite (fault _) ((ofDefect _).bind fun _ => (setHeap _).bind fun _ => push _)

theorem loadString (r : Ref .function) (imm : Int64) :
    Along u d d (Exec.loadString r imm : Exec σ Unit) := by
  refine heap.bind fun h => ?_
  dsimp only
  split
  · exact push _
  · exact fault _

/-! ### Calls -/

theorem openCall (overlooks : host.Overlooks u) (r : Ref .asyncExternal) :
    Along u d d (Exec.openCall host r) := by
  intro M M' above deep
  have hsame := overlooks.opening r M.heap M.config _ _ _ _ above.memory above.state
  rw [← above.heap, ← above.config] at hsame
  have opened {p p' : Nat × σ} (h : p'.1 = p.1 ∧ u.states p.2 p'.2) :
      u.Matched d (.ok p.1 { M with state := p.2 }) (.ok p'.1 { M' with state := p'.2 }) := by
    rw [h.1]
    exact .ok _ { above with state := h.2 } deep
  exact opened (by simpa only [above.heap, above.config] using hsame)

theorem enterAsync (overlooks : host.Overlooks u) (r : Ref .asyncExternal) (base : Nat)
    (returnSize : Option Nat) : Along u d d (Exec.enterAsync host r base returnSize) := by
  refine (openCall overlooks r).bind fun object => (heightLess base).bind fun argumentCount =>
    modify (fun M M' above => ?_) fun M deep => ?_
  · rw [above.memory.values, above.memory.delimiters, above.memory.marks]
    exact above.push _
  · exact Nat.le_trans deep (Nat.le_of_lt (by simp [Machine.depth, Machine.onFrames]))

theorem enter (host : Host σ) (r : Ref .function) (base : Nat) (returnSize : Option Nat)
    (context : Option (Ref .context)) :
    Along u d d (Exec.enter host r base returnSize context) := by
  refine heap.bind fun h => (heightLess base).bind fun argumentCount =>
    height.bind fun localsBase =>
    (ofDefect _).bind fun privateBase => ?_
  have enters (context : Ref .context) : Along u d d (do
      MonadState.modifyGet fun M : Machine σ =>
        ((), M.onHeap fun h' => h'.declareVariables context (h.prototype r).declared)
      MonadState.modifyGet fun M : Machine σ =>
        ((), M.onValues fun values => values.fillTo privateBase)
      MonadState.modifyGet fun M : Machine σ => ((), M.onFrames fun frames => frames.push {
        activity := .bytecode r context
        stackBase := base
        argumentCount
        localsBase
        privateBase
        ip := 0
        nextIp := 0
        delimiterBase := M.memory.delimiters.size
        tryBase := M.memory.marks.size
        returnSize
        progress := .none }) : Exec σ Unit) := by
    refine (onHeap _).bind fun _ => (onValues _).bind fun _ =>
      modify (fun M M' above => ?_) fun M deep => ?_
    · rw [above.memory.delimiters, above.memory.marks]
      exact above.push _
    · exact Nat.le_trans deep (Nat.le_of_lt (by simp [Machine.depth, Machine.onFrames]))
  cases context with
  | some context => exact enters context
  | none => exact (allocate _).bind enters

/-- A function of the host answers alike, whatever states it leaves. -/
theorem answered {M M' : Machine σ} (above : M.Over u M') (deep : d ≤ M.depth)
    {r r' : Except Fault α × σ} (hr : r'.1 = r.1 ∧ u.states r.2 r'.2) :
    u.Matched d (Exec.ofFault r.1 { M with state := r.2 })
      (Exec.ofFault r'.1 { M' with state := r'.2 }) := by
  rw [hr.1]
  exact ofFault (d := d) r.1 _ _ { above with state := hr.2 } deep

theorem runEffect (overlooks : host.Overlooks u) (r : Ref .effectExternal) (args : List Value) :
    Along u d d (Exec.runEffect host r args) := by
  intro M M' above deep
  have hsame := overlooks.effects r M.heap M.config args _ _ _ _ above.memory above.state
  rw [← above.heap, ← above.config] at hsame
  exact answered above deep (by simpa only [above.heap, above.config] using hsame)

theorem askStep (overlooks : host.Overlooks u) (r : Ref .asyncExternal) (object : Nat)
    (history : List (List Value)) : Along u d d (Exec.askStep host r object history) := by
  intro M M' above deep
  have hsame := overlooks.asyncs r object M.heap history _ _ above.state
  exact answered above deep (by simpa only [above.heap] using hsame)

/-- The results of a function of the host, where its arguments were. -/
theorem results (sizes : Sizes) (vs : List Value) (base : Nat) (returnSize : Option Nat) :
    Along u d d (do
      Exec.pushAll vs
      Exec.shape sizes base returnSize : Exec σ Unit) :=
  (pushAll vs).bind fun _ => shape sizes base returnSize

/-- **A call.** -/
theorem invoke (overlooks : host.Overlooks u) (callee : Value) (base : Nat)
    (returnSize : Option Nat) : Along u d d (Exec.invoke host callee base returnSize) := by
  cases callee with
  | function r => exact enter host r base returnSize none
  | asyncFn r => exact enterAsync overlooks r base returnSize
  | pureFn r =>
    exact (takeFrom base).bind fun args => heap.bind fun h => (ofFault _).bind fun vs =>
      results _ vs base returnSize
  | effectFn r =>
    exact (takeFrom base).bind fun args => (runEffect overlooks r args).bind fun vs =>
      results _ vs base returnSize
  | _ => exact heap.bind fun h => fault _

/-! ### The current frame -/

section

variable (deep : u.left.length < d)
include deep

theorem frame : Along u d d (Exec.frame : Exec σ Frame) :=
  get fun M M' above hM => by
    rw [above.memory.last_frame (Nat.lt_of_lt_of_le deep hM)]
    refine ⟨rfl, ?_⟩
    cases M.memory.frames.last? with
    | some f => exact pure f
    | none => exact defect _

theorem modifyFrame (φ : Frame → Frame) : Along u d d (Exec.modifyFrame φ : Exec σ Unit) := by
  refine (frame deep).bind fun f => fun M M' above hM => ?_
  refine .ok () (above.modifyLast (Nat.lt_of_lt_of_le deep hM) φ) ?_
  simpa [Machine.depth, Machine.onFrames, Stack.size, Stack.modifyLast] using hM

theorem pop : Along u d d (Exec.pop : Exec σ Value) := by
  refine (frame deep).bind fun f => height.bind fun top => ite (fault _) ?_
  refine get fun M M' above _ => ?_
  rw [above.memory.values]
  refine ⟨rfl, ?_⟩
  cases M.memory.values.last? with
  | some v => exact (onValues _).bind fun _ => pure v
  | none => exact defect _

theorem popMany (n : Nat) : Along u d d (Exec.popMany n : Exec σ Unit) := by
  induction n with
  | zero => exact pure ()
  | succ n ih => exact (pop deep).bind fun _ => ih

theorem peek (offset : Nat) : Along u d d (Exec.peek offset : Exec σ Value) :=
  (frame deep).bind fun f => height.bind fun top => ite (fault _)
    (get fun M M' above _ => ⟨by rw [above.memory.values], ofDefect _⟩)

theorem replaceTop (count : Nat) (v : Value) :
    Along u d d (Exec.replaceTop count v : Exec σ Unit) :=
  (popMany deep count).bind fun _ => push v

theorem peekDelimiter : Along u d d (Exec.peekDelimiter : Exec σ Nat) :=
  (frame deep).bind fun f => (ownsDelimiter f).bind fun _ =>
    ite (topDelimiter checkDelimiter) (checkDelimiter _)

theorem popDelimiter : Along u d d (Exec.popDelimiter : Exec σ Nat) :=
  (frame deep).bind fun f => (ownsDelimiter f).bind fun _ =>
    ite (topDelimiter fun position => (onDelimiters _).bind fun _ => checkDelimiter position)
      (checkDelimiter _)

/-- **A return** leaves one frame less. -/
theorem leave (host : Host σ) (results : List Value) :
    Along u d u.left.length (Exec.leave host results) := by
  refine (frame deep).bind fun f => bind (b := u.left.length) ?_ fun _ => (onValues _).bind fun _ =>
    (pushAll results).bind fun _ => (shape _ _ _).bind fun _ => (onDelimiters _).bind fun _ =>
      onMarks _
  intro M M' above hM
  have hdropped := above.dropLast (Nat.lt_of_lt_of_le deep hM)
  exact .ok () hdropped hdropped.le_depth

theorem ret (host : Host σ) : Along u d u.left.length (Exec.ret host) :=
  (popDelimiter deep).bind fun start => (takeFrom start).bind fun results => leave deep host results

theorem stepAsync (overlooks : host.Overlooks u) (f : Frame) (call : AsyncCall) :
    Along u d u.left.length (Exec.stepAsync host f call) := by
  have low {β : Type} {x : Exec σ β} (h : Along u d d x) : Along u d u.left.length x :=
    h.mono (Nat.le_refl _) (Nat.le_of_lt deep)
  refine (takeFrom _).bind fun args => (modifyFrame deep _).bind fun _ =>
    (askStep overlooks _ _ _).bind fun step => ?_
  cases step with
  | finish results => exact (leave deep host results).bind fun _ => pure none
  | yield values => exact low (pure _)
  | switch coroutine args => exact low (pure _)
  | call callee args =>
    exact low ((pushAll args).bind fun _ => (invoke overlooks callee _ none).bind fun _ =>
      pure none)

/-! ### Operators, tables and variables -/

theorem continueAt (phase : Nat) : Along u d d (Exec.continueAt phase : Exec σ Unit) :=
  modifyFrame deep _

theorem finishBinary (o : BinaryOp) : Along u d d (Exec.finishBinary o : Exec σ Unit) := by
  cases o with
  | lss | gtr | equ | neq => exact (pop deep).bind fun v => push _
  | _ => exact pure ()

theorem orderFinish : Along u d d (Exec.orderFinish : Exec σ Unit) :=
  (pop deep).bind fun _ => push _

theorem readVariable (scope : Ref .context) :
    Along u d d (Exec.readVariable scope : Exec σ Unit) := by
  refine heap.bind fun h => (pop deep).bind fun v => (ofFault _).bind fun name => bind ?_ push
  intro M M' above hM
  have hheap := above.heap
  show u.Matched d (.ok (M.heap.readVariable scope name).1 _)
    (.ok (M'.heap.readVariable scope name).1 _)
  rw [hheap]
  exact .ok _ { above with heap := rfl } hM

theorem writeVariable (scope : Ref .context) :
    Along u d d (Exec.writeVariable scope : Exec σ Unit) :=
  heap.bind fun _ => (pop deep).bind fun _ => (ofFault _).bind fun _ => (pop deep).bind fun _ =>
    onHeap _

theorem scopeOperator (context : Ref .context) (op : ScopeOp) :
    Along u d d (Exec.scopeOperator context op : Exec σ Unit) := by
  cases op with
  | read => exact readVariable deep context
  | write => exact writeVariable deep context
  | readGlobal => exact heap.bind fun h => readVariable deep _
  | writeGlobal => exact heap.bind fun h => writeVariable deep _

section

variable (overlooks : host.Overlooks u)
include overlooks

theorem callMethod (method : Value) (argc returns phase : Nat) :
    Along u d d (Exec.callMethod host method argc returns phase) :=
  (continueAt deep phase).bind fun _ => (heightLess argc).bind fun base =>
    invoke overlooks method base _

theorem callOverload (o : BinaryOp) (method x y : Value) :
    Along u d d (Exec.callOverload host o method x y) := by
  have asks : Along u d d (if o = .leq ∨ o = .geq then do
      Exec.push ((Overload.ofBinary o).order x y).1
      Exec.push ((Overload.ofBinary o).order x y).2
      Exec.callMethod host method 2 1 1
    else Exec.callMethod host method 2 1 1) :=
    ite ((push _).bind fun _ => (push _).bind fun _ => callMethod deep overlooks method 2 1 1)
      (callMethod deep overlooks method 2 1 1)
  exact ite ((overwriteTop _).bind fun _ => asks) asks

theorem operateBinary (o : BinaryOp) : Along u d d (Exec.operateBinary host o) := by
  refine (peek deep 0).bind fun y => (peek deep 1).bind fun x => heap.bind fun h =>
    (ofFault _).bind fun native => ?_
  cases native with
  | some value => exact replaceTop deep 2 value
  | none =>
    dsimp only
    cases h.overloadMethod o x y with
    | some method => exact callOverload deep overlooks o method x y
    | none =>
      cases o with
      | equ | neq => exact replaceTop deep 2 _
      | _ => exact fault _

theorem orderEqual (o : BinaryOp) : Along u d d (Exec.orderEqual host o) := by
  refine (pop deep).bind fun less => ite (replaceTop deep 2 _) ?_
  refine (peek deep 0).bind fun b => (peek deep 1).bind fun a => heap.bind fun h => ?_
  cases h.binaryMethod a b "__equ" (Overload.ofBinary o).latterFirst with
  | some method => exact callMethod deep overlooks method 2 1 2
  | none => exact fault _

theorem binaryOperator (o : BinaryOp) (phase : Nat) :
    Along u d d (Exec.binaryOperator host o phase) := by
  refine ite ?_ ?_
  · cases OrderPhase.ofNumber phase with
    | less => exact operateBinary deep overlooks o
    | equal => exact orderEqual deep overlooks o
    | finish => exact orderFinish deep
  · cases OperatorPhase.ofNumber phase with
    | operate => exact operateBinary deep overlooks o
    | finish => exact finishBinary deep o

theorem unaryOperator (o : UnaryOp) (phase : Nat) :
    Along u d d (Exec.unaryOperator host o phase) := by
  unfold Exec.unaryOperator
  cases OperatorPhase.ofNumber phase with
  | finish => exact pure ()
  | operate =>
    refine (peek deep 0).bind fun x => ?_
    cases Operator.unary o x with
    | some value => exact replaceTop deep 1 value
    | none =>
      refine heap.bind fun h => ?_
      cases h.metamethod x (Overload.ofUnary o) with
      | some method => exact callMethod deep overlooks method 1 1 1
      | none => exact fault _

theorem readEntry (throughMethod : Bool) : Along u d d (Exec.readEntry host throughMethod) := by
  refine (peek deep 0).bind fun key => (peek deep 1).bind fun container => heap.bind fun h => ?_
  cases container with
  | vector w => exact replaceTop deep 2 _
  -- What is no vector has to be a table.
  | _ =>
    refine (ofFault _).bind fun t => ?_
    cases (if throughMethod then h.tableMethod t "__ren" else none) with
    | some method => exact callMethod deep overlooks method 2 1 1
    | none => exact replaceTop deep 2 _

theorem updateEntry (throughMethod : Bool) : Along u d d (Exec.updateEntry host throughMethod) := by
  refine (peek deep 0).bind fun key => (peek deep 1).bind fun container =>
    (peek deep 2).bind fun value =>
    heap.bind fun h => ?_
  have drops : Along u d d (Exec.dropWrite : Exec σ Unit) :=
    (heightLess 3).bind fun _ => onValues _
  cases container with
  | vector w =>
    exact (ofFault _).bind fun index => ite (fault _) ((onHeap _).bind fun _ => drops)
  | _ =>
    refine (ofFault _).bind fun t => ?_
    cases (if throughMethod then h.tableMethod t "__uen" else none) with
    | some method => exact (overwriteTop _).bind fun _ => callMethod deep overlooks method 3 0 1
    | none => exact (onHeap _).bind fun _ => drops

theorem operateTable (op : TableOp) : Along u d d (Exec.operateTable host op) := by
  cases op with
  | setMeta =>
    exact heap.bind fun h => (pop deep).bind fun _ => (ofFault _).bind fun t =>
      (pop deep).bind fun _ =>
      (ofFault _).bind fun _ => onHeap _
  | getMeta =>
    refine heap.bind fun h => (pop deep).bind fun _ => (ofFault _).bind fun t => ?_
    cases (h.table t).metatable with
    | some metatable => exact push _
    | none => exact push _
  | read => exact readEntry deep overlooks true
  | readLocal => exact readEntry deep overlooks false
  | update => exact updateEntry deep overlooks true
  | updateLocal => exact updateEntry deep overlooks false
  | insert =>
    exact (pop deep).bind fun _ => (pop deep).bind fun _ => heap.bind fun h =>
      (peek deep 0).bind fun _ =>
      (ofFault _).bind fun _ => onHeap _
  | push =>
    exact heap.bind fun h => (pop deep).bind fun _ => (ofFault _).bind fun _ =>
      (pop deep).bind fun _ =>
      onHeap _
  | pop =>
    refine heap.bind fun h => (pop deep).bind fun _ => (ofFault _).bind fun v => ?_
    cases (h.vector v).back? with
    | some value => exact (onHeap _).bind fun _ => push _
    | none => exact fault _

theorem tableOperator (op : TableOp) (phase : Nat) :
    Along u d d (Exec.tableOperator host op phase) := by
  unfold Exec.tableOperator
  cases OperatorPhase.ofNumber phase with
  | operate => exact operateTable deep overlooks op
  | finish => exact pure ()

end

/-! ### Instructions -/

theorem fetchNext (r : Ref .function) :
    Along u d d (Exec.fetchNext r : Exec σ (Op × Int64 × Nat)) := by
  refine (modifyFrame deep _).bind fun _ => (frame deep).bind fun f => heap.bind fun h =>
    (ofFault _).bind fun instruction => (modifyFrame deep _).bind fun _ => ?_
  cases instruction.op with
  | none => exact fault _
  | some op =>
    have finishes (imm : Int64) : Along u d d (do
        Exec.modifyFrame fun f => { f with progress := (Progress.start op imm).complete }
        return (op, imm, 0) : Exec σ (Op × Int64 × Nat)) :=
      (modifyFrame deep _).bind fun _ => pure _
    exact ite (heap.bind fun h => (pop deep).bind fun v => (ofFault _).bind finishes)
      ((pure _).bind finishes)

theorem fetch (r : Ref .function) : Along u d d (Exec.fetch r : Exec σ (Op × Int64 × Nat)) := by
  refine (frame deep).bind fun f => ite (fetchNext deep r) ((modifyFrame deep _).bind fun _ => ?_)
  cases f.progress.op with
  | some op => exact pure _
  | none => exact fetchNext deep r

theorem loadConstant (host : Host σ) (c : Constant) (imm : Int64) :
    Along u d d (Exec.loadConstant host c imm) := by
  cases c with
  | newTable => exact (allocate _).bind fun r => push _
  | newVector =>
    exact get fun M M' above _ => ⟨by rw [above.config], (ofDefect _).bind fun _ =>
      (allocate _).bind fun r => push _⟩
  | argumentCount => exact (frame deep).bind fun f => push _
  | nil | float | true | false => exact push _

theorem localSlot (imm : Int64) : Along u d d (Exec.localSlot imm : Exec σ Nat) :=
  (frame deep).bind fun _ => ite (fault _) (pure _)

theorem loadArgument (imm : Int64) : Along u d d (Exec.loadArgument imm : Exec σ Unit) :=
  (frame deep).bind fun _ => ite ((slot _).bind push) (push _)

theorem jumpTarget (r : Ref .function) (imm : Int64) :
    Along u d d (Exec.jumpTarget r imm : Exec σ Nat) :=
  heap.bind fun _ => (frame deep).bind fun _ => ite (fault _) (pure _)

theorem condition (c : Condition) : Along u d d (Exec.condition c : Exec σ Bool) := by
  cases c with
  | always => exact pure _
  | falsy | truthy | isNil | notNil => exact (pop deep).bind fun v => pure _

theorem branch (r : Ref .function) (c : Condition) (imm : Int64) :
    Along u d d (Exec.branch r c imm : Exec σ Unit) :=
  (condition deep c).bind fun _ =>
    ite ((jumpTarget deep r imm).bind fun _ => modifyFrame deep _) (pure _)

theorem tryOperator (r : Ref .function) (op : TryOp) (imm : Int64) :
    Along u d d (Exec.tryOperator r op imm : Exec σ Unit) := by
  cases op with
  | enter w =>
    refine (jumpTarget deep r imm).bind fun target => modify (fun M M' above => ?_) fun _ => id
    rw [above.memory.values, above.memory.delimiters, above.memory.size_frames]
    exact above.onMarks _
  | leave =>
    exact (frame deep).bind fun f => get fun M M' above _ =>
      ⟨by rw [above.memory.marks], ite (onMarks _) (pure _)⟩
  | throw => exact (pop deep).bind fun v => heap.bind fun h => fault _

/-- **A system call** leaves the lowest frames alone. -/
theorem syscall (overlooks : host.Overlooks u) (index : Fin 8) :
    Along u d u.left.length (Exec.syscall host index) := by
  unfold Exec.syscall
  cases hcall : host.syscall index with
  | none => exact (pure ()).mono (Nat.le_refl _) (Nat.le_of_lt deep)
  | some call =>
    dsimp only
    intro M M' above hM
    obtain ⟨hmemory, hstate, hdefect⟩ :=
      overlooks.syscalls index call hcall M.heap _ _ _ _ above.memory
      (Nat.lt_of_lt_of_le deep hM) above.state
    rw [Exec.bind_of_ok (Exec.get_apply M), Exec.bind_of_ok (Exec.set_apply M _),
      Exec.bind_of_ok (Exec.get_apply M'), Exec.bind_of_ok (Exec.set_apply M' _), above.heap,
      hdefect]
    have hover : Machine.Over u
        { M with memory := (call M.heap M.memory M.state).memory
                 state := (call M.heap M.memory M.state).state }
        { M' with memory := (call M.heap M'.memory M'.state).memory
                  state := (call M.heap M'.memory M'.state).state } :=
      { above with memory := hmemory, state := hstate }
    rw [above.heap] at hover
    cases (call M.heap M.memory M.state).defect with
    | none => exact .ok () hover hover.le_depth
    | some e => exact .error _ hover

theorem control (overlooks : host.Overlooks u) (context : Ref .context) (op : ControlOp) :
    Along u d u.left.length (Exec.control host context op) := by
  have low {x : Exec σ (Option Exit)} (h : Along u d d x) : Along u d u.left.length x :=
    h.mono (Nat.le_refl _) (Nat.le_of_lt deep)
  cases op with
  | ret => exact (ret deep host).bind fun _ => pure none
  | dup => exact low ((peek deep 0).bind fun v => (push v).bind fun _ => pure none)
  | pop => exact low ((pop deep).bind fun v => pure none)
  | makeCoroutine =>
    exact low (heap.bind fun h => (pop deep).bind fun v => (ofFault _).bind fun entry =>
      get fun M M' above _ => ⟨by rw [above.config], (ofDefect _).bind fun made =>
        (allocate _).bind fun r => (push _).bind fun _ => pure none⟩)
  | yield =>
    exact low ((peekDelimiter deep).bind fun start => (takeFrom start).bind fun _ => pure _)
  | resume =>
    exact low (heap.bind fun h => (pop deep).bind fun v => (ofFault _).bind fun r =>
      (peekDelimiter deep).bind fun start => (takeFrom start).bind fun _ => pure _)
  | delimit => exact low (pushDelimiter.bind fun _ => pure none)
  | call =>
    exact low ((pop deep).bind fun callee => (peekDelimiter deep).bind fun base =>
      (invoke overlooks callee base none).bind fun _ => pure none)
  | bind =>
    exact low (heap.bind fun h => (peek deep 0).bind fun v => (ofFault _).bind fun r =>
      (onHeap _).bind fun _ => pure none)
  | undelimit => exact low ((popDelimiter deep).bind fun _ => pure none)
  | dupRun =>
    exact low ((peekDelimiter deep).bind fun start => get fun M M' above _ =>
      ⟨by rw [above.memory.values], (ofDefect _).bind fun run => pushDelimiter.bind fun _ =>
        (pushAll run).bind fun _ => pure none⟩)
  | pack =>
    exact low ((popDelimiter deep).bind fun start => (takeFrom start).bind fun items =>
      (allocate _).bind fun r => (push _).bind fun _ => pure none)
  | unpack =>
    exact low (heap.bind fun h => (pop deep).bind fun v => (ofFault _).bind fun r =>
      heap.bind fun h => pushDelimiter.bind fun _ => (pushAll _).bind fun _ => pure none)
  | nop => exact low (pure none)

/-- **An instruction.** -/
theorem execute (overlooks : host.Overlooks u) (r : Ref .function) (context : Ref .context)
    (op : Op) (imm : Int64) (phase : Nat) :
    Along u d u.left.length (Exec.execute host r context op imm phase) := by
  have low {x : Exec σ Unit} (h : Along u d d x) : Along u d u.left.length (do
      x
      return none : Exec σ (Option Exit)) :=
    (h.mono (Nat.le_refl _) (Nat.le_of_lt deep)).bind fun _ => pure none
  cases op with
  | binary o => exact low (binaryOperator deep overlooks o phase)
  | table o => exact low (tableOperator deep overlooks o phase)
  | unary o => exact low (unaryOperator deep overlooks o phase)
  | scope o => exact low (scopeOperator deep context o)
  | loadFunction w => exact low (loadFunction r imm)
  | loadString w => exact low (loadString r imm)
  | loadInt w => cases w <;> exact low (push _)
  | loadConstant c => exact low (loadConstant deep host c imm)
  | loadLocal w => exact low ((localSlot deep imm).bind fun i => (slot i).bind push)
  | storeLocal w =>
    exact low ((localSlot deep imm).bind fun i => (pop deep).bind fun v => setSlot i v)
  | loadArgument w => exact low (loadArgument deep imm)
  | branch c w => exact low (branch deep r c imm)
  | guarded o => exact low (tryOperator deep r o imm)
  | shape w => exact low ((popDelimiter deep).bind fun start => shape _ start _)
  | syscall index => exact (syscall deep overlooks index).bind fun _ => pure none
  | control o => exact control deep overlooks context o

/-- **A step** makes of machines that differ in the lowest frames such machines again, as long as
there is a frame above them. -/
theorem step (overlooks : host.Overlooks u) : Along u d u.left.length (Exec.step host) := by
  refine get fun M M' above hM => ?_
  rw [above.memory.last_frame (Nat.lt_of_lt_of_le deep hM)]
  refine ⟨rfl, ?_⟩
  cases M.memory.frames.last? with
  | none =>
    exact ((takeFrom 0).bind fun _ => pure _).mono (Nat.le_refl _) (Nat.le_of_lt deep)
  | some f =>
    cases hactivity : f.activity with
    | bytecode r context =>
      simp only [hactivity]
      exact (fetch deep r).bind fun next => execute deep overlooks r context _ _ _
    | async call =>
      simp only [hactivity]
      exact stepAsync deep overlooks f call

end

end Along

/-! ### Hosts made of scripts -/

/-- The line of a frame in a backtrace. -/
def Heap.line (h : Heap) (f : Frame) : TraceLine :=
  ⟨h.frameName f, f.ip⟩

namespace Scripted

/-- One action of a system call. -/
theorem runSyscallStep_over {u : Underlay (Array Event)} {s s' : Stacks} (h : s.Over u s')
    (hdeep : u.left.length < s.frames.size) (heap : Heap) (events events' : Array Event)
    (action : SyscallScript) :
    (runSyscallStep heap s events action).memory.Over u
    (runSyscallStep heap s' events' action).memory ∧
    (runSyscallStep heap s events action).memory.frames.size = s.frames.size ∧
    (runSyscallStep heap s' events' action).defect
      = (runSyscallStep heap s events action).defect := by
  have onFrame (φ : Frame → Frame) : (onFrame s φ).Over u (onFrame s' φ) ∧
      (onFrame s φ).frames.size = s.frames.size := by
    obtain ⟨up, f, hs, hs'⟩ := h.above hdeep
    have hφ := (Stack.toList_modifyLast hs φ).trans (List.append_assoc _ _ _)
    have hφ' := (Stack.toList_modifyLast hs' φ).trans (List.append_assoc _ _ _)
    refine ⟨{ h with frames := ⟨up ++ [φ f], hφ, hφ'⟩ }, ?_⟩
    rw [Stack.size_eq_length, Stack.size_eq_length, hs]
    exact (congrArg List.length hφ).trans (by simp)
  have hvalues := h.values
  have hdelimiters := h.delimiters
  cases action with
  | push v => exact ⟨{ h with values := congrArg (Stack.push · v) hvalues }, rfl, rfl⟩
  | pop =>
    unfold runSyscallStep
    rw [hvalues]
    cases s.values.pop with
    | ok popped => exact ⟨{ h with values := rfl }, rfl, rfl⟩
    | error e => exact ⟨h, rfl, rfl⟩
  | height =>
    refine ⟨{ h with values := ?_ }, rfl, rfl⟩
    show s'.values.push (number s'.values.size) = s.values.push (number s.values.size)
    rw [hvalues]
  | truncate n => exact ⟨{ h with values := congrArg (Stack.truncate · n) hvalues }, rfl, rfl⟩
  | slot => exact ⟨{ h with values := congrArg (Stack.push · Value.nil) hvalues }, rfl, rfl⟩
  | pushDelimiter n =>
    exact ⟨{ h with delimiters := congrArg (Stack.push · n) hdelimiters }, rfl, rfl⟩
  | popDelimiter =>
    unfold runSyscallStep
    rw [hdelimiters]
    cases s.delimiters.pop with
    | ok popped => exact ⟨{ h with delimiters := rfl }, rfl, rfl⟩
    | error e => exact ⟨h, rfl, rfl⟩
  | setNextIp n => exact ⟨(onFrame _).1, (onFrame _).2, rfl⟩
  | setReturnSize n => exact ⟨(onFrame _).1, (onFrame _).2, rfl⟩
  | dump => exact ⟨h, rfl, rfl⟩

/-- A system call. -/
theorem runSyscall_over {u : Underlay (Array Event)} (heap : Heap) (script : List SyscallScript) :
    ∀ {s s' : Stacks} (events events' : Array Event), s.Over u s' →
      u.left.length < s.frames.size →
      (runSyscall script heap s events).memory.Over u (runSyscall script heap s' events').memory ∧
      (runSyscall script heap s' events').defect = (runSyscall script heap s events).defect := by
  induction script with
  | nil => exact fun _ _ h _ => ⟨h, rfl⟩
  | cons action rest ih =>
    intro s s' events events' h hdeep
    obtain ⟨hover, hsize, hdefect⟩ := runSyscallStep_over h hdeep heap events events' action
    unfold runSyscall
    simp only [hdefect]
    cases hfails : (runSyscallStep heap s events action).defect with
    | some e => exact ⟨hover, hdefect⟩
    | none => exact ih _ _ hover (hsize ▸ hdeep)

/-- **A host made of scripts** does not look at more of the lowest frames than a backtrace shows;
what it records may differ. -/
theorem Library.overlooks (library : Library) (syscalls : Fin 8 → Option (List SyscallScript))
    {u : Underlay (Array Event)} (hlines : ∀ h : Heap, u.right.map h.line = u.left.map h.line)
    (hstates : ∀ events events', u.states events events') :
    (library.host syscalls).Overlooks u where
  effects := by
    intro r heap config args s s' events events' h _
    have htrace : heap.backtrace s' = heap.backtrace s := by
      obtain ⟨up, hs, hs'⟩ := h.frames
      show s'.frames.toList.reverse.map heap.line = s.frames.toList.reverse.map heap.line
      rw [List.map_reverse, List.map_reverse, hs, hs', List.map_append, List.map_append, hlines]
    have hsize := h.size_frames
    have hvalues := h.values
    refine ⟨?_, hstates _ _⟩
    dsimp only [host]
    cases library.effects[r.index]? with
    | none => rfl
    | some script => cases script <;> simp [runEffect, htrace, hsize, hvalues]
  opening _ _ _ _ _ _ _ _ _ := ⟨rfl, hstates _ _⟩
  asyncs _ _ _ _ _ _ _ := ⟨rfl, hstates _ _⟩
  syscalls := by
    intro i call hcall heap s s' events events' h hdeep _
    obtain ⟨script, -, rfl⟩ := Option.map_eq_some_iff.mp hcall
    obtain ⟨hover, hdefect⟩ := runSyscall_over heap script events events' h hdeep
    exact ⟨hover, hstates _ _, hdefect⟩

end Scripted

end ScriptVm
