import ScriptVm.Proofs.Tracks

/-!
# The phases of an instruction

An operator that finds no native value, and a read or a write of a table with a
metamethod, call that metamethod and are entered again at a later phase.  What a
phase may ask for is told by the opcode and the number of the phase alone
(`Op.asks`).

Where a frame is inside its instruction is its **post**.  Three things change a post:
the next phase is fetched, a metamethod is called, and an asynchronous call makes a
step.  All other instructions leave the posts of all frames alone; a call puts a new
frame on top, which has not begun, and a return takes the current one away.  A system
call could do anything to the stacks; `Host.Orderly` says that it does not touch the
posts, and `Host.Sparing` that it does not touch the frames of callers at all.

Main statements: `Exec.Attempts.execute` (a phase that may ask for a metamethod tries
the native path, or calls that metamethod and nothing else), `Exec.Level.execute`
(all other phases, but for calls), `Exec.frames_execute` (what a phase does to the
frames) and `Exec.fetches` (what fetching an instruction comes to).
-/

namespace ScriptVm

variable {σ α β : Type}

/-! ### What a phase may ask for -/

/-- The metamethod that an instruction may call in a phase. -/
def Op.asks : Op → Nat → Option String
  | binary o, 0 => some (Overload.ofBinary o).name
  | binary .leq, 1 | binary .geq, 1 => some "__equ"
  | unary .not, 0 => some (Overload.ofUnary .not)
  | unary .neg, 0 => some (Overload.ofUnary .neg)
  | table .read, 0 => some "__ren"
  | table .update, 0 => some "__uen"
  | _, _ => none

/-- The operators and the table instructions. -/
def Op.isOperator : Op → Bool
  | binary _ | unary _ | table _ => true
  | _ => false

/-- A phase that may ask for a metamethod is not the last one: the result is still to be
collected. -/
theorem Op.lt_phaseCount_of_asks {op : Op} {phase : Nat} {name : String}
    (h : op.asks phase = some name) : phase + 1 < op.phaseCount := by
  unfold asks at h
  split at h <;> try cases h
  · next o => cases o <;> decide
  all_goals decide

/-- Only the first two phases of an instruction ask for a metamethod, and for different ones. -/
theorem Op.asks_injective {op : Op} {phase phase' : Nat} {name : String}
    (h : op.asks phase = some name) (h' : op.asks phase' = some name) : phase = phase' := by
  have early {n : Nat} (hn : op.asks n = some name) : n = 0 ∨ n = 1 := by
    unfold asks at hn
    split at hn <;> first | exact .inl rfl | exact .inr rfl | cases hn
  have apart (hless : op.asks 0 = some name) : op.asks 1 ≠ some name := by
    cases op with
    | binary o =>
      cases o with
      | leq | geq =>
        obtain rfl : "__lss" = name := Option.some.inj hless
        decide
      | _ => exact (nomatch ·)
    | unary o => cases o <;> exact (nomatch ·)
    | table o => cases o <;> exact (nomatch ·)
    | _ => exact (nomatch ·)
  rcases early h with rfl | rfl <;> rcases early h' with rfl | rfl
  · rfl
  · exact absurd h' (apart h)
  · exact absurd h (apart h')
  · rfl

/-! ### Posts -/

/-- What a frame runs, and where it is inside its instruction. -/
structure Post where
  activity : Activity
  ip : Nat
  progress : Progress
  deriving DecidableEq, Repr

namespace Post

/-- Nothing has been executed yet. -/
structure Begins (p : Post) : Prop where
  ip : p.ip = 0
  progress : p.progress = .none

/-- The instruction is entered again at a later phase. -/
def again (p : Post) (phase : Nat) : Post :=
  { p with progress := { p.progress with next := phase } }

end Post

/-- A change of the last element that does not show under a map. -/
theorem Stack.map_modifyLast {φ : α → α} {g : α → β} (s : Stack α)
    (h : ∀ a, g (φ a) = g a) : (s.modifyLast φ).toList.map g = s.toList.map g := by
  rcases List.eq_nil_or_concat' s.toList with hnone | ⟨below, a, hs⟩
  · have hitems : s.items = #[] := by simpa [toList] using hnone
    simp [modifyLast, toList, hitems]
  · rw [toList_modifyLast hs, hs, List.map_append, List.map_append, List.map_singleton,
      List.map_singleton, h a]

/-- The post of a frame. -/
def Frame.post (f : Frame) : Post := ⟨f.activity, f.ip, f.progress⟩

/-- The posts of all frames, the lowest one first. -/
def Stacks.posts (s : Stacks) : List Post := s.frames.toList.map Frame.post

/-- The posts of all frames of the running coroutine. -/
def Machine.posts (M : Machine σ) : List Post := M.memory.posts

theorem Frame.Starts.begins {f : Frame} (h : f.Starts) : f.post.Begins := ⟨h.ip, h.progress⟩

/-- The closure that a frame runs, and where its arguments, its local variables, its operands and
its try marks start.  Nothing of this changes while the frame is there. -/
structure Extent where
  closure : Option (Ref .function)
  stackBase : Nat
  argumentCount : Nat
  localsBase : Nat
  privateBase : Nat
  tryBase : Nat
  deriving DecidableEq, Repr

/-- The extent of a frame. -/
def Frame.extent (f : Frame) : Extent where
  closure := f.code?.map Prod.fst
  stackBase := f.stackBase
  argumentCount := f.argumentCount
  localsBase := f.localsBase
  privateBase := f.privateBase
  tryBase := f.tryBase

/-- The extents of all frames, the lowest one first. -/
def Stacks.extents (s : Stacks) : List Extent := s.frames.toList.map Frame.extent

/-- The extents of all frames of the running coroutine. -/
def Machine.extents (M : Machine σ) : List Extent := M.memory.extents

namespace Machine

variable {M N : Machine σ}

theorem length_posts (M : Machine σ) : M.posts.length = M.depth := by
  rw [posts, Stacks.posts, List.length_map]
  exact (Stack.size_eq_length _).symm

theorem posts_of_frames (h : N.memory.frames = M.memory.frames) : N.posts = M.posts := by
  unfold posts Stacks.posts
  rw [h]

/-- The post on top belongs to the frame on top. -/
theorem exists_frame {below : List Post} {p : Post} (h : M.posts = below ++ [p]) :
    ∃ fs f, M.memory.frames.toList = fs ++ [f] ∧ fs.map Frame.post = below ∧ f.post = p := by
  obtain ⟨fs, gs, hframes, hbelow, hp⟩ := List.map_eq_append_iff.mp h
  obtain ⟨f, rfl, hf⟩ := List.map_eq_singleton_iff.mp hp
  exact ⟨fs, f, hframes, hbelow, hf⟩

/-- Neither the call stack nor the host has noticed anything. -/
structure Rests (M N : Machine σ) : Prop where
  frames : N.memory.frames = M.memory.frames
  state : N.state = M.state

theorem Rests.refl (M : Machine σ) : M.Rests M := ⟨rfl, rfl⟩

theorem Rests.trans {L : Machine σ} (h : M.Rests N) (h' : N.Rests L) : M.Rests L :=
  ⟨h'.frames.trans h.frames, h'.state.trans h.state⟩

end Machine

/-- **The system calls do not touch the posts** of the frames: they leave every function at its
instruction, and in its phase. -/
def Host.Orderly (host : Host σ) : Prop :=
  ∀ i call, host.syscall i = some call → ∀ heap (s : Stacks) state,
    (call heap s state).memory.posts = s.posts

/-- **The system calls leave every frame where it lies** on the stacks. -/
def Host.Tidy (host : Host σ) : Prop :=
  ∀ i call, host.syscall i = some call → ∀ heap (s : Stacks) state,
    (call heap s state).memory.extents = s.extents

/-- **The system calls do not touch the frames of callers**, of which there are all but the current
one. -/
def Host.Sparing (host : Host σ) : Prop :=
  ∀ i call, host.syscall i = some call → ∀ heap (s : Stacks) state,
    (call heap s state).memory.frames.toList.dropLast = s.frames.toList.dropLast

/-- The metamethod of two operands is that of one of them. -/
theorem Heap.metamethod_of_binaryMethod {h : Heap} {a b method : Value} {name : String}
    {latterFirst : Bool} (hmethod : h.binaryMethod a b name latterFirst = some method) :
    ∃ v, h.metamethod v name = some method := by
  unfold Heap.binaryMethod at hmethod
  split at hmethod
  next first second _ =>
    rcases Option.or_eq_some_iff.mp hmethod with hfirst | ⟨-, hsecond⟩
    · exact ⟨first, hfirst⟩
    · exact ⟨second, hsecond⟩

namespace Exec

/-! ### Computations that move no frame -/

/-- **A computation that leaves the call stack alone.** -/
def Still (x : Exec σ α) : Prop :=
  ∀ M, (last (x M)).memory.frames = M.memory.frames

namespace Still

theorem bind {x : Exec σ α} {f : α → Exec σ β} (hx : Still x) (hf : ∀ a, Still (f a)) :
    Still (x >>= f) := by
  intro M
  have hfirst := hx M
  rw [bind_apply]
  generalize x M = result at hfirst
  cases result with
  | error e N => exact hfirst
  | ok a N => exact (hf a N).trans hfirst

/-- A computation that only works on the value stack. -/
theorem smooth {x : Exec σ α} (h : ∀ K : Machine.Keeping σ, Upholds K x) : Still x := by
  intro M
  let K : Machine.Keeping σ :=
    { holds := fun N => N.memory.frames = M.memory.frames
      values := fun _ hN => hN }
  exact h K M rfl

theorem popDelimiter : Still (Exec.popDelimiter : Exec σ Nat) := by
  refine (smooth fun _ => .frame).bind fun f =>
    (smooth fun _ => .ownsDelimiter f).bind fun own => ?_
  have hcheck (n : Nat) : Still (Exec.checkDelimiter n : Exec σ Nat) :=
    smooth fun _ => .checkDelimiter n
  cases own with
  | false => exact hcheck _
  | true =>
    refine (smooth fun _ => .get).bind fun m =>
      (smooth fun _ => .ofDefect _).bind fun position => ?_
    exact bind (fun _ => rfl) fun _ => hcheck position

end Still

/-- **A computation that neither the call stack nor the host notices.** -/
def Resting (x : Exec σ α) : Prop :=
  ∀ M : Machine σ, M.Rests (last (x M))

namespace Resting

theorem still {x : Exec σ α} (h : Resting x) : Still x := fun M => (h M).frames

theorem bind {x : Exec σ α} {f : α → Exec σ β} (hx : Resting x) (hf : ∀ a, Resting (f a)) :
    Resting (x >>= f) := by
  intro M
  have hfirst := hx M
  rw [bind_apply]
  generalize x M = result at hfirst
  cases result with
  | error e N => exact hfirst
  | ok a N => exact Machine.Rests.trans hfirst (hf a N)

theorem ite {c : Prop} [Decidable c] {x y : Exec σ α} (hx : Resting x) (hy : Resting y) :
    Resting (if c then x else y) := by
  split
  · exact hx
  · exact hy

/-- A computation that only works on the value stack. -/
theorem smooth {x : Exec σ α} (h : ∀ K : Machine.Keeping σ, Upholds K x) : Resting x := by
  intro M
  let K : Machine.Keeping σ :=
    { holds := M.Rests
      values := fun _ hN => ⟨hN.frames, hN.state⟩ }
  exact h K M (.refl M)

/-- What comes first only works on the value stack. -/
theorem look {x : Exec σ α} {f : α → Exec σ β} (hx : ∀ K : Machine.Keeping σ, Upholds K x)
    (hf : ∀ a, Resting (f a)) : Resting (x >>= f) :=
  (smooth hx).bind hf

theorem onHeap (φ : Heap → Heap) : Resting (modify fun m => m.onHeap φ : Exec σ Unit) :=
  fun _ => ⟨rfl, rfl⟩

/-- A change of the heap, before the operands of a write are removed. -/
theorem written (φ : Heap → Heap) :
    Resting (do
      modify fun m => m.onHeap φ
      Exec.dropWrite : Exec σ Unit) :=
  (onHeap φ).bind fun _ => smooth fun _ => .dropWrite

/-! #### Operators that ask for nothing -/

theorem readEntry (host : Host σ) : Resting (Exec.readEntry host false) := by
  refine look (fun _ => .peek 0) fun key => look (fun _ => .peek 1) fun container => ?_
  refine look (fun _ => .heap) fun h => ?_
  cases container with
  | vector v => exact smooth fun _ => .replaceTop 2 _
  | _ => exact look (fun _ => .ofFault _) fun t => smooth fun _ => .replaceTop 2 _

theorem updateEntry (host : Host σ) : Resting (Exec.updateEntry host false) := by
  refine look (fun _ => .peek 0) fun key => look (fun _ => .peek 1) fun container => ?_
  refine look (fun _ => .peek 2) fun value => look (fun _ => .heap) fun h => ?_
  cases container with
  | vector v =>
    exact look (fun _ => .ofFault _) fun index => ite (smooth fun _ => .fault _) (written _)
  | _ => exact look (fun _ => .ofFault _) fun t => written _

theorem operateTable (host : Host σ) (op : TableOp) (hop : (Op.table op).asks 0 = none) :
    Resting (Exec.operateTable host op) := by
  cases op with
  | setMeta =>
    refine look (fun _ => .heap) fun h => look (fun _ => .pop) fun v => ?_
    refine look (fun _ => .ofFault _) fun t => look (fun _ => .pop) fun w => ?_
    exact look (fun _ => .ofFault _) fun m => onHeap _
  | getMeta =>
    refine look (fun _ => .heap) fun h => look (fun _ => .pop) fun v => ?_
    refine look (fun _ => .ofFault _) fun t => ?_
    split
    · exact smooth fun _ => .push _
    · exact smooth fun _ => .push _
  | read => cases hop
  | readLocal => exact readEntry host
  | update => cases hop
  | updateLocal => exact updateEntry host
  | insert =>
    refine look (fun _ => .pop) fun value => look (fun _ => .pop) fun key => ?_
    refine look (fun _ => .heap) fun h => look (fun _ => .peek 0) fun v => ?_
    exact look (fun _ => .ofFault _) fun t => onHeap _
  | push =>
    refine look (fun _ => .heap) fun h => look (fun _ => .pop) fun w => ?_
    refine look (fun _ => .ofFault _) fun v => look (fun _ => .pop) fun value => ?_
    exact onHeap _
  | pop =>
    refine look (fun _ => .heap) fun h => look (fun _ => .pop) fun w => ?_
    refine look (fun _ => .ofFault _) fun v => ?_
    split
    · exact (onHeap _).bind fun _ => smooth fun _ => .push _
    · exact smooth fun _ => .fault _

/-- A binary operator that is past its calls collects a result. -/
theorem binaryOperator (host : Host σ) (op : BinaryOp) (phase : Nat)
    (hop : (Op.binary op).asks phase = none) : Resting (Exec.binaryOperator host op phase) := by
  have hjudge (φ : Value → Bool) : Resting (do
      let result ← Exec.pop
      Exec.push (.bool (φ result)) : Exec σ Unit) :=
    look (fun _ => .pop) fun result => smooth fun _ => .push _
  have hkeep : Resting (pure () : Exec σ Unit) := smooth fun _ => .pure ()
  match phase, hop with
  | 0, hop => cases hop
  | 1, hop =>
    cases op with
    | leq => cases hop
    | geq => cases hop
    | lss | gtr | equ => exact hjudge Value.truthy
    | neq => exact hjudge (!·.truthy)
    | _ => exact hkeep
  | n + 2, hop =>
    cases op with
    | leq | geq | lss | gtr | equ => exact hjudge Value.truthy
    | neq => exact hjudge (!·.truthy)
    | _ => exact hkeep

theorem unaryOperator (host : Host σ) (op : UnaryOp) (phase : Nat)
    (hop : (Op.unary op).asks phase = none) : Resting (Exec.unaryOperator host op phase) := by
  match phase, hop with
  | n + 1, _ => exact smooth fun _ => .pure ()
  | 0, hop =>
    -- without a metamethod there is always a native value
    cases op with
    | not => cases hop
    | neg => cases hop
    | typeof => exact look (fun _ => .peek 0) fun x => smooth fun _ => .replaceTop 1 _
    | isNil => exact look (fun _ => .peek 0) fun x => smooth fun _ => .replaceTop 1 _

theorem tableOperator (host : Host σ) (op : TableOp) (phase : Nat)
    (hop : (Op.table op).asks phase = none) : Resting (Exec.tableOperator host op phase) := by
  match phase, hop with
  | n + 1, _ => exact smooth fun _ => .pure ()
  | 0, hop => exact operateTable host op hop

/-- **An operator** that asks for nothing makes no call. -/
theorem execute (host : Host σ) (r : Ref .function) (context : Ref .context) {op : Op}
    (imm : Int64) {phase : Nat} (hasks : op.asks phase = none) (hop : op.isOperator) :
    Resting (Exec.execute host r context op imm phase) := by
  have goes {x : Exec σ Unit} (hx : Resting x) :
      Resting (x >>= fun _ => Pure.pure none : Exec σ (Option Exit)) :=
    hx.bind fun _ => smooth fun _ => .pure none
  cases op with
  | binary o => exact goes (binaryOperator host o phase hasks)
  | table o => exact goes (tableOperator host o phase hasks)
  | unary o => exact goes (unaryOperator host o phase hasks)
  | _ => cases hop

end Resting

/-- **A computation that leaves every frame where it is in its instruction** and where it lies on
the stacks, and does not touch any frame but the current one. -/
structure Level (x : Exec σ α) : Prop where
  callers : ∀ M, (last (x M)).memory.frames.toList.dropLast = M.memory.frames.toList.dropLast
  posts : ∀ M, (last (x M)).posts = M.posts
  extents : ∀ M, (last (x M)).extents = M.extents

namespace Level

theorem bind {x : Exec σ α} {f : α → Exec σ β} (hx : Level x) (hf : ∀ a, Level (f a)) :
    Level (x >>= f) := by
  have hthen {γ : Type} (view : Machine σ → γ) (hx : ∀ M, view (last (x M)) = view M)
      (hf : ∀ a M, view (last (f a M)) = view M) (M : Machine σ) :
      view (last ((x >>= f) M)) = view M := by
    have hfirst := hx M
    rw [bind_apply]
    generalize x M = result at hfirst
    cases result with
    | error e N => exact hfirst
    | ok a N => exact (hf a N).trans hfirst
  exact ⟨hthen (·.memory.frames.toList.dropLast) hx.callers fun a => (hf a).callers,
    hthen Machine.posts hx.posts fun a => (hf a).posts,
    hthen Machine.extents hx.extents fun a => (hf a).extents⟩

theorem ite {c : Prop} [Decidable c] {x y : Exec σ α} (hx : Level x) (hy : Level y) :
    Level (if c then x else y) := by
  split
  · exact hx
  · exact hy

theorem still {x : Exec σ α} (h : Still x) : Level x where
  callers M := congrArg (fun s => s.toList.dropLast) (h M)
  posts M := Machine.posts_of_frames (h M)
  extents M := congrArg (fun s => s.toList.map Frame.extent) (h M)

/-- A computation that only works on the value stack. -/
theorem smooth {x : Exec σ α} (h : ∀ K : Machine.Keeping σ, Upholds K x) : Level x :=
  still (.smooth h)

theorem pure (a : α) : Level (Pure.pure a : Exec σ α) := smooth fun _ => .pure a

theorem get : Level (MonadState.get : Exec σ (Machine σ)) := smooth fun _ => .get

theorem heap : Level (Exec.heap : Exec σ Heap) := smooth fun _ => .heap

theorem fault (f : Fault) : Level (Exec.fault f : Exec σ α) := smooth fun _ => .fault f

theorem ofFault (x : Except Fault α) : Level (Exec.ofFault x : Exec σ α) :=
  smooth fun _ => .ofFault x

theorem ofDefect (x : Except Defect α) : Level (Exec.ofDefect x : Exec σ α) :=
  smooth fun _ => .ofDefect x

/-- A change of the machine that leaves its call stack alone. -/
theorem change {φ : Machine σ → Machine σ}
    (h : ∀ M, (φ M).memory.frames = M.memory.frames) : Level (modify φ : Exec σ Unit) :=
  still h

theorem onHeap (φ : Heap → Heap) : Level (modify fun m => m.onHeap φ : Exec σ Unit) :=
  change fun _ => rfl

theorem allocate {k : Kind} (make : Heap → Ref k × Heap) :
    Level (Exec.allocate make : Exec σ (Ref k)) :=
  still fun _ => rfl

/-- A change of the current frame that leaves its post and its extent alone. -/
theorem onTop {φ : Frame → Frame} (hpost : ∀ f, (φ f).post = f.post)
    (hextent : ∀ f, (φ f).extent = f.extent) :
    Level (modify fun m => m.onFrames fun frames => frames.modifyLast φ : Exec σ Unit) where
  callers M := by
    rcases List.eq_nil_or_concat' M.memory.frames.toList with hnone | ⟨below, f, hframes⟩
    · have hitems : M.memory.frames.items = #[] := by simpa [Stack.toList] using hnone
      simp [last, Machine.onFrames, Stack.modifyLast, Stack.toList, hitems]
    · show (M.memory.frames.modifyLast φ).toList.dropLast = _
      rw [Stack.toList_modifyLast hframes, hframes, List.dropLast_concat, List.dropLast_concat]
  posts M := Stack.map_modifyLast M.memory.frames hpost
  extents M := Stack.map_modifyLast M.memory.frames hextent

theorem frame : Level (Exec.frame : Exec σ Frame) := smooth fun _ => .frame

theorem push (v : Value) : Level (Exec.push v : Exec σ Unit) := smooth fun _ => .push v

theorem pushAll (vs : List Value) : Level (Exec.pushAll vs : Exec σ Unit) :=
  smooth fun _ => .pushAll vs

theorem pop : Level (Exec.pop : Exec σ Value) := smooth fun _ => .pop

theorem peek (n : Nat) : Level (Exec.peek n : Exec σ Value) := smooth fun _ => .peek n

theorem slot (i : Nat) : Level (Exec.slot i : Exec σ Value) := smooth fun _ => .slot i

theorem takeFrom (n : Nat) : Level (Exec.takeFrom n : Exec σ (List Value)) :=
  smooth fun _ => .takeFrom n

theorem shape (sizes : Sizes) (base : Nat) (size : Option Nat) :
    Level (Exec.shape sizes base size : Exec σ Unit) :=
  smooth fun _ => .shape sizes base size

theorem peekDelimiter : Level (Exec.peekDelimiter : Exec σ Nat) := smooth fun _ => .peekDelimiter

theorem pushDelimiter : Level (Exec.pushDelimiter : Exec σ Unit) := change fun _ => rfl

theorem popDelimiter : Level (Exec.popDelimiter : Exec σ Nat) := still .popDelimiter

/-! #### Instructions that ask for nothing -/

theorem readVariable (scope : Ref .context) : Level (Exec.readVariable scope : Exec σ Unit) := by
  refine heap.bind fun h => pop.bind fun v => (ofFault _).bind fun name => ?_
  have hread : Level (modifyGet fun m : Machine σ =>
      ((m.heap.readVariable scope name).1, { m with heap := (m.heap.readVariable scope name).2 })
      : Exec σ Value) :=
    still fun _ => rfl
  exact hread.bind push

theorem writeVariable (scope : Ref .context) :
    Level (Exec.writeVariable scope : Exec σ Unit) := by
  refine heap.bind fun h => pop.bind fun v => (ofFault _).bind fun name => ?_
  exact pop.bind fun value => onHeap _

theorem scopeOperator (context : Ref .context) (op : ScopeOp) :
    Level (Exec.scopeOperator context op : Exec σ Unit) := by
  cases op with
  | read => exact readVariable context
  | write => exact writeVariable context
  | readGlobal => exact heap.bind fun h => readVariable (h.root context)
  | writeGlobal => exact heap.bind fun h => writeVariable (h.root context)

theorem loadFunction (r : Ref .function) (imm : Int64) :
    Level (Exec.loadFunction r imm : Exec σ Unit) := by
  refine heap.bind fun h => ite (fault _) ((ofDefect _).bind fun made => ?_)
  have hset : Level (Exec.setHeap made.2 : Exec σ Unit) := change fun _ => rfl
  exact hset.bind fun _ => push _

theorem loadString (r : Ref .function) (imm : Int64) :
    Level (Exec.loadString r imm : Exec σ Unit) := by
  refine heap.bind fun h => ?_
  dsimp only
  split
  · exact push _
  · exact fault _

theorem loadConstant (host : Host σ) (c : Constant) (imm : Int64) :
    Level (Exec.loadConstant host c imm) := by
  cases c with
  | newTable => exact (allocate _).bind fun t => push _
  | newVector =>
    exact get.bind fun m => (ofDefect _).bind fun _ => (allocate _).bind fun v => push _
  | argumentCount => exact frame.bind fun f => push _
  | _ => exact push _

theorem localSlot (imm : Int64) : Level (Exec.localSlot imm : Exec σ Nat) :=
  frame.bind fun _ => ite (fault _) (pure _)

theorem loadArgument (imm : Int64) : Level (Exec.loadArgument imm : Exec σ Unit) :=
  frame.bind fun _ => ite ((slot _).bind push) (push .nil)

theorem jumpTarget (r : Ref .function) (imm : Int64) :
    Level (Exec.jumpTarget r imm : Exec σ Nat) :=
  heap.bind fun _ => frame.bind fun _ => ite (fault _) (pure _)

/-- A branch goes on elsewhere, but is itself the instruction that is executed. -/
theorem branch (r : Ref .function) (c : Condition) (imm : Int64) :
    Level (Exec.branch r c imm : Exec σ Unit) := by
  have hcondition : Level (Exec.condition c : Exec σ Bool) := by
    cases c with
    | always => exact pure true
    | _ => exact pop.bind fun v => pure _
  refine hcondition.bind fun taken => ite ((jumpTarget r imm).bind fun target => ?_) (pure ())
  exact frame.bind fun _ => onTop (fun _ => rfl) fun _ => rfl

theorem tryOperator (r : Ref .function) (op : TryOp) (imm : Int64) :
    Level (Exec.tryOperator r op imm : Exec σ Unit) := by
  cases op with
  | enter w => exact (jumpTarget r imm).bind fun target => change fun _ => rfl
  | leave => exact frame.bind fun f => get.bind fun m => ite (change fun _ => rfl) (pure ())
  | throw => exact pop.bind fun v => heap.bind fun h => fault _

section

variable (host : Host σ)

/-- Every instruction on the stack but a call and a return. -/
theorem control (context : Ref .context) (op : ControlOp) (hcall : op ≠ .call)
    (hret : op ≠ .ret) : Level (Exec.control host context op) := by
  cases op with
  | dup => exact (peek 0).bind fun v => (push v).bind fun _ => pure none
  | pop => exact pop.bind fun _ => pure none
  | makeCoroutine =>
    refine heap.bind fun h => pop.bind fun v => (ofFault _).bind fun entry => get.bind fun m => ?_
    exact (ofDefect _).bind fun made => (allocate _).bind fun r => (push _).bind fun _ => pure none
  | yield => exact peekDelimiter.bind fun start => (takeFrom start).bind fun _ => pure _
  | resume =>
    refine heap.bind fun h => pop.bind fun v => (ofFault _).bind fun r => ?_
    exact peekDelimiter.bind fun start => (takeFrom start).bind fun _ => pure _
  | delimit => exact pushDelimiter.bind fun _ => pure none
  | call => exact absurd rfl hcall
  | ret => exact absurd rfl hret
  | bind =>
    refine heap.bind fun h => (peek 0).bind fun v => (ofFault _).bind fun r => ?_
    exact (onHeap _).bind fun _ => pure none
  | undelimit => exact popDelimiter.bind fun _ => pure none
  | dupRun =>
    refine peekDelimiter.bind fun start => get.bind fun m => (ofDefect _).bind fun run => ?_
    exact pushDelimiter.bind fun _ => (pushAll run).bind fun _ => pure none
  | pack =>
    refine popDelimiter.bind fun start => (takeFrom start).bind fun items => ?_
    exact (allocate _).bind fun v => (push _).bind fun _ => pure none
  | unpack =>
    refine heap.bind fun h => pop.bind fun v => (ofFault _).bind fun r => ?_
    exact heap.bind fun h => pushDelimiter.bind fun _ => (pushAll _).bind fun _ => pure none
  | nop => exact pure none

/-- **A phase that asks for nothing**, and is no call, no return and no system call. -/
theorem execute (r : Ref .function) (context : Ref .context) (op : Op) (imm : Int64) (phase : Nat)
    (hasks : op.asks phase = none) (hcall : op ≠ .control .call) (hret : op ≠ .control .ret)
    (hsyscall : ∀ i, op ≠ .syscall i) : Level (Exec.execute host r context op imm phase) := by
  have goes {x : Exec σ Unit} (hx : Level x) :
      Level (x >>= fun _ => Pure.pure none : Exec σ (Option Exit)) := hx.bind fun _ => pure none
  cases op with
  | binary o => exact still (Resting.execute host r context imm hasks rfl).still
  | table o => exact still (Resting.execute host r context imm hasks rfl).still
  | unary o => exact still (Resting.execute host r context imm hasks rfl).still
  | scope o => exact goes (scopeOperator context o)
  | loadFunction _ => exact goes (loadFunction r imm)
  | loadString _ => exact goes (loadString r imm)
  | loadInt w => cases w <;> exact goes (push _)
  | loadConstant c => exact goes (loadConstant host c imm)
  | loadLocal _ => exact goes ((localSlot imm).bind fun i => (slot i).bind push)
  | storeLocal _ =>
    exact goes ((localSlot imm).bind fun i => pop.bind fun v => smooth fun _ => .setSlot i v)
  | loadArgument _ => exact goes (loadArgument imm)
  | branch c _ => exact goes (branch r c imm)
  | guarded o => exact goes (tryOperator r o imm)
  | shape _ => exact goes (popDelimiter.bind fun start => shape _ start _)
  | syscall i => exact absurd rfl (hsyscall i)
  | control o =>
    exact control host context o (fun h => hcall (congrArg _ h)) fun h => hret (congrArg _ h)

end

end Level

theorem Still.runEffect (host : Host σ) (r : Ref .effectExternal) (args : List Value) :
    Still (Exec.runEffect host r args) :=
  fun M => (Still.smooth fun _ => .ofFault
    (host.callEffect r ⟨M.heap, M.memory, M.config⟩ args M.state).1)
    { M with state := (host.callEffect r ⟨M.heap, M.memory, M.config⟩ args M.state).2 }

theorem Still.openCall (host : Host σ) (r : Ref .asyncExternal) : Still (Exec.openCall host r) :=
  fun _ => rfl

theorem Still.askStep (host : Host σ) (r : Ref .asyncExternal) (object : Nat)
    (history : List (List Value)) : Still (Exec.askStep host r object history) :=
  fun M => (Still.smooth fun _ => .ofFault (host.stepAsync r object M.heap history M.state).1)
    { M with state := (host.stepAsync r object M.heap history M.state).2 }

end Exec

/-- **A frame that has just come on top** of the call stack: it has not begun, and its arguments and
its local variables follow one another. -/
structure Frame.Opens (sizes : Sizes) (M : Machine σ) (f : Frame) : Prop extends f.Starts,
    M.Tops f where
  arguments : f.stackBase + f.argumentCount = f.localsBase
  locals : ∀ r context, f.activity = .bytecode r context →
    sizes.add f.localsBase (M.heap.prototype r).locals = .ok f.privateBase

namespace Exec

/-- **How a computation ends that changes no frame**, but may put one on top, with arguments from a
position that fulfils `start`; if it stops with a fault, it has put none. -/
def Raised (sizes : Sizes) (start : Nat → Prop) (M : Machine σ)
    (result : EStateM.Result Stop (Machine σ) α) : Prop :=
  ∃ new : Option Frame, (∀ f ∈ new, f.Opens sizes (last result) ∧ start f.stackBase) ∧
    (last result).memory.frames.toList = M.memory.frames.toList ++ new.toList ∧
    ∀ f N, result = .error (.fault f) N → new = none

/-- The call stack is as it was. -/
theorem Raised.still {sizes : Sizes} {start : Nat → Prop} {M : Machine σ}
    {result : EStateM.Result Stop (Machine σ) α}
    (h : (last result).memory.frames = M.memory.frames) : Raised sizes start M result :=
  ⟨none, fun _ hf => absurd hf (Option.not_mem_none _),
    by rw [h, Option.toList_none, List.append_nil], fun _ _ _ => rfl⟩

/-- **A computation that changes no frame**, but may put one on top. -/
def Raises (sizes : Sizes) (start : Nat → Prop) (x : Exec σ α) : Prop :=
  ∀ M, Raised sizes start M (x M)

namespace Raises

section

variable {sizes : Sizes} {start : Nat → Prop}

theorem still {x : Exec σ α} (h : Still x) : Raises sizes start x :=
  fun M => .still (h M)

/-- A computation that only works on the value stack. -/
theorem smooth {x : Exec σ α} (h : ∀ K : Machine.Keeping σ, Upholds K x) :
    Raises sizes start x :=
  still (.smooth h)

theorem mono {start' : Nat → Prop} {x : Exec σ α} (hx : Raises sizes start x)
    (h : ∀ base, start base → start' base) : Raises sizes start' x := by
  intro M
  obtain ⟨new, opens, hframes, hfaults⟩ := hx M
  exact ⟨new, fun f hf => ⟨(opens f hf).1, h _ (opens f hf).2⟩, hframes, hfaults⟩

/-- What leaves the frames alone may come first. -/
theorem after {x : Exec σ α} {f : α → Exec σ β} (hx : Still x)
    (hf : ∀ a, Raises sizes start (f a)) : Raises sizes start (x >>= f) := by
  intro M
  have hfirst := hx M
  rw [bind_apply]
  generalize x M = result at hfirst
  cases result with
  | error e N => exact .still hfirst
  | ok a N =>
    obtain ⟨new, opens, hframes, hfaults⟩ := hf a N
    exact ⟨new, opens, hframes.trans (congrArg (fun s => s.toList ++ _) hfirst), hfaults⟩

/-- What comes first only works on the value stack. -/
theorem look {x : Exec σ α} {f : α → Exec σ β} (hx : ∀ K : Machine.Keeping σ, Upholds K x)
    (hf : ∀ a, Raises sizes start (f a)) : Raises sizes start (x >>= f) :=
  after (.smooth hx) hf

/-- An answer is given. -/
theorem answer {x : Exec σ α} (hx : Raises sizes start x) (b : β) :
    Raises sizes start (x >>= fun _ => pure b) := by
  intro M
  obtain ⟨new, opens, hframes, hfaults⟩ := hx M
  have hlast : last ((x >>= fun _ => pure b) M) = last (x M) := by
    rw [bind_apply]
    cases x M <;> rfl
  refine ⟨new, hlast.symm ▸ opens, hlast.symm ▸ hframes, ?_⟩
  intro f N h
  rw [bind_apply] at h
  generalize x M = result at h hfaults
  cases result with
  | error e L =>
    cases h
    exact hfaults f N rfl
  | ok a L => cases h

theorem ite {c : Prop} [Decidable c] {x y : Exec σ α} (hx : Raises sizes start x)
    (hy : Raises sizes start y) : Raises sizes start (if c then x else y) := by
  split
  · exact hx
  · exact hy

end

theorem enterAsync (host : Host σ) (r : Ref .asyncExternal) (base : Nat)
    (returnSize : Option Nat) :
    Raises host.sizes (· = base) (Exec.enterAsync host r base returnSize) := by
  refine after (.openCall host r) fun object M => ?_
  by_cases hbase : base ≤ M.memory.values.size
  · have hless : (heightLess base : Exec σ Nat) M = .ok (M.memory.values.size - base) M := by
      simp [heightLess, bind_apply, hbase]
    rw [bind_of_ok hless]
    refine ⟨some _, ?_, Stack.toList_push _ _, fun f N h => by cases h⟩
    rintro f ⟨⟩
    exact ⟨⟨⟨rfl, rfl, rfl⟩, ⟨rfl, rfl⟩, Nat.add_sub_cancel' hbase,
      fun _ _ h => by cases h⟩, rfl⟩
  · have hless : (heightLess base : Exec σ Nat) M = .error (.defect .outOfBounds) M := by
      simp [heightLess, bind_apply, hbase]
    rw [bind_of_error hless]
    exact .still rfl

variable (host : Host σ)

theorem enter (r : Ref .function) (base : Nat) (returnSize : Option Nat)
    (context : Option (Ref .context)) :
    Raises host.sizes (· = base) (Exec.enter host r base returnSize context) := by
  intro M
  by_cases hbase : base ≤ M.memory.values.size
  · cases hroom : host.sizes.add M.memory.values.size (M.heap.prototype r).locals with
    | error d =>
      rw [enter_of_limit returnSize context hbase hroom]
      exact .still rfl
    | ok room =>
      rw [enter_of_room returnSize context hbase hroom]
      refine ⟨some _, ?_, Stack.toList_push _ _, fun f N h => by cases h⟩
      rintro f ⟨⟩
      refine ⟨⟨⟨rfl, rfl, rfl⟩, ⟨rfl, rfl⟩, Nat.add_sub_cancel' hbase, ?_⟩, rfl⟩
      rintro r context' ⟨⟩
      rw [← hroom, last, Machine.entered, Heap.declareVariables_eq]
      cases context <;> rfl
  · rw [enter_of_high returnSize context hbase]
    exact .still rfl

/-- **Every call.** -/
theorem invoke (callee : Value) (base : Nat) (returnSize : Option Nat) :
    Raises host.sizes (· = base) (Exec.invoke host callee base returnSize) := by
  have hresults (results : List Value) : Still (do
      Exec.pushAll results
      Exec.shape host.sizes base returnSize : Exec σ Unit) :=
    .smooth fun _ => (Upholds.pushAll results).bind fun _ => .shape _ base returnSize
  cases callee with
  | function r => exact enter host r base returnSize none
  | asyncFn r => exact enterAsync host r base returnSize
  | pureFn r =>
    refine look (fun _ => .takeFrom base) fun args => look (fun _ => .heap) fun h => ?_
    exact look (fun _ => .ofFault _) fun results => still (hresults results)
  | effectFn r =>
    refine look (fun _ => .takeFrom base) fun args => ?_
    exact after (.runEffect host r args) fun results => still (hresults results)
  | _ => exact look (fun _ => .heap) fun h => smooth fun _ => .fault _

/-- The instruction that calls. -/
theorem call (context : Ref .context) :
    Raises host.sizes (fun _ => True) (Exec.control host context .call) := by
  refine look (fun _ => .pop) fun callee => look (fun _ => .peekDelimiter) fun base => ?_
  exact ((invoke host callee base none).answer none).mono fun _ _ => trivial

/-- The opening of a coroutine. -/
theorem opening (state : Lifecycle) (entry : Value) (context : Option (Ref .context))
    (args : List Value) :
    Raises host.sizes (fun _ => True) (Coroutine.opening host state entry context args) := by
  refine ite (look (fun _ => .height) fun base => look (fun _ => .pushAll args) fun _ => ?_)
    (smooth fun _ => .pushAll args)
  split
  · exact (enter host _ base none _).mono fun _ _ => trivial
  · exact (invoke host _ base none).mono fun _ _ => trivial

end Raises

/-- The frames that have come on top have not begun. -/
theorem Raises.posts {sizes : Sizes} {start : Nat → Prop} {x : Exec σ α}
    (h : Raises sizes start x) (M : Machine σ) : ∃ new, (∀ p ∈ new, Post.Begins p) ∧
    (last (x M)).posts = M.posts ++ new := by
  obtain ⟨new, opens, hframes, -⟩ := h M
  refine ⟨new.toList.map Frame.post, List.forall_mem_map.mpr fun f hf => ?_, ?_⟩
  · exact (opens f (Option.mem_toList.mp hf)).1.begins
  · rw [Machine.posts, Stacks.posts, hframes, List.map_append]
    rfl

/-! ### Instructions that may ask for a metamethod -/

/-- **How an attempt may end** that began on the machine `M`: on the native path, without a word to
anybody; or with a call of a metamethod of that name, and the instruction is entered again at the
phase `next`. -/
inductive Tries (host : Host σ) (name : String) (next : Nat) (M : Machine σ) :
    EStateM.Result Stop (Machine σ) Unit → Prop
  | native {result : EStateM.Result Stop (Machine σ) Unit} (rests : M.Rests (last result)) :
      Tries host name next M result
  | calls {K : Machine σ} {v method : Value} {argc returns : Nat} (rests : M.Rests K)
      (heap : K.heap = M.heap) (found : M.heap.metamethod v name = some method) :
      Tries host name next M (callMethod host method argc returns next K)

/-- A computation that is an attempt on machines with the heap `h`. -/
def Attempts (host : Host σ) (h : Heap) (name : String) (next : Nat) (x : Exec σ Unit) : Prop :=
  ∀ M, M.heap = h → Tries host name next M (x M)

namespace Attempts

variable {host : Host σ} {h : Heap} {name : String} {next : Nat}

/-- What comes before an attempt only works on the value stack. -/
theorem bind {x : Exec σ α} {f : α → Exec σ Unit}
    (hx : ∀ K : Machine.Keeping σ, Upholds K x)
    (hf : ∀ a, Attempts host h name next (f a)) : Attempts host h name next (x >>= f) := by
  intro M hM
  let K : Machine.Keeping σ :=
    { holds := fun N => M.Rests N ∧ N.heap = M.heap
      values := fun _ hN => ⟨⟨hN.1.frames, hN.1.state⟩, hN.2⟩ }
  have hkept := hx K M ⟨.refl M, rfl⟩
  rw [bind_apply]
  generalize x M = result at hkept
  cases result with
  | error e N => exact .native hkept.1
  | ok a N =>
    obtain ⟨hrests, hheap⟩ : M.Rests N ∧ N.heap = M.heap := hkept
    have htries := hf a N (hheap.trans hM)
    dsimp only
    generalize f a N = result at htries
    cases htries with
    | native rests => exact .native (hrests.trans rests)
    | calls rests heap found =>
      exact .calls (hrests.trans rests) (heap.trans hheap) (hheap ▸ found)

theorem heap {f : Heap → Exec σ Unit} (hf : Attempts host h name next (f h)) :
    Attempts host h name next (Exec.heap >>= f) := by
  intro M hM
  rw [bind_of_ok (heap_apply M), hM]
  exact hf M hM

theorem ite {c : Prop} [Decidable c] {x y : Exec σ Unit} (hx : Attempts host h name next x)
    (hy : Attempts host h name next y) : Attempts host h name next (if c then x else y) := by
  split
  · exact hx
  · exact hy

theorem native {x : Exec σ Unit} (hx : Resting x) : Attempts host h name next x :=
  fun M _ => .native (hx M)

/-- An attempt that only works on the value stack. -/
theorem smooth {x : Exec σ Unit} (hx : ∀ K : Machine.Keeping σ, Upholds K x) :
    Attempts host h name next x :=
  native (.smooth hx)

theorem fault (f : Fault) : Attempts host h name next (Exec.fault f) :=
  smooth fun _ => .fault f

theorem callMethod {v method : Value} (argc returns : Nat)
    (found : h.metamethod v name = some method) :
    Attempts host h name next (Exec.callMethod host method argc returns next) :=
  fun M hM => .calls (.refl M) rfl (hM ▸ found)

variable (host h)

theorem operateBinary (op : BinaryOp) :
    Attempts host h (Overload.ofBinary op).name 1 (Exec.operateBinary host op) := by
  refine bind (fun _ => .peek 0) fun y => bind (fun _ => .peek 1) fun x => heap ?_
  refine bind (fun _ => .ofFault _) fun value => ?_
  cases value with
  | some value => exact smooth fun _ => .replaceTop 2 value
  | none =>
    dsimp only
    split
    · next method hmethod =>
      obtain ⟨v, found⟩ := Heap.metamethod_of_binaryMethod hmethod
      have hcall : Attempts host h (Overload.ofBinary op).name 1
          (Exec.callMethod host method 2 1 1) := callMethod 2 1 found
      have hcopies (a b : Value) : Attempts host h (Overload.ofBinary op).name 1
          (if op = .leq ∨ op = .geq then do
            Exec.push a
            Exec.push b
            Exec.callMethod host method 2 1 1
          else Exec.callMethod host method 2 1 1) :=
        ite (bind (fun _ => .push a) fun _ => bind (fun _ => .push b) fun _ => hcall) hcall
      unfold Exec.callOverload
      exact ite (bind (fun _ => .overwriteTop _) fun _ => hcopies _ _) (hcopies _ _)
    · split
      · exact smooth fun _ => .replaceTop 2 _
      · exact smooth fun _ => .replaceTop 2 _
      · exact fault _

theorem orderEqual (op : BinaryOp) : Attempts host h "__equ" 2 (Exec.orderEqual host op) := by
  refine bind (fun _ => .pop) fun less => ite (smooth fun _ => .replaceTop 2 _) ?_
  refine bind (fun _ => .peek 0) fun b => bind (fun _ => .peek 1) fun a => heap ?_
  split
  · next method hmethod =>
    obtain ⟨v, found⟩ := Heap.metamethod_of_binaryMethod hmethod
    exact callMethod 2 1 found
  · exact fault _

theorem unaryOperator (op : UnaryOp) :
    Attempts host h (Overload.ofUnary op) 1 (Exec.unaryOperator host op 0) := by
  refine bind (fun _ => .peek 0) fun x => ?_
  split
  · exact smooth fun _ => .replaceTop 1 _
  · refine heap ?_
    split
    · next method found => exact callMethod 1 1 found
    · exact fault _

theorem readEntry : Attempts host h "__ren" 1 (Exec.readEntry host true) := by
  refine bind (fun _ => .peek 0) fun key => bind (fun _ => .peek 1) fun container => heap ?_
  cases container with
  | vector v => exact smooth fun _ => .replaceTop 2 _
  | _ =>
    refine bind (fun _ => .ofFault _) fun t => ?_
    split
    · next method hmethod =>
      have found : h.metamethod (.table t) "__ren" = some method := hmethod
      exact callMethod 2 1 found
    · exact smooth fun _ => .replaceTop 2 _

theorem updateEntry : Attempts host h "__uen" 1 (Exec.updateEntry host true) := by
  refine bind (fun _ => .peek 0) fun key => bind (fun _ => .peek 1) fun container => ?_
  refine bind (fun _ => .peek 2) fun value => heap ?_
  cases container with
  | vector v => exact bind (fun _ => .ofFault _) fun index => ite (fault _) (native (.written _))
  | _ =>
    refine bind (fun _ => .ofFault _) fun t => ?_
    split
    · next method hmethod =>
      have found : h.metamethod (.table t) "__uen" = some method := hmethod
      exact bind (fun _ => .overwriteTop _) fun _ => callMethod 3 0 found
    · exact native (.written _)

/-- **A phase that may ask for a metamethod** does nothing but try. -/
theorem execute (r : Ref .function) (context : Ref .context) {op : Op} (imm : Int64) {phase : Nat}
    {name : String} (hasks : op.asks phase = some name) :
    ∃ x : Exec σ Unit, Exec.execute host r context op imm phase = (do x; return none) ∧
      ∀ h, Attempts host h name (phase + 1) x := by
  unfold Op.asks at hasks
  split at hasks <;> cases hasks
  · next o =>
    refine ⟨_, rfl, fun h => ?_⟩
    unfold Exec.binaryOperator
    exact ite (operateBinary host h o) (operateBinary host h o)
  · exact ⟨_, rfl, fun h => orderEqual host h .leq⟩
  · exact ⟨_, rfl, fun h => orderEqual host h .geq⟩
  · exact ⟨_, rfl, fun h => unaryOperator host h .not⟩
  · exact ⟨_, rfl, fun h => unaryOperator host h .neg⟩
  · exact ⟨_, rfl, fun h => readEntry host h⟩
  · exact ⟨_, rfl, fun h => updateEntry host h⟩

end Attempts

/-! ### What a phase does to the frames -/

end Exec

/-- The same try marks, as an invariant of instructions. -/
def Machine.sameMarks (host : Host σ) (marks : Stack TryMark) :
    Machine.InstructionKeeping host where
  holds N := N.memory.marks = marks
  values _ hN := hN
  frame _ hN := hN
  enter _ _ _ _ _ hN := hN
  enterAsync _ _ hN := hN
  effect _ _ hN := hN
  opening _ hN := hN
  async _ _ _ hN := hN
  scope _ := True
  root _ _ := trivial
  delimiters _ hN := hN
  table hN := hN
  vector _ hN := hN
  function _ hN := hN
  coroutine _ _ hN := hN
  metatable _ _ hN := hN
  items _ _ hN := hN
  bind _ _ hN := hN
  read _ _ hN := hN
  write _ _ _ hN := hN

namespace Exec

theorem posts_of_toList {M : Machine σ} {fs : List Frame} {g : Frame}
    (hM : M.memory.frames.toList = fs ++ [g]) : M.posts = fs.map Frame.post ++ [g.post] := by
  rw [Machine.posts, Stacks.posts, hM, List.map_append]
  rfl

theorem extents_of_toList {M : Machine σ} {fs : List Frame} {g : Frame}
    (hM : M.memory.frames.toList = fs ++ [g]) : M.extents = fs.map Frame.extent ++ [g.extent] := by
  rw [Machine.extents, Stacks.extents, hM, List.map_append]
  rfl

section

variable {M : Machine σ} {fs : List Frame} {f : Frame}

/-- A call of a metamethod has left a note in the frame that makes it. -/
theorem frames_callMethod (host : Host σ) (hframes : M.memory.frames.toList = fs ++ [f])
    (method : Value) (argc returns next : Nat) :
    ∃ new : Option Frame,
      (∀ g ∈ new, g.Opens host.sizes (last (callMethod host method argc returns next M))) ∧
      (last (callMethod host method argc returns next M)).memory.frames.toList
        = fs ++ [{ f with progress := { f.progress with next } }] ++ new.toList ∧
      ∀ e N, callMethod host method argc returns next M = .error (.fault e) N → new = none := by
  obtain ⟨N, hcontinue, -, hN⟩ :=
    modifyFrame_track hframes fun f => { f with progress := { f.progress with next } }
  have hcall : Raises host.sizes (fun _ => True) (do
      let base ← heightLess argc
      invoke host method base (some returns) : Exec σ Unit) :=
    .look (fun _ => .heightLess argc) fun base =>
      (Raises.invoke host method base (some returns)).mono fun _ _ => trivial
  obtain ⟨new, opens, hlast, hfaults⟩ := hcall N
  rw [callMethod, continueAt, bind_of_ok hcontinue]
  exact ⟨new, fun g hg => (opens g hg).1, hlast.trans (congrArg (· ++ new.toList) hN), hfaults⟩

/-- A return takes away the try marks of the frame. -/
theorem marks_leave {host : Host σ} (hsizes : host.sizes = .unbounded)
    (hframes : M.memory.frames.toList = fs ++ [f]) (results : List Value) :
    (last (leave host results M)).memory.marks = M.memory.marks.truncate f.tryBase := by
  rw [leave, bind_of_ok (frame_track hframes)]
  cases hsize : f.returnSize with
  | none => simp [bind_apply, pushAll, shape, last, Machine.onValues, Machine.onFrames,
      Machine.onDelimiters, Machine.onMarks]
  | some size =>
    have hgoal : host.sizes.add f.stackBase size = .ok (f.stackBase + size) := by
      rw [hsizes, Sizes.add_unbounded]
    simp [bind_apply, pushAll, shape_apply hgoal, last, Machine.onValues, Machine.onFrames,
      Machine.onDelimiters, Machine.onMarks]

/-- A return takes the frame away. -/
theorem frames_leave (host : Host σ) (hframes : M.memory.frames.toList = fs ++ [f])
    (results : List Value) : (last (leave host results M)).memory.frames.toList = fs := by
  have hrest : Still (do
      modify fun m => m.onValues fun values => values.truncate f.stackBase
      pushAll results
      shape host.sizes f.stackBase f.returnSize
      modify fun m => m.onDelimiters fun delimiters => delimiters.truncate f.delimiterBase
      modify fun m => m.onMarks fun marks => marks.truncate f.tryBase : Exec σ Unit) := by
    refine Still.bind (fun _ => rfl) fun _ =>
      (Still.smooth fun _ => .pushAll results).bind fun _ => ?_
    refine (Still.smooth fun _ => .shape host.sizes f.stackBase f.returnSize).bind fun _ => ?_
    exact Still.bind (fun _ => rfl) fun _ _ => rfl
  have hleft : leave host results M = _ := bind_of_ok (frame_track hframes)
  rw [hleft]
  refine (congrArg Stack.toList (hrest (M.onFrames Stack.dropLast))).trans ?_
  rw [Machine.onFrames, Stack.toList_dropLast, hframes, List.dropLast_concat]

/-- A frame that returns is gone, unless something has gone wrong before. -/
theorem ret_cases (host : Host σ) (hframes : M.memory.frames.toList = fs ++ [f]) :
    (∃ e N, ret host M = .error e N ∧ N.memory.frames = M.memory.frames) ∨
      ((last (ret host M)).memory.frames.toList = fs ∧ ∀ e N,
        ret host M ≠ .error (.fault e) N) := by
  have hresults : Still (popDelimiter >>= takeFrom : Exec σ (List Value)) :=
    Still.popDelimiter.bind fun start => .smooth fun _ => .takeFrom start
  have hret : ret host = (popDelimiter >>= takeFrom) >>= leave host := (bind_assoc _ _ _).symm
  have hstill := hresults M
  rw [hret, bind_apply]
  generalize (popDelimiter >>= takeFrom : Exec σ (List Value)) M = result at hstill
  cases result with
  | error e N => exact .inl ⟨e, N, rfl, hstill⟩
  | ok results N =>
    have hN : N.memory.frames.toList = fs ++ [f] := (congrArg Stack.toList hstill).trans hframes
    exact .inr ⟨frames_leave host hN results, Smooth.leave host results N⟩

/-- The frame of an asynchronous call has recorded a step. -/
theorem recordStep_track (host : Host σ) (hframes : M.memory.frames.toList = fs ++ [f])
    {call : AsyncCall} (hcall : f.activity = .async call) (history : List (List Value)) :
    ∃ N, (modifyFrame fun f => recordStep f history : Exec σ Unit) M = .ok () N ∧
      N.memory.frames.toList = fs ++ [{ f with activity := .async { call with history } }] ∧
      N.memory.marks = M.memory.marks := by
  obtain ⟨N, hrecord, -, hN⟩ := modifyFrame_track hframes fun f => recordStep f history
  have hgoes : Frame.Goes fun f => recordStep f history := by
    intro f
    obtain ⟨activity⟩ := f
    cases activity <;> exact ⟨rfl, rfl⟩
  have hmarks : (last (modifyFrame (fun f => recordStep f history) M)).memory.marks
    = M.memory.marks :=
    Upholds.modifyFrame (K := (Machine.sameMarks host M.memory.marks).toCallKeeping) hgoes M rfl
  rw [hrecord] at hmarks
  rw [recordStep, hcall] at hN
  exact ⟨N, hrecord, hN, hmarks⟩

/-- An asynchronous call that finishes takes its frame away. -/
theorem frames_finish (host : Host σ) (hframes : M.memory.frames.toList = fs ++ [f])
    (results : List Value) :
    let finish : Exec σ (Option Exit) := do
      leave host results
      return none
    (last (finish M)).memory.frames.toList = fs ∧ (∀ e N, finish M ≠ .error (.fault e) N) ∧
      (host.sizes = .unbounded →
        (last (finish M)).memory.marks = M.memory.marks.truncate f.tryBase) := by
  intro finish
  have hsmooth : Smooth finish := (Smooth.leave host results).bind fun _ => .pure none
  have hlast : last (finish M) = last (leave host results M) := by
    show last ((leave host results >>= fun _ => pure none : Exec σ (Option Exit)) M) = _
    rw [bind_apply]
    cases leave host results M <;> rfl
  rw [hlast]
  exact ⟨frames_leave host hframes results, hsmooth M,
    fun hsizes => marks_leave hsizes hframes results⟩

/-- A callee of an asynchronous call gets its frame on top. -/
theorem frames_follow (host : Host σ) (hframes : M.memory.frames.toList = fs ++ [f])
    (callee : Value) (args : List Value) (base : Nat) :
    let follow : Exec σ (Option Exit) := do
      pushAll args
      invoke host callee base none
      return none
    ∃ new : Option Frame,
      (∀ g ∈ new, g.Opens host.sizes (last (follow M)) ∧ g.stackBase = base) ∧
      (last (follow M)).memory.frames.toList = fs ++ [f] ++ new.toList ∧
      (∀ e N, follow M = .error (.fault e) N → new = none) ∧
      (last (follow M)).memory.marks = M.memory.marks := by
  intro follow
  have hraises : Raises host.sizes (· = base) follow :=
    .look (fun _ => .pushAll args) fun _ => (Raises.invoke host callee _ none).answer none
  have hmarks : Upholds (Machine.sameMarks host M.memory.marks).toKeeping follow :=
    (Upholds.pushAll args).bind fun _ =>
      (Upholds.invoke (K := (Machine.sameMarks host M.memory.marks).toCallKeeping)
        callee _ none).bind fun _ => .pure none
  obtain ⟨new, opens, hfollowed, hfaults⟩ := hraises M
  exact ⟨new, opens, hfollowed.trans (congrArg (· ++ new.toList) hframes), hfaults,
    hmarks M rfl⟩

/-- **What a step of an asynchronous call does to the frames**: its own one stays at its place, or
is gone; and there is no other one if a fault has happened.  The try marks stay as long as the frame
does. -/
theorem frames_stepAsync (host : Host σ) (hframes : M.memory.frames.toList = fs ++ [f])
    {call : AsyncCall} (hcall : f.activity = .async call) :
    (∃ (call' : AsyncCall) (new : Option Frame),
      (∀ g ∈ new, g.Opens host.sizes (last (stepAsync host f call M)) ∧
        g.stackBase = f.stackBase) ∧
      (last (stepAsync host f call M)).memory.frames.toList
        = fs ++ [{ f with activity := .async call' }] ++ new.toList ∧
      (∀ e N, stepAsync host f call M = .error (.fault e) N → new = none) ∧
      (last (stepAsync host f call M)).memory.marks = M.memory.marks) ∨
    ((last (stepAsync host f call M)).memory.frames.toList = fs ∧
      (∀ e N, stepAsync host f call M ≠ .error (.fault e) N) ∧
      (host.sizes = .unbounded →
        (last (stepAsync host f call M)).memory.marks = M.memory.marks.truncate f.tryBase)) := by
  have hnone {N : Machine σ} :
      ∀ g ∈ (none : Option Frame), g.Opens host.sizes N ∧ g.stackBase = f.stackBase :=
    fun _ h => absurd h (Option.not_mem_none _)
  let K := (Machine.sameMarks host M.memory.marks).toCallKeeping
  have htake : Still (takeFrom f.stackBase : Exec σ (List Value)) := .smooth fun _ => .takeFrom _
  have hfirst := htake M
  have hmarks : K.holds (last (takeFrom f.stackBase M)) := Upholds.takeFrom f.stackBase M rfl
  rw [stepAsync, bind_apply]
  generalize (takeFrom f.stackBase : Exec σ (List Value)) M = result at hfirst hmarks
  cases result with
  | error e N =>
    refine .inl ⟨call, none, hnone, ?_, fun _ _ _ => rfl, hmarks⟩
    rw [Option.toList_none, List.append_nil, ← hcall]
    exact (congrArg Stack.toList hfirst).trans hframes
  | ok args N =>
    let call' : AsyncCall := { call with history := call.history ++ [args] }
    have hN : N.memory.frames.toList = fs ++ [f] := (congrArg Stack.toList hfirst).trans hframes
    obtain ⟨L, hrecord, hL, hmarksL⟩ := recordStep_track host hN hcall (call.history ++ [args])
    have hasked := Still.askStep host call.function call.object (call.history ++ [args]) L
    have hmarksA :
        K.holds (last (askStep host call.function call.object (call.history ++ [args]) L)) :=
      Upholds.askStep (K := K) call.function call.object _ L (hmarksL.trans hmarks)
    dsimp only
    rw [bind_of_ok hrecord, bind_apply]
    generalize askStep host call.function call.object (call.history ++ [args]) L = result
      at hasked hmarksA
    have hframesA :
        (last result).memory.frames.toList = fs ++ [{ f with activity := .async call' }] :=
      (congrArg Stack.toList hasked).trans hL
    have hstays := hframesA.trans (List.append_nil _).symm
    cases result with
    | error e A => exact .inl ⟨call', none, hnone, hstays, fun _ _ _ => rfl, hmarksA⟩
    | ok answer A =>
      have hsame : A.memory.marks = M.memory.marks := hmarksA
      cases answer with
      | finish results => exact .inr (hsame ▸ frames_finish host hframesA results)
      | yield values => exact .inl ⟨call', none, hnone, hstays, fun _ _ _ => rfl, hsame⟩
      | switch coroutine args =>
        exact .inl ⟨call', none, hnone, hstays, fun _ _ _ => rfl, hsame⟩
      | call callee args =>
        obtain ⟨new, opens, hfollowed, hfaults, hkept⟩ :=
          frames_follow host hframesA callee args f.stackBase
        exact .inl ⟨call', new, opens, hfollowed, hfaults, hkept.trans hsame⟩

/-- **What a phase does to the frames**, with its own one on top of those of its callers: it stays
where it is in its instruction; or it has called a metamethod, or another function; or it has
returned. -/
inductive Shifts (host : Host σ) (op : Op) (phase : Nat) (fs : List Frame) (f : Frame) :
    EStateM.Result Stop (Machine σ) (Option Exit) → Prop
  | stays {result : EStateM.Result Stop (Machine σ) (Option Exit)}
      (posts : (last result).posts = fs.map Frame.post ++ [f.post])
      (callers : host.Sparing → (last result).memory.frames.toList.dropLast = fs)
      (extents : host.Tidy → (last result).extents = fs.map Frame.extent ++ [f.extent]) :
      Shifts host op phase fs f result
  | asks {result : EStateM.Result Stop (Machine σ) (Option Exit)} {name : String}
      {new : Option Frame}
      (asks : op.asks phase = some name) (opens : ∀ g ∈ new, g.Opens host.sizes (last result))
      (frames : (last result).memory.frames.toList
        = fs ++ [{ f with progress := { f.progress with next := phase + 1 } }] ++ new.toList)
      (faults : ∀ e N, result = .error (.fault e) N → new = none) :
        Shifts host op phase fs f result
  | calls {result : EStateM.Result Stop (Machine σ) (Option Exit)} {new : Option Frame}
      (call : op = .control .call) (opens : ∀ g ∈ new, g.Opens host.sizes (last result))
      (frames : (last result).memory.frames.toList = fs ++ [f] ++ new.toList)
      (faults : ∀ e N, result = .error (.fault e) N → new = none) :
        Shifts host op phase fs f result
  | returns {result : EStateM.Result Stop (Machine σ) (Option Exit)} (ret : op = .control .ret)
      (frames : (last result).memory.frames.toList = fs)
      (faults : ∀ e N, result ≠ .error (.fault e) N) : Shifts host op phase fs f result

/-- The frames are all as they were. -/
theorem Shifts.rests {host : Host σ} {op : Op} {phase : Nat}
    {result : EStateM.Result Stop (Machine σ) (Option Exit)}
    (hframes : (last result).memory.frames.toList = fs ++ [f]) : Shifts host op phase fs f result :=
  .stays (posts_of_toList hframes) (fun _ => by rw [hframes, List.dropLast_concat]) fun _ =>
    extents_of_toList hframes

/-- The outcome of an instruction that answers nothing. -/
theorem goes_apply (x : Exec σ Unit) (M : Machine σ) :
    (do x; return none : Exec σ (Option Exit)) M = match x M with
      | .ok _ N => .ok none N
      | .error e N => .error e N := by
  rw [bind_apply]
  cases x M <;> rfl

theorem Shifts.returned (host : Host σ) (hframes : M.memory.frames.toList = fs ++ [f])
    (context : Ref .context) (phase : Nat) :
    Shifts host (.control .ret) phase fs f (control host context .ret M) := by
  have hcases := ret_cases host hframes
  rw [control, goes_apply]
  generalize ret host M = result at hcases
  rcases hcases with ⟨e, N, rfl, hsame⟩ | ⟨hgone, hfaults⟩
  · exact .rests ((congrArg Stack.toList hsame).trans hframes)
  · cases result with
    | ok u N =>
      have hN : N.memory.frames.toList = fs := hgone
      exact .returns rfl hN fun _ _ h => by cases h
    | error e N =>
      have hN : N.memory.frames.toList = fs := hgone
      refine .returns rfl hN fun f N' h => ?_
      cases h
      exact hfaults f N rfl

/-- A system call of an orderly host. -/
theorem Shifts.syscall {host : Host σ} (orderly : host.Orderly)
    (hframes : M.memory.frames.toList = fs ++ [f]) (i : Fin 8) (phase : Nat) :
    Shifts host (.syscall i) phase fs f
      ((do Exec.syscall host i; return none : Exec σ (Option Exit)) M) := by
  have hlast : last ((do Exec.syscall host i; return none : Exec σ (Option Exit)) M)
      = last (Exec.syscall host i M) := by
    rw [goes_apply]
    cases Exec.syscall host i M <;> rfl
  cases hslot : host.syscall i with
  | none =>
    refine .rests ?_
    rw [hlast, last_syscall, hslot]
    exact hframes
  | some call =>
    refine .stays ?_ (fun sparing => ?_) fun tidy => ?_
    · rw [hlast, last_syscall, hslot]
      exact (orderly i call hslot M.heap M.memory M.state).trans (posts_of_toList hframes)
    · rw [hlast, last_syscall, hslot]
      refine (sparing i call hslot M.heap M.memory M.state).trans ?_
      rw [hframes, List.dropLast_concat]
    · rw [hlast, last_syscall, hslot]
      exact (tidy i call hslot M.heap M.memory M.state).trans (extents_of_toList hframes)

/-- **Every phase of every instruction.** -/
theorem frames_execute {host : Host σ} (orderly : host.Orderly)
    (hframes : M.memory.frames.toList = fs ++ [f]) (r : Ref .function) (context : Ref .context)
    (op : Op) (imm : Int64) (phase : Nat) :
    Shifts host op phase fs f (execute host r context op imm phase M) := by
  cases hasks : op.asks phase with
  | some name =>
    obtain ⟨x, hexecute, hattempts⟩ := Attempts.execute host r context imm hasks
    have htries := hattempts M.heap M rfl
    rw [hexecute, goes_apply]
    generalize x M = result at htries
    cases htries with
    | native rests =>
      have hsame : (last result).memory.frames.toList = fs ++ [f] :=
        (congrArg Stack.toList rests.frames).trans hframes
      cases result <;> exact .rests hsame
    | @calls K v method argc returns rests heap found =>
      have hK : K.memory.frames.toList = fs ++ [f] :=
        (congrArg Stack.toList rests.frames).trans hframes
      obtain ⟨new, opens, hnoted, hfaults⟩ :=
        frames_callMethod host hK method argc returns (phase + 1)
      generalize callMethod host method argc returns (phase + 1) K = result at opens hnoted hfaults
      cases result with
      | ok u N =>
        have hN : N.memory.frames.toList = _ := hnoted
        exact .asks hasks opens hN fun _ _ h => by cases h
      | error e N =>
        have hN : N.memory.frames.toList = _ := hnoted
        refine .asks hasks opens hN fun f N' h => ?_
        cases h
        exact hfaults f N rfl
  | none =>
    by_cases hret : op = .control .ret
    · subst hret
      exact .returned host hframes context phase
    by_cases hcall : op = .control .call
    · subst hcall
      obtain ⟨new, opens, hraised, hfaults⟩ := Raises.call host context M
      exact .calls rfl (fun g hg => (opens g hg).1)
        (hraised.trans (congrArg (· ++ _) hframes)) hfaults
    by_cases hsyscall : ∃ i, op = .syscall i
    · obtain ⟨i, rfl⟩ := hsyscall
      exact .syscall orderly hframes i phase
    · have hlevel :=
        Level.execute host r context op imm phase hasks hcall hret (not_exists.mp hsyscall)
      refine .stays ((hlevel.posts M).trans (posts_of_toList hframes))
        (fun _ => (hlevel.callers M).trans ?_) fun _ =>
          (hlevel.extents M).trans (extents_of_toList hframes)
      rw [hframes, List.dropLast_concat]

end

/-! ### What a phase does to the posts -/

section

variable {host : Host σ} {M : Machine σ} {below : List Post} {p : Post}

/-- A call of a metamethod has left a note in the frame that makes it. -/
theorem posts_callMethod (host : Host σ) (hposts : M.posts = below ++ [p]) (method : Value)
    (argc returns next : Nat) :
    ∃ new, (∀ q ∈ new, Post.Begins q) ∧
      (last (callMethod host method argc returns next M)).posts
        = below ++ [p.again next] ++ new := by
  obtain ⟨fs, f, hframes, rfl, rfl⟩ := Machine.exists_frame hposts
  obtain ⟨new, opens, hlast, -⟩ := frames_callMethod host hframes method argc returns next
  refine ⟨new.toList.map Frame.post, List.forall_mem_map.mpr fun g hg => ?_, ?_⟩
  · exact (opens g (Option.mem_toList.mp hg)).begins
  · rw [Machine.posts, Stacks.posts, hlast, List.map_append, List.map_append]
    rfl

/-- **What a step of an asynchronous call does to the posts**: its own frame stays at its place, or
is gone. -/
theorem posts_stepAsync (host : Host σ) {fs : List Frame} {f : Frame}
    (hframes : M.memory.frames.toList = fs ++ [f]) {call : AsyncCall}
    (hcall : f.activity = .async call) :
    (last (stepAsync host f call M)).posts = fs.map Frame.post ∨
      ∃ call' new, (∀ q ∈ new, Post.Begins q) ∧ (last (stepAsync host f call M)).posts
        = fs.map Frame.post ++ [{ f.post with activity := .async call' }] ++ new := by
  rcases frames_stepAsync host hframes hcall with ⟨call', new, opens, hstays, -⟩ |
    ⟨hgone, -⟩
  · refine .inr ⟨call', new.toList.map Frame.post, ?_, ?_⟩
    · exact List.forall_mem_map.mpr fun g hg => (opens g (Option.mem_toList.mp hg)).1.begins
    · rw [Machine.posts, Stacks.posts, hstays, List.map_append, List.map_append]
      rfl
  · exact .inl (congrArg (List.map Frame.post) hgone)

/-- **What a phase can do to the posts**, with that of its own frame on top of those `below`. -/
inductive Posted (op : Op) (phase : Nat) (below : List Post) (p : Post) : List Post → Prop
  | stays {new : List Post} (begins : ∀ q ∈ new, Post.Begins q) :
      Posted op phase below p (below ++ [p] ++ new)
  | asks {new : List Post} {name : String} (asks : op.asks phase = some name)
      (begins : ∀ q ∈ new, Post.Begins q) :
      Posted op phase below p (below ++ [p.again (phase + 1)] ++ new)
  | returns (ret : op = .control .ret) : Posted op phase below p below

theorem posts_execute (orderly : host.Orderly) (hposts : M.posts = below ++ [p])
    (r : Ref .function) (context : Ref .context) (op : Op) (imm : Int64) (phase : Nat) :
    Posted op phase below p (last (execute host r context op imm phase M)).posts := by
  obtain ⟨fs, f, hframes, rfl, rfl⟩ := Machine.exists_frame hposts
  have hshifts := frames_execute orderly hframes r context op imm phase
  generalize execute host r context op imm phase M = result at hshifts
  have hraised {new : Option Frame} (opens : ∀ g ∈ new, g.Opens host.sizes (last result)) :
      ∀ q ∈ new.toList.map Frame.post, Post.Begins q :=
    List.forall_mem_map.mpr fun g hg => (opens g (Option.mem_toList.mp hg)).begins
  have hlast {gs : List Frame} (h : (last result).memory.frames.toList = gs) :
      (last result).posts = gs.map Frame.post := congrArg (List.map Frame.post) h
  cases hshifts with
  | stays posts _ _ =>
    rw [posts, ← List.append_nil (_ ++ [_])]
    exact .stays (List.forall_mem_nil _)
  | asks asks opens frames _ =>
    rw [hlast frames, List.map_append, List.map_append]
    exact .asks asks (hraised opens)
  | calls _ opens frames _ =>
    rw [hlast frames, List.map_append, List.map_append]
    exact .stays (hraised opens)
  | returns ret frames _ =>
    rw [hlast frames]
    exact .returns ret

end

/-! ### Fetching -/

/-- **Why there is no instruction** at an address, or none that can be executed: it cannot be
decoded; its opcode is not known; or its immediate should be on the stack and is not. -/
inductive Unfetched (σ : Type) (code : Bytes) (ip : Nat) : Stop → Prop
  | undecodable {fault : Fault} (decodes : Instruction.decode code ip = .error fault) :
      Unfetched σ code ip (.fault fault)
  | unknown {ins : Instruction} (decodes : Instruction.decode code ip = .ok ins)
      (hop : ins.op = none) :
      Unfetched σ code ip (.fault (.unknownOp ins.byte))
  | operand {ins : Instruction} {op : Op} {e : Stop} {K N : Machine σ}
      (decodes : Instruction.decode code ip = .ok ins) (hop : ins.op = some op)
      (onStack : ins.onStack)
      (popped : (do ofFault ((← heap).integer (← pop)) : Exec σ Int64) K = .error e N) :
      Unfetched σ code ip e

/-- **What fetching comes to**: a new instruction is decoded at the first phase, or there is none;
or the one that the frame is in the middle of is entered again. -/
inductive Fetches (M : Machine σ) (r : Ref .function) (fs : List Frame) (f : Frame) :
    EStateM.Result Stop (Machine σ) (Op × Int64 × Nat) → Prop
  | fails {e : Stop} {N : Machine σ} {g : Frame}
      (idle : f.progress.finished = true ∨ f.progress.op = none)
      (frames : N.memory.frames.toList = fs ++ [g]) (activity : g.activity = f.activity)
      (ip : g.ip = f.nextIp) (extent : g.extent = f.extent)
      (progress : f.progress.finished = true → g.progress = f.progress)
      (cause : Unfetched σ (M.heap.prototype r).code f.nextIp e) :
      Fetches M r fs f (.error e N)
  | fresh {ins : Instruction} {op : Op} {imm : Int64} {N : Machine σ}
      (idle : f.progress.finished = true ∨ f.progress.op = none)
      (decodes : Instruction.decode (M.heap.prototype r).code f.nextIp = .ok ins)
      (hop : ins.op = some op) (himm : ins.onStack = false → ins.imm = imm)
      (frames : N.memory.frames.toList = fs ++ [{ f with
        ip := f.nextIp
        nextIp := ins.next
        progress := (Progress.start op imm).complete }])
      (heap : N.heap = M.heap) (state : N.state = M.state) :
      Fetches M r fs f (.ok (op, imm, 0) N)
  | again {op : Op} {N : Machine σ} (unfinished : f.progress.finished = false)
      (hop : f.progress.op = some op)
      (frames : N.memory.frames.toList = fs ++ [{ f with progress := f.progress.advance }])
      (heap : N.heap = M.heap) (state : N.state = M.state) :
      Fetches M r fs f (.ok (op, f.progress.imm, f.progress.next) N)

section

variable {M : Machine σ} {fs : List Frame} {f : Frame}

/-- A new instruction. -/
theorem fetches_next (hframes : M.memory.frames.toList = fs ++ [f]) (r : Ref .function)
    (idle : f.progress.finished = true ∨ f.progress.op = none) :
    Fetches M r fs f (fetchNext r M) := by
  obtain ⟨K, hip, hheap, hstate, hK⟩ :=
    modifyFrame_state hframes fun f => { f with ip := f.nextIp }
  rw [fetchNext, bind_of_ok hip, bind_of_ok (frame_track hK), bind_of_ok (heap_apply K)]
  cases hdecode : Instruction.decode (K.heap.prototype r).code f.nextIp with
  | error e => exact .fails idle hK rfl rfl rfl (fun _ => rfl) (.undecodable (hheap ▸ hdecode))
  | ok ins =>
    have hdecoded : (ofFault (.ok ins) : Exec σ Instruction) K = .ok ins K := rfl
    have hcode : Instruction.decode (M.heap.prototype r).code f.nextIp = .ok ins :=
      hheap ▸ hdecode
    obtain ⟨L, hbeyond, hheapL, hstateL, hL⟩ :=
      modifyFrame_state hK fun f => { f with nextIp := ins.next }
    rw [bind_of_ok hdecoded, bind_of_ok hbeyond]
    cases hop : ins.op with
    | none => exact .fails idle hL rfl rfl rfl (fun _ => rfl) (.unknown hcode hop)
    | some op =>
      -- with the immediate known, the frame is in the instruction and done with it
      have hstart (imm : Int64) (himm : ins.onStack = false → ins.imm = imm) {N : Machine σ}
          (hN : L.Rests N ∧ N.heap = L.heap) : Fetches M r fs f ((do
            modifyFrame fun f => { f with progress := (Progress.start op imm).complete }
            return (op, imm, 0) : Exec σ (Op × Int64 × Nat)) N) := by
        have hframesN : N.memory.frames.toList
            = fs ++ [{ f with ip := f.nextIp, nextIp := ins.next }] := by rw [hN.1.frames, hL]
        obtain ⟨R, hstarted, hheapR, hstateR, hR⟩ := modifyFrame_state hframesN
          fun f => { f with progress := (Progress.start op imm).complete }
        rw [bind_of_ok hstarted]
        exact .fresh idle hcode hop himm hR (hheapR.trans (hN.2.trans (hheapL.trans hheap)))
          (hstateR.trans (hN.1.state.trans (hstateL.trans hstate)))
      dsimp only
      split
      · next honStack =>
        let popped : Exec σ Int64 := do ofFault ((← heap).integer (← pop))
        let W : Machine.Keeping σ :=
          { holds := fun N => L.Rests N ∧ N.heap = L.heap
            values := fun _ hN => ⟨⟨hN.1.frames, hN.1.state⟩, hN.2⟩ }
        have hkeeps : Upholds W popped :=
          Upholds.heap.bind fun h => Upholds.pop.bind fun v => .ofFault _
        have hlast := hkeeps L ⟨.refl L, rfl⟩
        suffices hpopped : Fetches M r fs f ((popped >>= fun imm => do
            modifyFrame fun f => { f with progress := (Progress.start op imm).complete }
            return (op, imm, 0)) L) by
          simpa only [popped, bind_assoc] using hpopped
        rw [bind_apply]
        cases hresult : popped L with
        | error e N =>
          rw [hresult] at hlast
          obtain ⟨hrests, -⟩ : L.Rests N ∧ N.heap = L.heap := hlast
          exact .fails idle ((congrArg Stack.toList hrests.frames).trans hL) rfl rfl rfl
            (fun _ => rfl) (.operand hcode hop honStack hresult)
        | ok imm N =>
          rw [hresult] at hlast
          exact hstart imm (fun h => absurd h (by simp [honStack])) hlast
      · exact hstart ins.imm (fun _ => rfl) ⟨.refl L, rfl⟩

theorem fetches (hframes : M.memory.frames.toList = fs ++ [f]) (r : Ref .function) :
    Fetches M r fs f (fetch r M) := by
  rw [fetch, bind_of_ok (frame_track hframes)]
  by_cases hfinished : f.progress.finished
  · rw [if_pos hfinished]
    exact fetches_next hframes r (.inl hfinished)
  · obtain ⟨N, hadvance, hheap, hstate, hN⟩ :=
      modifyFrame_state hframes fun f => { f with progress := f.progress.advance }
    rw [if_neg hfinished, bind_of_ok hadvance]
    cases hop : f.progress.op with
    | some op => exact .again (eq_false_of_ne_true hfinished) hop hN hheap hstate
    | none =>
      -- a frame that does not know its instruction gets a new one
      have hnext := fetches_next hN r (.inr hop)
      dsimp only
      generalize fetchNext r N = result at hnext
      cases hnext with
      | fails _ frames activity ip extent _ cause =>
        exact .fails (.inr hop) frames activity ip extent (fun h => absurd h hfinished)
          (hheap ▸ cause)
      | fresh _ decodes hop' himm frames heap state =>
        exact .fresh (.inr hop) (hheap ▸ decodes) hop' himm frames (heap.trans hheap)
          (state.trans hstate)
      | again _ hop' _ _ _ => cases hop.symm.trans hop'

end

end Exec

end ScriptVm
