import ScriptVm.Machine.Frame

/-!
# Layers of the stacks

The stacks of a coroutine are built up by its activations, one on top of the
other.  A **layer** is what one activation, or several, have on the four stacks.
Its positions are counted from the bottom of the layer itself, and `p.pile c` is
the layer `c` standing on `p`, with every position of `c` moved up accordingly.
So `c` is the same layer whatever it stands on.

An **activation** is a layer with one frame.  A **tower** is a pile of them, and
every coroutine that the machine builds is one: the frames lie in their order,
the operands of a frame above its local variables, and no delimiter of a frame
below them.

Main statements: `Layer.pile_assoc` (piling is associative), `Layer.Tower.pushed`
(a tower may get more values).
-/

namespace ScriptVm

/-- Four runs of slots, bottom first, with positions counted from the bottom of each run. -/
structure Layer where
  /-- Arguments, local variables and operands. -/
  values : List Value
  /-- The active functions. -/
  frames : List Frame
  /-- Where runs of values start. -/
  delimiters : List Nat
  /-- Marks set by `Try`. -/
  marks : List TryMark
  deriving DecidableEq, Repr

/-- The slots of some stacks. -/
def Stacks.view (s : Stacks) : Layer where
  values := s.values.toList
  frames := s.frames.toList
  delimiters := s.delimiters.toList
  marks := s.marks.toList

namespace Layer

/-- A layer of values only. -/
def bare (values : List Value) : Layer := ⟨values, [], [], []⟩

/-- A frame of a layer that stands on `p`. -/
def liftFrame (p : Layer) (f : Frame) : Frame :=
  { f with
    stackBase := p.values.length + f.stackBase
    localsBase := p.values.length + f.localsBase
    privateBase := p.values.length + f.privateBase
    delimiterBase := p.delimiters.length + f.delimiterBase
    tryBase := p.marks.length + f.tryBase }

/-- A try mark of a layer that stands on `p`. -/
def liftMark (p : Layer) (k : TryMark) : TryMark :=
  { k with
    stackSize := p.values.length + k.stackSize
    callDepth := p.frames.length + k.callDepth
    delimiterDepth := p.delimiters.length + k.delimiterDepth }

/-- The layer `c`, standing on `p`. -/
def pile (p c : Layer) : Layer where
  values := p.values ++ c.values
  frames := p.frames ++ c.frames.map p.liftFrame
  delimiters := p.delimiters ++ c.delimiters.map (p.values.length + ·)
  marks := p.marks ++ c.marks.map p.liftMark

@[simp] theorem bare_values (vs : List Value) : (bare vs).values = vs := rfl
@[simp] theorem bare_frames (vs : List Value) : (bare vs).frames = [] := rfl
@[simp] theorem bare_delimiters (vs : List Value) : (bare vs).delimiters = [] := rfl
@[simp] theorem bare_marks (vs : List Value) : (bare vs).marks = [] := rfl

@[simp] theorem pile_values (p c : Layer) : (p.pile c).values = p.values ++ c.values := rfl
@[simp] theorem pile_frames (p c : Layer) :
    (p.pile c).frames = p.frames ++ c.frames.map p.liftFrame := rfl
@[simp] theorem pile_delimiters (p c : Layer) :
    (p.pile c).delimiters = p.delimiters ++ c.delimiters.map (p.values.length + ·) := rfl
@[simp] theorem pile_marks (p c : Layer) :
    (p.pile c).marks = p.marks ++ c.marks.map p.liftMark := rfl

@[ext] theorem ext {a b : Layer} (values : a.values = b.values) (frames : a.frames = b.frames)
    (delimiters : a.delimiters = b.delimiters) (marks : a.marks = b.marks) : a = b := by
  cases a
  cases b
  simp_all

/-- Lifting in two moves is lifting in one. -/
theorem liftFrame_liftFrame (p q : Layer) (f : Frame) :
    p.liftFrame (q.liftFrame f) = (p.pile q).liftFrame f := by
  simp [liftFrame, Nat.add_assoc]

theorem liftMark_liftMark (p q : Layer) (k : TryMark) :
    p.liftMark (q.liftMark k) = (p.pile q).liftMark k := by
  simp [liftMark, Nat.add_assoc]

/-- Piling is associative. -/
theorem pile_assoc (p q c : Layer) : (p.pile q).pile c = p.pile (q.pile c) := by
  apply ext
  · simp
  · simp [Function.comp_def, liftFrame_liftFrame]
  · simp [Function.comp_def, Nat.add_assoc]
  · simp [Function.comp_def, liftMark_liftMark]

/-- A layer stands on nothing as it is. -/
@[simp] theorem bare_nil_pile (c : Layer) : (bare []).pile c = c := by
  have hframe : (bare []).liftFrame = id := by
    funext f
    simp [liftFrame]
  have hmark : (bare []).liftMark = id := by
    funext k
    simp [liftMark]
  apply ext <;> simp [hframe, hmark]

/-- Values on top of a layer are values of that layer. -/
theorem pile_bare (p : Layer) (vs : List Value) :
    p.pile (bare vs) = { p with values := p.values ++ vs } := by
  simp [pile, bare]

/-- More values for the upper layer are more values for the pile. -/
theorem pile_pile_bare (p a : Layer) (vs : List Value) :
    (p.pile a).pile (bare vs) = p.pile { a with values := a.values ++ vs } := by
  rw [pile_assoc, pile_bare a]

end Layer

/-! ### Activations -/

/-- The layout of a frame that stands at the bottom of its layer: its arguments, local variables
and operands follow one another. -/
structure Frame.Laid (f : Frame) : Prop where
  stackBase : f.stackBase = 0
  delimiterBase : f.delimiterBase = 0
  tryBase : f.tryBase = 0
  arguments : f.argumentCount = f.localsBase
  locals : f.localsBase ≤ f.privateBase

namespace Layer

/-- The layer of one activation of bytecode, with at least `k` operands.  Its frame is `f` up to the
place in the code.  Delimiters and try marks of the frame lie above its local variables. -/
structure Runs (f : Frame) (k : Nat) (c : Layer) : Prop where
  frames : ∃ ip nextIp progress, c.frames = [{ f with ip, nextIp, progress }]
  operands : f.privateBase + k ≤ c.values.length
  delimiters : ∀ d ∈ c.delimiters, f.privateBase ≤ d
  marks : ∀ m ∈ c.marks, m.callDepth = 1 ∧ f.privateBase ≤ m.stackSize

/-- The layer of one asynchronous call.  Its frame is `f` up to the steps it has made. -/
structure Waits (f : Frame) (c : Layer) : Prop where
  frames : ∃ call, c.frames = [{ f with activity := .async call }]
  delimiters : c.delimiters = []
  marks : c.marks = []

/-- The layer of one activation, whose frame is `f` up to what changes while it runs. -/
inductive Activation (f : Frame) (c : Layer) : Prop
  | bytecode {r : Ref .function} {context : Ref .context} (code : f.activity = .bytecode r context)
      (laid : f.Laid) (runs : Runs f 0 c)
  | async {call : AsyncCall} (steps : f.activity = .async call) (laid : f.Laid) (waits : Waits f c)

/-- Activations on top of one another, standing on some values.  The frames are listed top first. -/
inductive Tower (ground : List Value) : List Frame → Layer → Prop
  | ground : Tower ground [] (bare ground)
  | call {fs : List Frame} {f : Frame} {p a : Layer} (lower : Tower ground fs p)
      (upper : Activation f a) : Tower ground (f :: fs) (p.pile a)

theorem Runs.mono {f : Frame} {k l : Nat} {c : Layer} (h : Runs f k c) (hl : l ≤ k) :
    Runs f l c :=
  { h with operands := by have := h.operands; omega }

/-- An activation may get more values. -/
theorem Activation.pushed {f : Frame} {a : Layer} (h : Activation f a) (vs : List Value) :
    Activation f { a with values := a.values ++ vs } := by
  cases h with
  | bytecode code laid runs =>
    refine .bytecode code laid { runs with operands := ?_ }
    have := runs.operands
    simp only [List.length_append]
    omega
  | async steps laid waits => exact .async steps laid { waits with }

/-- An activation has one frame. -/
theorem Activation.frames_eq {f : Frame} {a : Layer} (h : Activation f a) :
    ∃ g : Frame, a.frames = [g] ∧ g.stackBase = 0 ∧ g.delimiterBase = 0 ∧ g.tryBase = 0 ∧
      g.returnSize = f.returnSize := by
  cases h with
  | bytecode _ laid runs =>
    obtain ⟨_, _, _, hg⟩ := runs.frames
    exact ⟨_, hg, laid.stackBase, laid.delimiterBase, laid.tryBase, rfl⟩
  | async _ laid waits =>
    obtain ⟨_, hg⟩ := waits.frames
    exact ⟨_, hg, laid.stackBase, laid.delimiterBase, laid.tryBase, rfl⟩

theorem Activation.length_frames {f : Frame} {a : Layer} (h : Activation f a) :
    a.frames.length = 1 := by
  obtain ⟨g, hg, -⟩ := h.frames_eq
  simp [hg]

namespace Tower

variable {ground : List Value} {fs : List Frame} {c : Layer}

/-- A tower has as many frames as activations. -/
theorem length_frames (h : Tower ground fs c) : c.frames.length = fs.length := by
  induction h with
  | ground => rfl
  | call lower upper ih => simp [ih, upper.length_frames]

/-- A tower without activations is its ground. -/
theorem eq_bare (h : Tower ground [] c) : c = bare ground := by
  cases h
  rfl

/-- A tower with an activation may get more values. -/
theorem pushed (h : Tower ground fs c) (hne : fs ≠ []) (vs : List Value) :
    Tower ground fs (c.pile (bare vs)) := by
  cases h with
  | ground => exact absurd rfl hne
  | call lower upper =>
    rw [pile_pile_bare]
    exact .call lower (upper.pushed vs)

end Tower

end Layer

end ScriptVm
