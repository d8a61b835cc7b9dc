import ScriptVm.Proofs.Equality
import ScriptVm.Proofs.Live
import ScriptVm.Proofs.Locality
import ScriptVm.Proofs.PhaseDiscipline
import ScriptVm.Proofs.Underlay

/-!
# How the comparisons go together

`Neq` is the negation of `Equ`, whichever way the two take.  They have one native
equality, one identity to fall back on, and one metamethod; and while that one is at
work, the two runs differ only in the opcode that the frame below is in the midst of.
So they go side by side until the metamethod returns, and then its result is read in
opposite ways.

Of two integers, or of two texts, exactly one of `Lss`, `Equ` and `Gtr` holds, and the
other comparisons follow from these.

A host could tell the two opcodes apart, as a system call gets the frames with their
progress: `comparison_coherence_telling`.

Main statements: `Machine.Settles.beside` (two runs side by side),
`Operator.Ordered.coherent`, `comparison_coherence`.
-/

namespace ScriptVm

variable {σ : Type}

/-! ### Running one instruction -/

/-- The frame in the midst of another instruction, at the same phase. -/
def Frame.doing (op : Op) (f : Frame) : Frame :=
  { f with progress := { f.progress with op := some op } }

namespace Machine

/-- The frame at a depth is the current one, and finished with its instruction. -/
def Settled (depth : Nat) (M : Machine σ) : Prop :=
  M.depth = depth ∧ ∃ f, M.memory.frames.last? = some f ∧ f.progress.finished = true

/-- **A run until an instruction is finished**: steps, and turns where control leaves the coroutine,
until the frame at the depth has come to the end of its instruction. -/
inductive Settles (host : Host σ) (depth : Nat) : Machine σ → List (Turn σ) →
    Machine σ → Prop
  | done {M : Machine σ} (settled : M.Settled depth) : Settles host depth M [] M
  | next {M N L : Machine σ} {turns rest : List (Turn σ)} (unsettled : ¬ M.Settled depth)
      (next : M.next host turns = some (N, rest)) (settles : Settles host depth N rest L) :
      Settles host depth M turns L

/-- **A binary operator runs to its end**, from the machine `M` at which it begins. -/
def Operates (host : Host σ) (o : BinaryOp) (imm : Int64) (M : Machine σ) (turns : List (Turn σ))
    (N : Machine σ) : Prop :=
  ∃ K, Exec.binaryOperator host o 0 (M.begin (.binary o) imm) = .ok () K ∧
    K.Settles host M.depth turns N

/-- A run comes to one end. -/
theorem Settles.unique {host : Host σ} {depth : Nat} {M N N' : Machine σ} {turns : List (Turn σ)}
    (h : M.Settles host depth turns N) (h' : M.Settles host depth turns N') : N = N' := by
  induction h with
  | done settled =>
    cases h' with
    | done => rfl
    | next unsettled => exact absurd settled unsettled
  | next unsettled next settles ih =>
    cases h' with
    | done settled => exact absurd settled unsettled
    | next _ next' settles' =>
      rw [next] at next'
      cases next'
      exact ih settles'

theorem Operates.unique {host : Host σ} {o : BinaryOp} {imm : Int64} {M N N' : Machine σ}
    {turns : List (Turn σ)} (h : M.Operates host o imm turns N)
    (h' : M.Operates host o imm turns N') : N = N' := by
  obtain ⟨K, hK, settles⟩ := h
  obtain ⟨K', hK', settles'⟩ := h'
  rw [hK] at hK'
  cases hK'
  exact settles.unique settles'

end Machine

/-! ### Equality and its negation -/

/-- What `Equ` and `Neq` make of an equality. -/
def BinaryOp.verdict : BinaryOp → Bool → Bool
  | neq, b => !b
  | _, b => b

/-- Two machines that differ in an opcode of the current frame, and in the values on top: these are
what the operators `o` and `o'` say of one equality. -/
structure Machine.Verdicts (states : σ → σ → Prop) (o o' : BinaryOp) (N N' : Machine σ) :
    Prop where
  values : ∃ V b, N.memory.view.values = V ++ [.bool (o.verdict b)] ∧
    N'.memory.view.values = V ++ [.bool (o'.verdict b)]
  frames : ∃ below f, N.memory.view.frames = below ++ [Frame.doing (.binary o) f] ∧
    N'.memory.view.frames = below ++ [Frame.doing (.binary o') f]
  delimiters : N'.memory.view.delimiters = N.memory.view.delimiters
  marks : N'.memory.view.marks = N.memory.view.marks
  heap : N'.heap = N.heap
  state : states N.state N'.state

/-- Two runs with different opcodes in the midst of the same instruction. -/
def Underlay.doing (below : List Frame) (f : Frame) (op op' : Op) (states : σ → σ → Prop) :
    Underlay σ where
  left := below ++ [f.doing op]
  right := below ++ [f.doing op']
  length_eq := by simp
  states := states

/-- `Equ` or its negation. -/
def BinaryOp.Equality (o : BinaryOp) : Prop := o = equ ∨ o = neq

section

variable {host : Host σ} {o o' : BinaryOp} {M N K : Machine σ} {c : Layer} {below : List Frame}
  {f : Frame} {kept : List Value} {x y : Value}

theorem BinaryOp.Equality.binaryOperator (ho : o.Equality) (host : Host σ) :
    Exec.binaryOperator host o 0 = Exec.operateBinary host o := by
  rcases ho with rfl | rfl <;> rfl

/-- In its later phase, an equality reads the result of its metamethod. -/
theorem BinaryOp.Equality.finish (ho : o.Equality) (host : Host σ) {phase : Nat}
    (hphase : phase ≠ 0) :
    Exec.binaryOperator host o phase = (do
      let v ← Exec.pop
      Exec.push (.bool (o.verdict v.truthy)) : Exec σ Unit) := by
  cases phase with
  | zero => exact absurd rfl hphase
  | succ n => rcases ho with rfl | rfl <;> rfl

/-- The metamethod that an equality calls: there is none where there is a native equality. -/
def Heap.equalityMethod (h : Heap) (x y : Value) : Option Value :=
  if (Operator.nativeEquals? h x y).isSome then none else h.overloadMethod .equ x y

/-- **What an equality does with its operands.** -/
theorem BinaryOp.Equality.operate (ho : o.Equality) (hK : N.Stacked c K)
    (hf : c.frames = below ++ [f])
    (hv : c.values = kept ++ [x, y]) (room : f.privateBase ≤ kept.length) (host : Host σ) :
    Exec.binaryOperator host o 0 K = (match N.heap.equalityMethod x y with
      | some method => Exec.callMethod host method 2 1 1
      | none => Exec.replaceTop 2 (.bool (o.verdict (Operator.equals N.heap x y)))) K := by
  have hx : (Exec.peek 1 : Exec σ Value) K = .ok x K := hK.peek (W := [y]) hf hv room
  have hy : (Exec.peek 0 : Exec σ Value) K = .ok y K := by
    refine hK.peek (V := kept ++ [x]) (W := []) hf (by rw [hv, List.append_assoc]; rfl) ?_
    rw [List.length_append]
    exact Nat.le_add_right_of_le room
  rw [ho.binaryOperator, Exec.operateBinary, Exec.bind_of_ok hy, Exec.bind_of_ok hx,
    Exec.bind_of_ok (Exec.heap_apply K), hK.heap]
  have hnative : Operator.binary N.heap o x y
      = .ok ((Operator.nativeEquals? N.heap x y).map fun b => .bool (o.verdict b)) := by
    rcases ho with rfl | rfl <;> rfl
  have hmethod : N.heap.overloadMethod o x y = N.heap.overloadMethod .equ x y := by
    rcases ho with rfl | rfl <;> rfl
  rw [hnative, Heap.equalityMethod, Operator.equals, hmethod]
  cases hequal : Operator.nativeEquals? N.heap x y with
  | some b => rfl
  | none =>
    cases hoverload : N.heap.overloadMethod .equ x y with
    | some method => rcases ho with rfl | rfl <;> rfl
    | none => rcases ho with rfl | rfl <;> rfl

/-- Looking at an operand changes nothing. -/
theorem Exec.peek_eq_ok (hf : K.memory.frames.last? = some f) {offset : Nat} {v : Value}
    {L : Machine σ} (hv : (Exec.peek offset : Exec σ Value) K = .ok v L) :
    L = K ∧ f.privateBase + offset < K.memory.values.size := by
  rcases Nat.lt_or_ge (f.privateBase + offset) K.memory.values.size with hlow | hlow
  · rw [Exec.peek, Exec.bind_of_ok (Exec.frame_apply hf), Exec.bind_of_ok (Exec.height_apply K),
      if_neg (Nat.not_le.mpr hlow), Exec.bind_of_ok (Exec.get_apply K)] at hv
    cases htop : K.memory.values.top offset with
    | ok top =>
      rw [htop] at hv
      cases hv
      exact ⟨rfl, hlow⟩
    | error e =>
      rw [htop] at hv
      cases hv
  · rw [Exec.peek_underflow hf hlow] at hv
    cases hv

/-- An equality that goes well has its operands. -/
theorem BinaryOp.Equality.operands (ho : o.Equality) (hf : K.memory.frames.last? = some f)
    {L : Machine σ} (hL : Exec.binaryOperator host o 0 K = .ok () L) :
    ∃ kept x y, K.memory.view.values = kept ++ [x, y] ∧ f.privateBase ≤ kept.length := by
  have hroom : f.privateBase + 1 < K.memory.values.toList.length := by
    rw [ho.binaryOperator, Exec.operateBinary, Exec.bind_apply] at hL
    cases hy : (Exec.peek 0 : Exec σ Value) K with
    | error e K₁ =>
      rw [hy] at hL
      cases hL
    | ok y K₁ =>
      obtain ⟨rfl, -⟩ := Exec.peek_eq_ok hf hy
      rw [hy] at hL
      dsimp only at hL
      rw [Exec.bind_apply] at hL
      cases hx : (Exec.peek 1 : Exec σ Value) K₁ with
      | error e K₂ =>
        rw [hx] at hL
        cases hL
      | ok x K₂ => exact Stack.size_eq_length _ ▸ (Exec.peek_eq_ok hf hx).2
  show ∃ kept x y, K.memory.values.toList = kept ++ [x, y] ∧ _
  generalize K.memory.values.toList = V at hroom
  rcases List.eq_nil_or_concat' V with rfl | ⟨U, y, rfl⟩
  · exact absurd hroom (Nat.not_lt_zero _)
  rcases List.eq_nil_or_concat' U with rfl | ⟨kept, x, rfl⟩
  · exact absurd hroom (by simp)
  · refine ⟨kept, x, y, List.append_assoc .., ?_⟩
    simp only [List.length_append, List.length_singleton] at hroom
    omega

/-! ### Two runs side by side -/

variable {S : σ → σ → Prop} {r : Ref .function} {context : Ref .context} {g : Frame}
  {turns : List (Turn σ)}

/-- **The metamethod of an equality has returned**: the next step reads its result, and is the last
one of the instruction. -/
theorem BinaryOp.Equality.reads (ho : o.Equality) (hframes : M.memory.view.frames
      = below ++ [g.doing (.binary o)]) (code : g.activity = .bytecode r context)
    (hopen : g.progress.finished = false) (hphase : g.progress.next ≠ 0)
    (hvalue : M.memory.view.values = kept ++ [x]) (room : g.privateBase ≤ kept.length)
    (host : Host σ) :
    ∃ L, Exec.step host M = .ok none L ∧
      M.Stacked { M.memory.view with
        values := kept ++ [.bool (o.verdict x.truthy)]
        frames :=
          below ++ [Frame.doing (.binary o) { g with progress := g.progress.advance }] } L := by
  obtain ⟨K, hstep, hK⟩ := M.stacked_self.step_again hframes code rfl hopen host
  obtain ⟨K', hpop, hK'⟩ := hK.pop rfl hvalue room
  obtain ⟨L, hpush, hL⟩ := hK'.push (.bool (o.verdict x.truthy))
  have hreads : Exec.binaryOperator host o g.progress.next K = .ok () L := by
    rw [ho.finish host hphase, Exec.bind_of_ok hpop, hpush]
  exact ⟨L, hstep.trans (Exec.bind_of_ok hreads), hL⟩

/-- An equality cannot read a result that is not there. -/
theorem BinaryOp.Equality.underflow (ho : o.Equality) (hframes : M.memory.view.frames
      = below ++ [g.doing (.binary o)]) (code : g.activity = .bytecode r context)
    (hopen : g.progress.finished = false) (hphase : g.progress.next ≠ 0)
    (hlow : M.memory.view.values.length ≤ g.privateBase) (host : Host σ) :
    ∃ e L, Exec.step host M = .error e L := by
  obtain ⟨K, hstep, hK⟩ := M.stacked_self.step_again hframes code rfl hopen host
  have hpop : (Exec.pop : Exec σ Value) K = .error (.fault .stackUnderflow) K :=
    Exec.pop_underflow (hK.last_frame rfl) (hK.height ▸ hlow)
  have hreads : Exec.binaryOperator host o g.progress.next K
    = .error (.fault .stackUnderflow) K := by
    rw [ho.finish host hphase, Exec.bind_of_error hpop]
  exact ⟨_, K, hstep.trans (Exec.bind_of_error hreads)⟩

theorem Machine.next_of_ok (hstep : Exec.step host M = .ok none N) (turns : List (Turn σ)) :
    M.next host turns = some (N, turns) := by
  simp only [Machine.next, hstep]

theorem Machine.next_of_error {e : Stop} (hstep : Exec.step host M = .error e N)
    (turns : List (Turn σ)) : M.next host turns = none := by
  simp only [Machine.next, hstep]

/-- A frame that is in the middle of an instruction has not come to its end. -/
theorem Machine.not_settled (hframes : M.memory.view.frames = below ++ [f])
    (hopen : f.progress.finished = false) (depth : Nat) : ¬ M.Settled depth := by
  rintro ⟨-, g, hlast, hfinished⟩
  have hg : g = f := Option.some.inj (hlast.symm.trans (M.stacked_self.last_frame hframes))
  rw [hg, hopen] at hfinished
  exact Bool.false_ne_true hfinished

/-- A machine that has come to the end of its instruction goes no further. -/
theorem Machine.Settles.eq_of_settled {depth : Nat} (h : M.Settles host depth turns N)
    (settled : M.Settled depth) : turns = [] ∧ N = M := by
  cases h with
  | done => exact ⟨rfl, rfl⟩
  | next unsettled => exact absurd settled unsettled

/-- Without a frame above them, the lowest frames are all that there are. -/
theorem Machine.Over.frames_eq {u : Underlay σ} {M' : Machine σ} (above : M.Over u M')
    (hdepth : M.depth = u.left.length) :
    M.memory.view.frames = u.left ∧ M'.memory.view.frames = u.right := by
  obtain ⟨up, hM, hM'⟩ := above.memory.frames
  have hup : up = [] := by
    rw [Machine.depth, Stack.size_eq_length, hM, List.length_append] at hdepth
    exact List.eq_nil_of_length_eq_zero (Nat.add_eq_left.mp hdepth)
  rw [hup, List.append_nil] at hM hM'
  exact ⟨hM, hM'⟩

/-- What two equalities have made of one value, in two machines that are the same apart from
that. -/
theorem Machine.Over.verdicts {u : Underlay σ} {M' L L' : Machine σ} (above : M.Over u M')
    {b : Bool} (hL : M.Stacked { M.memory.view with
      values := kept ++ [.bool (o.verdict b)]
      frames := below ++ [Frame.doing (.binary o) f] } L)
    (hL' : M'.Stacked { M'.memory.view with
      values := kept ++ [.bool (o'.verdict b)]
      frames := below ++ [Frame.doing (.binary o') f] } L') :
    Machine.Verdicts u.states o o' L L' where
  values := ⟨kept, b, congrArg Layer.values hL.view, congrArg Layer.values hL'.view⟩
  frames := ⟨below, f, congrArg Layer.frames hL.view, congrArg Layer.frames hL'.view⟩
  delimiters := by
    rw [congrArg Layer.delimiters hL'.view, congrArg Layer.delimiters hL.view]
    exact congrArg Stack.toList above.memory.delimiters
  marks := by
    rw [congrArg Layer.marks hL'.view, congrArg Layer.marks hL.view]
    exact congrArg Stack.toList above.memory.marks
  heap := by rw [hL'.heap, hL.heap, above.heap]
  state := by
    rw [hL'.state, hL.state]
    exact above.state

/-- The machine after an equality has come to the end of its instruction. -/
theorem Machine.Stacked.settled (hL : N.Stacked c M) (hf : c.frames = below ++ [f])
    (hfinished : f.progress.finished = true) : M.Settled (below.length + 1) := by
  refine ⟨?_, f, hL.last_frame hf, hfinished⟩
  have hframes : M.memory.frames.toList = below ++ [f] := (congrArg Layer.frames hL.view).trans hf
  rw [Machine.depth, Stack.size_eq_length, hframes, List.length_append, List.length_singleton]

/-- **Both machines go on** as long as there is a frame above the lowest ones. -/
theorem Machine.Over.next {u : Underlay σ} {M' : Machine σ} (above : M.Over u M')
    (deep : u.left.length < M.depth) (overlooks : host.Overlooks u) (hstates : ∀ a, u.states a a)
    {rest : List (Turn σ)} (hnext : M.next host turns = some (N, rest)) :
    ∃ N', M'.next host turns = some (N', rest) ∧ N.Over u N' := by
  have hstep := Along.step deep overlooks M M' above (Nat.le_refl _)
  unfold Machine.next at hnext ⊢
  generalize Exec.step host M = result at hstep hnext
  generalize Exec.step host M' = result' at hstep
  cases hstep with
  | error e above => cases hnext
  | @ok exit L L' above deep =>
    cases exit with
    | none =>
      cases hnext
      exact ⟨L', rfl, above⟩
    | some exit =>
      cases turns with
      | nil => cases hnext
      | cons turn turns =>
        cases hnext
        have away : Machine.Over u { L with heap := turn.heap, state := turn.state }
            { L' with heap := turn.heap, state := turn.state } :=
          { above with heap := rfl, state := hstates turn.state }
        exact ⟨L'.resume turn, rfl, away.onValues _⟩

/-- **The metamethod of two equalities has returned.**  If the one reads a result, then so does the
other one, and both are at the end. -/
theorem Machine.Over.reads (ho : o.Equality) (ho' : o'.Equality) {u : Underlay σ} {M' : Machine σ}
    (above : M.Over u M') (hM : M.memory.view.frames = below ++ [g.doing (.binary o)])
    (hM' : M'.memory.view.frames = below ++ [g.doing (.binary o')])
    (code : g.activity = .bytecode r context) (hopen : g.progress.finished = false)
    (hphase : g.progress.next ≠ 0) {rest : List (Turn σ)}
    (hnext : M.next host turns = some (N, rest)) :
    rest = turns ∧ N.Settled (below.length + 1) ∧
      ∃ N', M'.next host turns = some (N', turns) ∧ N'.Settled (below.length + 1) ∧
        Machine.Verdicts u.states o o' N N' := by
  have hvalues : M'.memory.view.values = M.memory.view.values :=
    congrArg Stack.toList above.memory.values
  have hfinished : g.progress.advance.finished = true := decide_eq_true (Nat.le_refl _)
  rcases List.eq_nil_or_concat' M.memory.view.values with hv | ⟨kept, v, hv⟩
  · obtain ⟨e, K, hK⟩ := ho.underflow hM code hopen hphase (hv ▸ Nat.zero_le _) host
    rw [Machine.next_of_error hK] at hnext
    cases hnext
  · rcases Nat.lt_or_ge kept.length g.privateBase with hlow | room
    · have hlow : M.memory.view.values.length ≤ g.privateBase := by
        rw [hv, List.length_append]
        exact hlow
      obtain ⟨e, K, hK⟩ := ho.underflow hM code hopen hphase hlow host
      rw [Machine.next_of_error hK] at hnext
      cases hnext
    · obtain ⟨K, hK, stacked⟩ := ho.reads hM code hopen hphase hv room host
      obtain ⟨K', hK', stacked'⟩ := ho'.reads hM' code hopen hphase (hvalues.trans hv) room host
      rw [Machine.next_of_ok hK] at hnext
      cases hnext
      exact ⟨rfl, stacked.settled rfl hfinished, K', Machine.next_of_ok hK' turns,
        stacked'.settled rfl hfinished, above.verdicts stacked stacked'⟩

/-- **Two runs side by side.**  While the metamethod is at work, the runs of two equalities differ
only in what the frame below is in the midst of.  If the one comes to its end then so does the other
one. -/
theorem Machine.Settles.beside (ho : o.Equality) (ho' : o'.Equality)
    (code : g.activity = .bytecode r context) (hopen : g.progress.finished = false)
    (hphase : g.progress.next ≠ 0) (hstates : ∀ a, S a a)
    (overlooks : host.Overlooks (.doing below g (.binary o) (.binary o') S))
    (h : M.Settles host (below.length + 1) turns N) {M' : Machine σ}
    (above : M.Over (.doing below g (.binary o) (.binary o') S) M') :
    ∃ N', M'.Settles host (below.length + 1) turns N' ∧ Machine.Verdicts S o o' N N' := by
  have hlength : (Underlay.doing below g (.binary o) (.binary o') S).left.length
    = below.length + 1 := by
    simp [Underlay.doing]
  induction h generalizing M' with
  | @done M settled =>
    obtain ⟨hM, -⟩ := above.frames_eq (settled.1.trans hlength.symm)
    exact absurd settled (Machine.not_settled hM hopen _)
  | @next M N L turns rest unsettled next settles ih =>
    rcases Nat.lt_or_eq_of_le above.le_depth with deep | hdepth
    · -- The metamethod is at work: both machines make the same step.
      have unsettled' : ¬ M'.Settled (below.length + 1) := by
        rintro ⟨hdepth, -⟩
        rw [above.depth_eq] at hdepth
        omega
      obtain ⟨N', next', above'⟩ := above.next deep overlooks hstates next
      obtain ⟨L', settles', verdicts⟩ := ih above'
      exact ⟨L', .next unsettled' next' settles', verdicts⟩
    · obtain ⟨hM, hM'⟩ := above.frames_eq hdepth.symm
      obtain ⟨rfl, hsettled, N', next', settled', verdicts⟩ :=
        above.reads ho ho' hM hM' code hopen hphase next
      obtain ⟨rfl, rfl⟩ := settles.eq_of_settled hsettled
      exact ⟨N', .next (Machine.not_settled hM' hopen _) next' (.done settled'), verdicts⟩

/-- The frame in its first phase of an equality, with the phase that comes next. -/
def Frame.equating (f : Frame) (imm : Int64) (next : Nat) : Frame :=
  { f with progress := ⟨none, imm, 0, next, 2⟩ }

/-- The machine with which an equality begins. -/
theorem Machine.begin_stacked (ho : o.Equality) (hM : M.memory.view.frames = below ++ [f])
    (imm : Int64) : M.Stacked { M.memory.view with
      frames := below ++ [(f.equating imm 2).doing (.binary o)] } (M.begin (.binary o) imm) := by
  have begun := (M.stacked_self.onFrame hM fun f =>
    { f with progress := (Progress.start (.binary o) imm).complete }).2
  rcases ho with rfl | rfl <;> exact begun

/-- The machine with which an equality calls its metamethod. -/
def Machine.calling (M : Machine σ) (op : Op) (imm : Int64) : Machine σ :=
  (M.begin op imm).onFrames fun frames => frames.modifyLast fun f =>
    { f with progress := { f.progress with next := 1 } }

/-- Two equalities call their metamethod on machines that differ in their opcodes. -/
theorem Machine.calling_over (ho : o.Equality) (ho' : o'.Equality)
    (hM : M.memory.view.frames = below ++ [f]) (imm : Int64) (hstates : ∀ a, S a a) :
    (M.calling (.binary o) imm).Over (.doing below (f.equating imm 1) (.binary o) (.binary o') S)
      (M.calling (.binary o') imm) := by
  have hframes {o : BinaryOp} (ho : o.Equality) : (M.calling (.binary o) imm).memory.frames.toList
      = below ++ [(f.equating imm 1).doing (.binary o)] ++ [] := by
    have hbegin : (M.begin (.binary o) imm).memory.frames.toList = _ :=
      congrArg Layer.frames (M.begin_stacked ho hM imm).view
    rw [List.append_nil]
    exact Stack.toList_modifyLast hbegin _
  exact ⟨rfl, ⟨rfl, rfl, rfl, [], hframes ho, hframes ho'⟩, rfl, hstates M.state⟩

/-- **An equality ends at once**, if there is no metamethod to call. -/
theorem BinaryOp.Equality.ends (ho : o.Equality) (hM : M.memory.view.frames = below ++ [f])
    (hv : M.memory.view.values = kept ++ [x, y]) (room : f.privateBase ≤ kept.length)
    (imm : Int64) (host : Host σ) (hnone : M.heap.equalityMethod x y = none) :
    ∃ L, Exec.binaryOperator host o 0 (M.begin (.binary o) imm) = .ok () L ∧
      M.Stacked { M.memory.view with
        values := kept ++ [.bool (o.verdict (Operator.equals M.heap x y))]
        frames := below ++ [(f.equating imm 2).doing (.binary o)] } L := by
  have begun := M.begin_stacked ho hM imm
  have hoperate := ho.operate begun rfl hv room host
  rw [hnone] at hoperate
  obtain ⟨L, hL, stacked⟩ := begun.replaceTop (W := [x, y]) rfl hv room
    (.bool (o.verdict (Operator.equals M.heap x y)))
  exact ⟨L, hoperate.trans hL, stacked⟩

/-- **An equality calls its metamethod.** -/
theorem BinaryOp.Equality.calls (ho : o.Equality) (hM : M.memory.view.frames = below ++ [f])
    (hv : M.memory.view.values = kept ++ [x, y]) (room : f.privateBase ≤ kept.length)
    (imm : Int64)
    (host : Host σ) {method : Value} (hsome : M.heap.equalityMethod x y = some method) :
    Exec.binaryOperator host o 0 (M.begin (.binary o) imm)
      = (do Exec.invoke host method (← Exec.heightLess 2) (some 1) : Exec σ Unit)
        (M.calling (.binary o) imm) := by
  have begun := M.begin_stacked ho hM imm
  rw [ho.operate begun rfl hv room host, hsome]
  have hcontinue : (Exec.continueAt 1 : Exec σ Unit) (M.begin (.binary o) imm)
      = .ok () (M.calling (.binary o) imm) := Exec.modifyFrame_apply (begun.last_frame rfl) _
  exact Exec.bind_of_ok hcontinue

/-- **Two equalities, begun on one machine.**  If the one comes to its end then so does the other
one, and they say what they say of one value. -/
theorem Machine.Operates.beside (ho : o.Equality) (ho' : o'.Equality)
    (hM : M.memory.view.frames = below ++ [f]) (code : f.activity = .bytecode r context)
    (hstates : ∀ a, S a a)
    (overlooks : ∀ g, host.Overlooks (.doing below g (.binary o) (.binary o') S)) {imm : Int64}
    (h : M.Operates host o imm turns N) :
    ∃ N', M.Operates host o' imm turns N' ∧ Machine.Verdicts S o o' N N' := by
  obtain ⟨K, hK, settles⟩ := h
  have begun := M.begin_stacked ho hM imm
  obtain ⟨kept, x, y, hv, room⟩ := ho.operands (begun.last_frame rfl) hK
  have hv : M.memory.view.values = kept ++ [x, y] :=
    (congrArg Layer.values begun.view).symm.trans hv
  have hdepth : M.depth = below.length + 1 := by
    have hframes : M.memory.frames.toList = below ++ [f] := hM
    rw [Machine.depth, Stack.size_eq_length, hframes, List.length_append, List.length_singleton]
  unfold Machine.Operates
  rw [hdepth] at settles ⊢
  cases hmethod : M.heap.equalityMethod x y with
  | none =>
    obtain ⟨L, hL, stacked⟩ := ho.ends hM hv room imm host hmethod
    obtain ⟨L', hL', stacked'⟩ := ho'.ends hM hv room imm host hmethod
    rw [hK] at hL
    cases hL
    obtain ⟨rfl, rfl⟩ := settles.eq_of_settled (stacked.settled rfl rfl)
    have above := M.over_self (List.append_nil M.memory.view.frames).symm (hstates M.state)
    exact ⟨L', ⟨L', hL', .done (stacked'.settled rfl rfl)⟩, above.verdicts stacked stacked'⟩
  | some method =>
    have hcalls := ho.calls hM hv room imm host hmethod
    have hcalls' := ho'.calls hM hv room imm host hmethod
    have hboth := ((Along.heightLess 2).bind fun base =>
      Along.invoke (overlooks (f.equating imm 1)) method base (some 1)) _ _
        (M.calling_over ho ho' hM imm hstates) (Nat.zero_le _)
    rw [← hcalls, ← hcalls', hK] at hboth
    generalize hK' : Exec.binaryOperator host o' 0 (M.begin (.binary o') imm) = result at hboth
    cases hboth with
    | @ok _ _ K' above deep =>
      obtain ⟨N', settles', verdicts⟩ := settles.beside (g := f.equating imm 1) ho ho' code rfl
        Nat.one_ne_zero hstates (overlooks _) above
      exact ⟨N', ⟨K', rfl, settles'⟩, verdicts⟩

end

/-! ### The beginning of an instruction -/

/-- **A step that begins a binary operator** runs it where it begins. -/
theorem Operation.step_begin (s : Operation σ) (host : Host σ) {o : BinaryOp}
    (hop : s.op = .binary o) :
    Exec.step host s.machine = (do
      Exec.binaryOperator host o 0
      return none : Exec σ (Option Exit)) ((s.machine.goOn s.next).begin (.binary o) s.imm) := by
  rw [s.begins.step_eq host, hop]
  rfl

/-! ### Integers and texts -/

/-- The six comparisons. -/
def BinaryOp.Comparison (o : BinaryOp) : Prop := o ∈ [lss, gtr, leq, geq, equ, neq]

instance : DecidablePred BinaryOp.Comparison :=
  fun o => inferInstanceAs (Decidable (o ∈ [BinaryOp.lss, .gtr, .leq, .geq, .equ, .neq]))

/-- What a comparison says of operands of which one is less than the other one, or the two are
equal, or neither. -/
def BinaryOp.judge (less equal : Bool) : BinaryOp → Bool
  | lss => less
  | gtr => !less && !equal
  | leq => less || equal
  | geq => !less
  | equ => equal
  | neq => !equal
  | _ => false

theorem Value.truthy_bool (b : Bool) : (Value.bool b).truthy = b := by
  cases b <;> rfl

namespace Operator

/-- Two integers, or two texts. -/
inductive Ordered : Value → Value → Prop
  | ints (a b : Int64) : Ordered (.int a) (.int b)
  | texts (a b : String) : Ordered (.str a) (.str b)

/-- The comparison of two operands has the native result that is true. -/
def holds (h : Heap) (o : BinaryOp) (x y : Value) : Bool :=
  match Operator.binary h o x y with
  | .ok (some v) => v.truthy
  | _ => false

variable {h : Heap} {o : BinaryOp} {x y z : Value}

/-- Of two members of an order, one is less than the other one, or they are equal, and no two of
these. -/
theorem order_cases {α : Type} [LT α] [Std.Asymm fun a b : α => a < b]
    [Std.Trichotomous fun a b : α => a < b] (a b : α) :
    (a < b ∧ ¬ b < a ∧ a ≠ b) ∨ (¬ a < b ∧ ¬ b < a ∧ a = b) ∨
    (¬ a < b ∧ b < a ∧ a ≠ b) := by
  have asymm (a b : α) : a < b → ¬ b < a := Std.Asymm.asymm (r := fun a b : α => a < b) a b
  have irrefl (a : α) : ¬ a < a := fun h => asymm a a h h
  obtain h | rfl | h :=
    Std.Trichotomous.rel_or_eq_or_rel_swap (r := fun a b : α => a < b) (a := a) (b := b)
  · exact .inl ⟨h, asymm a b h, fun heq => irrefl a (heq ▸ h)⟩
  · exact .inr (.inl ⟨irrefl a, irrefl a, rfl⟩)
  · exact .inr (.inr ⟨asymm b a h, h, fun heq => irrefl a (heq ▸ h)⟩)

theorem binary_int (ho : o.Comparison) (h : Heap) (a b : Int64) :
    binary h o (.int a) (.int b) = .ok (some (.bool (o.judge (a < b) (a = b)))) := by
  simp only [BinaryOp.Comparison, List.mem_cons, List.not_mem_nil, or_false] at ho
  obtain ⟨hless, hmore, heq⟩ | ⟨hless, hmore, rfl⟩ | ⟨hless, hmore, heq⟩ :=
    order_cases a b
  all_goals
    rcases ho with rfl | rfl | rfl | rfl | rfl | rfl <;>
      simp only [binary, comparison, nativeOrder?, nativeEquals?, BinaryOp.judge, *] <;> rfl

theorem binary_str (ho : o.Comparison) (h : Heap) (a b : String) :
    binary h o (.str a) (.str b) = .ok (some (.bool (o.judge (a < b) (a = b)))) := by
  simp only [BinaryOp.Comparison, List.mem_cons, List.not_mem_nil, or_false] at ho
  obtain ⟨hless, hmore, heq⟩ | ⟨hless, hmore, rfl⟩ | ⟨hless, hmore, heq⟩ :=
    order_cases a b
  all_goals
    rcases ho with rfl | rfl | rfl | rfl | rfl | rfl <;>
      simp only [binary, comparison, nativeOrder?, nativeEquals?, BinaryOp.judge, *] <;> rfl

theorem holds_int (ho : o.Comparison) (h : Heap) (a b : Int64) :
    holds h o (.int a) (.int b) = o.judge (a < b) (a = b) := by
  rw [holds, binary_int ho]
  exact Value.truthy_bool _

theorem holds_str (ho : o.Comparison) (h : Heap) (a b : String) :
    holds h o (.str a) (.str b) = o.judge (a < b) (a = b) := by
  rw [holds, binary_str ho]
  exact Value.truthy_bool _

/-- Of two integers or two texts, every comparison has a native result. -/
theorem Ordered.binary (hxy : Ordered x y) (ho : o.Comparison) (h : Heap) :
    Operator.binary h o x y = .ok (some (.bool (holds h o x y))) := by
  cases hxy with
  | ints a b => rw [binary_int ho, holds_int ho]
  | texts a b => rw [binary_str ho, holds_str ho]

/-- **The six comparisons follow from one order.** -/
structure Coherent (h : Heap) (x y : Value) : Prop where
  gtr : holds h .gtr x y = holds h .lss y x
  geq : holds h .geq x y = holds h .leq y x
  trichotomy : [holds h .lss x y, holds h .equ x y, holds h .gtr x y].count true = 1
  leq : holds h .leq x y = (holds h .lss x y || holds h .equ x y)
  geq_lss : holds h .geq x y = !holds h .lss x y

theorem Coherent.of_order {α : Type} [LT α] [DecidableLT α] [DecidableEq α]
    [Std.Asymm fun a b : α => a < b] [Std.Trichotomous fun a b : α => a < b]
    {value : α → Value} (hholds : ∀ {o : BinaryOp}, o.Comparison → ∀ a b,
      holds h o (value a) (value b) = o.judge (a < b) (a = b)) (a b : α) :
    Coherent h (value a) (value b) := by
  obtain ⟨hless, hmore, hne⟩ | ⟨hless, hmore, rfl⟩ | ⟨hless, hmore, hne⟩ :=
    order_cases a b
  · constructor <;>
      simp (disch := decide) only [hholds, BinaryOp.judge, hless, hmore, hne, hne.symm] <;> rfl
  · constructor <;> simp (disch := decide) only [hholds, BinaryOp.judge, hless] <;> rfl
  · constructor <;>
      simp (disch := decide) only [hholds, BinaryOp.judge, hless, hmore, hne, hne.symm] <;> rfl

theorem Ordered.coherent (hxy : Ordered x y) (h : Heap) : Coherent h x y := by
  cases hxy with
  | ints a b => exact .of_order (fun ho => holds_int ho h) a b
  | texts a b => exact .of_order (fun ho => holds_str ho h) a b

theorem Ordered.lss_trans (hxy : Ordered x y) (hyz : Ordered y z) (h : Heap)
    (hless : holds h .lss x y = true) (hless' : holds h .lss y z = true) :
    holds h .lss x z = true := by
  have hlss : BinaryOp.lss.Comparison := .head _
  cases hxy with
  | ints a b =>
    cases hyz with
    | ints _ c =>
      simp only [holds_int hlss, BinaryOp.judge, decide_eq_true_eq] at *
      exact Int64.lt_trans hless hless'
  | texts a b =>
    cases hyz with
    | texts _ c =>
      simp only [holds_str hlss, BinaryOp.judge, decide_eq_true_eq] at *
      exact String.lt_trans hless hless'

end Operator

/-! ### Runs that can be computed -/

namespace Machine

theorem settled_iff {M : Machine σ} {depth : Nat} :
    M.Settled depth ↔
      M.depth = depth ∧ M.memory.frames.last?.any (fun f => f.progress.finished) = true := by
  rw [Option.any_eq_true]
  exact Iff.rfl

instance (M : Machine σ) (depth : Nat) : Decidable (M.Settled depth) :=
  decidable_of_iff _ settled_iff.symm

/-- The end of such a run, if it stays inside the coroutine and is not longer than that. -/
def settle? (host : Host σ) (depth : Nat) : Nat → Machine σ → Option (Machine σ)
  | 0, M => if M.Settled depth then some M else none
  | steps + 1, M =>
    if M.Settled depth then some M
    else match Exec.step host M with
      | .ok none N => settle? host depth steps N
      | _ => none

/-- The end of a binary operator, if it stays inside the coroutine and is not longer than that. -/
def operate? (host : Host σ) (o : BinaryOp) (steps : Nat) (M : Machine σ) : Option (Machine σ) :=
  match Exec.binaryOperator host o 0 (M.begin (.binary o) 0) with
  | .ok () K => K.settle? host M.depth steps
  | _ => none

theorem settles_of_settle? {host : Host σ} {depth steps : Nat} {M N : Machine σ}
    (h : M.settle? host depth steps = some N) : M.Settles host depth [] N := by
  induction steps generalizing M with
  | zero =>
    by_cases settled : M.Settled depth
    · rw [settle?, if_pos settled] at h
      cases h
      exact .done settled
    · rw [settle?, if_neg settled] at h
      cases h
  | succ steps ih =>
    by_cases settled : M.Settled depth
    · rw [settle?, if_pos settled] at h
      cases h
      exact .done settled
    · rw [settle?, if_neg settled] at h
      split at h
      · next L hstep => exact .next settled (Machine.next_of_ok hstep []) (ih h)
      · cases h

theorem operates_of_operate? {host : Host σ} {o : BinaryOp} {steps : Nat} {M N : Machine σ}
    (h : M.operate? host o steps = some N) : M.Operates host o 0 [] N := by
  unfold operate? at h
  split at h
  · next K hK => exact ⟨K, hK, settles_of_settle? h⟩
  · cases h

end Machine

/-! ### Coherence -/

/-- The host does not see which equality a frame is in the midst of. -/
def Host.SeesNoEquality (host : Host σ) (states : σ → σ → Prop) : Prop :=
  ∀ (below : List Frame) (f : Frame) (o o' : BinaryOp), o.Equality → o'.Equality →
    host.Overlooks (.doing below f (.binary o) (.binary o') states)

/-- A host made of scripts sees the functions and the addresses of frames. -/
theorem Scripted.Library.seesNoEquality (library : Library)
    (syscalls : Fin 8 → Option (List SyscallScript)) :
    (library.host syscalls).SeesNoEquality fun _ _ => True := by
  intro below f o o' _ _
  refine library.overlooks syscalls (fun h => ?_) fun _ _ => trivial
  simp only [Underlay.doing, List.map_append]
  rfl

/-- **The comparisons are coherent.**  Take any machine, the current frame of which runs a closure,
and what others do while control is away.  If one of `Equ` and `Neq` comes to its end, by whatever
way, then so does the other one; then they have pushed opposite booleans, and the heaps and the
stacks are the same, but for the opcode that the frame has just finished.  An instruction that is
one of the six comparisons pushes its native verdict, if it has two integers or two texts.  These
verdicts follow from one order: `Gtr` is `Lss` and `Geq` is `Leq` with the operands exchanged,
exactly one of `Lss`, `Equ` and `Gtr` holds, `Leq` is `Lss` or `Equ`, `Geq` is the negation of
`Lss`, and `Lss` is transitive. -/
theorem comparison_coherence {host : Host σ} {states : σ → σ → Prop}
    (hstates : ∀ a, states a a) (hsees : host.SeesNoEquality states) :
    (∀ (M : Machine σ) (below : List Frame) (f : Frame) (r : Ref .function)
      (context : Ref .context) (imm : Int64) (turns : List (Turn σ)),
      M.memory.view.frames = below ++ [f] → f.activity = .bytecode r context →
      ((∃ N, M.Operates host .equ imm turns N) ↔ ∃ N', M.Operates host .neq imm turns N') ∧
      ∀ N N', M.Operates host .equ imm turns N → M.Operates host .neq imm turns N' →
        Machine.Verdicts states .equ .neq N N') ∧
    (∀ (s : Operation σ) (o : BinaryOp), s.op = .binary o →
      Exec.step host s.machine = (do
        Exec.binaryOperator host o 0
        return none : Exec σ (Option Exit)) ((s.machine.goOn s.next).begin (.binary o) s.imm) ∧
      ∀ x y, s.operands = [x, y] → o.Comparison → Operator.Ordered x y →
        s.Ends host 0 [.bool (Operator.holds s.machine.heap o x y)] s.machine.heap s.machine) ∧
    ∀ (h : Heap) (x y : Value), Operator.Ordered x y → Operator.Coherent h x y ∧
      ∀ z, Operator.Ordered y z → Operator.holds h .lss x y = true →
        Operator.holds h .lss y z = true →
        Operator.holds h .lss x z = true := by
  have equ : BinaryOp.equ.Equality := .inl rfl
  have neq : BinaryOp.neq.Equality := .inr rfl
  refine ⟨?_, ?_, fun h x y hxy => ⟨hxy.coherent h, fun z hyz => hxy.lss_trans hyz h⟩⟩
  · intro M below f r context imm turns hM code
    have equal {N : Machine σ} (hN : M.Operates host .equ imm turns N) :
        ∃ N', M.Operates host .neq imm turns N' ∧ Machine.Verdicts states .equ .neq N N' :=
      hN.beside equ neq hM code hstates fun g => hsees below g _ _ equ neq
    refine ⟨⟨fun ⟨N, hN⟩ => ?_, fun ⟨N', hN'⟩ => ?_⟩, fun N N' hN hN' => ?_⟩
    · obtain ⟨N', hN', -⟩ := equal hN
      exact ⟨N', hN'⟩
    · obtain ⟨N, hN, -⟩ :=
        hN'.beside neq equ hM code hstates fun g => hsees below g _ _ neq equ
      exact ⟨N, hN⟩
    · obtain ⟨N'', hN'', verdicts⟩ := equal hN
      rwa [hN'.unique hN'']
  · intro s o hop
    refine ⟨s.step_begin host hop, fun x y hoperands ho hxy => ?_⟩
    exact s.binary_native host hop hoperands (hxy.binary ho s.machine.heap)

/-- A number and a table, the metamethod `__equ` of which says that they are equal: `Equ` and `Neq`
push opposite booleans. -/
theorem comparison_coherence_metamethod :
    let host :=
      Scripted.Library.host ⟨#[.constant [.bool false], .constant [.bool true]], #[], #[]⟩
      fun _ => some [.pushDelimiter 2]
    let M := Machine.comparing
    host.SeesNoEquality (fun _ _ => True) ∧
    ∃ N N', M.Operates host .equ 0 [] N ∧ M.Operates host .neq 0 [] N' ∧
      N.memory.view.values = [.nil, .bool true] ∧ N'.memory.view.values = [.nil, .bool false] ∧
      Machine.Verdicts (fun _ _ => True) .equ .neq N N' := by
  intro host M
  have hsees : host.SeesNoEquality fun _ _ => True := Scripted.Library.seesNoEquality _ _
  have hequ : (M.operate? host .equ 1).map (fun N => N.memory.view.values)
      = some [.nil, .bool true] := by
    decide +kernel
  have hneq : (M.operate? host .neq 1).map (fun N => N.memory.view.values)
      = some [.nil, .bool false] := by
    decide +kernel
  obtain ⟨N, hN, hvalues⟩ := Option.map_eq_some_iff.mp hequ
  obtain ⟨N', hN', hvalues'⟩ := Option.map_eq_some_iff.mp hneq
  have equal := Machine.operates_of_operate? hN
  have unequal := Machine.operates_of_operate? hN'
  have coherent :=
    (comparison_coherence (fun _ => trivial) hsees).1 M [] _ ⟨0⟩ ⟨0⟩ 0 [] rfl rfl
  exact ⟨hsees, N, N', equal, unequal, hvalues, hvalues', coherent.2 N N' equal unequal⟩

/-! ### A system call that looks at the opcode -/

/-- A host the system calls of which push whether the lowest frame is in the midst of `Neq`. -/
def Host.telling : Host Unit :=
  { Host.bare with
    syscall := fun _ => some fun _ memory s =>
      let negating := memory.frames.toList.head?.any fun f => f.progress.op = some (.binary .neq)
      ⟨{ memory with values := memory.values.push (.bool negating) }, s, none⟩ }

/-- A function that compares a table with a number (`0x31` loads it), and the metamethod `__equ` of
that table, which answers what a system call (`0xe0`) has pushed. -/
def CodeUnit.telling (o : BinaryOp) : CodeUnit := ⟨#[
  ⟨"comparing", #[(Op.loadConstant .newTable).byte, (Op.loadString .short).byte, 0,
    (Op.loadFunction .short).byte, 1, (Op.table .insert).byte, (Op.control .dup).byte,
    (Op.control .dup).byte, (Op.table .setMeta).byte, 0x31, (Op.binary o).byte,
    (Op.control .ret).byte], 0, []⟩,
  ⟨"asked", #[0xe0, (Op.control .ret).byte], 0, []⟩],
  #["__equ"], 0⟩

/-- Both `Equ` and `Neq` push false, from one state of a run; and so two functions that differ in
that opcode return the same. -/
theorem comparison_coherence_telling :
    (∃ (l : Vm.Live Unit) (N N' : Machine Unit), l.Arises .telling (fun _ _ _ => True) 0 ∧
      l.machine.Operates .telling .equ 0 [] N ∧ l.machine.Operates .telling .neq 0 [] N' ∧
      N.memory.view.values = [.bool false] ∧ N'.memory.view.values = [.bool false]) ∧
    ∀ o ∈ [BinaryOp.equ, .neq],
      Vm.values? (Vm.execute .telling 40 ⟨0⟩ [] (Vm.over (.telling o) ()))
        = some [.bool false] := by
  refine ⟨?_, by decide +kernel⟩
  let vm := Vm.over (.telling .equ) ()
  let compares := ((Vm.enter .telling [] { vm with active := [⟨0⟩] }).after .telling 0 8).live?
  obtain ⟨l, hl⟩ : ∃ l, compares = some l := Option.isSome_iff_exists.mp (by decide +kernel)
  have arises : l.Arises .telling (fun _ _ _ => True) 0 :=
    .of_enter (Vm.arises_over (u := .telling .equ) _ Nat.zero_lt_two fun _ _ => trivial)
      Nat.zero_lt_one (by simp) (Vm.Sequel.eq_live hl)
  have falsehood : ∀ o ∈ [BinaryOp.equ, .neq],
      (compares.bind fun l => (l.machine.operate? .telling o 3).map fun N => N.memory.view.values)
        = some [.bool false] := by
    decide +kernel
  rw [hl] at falsehood
  obtain ⟨N, hN, hvalues⟩ := Option.map_eq_some_iff.mp (falsehood .equ (.head _))
  obtain ⟨N', hN', hvalues'⟩ := Option.map_eq_some_iff.mp (falsehood .neq (.tail _ (.head _)))
  exact ⟨l, N, N', arises, Machine.operates_of_operate? hN, Machine.operates_of_operate? hN',
    hvalues, hvalues'⟩
end ScriptVm
