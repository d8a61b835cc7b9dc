import ScriptVm.Proofs.Advance
import ScriptVm.Proofs.Layer

/-!
# Instructions on given stacks

A machine is known by its heap, its configuration, the state of its host and the
slots on its stacks; the capacities of the stacks make no difference.  So
`M.Stacked c N` says that `N` is the machine `M` with the slots `c`, and the
elementary computations are run on such machines.

A step begins an instruction (`Machine.At`), or enters one again at a later phase
when the metamethod it has called is done.

Main statements: `Machine.At.fetch`, `Machine.At.step` and `Machine.Stacked.step_again`.
-/

namespace ScriptVm

variable {σ : Type}

namespace Machine

/-- `N` is the machine `M` with the slots `c` on its stacks. -/
structure Stacked (M : Machine σ) (c : Layer) (N : Machine σ) : Prop where
  view : N.memory.view = c
  heap : N.heap = M.heap
  config : N.config = M.config
  state : N.state = M.state

theorem stacked_self (M : Machine σ) : M.Stacked M.memory.view M :=
  ⟨rfl, rfl, rfl, rfl⟩

theorem view_onValues (M : Machine σ) (φ : Stack Value → Stack Value) :
    (M.onValues φ).memory.view = { M.memory.view with values := (φ M.memory.values).toList } :=
  rfl

/-- A machine with more values. -/
theorem view_pushAll (M : Machine σ) (vs : List Value) :
    (M.onValues fun values => values.pushAll vs).memory.view = M.memory.view.pile (.bare vs) := by
  rw [view_onValues, Layer.pile_bare, Stack.toList_pushAll]
  rfl

namespace Stacked

variable {M N : Machine σ} {c : Layer} {fs : List Frame} {f : Frame} {V W : List Value} {v : Value}

theorem onValues (h : M.Stacked c N) {φ : Stack Value → Stack Value} {vs : List Value}
    (hφ : (φ N.memory.values).toList = vs) : M.Stacked { c with values := vs } (N.onValues φ) :=
  { h with view := by rw [view_onValues, h.view, hφ] }

theorem values (h : M.Stacked c N) : N.memory.values.toList = c.values :=
  congrArg Layer.values h.view

theorem delimiters (h : M.Stacked c N) : N.memory.delimiters.toList = c.delimiters :=
  congrArg Layer.delimiters h.view

theorem height (h : M.Stacked c N) : N.memory.values.size = c.values.length := by
  rw [Stack.size_eq_length, h.values]

theorem last_frame (h : M.Stacked c N) (hf : c.frames = fs ++ [f]) :
    N.memory.frames.last? = some f := by
  have hframes : N.memory.frames.toList = c.frames := congrArg Layer.frames h.view
  exact Stack.last?_of_toList (hframes.trans hf)

theorem frame (h : M.Stacked c N) (hf : c.frames = fs ++ [f]) :
    (Exec.frame : Exec σ Frame) N = .ok f N :=
  Exec.frame_apply (h.last_frame hf)

/-- The current frame is changed. -/
theorem onFrame (h : M.Stacked c N) (hf : c.frames = fs ++ [f]) (φ : Frame → Frame) :
    (Exec.modifyFrame φ : Exec σ Unit) N = .ok ()
    (N.onFrames fun frames => frames.modifyLast φ) ∧
      M.Stacked { c with
        frames := fs ++ [φ f] } (N.onFrames fun frames => frames.modifyLast φ) := by
  refine ⟨Exec.modifyFrame_apply (h.last_frame hf) φ, { h with view := ?_ }⟩
  have hframes : N.memory.frames.toList = fs ++ [f] := (congrArg Layer.frames h.view).trans hf
  rw [← h.view]
  exact congrArg (fun frames => { N.memory.view with frames }) (Stack.toList_modifyLast hframes φ)

theorem modifyFrame (h : M.Stacked c N) (hf : c.frames = fs ++ [f]) (φ : Frame → Frame) :
    ∃ L, (Exec.modifyFrame φ : Exec σ Unit) N = .ok () L ∧
      M.Stacked { c with frames := fs ++ [φ f] } L :=
  ⟨_, h.onFrame hf φ⟩

/-! ### Operands -/

theorem peek (h : M.Stacked c N) (hf : c.frames = fs ++ [f]) (hv : c.values = V ++ v :: W)
    (hlow : f.privateBase ≤ V.length) : (Exec.peek W.length : Exec σ Value) N = .ok v N := by
  refine Exec.peek_apply (h.last_frame hf) ?_ ?_
  · rw [h.height, hv]
    simp only [List.length_append, List.length_cons]
    omega
  · rw [h.values, hv]
    simp

theorem pop (h : M.Stacked c N) (hf : c.frames = fs ++ [f]) (hv : c.values = V ++ [v])
    (hlow : f.privateBase ≤ V.length) :
    ∃ L, (Exec.pop : Exec σ Value) N = .ok v L ∧ M.Stacked { c with values := V } L := by
  refine ⟨_, Exec.pop_apply (h.last_frame hf) ?_ ?_, h.onValues ?_⟩
  · rw [h.height, hv]
    simp only [List.length_append, List.length_singleton]
    omega
  · exact Stack.last?_of_toList (h.values.trans hv)
  · rw [Stack.toList_dropLast, h.values, hv, List.dropLast_concat]

theorem push (h : M.Stacked c N) (v : Value) :
    ∃ L, (Exec.push v : Exec σ Unit) N = .ok () L ∧
      M.Stacked { c with values := c.values ++ [v] } L :=
  ⟨_, rfl, h.onValues (by rw [Stack.toList_push, h.values])⟩

/-- Popping as many operands as there are in `W`. -/
theorem popMany (h : M.Stacked c N) (hf : c.frames = fs ++ [f]) (hv : c.values = V ++ W)
    (hlow : f.privateBase ≤ V.length) :
    ∃ L, (Exec.popMany W.length : Exec σ Unit) N = .ok () L ∧
      M.Stacked { c with values := V } L := by
  generalize hn : W.length = n
  induction n generalizing N c W with
  | zero =>
    rw [List.eq_nil_of_length_eq_zero hn, List.append_nil] at hv
    exact ⟨N, rfl, hv ▸ h⟩
  | succ n ih =>
    have hne : W ≠ [] := by
      intro hnil
      simp [hnil] at hn
    have hW : W = W.dropLast ++ [W.getLast hne] := (List.dropLast_concat_getLast hne).symm
    rw [hW, ← List.append_assoc] at hv
    obtain ⟨K, hpop, hK⟩ := h.pop hf hv (by rw [List.length_append]; omega)
    obtain ⟨L, hL, hs⟩ := ih hK hf rfl (by simp [hn])
    exact ⟨L, by rw [Exec.popMany, Exec.bind_of_ok hpop, hL], hs⟩

/-- A value in place of the uppermost operands. -/
theorem replaceTop (h : M.Stacked c N) (hf : c.frames = fs ++ [f]) (hv : c.values = V ++ W)
    (hlow : f.privateBase ≤ V.length) (v : Value) :
    ∃ L, (Exec.replaceTop W.length v : Exec σ Unit) N = .ok () L ∧
      M.Stacked { c with values := V ++ [v] } L := by
  obtain ⟨K, hpop, hK⟩ := h.popMany hf hv hlow
  obtain ⟨L, hpush, hL⟩ := hK.push v
  exact ⟨L, by rw [Exec.replaceTop, Exec.bind_of_ok hpop, hpush], hL⟩

theorem heightLess (h : M.Stacked c N) (hv : c.values = V ++ W) :
    (Exec.heightLess W.length : Exec σ Nat) N = .ok V.length N := by
  have hheight : N.memory.values.size = V.length + W.length := by
    rw [h.height, hv, List.length_append]
  simp [Exec.heightLess, Exec.bind_apply, hheight]

/-- Other values over the uppermost operands. -/
theorem overwriteTop (h : M.Stacked c N) (hv : c.values = V ++ W) {vs : List Value}
    (hlen : vs.length = W.length) :
    ∃ L, (Exec.overwriteTop vs : Exec σ Unit) N = .ok () L ∧
      M.Stacked { c with values := V ++ vs } L := by
  refine ⟨_, ?_, h.onValues (φ := fun values => (values.truncate V.length).pushAll vs) ?_⟩
  · rw [Exec.overwriteTop, hlen, Exec.bind_of_ok (h.heightLess hv)]
    rfl
  · rw [Stack.toList_pushAll, Stack.toList_truncate, h.values, hv, List.take_left]

/-! ### Delimiters -/

/-- The innermost delimiter of the current frame, with its run still in place. -/
theorem peekDelimiter (h : M.Stacked c N) (hf : c.frames = fs ++ [f]) {ds : List Nat} {d : Nat}
    (hd : c.delimiters = ds ++ [d]) (hown : f.delimiterBase ≤ ds.length)
    (hrun : d ≤ c.values.length) : (Exec.peekDelimiter : Exec σ Nat) N = .ok d N := by
  rw [Exec.peekDelimiter_own (d := d) (h.last_frame hf)]
  · simp [Exec.checkDelimiter, Exec.bind_apply, h.height, Nat.not_lt.mpr hrun]
  · rw [Stack.size_eq_length, h.delimiters, hd, List.length_append]
    exact Nat.lt_succ_of_le hown
  · rw [h.delimiters, hd, List.getLast?_concat]

theorem popDelimiter (h : M.Stacked c N) (hf : c.frames = fs ++ [f]) {ds : List Nat} {d : Nat}
    (hd : c.delimiters = ds ++ [d]) (hown : f.delimiterBase ≤ ds.length)
    (hrun : d ≤ c.values.length) :
    ∃ L, (Exec.popDelimiter : Exec σ Nat) N = .ok d L ∧
      M.Stacked { c with delimiters := ds } L := by
  refine ⟨N.onDelimiters Stack.dropLast, ?_, { h with view := ?_ }⟩
  · rw [Exec.popDelimiter_own (d := d) (h.last_frame hf)]
    · have hheight : (N.onDelimiters Stack.dropLast).memory.values.size = c.values.length :=
        h.height
      simp [Exec.checkDelimiter, Exec.bind_apply, hheight, Nat.not_lt.mpr hrun]
    · rw [Stack.size_eq_length, h.delimiters, hd, List.length_append]
      exact Nat.lt_succ_of_le hown
    · rw [h.delimiters, hd, List.getLast?_concat]
  · have hdrop : N.memory.delimiters.dropLast.toList = ds := by
      rw [Stack.toList_dropLast, h.delimiters, hd, List.dropLast_concat]
    rw [← h.view]
    exact congrArg (fun delimiters => { N.memory.view with delimiters }) hdrop

/-! ### Runs of values -/

/-- Taking every value from a position upward. -/
theorem takeFrom (h : M.Stacked c N) (hv : c.values = V ++ W) :
    ∃ L, (Exec.takeFrom V.length : Exec σ (List Value)) N = .ok W L ∧
      M.Stacked { c with values := V } L := by
  refine ⟨N.onValues fun values => values.truncate V.length, ?_, h.onValues ?_⟩
  · have hle : V.length ≤ N.memory.values.size := by
      rw [h.height, hv, List.length_append]
      exact Nat.le_add_right _ _
    rw [Exec.takeFrom_apply hle, h.values, hv, List.drop_left]
  · rw [Stack.toList_truncate, h.values, hv, List.take_left]

/-! ### Steps -/

/-- **A step that enters an instruction again** at its next phase. -/
theorem step_again (h : M.Stacked c N) (hf : c.frames = fs ++ [f]) {r : Ref .function}
    {context : Ref .context} (code : f.activity = .bytecode r context) {op : Op}
    (hop : f.progress.op = some op) (hopen : f.progress.finished = false) (host : Host σ) :
    ∃ L, Exec.step host N = Exec.execute host r context op f.progress.imm f.progress.next L ∧
      M.Stacked { c with frames := fs ++ [{ f with progress := f.progress.advance }] } L := by
  obtain ⟨L, hL, hs⟩ := h.modifyFrame hf fun f => { f with progress := f.progress.advance }
  refine ⟨L, ?_, hs⟩
  have hfetch : Exec.fetch r N = .ok (op, f.progress.imm, f.progress.next) L := by
    rw [Exec.fetch, Exec.bind_of_ok (h.frame hf)]
    simp only [hopen, Bool.false_eq_true, if_false]
    rw [Exec.bind_of_ok hL, hop]
    rfl
  rw [Exec.step, Exec.bind_of_ok (Exec.get_apply N), h.last_frame hf]
  simp only [code]
  rw [Exec.bind_of_ok hfetch]

end Stacked

/-- The frame that has begun the instruction behind its last one, and counts as finished with it. -/
def begun (f : Frame) (op : Op) (imm : Int64) (next : Nat) : Frame :=
  { f with ip := f.nextIp, nextIp := next, progress := (Progress.start op imm).complete }

/-- **A machine about to begin an instruction**: the current frame `f`, with `fs` below it, runs a
closure, is finished with its last instruction and finds this one in its code. -/
structure At (M : Machine σ) (fs : List Frame) (f : Frame) (r : Ref .function)
    (context : Ref .context) (op : Op) (imm : Int64) (next : Nat) : Prop where
  frames : M.memory.view.frames = fs ++ [f]
  code : f.activity = .bytecode r context
  finished : f.progress.finished = true
  decodes : ∃ byte, Instruction.decode (M.heap.prototype r).code f.nextIp
    = .ok { byte, op := some op, imm, onStack := false, next }

/-- The machine whose current frame has gone on to its next instruction, which ends at an
address. -/
def goOn (M : Machine σ) (next : Nat) : Machine σ :=
  (M.onFrames fun frames => frames.modifyLast fun f => { f with ip := f.nextIp }).onFrames
    fun frames => frames.modifyLast fun f => { f with nextIp := next }

/-- The machine at the beginning of an instruction. -/
def begin (M : Machine σ) (op : Op) (imm : Int64) : Machine σ :=
  M.onFrames fun frames => frames.modifyLast fun f =>
    { f with progress := (Progress.start op imm).complete }

namespace At

variable {M : Machine σ} {fs : List Frame} {f : Frame} {r : Ref .function} {context : Ref .context}
  {op : Op} {imm : Int64} {next : Nat}

/-- **A machine fetches the instruction** that it is about to begin. -/
theorem fetch_eq (h : M.At fs f r context op imm next) :
    Exec.fetch r M = .ok (op, imm, 0) ((M.goOn next).begin op imm) ∧
      M.Stacked { M.memory.view with frames := fs ++ [begun f op imm next] }
        ((M.goOn next).begin op imm) := by
  obtain ⟨byte, hdecode⟩ := h.decodes
  have h₀ := M.stacked_self
  obtain ⟨hL₁, h₁⟩ := h₀.onFrame h.frames fun f => { f with ip := f.nextIp }
  obtain ⟨hL₂, h₂⟩ := h₁.onFrame rfl fun f => { f with nextIp := next }
  obtain ⟨hL₃, h₃⟩ :=
    h₂.onFrame rfl fun f => { f with progress := (Progress.start op imm).complete }
  refine ⟨?_, h₃⟩
  have hnext : Exec.fetchNext r M = .ok (op, imm, 0) ((M.goOn next).begin op imm) := by
    rw [Exec.fetchNext, Exec.bind_of_ok hL₁, Exec.bind_of_ok (h₁.frame rfl),
      Exec.bind_of_ok (Exec.heap_apply _), h₁.heap]
    simp only [hdecode, Exec.ofFault]
    rw [Exec.bind_of_ok (Exec.pure_apply _ _), Exec.bind_of_ok hL₂]
    simp only [Bool.false_eq_true, if_false]
    rw [Exec.bind_of_ok (Exec.pure_apply _ _), Exec.bind_of_ok hL₃]
    rfl
  rw [Exec.fetch, Exec.bind_of_ok (h₀.frame h.frames)]
  simp only [h.finished, if_true]
  exact hnext

theorem fetch (h : M.At fs f r context op imm next) :
    ∃ L, Exec.fetch r M = .ok (op, imm, 0) L ∧
      M.Stacked { M.memory.view with frames := fs ++ [begun f op imm next] } L :=
  ⟨_, h.fetch_eq⟩

/-- **A step that begins an instruction** runs its first phase. -/
theorem step_eq (h : M.At fs f r context op imm next) (host : Host σ) :
    Exec.step host M = Exec.execute host r context op imm 0 ((M.goOn next).begin op imm) := by
  rw [Exec.step, Exec.bind_of_ok (Exec.get_apply M), M.stacked_self.last_frame h.frames]
  simp only [h.code]
  rw [Exec.bind_of_ok h.fetch_eq.1]

theorem step (h : M.At fs f r context op imm next) (host : Host σ) :
    ∃ L, Exec.step host M = Exec.execute host r context op imm 0 L ∧
      M.Stacked { M.memory.view with frames := fs ++ [begun f op imm next] } L :=
  ⟨_, h.step_eq host, h.fetch_eq.2⟩

end At

end Machine

end ScriptVm
