import ScriptVm.Machine.Exec

/-!
# Evaluating computations

How the elementary computations act on a given machine.  The rules of the monad
come first; with them, and with the lemmas about single computations, `simp`
runs a computation on a machine of which enough is known.
-/

namespace ScriptVm.Exec

variable {σ α β : Type}

/-! ### The monad -/

theorem bind_apply (x : Exec σ α) (f : α → Exec σ β) (M : Machine σ) :
    (x >>= f) M = match x M with
      | .ok a N => f a N
      | .error e N => .error e N := by
  cases h : x M <;> simp [bind, EStateM.bind, h]

theorem map_apply (g : α → β) (x : Exec σ α) (M : Machine σ) :
    (g <$> x) M = match x M with
      | .ok a N => .ok (g a) N
      | .error e N => .error e N := by
  cases h : x M <;> simp [Functor.map, EStateM.map, h]

theorem bind_of_ok {x : Exec σ α} {f : α → Exec σ β} {M N : Machine σ} {a : α}
    (h : x M = .ok a N) : (x >>= f) M = f a N := by
  rw [bind_apply, h]

theorem bind_of_error {x : Exec σ α} {f : α → Exec σ β} {M N : Machine σ} {e : Stop}
    (h : x M = .error e N) : (x >>= f) M = .error e N := by
  rw [bind_apply, h]

@[simp] theorem pure_apply (a : α) (M : Machine σ) : (pure a : Exec σ α) M = .ok a M := rfl

@[simp] theorem get_apply (M : Machine σ) : (get : Exec σ (Machine σ)) M = .ok M M := rfl

@[simp] theorem set_apply (M N : Machine σ) : (set N : Exec σ Unit) M = .ok () N := rfl

@[simp] theorem modify_apply (f : Machine σ → Machine σ) (M : Machine σ) :
    (modify f : Exec σ Unit) M = .ok () (f M) := rfl

@[simp] theorem fault_apply (f : Fault) (M : Machine σ) :
    (fault f : Exec σ α) M = .error (.fault f) M := rfl

@[simp] theorem defect_apply (d : Defect) (M : Machine σ) :
    (defect d : Exec σ α) M = .error (.defect d) M := rfl

@[simp] theorem heap_apply (M : Machine σ) : (heap : Exec σ Heap) M = .ok M.heap M := rfl

@[simp] theorem height_apply (M : Machine σ) :
    (height : Exec σ Nat) M = .ok M.memory.values.size M := rfl

/-! ### The current frame and its operands -/

section

variable {M : Machine σ} {f : Frame}

theorem frame_apply (hf : M.memory.frames.last? = some f) :
    (frame : Exec σ Frame) M = .ok f M := by
  simp [frame, bind_apply, hf]

theorem modifyFrame_apply (hf : M.memory.frames.last? = some f) (φ : Frame → Frame) :
    (modifyFrame φ : Exec σ Unit) M = .ok () (M.onFrames fun frames => frames.modifyLast φ) := by
  simp [modifyFrame, bind_apply, frame_apply hf]

/-- Popping an operand that is there. -/
theorem pop_apply (hf : M.memory.frames.last? = some f) {v : Value}
    (hlow : f.privateBase < M.memory.values.size) (hv : M.memory.values.last? = some v) :
    (pop : Exec σ Value) M = .ok v (M.onValues Stack.dropLast) := by
  simp [pop, bind_apply, map_apply, frame_apply hf, Nat.not_le.mpr hlow, hv]

/-- A frame cannot pop what lies below its operands. -/
theorem pop_underflow (hf : M.memory.frames.last? = some f)
    (hlow : M.memory.values.size ≤ f.privateBase) :
    (pop : Exec σ Value) M = .error (.fault .stackUnderflow) M := by
  simp [pop, bind_apply, frame_apply hf, hlow]

theorem peek_apply (hf : M.memory.frames.last? = some f) {offset : Nat} {v : Value}
    (hlow : f.privateBase + offset < M.memory.values.size)
    (hv : M.memory.values.toList.reverse[offset]? = some v) :
    (peek offset : Exec σ Value) M = .ok v M := by
  simp [peek, bind_apply, frame_apply hf, Nat.not_le.mpr hlow, Stack.top_eq, hv, ofDefect]

theorem peek_underflow (hf : M.memory.frames.last? = some f) {offset : Nat}
    (hlow : M.memory.values.size ≤ f.privateBase + offset) :
    (peek offset : Exec σ Value) M = .error (.fault .stackUnderflow) M := by
  simp [peek, bind_apply, frame_apply hf, hlow]

end

/-- Everything from a position of the stack upward can be taken. -/
theorem takeFrom_apply {M : Machine σ} {start : Nat} (h : start ≤ M.memory.values.size) :
    (takeFrom start : Exec σ (List Value)) M
      = .ok (M.memory.values.toList.drop start)
        (M.onValues fun values => values.truncate start) := by
  simp [takeFrom, bind_apply, map_apply, Stack.valuesFrom_eq, h, ofDefect]

/-! ### Delimiters -/

section

variable {M : Machine σ} {f : Frame}

theorem top_zero_of_getLast? {s : Stack α} {a : α} (h : s.toList.getLast? = some a) :
    s.top 0 = .ok a := by
  rw [Stack.top_eq, ← List.head?_eq_getElem?, List.head?_reverse, h]

/-- The innermost delimiter of a frame that has one. -/
theorem peekDelimiter_own (hf : M.memory.frames.last? = some f) {d : Nat}
    (hown : f.delimiterBase < M.memory.delimiters.size)
    (hd : M.memory.delimiters.toList.getLast? = some d) :
    (peekDelimiter : Exec σ Nat) M = checkDelimiter d M := by
  simp [peekDelimiter, ownsDelimiter, bind_apply, frame_apply hf, hown, ofDefect,
    top_zero_of_getLast? hd]

/-- A frame without a delimiter of its own falls back on the bottom of its operands. -/
theorem peekDelimiter_fallback (hf : M.memory.frames.last? = some f)
    (hown : M.memory.delimiters.size ≤ f.delimiterBase) :
    (peekDelimiter : Exec σ Nat) M = checkDelimiter f.privateBase M := by
  simp [peekDelimiter, ownsDelimiter, bind_apply, frame_apply hf, Nat.not_lt.mpr hown]

theorem popDelimiter_own (hf : M.memory.frames.last? = some f) {d : Nat}
    (hown : f.delimiterBase < M.memory.delimiters.size)
    (hd : M.memory.delimiters.toList.getLast? = some d) :
    (popDelimiter : Exec σ Nat) M = checkDelimiter d (M.onDelimiters Stack.dropLast) := by
  simp [popDelimiter, ownsDelimiter, bind_apply, frame_apply hf, hown, ofDefect,
    top_zero_of_getLast? hd]

theorem popDelimiter_fallback (hf : M.memory.frames.last? = some f)
    (hown : M.memory.delimiters.size ≤ f.delimiterBase) :
    (popDelimiter : Exec σ Nat) M = checkDelimiter f.privateBase M := by
  simp [popDelimiter, ownsDelimiter, bind_apply, frame_apply hf, Nat.not_lt.mpr hown]

end

/-! ### Shaping -/

/-- A stack cut off or filled up to a height. -/
def fitTo (goal : Nat) (values : Stack Value) : Stack Value :=
  if goal < values.size then values.truncate goal else values.fillTo goal

theorem shape_apply {sizes : Sizes} {base size goal : Nat} (h : sizes.add base size = .ok goal)
    (M : Machine σ) : shape sizes base (some size) M = .ok () (M.onValues (fitTo goal)) := by
  by_cases hgoal : goal < M.memory.values.size
  · simp [shape, bind_apply, h, ofDefect, hgoal, Machine.onValues, fitTo]
  · simp [shape, bind_apply, h, ofDefect, hgoal, Machine.onValues, fitTo]

theorem shape_limit {sizes : Sizes} {base size : Nat} {d : Defect}
    (h : sizes.add base size = .error d) (M : Machine σ) :
    shape sizes base (some size) M = .error (.defect d) M := by
  simp [shape, bind_apply, h, ofDefect]

end ScriptVm.Exec
