import ScriptVm.Proofs.CallContract

/-!
# Operations

An operator instruction takes its operands off the stack and leaves its result.
It may do so at once.  If it has no native value for its operands, it hands them
to a metamethod, which is a call like any other: it may push a frame, run for
long, and be away.  When the call is done, the instruction is entered again at
its next phase and settles what came of it.

An **operation** is such an instruction about to begin.  It *ends* in a step that
puts the result in the place of the operands, and it *asks* a metamethod in a step
that calls it, from where the call leads on to what is done with its results.

Main statements: `Operation.first_phase` (how the instruction begins) and
`Operation.asks` (how it goes on when a metamethod is done).
-/

namespace ScriptVm

variable {σ : Type}

/-- A call of a metamethod with the uppermost values. -/
theorem Machine.Stacked.callMethod {M N : Machine σ} {c : Layer} (h : M.Stacked c N)
    {fs : List Frame}
    {f : Frame} (hf : c.frames = fs ++ [f]) {V W : List Value} (hv : c.values = V ++ W)
    (host : Host σ) (method : Value) (count phase : Nat) :
    ∃ P,
      M.Stacked { c with
        frames := fs ++ [{ f with progress := { f.progress with next := phase } }] } P ∧
      Exec.callMethod host method W.length count phase N
        = Exec.invoke host method V.length (some count) P := by
  obtain ⟨P, hP, hs⟩ := h.modifyFrame hf fun f =>
    { f with progress := { f.progress with next := phase } }
  have hbase : Exec.heightLess W.length P = .ok V.length P := hs.heightLess hv
  refine ⟨P, hs, ?_⟩
  rw [Exec.callMethod, Exec.continueAt, Exec.bind_of_ok hP, Exec.bind_of_ok hbase]

/-- **An operator instruction about to begin**, with its operands on top of the values to be
kept. -/
structure Operation (σ : Type) where
  machine : Machine σ
  /-- The frames below the current one. -/
  below : List Frame
  frame : Frame
  function : Ref .function
  context : Ref .context
  op : Op
  imm : Int64
  /-- The address behind the instruction. -/
  next : Nat
  /-- The values below the operands. -/
  kept : List Value
  operands : List Value
  begins : machine.At below frame function context op imm next
  values : machine.memory.view.values = kept ++ operands
  room : frame.privateBase ≤ kept.length

namespace Operation

/-- The current frame when a phase of the instruction has run and the given one is next. -/
def frameAt (s : Operation σ) (phase after : Nat) : Frame :=
  { s.frame with
    ip := s.frame.nextIp
    nextIp := s.next
    progress := ⟨some s.op, s.imm, phase, after, s.op.phaseCount⟩ }

/-- The stacks at the beginning, with other values in place of the operands. -/
def layer (s : Operation σ) (phase after : Nat) (vs : List Value) : Layer :=
  { s.machine.memory.view with
    values := s.kept ++ vs
    frames := s.below ++ [s.frameAt phase after] }

/-- **The instruction ends** with the next step of `N`, which leaves the heap as given.  There are
the values `vs` in place of the operands, the frame is finished with the instruction, and nothing
else on the stacks has changed since the beginning. -/
def Ends (host : Host σ) (s : Operation σ) (phase : Nat) (vs : List Value) (heap : Heap)
    (N : Machine σ) : Prop :=
  ∃ L, Exec.step host N = .ok none L ∧
    { N with heap }.Stacked (s.layer phase s.op.phaseCount vs) L

/-- **The instruction asks a metamethod** with the next step of `N`: this calls `method` with the
arguments `args`, which lie on copies of the operands, if any.  When the call has completed with the
results `R` at a machine `L`, things go on as `onward R L` says. -/
def Asks (host : Host σ) (s : Operation σ) (phase : Nat) (method : Value)
    (copies args : List Value)
    (count : Nat) (onward : List Value → Machine σ → Prop) (N : Machine σ) : Prop :=
  ∃ P, N.Stacked (s.layer phase (phase + 1) (copies ++ args)) P ∧
    Exec.step host N = (do
      Exec.invoke host method (s.kept ++ copies).length (some count)
      return none : Exec σ (Option Exit)) P ∧
    ∀ (trace : List (Machine σ)) (results : Option (List Value)) (L : Machine σ),
      P.Completes host method (s.kept ++ copies).length (some count) trace results L →
      ∃ R, results = some R ∧ onward R L

/-- The instruction ends in a fault. -/
def Faults (host : Host σ) (f : Fault) (N : Machine σ) : Prop :=
  ∃ L, Exec.step host N = .error (.fault f) L

variable {host : Host σ} {s : Operation σ} {phase after : Nat} {N L : Machine σ}
  {U V W : List Value} {v : Value}

/-! ### The operands -/

/-- `L` is `N` in the midst of the instruction, with the values `vs` in place of the operands. -/
abbrev Holds (s : Operation σ) (phase after : Nat) (vs : List Value) (N L : Machine σ) : Prop :=
  N.Stacked (s.layer phase after vs) L

namespace Holds

theorem room_append (s : Operation σ) (U : List Value) :
    s.frame.privateBase ≤ (s.kept ++ U).length := by
  have := s.room
  rw [List.length_append]
  omega

theorem peek (h : s.Holds phase after (U ++ v :: W) N L) :
    (Exec.peek W.length : Exec σ Value) L = .ok v L :=
  Machine.Stacked.peek h rfl (List.append_assoc ..).symm (room_append s U)

theorem pop (h : s.Holds phase after (U ++ [v]) N L) :
    ∃ K, (Exec.pop : Exec σ Value) L = .ok v K ∧ s.Holds phase after U N K :=
  Machine.Stacked.pop h rfl (List.append_assoc ..).symm (room_append s U)

theorem push (h : s.Holds phase after V N L) (v : Value) :
    ∃ K, (Exec.push v : Exec σ Unit) L = .ok () K ∧ s.Holds phase after (V ++ [v]) N K := by
  have hpush := Machine.Stacked.push h v
  simp only [layer, List.append_assoc] at hpush
  exact hpush

theorem replaceTop (h : s.Holds phase after V N L) (v : Value) :
    ∃ K, (Exec.replaceTop V.length v : Exec σ Unit) L = .ok () K ∧
      s.Holds phase after [v] N K :=
  Machine.Stacked.replaceTop h rfl rfl s.room v

theorem overwriteTop (h : s.Holds phase after V N L) (hlen : W.length = V.length) :
    ∃ K, (Exec.overwriteTop W : Exec σ Unit) L = .ok () K ∧ s.Holds phase after W N K :=
  Machine.Stacked.overwriteTop h rfl hlen

/-- A call of a metamethod with the uppermost values. -/
theorem callMethod (h : s.Holds phase after (U ++ W) N L) (host : Host σ) (method : Value)
    (count phase' : Nat) :
    ∃ P, s.Holds phase phase' (U ++ W) N P ∧
      Exec.callMethod host method W.length count phase' L
        = Exec.invoke host method (s.kept ++ U).length (some count) P :=
  Machine.Stacked.callMethod h rfl (List.append_assoc ..).symm host method count phase'

end Holds

/-! ### Phases -/

/-- The first phase of the instruction. -/
theorem first_phase (s : Operation σ) (host : Host σ) :
    ∃ L, Exec.step host s.machine = Exec.execute host s.function s.context s.op s.imm 0 L ∧
      s.Holds 0 s.op.phaseCount s.operands s.machine L := by
  obtain ⟨L, hstep, hL⟩ := s.begins.step host
  refine ⟨L, hstep, { hL with view := ?_ }⟩
  rw [hL.view, layer, ← s.values]
  rfl

/-- A step that ends the instruction. -/
theorem ends {x : Exec σ Unit} {K : Machine σ}
    (hstep : Exec.step host N = (do
      x
      return none : Exec σ (Option Exit)) L) (hx : x L = .ok () K)
    (hK : s.Holds phase s.op.phaseCount V N K) : s.Ends host phase V N.heap N := by
  refine ⟨K, ?_, hK⟩
  rw [hstep, Exec.bind_of_ok hx]
  rfl

/-- A step that ends in a fault. -/
theorem faults {x : Exec σ Unit} {f : Fault} {K : Machine σ}
    (hstep : Exec.step host N = (do
      x
      return none : Exec σ (Option Exit)) L) (hx : x L = .error (.fault f) K) :
    Faults host f N :=
  ⟨K, by rw [hstep, Exec.bind_of_error hx]⟩

/-- **When the call of a metamethod is done**, its results lie in place of the arguments. -/
theorem Holds.completed {method : Value} {count : Nat} {P K : Machine σ}
    (hP : s.Holds phase after (U ++ W) N P) {trace : List (Machine σ)}
    {results : Option (List Value)}
    (hcompletes : P.Completes host method (s.kept ++ U).length (some count) trace results K)
    (behaves : ∀ K ∈ trace, K.Behaves host) :
    ∃ R, results = some R ∧
      K.memory.view = s.layer phase after (U ++ shaped (some count) R) := by
  obtain ⟨R, hR, on, -⟩ := hcompletes.spec behaves
  refine ⟨R, hR, ?_⟩
  rw [show K.memory.view = _ from on, Layer.pile_bare, Layer.cut, hP.view]
  simp only [layer, ← List.append_assoc, List.take_left]

/-- The instruction is unfinished as long as there is another phase. -/
theorem unfinished (s : Operation σ) (hphase : phase + 1 < s.op.phaseCount) :
    (s.frameAt phase (phase + 1)).progress.finished = false :=
  decide_eq_false (Nat.not_le.mpr hphase)

/-- **A step that asks a metamethod.**  When the call is done, the instruction is entered again at
its next phase, with the results in place of the arguments. -/
theorem asks (hsyscall : ∀ i, host.syscall i = none) {x : Exec σ Unit} {method : Value}
    {count : Nat} {onward : List Value → Machine σ → Prop} {P : Machine σ}
    (hstep : Exec.step host N = (do
      x
      return none : Exec σ (Option Exit)) L)
    (hx : x L = Exec.invoke host method (s.kept ++ U).length (some count) P)
    (hP : s.Holds phase (phase + 1) (U ++ W) N P) (hphase : phase + 1 < s.op.phaseCount)
    (honward : ∀ (R : List Value) (K K' : Machine σ),
      Exec.step host K = Exec.execute host s.function s.context s.op s.imm (phase + 1) K' →
      s.Holds (phase + 1) s.op.phaseCount (U ++ shaped (some count) R) K K' → onward R K) :
    s.Asks host phase method U W count onward N := by
  refine ⟨P, hP, ?_, ?_⟩
  · rw [hstep, Exec.bind_apply, hx, Exec.bind_apply]
  · intro trace results K hcompletes
    obtain ⟨R, hR, hview⟩ := hP.completed hcompletes fun K _ => .of_none hsyscall K
    obtain ⟨K', hagain, hK'⟩ := Machine.Stacked.step_again (f := s.frameAt phase (phase + 1))
      (hview ▸ K.stacked_self) rfl s.begins.code rfl (s.unfinished hphase) host
    exact ⟨R, hR, honward R K K' hagain hK'⟩

/-- An instruction that takes the results of its metamethod as they are. -/
theorem asks_and_ends (hsyscall : ∀ i, host.syscall i = none) {x : Exec σ Unit} {method : Value}
    {count : Nat} {P : Machine σ}
    (hstep : Exec.step host N = (do
      x
      return none : Exec σ (Option Exit)) L)
    (hx : x L = Exec.invoke host method (s.kept ++ []).length (some count) P)
    (hP : s.Holds 0 1 W N P) (hphases : s.op.phaseCount = 2)
    (hlast : Exec.execute host s.function s.context s.op s.imm 1 = pure none) :
    s.Asks host 0 method [] W count
      (fun R L => s.Ends host 1 (shaped (some count) R) L.heap L) N := by
  refine asks hsyscall hstep hx hP (by omega) fun R K K' hagain hK' => ⟨K', ?_, hK'⟩
  rw [hagain, hlast]
  rfl

end Operation

end ScriptVm
