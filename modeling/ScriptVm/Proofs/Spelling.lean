import ScriptVm.Machine.Step
import ScriptVm.Proofs.Tracks

/-!
# Two spellings of one code

An opcode can be written in several forms, and the forms take different numbers of
bytes.  So one list of instructions has several **spellings**: their instructions
stand at different addresses, and a branch carries different distances in them.

Two codes are compared with the addresses of the one set beside addresses of the
other.  They are twins if at addresses beside each other there are instructions
that do the same, that end at such addresses again and that lead to such addresses
if they jump.

What an instruction does is told by its opcode in its longest form and by the
immediate it is executed with (`Word.plain`); where a jump leads is left out of
that.

Main statements: `Exec.execute_of_alike` (words that mean the same are executed
alike) and `CodeUnit.Twin.refl` (every unit is a spelling of itself).
-/

namespace ScriptVm

variable {σ α β : Type}

/-! ### Answers -/

/-- Two answers with one fault, or with matching results. -/
inductive Replies (R : α → β → Prop) : Except Fault α → Except Fault β → Prop
  | ok {a : α} {b : β} (result : R a b) : Replies R (.ok a) (.ok b)
  | error (f : Fault) : Replies R (.error f) (.error f)

namespace Replies

theorem of_eq {x y : Except Fault α} (h : y = x) : Replies (fun a b => b = a) x y := by
  subst h
  cases y with
  | ok a => exact .ok rfl
  | error f => exact .error f

end Replies

/-! ### Words -/

/-- What a frame acts on: an opcode and its immediate. -/
abbrev Word := Op × Int64

namespace Word

/-- **What a word means**: the opcode in its longest form and the immediate it is executed with. -/
def plain : Word → Word
  | (.loadFunction _, imm) => (.loadFunction .long, imm)
  | (.loadString _, imm) => (.loadString .long, imm)
  | (.loadInt .minusOne, _) => (.loadInt .qword, -1)
  | (.loadInt _, imm) => (.loadInt .qword, imm)
  | (.loadLocal _, imm) => (.loadLocal (.wide .long), imm)
  | (.storeLocal _, imm) => (.storeLocal (.wide .long), imm)
  | (.loadArgument _, imm) => (.loadArgument (.wide .long), imm)
  | (.branch c _, _) => (.branch c .long, 0)
  | (.guarded (.enter _), _) => (.guarded (.enter .long), 0)
  | (.shape _, imm) => (.shape (.wide .long), imm)
  | word => word

/-- Two words that mean the same. -/
def Alike (x y : Word) : Prop :=
  y.plain = x.plain

theorem Alike.refl (x : Word) : x.Alike x := rfl

theorem jumps_plain (x : Word) : x.plain.1.jumps = x.1.jumps := by
  obtain ⟨op, imm⟩ := x
  cases op with
  | loadInt form => cases form <;> rfl
  | guarded o => cases o <;> rfl
  | _ => rfl

theorem phaseCount_plain (x : Word) : x.plain.1.phaseCount = x.1.phaseCount := by
  obtain ⟨op, imm⟩ := x
  cases op with
  | loadInt form => cases form <;> rfl
  | guarded o => cases o <;> rfl
  | _ => rfl

namespace Alike

variable {x y : Word}

theorem jumps_eq (h : x.Alike y) : y.1.jumps = x.1.jumps := by
  rw [← jumps_plain y, h, jumps_plain]

theorem phaseCount_eq (h : x.Alike y) : y.1.phaseCount = x.1.phaseCount := by
  rw [← phaseCount_plain y, h, phaseCount_plain]

/-- What jumps is a branch under one condition, or sets a try mark. -/
theorem of_jumps (h : x.Alike y) (hjumps : x.1.jumps) :
    (∃ c w w', x.1 = .branch c w ∧ y.1 = .branch c w') ∨
      ∃ w w', x.1 = .guarded (.enter w) ∧ y.1 = .guarded (.enter w') := by
  have hjumps' : y.1.jumps := h.jumps_eq.trans hjumps
  obtain ⟨op, imm⟩ := x
  obtain ⟨op', imm'⟩ := y
  cases op with
  | branch c w =>
    cases op' with
    | branch c' w' =>
      cases h
      exact .inl ⟨c, w, w', rfl, rfl⟩
    | guarded o' =>
      cases o' with
      | enter w' => cases h
      | _ => cases hjumps'
    | _ => cases hjumps'
  | guarded o =>
    cases o with
    | enter w =>
      cases op' with
      | branch c' w' => cases h
      | guarded o' =>
        cases o' with
        | enter w' => exact .inr ⟨w, w', rfl, rfl⟩
        | _ => cases hjumps'
      | _ => cases hjumps'
    | _ => cases hjumps
  | _ => cases hjumps

end Alike

end Word

/-- What jumps has one phase. -/
theorem Op.phaseCount_of_jumps {op : Op} (h : op.jumps) : op.phaseCount = 1 := by
  cases op with
  | branch c w => rfl
  | guarded o => rfl
  | _ => cases h

namespace Exec

variable {host : Host σ} {r : Ref .function} {context : Ref .context} {phase : Nat}

/-- A word that does not jump is executed as what it means. -/
theorem execute_plain (x : Word) (hplain : x.1.jumps = false) :
    execute host r context x.plain.1 x.plain.2 phase = execute host r context x.1 x.2 phase := by
  obtain ⟨op, imm⟩ := x
  cases op with
  | loadInt form => cases form <;> rfl
  | branch c w => cases hplain
  | guarded o =>
    cases o with
    | enter w => cases hplain
    | _ => rfl
  | _ => rfl

/-- **Words that mean the same are executed alike**, unless they jump. -/
theorem execute_of_alike {x y : Word} (h : x.Alike y) (hplain : x.1.jumps = false) :
    execute host r context y.1 y.2 phase = execute host r context x.1 x.2 phase := by
  rw [← execute_plain x hplain, ← execute_plain y (h.jumps_eq.trans hplain), h]

end Exec

/-! ### Where a jump leads -/

/-- The address `imm` bytes behind `next`, in code of a given length. -/
def landing (len next : Nat) (imm : Int64) : Except Fault Nat :=
  let target := Int64.ofNat next + imm
  if target < 0 ∨ len < target.toNatClampNeg then
    .error (.invalidInstructionPointer target len)
  else .ok target.toNatClampNeg

theorem Exec.jumpTarget_apply {M : Machine σ} {f : Frame} (hf : M.memory.frames.last? = some f)
    (r : Ref .function) (imm : Int64) :
    (jumpTarget r imm : Exec σ Nat) M
      = ofFault (landing (M.heap.prototype r).code.size f.nextIp imm) M := by
  rw [jumpTarget, bind_of_ok (heap_apply M), bind_of_ok (frame_apply hf)]
  unfold landing
  dsimp only
  split <;> rfl

/-! ### Codes -/

/-- **Two instructions that do the same**, in codes of the given lengths: both unknown, or their
words are set beside each other, and they lead to addresses beside each other. -/
inductive Instruction.Twin (beside : Nat → Nat → Prop) (words : Word → Word → Prop)
    (len len' : Nat) :
    Instruction → Instruction → Prop
  | unknown {x y : Instruction} (next : beside x.next y.next) (unknown : x.op = none)
      (unknown' : y.op = none) (byte : y.byte = x.byte) : Twin beside words len len' x y
  | popped {x y : Instruction} {op op' : Op} (next : beside x.next y.next) (known : x.op = some op)
      (known' : y.op = some op') (onStack : x.onStack = true) (onStack' : y.onStack = true)
      (stays : op.jumps = false) (word : ∀ imm, words (op, imm) (op', imm)) :
      Twin beside words len len' x y
  | carried {x y : Instruction} {op op' : Op} (next : beside x.next y.next) (known : x.op = some op)
      (known' : y.op = some op') (inCode : x.onStack = false) (inCode' : y.onStack = false)
      (word : words (op, x.imm) (op', y.imm))
      (lands : op.jumps → Replies beside (landing len x.next x.imm) (landing len' y.next y.imm)) :
      Twin beside words len len' x y

/-- **Two spellings of one code**, with their addresses set beside each other. -/
structure Code.Twin (beside : Nat → Nat → Prop) (words : Word → Word → Prop)
    (code code' : Bytes) : Prop where
  start : beside 0 0
  decodes : ∀ a a', beside a a' → Replies (Instruction.Twin beside words code.size code'.size)
    (Instruction.decode code a) (Instruction.decode code' a')

/-- Two spellings of one function. -/
structure Prototype.Twin (beside : Nat → Nat → Prop) (words : Word → Word → Prop)
    (p p' : Prototype) : Prop where
  name : p'.name = p.name
  locals : p'.locals = p.locals
  declared : p'.declared = p.declared
  code : Code.Twin beside words p.code p'.code

/-- Two spellings of one unit.  The addresses are those of the prototype with a given index. -/
structure CodeUnit.Twin (beside : Nat → Nat → Nat → Prop) (words : Word → Word → Prop)
    (u u' : CodeUnit) : Prop where
  entry : u'.entry = u.entry
  strings : u'.strings = u.strings
  size : u'.prototypes.size = u.prototypes.size
  prototype : ∀ i, (u.prototypes.getD i default).Twin (beside i) words
    (u'.prototypes.getD i default)

variable {words : Word → Word → Prop}

/-- A code is a spelling of itself. -/
theorem Code.Twin.refl (hwords : ∀ x, words x x) (code : Bytes) :
    Code.Twin (fun a a' => a' = a) words code code := by
  refine ⟨rfl, fun a a' h => ?_⟩
  obtain rfl : a' = a := h
  cases hdecode : Instruction.decode code a' with
  | error f => exact .error f
  | ok ins =>
    refine .ok ?_
    cases hop : ins.op with
    | none => exact .unknown rfl hop hop rfl
    | some op =>
      cases hstack : ins.onStack with
      | true =>
        refine .popped rfl hop hop hstack hstack ?_ fun imm => hwords _
        cases hjumps : op.jumps with
        | false => rfl
        | true => exact absurd hstack (by simp [Instruction.onStack_of_jumps hdecode hop hjumps])
      | false =>
        exact .carried rfl hop hop hstack hstack (hwords _) fun _ => .of_eq rfl

/-- Every unit is a spelling of itself. -/
theorem CodeUnit.Twin.refl (hwords : ∀ x, words x x) (u : CodeUnit) :
    CodeUnit.Twin (fun _ a a' => a' = a) words u u :=
  ⟨rfl, rfl, rfl, fun _ => ⟨rfl, rfl, rfl, .refl hwords _⟩⟩

/-- Where an instruction ends is beside where its twin ends. -/
theorem Instruction.Twin.next {beside : Nat → Nat → Prop} {len len' : Nat} {x y : Instruction}
    (h : x.Twin beside words len len' y) : beside x.next y.next := by
  cases h <;> assumption

end ScriptVm
