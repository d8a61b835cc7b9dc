import Mathlib.Algebra.Group.Int.Defs
import Mathlib.Algebra.Group.Nat.Defs
import Mathlib.Data.List.Induction
import ScriptVm.Bytecode.Listing
import ScriptVm.Proofs.UnitFile

/-!
# Assembled code

An assembler writes instructions one behind the other and fills in the targets of
branches at the end.  Code that comes from it can be run from the start: wherever
an instruction ends, another one starts or the code is at its end, and a branch
leads to such a place.

An assembler's work is a list of **calls**.  The code is then the encoding of a
list of instructions (`Call.instructions`), in which a branch carries the distance
to its label.

Main statements: `Instruction.decode_of_hasAt` (what was emitted is decoded),
`Draft.toList_build` (the instructions of a finished function),
`Draft.branch_lands` (where a branch leads) and `Draft.wellFormed_build`.
-/

namespace ScriptVm

/-- Whether an opcode has an address to go to: the branches and `Try`. -/
def Op.jumps : Op → Bool
  | .branch _ _ | .guarded (.enter _) => true
  | _ => false

namespace Instruction

/-! ### Boundaries -/

/-- **Where instructions start**, up to the end of the code. -/
inductive Boundary (code : Bytes) : Nat → Prop
  | start : Boundary code 0
  | next {ip : Nat} {ins : Instruction} (before : Boundary code ip) (inside : ip < code.size)
      (decoded : decode code ip = .ok ins) : Boundary code ins.next

/-- **Code that can be run**: there is an instruction at every boundary, and what may jump leads to
another one. -/
structure WellFormed (code : Bytes) : Prop where
  short : code.size < 2 ^ 31
  decodes : ∀ ip, Boundary code ip → ∃ ins op, decode code ip = .ok ins ∧ ins.op = some op
  lands : ∀ ip ins op, Boundary code ip → decode code ip = .ok ins → ins.op = some op →
    op.jumps →
    ∃ target, Boundary code target ∧ Int64.ofNat ins.next + ins.imm = Int64.ofNat target

/-- Behind the end of the code there is no boundary. -/
theorem WellFormed.boundary_le {code : Bytes} (hcode : WellFormed code) {ip : Nat}
    (hip : Boundary code ip) : ip ≤ code.size := by
  obtain ⟨ins, op, hdecode, -⟩ := hcode.decodes ip hip
  refine Nat.le_of_not_lt fun hout => ?_
  rw [decode, dif_neg (Nat.lt_asymm hout), if_neg (Nat.ne_of_gt hout)] at hdecode
  cases hdecode

/-- The place behind an instruction, at the end of the code as well as inside. -/
theorem Boundary.decode_next {code : Bytes} {ip : Nat} {ins : Instruction} (hip : Boundary code ip)
    (hdecode : decode code ip = .ok ins) : Boundary code ins.next := by
  by_cases hinside : ip < code.size
  · exact hip.next hinside hdecode
  · rw [decode, dif_neg hinside] at hdecode
    split at hdecode
    · cases hdecode
      exact hip
    · cases hdecode

/-- Code without instructions has one boundary. -/
theorem Boundary.eq_zero_of_empty {ip : Nat} (hip : Boundary #[] ip) : ip = 0 := by
  cases hip with
  | start => rfl
  | next _ inside _ => exact absurd inside (Nat.not_lt_zero _)

theorem wellFormed_empty : WellFormed #[] where
  short := by decide
  decodes ip hip := by
    rw [hip.eq_zero_of_empty]
    exact ⟨implicitRet 0, .control .ret, rfl, rfl⟩
  lands ip ins op hip hdecode hop hjumps := by
    rw [hip.eq_zero_of_empty] at hdecode
    cases hdecode
    cases hop
    cases hjumps

/-! ### Reading back what was emitted -/

/-- A number of four bytes is read back as it was written. -/
theorem signed_toLittle {n : Int64} (low : -2 ^ 31 ≤ n.toInt) (high : n.toInt < 2 ^ 31) :
    signed (Bytes.toLittle 4 n.toUInt64.toNat) = n := by
  have hword : n.toInt = Int.bmod n.toUInt64.toNat (2 ^ 64) := by
    rw [← Int64.toInt_toBitVec, BitVec.toInt_eq_toNat_bmod, Int64.toNat_toBitVec]
  have hread : signed (Bytes.toLittle 4 n.toUInt64.toNat)
      = Int64.ofInt (Int.bmod ((n.toUInt64.toNat % 2 ^ 32 : Nat) : Int) (2 ^ 32)) := by
    rw [signed, Bytes.ofLittle_toLittle, Bytes.length_toLittle]
    rfl
  have hsame : Int.bmod ((n.toUInt64.toNat % 2 ^ 32 : Nat) : Int) (2 ^ 32) = n.toInt := by
    rw [hword] at low high ⊢
    have hlt := n.toUInt64.toNat_lt
    simp only [Int.bmod_def] at low high ⊢
    omega
  rw [hread, hsame, Int64.ofInt_toInt]

/-- From behind the four bytes at `start`, the distance leads to the target, and it fits four
bytes. -/
theorem add_distance {start target : Nat} (hstart : start + 4 < 2 ^ 31)
    (htarget : target < 2 ^ 31) :
    -2 ^ 31 ≤ (Draft.distance start target).toInt ∧
    (Draft.distance start target).toInt < 2 ^ 31 ∧
      Int64.ofNat (start + 4) + Draft.distance start target = Int64.ofNat target := by
  have hfrom : (Int64.ofNat (start + 4)).toInt = (start + 4 : Nat) :=
    Int64.toInt_ofNat_of_lt (by omega)
  have hto : (Int64.ofNat target).toInt = target := Int64.toInt_ofNat_of_lt (by omega)
  have hdistance : (Draft.distance start target).toInt = (target : Int) - (start + 4 : Nat) := by
    rw [Draft.distance, Int64.toInt_sub, hfrom, hto]
    exact Int.bmod_eq_of_le (by omega) (by omega)
  refine ⟨by omega, by omega, ?_⟩
  have hsum : ((start + 4 : Nat) : Int) + (target - (start + 4 : Nat)) = target := by omega
  rw [← Int64.toInt_inj, Int64.toInt_add, hfrom, hdistance, hto, hsum]
  exact Int.bmod_eq_of_le (by omega) (by omega)

theorem shapeOfByte_byte (op : Op) : shapeOfByte op.byte = op.immediate := by
  rw [shapeOfByte, Op.ofByte?_byte]

/-- **What was emitted is decoded**, with a word of four bytes as it was written. -/
theorem decode_of_hasAt {code : Bytes} {ip : Nat} {op : Op} {imm : Int64}
    (h : code.HasAt ip (emit op imm)) :
    ∃ ins, decode code ip = .ok ins ∧ ins.op = some op ∧
      ins.next = ip + (emit op imm).length ∧
      (op.immediate = .dword → ins.imm = signed (Bytes.toLittle 4 imm.toUInt64.toNat)) := by
  obtain ⟨hbyte, hrest⟩ := Bytes.HasAt.append (p := [op.byte])
    (q := Bytes.toLittle op.immediate.size imm.toUInt64.toNat) h
  have hinside : ip < code.size := hbyte.le_size
  have hcode : code[ip] = op.byte := by
    obtain ⟨before, after, hlist, rfl⟩ := hbyte
    simp [← Array.getElem_toList, hlist]
  have hslice := hrest.slice?
  rw [Bytes.length_toLittle] at hslice
  have hnext : ip + 1 + op.immediate.size = ip + (emit op imm).length := by
    rw [length_emit, Nat.add_assoc]
  simp only [decode, dif_pos hinside, hcode, readImmediate, shapeOfByte_byte, Op.ofByte?_byte]
  cases hshape : op.immediate <;> rw [hshape] at hslice <;>
    simp_all [Shape.size, Nat.add_assoc]

end Instruction

/-! ### Calls of an assembler -/

namespace Draft

/-- **A call of the assembler.**  The most compact form of an opcode is emitted like any other. -/
inductive Call
  | emit (op : Op) (imm : Int64)
  | newLabel
  | mark (label : Nat)
  | branch (op : Op) (label : Nat)
  | locals (count : Nat)
  | declare (name : String)
  deriving DecidableEq, Repr

/-- What a call makes of a draft. -/
def call (d : Draft) : Call → Except Defect Draft
  | .emit op imm => .ok (d.emit op imm)
  | .newLabel => .ok d.newLabel.2
  | .mark label => .ok (d.mark label)
  | .branch op label => d.branch op label
  | .locals count => d.addLocals count
  | .declare name => .ok (d.addVariable name)

/-- Calls one after the other. -/
def calls (d : Draft) : List Call → Except Defect Draft
  | [] => .ok d
  | c :: rest => do (← d.call c).calls rest

namespace Call

/-- A call that gives no branch an immediate of its own. -/
def direct : Call → Bool
  | emit op _ => !op.jumps
  | _ => true

/-- The bytes that a call writes, with the target of a branch left open. -/
def bytes : Call → List UInt8
  | emit op imm => Instruction.emit op imm
  | branch op _ => Instruction.emit op 0
  | _ => []

/-- The target that a call leaves open, if it writes at a position. -/
def targets (position : Nat) : Call → List (Nat × Nat)
  | branch _ label => [(position + 1, label)]
  | _ => []

/-- The instruction that a call comes to, if it writes at a position and the labels are placed
so. -/
def instructions (place : Nat → Nat) (position : Nat) : Call → List (Op × Int64)
  | emit op imm => [(op, imm)]
  | branch op label => [(op, distance (position + 1) (place label))]
  | _ => []

/-- What calls come to one after the other, each at its own position. -/
def along {α : Type} (part : Nat → Call → List α) : (position : Nat) → List Call → List α
  | _, [] => []
  | position, c :: rest => part position c ++ along part (position + c.bytes.length) rest

end Call

end Draft

/-- The encoding of some instructions. -/
def Instruction.encode (items : List (Op × Int64)) : List UInt8 :=
  items.flatMap fun item => emit item.1 item.2


namespace Draft

open Instruction

variable {d d' : Draft} {cs b a : List Call} {c : Call} {op : Op} {label position : Nat}
  {code code' : Bytes}

/-! ### What calls write -/

theorem calls_cons_eq_ok (h : d.calls (c :: cs) = .ok d') :
    ∃ e, d.call c = .ok e ∧ e.calls cs = .ok d' := by
  rw [calls] at h
  cases hcall : d.call c with
  | error e =>
    rw [hcall] at h
    cases h
  | ok e =>
    rw [hcall] at h
    exact ⟨e, rfl, h⟩

theorem call_branch_eq_ok (h : d.call (.branch op label) = .ok d') :
    op.immediate = .dword ∧
      d' = { d.emit op 0 with fixups := d.fixups ++ [(d.code.size + 1, label)] } := by
  rw [call, branch] at h
  split at h
  · next hshape => exact ⟨hshape, (Except.ok.inj h).symm⟩
  · cases h

theorem call_locals_eq_ok {count : Nat} (h : d.call (.locals count) = .ok d') :
    ∃ locals, d' = { d with locals } := by
  rw [call, addLocals] at h
  cases hadd : Sizes.word64.add d.locals count with
  | error e =>
    rw [hadd] at h
    cases h
  | ok locals =>
    rw [hadd] at h
    exact ⟨locals, (Except.ok.inj h).symm⟩

/-- Only a branch leaves a target open, and only with four bytes to fill. -/
theorem branch_of_calls (h : d.calls cs = .ok d') (hbranch : .branch op label ∈ cs) :
    op.immediate = .dword := by
  induction cs generalizing d with
  | nil => cases hbranch
  | cons c cs ih =>
    obtain ⟨e, hcall, hrest⟩ := calls_cons_eq_ok h
    rcases List.mem_cons.mp hbranch with rfl | hmem
    · exact (call_branch_eq_ok hcall).1
    · exact ih hrest hmem

/-- One call. -/
theorem written_call (h : d.call c = .ok d') :
    d'.code.toList = d.code.toList ++ c.bytes ∧
      d'.fixups = d.fixups ++ c.targets d.code.size := by
  cases c with
  | branch op label =>
    obtain ⟨-, rfl⟩ := call_branch_eq_ok h
    simp [Call.bytes, Call.targets, emit, raw]
  | locals count =>
    obtain ⟨locals, rfl⟩ := call_locals_eq_ok h
    simp [Call.bytes, Call.targets]
  | _ =>
    cases h
    simp [Call.bytes, Call.targets, emit, raw, newLabel, mark, addVariable]

/-- **What calls write**, and the targets that they leave open. -/
theorem written (h : d.calls cs = .ok d') :
    d'.code.toList = d.code.toList ++ cs.flatMap Call.bytes ∧
      d'.fixups = d.fixups ++ Call.along Call.targets d.code.size cs := by
  induction cs generalizing d with
  | nil =>
    cases h
    simp [Call.along]
  | cons c cs ih =>
    obtain ⟨e, hcall, hrest⟩ := calls_cons_eq_ok h
    obtain ⟨hcode, hfixups⟩ := written_call hcall
    obtain ⟨hcodes, hholes⟩ := ih hrest
    have hsize : e.code.size = d.code.size + c.bytes.length := by
      rw [← Array.length_toList, hcode, List.length_append, Array.length_toList]
    constructor
    · rw [hcodes, hcode, List.flatMap_cons, List.append_assoc]
    · rw [hholes, hfixups, hsize, Call.along, List.append_assoc]

/-! ### Filling in the targets -/

/-- Bytes are overwritten in place. -/
theorem toList_overwrite (code : Bytes) {before old after : List UInt8} (new : List UInt8)
    (hcode : code.toList = before ++ old ++ after) (hlength : old.length = new.length) :
    (overwrite code before.length new).toList = before ++ new ++ after := by
  induction new generalizing code before old with
  | nil =>
    rw [List.length_eq_zero_iff.mp hlength] at hcode
    exact hcode
  | cons byte new ih =>
    cases old with
    | nil => cases hlength
    | cons oldByte old =>
      have hset : (code.setIfInBounds before.length byte).toList
          = (before ++ [byte]) ++ old ++ after := by
        simp [hcode]
      have hrest := ih (code.setIfInBounds before.length byte) hset (Nat.succ.inj hlength)
      rw [List.length_append, List.length_singleton] at hrest
      rw [overwrite, hrest]
      simp

/-- The place of a label that has one. -/
def place (d : Draft) (label : Nat) : Nat :=
  (d.labels[label]?).join.getD 0

/-- **The open targets are filled in**, and every branch gets the distance to its label. -/
theorem toList_resolve (d : Draft) {done : List UInt8}
    (hbranch : ∀ op label, Call.branch op label ∈ cs → op.immediate = .dword)
    (hcode : code.toList = done ++ cs.flatMap Call.bytes)
    (h : d.resolve (Call.along Call.targets done.length cs) code = .ok code') :
    code'.toList = done ++ encode (Call.along (Call.instructions d.place) done.length cs) := by
  induction cs generalizing code done with
  | nil =>
    cases h
    simpa [encode, Call.along] using hcode
  | cons c cs ih =>
    have hrest {written : List UInt8} {code : Bytes} (hlength : written.length = c.bytes.length)
        (hcode : code.toList = (done ++ written) ++ cs.flatMap Call.bytes)
        (h : d.resolve (Call.along Call.targets (done.length + c.bytes.length) cs) code
          = .ok code') :
        code'.toList = (done ++ written)
          ++ encode (Call.along (Call.instructions d.place) (done.length + c.bytes.length) cs) := by
      rw [← hlength, ← List.length_append] at h ⊢
      exact ih (fun op label hmem => hbranch op label (List.mem_cons_of_mem _ hmem)) hcode h
    rw [List.flatMap_cons] at hcode
    cases c with
    | branch op label =>
      have hshape := hbranch op label List.mem_cons_self
      rw [Call.along, Call.targets, List.singleton_append, resolve] at h
      cases htarget : (d.labels[label]?).join with
      | none =>
        rw [htarget] at h
        cases h
      | some target =>
        rw [htarget] at h
        let imm := distance (done.length + 1) target
        have hold : code.toList = (done ++ [op.byte]) ++ Bytes.toLittle 4 0
            ++ cs.flatMap Call.bytes := by
          rw [hcode, Call.bytes, Instruction.emit, hshape]
          simp
          rfl
        have hnew := toList_overwrite code (Bytes.toLittle 4 imm.toUInt64.toNat) hold rfl
        rw [List.length_append, List.length_singleton] at hnew
        have hlength : (Instruction.emit op imm).length = (Call.branch op label).bytes.length := by
          simp [Call.bytes]
        have hcode' :
            (overwrite code (done.length + 1) (Bytes.toLittle 4 imm.toUInt64.toNat)).toList
              = (done ++ Instruction.emit op imm) ++ cs.flatMap Call.bytes := by
          rw [hnew, Instruction.emit, hshape]
          simp [Shape.size]
        rw [hrest hlength hcode' h, Call.along, Call.instructions, place, htarget]
        simp [encode, imm]
    | emit op imm =>
      have hwritten := hrest rfl (hcode.trans (List.append_assoc ..).symm) h
      rw [hwritten, Call.along]
      simp [encode, Call.instructions, Call.bytes]
    | _ =>
      have hwritten := hrest rfl (hcode.trans (List.append_assoc ..).symm) h
      rw [hwritten, Call.along]
      simp [Call.instructions, Call.bytes]

/-- **The instructions of a finished function.** -/
theorem toList_build {name : String} {p : Prototype} (h : (Draft.new name).calls cs = .ok d)
    (hbuild : d.build = .ok p) :
    p.code.toList = encode (Call.along (Call.instructions d.place) 0 cs) := by
  obtain ⟨hcode, hfixups⟩ := written h
  rw [build] at hbuild
  cases hresolve : d.resolve d.fixups d.code with
  | error e =>
    rw [hresolve] at hbuild
    cases hbuild
  | ok code =>
    rw [hresolve] at hbuild
    cases hbuild
    rw [hfixups] at hresolve
    have hbranch (op : Op) (label : Nat) (hmem : Call.branch op label ∈ cs) :
        op.immediate = .dword :=
      branch_of_calls h hmem
    have hempty : d.code.toList = [] ++ cs.flatMap Call.bytes := hcode
    exact toList_resolve d hbranch hempty hresolve

/-! ### Where instructions stand -/

namespace Call

variable {place : Nat → Nat} {before after : List (Op × Int64)} {imm : Int64}

theorem along_append {α : Type} (part : Nat → Call → List α) (position : Nat)
    (b a : List Call) :
    along part position (b ++ a)
      = along part position b ++ along part (position + (b.flatMap bytes).length) a := by
  induction b generalizing position with
  | nil => rfl
  | cons c b ih =>
    rw [List.cons_append, along, ih, along, List.append_assoc, List.flatMap_cons,
      List.length_append, Nat.add_assoc]

/-- An instruction takes as many bytes as its call has written, wherever its labels stand. -/
theorem length_instructions (place : Nat → Nat) (position : Nat) (cs : List Call) :
    (encode (along (instructions place) position cs)).length = (cs.flatMap bytes).length := by
  induction cs generalizing position with
  | nil => rfl
  | cons c cs ih =>
    have hone : (encode (instructions place position c)).length = c.bytes.length := by
      cases c <;> simp [instructions, encode, bytes]
    rw [along, encode, List.flatMap_append, List.length_append, List.flatMap_cons,
      List.length_append]
    exact congrArg₂ (· + ·) hone (ih _)

/-- Every instruction comes from a call. -/
theorem along_instructions_split
    (h : along (instructions place) position cs = before ++ (op, imm) :: after) :
    ∃ b c a, cs = b ++ c :: a ∧ along (instructions place) position b = before ∧
      (c = .emit op imm ∨ ∃ label, c = .branch op label ∧
        imm = distance (position + (encode before).length + 1) (place label)) := by
  induction cs generalizing position before with
  | nil => simp [along] at h
  | cons c cs ih =>
    have hlater {before' : List (Op × Int64)}
        (hbefore : before = instructions place position c ++ before')
        (h : along (instructions place) (position + c.bytes.length) cs
          = before' ++ (op, imm) :: after) :
        ∃ b c' a, c :: cs = b ++ c' :: a ∧ along (instructions place) position b = before ∧
          (c' = .emit op imm ∨ ∃ label, c' = .branch op label ∧
            imm = distance (position + (encode before).length + 1) (place label)) := by
      obtain ⟨b, c', a, rfl, hb, hc'⟩ := ih h
      have hlength : (encode (instructions place position c)).length = c.bytes.length := by
        simpa [along] using length_instructions place position [c]
      refine ⟨c :: b, c', a, rfl, by rw [along, hb, hbefore], ?_⟩
      rw [hbefore, encode, List.flatMap_append, List.length_append, ← Nat.add_assoc]
      rw [← hlength] at hc'
      exact hc'
    rw [along] at h
    cases c with
    | emit op' imm' =>
      cases before with
      | nil =>
        cases h
        exact ⟨[], _, cs, rfl, rfl, .inl rfl⟩
      | cons item before =>
        obtain ⟨rfl, htail⟩ := List.cons.inj h
        exact hlater rfl htail
    | branch op' label =>
      cases before with
      | nil =>
        cases h
        exact ⟨[], _, cs, rfl, rfl, .inr ⟨label, rfl, rfl⟩⟩
      | cons item before =>
        obtain ⟨rfl, htail⟩ := List.cons.inj h
        exact hlater rfl htail
    | _ => exact hlater rfl h

end Call

end Draft

/-! ### Boundaries of encoded code -/

namespace Instruction

variable {code : Bytes} {items before after : List (Op × Int64)}

/-- What stands behind some instructions. -/
theorem hasAt_encode {op : Op} {imm : Int64}
    (hcode : code.toList = encode (before ++ (op, imm) :: after)) :
    code.HasAt (encode before).length (emit op imm) :=
  ⟨encode before, encode after, by simp [hcode, encode], rfl⟩

theorem length_encode_le (hcode : code.toList = encode (before ++ after)) :
    (encode before).length ≤ code.size := by
  rw [← Array.length_toList, hcode, encode, encode, List.flatMap_append, List.length_append]
  exact Nat.le_add_right _ _

/-- A branch with the distance to a place leads there. -/
theorem decode_distance {op : Op} {target : Nat}
    (hcode : code.toList
      = encode (before ++ (op, Draft.distance ((encode before).length + 1) target) :: after))
    (hshape : op.immediate = .dword) (hshort : code.size < 2 ^ 31)
    (htarget : target ≤ code.size) :
    ∃ ins, decode code (encode before).length = .ok ins ∧ ins.op = some op ∧
      Int64.ofNat ins.next + ins.imm = Int64.ofNat target := by
  have hat := hasAt_encode hcode
  have hinside := hat.le_size
  obtain ⟨ins, hdecode, hop, hnext, himm⟩ := decode_of_hasAt hat
  rw [length_emit, hshape, Shape.size] at hinside hnext
  have hstart : (encode before).length + 1 + 4 < 2 ^ 31 := by omega
  have hplace : target < 2 ^ 31 := by omega
  obtain ⟨low, high, hadd⟩ := add_distance hstart hplace
  refine ⟨ins, hdecode, hop, ?_⟩
  rw [himm hshape, signed_toLittle low high, hnext, ← hadd]

/-- There is a boundary behind any number of instructions. -/
theorem boundary_encode (hcode : code.toList = encode (before ++ after)) :
    Boundary code (encode before).length := by
  induction before using List.reverseRecOn generalizing after with
  | nil => exact .start
  | append_singleton before item ih =>
    obtain ⟨op, imm⟩ := item
    rw [List.append_assoc] at hcode
    have hat := hasAt_encode hcode
    obtain ⟨ins, hdecode, -, hnext, -⟩ := decode_of_hasAt hat
    have hboundary := (ih hcode).decode_next hdecode
    rw [hnext] at hboundary
    simpa [encode] using hboundary

/-- There is no other one. -/
theorem Boundary.of_encode (hcode : code.toList = encode items) {ip : Nat}
    (hip : Boundary code ip) :
    ∃ before after, items = before ++ after ∧ ip = (encode before).length := by
  induction hip with
  | start => exact ⟨[], items, rfl, rfl⟩
  | @next ip ins _ inside decoded ih =>
    obtain ⟨before, after, rfl, rfl⟩ := ih
    cases after with
    | nil =>
      rw [List.append_nil] at hcode
      rw [← Array.length_toList, hcode] at inside
      exact absurd inside (Nat.lt_irrefl _)
    | cons item after =>
      obtain ⟨op, imm⟩ := item
      obtain ⟨ins', hdecode, -, hnext, -⟩ := decode_of_hasAt (hasAt_encode hcode)
      cases decoded.symm.trans hdecode
      refine ⟨before ++ [(op, imm)], after, by simp, ?_⟩
      rw [hnext]
      simp [encode]

end Instruction

namespace Draft

open Instruction

variable {name : String} {d : Draft} {p : Prototype} {cs b a : List Call} {op : Op} {label : Nat}

/-! ### Where labels stand -/

/-- A call other than a mark leaves a label's place alone. -/
theorem place_call {e : Draft} {c : Call} (h : d.call c = .ok e) (hc : c ≠ .mark label) :
    (e.labels[label]?).join = (d.labels[label]?).join := by
  cases c with
  | mark other =>
    cases h
    have hne : other ≠ label := fun heq => hc (congrArg _ heq)
    rw [mark, Array.getElem?_setIfInBounds_ne hne]
  | newLabel =>
    cases h
    show ((d.labels.push none)[label]?).join = _
    rw [Array.getElem?_push]
    split
    · next heq => simp [heq]
    · rfl
  | branch op label =>
    obtain ⟨-, rfl⟩ := call_branch_eq_ok h
    rfl
  | locals count =>
    obtain ⟨locals, rfl⟩ := call_locals_eq_ok h
    rfl
  | _ =>
    cases h
    rfl

/-- **A label stands where it was last marked.** -/
theorem last_mark {e : Draft} {target : Nat} (h : d.calls cs = .ok e)
    (htarget : (e.labels[label]?).join = some target) :
    (d.labels[label]?).join = some target ∧ .mark label ∉ cs ∨
      ∃ b a marked, cs = b ++ .mark label :: a ∧ .mark label ∉ a ∧
        d.calls b = .ok marked ∧
        target = marked.position := by
  induction cs generalizing d with
  | nil =>
    cases h
    exact .inl ⟨htarget, nofun⟩
  | cons c cs ih =>
    obtain ⟨e', hcall, hrest⟩ := calls_cons_eq_ok h
    rcases ih hrest with ⟨hsame, hnone⟩ | ⟨b, a, marked, rfl, hnone, hb, hmarked⟩
    · by_cases hmark : c = .mark label
      · subst hmark
        cases hcall
        refine .inr ⟨[], cs, d, rfl, hnone, rfl, ?_⟩
        rw [mark, Array.getElem?_setIfInBounds_self] at hsame
        split at hsame
        · exact (Option.some.inj hsame).symm
        · cases hsame
      · rw [place_call hcall hmark] at hsame
        exact .inl ⟨hsame, by simp [hnone, Ne.symm hmark]⟩
    · refine .inr ⟨c :: b, a, marked, rfl, hnone, ?_, hmarked⟩
      rw [calls, hcall]
      exact hb

/-- Every label that a branch leads to has its place. -/
theorem placed_of_resolve {code code' : Bytes} {holes : List (Nat × Nat)} {start : Nat}
    (h : d.resolve holes code = .ok code') (hhole : (start, label) ∈ holes) :
    ∃ target, (d.labels[label]?).join = some target := by
  induction holes generalizing code with
  | nil => cases hhole
  | cons hole holes ih =>
    obtain ⟨start', label'⟩ := hole
    rw [resolve] at h
    cases htarget : (d.labels[label']?).join with
    | none =>
      rw [htarget] at h
      cases h
    | some target =>
      rw [htarget] at h
      rcases List.mem_cons.mp hhole with heq | hmem
      · cases heq
        exact ⟨target, htarget⟩
      · exact ih h hmem

/-- The length of a draft. -/
theorem position_calls (h : (new name).calls b = .ok d) (place : Nat → Nat) :
    d.position = (encode (Call.along (Call.instructions place) 0 b)).length := by
  rw [Call.length_instructions, position, ← Array.length_toList, (written h).1]
  simp [new]

theorem calls_append (d : Draft) (b a : List Call) :
    d.calls (b ++ a) = (do (← d.calls b).calls a) := by
  induction b generalizing d with
  | nil => rfl
  | cons c b ih =>
    rw [List.cons_append, calls, calls]
    cases d.call c with
    | error e => rfl
    | ok e => exact ih e

theorem calls_append_eq_ok {e : Draft} (h : d.calls (b ++ a) = .ok e) :
    ∃ e', d.calls b = .ok e' ∧ e'.calls a = .ok e := by
  rw [calls_append] at h
  cases hb : d.calls b with
  | error defect =>
    rw [hb] at h
    cases h
  | ok e' =>
    rw [hb] at h
    exact ⟨e', rfl, h⟩

/-- A label that a branch of a finished function leads to was marked, and stands at a boundary. -/
theorem label_placed (h : (new name).calls cs = .ok d) (hbuild : d.build = .ok p)
    (hbranch : .branch op label ∈ cs) :
    ∃ b a marked, cs = b ++ .mark label :: a ∧ .mark label ∉ a ∧
      (new name).calls b = .ok marked ∧
      d.place label = marked.position ∧ marked.position ≤ p.code.size ∧
      Boundary p.code marked.position := by
  obtain ⟨target, htarget⟩ : ∃ target, (d.labels[label]?).join = some target := by
    obtain ⟨b, a, rfl⟩ := List.append_of_mem hbranch
    have hhole : ((b.flatMap Call.bytes).length + 1, label) ∈ d.fixups := by
      rw [(written h).2, Call.along_append, Call.along, Call.targets]
      simp [new]
    rw [build] at hbuild
    cases hresolve : d.resolve d.fixups d.code with
    | error e =>
      rw [hresolve] at hbuild
      cases hbuild
    | ok code => exact placed_of_resolve hresolve hhole
  rcases last_mark h htarget with ⟨hnone, -⟩ | ⟨b, a, marked, rfl, hlast, hb, rfl⟩
  · cases hnone
  · refine ⟨b, a, marked, rfl, hlast, hb, by rw [place, htarget]; rfl, ?_⟩
    have hcode := toList_build h hbuild
    rw [Call.along_append] at hcode
    rw [position_calls hb d.place]
    exact ⟨length_encode_le hcode, boundary_encode hcode⟩

/-- **Where a branch leads**: the place behind it with its immediate is the place where its label
was last marked, and that is a boundary. -/
theorem branch_lands (h : (new name).calls (b ++ .branch op label :: a) = .ok d)
    (hbuild : d.build = .ok p) (hshort : p.code.size < 2 ^ 31) :
    ∃ before ins, (new name).calls b = .ok before ∧ decode p.code before.position = .ok ins ∧
      ins.op = some op ∧
      ∃ b' a' marked, b ++ .branch op label :: a = b' ++ .mark label :: a' ∧
        .mark label ∉ a' ∧
        (new name).calls b' = .ok marked ∧
        Int64.ofNat ins.next + ins.imm = Int64.ofNat marked.position ∧
        Boundary p.code marked.position := by
  have hmem : .branch op label ∈ b ++ .branch op label :: a := by simp
  have hshape : op.immediate = .dword := branch_of_calls h hmem
  obtain ⟨before, hbefore, -⟩ := calls_append_eq_ok h
  obtain ⟨b', a', marked, hsplit, hlast, hb', hplace, htarget, hboundary⟩ :=
    label_placed h hbuild hmem
  have hposition := position_calls hbefore d.place
  have hcode := toList_build h hbuild
  rw [Call.along_append, Call.along, Call.instructions, hplace, Nat.zero_add,
    ← Call.length_instructions d.place 0 b] at hcode
  obtain ⟨ins, hdecode, hop, hlands⟩ := decode_distance hcode hshape hshort htarget
  rw [← hposition] at hdecode
  exact ⟨before, ins, hbefore, hdecode, hop, b', a', marked, hsplit, hlast, hb', hlands,
    hboundary⟩

/-- **Assembled code can be run.** -/
theorem wellFormed_build (h : (new name).calls cs = .ok d) (hdirect : ∀ c ∈ cs, c.direct)
    (hbuild : d.build = .ok p) (hshort : p.code.size < 2 ^ 31) : WellFormed p.code := by
  have hcode := toList_build h hbuild
  have hend {before : List (Op × Int64)} (hcode : p.code.toList = encode (before ++ [])) :
      decode p.code (encode before).length = .ok (implicitRet (encode before).length) := by
    rw [List.append_nil] at hcode
    have hsize : (encode before).length = p.code.size := by rw [← hcode, Array.length_toList]
    rw [hsize, decode, dif_neg (Nat.lt_irrefl _), if_pos rfl]
  refine ⟨hshort, fun ip hip => ?_, fun ip ins op hip hdecode hop hjumps => ?_⟩
  · obtain ⟨before, after, hitems, rfl⟩ := hip.of_encode hcode
    rw [hitems] at hcode
    cases after with
    | nil => exact ⟨_, .control .ret, hend hcode, rfl⟩
    | cons item after =>
      obtain ⟨op, imm⟩ := item
      obtain ⟨ins, hdecode, hop, -⟩ := decode_of_hasAt (hasAt_encode hcode)
      exact ⟨ins, op, hdecode, hop⟩
  · obtain ⟨before, after, hitems, rfl⟩ := hip.of_encode hcode
    rw [hitems] at hcode
    cases after with
    | nil =>
      cases (hend hcode).symm.trans hdecode
      cases hop
      cases hjumps
    | cons item after =>
      obtain ⟨op', imm⟩ := item
      have hop' : op' = op := by
        obtain ⟨ins', hdecode', hins', -⟩ := decode_of_hasAt (hasAt_encode hcode)
        cases hdecode'.symm.trans hdecode
        exact Option.some.inj (hins'.symm.trans hop)
      subst hop'
      obtain ⟨b, c, a, rfl, -, rfl | ⟨label, rfl, rfl⟩⟩ :=
        Call.along_instructions_split hitems
      · have hplain := hdirect _ (List.mem_append_right b List.mem_cons_self)
        simp [Call.direct, hjumps] at hplain
      · have hmem : .branch op' label ∈ b ++ .branch op' label :: a := by simp
        obtain ⟨-, -, marked, -, -, -, hplace, htarget, hboundary⟩ := label_placed h hbuild hmem
        rw [hplace, Nat.zero_add] at hcode
        obtain ⟨ins', hdecode', -, hlands⟩ :=
          decode_distance hcode (branch_of_calls h hmem) hshort htarget
        cases hdecode'.symm.trans hdecode
        exact ⟨_, hboundary, hlands⟩

end Draft

/-! ### Functions and units -/

/-- **What calls make of a draft** that write branches to labels only. -/
def Draft.Reaches (d e : Draft) : Prop :=
  ∃ cs, d.calls cs = .ok e ∧ ∀ c ∈ cs, c.direct

namespace Draft.Reaches

theorem refl (d : Draft) : d.Reaches d :=
  ⟨[], rfl, nofun⟩

theorem tail {d e f : Draft} (h : d.Reaches e) {c : Call} (hcall : e.call c = .ok f)
    (hdirect : c.direct) : d.Reaches f := by
  obtain ⟨cs, hcs, hall⟩ := h
  refine ⟨cs ++ [c], ?_, fun c' hc' => ?_⟩
  · rw [calls_append, hcs]
    show e.calls [c] = .ok f
    rw [calls, hcall]
    rfl
  · rcases List.mem_append.mp hc' with hold | hnew
    · exact hall c' hold
    · rw [List.mem_singleton.mp hnew]
      exact hdirect

theorem trans {d e f : Draft} (h : d.Reaches e) (h' : e.Reaches f) : d.Reaches f := by
  obtain ⟨cs, hcs, hall⟩ := h
  obtain ⟨cs', hcs', hall'⟩ := h'
  refine ⟨cs ++ cs', ?_, fun c hc => (List.mem_append.mp hc).elim (hall c) (hall' c)⟩
  rw [calls_append, hcs]
  exact hcs'

end Draft.Reaches

/-- **A function that was assembled**: its code is not too long, and branches were written to labels
only. -/
def Prototype.Assembled (p : Prototype) : Prop :=
  p.code.size < 2 ^ 31 ∧ ∃ name d, (Draft.new name).Reaches d ∧ d.build = .ok p

/-- A unit of such functions. -/
def CodeUnit.Assembled (u : CodeUnit) : Prop :=
  ∀ p ∈ u.prototypes, p.Assembled

theorem Prototype.Assembled.wellFormed {p : Prototype} (h : p.Assembled) :
    Instruction.WellFormed p.code := by
  obtain ⟨hshort, name, d, ⟨cs, hcalls, hdirect⟩, hbuild⟩ := h
  exact Draft.wellFormed_build hcalls hdirect hbuild hshort

namespace Listing

/-- A step that writes neither bytes as they are nor a branch with an immediate of its own. -/
def Step.direct : Step → Bool
  | emit op _ => !op.jumps
  | raw _ => false
  | _ => true

/-- The most compact load of an integer is no branch. -/
theorem jumps_compactInt (n : Int64) : (Op.compactInt n).jumps = false := by
  unfold Op.compactInt
  split_ifs <;> rfl

/-- **A step is made of calls.** -/
theorem Assembly.reaches_step {x y : Assembly} {s : Step} (h : x.step s = .ok y) (hs : s.direct) :
    x.draft.Reaches y.draft := by
  have hwrite (op : Op) (imm : Int64) (hop : op.jumps = false) :
      x.draft.Reaches (x.draft.emit op imm) :=
    (Draft.Reaches.refl _).tail (c := .emit op imm) rfl (by simp [Draft.Call.direct, hop])
  have hlabel (name : String) : x.draft.Reaches (x.label name).2.draft := by
    unfold Assembly.label
    cases x.labels.idxOf? name with
    | some n => exact .refl _
    | none => exact (Draft.Reaches.refl _).tail (c := .newLabel) rfl rfl
  cases s with
  | emit op imm =>
    cases h
    exact hwrite op imm (by simpa [Step.direct] using hs)
  | loadInt n =>
    cases h
    exact hwrite _ n (jumps_compactInt n)
  | raw bytes => cases hs
  | syscall slot =>
    rw [Assembly.step] at h
    split at h
    · cases h
      exact hwrite _ 0 rfl
    · cases h
  | mark name =>
    cases h
    exact (hlabel name).tail (c := .mark _) rfl rfl
  | branch op name =>
    dsimp only [Assembly.step] at h
    cases hbranch : (x.label name).2.draft.branch op (x.label name).1 with
    | error e =>
      rw [hbranch] at h
      cases h
    | ok draft =>
      rw [hbranch] at h
      cases h
      exact (hlabel name).tail (c := .branch op _) hbranch rfl
  | locals count =>
    rw [Assembly.step] at h
    cases hlocals : x.draft.addLocals count with
    | error e =>
      rw [hlocals] at h
      cases h
    | ok draft =>
      rw [hlocals] at h
      cases h
      exact (Draft.Reaches.refl _).tail (c := .locals count) hlocals rfl
  | declare name =>
    cases h
    exact (Draft.Reaches.refl _).tail (c := .declare name) rfl rfl
  | _ =>
    cases h
    exact hwrite _ _ rfl

theorem Assembly.reaches_run {x : Assembly} {steps : List Step} (h : (x.run steps).2 = none)
    (hsteps : ∀ s ∈ steps, s.direct) :
    x.draft.Reaches ((x.run steps).1.getLast?.getD x).draft := by
  induction steps generalizing x with
  | nil => exact .refl _
  | cons s steps ih =>
    cases hstep : x.step s with
    | error e => simp [run, hstep] at h
    | ok y =>
      simp only [run, hstep] at h ⊢
      have hfirst := reaches_step hstep (hsteps s List.mem_cons_self)
      have hrest := ih h fun s' hs' => hsteps s' (List.mem_cons_of_mem _ hs')
      rw [List.getLast?_cons]
      exact hfirst.trans hrest

theorem reaches_start (listing : Listing) (pool : StringPool)
    (hlocals : listing.locals < UInt64.size) :
    (Draft.new listing.name).Reaches (listing.start pool).draft := by
  have hdeclare (d : Draft) (names : List String) :
      d.Reaches { d with declared := d.declared ++ names } := by
    induction names using List.reverseRecOn with
    | nil => simpa using Draft.Reaches.refl d
    | append_singleton names name ih =>
      refine ih.tail (c := .declare name) ?_ rfl
      simp [Draft.call, Draft.addVariable]
  have hcount : (Draft.new listing.name).Reaches
      { Draft.new listing.name with locals := listing.locals } := by
    refine (Draft.Reaches.refl _).tail (c := .locals listing.locals) ?_ rfl
    simp only [Draft.call, Draft.addLocals, Draft.new, Sizes.add, Nat.zero_add, if_pos hlocals]
    rfl
  exact hcount.trans (hdeclare _ listing.declared)

/-- **What a listing is assembled to.** -/
theorem assembled {listing : Listing} {pool : StringPool} {p : Prototype}
    (h : (listing.assemble pool).prototype = .ok p) (hlocals : listing.locals < UInt64.size)
    (hsteps : ∀ s ∈ listing.steps, s.direct) (hshort : p.code.size < 2 ^ 31) : p.Assembled := by
  refine ⟨hshort, listing.name, _, (reaches_start listing pool hlocals).trans
    (Assembly.reaches_run ?_ hsteps), ?_⟩
  · simp only [assemble] at h
    split at h
    · cases h
    · assumption
  · simp only [assemble] at h
    split at h
    · cases h
    · exact h

/-- Every function of a unit comes from one of its listings. -/
theorem listing_of_assembleAll {u u' : UnitDraft} {listings : List Listing} {p : Prototype}
    (h : assembleAll u listings = .ok u') (hp : p ∈ u'.prototypes) :
    p ∈ u.prototypes ∨
      ∃ listing ∈ listings, ∃ pool, (listing.assemble pool).prototype = .ok p := by
  induction listings generalizing u with
  | nil =>
    cases h
    exact .inl hp
  | cons listing rest ih =>
    simp only [assembleAll] at h
    cases hfirst : (listing.assemble u.pool).prototype with
    | error e =>
      rw [hfirst] at h
      cases h
    | ok first =>
      rw [hfirst] at h
      rcases ih h with hmem | ⟨later, hlater, pool, hassemble⟩
      · rcases Array.mem_push.mp hmem with hold | rfl
        · exact .inl hold
        · exact .inr ⟨listing, List.mem_cons_self, u.pool, hfirst⟩
      · exact .inr ⟨later, List.mem_cons_of_mem _ hlater, pool, hassemble⟩

/-- **What a unit is assembled to.** -/
theorem assembled_unit {strings : List String} {listings : List Listing} {entry : Nat}
    {u : CodeUnit} (h : assembleUnit strings listings entry = .ok u)
    (hlocals : ∀ listing ∈ listings, listing.locals < UInt64.size)
    (hsteps : ∀ listing ∈ listings, ∀ s ∈ listing.steps, s.direct)
    (hshort : ∀ p ∈ u.prototypes, p.code.size < 2 ^ 31) : u.Assembled := by
  have hintern (texts : List String) (start : UnitDraft) :
      (texts.foldl (fun u s => (u.intern s).2) start).prototypes = start.prototypes := by
    induction texts generalizing start with
    | nil => rfl
    | cons s texts ih => exact ih (start.intern s).2
  intro p hp
  simp only [assembleUnit] at h
  cases hall : assembleAll (strings.foldl (fun u s => (u.intern s).2) UnitDraft.empty) listings with
  | error e =>
    rw [hall] at h
    cases h
  | ok u' =>
    rw [hall] at h
    cases h
    rcases listing_of_assembleAll hall hp with hold | ⟨listing, hmem, pool, hassemble⟩
    · rw [hintern] at hold
      exact absurd hold (Array.not_mem_empty p)
    · exact assembled hassemble (hlocals listing hmem) (hsteps listing hmem) (hshort p hp)

end Listing

end ScriptVm
