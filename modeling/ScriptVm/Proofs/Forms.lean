import ScriptVm.Proofs.Decoding
import ScriptVm.Proofs.Spelling

/-!
# Forms of instructions

A number can stand in an instruction in several forms: in the low bits of the
opcode, in one byte, in four or in eight, and -1 in an opcode of its own.  A form
that holds a number at all holds it as it is, so it does not matter which of them
an assembler writes.

What is to be assembled is a list of **steps**, and a step can be written as several
calls of the assembler.  Two lists of calls that write the same steps are assembled
to two spellings of one code.  Addresses of the one are beside addresses of the other
if as many steps were written before them.

Main statements: `Operand.Form.plain` (a form means the number that it holds),
`Operand.compact_form` (the most compact form is one) and `Draft.Assembles.twin`
(two spellings of the same steps mean the same).
-/

namespace ScriptVm

/-! ### Forms that hold a number -/

/-- The numbers that a width holds. -/
def Width.Holds : Width → Int64 → Prop
  | short, n => fitsByte n
  | long, n => fitsDword n

/-- The numbers that a form of an integer constant holds. -/
def IntForm.Holds : IntForm → Int64 → Prop
  | embedded k, n => n = Int64.ofNat k
  | qword, _ => True
  | wide w, n => w.Holds n
  | minusOne, n => n = -1

/-- The numbers that a form of the index of a local variable holds. -/
def SlotForm.Holds : SlotForm → Int64 → Prop
  | embedded k, n => n = Int64.ofNat k
  | wide w, n => w.Holds n
  | onStack, _ => False

/-- The numbers that a form of the index of an argument holds. -/
def ArgForm.Holds : ArgForm → Int64 → Prop
  | embedded k, n => n = Int64.ofNat k
  | wide w, n => w.Holds n
  | onStack, _ => False

/-- The numbers that a form of the number of values to keep holds. -/
def ShapeForm.Holds : ShapeForm → Int64 → Prop
  | embedded k, n => n = Int64.ofNat k
  | wide w, n => w.Holds n

/-- Words that jump mean the same wherever they lead. -/
theorem Word.alike_of_jumps {op : Op} (h : op.jumps) (imm imm' : Int64) :
    Word.Alike (op, imm) (op, imm') := by
  cases op with
  | branch => rfl
  | guarded o =>
    cases o with
    | enter w => rfl
    | _ => cases h
  | _ => cases h

/-- What an instruction does with the number that stands in it. -/
inductive Operand
  | int | string | function | loadLocal | storeLocal | argument | shape
  deriving DecidableEq, Repr

namespace Operand

/-- The opcode in its longest form. -/
def long : Operand → Op
  | int => .loadInt .qword
  | string => .loadString .long
  | function => .loadFunction .long
  | loadLocal => .loadLocal (.wide .long)
  | storeLocal => .storeLocal (.wide .long)
  | argument => .loadArgument (.wide .long)
  | shape => .shape (.wide .long)

/-- The opcode in the most compact form for a number. -/
def compact : Operand → Int64 → Op
  | int, n => .compactInt n
  | string, n => .compactString n
  | function, n => .compactFunction n
  | loadLocal, n => .loadLocal (Op.compactSlot n)
  | storeLocal, n => .storeLocal (Op.compactSlot n)
  | argument, n => .compactArgument n
  | shape, n => .compactShape n

/-- The numbers that the longest form holds. -/
def Fits : Operand → Int64 → Prop
  | int, _ => True
  | _, n => fitsDword n

/-- **The opcodes that a number can be written with.** -/
inductive Form : Operand → Op → Int64 → Prop
  | int (f : IntForm) {n : Int64} (holds : f.Holds n) : Form int (.loadInt f) n
  | string (w : Width) {n : Int64} (holds : w.Holds n) : Form string (.loadString w) n
  | function (w : Width) {n : Int64} (holds : w.Holds n) : Form function (.loadFunction w) n
  | loadLocal (f : SlotForm) {n : Int64} (holds : f.Holds n) : Form loadLocal (.loadLocal f) n
  | storeLocal (f : SlotForm) {n : Int64} (holds : f.Holds n) : Form storeLocal (.storeLocal f) n
  | argument (f : ArgForm) {n : Int64} (holds : f.Holds n) : Form argument (.loadArgument f) n
  | shape (f : ShapeForm) {n : Int64} (holds : f.Holds n) : Form shape (.shape f) n

end Operand

theorem Width.shape_ne (w : Width) : w.shape ≠ .onStack := by cases w <;> nofun

theorem Width.size_ne (w : Width) : w.shape.size ≠ 0 := by cases w <;> nofun

/-- A number that a width holds is read back as it is. -/
theorem Width.Holds.held_eq {w : Width} {op : Op} {n : Int64} (h : w.Holds n)
    (hshape : op.immediate = w.shape) : op.held n = n := by
  have hbyte : (-128 : Int64).toInt = -128 := rfl
  have hbyte' : (127 : Int64).toInt = 127 := rfl
  have hdword : (-2147483648 : Int64).toInt = -2147483648 := rfl
  have hdword' : (2147483647 : Int64).toInt = 2147483647 := rfl
  rw [← Int64.toInt_inj]
  cases w with
  | short =>
    have hrange : -128 ≤ n.toInt ∧ n.toInt ≤ 127 := by
      simpa [Width.Holds, fitsByte, Int64.le_iff_toInt_le, hbyte, hbyte'] using h
    simp only [Op.held, hshape, Width.shape, Int8.toInt_toInt64, Int64.toInt_toInt8]
    exact Int.bmod_eq_of_le (by omega) (by omega)
  | long =>
    have hrange : -2147483648 ≤ n.toInt ∧ n.toInt ≤ 2147483647 := by
      simpa [Width.Holds, fitsDword, Int64.le_iff_toInt_le, hdword, hdword'] using h
    simp only [Op.held, hshape, Width.shape, Int32.toInt_toInt64, Int64.toInt_toInt32]
    exact Int.bmod_eq_of_le (by omega) (by omega)

theorem Op.held_embedded {op : Op} {imm : Int64} (hshape : op.immediate = .embedded) :
    op.held imm = Int64.ofNat op.embeddedImmediate := by
  rw [Op.held, hshape]

namespace Operand

variable {F : Operand} {op : Op} {n imm : Int64}

theorem Form.stays (form : F.Form op n) : op.jumps = false := by cases form <;> rfl

theorem Form.immediate_ne (form : F.Form op n) : op.immediate ≠ .onStack := by
  cases form with
  | int f holds =>
    cases f with
    | wide w => exact w.shape_ne
    | _ => nofun
  | string w => exact w.shape_ne
  | function w => exact w.shape_ne
  | loadLocal f holds | storeLocal f holds =>
    cases f with
    | embedded k => nofun
    | wide w => exact w.shape_ne
    | onStack => exact holds.elim
  | argument f holds =>
    cases f with
    | embedded k => nofun
    | wide w => exact w.shape_ne
    | onStack => exact holds.elim
  | shape f =>
    cases f with
    | embedded k => nofun
    | wide w => exact w.shape_ne

/-- What is written for a number is the number itself, unless the form does not write it. -/
def Written (op : Op) (n imm : Int64) : Prop :=
  imm = n ∨ op.immediate.size = 0

theorem Written.eq_of_width {w : Width} (h : Written op n imm) (hshape : op.immediate = w.shape) :
    imm = n :=
  h.resolve_right (hshape ▸ w.size_ne)

/-- **A form means the number that it holds.** -/
theorem Form.plain (form : F.Form op n) (written : Written op n imm) :
    Word.plain (op, op.held imm) = (F.long, n) := by
  have hwide {w : Width} (holds : w.Holds n) (hshape : op.immediate = w.shape) :
      op.held imm = n := by
    rw [written.eq_of_width hshape]
    exact holds.held_eq hshape
  cases form with
  | int f holds =>
    cases f with
    | embedded k =>
      cases holds
      rw [Op.held_embedded rfl]
      clear hwide written
      revert k
      decide
    | qword => rw [written.resolve_right (by decide)]; rfl
    | wide w => rw [hwide holds rfl]; rfl
    | minusOne => cases holds; rfl
  | string w holds => rw [hwide holds rfl]; rfl
  | function w holds => rw [hwide holds rfl]; rfl
  | loadLocal f holds | storeLocal f holds | argument f holds =>
    cases f with
    | embedded k =>
      cases holds
      rw [Op.held_embedded rfl]
      clear hwide written
      revert k
      decide
    | wide w => rw [hwide holds rfl]; rfl
    | onStack => exact holds.elim
  | shape f holds =>
    cases f with
    | embedded k =>
      cases holds
      rw [Op.held_embedded rfl]
      clear hwide written
      revert k
      decide
    | wide w => rw [hwide holds rfl]; rfl

/-- A small number is the one that is embedded. -/
theorem eq_smallIndex {bound : Nat} {n : Int64} (hbound : bound < 2 ^ 63)
    (h : upTo (Int64.ofNat bound) n) : n = Int64.ofNat (smallIndex bound n) := by
  have htop : (Int64.ofNat bound).toInt = bound := Int64.toInt_ofNat_of_lt hbound
  obtain ⟨hlow, hhigh⟩ : 0 ≤ n.toInt ∧ n.toInt ≤ bound := by
    simpa [upTo, Int64.le_iff_toInt_le, htop] using h
  have hindex : n.toNatClampNeg % (bound + 1) = n.toInt.toNat :=
    Nat.mod_eq_of_lt (by show n.toInt.toNat < _; omega)
  rw [← Int64.toInt_inj]
  show _ = (Int64.ofNat (n.toNatClampNeg % (bound + 1))).toInt
  rw [hindex, Int64.toInt_ofNat_of_lt (by omega)]
  omega

theorem tableWidth_holds (h : fitsDword n) : (Op.tableWidth n).Holds n := by
  unfold Op.tableWidth
  split
  · next hsmall =>
    have hzero : (-128 : Int64) ≤ 0 := by decide
    simp only [upTo, Bool.and_eq_true, decide_eq_true_eq] at hsmall
    simp only [Width.Holds, fitsByte, Bool.and_eq_true, decide_eq_true_eq]
    exact ⟨Int64.le_trans hzero hsmall.1, hsmall.2⟩
  · exact h

theorem wideWidth_holds (h : fitsDword n) : (Op.wideWidth n).Holds n := by
  unfold Op.wideWidth
  split
  · assumption
  · exact h

/-- **The most compact form holds the number.** -/
theorem compact_form (fits : F.Fits n) : F.Form (F.compact n) n := by
  cases F with
  | int =>
    show Form int (Op.compactInt n) n
    unfold Op.compactInt
    split_ifs with hone hsmall hbyte hdword
    · exact .int _ hone
    · exact .int _ (eq_smallIndex (by decide) hsmall)
    · exact .int _ hbyte
    · exact .int _ hdword
    · exact .int _ trivial
  | string => exact .string _ (tableWidth_holds fits)
  | function => exact .function _ (tableWidth_holds fits)
  | loadLocal | storeLocal =>
    first | refine .loadLocal _ ?_ | refine .storeLocal _ ?_
    unfold Op.compactSlot
    split
    · next hsmall => exact eq_smallIndex (by decide) hsmall
    · exact wideWidth_holds fits
  | argument =>
    refine .argument _ ?_
    split
    · next hsmall => exact eq_smallIndex (by decide) hsmall
    · exact wideWidth_holds fits
  | shape =>
    refine .shape _ ?_
    split
    · next hsmall => exact eq_smallIndex (by decide) hsmall
    · exact wideWidth_holds fits

/-- So does the longest one. -/
theorem long_form (fits : F.Fits n) : F.Form F.long n := by
  cases F with
  | int => exact .int _ trivial
  | string => exact .string _ fits
  | function => exact .function _ fits
  | loadLocal => exact .loadLocal _ fits
  | storeLocal => exact .storeLocal _ fits
  | argument => exact .argument _ fits
  | shape => exact .shape _ fits

instance (F : Operand) (n : Int64) : Decidable (F.Fits n) := by
  cases F <;> unfold Fits <;> infer_instance

end Operand

/-! ### Steps and the calls that write them -/

/-- **What is to be assembled**, step by step. -/
inductive Step
  /-- An instruction with a number. -/
  | operand (F : Operand) (n : Int64)
  /-- An opcode in exactly this form. -/
  | fixed (op : Op) (imm : Int64)
  /-- A branch or try instruction to a label. -/
  | branch (op : Op) (label : Nat)
  | newLabel
  | mark (label : Nat)
  | locals (count : Nat)
  | declare (name : String)
  deriving DecidableEq, Repr

namespace Step

/-- A step that can be assembled: its number is held by a form, or it jumps if it goes to a
label. -/
def Fits : Step → Prop
  | operand F n => F.Fits n
  | fixed op _ => op.jumps = false
  | branch op _ => op.jumps
  | _ => True

/-- The call of the assembler, with an opcode for each operand. -/
def call (form : Operand → Int64 → Op) : Step → Draft.Call
  | operand F n => .emit (form F n) n
  | fixed op imm => .emit op imm
  | branch op label => .branch op label
  | newLabel => .newLabel
  | mark label => .mark label
  | locals count => .locals count
  | declare name => .declare name

instance (s : Step) : Decidable s.Fits := by
  cases s <;> unfold Fits <;> infer_instance

end Step

namespace Draft

open Instruction

/-- **The calls that a step is written with.**  A number is written in the most compact form for it,
or in any form that holds it. -/
inductive Spells : Step → Call → Prop
  | compact (F : Operand) (n : Int64) (fits : F.Fits n) :
      Spells (.operand F n) (.emit (F.compact n) n)
  | form {F : Operand} {op : Op} {n imm : Int64} (form : F.Form op n)
      (written : Operand.Written op n imm) : Spells (.operand F n) (.emit op imm)
  | fixed {op : Op} (imm : Int64) (stays : op.jumps = false) : Spells (.fixed op imm) (.emit op imm)
  | branch {op : Op} (label : Nat) (jumps : op.jumps) : Spells (.branch op label) (.branch op label)
  | newLabel : Spells .newLabel .newLabel
  | mark (label : Nat) : Spells (.mark label) (.mark label)
  | locals (count : Nat) : Spells (.locals count) (.locals count)
  | declare (name : String) : Spells (.declare name) (.declare name)

/-- Steps are written with any choice of forms that hold their numbers. -/
theorem spells_call {form : Operand → Int64 → Op} {steps : List Step}
    (hform : ∀ (F : Operand) (n : Int64), F.Fits n → F.Form (form F n) n)
    (fits : ∀ s ∈ steps, s.Fits) :
    List.Forall₂ Spells steps (steps.map (Step.call form)) := by
  have hone (s : Step) (hs : s.Fits) : Spells s (s.call form) := by
    cases s with
    | operand F n => exact .form (hform F n hs) (.inl rfl)
    | fixed op imm => exact .fixed imm hs
    | branch op label => exact .branch label hs
    | newLabel => exact .newLabel
    | mark label => exact .mark label
    | locals count => exact .locals count
    | declare name => exact .declare name
  induction steps with
  | nil => exact .nil
  | cons s steps ih =>
    obtain ⟨hs, hrest⟩ := List.forall_mem_cons.mp fits
    exact .cons (hone s hs) (ih hrest)

/-- Two calls that write the same. -/
inductive Call.Alike : Call → Call → Prop
  | emit {op op' : Op} {imm imm' : Int64} (stays : op.jumps = false)
      (inCode : op.immediate ≠ .onStack) (inCode' : op'.immediate ≠ .onStack)
      (word : Word.Alike (op, op.held imm) (op', op'.held imm')) :
      Alike (.emit op imm) (.emit op' imm')
  | same {op : Op} (imm : Int64) (stays : op.jumps = false) : Alike (.emit op imm) (.emit op imm)
  | branch {op : Op} (label : Nat) (jumps : op.jumps) : Alike (.branch op label) (.branch op label)
  | silent {c : Call} (silent : c.bytes = []) : Alike c c

variable {c c' : Call} {cs cs' : List Call} {s : Step} {steps : List Step}

theorem Call.Alike.eq_mark_iff (h : c.Alike c') (label : Nat) : c = .mark label ↔
    c' = .mark label := by
  cases h with
  | silent => exact Iff.rfl
  | _ => exact iff_of_false nofun nofun

/-- The same labels are marked. -/
theorem Call.mark_mem_iff {label : Nat} (h : List.Forall₂ Call.Alike cs cs') :
    .mark label ∈ cs ↔ .mark label ∈ cs' := by
  induction h with
  | nil => exact Iff.rfl
  | cons hc _ ih =>
    rw [List.mem_cons, List.mem_cons, ih, eq_comm, hc.eq_mark_iff, eq_comm]

/-- **Calls that write one step write the same.** -/
theorem Spells.alike (h : Spells s c) (h' : Spells s c') : c.Alike c' := by
  have hforms {F : Operand} {op op' : Op} {n imm imm' : Int64} (form : F.Form op n)
      (written : Operand.Written op n imm) (form' : F.Form op' n)
      (written' : Operand.Written op' n imm') : (Call.emit op imm).Alike (.emit op' imm') :=
    .emit form.stays form.immediate_ne form'.immediate_ne
      ((form'.plain written').trans (form.plain written).symm)
  cases h with
  | compact F n fits =>
    cases h' with
    | compact => exact hforms (F.compact_form fits) (.inl rfl) (F.compact_form fits) (.inl rfl)
    | form form' written' => exact hforms (F.compact_form fits) (.inl rfl) form' written'
  | form form written =>
    cases h' with
    | compact _ _ fits => exact hforms form written (Operand.compact_form fits) (.inl rfl)
    | form form' written' => exact hforms form written form' written'
  | fixed imm stays =>
    cases h'
    exact .same imm stays
  | branch label jumps =>
    cases h'
    exact .branch label jumps
  | newLabel | mark | locals | declare =>
    cases h'
    exact .silent rfl

theorem alike_of_spells (h : List.Forall₂ Spells steps cs)
    (h' : List.Forall₂ Spells steps cs') : List.Forall₂ Call.Alike cs cs' := by
  induction h generalizing cs' with
  | nil =>
    cases h'
    exact .nil
  | cons hs _ ih =>
    cases h' with
    | cons hs' hrest => exact .cons (hs.alike hs') (ih hrest)

/-! ### What is assembled -/

/-- Two drafts that are alike but for their code. -/
structure Alike (d d' : Draft) : Prop where
  name : d'.name = d.name
  locals : d'.locals = d.locals
  declared : d'.declared = d.declared
  known : d'.labels.size = d.labels.size
  placed : ∀ label : Nat, (d'.labels[label]?).join.isSome = (d.labels[label]?).join.isSome
  targets : d'.fixups.map Prod.snd = d.fixups.map Prod.snd

/-- **One call** is made on both drafts or on none. -/
theorem Alike.call {d d' e : Draft} (h : d.Alike d') (hc : c.Alike c') (hcall : d.call c = .ok e) :
    ∃ e', d'.call c' = .ok e' ∧ e.Alike e' := by
  cases hc with
  | emit stays inCode inCode' word =>
    cases hcall
    exact ⟨_, rfl, { h with }⟩
  | same imm stays =>
    cases hcall
    exact ⟨_, rfl, { h with }⟩
  | branch label jumps =>
    obtain ⟨hshape, rfl⟩ := call_branch_eq_ok hcall
    refine ⟨_, if_pos hshape, { h with targets := ?_ }⟩
    simp [h.targets]
  | silent hsilent =>
    cases c with
    | emit op imm => cases hsilent
    | branch op label => cases hsilent
    | newLabel =>
      cases hcall
      refine ⟨_, rfl, { h with known := ?_, placed := fun label => ?_ }⟩
      · simp [newLabel, h.known]
      · have := h.placed label
        simp only [newLabel, Array.getElem?_push, h.known]
        split <;> simp [*]
    | mark label =>
      cases hcall
      refine ⟨_, rfl, { h with known := ?_, placed := fun other => ?_ }⟩
      · simp [mark, h.known]
      · have := h.placed other
        simp only [mark, Array.getElem?_setIfInBounds, h.known]
        split
        · split <;> simp [*]
        · exact this
    | locals count =>
      rw [Draft.call, addLocals] at hcall
      cases hadd : Sizes.word64.add d.locals count with
      | error e =>
        rw [hadd] at hcall
        cases hcall
      | ok locals =>
        rw [hadd] at hcall
        cases hcall
        refine ⟨{ d' with locals }, ?_, { h with locals := rfl }⟩
        rw [Draft.call, addLocals, h.locals, hadd]
        rfl
    | declare name =>
      cases hcall
      refine ⟨_, rfl, { h with declared := ?_ }⟩
      simp [addVariable, h.declared]

theorem Alike.calls {d d' e : Draft} (h : d.Alike d') (hcs : List.Forall₂ Call.Alike cs cs')
    (hcalls : d.calls cs = .ok e) : ∃ e', d'.calls cs' = .ok e' ∧ e.Alike e' := by
  induction hcs generalizing d d' with
  | nil =>
    cases hcalls
    exact ⟨d', rfl, h⟩
  | cons hc _ ih =>
    obtain ⟨f, hcall, hrest⟩ := calls_cons_eq_ok hcalls
    obtain ⟨f', hcall', hf⟩ := h.call hc hcall
    obtain ⟨e', hrest', he⟩ := ih hf hrest
    refine ⟨e', ?_, he⟩
    rw [Draft.calls, hcall']
    exact hrest'

/-- The open targets can be filled in if every label has its place. -/
theorem resolve_isOk_iff (d : Draft) (holes : List (Nat × Nat)) (code : Bytes) :
    (∃ code', d.resolve holes code = .ok code') ↔
      ∀ label ∈ holes.map Prod.snd, (d.labels[label]?).join.isSome := by
  induction holes generalizing code with
  | nil => simp [resolve]
  | cons hole holes ih =>
    obtain ⟨start, label⟩ := hole
    rw [resolve, List.map_cons, List.forall_mem_cons]
    cases (d.labels[label]?).join with
    | none => simp
    | some target => simpa using ih _

/-- **A function is finished** on both sides or on none. -/
theorem Alike.build {d d' : Draft} {p : Prototype} (h : d.Alike d') (hbuild : d.build = .ok p) :
    ∃ p', d'.build = .ok p' ∧ p'.name = p.name ∧ p'.locals = p.locals ∧
      p'.declared = p.declared := by
  rw [Draft.build] at hbuild ⊢
  cases hresolve : d.resolve d.fixups d.code with
  | error e =>
    rw [hresolve] at hbuild
    cases hbuild
  | ok code =>
    rw [hresolve] at hbuild
    cases hbuild
    have hplaced := (resolve_isOk_iff d d.fixups d.code).mp ⟨code, hresolve⟩
    rw [← h.targets] at hplaced
    obtain ⟨code', hresolve'⟩ :=
      (resolve_isOk_iff d' d'.fixups d'.code).mpr fun label hmem => by
      rw [h.placed]
      exact hplaced label hmem
    rw [hresolve']
    exact ⟨_, rfl, h.name, h.locals, h.declared⟩

/-- What calls are assembled to. -/
def Assembles (name : String) (cs : List Call) (p : Prototype) : Prop :=
  ((Draft.new name).calls cs >>= build) = .ok p

instance (name : String) (cs : List Call) (p : Prototype) : Decidable (Assembles name cs p) :=
  inferInstanceAs (Decidable (_ = _))

theorem assembles_iff {name : String} {p : Prototype} :
    Assembles name cs p ↔ ∃ d, (Draft.new name).calls cs = .ok d ∧ d.build = .ok p := by
  rw [Assembles]
  cases (Draft.new name).calls cs with
  | error e => exact iff_of_false nofun fun ⟨_, h, _⟩ => nomatch h
  | ok d =>
    exact ⟨fun h => ⟨d, rfl, h⟩, fun ⟨_, h, hbuild⟩ => Except.ok.inj h ▸ hbuild⟩

theorem Assembles.unique {name : String} {p p' : Prototype} (h : Assembles name cs p)
    (h' : Assembles name cs p') : p' = p :=
  Except.ok.inj (h'.symm.trans h)

/-- **Calls that write the same** are assembled on both sides or on none. -/
theorem Assembles.alike {name : String} {p : Prototype} (h : Assembles name cs p)
    (hcs : List.Forall₂ Call.Alike cs cs') : ∃ p', Assembles name cs' p' ∧
      p'.name = p.name ∧ p'.locals = p.locals ∧ p'.declared = p.declared := by
  obtain ⟨d, hcalls, hbuild⟩ := assembles_iff.mp h
  have hnew : (Draft.new name).Alike (Draft.new name) := ⟨rfl, rfl, rfl, rfl, fun _ => rfl, rfl⟩
  obtain ⟨d', hcalls', hd⟩ := hnew.calls hcs hcalls
  obtain ⟨p', hbuild', hp⟩ := hd.build hbuild
  exact ⟨p', assembles_iff.mpr ⟨d', hcalls', hbuild'⟩, hp⟩

/-! ### Addresses beside each other -/

/-- A jump to an address inside the code or at its end leads there. -/
theorem landing_of_add {len next target : Nat} {imm : Int64} (hshort : len < 2 ^ 31)
    (htarget : target ≤ len) (hadd : Int64.ofNat next + imm = Int64.ofNat target) :
    landing len next imm = .ok target := by
  have hint : (Int64.ofNat target).toInt = target := Int64.toInt_ofNat_of_lt (by omega)
  have hnat : (Int64.ofNat target).toNatClampNeg = target := by
    show (Int64.ofNat target).toInt.toNat = target
    rw [hint]
    rfl
  have hinside : ¬ (Int64.ofNat target < 0 ∨ len < (Int64.ofNat target).toNatClampNeg) := by
    rw [hnat, Int64.lt_iff_toInt_lt, hint]
    simp only [Int64.toInt_zero]
    omega
  unfold landing
  dsimp only
  rw [hadd, if_neg hinside, hnat]

/-- **Addresses with as many steps before them**, in the codes of two lists of calls. -/
def Beside (cs cs' : List Call) (a a' : Nat) : Prop :=
  ∃ b c b' c', cs = b ++ c ∧ cs' = b' ++ c' ∧ List.Forall₂ Call.Alike b b' ∧
    List.Forall₂ Call.Alike c c' ∧ a = (b.flatMap Call.bytes).length ∧
    a' = (b'.flatMap Call.bytes).length

namespace Assembles

variable {name : String} {p : Prototype} {b a : List Call} {op : Op} {imm : Int64} {label : Nat}

/-- Behind the last call is the end of the code. -/
theorem size_eq (h : Assembles name cs p) : p.code.size = (cs.flatMap Call.bytes).length := by
  obtain ⟨d, hcalls, hbuild⟩ := assembles_iff.mp h
  rw [← Array.length_toList, toList_build hcalls hbuild, Call.length_instructions]

/-- At the end of the code is the implicit return. -/
theorem decode_end (h : Assembles name (b ++ []) p) :
    decode p.code (b.flatMap Call.bytes).length
      = .ok (implicitRet (b.flatMap Call.bytes).length) := by
  rw [← List.append_nil b, ← h.size_eq, decode, dif_neg (Nat.lt_irrefl _), if_pos rfl]

/-- Where an opcode was emitted, it is decoded. -/
theorem decode_emit (h : Assembles name (b ++ .emit op imm :: a) p) :
    decode p.code (b.flatMap Call.bytes).length
      = .ok (emitted (b.flatMap Call.bytes).length op imm) := by
  obtain ⟨d, hcalls, hbuild⟩ := assembles_iff.mp h
  have hcode := toList_build hcalls hbuild
  rw [Call.along_append, Call.along, Call.instructions] at hcode
  rw [← Call.length_instructions d.place 0 b]
  exact decode_emitted (hasAt_encode hcode)

/-- **Where a branch was written**, there is one that leads to where its label was last marked. -/
theorem decode_branch (h : Assembles name (b ++ .branch op label :: a) p)
    (hshort : p.code.size < 2 ^ 31) :
    op.immediate = .dword ∧ ∃ imm b' a', decode p.code (b.flatMap Call.bytes).length
        = .ok (emitted (b.flatMap Call.bytes).length op imm) ∧
      b ++ .branch op label :: a = b' ++ .mark label :: a' ∧ .mark label ∉ a' ∧
      landing p.code.size (emitted (b.flatMap Call.bytes).length op imm).next
          (emitted (b.flatMap Call.bytes).length op imm).imm
        = .ok (b'.flatMap Call.bytes).length := by
  obtain ⟨d, hcalls, hbuild⟩ := assembles_iff.mp h
  have hmem : .branch op label ∈ b ++ .branch op label :: a := by simp
  obtain ⟨b', a', marked, hsplit, hlast, hmarked, hplace, htarget, -⟩ :=
    label_placed hcalls hbuild hmem
  have hposition : marked.position = (b'.flatMap Call.bytes).length := by
    rw [position_calls hmarked d.place, Call.length_instructions]
  have hcode := toList_build hcalls hbuild
  rw [hposition] at hplace htarget
  rw [Call.along_append, Call.along, Call.instructions, hplace, Nat.zero_add,
    ← Call.length_instructions d.place 0 b] at hcode
  obtain ⟨ins, hdecode, -, hadd⟩ :=
    decode_distance hcode (branch_of_calls hcalls hmem) hshort htarget
  have hemitted := decode_emitted (hasAt_encode hcode)
  cases hdecode.symm.trans hemitted
  rw [Call.length_instructions] at hemitted hadd
  exact ⟨branch_of_calls hcalls hmem, _, b', a', hemitted, hsplit, hlast,
    landing_of_add hshort htarget hadd⟩

end Assembles

namespace Beside

variable {b c b' c' : List Call} {x y : Call}

theorem start (h : List.Forall₂ Call.Alike cs cs') : Beside cs cs' 0 0 :=
  ⟨[], cs, [], cs', rfl, rfl, .nil, h, rfl, rfl⟩

/-- Behind one more call. -/
theorem next (hb : List.Forall₂ Call.Alike b b') (hxy : x.Alike y)
    (hc : List.Forall₂ Call.Alike c c') :
    Beside (b ++ x :: c) (b' ++ y :: c') ((b.flatMap Call.bytes).length + x.bytes.length)
      ((b'.flatMap Call.bytes).length + y.bytes.length) := by
  refine ⟨b ++ [x], c, b' ++ [y], c', by simp, by simp, List.rel_append hb (.cons hxy .nil),
    hc, ?_, ?_⟩
  all_goals simp

/-- The last mark of a label on the one side is written when the last one on the other side is. -/
theorem split_mark {label : Nat}
    (h : List.Forall₂ Call.Alike (b ++ .mark label :: c) (b' ++ .mark label :: c'))
    (hlast : .mark label ∉ c) (hlast' : .mark label ∉ c') :
    List.Forall₂ Call.Alike b b' ∧
    List.Forall₂ Call.Alike (.mark label :: c) (.mark label :: c') := by
  induction b generalizing b' with
  | nil =>
    cases b' with
    | nil => exact ⟨.nil, h⟩
    | cons y b' =>
      rw [List.nil_append, List.cons_append, List.forall₂_cons] at h
      exact absurd ((Call.mark_mem_iff h.2).mpr (by simp)) hlast
  | cons x b ih =>
    cases b' with
    | nil =>
      rw [List.nil_append, List.cons_append, List.forall₂_cons] at h
      exact absurd ((Call.mark_mem_iff h.2).mp (by simp)) hlast'
    | cons y b' =>
      rw [List.cons_append, List.cons_append, List.forall₂_cons] at h
      obtain ⟨hb, hc⟩ := ih h.2
      exact ⟨.cons h.1 hb, hc⟩

end Beside

/-- **Calls that write the same** are assembled to two spellings of one code. -/
theorem Assembles.twin {name name' : String} {p p' : Prototype} (h : Assembles name cs p)
    (h' : Assembles name' cs' p') (hcs : List.Forall₂ Call.Alike cs cs')
    (hshort : p.code.size < 2 ^ 31) (hshort' : p'.code.size < 2 ^ 31) :
    Code.Twin (Beside cs cs') Word.Alike p.code p'.code := by
  refine ⟨.start hcs, ?_⟩
  rintro _ _ ⟨b, c, b', c', rfl, rfl, hb, hc, rfl, rfl⟩
  -- What is read next is what the next call wrote that writes anything.
  induction hc generalizing b b' with
  | nil =>
    have hnext : Beside (b ++ []) (b' ++ []) (b.flatMap Call.bytes).length
        (b'.flatMap Call.bytes).length := ⟨b, [], b', [], rfl, rfl, hb, .nil, rfl, rfl⟩
    rw [h.decode_end, h'.decode_end]
    exact .ok (.carried hnext rfl rfl rfl rfl (.refl _) fun hjumps => by cases hjumps)
  | @cons x y c c' hxy hc ih =>
    have hnext := Beside.next hb hxy hc
    cases hxy with
    | emit stays inCode inCode' word =>
      rw [h.decode_emit, h'.decode_emit]
      refine .ok (.carried hnext rfl rfl (decide_eq_false inCode) (decide_eq_false inCode') word
        fun hjumps => ?_)
      rw [stays] at hjumps
      cases hjumps
    | @same op imm stays =>
      rw [h.decode_emit, h'.decode_emit]
      by_cases hstack : op.immediate = .onStack
      · exact .ok (.popped hnext rfl rfl (decide_eq_true hstack) (decide_eq_true hstack) stays
          fun _ => .refl _)
      · refine .ok
          (.carried hnext rfl rfl (decide_eq_false hstack) (decide_eq_false hstack) (.refl _)
          fun hjumps => ?_)
        rw [stays] at hjumps
        cases hjumps
    | @branch op label jumps =>
      obtain ⟨hshape, imm, f, g, hdecode, hsplit, hlast, hland⟩ := h.decode_branch hshort
      obtain ⟨-, imm', f', g', hdecode', hsplit', hlast', hland'⟩ := h'.decode_branch hshort'
      have hends (a : Nat) (imm : Int64) :
          (emitted a op imm).next = a + (Call.branch op label).bytes.length := by
        simp [emitted, Call.bytes]
      rw [← hends _ imm, ← hends _ imm'] at hnext
      rw [hdecode, hdecode']
      have hcode : op.immediate ≠ .onStack := by
        rw [hshape]
        exact fun h => by cases h
      refine .ok (.carried hnext rfl rfl (decide_eq_false hcode) (decide_eq_false hcode)
        (Word.alike_of_jumps jumps _ _) fun _ => ?_)
      rw [hland, hland']
      refine .ok ?_
      rw [hsplit, hsplit'] at hcs
      obtain ⟨hf, hg⟩ := Beside.split_mark hcs hlast hlast'
      exact ⟨f, _, f', _, hsplit, hsplit', hf, hg, rfl, rfl⟩
    | silent hsilent =>
      rw [List.append_cons b] at h hcs ⊢
      rw [List.append_cons b'] at h' hcs ⊢
      have hmoved := ih _ _ h h' hcs (List.rel_append hb (.cons (.silent hsilent) .nil))
      simpa [hsilent] using hmoved

end Draft

end ScriptVm
