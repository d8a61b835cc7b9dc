import ScriptVm.Proofs.Evaluation
import ScriptVm.Proofs.Forms

/-!
# Interned strings

The strings of a unit are numbered in the order in which they are first used, and each
of them has one number, however often it is used.  So a number that was given out once
denotes its string in the unit that is finished later, whatever is added meanwhile.

That is what code relies on.  It is assembled while strings are still being added, and
all that it keeps of a string is the number: in one byte or in four, wherever the
instruction stands, with open branches before and behind it that are filled in at the
end.  The instruction still stands in the finished code as it was written, because a
branch is filled in where it was left open and nowhere else.

Main statements: `StringPool.Indexed.intern` (strings and positions stay inverse to each
other), `UnitDraft.strings_calls` (the strings of a history of calls),
`Draft.Continues.hasAt_build` (what was emitted stands in the finished code) and
`UnitDraft.interning_consistent`.
-/

namespace ScriptVm

variable {σ : Type}

/-! ### Strings and their positions -/

namespace StringPool

variable {pool : StringPool} {s : String} {i : Nat}

/-- **The positions of a pool are those of its strings**, each of which is there once. -/
def Indexed (pool : StringPool) : Prop :=
  ∀ s i, pool.positions.get? s = some i ↔ pool.strings[i]? = some s

theorem indexed_empty : Indexed empty := by
  intro s i
  simp [empty]

theorem Indexed.nodup (h : pool.Indexed) : pool.strings.toList.Nodup := by
  have hposition {i : Nat} (hi : i < pool.strings.toList.length) :
      pool.positions.get? pool.strings.toList[i] = some i := by
    rw [h, ← Array.getElem?_toList, List.getElem?_eq_getElem hi]
  rw [List.nodup_iff_pairwise_ne, List.pairwise_iff_getElem]
  intro i j hi hj hij hsame
  have hsecond := hposition hj
  rw [← hsame, hposition hi] at hsecond
  exact Nat.ne_of_lt hij (Option.some.inj hsecond)

theorem Indexed.mem_iff (h : pool.Indexed) : s ∈ pool.strings.toList ↔
    pool.positions.get? s ≠ none := by
  rw [List.mem_iff_getElem?, Option.ne_none_iff_exists']
  simp only [Array.getElem?_toList, h s]

theorem intern_of_known (h : pool.positions.get? s = some i) : pool.intern s = (i, pool) := by
  rw [intern, h]

theorem intern_of_new (h : pool.positions.get? s = none) :
    pool.intern s = (pool.strings.size,
      ⟨pool.strings.push s, pool.positions.insert s pool.strings.size⟩) := by
  rw [intern, h]

/-- **Strings and positions stay inverse to each other**, and the answer is the position. -/
theorem Indexed.intern (h : pool.Indexed) (s : String) :
    (pool.intern s).2.Indexed ∧ (pool.intern s).2.strings[(pool.intern s).1]? = some s := by
  cases hget : pool.positions.get? s with
  | some i =>
    rw [intern_of_known hget]
    exact ⟨h, (h s i).mp hget⟩
  | none =>
    rw [intern_of_new hget]
    refine ⟨fun t i => ?_, by simp⟩
    have hnew (j : Nat) : pool.strings[j]? ≠ some s := by
      intro hj
      rw [(h s j).mpr hj] at hget
      cases hget
    show (pool.positions.insert s pool.strings.size).get? t = some i ↔
      (pool.strings.push s)[i]? = some t
    rw [Array.getElem?_push]
    by_cases ht : t = s
    · subst ht
      rw [Assoc.get?_insert_self, Option.some_inj]
      split
      · next hi => exact iff_of_true hi.symm rfl
      · next hi => exact iff_of_false (fun heq => hi heq.symm) (hnew i)
    · rw [Assoc.get?_insert_of_ne _ _ ht, h t i]
      split
      · next hi =>
        refine iff_of_false (fun hold => ?_) fun heq => ht (Option.some.inj heq).symm
        rw [hi] at hold
        simp at hold
      · rfl

/-- A string that is new comes last. -/
theorem Indexed.strings_intern (h : pool.Indexed) (s : String) :
    (pool.intern s).2.strings.toList
      = if s ∈ pool.strings.toList then pool.strings.toList else pool.strings.toList ++ [s] := by
  cases hget : pool.positions.get? s with
  | some i =>
    have hmem : s ∈ pool.strings.toList := h.mem_iff.mpr (by simp [hget])
    rw [intern_of_known hget, if_pos hmem]
  | none =>
    have hmem : s ∉ pool.strings.toList := fun hmem => h.mem_iff.mp hmem hget
    rw [intern_of_new hget, if_neg hmem, Array.toList_push]

end StringPool

/-! ### Histories of a unit -/

/-- One more string is new, or it has come before. -/
theorem eraseDups_concat (texts : List String) (s : String) :
    (texts ++ [s]).eraseDups
      = if s ∈ texts then texts.eraseDups else texts.eraseDups ++ [s] := by
  rw [List.eraseDups_append]
  by_cases h : s ∈ texts
  · have hknown : [s].removeAll texts = [] := by simp [List.removeAll, h]
    rw [hknown, if_pos h, List.eraseDups_nil, List.append_nil]
  · have hnew : [s].removeAll texts = [s] := by simp [List.removeAll, h]
    rw [hnew, if_neg h]
    rfl

namespace UnitDraft

/-- **A call of the assembler of units.** -/
inductive Call
  | intern (s : String)
  | addFunction (p : Prototype)
  | setEntry (index : Nat)
  deriving DecidableEq, Repr

/-- What a call makes of a unit. -/
def call (u : UnitDraft) : Call → UnitDraft
  | .intern s => (u.intern s).2
  | .addFunction p => (u.addFunction p).2
  | .setEntry index => u.setEntry index

/-- What calls make of a unit, one after the other. -/
def calls (u : UnitDraft) (cs : List Call) : UnitDraft :=
  cs.foldl call u

/-- The string that a call uses. -/
def Call.text? : Call → Option String
  | .intern s => some s
  | _ => none

variable {cs before after : List Call} {s : String}

theorem calls_append (u : UnitDraft) (cs : List Call) (c : Call) :
    u.calls (cs ++ [c]) = (u.calls cs).call c :=
  List.foldl_concat call u c cs

theorem indexed_calls (cs : List Call) : (empty.calls cs).pool.Indexed := by
  induction cs using List.reverseRecOn with
  | nil => exact StringPool.indexed_empty
  | append_singleton cs c ih =>
    rw [calls_append]
    cases c with
    | intern s => exact (ih.intern s).1
    | addFunction p => exact ih
    | setEntry index => exact ih

/-- **The strings of a unit** are those used, in the order of their first uses. -/
theorem strings_calls (cs : List Call) :
    (empty.calls cs).build.strings.toList = (cs.filterMap Call.text?).eraseDups := by
  induction cs using List.reverseRecOn with
  | nil => rfl
  | append_singleton cs c ih =>
    rw [calls_append, List.filterMap_append]
    cases c with
    | intern s =>
      have hmem : s ∈ (empty.calls cs).pool.strings.toList ↔ s ∈ cs.filterMap Call.text? := by
        show s ∈ (empty.calls cs).build.strings.toList ↔ _
        rw [ih, List.mem_eraseDups]
      refine ((indexed_calls cs).strings_intern s).trans ?_
      show _ = (cs.filterMap Call.text? ++ [s]).eraseDups
      rw [eraseDups_concat, ← ih]
      simp only [hmem]
      rfl
    | addFunction p | setEntry index =>
      show _ = (cs.filterMap Call.text? ++ []).eraseDups
      rw [List.append_nil, ← ih]
      rfl

/-- Strings are only added behind the others. -/
theorem strings_prefix (before after : List Call) :
    (empty.calls before).build.strings.toList
      <+: (empty.calls (before ++ after)).build.strings.toList := by
  rw [strings_calls, strings_calls, List.filterMap_append, List.eraseDups_append]
  exact List.prefix_append _ _

/-- **What a string was numbered** is its number in every later unit. -/
theorem getElem?_intern (before after : List Call) (s : String) :
    (empty.calls (before ++ .intern s :: after)).build.strings[((empty.calls before).intern s).1]?
      = some s := by
  obtain ⟨more, hmore⟩ := strings_prefix (before ++ [.intern s]) after
  have hnow :
      (empty.calls (before ++ [.intern s])).build.strings[((empty.calls before).intern s).1]?
        = some s := by
    rw [calls_append]
    exact ((indexed_calls before).intern s).2
  rw [← Array.getElem?_toList] at hnow ⊢
  rw [List.append_assoc, List.singleton_append] at hmore
  rw [← hmore, List.getElem?_append_left (List.getElem?_eq_some_iff.mp hnow).1]
  exact hnow

end UnitDraft

/-! ### What stands in finished code -/

namespace Bytes.HasAt

variable {code : Bytes} {cursor start : Nat} {part : List UInt8}

/-- A byte that is changed elsewhere. -/
theorem setIfInBounds (h : code.HasAt cursor part)
    (hapart : start < cursor ∨ cursor + part.length ≤ start) (b : UInt8) :
    Bytes.HasAt (code.setIfInBounds start b) cursor part := by
  obtain ⟨before, after, hcode, rfl⟩ := h
  rcases hapart with hbelow | habove
  · refine ⟨before.set start b, after, ?_, List.length_set⟩
    rw [Array.toList_setIfInBounds, hcode, List.append_assoc, List.set_append_left _ _ hbelow,
      List.append_assoc]
  · refine ⟨before, after.set (start - (before ++ part).length) b, ?_, rfl⟩
    rw [Array.toList_setIfInBounds, hcode, List.set_append_right _ _ (by simpa using habove)]

theorem overwrite (h : code.HasAt cursor part) {new : List UInt8}
    (hapart : start + new.length ≤ cursor ∨ cursor + part.length ≤ start) :
    Bytes.HasAt (Draft.overwrite code start new) cursor part := by
  induction new generalizing code start with
  | nil => exact h
  | cons b rest ih =>
    rw [List.length_cons] at hapart
    apply ih
    · exact h.setIfInBounds (by omega) b
    · omega

end Bytes.HasAt

namespace Draft

open Instruction

variable {d e f : Draft} {code code' : Bytes} {cursor : Nat} {part : List UInt8}

/-- **Targets are filled in** where they were left open and nowhere else. -/
theorem hasAt_resolve (d : Draft) {holes : List (Nat × Nat)} (h : code.HasAt cursor part)
    (hapart : ∀ hole ∈ holes, hole.1 + 4 ≤ cursor ∨ cursor + part.length ≤ hole.1)
    (hresolve : d.resolve holes code = .ok code') : code'.HasAt cursor part := by
  induction holes generalizing code with
  | nil =>
    cases hresolve
    exact h
  | cons hole rest ih =>
    obtain ⟨start, label⟩ := hole
    rw [resolve] at hresolve
    cases hplace : (d.labels[label]?).join with
    | none =>
      rw [hplace] at hresolve
      cases hresolve
    | some target =>
      rw [hplace] at hresolve
      have hfirst := hapart (start, label) List.mem_cons_self
      refine ih (h.overwrite ?_)
        (fun hole hmem => hapart hole (List.mem_cons_of_mem _ hmem)) hresolve
      rw [Bytes.length_toLittle]
      exact hfirst

theorem position_raw (d : Draft) (bytes : List UInt8) :
    (d.raw bytes).position = d.position + bytes.length := by
  rw [position, ← Array.length_toList]
  simp [raw, position]

/-- **A draft that is written on**, in any way, with bytes as they are among the rest. -/
inductive Continues (d : Draft) : Draft → Prop
  | refl : Continues d d
  | raw {e : Draft} (before : Continues d e) (bytes : List UInt8) : Continues d (e.raw bytes)
  | call {e f : Draft} (before : Continues d e) {c : Call} (called : e.call c = .ok f) :
      Continues d f

/-- **What is written on** comes behind what is there, and so do the targets that it leaves open. -/
theorem Continues.written (h : d.Continues e) : ∃ more holes,
    e.code.toList = d.code.toList ++ more ∧ e.fixups = d.fixups ++ holes ∧
      ∀ hole ∈ holes, d.position ≤ hole.1 ∧ hole.1 + 4 ≤ e.position := by
  induction h with
  | refl => exact ⟨[], [], by simp, by simp, nofun⟩
  | @raw e before bytes ih =>
    obtain ⟨more, holes, hcode, hfixups, hinside⟩ := ih
    refine ⟨more ++ bytes, holes, by simp [Draft.raw, hcode], hfixups, fun hole hmem => ?_⟩
    obtain ⟨hlow, hhigh⟩ := hinside hole hmem
    have hlonger := e.position_raw bytes
    omega
  | @call e f before c called ih =>
    obtain ⟨more, holes, hcode, hfixups, hinside⟩ := ih
    obtain ⟨hcode', hfixups'⟩ := written_call called
    have hlonger : f.position = e.position + c.bytes.length := by
      rw [position, ← Array.length_toList, hcode', List.length_append,
        Array.length_toList, position]
    have hbehind : d.position ≤ e.position := by
      have hsize : e.code.toList.length = e.position := Array.length_toList
      rw [← hsize, hcode, List.length_append, Array.length_toList, position]
      exact Nat.le_add_right _ _
    refine ⟨more ++ c.bytes, holes ++ c.targets e.code.size, ?_, ?_, ?_⟩
    · rw [hcode', hcode, List.append_assoc]
    · rw [hfixups', hfixups, List.append_assoc]
    · intro hole hmem
      rcases List.mem_append.mp hmem with hold | hnew
      · obtain ⟨hlow, hhigh⟩ := hinside hole hold
        omega
      · cases c with
        | branch op label =>
          obtain ⟨hshape, -⟩ := call_branch_eq_ok called
          have hlength : (Call.branch op label).bytes.length = 5 := by
            rw [Call.bytes, length_emit, hshape]
            rfl
          rw [Call.targets, List.mem_singleton] at hnew
          rw [hnew]
          show d.position ≤ e.position + 1 ∧ e.position + 1 + 4 ≤ f.position
          omega
        | _ => cases hnew

/-- **What was emitted stands in the finished code** as it was written, whatever was written before
and behind it. -/
theorem Continues.hasAt_build {name : String} {op : Op} {imm : Int64} {p : Prototype}
    (hbefore : (new name).Continues d) (hbehind : (d.emit op imm).Continues e)
    (hbuild : e.build = .ok p) : p.code.HasAt d.position (Instruction.emit op imm) := by
  obtain ⟨_, holes, -, hfixups, hinside⟩ := hbefore.written
  obtain ⟨more, holes', hcode, hfixups', hinside'⟩ := hbehind.written
  have hat : e.code.HasAt d.position (Instruction.emit op imm) :=
    ⟨d.code.toList, more, by rw [hcode]; simp [emit, Draft.raw], by simp [position]⟩
  have hposition : (d.emit op imm).position = d.position + (Instruction.emit op imm).length :=
    d.position_raw _
  have hapart : ∀ hole ∈ e.fixups,
      hole.1 + 4 ≤ d.position ∨ d.position + (Instruction.emit op imm).length ≤ hole.1 := by
    intro hole hmem
    have hsplit : e.fixups = holes ++ holes' := by
      rw [hfixups']
      exact congrArg (· ++ holes') hfixups
    rcases List.mem_append.mp (hsplit ▸ hmem) with hold | hnew
    · exact .inl (hinside hole hold).2
    · exact .inr (hposition ▸ (hinside' hole hnew).1)
  rw [build] at hbuild
  cases hresolve : e.resolve e.fixups e.code with
  | error defect =>
    rw [hresolve] at hbuild
    cases hbuild
  | ok code =>
    rw [hresolve] at hbuild
    cases hbuild
    exact hasAt_resolve e hat hapart hresolve

end Draft

/-! ### Loading a string -/

/-- A small number is written as it is, in the width that is chosen for it. -/
theorem held_compactString {i : Nat} (h : i < 2 ^ 31) :
    (Op.compactString (Int64.ofNat i)).held (Int64.ofNat i) = Int64.ofNat i := by
  have hint : (Int64.ofNat i).toInt = i := Int64.toInt_ofNat_of_lt (by omega)
  have hlow : (-2147483648 : Int64).toInt = -2147483648 := rfl
  have hhigh : (2147483647 : Int64).toInt = 2147483647 := rfl
  have hfits : fitsDword (Int64.ofNat i) := by
    simp only [fitsDword, Bool.and_eq_true, decide_eq_true_eq, Int64.le_iff_toInt_le, hint,
      hlow, hhigh]
    omega
  exact (Operand.tableWidth_holds hfits).held_eq rfl

namespace Machine

variable {M : Machine σ} {fs : List Frame} {f : Frame} {r : Ref .function} {context : Ref .context}
  {s : String} {i : Nat}

/-- **The string of a number** is loaded from the unit of the running closure. -/
theorem loadString_apply (hs : (M.heap.unit (M.heap.function r).unit).strings[i]? = some s)
    (hi : i < 2 ^ 63) :
    Exec.loadString r (Int64.ofNat i) M
      = .ok () (M.onValues fun values => values.push (.str s)) := by
  have hint : (Int64.ofNat i).toInt = i := Int64.toInt_ofNat_of_lt hi
  have hnat : (Int64.ofNat i).toNatClampNeg = i := Int64.toNatClampNeg_ofNat_of_lt hi
  have hnonneg : ¬ Int64.ofNat i < 0 := by
    rw [Int64.lt_iff_toInt_lt, hint, Int64.toInt_zero]
    omega
  rw [Exec.loadString, Exec.bind_of_ok (Exec.heap_apply M)]
  simp only [hnonneg, if_false, hnat, hs]
  rfl

/-- **A machine that goes on at an address**: the current frame `f`, with `fs` below it, runs a
closure over a prototype of a unit, is finished with its last instruction, and has the next one
there. -/
structure GoesOnAt (M : Machine σ) (fs : List Frame) (f : Frame) (u : CodeUnit) (p : Prototype)
    (address : Nat) : Prop where
  frames : M.memory.view.frames = fs ++ [f]
  runs : ∃ r context, f.activity = .bytecode r context ∧
    M.heap.unit (M.heap.function r).unit = u ∧
    u.prototypes[(M.heap.function r).index]? = some p
  finished : f.progress.finished = true
  nextIp : f.nextIp = address

/-- **A machine after a string constant was loaded**: the string is on top of the values, the
current frame is behind the instruction and finished with it, and all else is as it was. -/
def Loaded (M : Machine σ) (fs : List Frame) (f : Frame) (s : String) (address : Nat)
    (index : Int64) (N : Machine σ) : Prop :=
  M.Stacked { M.memory.view with
    values := M.memory.view.values ++ [.str s]
    frames := fs ++ [begun f (.compactString index) index
      (address + (Instruction.emit (.compactString index) index).length)] } N

/-- **An instruction that loads a string constant**, in either width. -/
theorem GoesOnAt.loads {u : CodeUnit} {p : Prototype} {address : Nat}
    (h : M.GoesOnAt fs f u p address)
    (hcode : p.code.HasAt address
      (Instruction.emit (.compactString (Int64.ofNat i)) (Int64.ofNat i)))
    (hs : u.strings[i]? = some s) (hi : i < 2 ^ 31) (host : Host σ) :
    ∃ N, Exec.step host M = .ok none N ∧ M.Loaded fs f s address (Int64.ofNat i) N := by
  obtain ⟨r, context, hactivity, hunit, hprototype⟩ := h.runs
  have hp : M.heap.prototype r = p := by
    unfold Heap.prototype
    dsimp only
    rw [hunit, Array.getD_eq_getD_getElem?, hprototype]
    rfl
  have hdecode := Instruction.decode_emitted hcode
  have hat : M.At fs f r context (.compactString (Int64.ofNat i)) (Int64.ofNat i)
      (address + (Instruction.emit (.compactString (Int64.ofNat i)) (Int64.ofNat i)).length) := by
    refine ⟨h.frames, hactivity, h.finished, (Op.compactString (Int64.ofNat i)).byte, ?_⟩
    have himmediate : (Op.compactString (Int64.ofNat i)).immediate ≠ .onStack := Width.shape_ne _
    rw [hp, h.nextIp, hdecode, Instruction.emitted, held_compactString hi,
      decide_eq_false himmediate]
  obtain ⟨L, hstep, hL⟩ := hat.step host
  have hload : Exec.loadString r (Int64.ofNat i) L
      = .ok () (L.onValues fun values => values.push (.str s)) := by
    refine loadString_apply ?_ (by omega)
    rw [hL.heap, hunit]
    exact hs
  refine ⟨_, ?_, hL.onValues (φ := fun values => values.push (.str s)) ?_⟩
  · rw [hstep, Op.compactString, Exec.execute, Exec.bind_of_ok hload]
    rfl
  · rw [Stack.toList_push, hL.values]

end Machine

namespace UnitDraft

/-! ### Units under construction -/

/-- **Interning is consistent**, after every history of calls.  No string is there twice, and the
positions are exactly those of the strings that are there: the ones used, in the order of their
first uses.  What a use of a string answered is the one position at which the string is then and in
every later unit.  So wherever a function of the unit was made to load that position, as long as it
fits four bytes, it loads the string. -/
theorem interning_consistent (cs : List Call) :
    let u := empty.calls cs
    u.build.strings.toList.Nodup ∧
      (∀ s i, u.pool.positions.get? s = some i ↔ u.build.strings[i]? = some s) ∧
      u.build.strings.toList = (cs.filterMap Call.text?).eraseDups ∧
      ∀ before s after, cs = before ++ .intern s :: after →
        let i := ((empty.calls before).intern s).1
        let index := Int64.ofNat i
        (∀ j, u.build.strings[j]? = some s ↔ j = i) ∧
        (i < 2 ^ 31 → ∀ name d e p, (Draft.new name).Continues d →
          (d.emit (.compactString index) index).Continues e → e.build = .ok p →
          ∀ (host : Host σ) M fs f, M.GoesOnAt fs f u.build p d.position →
            ∃ N, Exec.step host M = .ok none N ∧ M.Loaded fs f s d.position index N) := by
  intro u
  have hindexed : u.pool.Indexed := indexed_calls cs
  refine ⟨hindexed.nodup, hindexed, strings_calls cs, ?_⟩
  rintro before s after rfl
  intro i index
  have hstring : u.build.strings[i]? = some s := getElem?_intern before after s
  refine ⟨fun j => ⟨fun hj => ?_, fun hj => hj ▸ hstring⟩, ?_⟩
  · have hposition := (hindexed s j).mpr hj
    rw [(hindexed s i).mpr hstring] at hposition
    exact (Option.some.inj hposition).symm
  · intro hi name d e p hbefore hbehind hbuild host M fs f hM
    exact hM.loads (hbefore.hasAt_build hbehind hbuild) hstring hi host

/-- A function that loads a constant behind an open branch and a byte that stands for no opcode. -/
def loading : Prototype :=
  ⟨"loading", #[(Op.branch .always .long).byte, 3, 0, 0, 0, 0xff, (Op.loadString .short).byte, 1,
    (Op.control .ret).byte], 0, []⟩

/-- A unit that uses two strings before the function is added, and others later. -/
def loadingCalls : List Call :=
  [.intern "x", .intern "y", .addFunction loading, .intern "x", .setEntry 0, .intern "z"]

/-- A machine in that function, in front of the load. -/
def loadingMachine : Machine Unit where
  heap := { Heap.empty with
    units := ⟨#[(empty.calls loadingCalls).build]⟩
    functions := ⟨#[⟨⟨0⟩, 0, none⟩]⟩
    contexts := ⟨#[default]⟩ }
  memory := { Stacks.new .standard with
    frames := (Stack.withCapacity 4).push
      ⟨.bytecode ⟨0⟩ ⟨0⟩, 0, 0, 0, 0, 5, 6, 0, 0, none, .none⟩ }
  config := .standard
  state := ()

/-- The second string was used once, before the function was there. -/
theorem interning_consistent_loading :
    let u := empty.calls loadingCalls
    let i := ((empty.calls [.intern "x"]).intern "y").1
    loadingCalls = [.intern "x"] ++ .intern "y" :: loadingCalls.drop 2 ∧ i < 2 ^ 31 ∧
      u.build.strings = #["x", "y", "z"] ∧ i = 1 ∧
      ∃ N, Exec.step .bare loadingMachine = .ok none N ∧
        N.memory.values.toList = [.str "y"] := by
  intro u i
  have hsplit : loadingCalls = [.intern "x"] ++ .intern "y" :: loadingCalls.drop 2 := rfl
  obtain ⟨-, -, hstrings, hused⟩ := interning_consistent (σ := Unit) loadingCalls
  obtain ⟨hnumber, hloads⟩ := hused [.intern "x"] "y" (loadingCalls.drop 2) hsplit
  have hone : i = 1 := ((hnumber 1).mp (by decide +kernel)).symm
  have hsmall : i < 2 ^ 31 := by omega
  let before : Draft :=
    ⟨"loading", #[(Op.branch .always .long).byte, 0, 0, 0, 0, 0xff], 0, [], #[none], [(1, 0)]⟩
  let behind : Draft :=
    ((before.emit (.compactString (Int64.ofNat i)) (Int64.ofNat i)).mark 0).emit (.control .ret) 0
  have hbefore : (Draft.new "loading").Continues before :=
    .raw
      (.call (.call .refl (c := .newLabel) rfl) (c := .branch (.branch .always .long) 0) rfl) [0xff]
  have hbehind : (before.emit (.compactString (Int64.ofNat i)) (Int64.ofNat i)).Continues behind :=
    .call (.call .refl (c := .mark 0) rfl) (c := .emit (.control .ret) 0) rfl
  have hbuild : behind.build = .ok loading := by
    simp only [behind, hone]
    decide +kernel
  have hM : loadingMachine.GoesOnAt [] _ u.build loading before.position :=
    ⟨rfl, ⟨⟨0⟩, ⟨0⟩, rfl, rfl, by decide +kernel⟩, rfl, rfl⟩
  obtain ⟨N, hstep, hloaded⟩ :=
    hloads hsmall "loading" before behind loading hbefore hbehind hbuild
    .bare loadingMachine [] _ hM
  refine ⟨hsplit, hsmall, ?_, hone, N, hstep, hloaded.values⟩
  apply Array.toList_inj.mp
  rw [hstrings]
  decide +kernel

end UnitDraft

end ScriptVm
