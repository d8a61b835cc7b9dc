import ScriptVm.Proofs.Errands
import ScriptVm.Proofs.Forms

/-!
# Respelled code

Two units are the same but for how their code is spelled: their functions were
assembled from the same steps.  A host that works with the one of them gets the same
answers as with the other, whatever errands it has.

The heaps are twins all the while (`Heap.Twin`), with every coroutine standing for
itself, and with the addresses of the one code beside those of the other.

Main statements: `Errand.respelled` (what a host does) and
`spelling_makes_no_difference`.
-/

namespace ScriptVm

variable {σ : Type} {T : Likeness} {h h' : Heap} {v v' : Value} {vs vs' : List Value}

/-! ### Respelled units -/

/-- **A function in two spellings**: one list of steps, assembled from two lists of calls. -/
def Prototype.Respelled (p p' : Prototype) : Prop :=
  ∃ name steps cs cs', List.Forall₂ Draft.Spells steps cs ∧
    List.Forall₂ Draft.Spells steps cs' ∧
    Draft.Assembles name cs p ∧ Draft.Assembles name cs' p' ∧
    p.code.size < 2 ^ 31 ∧ p'.code.size < 2 ^ 31

/-- **A unit in two spellings**: some of its functions are spelled differently. -/
structure CodeUnit.Respelled (u u' : CodeUnit) : Prop where
  entry : u'.entry = u.entry
  strings : u'.strings = u.strings
  prototypes : List.Forall₂ (fun p p' => p' = p ∨ p.Respelled p') u.prototypes.toList
    u'.prototypes.toList

theorem Prototype.Respelled.twin {p p' : Prototype} (h : p.Respelled p') :
    ∃ beside, p.Twin beside Word.Alike p' := by
  obtain ⟨name, steps, cs, cs', hcs, hcs', hp, hp', hshort, hshort'⟩ := h
  have halike := Draft.alike_of_spells hcs hcs'
  obtain ⟨q, hq, hname, hlocals, hdeclared⟩ := hp.alike halike
  obtain rfl : q = p' := hp'.unique hq
  exact ⟨_, hname, hlocals, hdeclared, hp.twin hp' halike hshort hshort'⟩

/-- A respelled unit is a spelling of the unit. -/
theorem CodeUnit.Respelled.twin {u u' : CodeUnit} (h : u.Respelled u') :
    ∃ beside, u.Twin beside Word.Alike u' := by
  have hone (i : Nat) : ∃ beside, (u.prototypes.getD i default).Twin beside Word.Alike
      (u'.prototypes.getD i default) := by
    have hrel := h.prototypes
    have hget (a : Array Prototype) : a.getD i default = a.toList.getD i default := by
      rw [Array.getD_eq_getD_getElem?, List.getD_eq_getElem?_getD, Array.getElem?_toList]
    rw [hget, hget]
    clear hget
    generalize u.prototypes.toList = ps at hrel
    generalize u'.prototypes.toList = ps' at hrel
    induction hrel generalizing i with
    | nil => exact ⟨_, rfl, rfl, rfl, .refl .refl _⟩
    | cons hp _ ih =>
      cases i with
      | zero =>
        rcases hp with rfl | hp
        · exact ⟨_, rfl, rfl, rfl, .refl .refl _⟩
        · exact hp.twin
      | succ i => exact ih i
  choose beside hbeside using hone
  refine ⟨beside, h.entry, h.strings, ?_, hbeside⟩
  simpa using h.prototypes.length_eq.symm

/-! ### Heaps -/

/-- **Two heaps in which only the code may differ.** -/
structure Heap.SameButCode (h h' : Heap) : Prop where
  functions : h'.functions = h.functions
  contexts : h'.contexts = h.contexts
  vectors : h'.vectors = h.vectors
  tables : ∀ t, (h'.table t).metatable = (h.table t).metatable ∧
    (h'.table t).toList = (h.table t).toList
  coroutines : ∀ r, h.coroutines.Holds r → (h'.coroutine r).entry = (h.coroutine r).entry ∧
    (h'.coroutine r).state = (h.coroutine r).state ∧
    (h'.coroutine r).memory.values.toList = (h.coroutine r).memory.values.toList ∧
    (h'.coroutine r).memory.delimiters.toList = (h.coroutine r).memory.delimiters.toList ∧
    (h'.coroutine r).memory.frames.size = (h.coroutine r).memory.frames.size

theorem Value.Twin.eq_of_strict (hv : v.Twin T v') (strict : T.Strict) : v' = v := by
  cases hv with
  | coroutine paired => rw [strict.1 _ _ paired]
  | plain _ => rfl

theorem Value.Twins.eq_of_strict (hvs : Value.Twins T vs vs') (strict : T.Strict) : vs' = vs := by
  induction hvs with
  | nil => rfl
  | cons hv _ ih => rw [hv.eq_of_strict strict, ih]

theorem Context.Twin.eq_of_strict {c c' : Context} (h : c.Twin T c') (strict : T.Strict) :
    c' = c := by
  obtain ⟨parent, cells, owners⟩ := c
  obtain ⟨parent', cells', owners'⟩ := c'
  obtain ⟨hparent, howners, hcells⟩ := h
  have hsame : cells'.toList = cells.toList := by
    dsimp only at hcells
    generalize cells.toList = xs at hcells
    generalize cells'.toList = ys at hcells
    induction hcells with
    | nil => rfl
    | cons hxy _ ih => rw [ih, Prod.ext hxy.1 (hxy.2.eq_of_strict strict)]
  obtain rfl : cells' = cells := by
    cases cells
    cases cells'
    exact congrArg Assoc.mk hsame
  exact congrArg₂ (fun parent owners => Context.mk parent cells' owners) hparent howners

/-- Tables that are twins have the same entries. -/
theorem Table.Twin.toList_eq {t t' : Table} (h : t.Twin T t') (strict : T.Strict) :
    t'.toList = t.toList := by
  have hzip (t : Table) : t.toList = (t.marks.map Prod.snd).zip t.contents := by
    rw [Table.marks, Table.contents, List.map_map, List.zip_map']
    rfl
  have hmarks : t'.marks = t.marks := by
    have hmarks := h.marks
    generalize t.marks = xs at hmarks
    generalize t'.marks = ys at hmarks
    induction hmarks with
    | nil => rfl
    | cons hxy _ ih =>
      cases hxy with
      | coroutine paired => rw [ih, strict.1 _ _ paired]
      | plain _ => rw [ih]
  rw [hzip, hzip, hmarks, Value.Twins.eq_of_strict h.contents strict]

theorem Store.ext_get {α : Type} [Inhabited α] {k : Kind} {s s' : Store k α}
    (hsize : s'.size = s.size) (hget : ∀ r, s'.get r = s.get r) : s' = s := by
  obtain ⟨cells⟩ := s
  obtain ⟨cells'⟩ := s'
  refine congrArg Store.mk (Array.ext hsize fun i hi hi' => ?_)
  have hi'' := hget ⟨i⟩
  simpa [Store.get, Array.getD, hi, hi'] using hi''

/-- **What twins have in common** if every coroutine stands for itself. -/
theorem Heap.Twin.sameButCode {S : Ref .coroutine → Prop} (hh : h.Twin T S h') (strict : T.Strict)
    (hfree : ∀ r, ¬ S r) : h.SameButCode h' where
  functions := hh.functions
  contexts := Store.ext_get hh.contexts.size fun c => (hh.contexts.get c).eq_of_strict strict
  vectors := Store.ext_get hh.vectors.size fun r =>
    Array.toList_inj.mp (Value.Twins.eq_of_strict (hh.vectors.get r) strict)
  tables t := ⟨(hh.table t).metatable, (hh.table t).toList_eq strict⟩
  coroutines r hr := by
    obtain ⟨r', hpair⟩ := hh.total r hr
    have hsame := strict.1 r r' hpair
    subst hsame
    have hc := hh.coroutines r' r' hpair (hfree r')
    exact ⟨hc.entry.eq_of_strict strict, hc.state,
      Value.Twins.eq_of_strict hc.memory.values strict,
      hc.memory.delimiters, hc.memory.frames_size_eq⟩

/-! ### Errands -/

/-- The same is done on both sides, but for how the code of a unit is spelled. -/
inductive Deed.Respelled : Deed → Deed → Prop
  | load {u u' : CodeUnit} (respelled : u.Respelled u') : Respelled (.load u) (.load u')
  | same (d : Deed) : Respelled d d

namespace Errand

/-- The same is done on both sides, but for how the code of a unit is spelled. -/
inductive Respelled : Errand → Errand → Prop
  | deed {d d' : Deed} (respelled : d.Respelled d') : Respelled (.deed d) (.deed d')
  | same (e : Errand) : Respelled e e

end Errand

/-- How machines are looked at that run respelled code: every coroutine stands for itself, and none
is set aside. -/
def Mirror.spelled (same : σ → σ → Prop) (T : Likeness) : Mirror σ where
  like := T
  aside := fun _ => False
  states := fun T s s' => T.Strict ∧ same s s'

/-- **The host does not look at code**: what it answers does not depend on how the code on the heap
is spelled, nor on the addresses of the frames that are active, nor on the capacities of stacks and
the numbers of buckets of tables. -/
def Host.IgnoresSpelling (host : Host σ) (same : σ → σ → Prop) : Prop :=
  host.Oblivious (fun T s s' => T.Strict ∧ same s s') fun _ => False

/-- **Two schedulers that are alike but for how code is spelled.** -/
def Vm.Respelled (same : σ → σ → Prop) (vm vm' : Vm σ) : Prop :=
  ∃ T : Likeness, T.words = Word.Alike ∧ vm.Abreast (.spelled same T) vm'

/-- The closures and coroutines that a reply refers to are there. -/
def Reply.Held (h : Heap) : Reply → Prop
  | values vs | exit (.finished vs) | exit (.yielded vs) => ∀ v ∈ vs, v.Held h
  | exit (.switched r args) => h.coroutines.Holds r ∧ ∀ v ∈ args, v.Held h
  | _ => True

/-- **The same answers**, but for the addresses in a backtrace, from schedulers that are alike
again. -/
inductive Errand.SameAnswer (same : σ → σ → Prop) :
    EStateM.Result Failure (Vm σ) Reply → EStateM.Result Failure (Vm σ) Reply → Prop
  | ok {reply : Reply} {vm vm' : Vm σ} (respelled : vm.Respelled same vm')
      (held : reply.Held vm.heap) :
      SameAnswer same (.ok reply vm) (.ok reply vm')
  | error {e e' : Failure} {vm vm' : Vm σ} (respelled : vm.Respelled same vm')
      (failures : e.Twin e') :
      SameAnswer same (.error e vm) (.error e' vm')

namespace Reply.Twin

variable {a b : Reply}

theorem eq_of_strict (h : a.Twin T b) (strict : T.Strict) : b = a := by
  cases h with
  | unit | context => rfl
  | values hvs => rw [hvs.eq_of_strict strict]
  | exit hexit =>
    cases hexit with
    | finished hvs | yielded hvs => rw [hvs.eq_of_strict strict]
    | switched paired hvs => rw [hvs.eq_of_strict strict, strict.1 _ _ paired]

/-- What comes of something is there. -/
theorem held {S : Ref .coroutine → Prop} {g g' : Heap} (h : a.Twin T b) (hg : g.Twin T S g') :
    a.Held g := by
  cases h with
  | unit | context => trivial
  | values hvs => exact hg.values_held hvs
  | exit hexit =>
    cases hexit with
    | finished hvs | yielded hvs => exact hg.values_held hvs
    | switched paired hvs => exact ⟨(hg.held _ _ paired).1, hg.values_held hvs⟩

end Reply.Twin

namespace Errand

variable {host : Host σ} {same : σ → σ → Prop} {vm vm' : Vm σ}

theorem SameAnswer.respelled {r r' : EStateM.Result Failure (Vm σ) Reply}
    (h : SameAnswer same r r') : (Vm.last r).Respelled same (Vm.last r') := by
  cases h with
  | ok respelled => exact respelled
  | error respelled => exact respelled

/-- Answers that match are the same answers. -/
theorem SameAnswer.of_answers {r r' : EStateM.Result Failure (Vm σ) Reply}
    (h : Vm.Answers (.spelled same T) Reply.Twin r r') (words : T.words = Word.Alike) :
    SameAnswer same r r' := by
  cases h with
  | error le abreast failures => exact .error ⟨_, le.words.trans words, abreast⟩ failures
  | @ok U a b w w' le abreast reply =>
    have hsame := reply.eq_of_strict abreast.state.1
    rw [hsame]
    exact .ok ⟨U, le.words.trans words, abreast⟩ (reply.held abreast.heap)

/-- Words that mean the same need not be the same. -/
theorem not_exact (words : T.words = Word.Alike) : ¬ T.Exact := fun h => by
  have halike : T.words (.loadInt .minusOne, 0) (.loadInt .qword, -1) := words ▸ rfl
  cases (h.1 _ _).mp halike

/-- The same is done. -/
theorem Respelled.twin {e e' : Errand} (h : e.Respelled e') (words : T.words = Word.Alike) :
    e.Twin T e' := by
  have hdeed {d d' : Deed} (hd : d.Respelled d') : d.Twin T d' := by
    cases hd with
    | load hu =>
      obtain ⟨beside, hu⟩ := hu.twin
      exact .load (words ▸ hu) fun hexact => absurd hexact (not_exact words)
    | same =>
      cases d with
      | load u =>
        exact .load (words ▸ CodeUnit.Twin.refl Word.Alike.refl u) fun hexact =>
          absurd hexact (not_exact words)
      | _ => exact .same _ fun u hu => nomatch hu
  cases h with
  | deed hd => exact .deed (hdeed hd)
  | same =>
    cases e with
    | deed d => exact .deed (hdeed (.same d))
    | request q => exact .request q
    | resume r args => exact .resume r args

/-- **What a host does**, it does with the same outcome. -/
theorem respelled {e e' : Errand} (ignores : host.IgnoresSpelling same) (fuel : Nat)
    (hvm : vm.Respelled same vm') (held : e.Held vm.heap) (he : e.Respelled e') :
    SameAnswer same (e.run host fuel vm) (e'.run host fuel vm') := by
  obtain ⟨T, words, abreast⟩ := hvm
  exact .of_answers
    (answers (m := .spelled same T) ignores (fun _ => id) fuel abreast.state.1 abreast
    held (he.twin words)) words

end Errand

/-! ### Any spelling -/

/-- Schedulers that are alike but for how code is spelled have heaps with the same objects. -/
theorem Vm.Respelled.sameButCode {same : σ → σ → Prop} {vm vm' : Vm σ}
    (h : vm.Respelled same vm') :
    vm.heap.SameButCode vm'.heap ∧ vm'.active = vm.active ∧ same vm.state vm'.state := by
  obtain ⟨T, -, abreast⟩ := h
  have strict := abreast.state.1
  refine ⟨abreast.heap.sameButCode strict fun _ => id, ?_, abreast.state.2⟩
  have hactive := abreast.active
  generalize vm.active = rs at hactive
  generalize vm'.active = rs' at hactive
  induction hactive with
  | nil => rfl
  | cons hr _ ih => rw [ih, strict.1 _ _ hr]

/-- A new scheduler. -/
theorem Vm.Respelled.new {same : σ → σ → Prop} (config : Config) {s : σ} (hs : same s s) :
    (Vm.new config s).Respelled same (.new config s) :=
  ⟨.unknown fun _ _ => id, rfl,
    ⟨.empty Word.Alike.refl, rfl, ⟨fun _ _ h => h.elim, fun _ => id⟩, hs⟩, .nil⟩

/-- **It makes no difference how code is spelled**, if the host does not look at it.  Calls that
write the same steps are assembled on both sides or on none.  Schedulers start alike but for how
code is spelled; such schedulers have the same objects on their heaps, and whatever a host does with
them, units in two spellings included, is answered alike and leaves them alike. -/
theorem spelling_makes_no_difference {host : Host σ} {same : σ → σ → Prop}
    (ignores : host.IgnoresSpelling same) :
    (∀ name steps cs cs' p, List.Forall₂ Draft.Spells steps cs →
      List.Forall₂ Draft.Spells steps cs' →
      Draft.Assembles name cs p → ∃ p', Draft.Assembles name cs' p') ∧
    (∀ config s, same s s → (Vm.new config s).Respelled same (.new config s)) ∧
    ∀ vm vm' : Vm σ, vm.Respelled same vm' →
      (vm.heap.SameButCode vm'.heap ∧ vm'.active = vm.active ∧ same vm.state vm'.state) ∧
      ∀ (e e' : Errand) (fuel : Nat), e.Respelled e' → e.Held vm.heap →
        Errand.SameAnswer same (e.run host fuel vm) (e'.run host fuel vm') := by
  refine ⟨fun name steps cs cs' p hcs hcs' hp => ?_, fun config s hs => .new config hs,
    fun vm vm' hvm => ⟨hvm.sameButCode, fun e e' fuel he held =>
      Errand.respelled ignores fuel hvm held he⟩⟩
  obtain ⟨p', hp', -⟩ := hp.alike (Draft.alike_of_spells hcs hcs')
  exact ⟨p', hp'⟩

/-! ### A loop in two spellings -/

/-- A host whose functions count: arguments, values on the stack, or steps. -/
def Host.counting : Host Nat where
  sizes := .word64
  callPure _ _ args := .ok [.int (Int64.ofNat args.length)]
  callEffect _ scene _ calls := (.ok [.int (Int64.ofNat scene.memory.values.size)], calls + 1)
  openAsync _ _ calls := (calls, calls)
  stepAsync _ _ _ history calls := (.ok (.finish [.int (Int64.ofNat history.length)]), calls)
  syscall _ := none

theorem Host.counting_ignoresSpelling : Host.counting.IgnoresSpelling Eq where
  mono hle hs := ⟨hle.strict hs.1, hs.2⟩
  pure _ _ _ _ _ _ _ _ _ hargs _ := by
    simp only [Host.counting, hargs.length_eq]
    exact .ok (.cons (.int _) .nil)
  effect _ _ _ _ _ _ _ _ _ _ _ _ hmemory _ hs := by
    simp only [Host.counting, hmemory.height_eq]
    exact ⟨.ok (.cons (.int _) .nil), hs.1, congrArg (· + 1) hs.2⟩
  opening _ _ _ _ _ _ _ _ _ _ _ hs := ⟨hs.2.symm, hs⟩
  async _ _ _ _ _ _ _ _ _ _ hhistory hs := by
    simp only [Host.counting, hhistory.length_eq]
    exact ⟨.ok (.finish (.cons (.int _) .nil)), hs⟩
  syscall h := nomatch h

/-- A loop counts its first argument down to zero and calls its second one. -/
def Step.countdown : List Step := [
  .locals 1, .newLabel, .newLabel, .operand .argument 0, .operand .storeLocal 0,
  .mark 0, .operand .loadLocal 0, .operand .int 0, .fixed (.binary .gtr) 0,
  .branch (.branch .falsy .long) 1,
  .operand .loadLocal 0, .operand .int (-1), .fixed (.binary .add) 0, .operand .storeLocal 0,
  .branch (.branch .always .long) 0,
  .mark 1, .fixed (.control .delimit) 0, .operand .loadLocal 0, .operand .int 300,
  .operand .argument 1, .fixed (.control .call) 0, .fixed (.control .ret) 0]

/-- The function of a list of steps, with a form for each operand. -/
def Prototype.spelled (steps : List Step) (form : Operand → Int64 → Op) : Prototype :=
  (((Draft.new "spelled").calls (steps.map (Step.call form)) >>= Draft.build).toOption).getD default

/-- The unit of that function. -/
def CodeUnit.spelled (steps : List Step) (form : Operand → Int64 → Op) : CodeUnit :=
  ⟨#[.spelled steps form], #[], 0⟩

/-- Any two choices of forms are two spellings. -/
theorem CodeUnit.respelled_of_fits {steps : List Step} {form form' : Operand → Int64 → Op}
    (fits : ∀ s ∈ steps, s.Fits)
    (hform : ∀ (F : Operand) (n : Int64), F.Fits n → F.Form (form F n) n)
    (hform' : ∀ (F : Operand) (n : Int64), F.Fits n → F.Form (form' F n) n)
    (hp : Draft.Assembles "spelled" (steps.map (Step.call form)) (.spelled steps form))
    (hp' : Draft.Assembles "spelled" (steps.map (Step.call form')) (.spelled steps form'))
    (hshort : (Prototype.spelled steps form).code.size < 2 ^ 31)
    (hshort' : (Prototype.spelled steps form').code.size < 2 ^ 31) :
    (CodeUnit.spelled steps form).Respelled (.spelled steps form') :=
  ⟨rfl, rfl,
    .cons (.inr ⟨_, steps, _, _, Draft.spells_call hform fits, Draft.spells_call hform' fits,
    hp, hp', hshort, hshort'⟩) .nil⟩

/-- The compact loop of 29 bytes and the long one of 77 bytes are loaded and run. -/
theorem spelling_makes_no_difference_countdown :
    let u := CodeUnit.spelled Step.countdown Operand.compact
    let u' := CodeUnit.spelled Step.countdown fun F _ => F.long
    let load := (Errand.deed (.load u)).run Host.counting 0 (Vm.new .standard 0)
    let load' := (Errand.deed (.load u')).run Host.counting 0 (Vm.new .standard 0)
    let request := Request.unit ⟨0⟩ [.int 3, .pureFn ⟨0⟩] none
    Host.counting.IgnoresSpelling Eq ∧ u.Respelled u' ∧
      (u.prototypes.getD 0 default).code.size = 29 ∧ (u'.prototypes.getD 0 default).code.size
        = 77 ∧
      Errand.SameAnswer Eq load load' ∧
      Errand.SameAnswer Eq ((Errand.request request).run Host.counting 200 (Vm.last load))
        ((Errand.request request).run Host.counting 200 (Vm.last load')) ∧
      Vm.values? (request.run Host.counting 200 (Vm.last load)) = some [.int 2] ∧
      Vm.values? (request.run Host.counting 200 (Vm.last load')) = some [.int 2] := by
  intro u u' load load' request
  obtain ⟨-, hnew, hstep⟩ := spelling_makes_no_difference Host.counting_ignoresSpelling
  have hu : u.Respelled u' :=
    CodeUnit.respelled_of_fits (by decide) (fun _ _ => Operand.compact_form)
      (fun _ _ => Operand.long_form) (by decide +kernel) (by decide +kernel) (by decide +kernel)
      (by decide +kernel)
  have hload : Errand.SameAnswer Eq load load' :=
    (hstep _ _ (hnew .standard 0 rfl)).2 _ _ 0 (.deed (.load hu)) trivial
  have hargs (h : Heap) : ∀ v ∈ [Value.int 3, .pureFn ⟨0⟩], v.Held h := by
    simp [Value.Held]
  exact ⟨Host.counting_ignoresSpelling, hu, by decide +kernel, by decide +kernel, hload,
    (hstep _ _ hload.respelled).2 _ _ 200 (.same _)
      (hargs _), by decide +kernel, by decide +kernel⟩

/-! ### What tells spellings apart -/

/-- A function is called, and its result is compared with a text. -/
def Step.traced : List Step := [
  .fixed (.control .delimit) 0, .operand .argument 0, .fixed (.control .call) 0,
  .operand .string 0, .fixed (.binary .equ) 0, .fixed (.control .ret) 0]

/-- Many integers are jumped over. -/
def Step.far (n : Nat) : List Step :=
  .newLabel :: .branch (.branch .always .long) 0
    :: (List.replicate n (.operand .int (-1)) ++ [.mark 0])

theorem Step.far_fits (n : Nat) : ∀ s ∈ Step.far n, s.Fits := by
  intro s hs
  simp only [far, List.mem_cons, List.mem_append, List.mem_replicate, List.not_mem_nil, or_false]
    at hs
  rcases hs with rfl | rfl | ⟨-, rfl⟩ | rfl
  · trivial
  · rfl
  · trivial
  · trivial

namespace Draft

open Instruction

/-- Any number of instructions can be emitted. -/
theorem calls_replicate (d : Draft) (n : Nat) (op : Op) (imm : Int64) :
    ∃ e, d.calls (List.replicate n (.emit op imm)) = .ok e ∧ e.labels = d.labels ∧
      e.fixups = d.fixups := by
  induction n generalizing d with
  | zero => exact ⟨d, rfl, rfl, rfl⟩
  | succ n ih => exact ih (d.emit op imm)

/-- The branch over many integers is written with the distance to the end of the code. -/
theorem far_assembles (n : Nat) (form : Operand → Int64 → Op) :
    ∃ p, Assembles "far" ((Step.far n).map (Step.call form)) p ∧
      p.code.size = 5 + n * (1 + (form .int (-1)).immediate.size) ∧
      decode p.code 0 = .ok (emitted 0 (.branch .always .long) (distance 1 p.code.size)) := by
  have hcalls :
      (Step.far n).map (Step.call form) = .newLabel :: .branch (.branch .always .long) 0 ::
        (List.replicate n (.emit (form .int (-1)) (-1)) ++ [.mark 0]) := by
    simp [Step.far, Step.call]
  let start : Draft :=
    { (new "far").newLabel.2.emit (.branch .always .long) 0 with fixups := [(1, 0)] }
  obtain ⟨e, he, hlabels, hfixups⟩ := calls_replicate start n (form .int (-1)) (-1)
  have hmarked : (new "far").calls ((Step.far n).map (Step.call form)) = .ok (e.mark 0) := by
    rw [hcalls]
    show start.calls _ = _
    rw [calls_append, he]
    rfl
  have hplace : ((e.mark 0).labels[0]?).join = some e.code.size := by
    rw [mark, hlabels]
    rfl
  obtain ⟨code, hcode⟩ := (resolve_isOk_iff (e.mark 0) (e.mark 0).fixups (e.mark 0).code).mpr
    fun label hmem => by
      have hzero : label = 0 := by simpa [mark, hfixups, start] using hmem
      rw [hzero, hplace]
      rfl
  have hbuild : (e.mark 0).build = .ok ⟨e.name, code, e.locals, e.declared⟩ := by
    rw [build, hcode]
    rfl
  have hp := assembles_iff.mpr ⟨_, hmarked, hbuild⟩
  have hsize : code.size = 5 + n * (1 + (form .int (-1)).immediate.size) := by
    refine hp.size_eq.trans ?_
    rw [hcalls]
    simp [Call.bytes, Op.immediate, Width.shape, Shape.size]
  refine ⟨_, hp, hsize, ?_⟩
  have hbytes := toList_build hmarked hbuild
  have hend : (e.mark 0).place 0 = code.size := by
    have hwritten : e.code.toList = _ := (written hmarked).1
    have hlength := congrArg List.length hwritten
    rw [place, hplace]
    exact (hlength.trans (by simp [new])).trans hp.size_eq.symm
  rw [hcalls] at hbytes
  simp only [Call.along, Call.instructions, List.nil_append, hend] at hbytes
  have hat : code.HasAt (encode []).length _ := hasAt_encode hbytes
  exact decode_emitted hat

end Draft

/-- A host whose only function answers with the backtrace. -/
def Scripted.tracing : Host (Array Event) :=
  ({ pures := #[], effects := #[.trace], asyncs := #[] } : Library).host fun _ => none

/-- **A host that looks at addresses tells spellings apart**, and so does a branch over more bytes
of code than its offset can count. -/
theorem spelling_told_apart :
    (let u := { CodeUnit.spelled Step.traced Operand.compact with strings := #["spelled @ 2"] }
     let u' := { CodeUnit.spelled Step.traced fun F _ => F.long with strings := #["spelled @ 2"] }
     let answer (u : CodeUnit) := Vm.values? (Request.run Scripted.tracing 20
       (.unit ⟨0⟩ [.effectFn ⟨0⟩] none) { Vm.new .standard #[] with
         heap := (Heap.empty.newUnit u).2 })
     u.Respelled u' ∧ answer u = some [.bool true] ∧ answer u' = some [.bool false]) ∧
    ∃ steps cs cs' p p' x y, List.Forall₂ Draft.Spells steps cs ∧
      List.Forall₂ Draft.Spells steps cs' ∧
      Draft.Assembles "far" cs p ∧ Draft.Assembles "far" cs' p' ∧
      Instruction.decode p.code 0 = .ok x ∧ landing p.code.size x.next x.imm = .ok p.code.size ∧
      Instruction.decode p'.code 0 = .ok y ∧ landing p'.code.size y.next y.imm
        = .error (.invalidInstructionPointer (-1879048187) p'.code.size) := by
  refine ⟨⟨⟨rfl, rfl, ?_⟩, by decide +kernel, by decide +kernel⟩, ?_⟩
  · exact (CodeUnit.respelled_of_fits (by decide) (fun _ _ => Operand.compact_form)
      (fun _ _ => Operand.long_form) (by decide +kernel) (by decide +kernel) (by decide +kernel)
      (by decide +kernel)).prototypes
  · have hfits := Step.far_fits (2 ^ 28)
    obtain ⟨p, hp, hsize, hdecode⟩ := Draft.far_assembles (2 ^ 28) Operand.compact
    obtain ⟨p', hp', hsize', hdecode'⟩ := Draft.far_assembles (2 ^ 28) fun F _ => F.long
    refine ⟨_, _, _, p, p', _, _, Draft.spells_call (fun _ _ => Operand.compact_form) hfits,
      Draft.spells_call (fun _ _ => Operand.long_form) hfits, hp, hp', hdecode, ?_, hdecode', ?_⟩
    · rw [hsize]
      decide +kernel
    · rw [hsize']
      decide +kernel

end ScriptVm
