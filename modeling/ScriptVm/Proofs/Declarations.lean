import ScriptVm.Proofs.Memories
import ScriptVm.Proofs.Scopes

/-!
# Variables that are declared late

A host may run a function directly in a context that has been there for a while.
What the function declares there is seen from the contexts below, old and new,
except from those that have looked past that context before.

A history of contexts is a chain of **events**: steps of machines on that heap, what
a scheduler does to coroutines, and what a host may do between two requests.  The
heaps that histories lead to have what they need for that (`Heap.Planted`), and
contexts only evolve (`Heap.Evolves`).

Main statements: `Heap.Event.planted` (one event), `Heap.Story.planted` (a history),
`Vm.storied` (runs and requests are histories), and
`declared_variables_take_effect`.
-/

namespace ScriptVm

variable {σ : Type}

namespace Heap

variable {h h' : Heap} {c : Ref .context}

/-! ### Heaps whose contexts are there -/

theorem recalls_forget (hforest : h.Forest) : h.forget.Recalls where
  forest := .of_forget (forget_forget h) hforest
  nearest d name o ho := by
    rw [context_forget] at ho
    cases ho

@[simp] theorem holds_forget : h.forget.contexts.Holds c ↔ h.contexts.Holds c := by
  simp [forget, Store.Holds, Store.size]

/-- **A heap in which all is in order but what is remembered**, and that can be traced. -/
structure Planted (h : Heap) : Prop where
  traced : h.Traced
  plain : h.forget.Scoped

theorem planted_empty : Heap.empty.Planted where
  traced := by
    have hcontext (c : Ref .context) : Heap.empty.context c = default := context_of_not_holds nofun
    refine ⟨fun c p hp => ?_, fun c name o ho => ?_⟩
    · rw [hcontext] at hp
      cases hp
    · rw [remembered, hcontext] at ho
      cases ho
  plain := scoped_empty.still (by simp [forget, empty, Store.empty]) rfl rfl

namespace Planted

/-- The contexts change, and all that were there still are. -/
theorem more (hplanted : h.Planted) (htraced : h'.Traced)
    (hmore : ∀ d, h.contexts.Holds d → h'.contexts.Holds d)
    (hfunctions : h'.functions = h.functions)
    (hcoroutines : h'.coroutines = h.coroutines) : h'.Planted where
  traced := htraced
  plain := by
    refine hplanted.plain.more (recalls_forget htraced.forest) (fun d hd => ?_)
      hfunctions hcoroutines
    rw [holds_forget] at hd ⊢
    exact hmore d hd

/-- Neither contexts nor closures nor coroutines change. -/
theorem still (hplanted : h.Planted) (hcontexts : h'.contexts = h.contexts)
    (hfunctions : h'.functions = h.functions) (hcoroutines : h'.coroutines = h.coroutines) :
    h'.Planted := by
  refine hplanted.more (hplanted.traced.of_contexts_eq hcontexts) ?_ hfunctions hcoroutines
  intro d hd
  rwa [hcontexts]

/-- Contexts evolve, and nothing else does. -/
theorem evolved (hplanted : h.Planted) (htraced : h'.Traced) (hevolves : h.Evolves h')
    (hfunctions : h'.functions = h.functions) (hcoroutines : h'.coroutines = h.coroutines) :
    h'.Planted ∧ h.Evolves h' :=
  ⟨hplanted.more htraced hevolves.holds hfunctions hcoroutines, hevolves⟩

theorem bound (hplanted : h.Planted) (r : Ref .function) {p : Ref .context}
    (hp : (h.function r).parent = some p) : h.contexts.Holds p :=
  holds_forget.mp (hplanted.plain.bound r p hp)

theorem coroutine (hplanted : h.Planted) (q : Ref .coroutine) :
    (h.coroutine q).Placed h.contexts := by
  obtain ⟨hown, hframes⟩ := hplanted.plain.coroutine q
  exact ⟨fun d hd => holds_forget.mp (hown d hd), hframes.more fun _ hd => holds_forget.mp hd⟩

theorem addFunction (hplanted : h.Planted) (closure : Closure)
    (hparent : ∀ p, closure.parent = some p → h.contexts.Holds p) :
    Planted { h with functions := (h.functions.add closure).2 } where
  traced := hplanted.traced.of_contexts_eq rfl
  plain := hplanted.plain.addFunction closure fun p hp => holds_forget.mpr (hparent p hp)

theorem bind (hplanted : h.Planted) (r : Ref .function) (hc : h.contexts.Holds c) :
    (h.bind r c).Planted where
  traced := hplanted.traced.of_contexts_eq rfl
  plain := hplanted.plain.bind r (holds_forget.mpr hc)

theorem modifyCoroutine (hplanted : h.Planted) {r : Ref .coroutine} {φ : Coroutine → Coroutine}
    (hφ : (φ (h.coroutine r)).Placed h.contexts) : (h.modifyCoroutine r φ).Planted where
  traced := hplanted.traced.of_contexts_eq rfl
  plain := hplanted.plain.modifyCoroutine fun _ =>
    ⟨fun d hd => holds_forget.mpr (hφ.own d hd),
      hφ.frames.more fun _ hd => holds_forget.mpr hd⟩

theorem newCoroutine (hplanted : h.Planted) (entry : Value) (context : Option (Ref .context))
    (config : Config) (hcontext : ∀ c, context = some c → h.contexts.Holds c) :
    (h.newCoroutine (.new entry context config)).2.Planted where
  traced := hplanted.traced.of_contexts_eq rfl
  plain := hplanted.plain.newCoroutine entry context config fun c hc =>
    holds_forget.mpr (hcontext c hc)

section

variable (hplanted : h.Planted)
include hplanted

theorem newContext {parent : Option (Ref .context)}
    (hparent : ∀ p, parent = some p → h.contexts.Holds p) :
    (h.newContext parent).2.Planted ∧ h.Evolves (h.newContext parent).2 :=
  hplanted.evolved (hplanted.traced.newContext hparent) (.newContext h parent) rfl rfl

theorem declareVariables (hc : h.contexts.Holds c) (names : List String) :
    (h.declareVariables c names).Planted ∧ h.Evolves (h.declareVariables c names) := by
  refine hplanted.evolved (hplanted.traced.declareVariables hc names)
    (.declareVariables h hc names) ?_ (h.coroutines_declareVariables c names)
  rw [h.declareVariables_eq]

theorem createVariable (c : Ref .context) (name : String) (value : Value) :
    (h.createVariable c name value).Planted ∧ h.Evolves (h.createVariable c name value) :=
  hplanted.evolved hplanted.traced.createVariable (.createVariable h c name value) rfl rfl

theorem ownerOf (hc : h.contexts.Holds c) (name : String) :
    (h.ownerOf c name).2.Planted ∧ h.Evolves (h.ownerOf c name).2 := by
  have hanswers := hplanted.traced.ownerOf hc name
  refine hplanted.evolved hanswers.traced hanswers.evolves ?_ (h.coroutines_readVariable c name)
  show (h.readVariable c name).2.functions = h.functions
  rw [h.readVariable_eq]

theorem writeVariable (hc : h.contexts.Holds c) (name : String) (value : Value) :
    (h.writeVariable c name value).Planted ∧ h.Evolves (h.writeVariable c name value) := by
  obtain ⟨hfound, hevolves⟩ := hplanted.ownerOf hc name
  obtain ⟨hmade, hevolves'⟩ := hfound.createVariable (h.ownerOf c name).1 name value
  exact ⟨hmade, hevolves.trans hevolves'⟩

end

end Planted

end Heap

/-! ### What a step keeps -/

namespace Machine

/-- **A machine whose contexts are there.** -/
structure Planted (M : Machine σ) : Prop where
  heap : M.heap.Planted
  placed : M.memory.Placed M.heap.contexts

/-- A machine whose contexts have evolved from those of a heap. -/
structure Grown (base : Heap) (M : Machine σ) : Prop extends Planted M where
  evolves : base.Evolves M.heap

namespace Grown

variable {base : Heap} {M : Machine σ}

/-- The stacks change, or the state of the host. -/
theorem ofStacks (hM : M.Grown base) {memory : Stacks} {state : σ}
    (hplaced : memory.Placed M.heap.contexts) : Grown base { M with memory, state } :=
  ⟨⟨hM.heap, hplaced⟩, hM.evolves⟩

/-- The heap changes. -/
theorem onHeap (hM : M.Grown base) {φ : Heap → Heap}
    (hφ : (φ M.heap).Planted ∧ M.heap.Evolves (φ M.heap)) : (M.onHeap φ).Grown base :=
  ⟨⟨hφ.1, hM.placed.more hφ.2.holds⟩, hM.evolves.trans hφ.2⟩

/-- The heap changes, but not its contexts. -/
theorem onHeapStill (hM : M.Grown base) {φ : Heap → Heap} (hplanted : (φ M.heap).Planted)
    (hcontexts : (φ M.heap).contexts = M.heap.contexts) : (M.onHeap φ).Grown base :=
  hM.onHeap ⟨hplanted, .of_contexts_eq hcontexts⟩

/-- A closure is entered in a context of a heap that has evolved. -/
theorem entered (hM : M.Grown base) {h : Heap} {r : Ref .function} {c : Ref .context} {room : Nat}
    {f : Frame} (hplanted : h.Planted) (hevolves : M.heap.Evolves h) (hc : h.contexts.Holds c)
    (hactivity : f.activity = .bytecode r c) : (M.entered h r c room f).Grown base := by
  obtain ⟨hdeclared, hlater⟩ := hplanted.declareVariables hc (M.heap.prototype r).declared
  have hall := hevolves.trans hlater
  refine ⟨⟨hdeclared, (hM.placed.more hall.holds).push fun d hd => ?_⟩,
    hM.evolves.trans hall⟩
  rw [Frame.context?_of_bytecode hactivity] at hd
  cases hd
  exact hlater.holds c hc

end Grown

/-- Contexts that evolve, as an invariant of steps.  The current frame may look up variables from
the contexts that were there before. -/
def growing (host : Host σ) (base : Heap) : Machine.StepKeeping host where
  holds M := M.Grown base
  values _ hM := hM.ofStacks hM.placed
  frame hφ hM := hM.ofStacks (hM.placed.modifyLast hφ.context?)
  enter {M} r _ _ _ hactivity hM := by
    obtain ⟨hplanted, hevolves⟩ := hM.heap.newContext fun p hp => hM.heap.bound r hp
    exact hM.entered hplanted hevolves (Heap.holds_newContext_self _ _) hactivity
  enterAsync _ hactivity hM := by
    refine hM.ofStacks (hM.placed.push fun c hc => ?_)
    rw [Frame.context?, hactivity] at hc
    cases hc
  effect _ _ hM := hM.ofStacks hM.placed
  opening _ hM := hM.ofStacks hM.placed
  async _ _ _ hM := hM.ofStacks hM.placed
  scope c := base.contexts.Holds c
  root {M c} hM hc := Nat.lt_of_le_of_lt (Heap.index_root_le hM.heap.traced.forest c) hc
  delimiters _ hM := hM.ofStacks hM.placed
  marks _ hM := hM.ofStacks hM.placed
  table hM := hM.onHeapStill (hM.heap.still rfl rfl rfl) rfl
  vector _ hM := hM.onHeapStill (hM.heap.still rfl rfl rfl) rfl
  function {M h' _ _ _} made hM := by
    obtain rfl : h' = _ := M.heap.newFunction_eq made
    exact hM.onHeapStill (hM.heap.addFunction _ nofun) rfl
  coroutine entry config hM := hM.onHeapStill (hM.heap.newCoroutine entry none config nofun) rfl
  metatable _ _ hM := hM.onHeapStill (hM.heap.still rfl rfl rfl) rfl
  items _ _ hM := hM.onHeapStill (hM.heap.still rfl rfl rfl) rfl
  bind r hc hM := hM.onHeapStill (hM.heap.bind r (hM.evolves.holds _ hc)) rfl
  read name hc hM := hM.onHeap (hM.heap.ownerOf (hM.evolves.holds _ hc) name)
  write name value hc hM := hM.onHeap (hM.heap.writeVariable (hM.evolves.holds _ hc) name value)

theorem Planted.grown {M : Machine σ} (hM : M.Planted) : M.Grown M.heap :=
  ⟨hM, .refl _⟩

/-- **Every step** leaves the contexts there, and they evolve. -/
theorem Planted.step {host : Host σ} (hhost : host.Homely) {M : Machine σ} (hM : M.Planted) :
    (Exec.last (Exec.step host M)).Grown M.heap := by
  let K := growing host M.heap
  refine Exec.Upholds.step (K := K) ?_ ?_ hM.grown ?_ ?_
  · intro N hN
    exact hN.ofStacks hN.placed.dropLast
  · intro i call N hslot hN
    exact hN.ofStacks (hhost i call hslot N.heap N.memory N.state hN.placed)
  · intro f r context hf hactivity
    exact hM.placed.current hf (Frame.context?_of_bytecode hactivity)
  · intro f r context o imm phase N _ _ _ hN
    refine Exec.Upholds.tableOperator (K := K.toInstructionKeeping) o ?_ phase N hN
    intro _ L t key value hL
    exact hL.onHeapStill (hL.heap.still rfl rfl rfl) rfl

end Machine

/-- **Every opening** of a coroutine does. -/
theorem Heap.Planted.begin (host : Host σ) {vm : Vm σ} (hvm : vm.heap.Planted)
    (r : Ref .coroutine)
    (args : List Value) : (Exec.last (Coroutine.begin host vm r args)).Grown vm.heap := by
  let M := Coroutine.checkOut r vm.heap vm.state
  let K := (Machine.growing host vm.heap).toCallKeeping
  have hout : M.heap.Planted := by
    refine hvm.modifyCoroutine ⟨fun d hd => ?_, .of_idle rfl⟩
    cases hd
  have hM : K.holds M := ⟨⟨hout, (hvm.coroutine r).frames⟩, .of_contexts_eq rfl⟩
  refine Exec.Upholds.opening (K := K) _ _ _ args hM ?_
  intro N f c room g _ _ hcontext _ hactivity _ hN
  have hc : N.heap.contexts.Holds c := hN.evolves.holds c ((hvm.coroutine r).own c hcontext)
  exact hN.entered hN.heap (.refl _) hc hactivity

/-! ### Histories of contexts -/

namespace Heap

/-- **What can happen to the contexts of a heap at once.**  References that are used are good
ones. -/
inductive Event (host : Host σ) : Heap → Heap → Prop
  /-- A machine makes a step. -/
  | step (M : Machine σ) (placed : M.memory.Placed M.heap.contexts) :
      Event host M.heap (Exec.last (Exec.step host M)).heap
  /-- A coroutine is taken out and makes its opening. -/
  | begins (vm : Vm σ) (r : Ref .coroutine) (args : List Value) :
      Event host vm.heap (Exec.last (Coroutine.begin host vm r args)).heap
  /-- A coroutine is put back. -/
  | parks (h : Heap) (r : Ref .coroutine) (state : Lifecycle) {memory : Stacks}
      (placed : memory.Placed h.contexts) : Event host h (Coroutine.checkIn r state memory h)
  | ready (h : Heap) (r : Ref .coroutine) : Event host h (Coroutine.setResumable r h)
  | coroutine (h : Heap) (entry : Value) (config : Config) {context : Option (Ref .context)}
      (there : ∀ c, context = some c → h.contexts.Holds c) :
      Event host h (h.newCoroutine (.new entry context config)).2
  | context (h : Heap) {parent : Option (Ref .context)}
      (there : ∀ p, parent = some p → h.contexts.Holds p) : Event host h (h.newContext parent).2
  | closure (h : Heap) (closure : Closure) (there : ∀ p, closure.parent = some p →
      h.contexts.Holds p) :
      Event host h { h with functions := (h.functions.add closure).2 }
  | bind (h : Heap) (r : Ref .function) {c : Ref .context} (there : h.contexts.Holds c) :
      Event host h (h.bind r c)
  /-- A variable is made or written in a context. -/
  | writes (h : Heap) (c : Ref .context) (name : String) (value : Value) :
      Event host h (h.createVariable c name value)
  /-- A variable is looked up. -/
  | lookup (h : Heap) {c : Ref .context} (name : String) (there : h.contexts.Holds c) :
      Event host h (h.ownerOf c name).2
  /-- Something else. -/
  | other {h h' : Heap} (contexts : h'.contexts = h.contexts)
      (functions : h'.functions = h.functions)
      (coroutines : h'.coroutines = h.coroutines) : Event host h h'

/-- **A history of contexts.** -/
abbrev Story (host : Host σ) : Heap → Heap → Prop :=
  Relation.ReflTransGen (Event host)

variable {host : Host σ} {h h' : Heap} {c d e o : Ref .context} {name : String}

/-- **Every event** leaves the contexts there, and they evolve. -/
theorem Event.planted (hhost : host.Homely) (hplanted : h.Planted) (event : Event host h h') :
    h'.Planted ∧ h.Evolves h' := by
  cases event with
  | step M placed =>
    have hgrown := Machine.Planted.step hhost ⟨hplanted, placed⟩
    exact ⟨hgrown.heap, hgrown.evolves⟩
  | begins vm r args =>
    have hgrown := hplanted.begin host r args
    exact ⟨hgrown.heap, hgrown.evolves⟩
  | parks _ r state placed =>
    exact ⟨hplanted.modifyCoroutine ⟨(hplanted.coroutine r).own, placed⟩,
      .of_contexts_eq rfl⟩
  | ready _ r =>
    have hr := hplanted.coroutine r
    exact ⟨hplanted.modifyCoroutine ⟨hr.own, hr.frames⟩, .of_contexts_eq rfl⟩
  | coroutine _ entry config there =>
    exact ⟨hplanted.newCoroutine entry _ config there, .of_contexts_eq rfl⟩
  | context _ there => exact hplanted.newContext there
  | closure _ closure there => exact ⟨hplanted.addFunction closure there, .of_contexts_eq rfl⟩
  | bind _ r there => exact ⟨hplanted.bind r there, .of_contexts_eq rfl⟩
  | writes _ c name value => exact hplanted.createVariable c name value
  | lookup _ name there => exact hplanted.ownerOf there name
  | other contexts functions coroutines =>
    exact ⟨hplanted.still contexts functions coroutines, .of_contexts_eq contexts⟩

/-- **Every history** does. -/
theorem Story.planted (hhost : host.Homely) (hplanted : h.Planted) (story : Story host h h') :
    h'.Planted ∧ h.Evolves h' := by
  induction story with
  | refl => exact ⟨hplanted, .refl h⟩
  | tail _ event ih =>
    obtain ⟨hbefore, hevolves⟩ := ih
    obtain ⟨hafter, hevolves'⟩ := event.planted hhost hbefore
    exact ⟨hafter, hevolves.trans hevolves'⟩

end Heap

/-! ### Runs are histories -/

/-- The histories from a heap on, as an invariant of requests. -/
def Vm.storied {host : Host σ} (hhost : host.Homely) (base : Heap) : Vm.Keeping host where
  holds h := h.Planted ∧ base.Story host h
  running M := M.Planted ∧ base.Story host M.heap
  admits _ _ _ := True
  begin {vm r args} _ _ hvm :=
    ⟨(hvm.1.begin host r args).toPlanted, hvm.2.tail (.begins vm r args)⟩
  step {M} hM := ⟨(hM.1.step hhost).toPlanted, hM.2.tail (.step M hM.1.placed)⟩
  stop {M} r state memory _ hM hmemory := by
    have hplaced : memory.Placed M.heap.contexts := by
      rcases hmemory with rfl | rfl
      · exact hM.1.placed
      · exact .of_idle rfl
    have hparks : Heap.Event host M.heap (Coroutine.checkIn r state memory M.heap) :=
      .parks M.heap r state hplaced
    exact ⟨(hparks.planted hhost hM.1.heap).1, hM.2.tail hparks⟩
  ready {h} r hh := by
    have hready : Heap.Event host h (Coroutine.setResumable r h) := .ready h r
    exact ⟨(hready.planted hhost hh.1).1, hh.2.tail hready⟩

namespace Heap.Story

variable {host : Host σ}

/-- The beginning of a request is part of a history. -/
theorem opened (request : Request) (h : Heap)
    (hplace : ∀ c, request.place? = some c → h.contexts.Holds c) :
    Story host h (request.opened h) := by
  rcases request.opened_cases h with heq | ⟨c, h₁, hcontext, hclosure⟩
  · rw [heq]
  · have hplaced : Story host h h₁ ∧ h₁.contexts.Holds c := by
      rcases hcontext with ⟨hgiven, rfl⟩ | hnew
      · exact ⟨.refl, hplace c hgiven⟩
      · cases hnew
        exact ⟨.single (.context h nofun), h.holds_newContext_self none⟩
    rcases hclosure with heq | ⟨closure, hparent, heq⟩
    · rw [heq]
      exact hplaced.1
    · rw [heq]
      refine hplaced.1.tail (.closure h₁ closure fun p hp => ?_)
      cases hparent.symm.trans hp
      exact hplaced.2

/-- **Requests are histories**, and so is all that happens on the way. -/
theorem runs (hhost : host.Homely) {vm : Vm σ} (hvm : vm.heap.Planted) :
    (∀ fuel (request : Request), (∀ c, request.place? = some c → vm.heap.contexts.Holds c) →
      Story host vm.heap (Vm.last (Request.run host fuel request vm)).heap) ∧
    (∀ fuel r args, Story host vm.heap (Vm.last (Coroutine.resume host fuel r args vm)).heap) ∧
    (∀ fuel v, Story host vm.heap (Vm.last (Vm.stringify host fuel v vm)).heap) ∧
    (∀ fuel root args head, (vm.start fuel root args).LeadsAbove host vm.active.length head →
      Story host vm.heap head.vm.heap) ∧
    ∀ r args M, Coroutine.canResume (vm.heap.coroutine r).state → vm.Runs host r args M →
      Story host vm.heap M.heap := by
  let K := Vm.storied hhost vm.heap
  have hstart : K.holds vm.heap := ⟨hvm, .refl⟩
  refine ⟨?_, ?_, ?_, ?_, ?_⟩
  · intro fuel request hplace
    have hopened : Story host vm.heap (request.opened vm.heap) := opened request vm.heap hplace
    obtain ⟨hplanted, hevolves⟩ := hopened.planted hhost hvm
    have hown : ∀ c, request.context? = some c → (request.opened vm.heap).contexts.Holds c := by
      intro c hc
      refine hevolves.holds c (hplace c ?_)
      cases request with
      | functionIn r context args => exact hc
      | _ => cases hc
    refine (K.request (fun _ _ _ => trivial) vm fuel request ⟨hplanted, hopened⟩
      fun entry => ?_).2
    exact ⟨hplanted.newCoroutine entry _ vm.config hown,
      hopened.tail (.coroutine _ entry vm.config hown)⟩
  · intro fuel r args
    exact (K.resume hstart fuel args trivial).2
  · intro fuel v
    refine (K.stringify (fun _ _ _ => trivial) vm fuel v hstart fun entry => ?_).2
    exact ⟨hvm.newCoroutine entry none vm.config nofun,
      .single (.coroutine _ entry vm.config nofun)⟩
  · intro fuel root args head leads
    have hhead : K.holds (vm.start fuel root args).vm.heap := hstart
    exact (K.leads_of_admits hhead (fun _ _ _ _ => trivial) leads).2
  · intro r args M haccepted runs
    exact (K.runs hstart haccepted trivial runs).2

end Heap.Story

/-! ### A start in a context of its own -/

/-- A new coroutine begins to run a closure, in a context that it was given. -/
structure Vm.BeginsIn (host : Host σ) (vm : Vm σ) (r : Ref .coroutine) (args : List Value)
    (f : Ref .function) (c : Ref .context) (M : Machine σ) : Prop where
  state : (vm.heap.coroutine r).state = .initial
  entry : (vm.heap.coroutine r).entry = .function f
  context : (vm.heap.coroutine r).entryContext = some c
  begins : Coroutine.begin host vm r args = .ok () M

/-- The closure's variables have been declared in that context, and nothing else has changed. -/
theorem Vm.BeginsIn.heap_eq {host : Host σ} {vm : Vm σ} {r : Ref .coroutine} {args : List Value}
    {f : Ref .function} {c : Ref .context} {M : Machine σ} (h : vm.BeginsIn host r args f c M) :
    M.heap = (Coroutine.checkOut r vm.heap vm.state).heap.declareVariables c
      (vm.heap.prototype f).declared := by
  have hbegins := h.begins
  let M₀ := Coroutine.checkOut r vm.heap vm.state
  let N := M₀.onValues fun values => values.pushAll args
  have hpush : (Exec.pushAll args : Exec σ Unit) M₀ = .ok () N := rfl
  rw [Coroutine.begin, h.state, h.entry, h.context, Coroutine.opening, if_pos rfl, Coroutine.start,
    Exec.bind_of_ok (Exec.height_apply M₀), Exec.bind_of_ok hpush] at hbegins
  rcases Exec.enter_cases host f M₀.memory.values.size none (some c) N with
    ⟨d, henter⟩ | ⟨room, g, -, -, henter⟩
  · cases henter.symm.trans hbegins
  · cases henter.symm.trans hbegins
    rfl

theorem Heap.cell_declareVariables (h : Heap) {c : Ref .context} (hc : h.contexts.Holds c)
    (names : List String) (d : Ref .context) (m : String) :
    (h.declareVariables c names).cell d m = h.cell d m := by
  unfold declareVariables
  induction names generalizing h with
  | nil => rfl
  | cons name names ih =>
    rw [List.foldl_cons]
    split
    · exact ih h hc
    · next howns =>
      rw [ih _ (holds_createVariable.mpr hc), cell_createVariable hc]
      split
      · next heq =>
        obtain ⟨rfl, rfl⟩ := heq
        have hnone : (h.context d).cells.get? m = none := by
          simpa [owns, Assoc.contains] using howns
        rw [cell, hnone]
        rfl
      · rfl

/-- **Declared variables take effect.**  Whatever runs and whatever a host does is a history.  A
request to run a closure in a context makes a new coroutine and resumes it, which declares the
closure's variables in that context; those that are there already stay as they are.  After any
history from then on, from every context below without a nearer variable of that name, the variable
is read and written, if nobody on the way remembered another owner of the name when it was declared;
and if somebody did, then that owner's variable is, for good.  What is written from one of the
former is read from all of them. -/
theorem declared_variables_take_effect {host : Host σ} (hhost : host.Homely) :
    -- requests and runs
    (∀ vm : Vm σ, Heap.Story host .empty vm.heap →
      (∀ fuel (request : Request),
        (∀ c, request.place? = some c → vm.heap.contexts.Holds c) →
        Heap.Story host vm.heap (Vm.last (Request.run host fuel request vm)).heap) ∧
      (∀ fuel r args,
        Heap.Story host vm.heap (Vm.last (Coroutine.resume host fuel r args vm)).heap) ∧
      (∀ fuel v, Heap.Story host vm.heap (Vm.last (Vm.stringify host fuel v vm)).heap) ∧
      (∀ fuel root args head, (vm.start fuel root args).LeadsAbove host vm.active.length head →
        Heap.Story host vm.heap head.vm.heap) ∧
      ∀ r args M, Coroutine.canResume (vm.heap.coroutine r).state → vm.Runs host r args M →
        Heap.Story host vm.heap M.heap) ∧
    -- a request to run a closure in a context
    (∀ (vm : Vm σ) fuel f c args,
      let made := vm.heap.newCoroutine (.new (.function f) (some c) vm.config)
      let start := ({ vm with heap := made.2 } : Vm σ).start fuel made.1 args
      (Request.run host fuel (.functionIn f c args) vm
          = Vm.execute host fuel made.1 args { vm with heap := made.2 } ∨
        ∃ d, Request.run host fuel (.functionIn f c args) vm = .error (.defect d) vm) ∧
      start.vm.active = made.1 :: vm.active ∧ start.vm.heap.contexts = vm.heap.contexts ∧
      ∀ M, Coroutine.begin host start.vm made.1 args = .ok () M →
        start.vm.BeginsIn host made.1 args f c M) ∧
    -- its variables
    ∀ (vm : Vm σ) r args f c M, Heap.Story host .empty vm.heap →
      vm.BeginsIn host r args f c M →
      Heap.Story host vm.heap M.heap ∧
      ∀ name ∈ (vm.heap.prototype f).declared,
        M.heap.owns c name = true ∧ M.heap.cell c name = vm.heap.cell c name ∧
        ∀ h, Heap.Story host M.heap h → ∀ d, c ∈ h.lineage d → h.Clear d c name →
          (vm.heap.Near h d c name → h.Sees d name c ∧
            ∀ e, c ∈ h.lineage e → h.Clear e c name → vm.heap.Near h e c name →
              ∀ value, ((h.writeVariable d name value).readVariable e name).1 = value) ∧
          ∀ e o, h.Between d c e → vm.heap.remembered e name = some o → o ≠ c →
            h.Sees d name o := by
  refine ⟨fun vm hvm => ?_, ?_, ?_⟩
  · exact Heap.Story.runs hhost (hvm.planted hhost Heap.planted_empty).1
  · intro vm fuel f c args made start
    have hrun : Request.run host fuel (.functionIn f c args) vm
        = Vm.executeNew host fuel (.function f) (some c) args vm := rfl
    rw [hrun]
    refine ⟨Vm.executeNew_cases host fuel (.function f) (some c) args vm, rfl, rfl,
      fun M hbegin => ?_⟩
    have hmade : start.vm.heap.coroutine made.1 = .new (.function f) (some c) vm.config :=
      Store.get_add_self _ _
    constructor
    · rw [hmade]
      rfl
    · rw [hmade]
      rfl
    · rw [hmade]
      rfl
    · exact hbegin
  · intro vm r args f c M hvm hstarts
    have hplanted := (hvm.planted hhost Heap.planted_empty).1
    have hbegins : Heap.Story host vm.heap M.heap := by
      have hevent : Heap.Event host vm.heap (Exec.last (Coroutine.begin host vm r args)).heap :=
        .begins vm r args
      rw [hstarts.begins] at hevent
      exact .single hevent
    refine ⟨hbegins, fun name hname => ?_⟩
    have hheap := hstarts.heap_eq
    have hc : vm.heap.contexts.Holds c := (hplanted.coroutine r).own c hstarts.context
    have hc' : (Coroutine.checkOut r vm.heap vm.state).heap.contexts.Holds c := hc
    have howns : M.heap.owns c name = true := by
      rw [hheap, Heap.owns_declareVariables hc']
      exact .inr ⟨rfl, hname⟩
    have hcell : M.heap.cell c name = vm.heap.cell c name := by
      rw [hheap, Heap.cell_declareVariables _ hc']
      rfl
    have hsame (e : Ref .context) : M.heap.remembered e name = vm.heap.remembered e name := by
      rw [hheap, Heap.remembered, Heap.owners_declareVariables]
      rfl
    refine ⟨howns, hcell, fun h later d hd hclear => ?_⟩
    obtain ⟨hlater, hevolves⟩ := later.planted hhost (hbegins.planted hhost hplanted).1
    have htraced := hlater.traced
    have howns' := hevolves.owns c name howns
    have hheld {x : Ref .context} (hx : c ∈ h.lineage x) : h.contexts.Holds x := by
      by_cases heq : x = c
      · rw [heq]
        exact Heap.holds_of_owns howns'
      · obtain ⟨p, hp, -⟩ := Heap.parent_of_below htraced.forest hx heq
        exact Heap.holds_of_parent hp
    have hnow {x : Ref .context} (hway : h.Clear x c name) (hx : vm.heap.Near h x c name) :
        h.Near h x c name := (hevolves.near_iff htraced howns hsame hway).mpr hx
    refine ⟨fun hnear => ?_, fun e o hbetween ho hne => ?_⟩
    · have howner := htraced.ownerOf_near hd hclear howns' (hnow hclear hnear)
      refine ⟨htraced.sees (hheld hd) howner, fun e he hclear' hnear' value => ?_⟩
      exact htraced.shares howns' (hheld hd) howner (hheld he) he hclear'
        (hnow hclear' hnear') value
    · rw [← hsame] at ho
      have hthere := hevolves.remembered e name o ho
      exact htraced.sees (hheld hd) (htraced.ownerOf_past hd hclear hbetween hthere hne)

namespace Heap

variable {h h₀ : Heap} {c d : Ref .context} {name : String}

theorem clear_of_lineage (hclear : ∀ e ∈ h.lineage d, e = c ∨ h.owns e name = false) :
    h.Clear d c name := by
  intro e hbetween
  exact (hclear e hbetween.1).resolve_left hbetween.2.2

theorem near_of_lineage (hnone : ∀ e ∈ h.lineage d, h₀.remembered e name = none) :
    h₀.Near h d c name := by
  intro e hbetween o ho
  cases (hnone e hbetween.1).symm.trans ho

/-- A root, a child of it and a child of that one; a closure in the lowest context that looks a
variable up, one that declares that variable and sets it, and another one of the first sort in the
middle. -/
def nested : Heap :=
  { Heap.empty with
    units := ⟨#[⟨#[
      ⟨"looking",
        #[(Op.loadString .short).byte, .ofNat 0, (Op.scope .read).byte, (Op.control .ret).byte],
        0, []⟩,
      ⟨"declaring",
        #[(Op.loadInt (.wide .short)).byte, .ofNat 3, (Op.loadString .short).byte, .ofNat 0,
          (Op.scope .write).byte, (Op.control .delimit).byte, (Op.control .ret).byte],
        0, ["x"]⟩], #["x"], 0⟩]⟩
    functions :=
      ⟨#[⟨⟨0⟩, 0, some ⟨2⟩⟩, ⟨⟨0⟩, 1, none⟩,
        ⟨⟨0⟩, 0, some ⟨1⟩⟩]⟩
    contexts :=
      ⟨#[⟨none, .empty, .empty⟩, ⟨some ⟨0⟩, .empty, .empty⟩,
        ⟨some ⟨1⟩, .empty, .empty⟩]⟩ }

theorem story_nested (host : Host σ) : Story host .empty nested := by
  let root := (Heap.empty.newContext none).2
  let child := (root.newContext (some ⟨0⟩)).2
  let grandchild := (child.newContext (some ⟨1⟩)).2
  let bare : Heap := { nested with functions := .empty }
  have hroot : Event host .empty root := .context _ nofun
  have hchild : Event host root child := by
    refine .context root fun p hp => ?_
    cases hp
    exact Nat.zero_lt_one
  have hgrandchild : Event host child grandchild := by
    refine .context child fun p hp => ?_
    cases hp
    exact Nat.one_lt_two
  have hbare : Event host grandchild bare := .other rfl rfl rfl
  have hcontexts : Story host .empty bare :=
    (((Relation.ReflTransGen.single hroot).tail hchild).tail hgrandchild).tail hbare
  let low : Heap := { bare with functions := (bare.functions.add ⟨⟨0⟩, 0, some ⟨2⟩⟩).2 }
  let free : Heap := { low with functions := (low.functions.add ⟨⟨0⟩, 1, none⟩).2 }
  have hlow : Event host bare low := by
    refine .closure bare ⟨⟨0⟩, 0, some ⟨2⟩⟩ fun p hp => ?_
    cases hp
    exact Nat.lt_succ_self 2
  have hfree : Event host low free := .closure low ⟨⟨0⟩, 1, none⟩ nofun
  have hmiddle : Event host free nested := by
    refine .closure free ⟨⟨0⟩, 0, some ⟨1⟩⟩ fun p hp => ?_
    cases hp
    exact Nat.lt_succ_of_lt Nat.one_lt_two
  exact ((hcontexts.tail hlow).tail hfree).tail hmiddle

end Heap

/-- The variable is declared in the middle before anybody has looked for it.  The context below sees
it, and so does a child that this one gets later. -/
theorem declared_variables_take_effect_nested :
    let vm : Vm Unit := { Vm.new .standard () with heap := Heap.nested }
    let made := vm.heap.newCoroutine (.new (.function ⟨1⟩) (some ⟨1⟩) vm.config)
    let start := ({ vm with heap := made.2 } : Vm Unit).start 40 made.1 []
    let M := Exec.last (Coroutine.begin .bare start.vm made.1 [])
    let h := (M.heap.newContext (some ⟨2⟩)).2
    Host.bare.Homely ∧ Heap.Story .bare .empty vm.heap ∧
      start.vm.BeginsIn .bare made.1 [] ⟨1⟩ ⟨1⟩ M ∧
      h.Sees ⟨2⟩ "x" ⟨1⟩ ∧
      ∀ value, ((h.writeVariable ⟨2⟩ "x" value).readVariable ⟨3⟩ "x").1 = value := by
  intro vm made start M h
  have hhost : Host.bare.Homely := nofun
  have hvm : Heap.Story .bare .empty vm.heap := Heap.story_nested .bare
  have hmade : Heap.Story .bare .empty start.vm.heap := by
    refine hvm.tail (.coroutine _ (.function ⟨1⟩) .standard fun c hc => ?_)
    cases hc
    exact Nat.lt_succ_of_lt Nat.one_lt_two
  obtain ⟨-, hrequest, htakes⟩ := declared_variables_take_effect hhost
  have hbegin : Coroutine.begin .bare start.vm made.1 [] = .ok () M := rfl
  have hbegins := (hrequest vm 40 ⟨1⟩ ⟨1⟩ []).2.2.2 M hbegin
  have hdeclared : "x" ∈ (start.vm.heap.prototype ⟨1⟩).declared := by decide +kernel
  have hlater : Heap.Story .bare M.heap h := by
    refine .single (.context M.heap fun p hp => ?_)
    cases hp
    have hsize : M.heap.contexts.size = 3 := by decide +kernel
    rw [Store.Holds, hsize]
    decide
  have hold (e : Ref .context) (he : e ∈ h.lineage ⟨2⟩ ∨ e ∈ h.lineage ⟨3⟩) :
      (e = ⟨1⟩ ∨ h.owns e "x" = false) ∧ start.vm.heap.remembered e "x" = none := by
    have hlow : h.lineage ⟨2⟩ = [⟨2⟩, ⟨1⟩, ⟨0⟩] := by decide +kernel
    have hnew : h.lineage ⟨3⟩ = [⟨3⟩, ⟨2⟩, ⟨1⟩, ⟨0⟩] := by decide +kernel
    rw [hlow, hnew] at he
    have hall : ∀ e ∈ ([⟨3⟩, ⟨2⟩, ⟨1⟩, ⟨0⟩] : List (Ref .context)),
        (e = ⟨1⟩ ∨ h.owns e "x" = false) ∧ start.vm.heap.remembered e "x" = none := by
      decide +kernel
    exact hall e (he.elim (List.mem_cons_of_mem _) id)
  obtain ⟨-, -, hsees⟩ :=
    (htakes start.vm made.1 [] ⟨1⟩ ⟨1⟩ M hmade hbegins).2 "x" hdeclared
  have hlow := hsees h hlater ⟨2⟩ (by decide +kernel)
    (Heap.clear_of_lineage fun e he => (hold e (.inl he)).1)
  obtain ⟨hlow, hshared⟩ := hlow.1 (Heap.near_of_lineage fun e he => (hold e (.inl he)).2)
  have hnew := hshared ⟨3⟩ (by decide +kernel)
    (Heap.clear_of_lineage fun e he => (hold e (.inr he)).1)
    (Heap.near_of_lineage fun e he => (hold e (.inr he)).2)
  exact ⟨hhost, hvm, hbegins, hlow, hnew⟩

/-- The same request comes after the closure in the lowest context has looked the variable up: that
closure goes on reading the variable of the root, while the one in the middle reads what was set. -/
theorem declared_variable_missed :
    let vm : Vm Unit := { Vm.new .standard () with heap := Heap.nested }
    let looked := Vm.last (Request.run .bare 40 (.function ⟨0⟩ []) vm)
    let result := Request.run .bare 40 (.functionIn ⟨1⟩ ⟨1⟩ []) looked
    let declared := Vm.last result
    Heap.Story .bare .empty vm.heap ∧ Vm.values? result = some [] ∧
      declared.heap.owns ⟨1⟩ "x" = true ∧ declared.heap.cell ⟨1⟩ "x" = .int 3 ∧
      declared.heap.lineage ⟨2⟩ = [⟨2⟩, ⟨1⟩, ⟨0⟩] ∧
      declared.heap.owns ⟨2⟩ "x" = false ∧
      (declared.heap.readVariable ⟨2⟩ "x").1 = .nil ∧
      Vm.values? (Request.run .bare 40 (.function ⟨0⟩ []) declared) = some [.nil] ∧
      Vm.values? (Request.run .bare 40 (.function ⟨2⟩ []) declared) = some [.int 3] := by
  intro vm looked result declared
  exact ⟨Heap.story_nested .bare, by decide +kernel⟩

end ScriptVm
