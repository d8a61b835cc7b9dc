import ScriptVm.Proofs.Lookup
import ScriptVm.Proofs.Requests

/-!
# Remembered owners in running programs

Every frame of a program has a context, most of them a new one.  New contexts are
below all others, and what a function declares in one is seen by nobody yet.  So
whatever contexts remember stays right while a program runs, with one exception: a
coroutine may have been given a context of its own, and when it is started, it
declares its variables there, after others have looked past that context for them.

A start is discreet if nobody has.  As long as all starts are discreet, lookups
answer as if nothing was ever remembered.

Main statements: `Machine.scoping` (what a step keeps), `Vm.scopes` (what rounds
and requests keep), `Heap.Scoped.transparent` (lookups), `Exec.scopeOperator_forget`
(instructions) and `lookups_transparent`.
-/

namespace ScriptVm

variable {σ α : Type}

/-! ### Contexts that are there -/

/-- The contexts of the frames are there. -/
def Stacks.Placed (contexts : Store .context Context) (s : Stacks) : Prop :=
  ∀ f ∈ s.frames.toList, ∀ c, f.context? = some c → contexts.Holds c

/-- No system call of the host leaves a frame whose context is not there. -/
def Host.Homely (host : Host σ) : Prop :=
  ∀ i call, host.syscall i = some call → ∀ heap (s : Stacks) state, s.Placed heap.contexts →
    (call heap s state).memory.Placed heap.contexts

/-- The contexts of a coroutine are there. -/
structure Coroutine.Placed (contexts : Store .context Context) (c : Coroutine) : Prop where
  own : ∀ d, c.entryContext = some d → contexts.Holds d
  frames : c.memory.Placed contexts

namespace Stacks.Placed

variable {contexts contexts' : Store .context Context} {s : Stacks}

theorem more (hs : s.Placed contexts) (hmore : ∀ d, contexts.Holds d → contexts'.Holds d) :
    s.Placed contexts' := by
  intro f hf c hc
  exact hmore c (hs f hf c hc)

theorem of_idle (hs : s.frames.toList = []) : s.Placed contexts := by
  intro f hf
  rw [hs] at hf
  cases hf

theorem push (hs : s.Placed contexts) {f : Frame}
    (hf : ∀ c, f.context? = some c → contexts.Holds c) {values : Stack Value} :
    Placed contexts { s with values, frames := s.frames.push f } := by
  intro g hg
  simp only [Stack.toList_push, List.mem_append, List.mem_singleton] at hg
  rcases hg with hg | rfl
  · exact hs g hg
  · exact hf

theorem dropLast (hs : s.Placed contexts) :
    Placed contexts { s with frames := s.frames.dropLast } := by
  intro f hf
  rw [Stack.toList_dropLast] at hf
  exact hs f (List.dropLast_subset _ hf)

theorem modifyLast (hs : s.Placed contexts) {φ : Frame → Frame}
    (hφ : ∀ f, (φ f).context? = f.context?) :
    Placed contexts { s with frames := s.frames.modifyLast φ } := by
  by_cases hnone : s.frames.toList = []
  · have hitems : s.frames.items = #[] := Array.toList_eq_nil_iff.mp hnone
    refine of_idle ?_
    simp [Stack.modifyLast, Stack.toList, hitems]
  · obtain ⟨below, g, hframes⟩ : ∃ below g, s.frames.toList = below ++ [g] :=
      ⟨_, _, (List.dropLast_concat_getLast hnone).symm⟩
    intro f hf c hc
    rw [Stack.toList_modifyLast hframes, List.mem_append, List.mem_singleton] at hf
    rcases hf with hf | rfl
    · exact hs f (by rw [hframes]; exact List.mem_append_left _ hf) c hc
    · rw [hφ g] at hc
      exact hs g (by simp [hframes]) c hc

/-- The context of the current frame. -/
theorem current (hs : s.Placed contexts) {f : Frame} {c : Ref .context}
    (hf : s.frames.last? = some f) (hc : f.context? = some c) : contexts.Holds c := by
  rw [Stack.last?_eq_getLast?] at hf
  exact hs f (List.mem_of_getLast? hf) c hc

end Stacks.Placed

theorem Frame.context?_of_bytecode {f : Frame} {r : Ref .function} {c : Ref .context}
    (hf : f.activity = .bytecode r c) : f.context? = some c := by
  rw [Frame.context?, hf]

namespace Store

variable {k : Kind} {α : Type} [Inhabited α]

theorem get_add_cases (s : Store k α) (a : α) (r : Ref k) :
    (s.add a).2.get r = s.get r ∨ (s.add a).2.get r = a := by
  rcases Nat.lt_trichotomy r.index s.cells.size with hlt | heq | hgt
  · exact .inl (s.get_add_of_holds a hlt)
  · right
    simp [get, add, Array.getD, heq]
  · left
    have hout : ¬ r.index < s.cells.size := by omega
    have hout' : ¬ r.index < s.cells.size + 1 := by omega
    simp [get, add, Array.getD, hout, hout']

theorem get_modify_cases (s : Store k α) (f : α → α) (q r : Ref k) :
    (s.modify r f).get q = s.get q ∨ (s.modify r f).get q = f (s.get q) := by
  by_cases heq : q = r
  · subst heq
    by_cases hq : s.Holds q
    · exact .inr (s.get_modify_self q f hq)
    · left
      have hout : ¬ q.index < s.cells.size := hq
      simp [get, modify, Array.getD, hout]
  · exact .inl (s.get_modify_of_ne f heq)

end Store

namespace Heap

variable {h h' : Heap} {c : Ref .context} {name : String}

theorem Recalls.of_contexts_eq (hrecalls : h.Recalls) (heq : h'.contexts = h.contexts) :
    h'.Recalls := by
  have hcontext (d : Ref .context) : h'.context d = h.context d := by rw [context, context, heq]
  have hforest' : h'.Forest := by
    intro d p hp
    rw [hcontext] at hp
    exact hrecalls.forest d p hp
  have howns (d : Ref .context) (m : String) : h'.owns d m = h.owns d m := by
    rw [owns, owns, hcontext]
  refine ⟨hforest', fun d m o ho hd => ?_⟩
  rw [hcontext] at ho
  rw [howns] at hd ⊢
  rw [nearestOwner_congr hrecalls.forest hforest' (P := fun _ => True) (fun _ _ _ _ => trivial)
    (fun d _ => by rw [hcontext]) (fun d _ => howns d m) trivial]
  exact hrecalls.nearest d m o ho hd

theorem Unsought.of_contexts_eq (hunsought : h.Unsought c name) (hforest : h.Forest)
    (hforest' : h'.Forest) (heq : h'.contexts = h.contexts) : h'.Unsought c name := by
  have hcontext (d : Ref .context) : h'.context d = h.context d := by rw [context, context, heq]
  have hlineage := lineage_congr hforest hforest' fun d => by rw [hcontext]
  intro d o hne hmem howns ho
  rw [owns, hcontext] at howns
  rw [hlineage] at hmem ⊢
  rw [hcontext] at ho
  exact hunsought d o hne hmem howns ho

/-- **A heap whose contexts are in order**: what they remember is right, and closures and coroutines
refer only to contexts that are there. -/
structure Scoped (h : Heap) : Prop where
  recalls : h.Recalls
  bound : ∀ r p, (h.function r).parent = some p → h.contexts.Holds p
  coroutines : h.All (Coroutine.Placed h.contexts)

theorem scoped_empty : Heap.empty.Scoped where
  recalls := by
    have hcontext (c : Ref .context) : Heap.empty.context c = default := context_of_not_holds nofun
    refine ⟨fun c p hp => ?_, fun c name o ho => ?_⟩
    · rw [hcontext] at hp
      cases hp
    · rw [hcontext] at ho
      cases ho
  bound r p hp := by
    have hfunction : Heap.empty.function r = default := by
      simp [function, empty, Store.get, Store.empty]
    rw [hfunction] at hp
    cases hp
  coroutines q hq := nomatch hq

namespace Scoped

/-- The contexts change, and all that were there still are. -/
theorem more (hscoped : h.Scoped) (hrecalls : h'.Recalls)
    (hmore : ∀ d, h.contexts.Holds d → h'.contexts.Holds d)
    (hfunctions : h'.functions = h.functions)
    (hcoroutines : h'.coroutines = h.coroutines) : h'.Scoped where
  recalls := hrecalls
  bound r p hp := by
    rw [function, hfunctions] at hp
    exact hmore p (hscoped.bound r p hp)
  coroutines := by
    have hall : h.All (Coroutine.Placed h'.contexts) := fun q hq =>
      have hplaced := hscoped.coroutines q hq
      ⟨fun d hd => hmore d (hplaced.own d hd), hplaced.frames.more hmore⟩
    exact hall.of_coroutines_eq hcoroutines

/-- Neither contexts nor closures nor coroutines change. -/
theorem still (hscoped : h.Scoped) (hcontexts : h'.contexts = h.contexts)
    (hfunctions : h'.functions = h.functions) (hcoroutines : h'.coroutines = h.coroutines) :
    h'.Scoped := by
  refine hscoped.more (hscoped.recalls.of_contexts_eq hcontexts) ?_ hfunctions hcoroutines
  intro d hd
  rwa [hcontexts]

/-- Closures change, or new ones are made. -/
theorem functions (hscoped : h.Scoped) {functions : Store .function Closure}
    (hbound : ∀ r p, (functions.get r).parent = some p → h.contexts.Holds p) :
    Scoped { h with functions } where
  recalls := hscoped.recalls.of_contexts_eq rfl
  bound := hbound
  coroutines := hscoped.coroutines.of_coroutines_eq rfl

theorem addFunction (hscoped : h.Scoped) (closure : Closure)
    (hparent : ∀ p, closure.parent = some p → h.contexts.Holds p) :
    Scoped { h with functions := (h.functions.add closure).2 } := by
  refine hscoped.functions fun r p hp => ?_
  rcases h.functions.get_add_cases closure r with hget | hget
  · rw [hget] at hp
    exact hscoped.bound r p hp
  · rw [hget] at hp
    exact hparent p hp

theorem bind (hscoped : h.Scoped) (r : Ref .function) (hc : h.contexts.Holds c) :
    (h.bind r c).Scoped := by
  refine hscoped.functions fun q p hp => ?_
  rcases h.functions.get_modify_cases (fun f => { f with parent := some c }) q r with hget | hget
  · rw [hget] at hp
    exact hscoped.bound q p hp
  · rw [hget] at hp
    cases hp
    exact hc

theorem modifyCoroutine (hscoped : h.Scoped) {r : Ref .coroutine} {φ : Coroutine → Coroutine}
    (hφ : h.coroutines.Holds r → (φ (h.coroutine r)).Placed h.contexts) :
    (h.modifyCoroutine r φ).Scoped where
  recalls := hscoped.recalls.of_contexts_eq rfl
  bound := hscoped.bound
  coroutines := hscoped.coroutines.modify hφ

theorem newCoroutine (hscoped : h.Scoped) (entry : Value) (context : Option (Ref .context))
    (config : Config) (hcontext : ∀ c, context = some c → h.contexts.Holds c) :
    (h.newCoroutine (.new entry context config)).2.Scoped where
  recalls := hscoped.recalls.of_contexts_eq rfl
  bound := hscoped.bound
  coroutines := hscoped.coroutines.newCoroutine ⟨hcontext, .of_idle rfl⟩

theorem coroutine (hscoped : h.Scoped) (q : Ref .coroutine) :
    (h.coroutine q).Placed h.contexts := by
  by_cases hq : h.coroutines.Holds q
  · exact hscoped.coroutines q hq
  · rw [coroutine_of_not_holds hq]
    exact ⟨nofun, .of_idle rfl⟩

theorem newContext (hscoped : h.Scoped) {parent : Option (Ref .context)}
    (hparent : ∀ p, parent = some p → h.contexts.Holds p) : (h.newContext parent).2.Scoped :=
  hscoped.more (hscoped.recalls.newContext hparent).1 (fun _ hd => holds_newContext hd) rfl rfl

/-- Variables are declared where nobody looks past. -/
theorem declare (hscoped : h.Scoped) (hc : h.contexts.Holds c) {names : List String}
    (hunsought : ∀ m ∈ names, h.Unsought c m) : (h.declareVariables c names).Scoped := by
  refine hscoped.more ((hscoped.recalls.declare_iff hc names).mpr hunsought)
    (fun d hd => (h.holds_declareVariables c d names).mpr hd) ?_
      (h.coroutines_declareVariables c names)
  rw [h.declareVariables_eq]

/-- A closure is entered in a new context. -/
theorem newFrame (hscoped : h.Scoped) {parent : Option (Ref .context)}
    (hparent : ∀ p, parent = some p → h.contexts.Holds p) (names : List String) :
    ((h.newContext parent).2.declareVariables (h.newContext parent).1 names).Scoped := by
  obtain ⟨hrecalls, hchildless⟩ := hscoped.recalls.newContext hparent
  exact (hscoped.newContext hparent).declare (h.holds_newContext_self parent)
    fun m _ => unsought_of_childless hrecalls.forest hchildless m

theorem read (hscoped : h.Scoped) (hc : h.contexts.Holds c) (name : String) :
    (h.readVariable c name).2.Scoped := by
  refine hscoped.more (hscoped.recalls.ownerOf hc name).2.2
    (fun d hd => (hscoped.recalls.holds_ownerOf hc name d).mpr hd) ?_
      (h.coroutines_readVariable c name)
  rw [h.readVariable_eq]

theorem write (hscoped : h.Scoped) (hc : h.contexts.Holds c) (name : String) (value : Value) :
    (h.writeVariable c name value).Scoped := by
  refine hscoped.more (hscoped.recalls.written hc name value).1 (fun d hd => ?_) ?_
    (h.coroutines_writeVariable c name value)
  · exact holds_createVariable.mpr ((hscoped.recalls.holds_ownerOf hc name d).mpr hd)
  · rw [h.writeVariable_eq]

end Scoped

end Heap

/-! ### What a step keeps -/

namespace Machine

/-- **A machine whose contexts are in order.** -/
structure Scoped (M : Machine σ) : Prop where
  heap : M.heap.Scoped
  placed : M.memory.Placed M.heap.contexts

/-- A closure is entered in a context of the given heap, in which its variables have been
declared. -/
theorem Scoped.entered {M : Machine σ} (hM : M.Scoped) {h : Heap} {r : Ref .function}
    {c : Ref .context} {room : Nat} {f : Frame} (hc : h.contexts.Holds c)
    (hmore : ∀ d, M.heap.contexts.Holds d → h.contexts.Holds d)
    (hdeclared : (h.declareVariables c (M.heap.prototype r).declared).Scoped)
    (hactivity : f.activity = .bytecode r c) : (M.entered h r c room f).Scoped := by
  refine ⟨hdeclared, Stacks.Placed.push (hM.placed.more fun d hd => ?_) fun d hd => ?_⟩
  · exact (h.holds_declareVariables c d _).mpr (hmore d hd)
  · rw [Frame.context?_of_bytecode hactivity] at hd
    cases hd
    exact (h.holds_declareVariables c c _).mpr hc

/-- Contexts in order, as an invariant of steps.  The current frame may look up variables from the
contexts that were there before. -/
def scoping (host : Host σ) (before : Store .context Context) : Machine.StepKeeping host where
  holds M := M.Scoped ∧ ∀ d, before.Holds d → M.heap.contexts.Holds d
  values _ hM := ⟨⟨hM.1.heap, hM.1.placed⟩, hM.2⟩
  frame hφ hM := ⟨⟨hM.1.heap, hM.1.placed.modifyLast hφ.context?⟩, hM.2⟩
  enter {M} r _ _ _ hactivity hM := by
    have hmore (d : Ref .context) (hd : M.heap.contexts.Holds d) :
        (M.heap.newContext (M.heap.function r).parent).2.contexts.Holds d :=
          Heap.holds_newContext hd
    have hdeclared := hM.1.heap.newFrame (hM.1.heap.bound r) (M.heap.prototype r).declared
    refine ⟨hM.1.entered (Heap.holds_newContext_self _ _) hmore hdeclared hactivity,
      fun d hd => ?_⟩
    exact (Heap.holds_declareVariables _ _ d _).mpr (hmore d (hM.2 d hd))
  enterAsync _ hactivity hM := by
    refine ⟨⟨hM.1.heap, hM.1.placed.push fun c hc => ?_⟩, hM.2⟩
    rw [Frame.context?, hactivity] at hc
    cases hc
  effect _ _ hM := ⟨⟨hM.1.heap, hM.1.placed⟩, hM.2⟩
  opening _ hM := ⟨⟨hM.1.heap, hM.1.placed⟩, hM.2⟩
  async _ _ _ hM := ⟨⟨hM.1.heap, hM.1.placed⟩, hM.2⟩
  scope c := before.Holds c
  root {M c} hM hc := Nat.lt_of_le_of_lt (Heap.index_root_le hM.1.heap.recalls.forest c) hc
  delimiters _ hM := ⟨⟨hM.1.heap, hM.1.placed⟩, hM.2⟩
  marks _ hM := ⟨⟨hM.1.heap, hM.1.placed⟩, hM.2⟩
  table hM := ⟨⟨hM.1.heap.still rfl rfl rfl, hM.1.placed⟩, hM.2⟩
  vector _ hM := ⟨⟨hM.1.heap.still rfl rfl rfl, hM.1.placed⟩, hM.2⟩
  function {M h' _ _ _} made hM := by
    obtain rfl : h' = _ := M.heap.newFunction_eq made
    exact ⟨⟨hM.1.heap.addFunction _ nofun, hM.1.placed⟩, hM.2⟩
  coroutine entry config hM :=
    ⟨⟨hM.1.heap.newCoroutine entry none config nofun, hM.1.placed⟩, hM.2⟩
  metatable _ _ hM := ⟨⟨hM.1.heap.still rfl rfl rfl, hM.1.placed⟩, hM.2⟩
  items _ _ hM := ⟨⟨hM.1.heap.still rfl rfl rfl, hM.1.placed⟩, hM.2⟩
  bind r hc hM := ⟨⟨hM.1.heap.bind r (hM.2 _ hc), hM.1.placed⟩, hM.2⟩
  read {M c} name hc hM := by
    have hmore (d : Ref .context) (hd : M.heap.contexts.Holds d) :
        (M.heap.readVariable c name).2.contexts.Holds d :=
      (hM.1.heap.recalls.holds_ownerOf (hM.2 c hc) name d).mpr hd
    exact ⟨⟨hM.1.heap.read (hM.2 c hc) name, hM.1.placed.more hmore⟩,
      fun d hd => hmore d (hM.2 d hd)⟩
  write {M c} name value hc hM := by
    have hmore (d : Ref .context) (hd : M.heap.contexts.Holds d) :
        (M.heap.writeVariable c name value).contexts.Holds d :=
      Heap.holds_createVariable.mpr
        ((hM.1.heap.recalls.holds_ownerOf (hM.2 c hc) name d).mpr hd)
    exact ⟨⟨hM.1.heap.write (hM.2 c hc) name value, hM.1.placed.more hmore⟩,
      fun d hd => hmore d (hM.2 d hd)⟩

/-- **Every step** leaves the contexts in order. -/
theorem Scoped.step {host : Host σ} (hhost : host.Homely) {M : Machine σ} (hM : M.Scoped) :
    (Exec.last (Exec.step host M)).Scoped := by
  let K := scoping host M.heap.contexts
  have hstep : K.holds (Exec.last (Exec.step host M)) := by
    refine Exec.Upholds.step (K := K) ?_ ?_ ⟨hM, fun _ hd => hd⟩ ?_ ?_
    · intro N hN
      exact ⟨⟨hN.1.heap, hN.1.placed.dropLast⟩, hN.2⟩
    · intro i call N hslot hN
      exact ⟨⟨hN.1.heap, hhost i call hslot N.heap N.memory N.state hN.1.placed⟩, hN.2⟩
    · intro f r context hf hactivity
      exact hM.placed.current hf (Frame.context?_of_bytecode hactivity)
    · intro f r context o imm phase N _ _ _ hN
      refine Exec.Upholds.tableOperator (K := K.toInstructionKeeping) o ?_ phase N hN
      intro _ L t key value hL
      exact ⟨⟨hL.1.heap.still rfl rfl rfl, hL.1.placed⟩, hL.2⟩
  exact hstep.1

end Machine

/-! ### What runs keep -/

/-- **A start behind nobody's back**: whatever the coroutine will declare in a context of its own,
nobody looks past that context for it. -/
def Heap.Discreet (h : Heap) (q : Ref .coroutine) : Prop :=
  ∀ r c, (h.coroutine q).state = .initial → (h.coroutine q).entry = .function r →
    (h.coroutine q).entryContext = some c → ∀ name ∈ (h.prototype r).declared,
    h.Unsought c name

/-- Contexts in order, as an invariant of runs in which all starts are discreet. -/
def Vm.scopes {host : Host σ} (hhost : host.Homely) : Vm.Keeping host where
  holds h := h.Scoped
  running M := M.Scoped
  admits vm r _ := vm.heap.Discreet r
  begin {vm r args} _ hdiscreet hvm := by
    let M := Coroutine.checkOut r vm.heap vm.state
    let K := (Machine.scoping host M.heap.contexts).toCallKeeping
    have hout : M.heap.Scoped := hvm.modifyCoroutine fun _ => ⟨nofun, .of_idle rfl⟩
    have hM : K.holds M := ⟨⟨hout, (hvm.coroutine r).frames⟩, fun _ hd => hd⟩
    have hopening : K.holds (Exec.last (Coroutine.begin host vm r args)) := by
      refine Exec.Upholds.opening (K := K) _ _ _ args hM ?_
      intro N f c room g hinitial hentry hcontext hheap hactivity _ hN
      have hc : N.heap.contexts.Holds c := hN.2 c ((hvm.coroutine r).own c hcontext)
      have hdeclared : (N.heap.declareVariables c (N.heap.prototype f).declared).Scoped := by
        refine hN.1.heap.declare hc fun name hname => ?_
        rw [hheap] at hname ⊢
        exact (hdiscreet f c hinitial hentry hcontext name hname).of_contexts_eq hvm.recalls.forest
          hout.recalls.forest rfl
      refine ⟨hN.1.entered hc (fun _ hd => hd) hdeclared hactivity, fun d hd => ?_⟩
      exact (Heap.holds_declareVariables _ _ d _).mpr (hN.2 d hd)
    exact hopening.1
  step hM := hM.step hhost
  stop {M} r state memory _ hM hmemory := by
    refine hM.heap.modifyCoroutine fun hr => ⟨(hM.heap.coroutine r).own, ?_⟩
    rcases hmemory with rfl | rfl
    · exact hM.placed
    · exact .of_idle rfl
  ready r hh := hh.modifyCoroutine fun _ => ⟨(hh.coroutine r).own, (hh.coroutine r).frames⟩

/-- No coroutine has a context of its own, as an invariant of runs: programs make none that has. -/
def Vm.unplaced (host : Host σ) : Vm.Keeping host where
  holds h := h.All (·.entryContext = none)
  running M := M.heap.All (·.entryContext = none)
  admits _ _ _ := True
  begin {vm r args} _ _ hvm :=
    (hvm.modify fun _ => rfl).grows (Coroutine.begin_grows host vm r args) fun _ _ => rfl
  step {M} hM := hM.grows (Exec.step_grows host M) fun _ _ => rfl
  stop r _ _ _ hM _ := hM.modify fun hr => hM r hr
  ready r hh := hh.modify fun hr => hh r hr

theorem Heap.All.discreet {h : Heap} (hall : h.All (·.entryContext = none)) (q : Ref .coroutine) :
    h.Discreet q := by
  intro r c _ _ hcontext
  by_cases hq : h.coroutines.Holds q
  · cases (hall q hq).symm.trans hcontext
  · rw [coroutine_of_not_holds hq] at hcontext
    cases hcontext

/-! ### Lookups as if nothing was remembered -/

/-- **Lookups as if nothing was remembered**, from all contexts of the heap. -/
structure Heap.Transparent (h : Heap) : Prop where
  /-- The chain of a context leads from parent to parent, ends at a context without one, and comes
  by no context twice. -/
  chain : ∀ c, (h.lineage c).head? = some c ∧
    (h.lineage c).IsChain (fun a b => (h.context a).parent = some b) ∧
    (h.lineage c).getLast? = some (h.root c) ∧ (h.context (h.root c)).parent = none ∧
    (h.lineage c).Nodup
  /-- The owner of a name is the nearest context on the chain that has it, or the root, which has it
  now. -/
  owner : ∀ c name, h.contexts.Holds c → (h.ownerOf c name).1 = h.nearestOwner c name ∧
    (h.ownerOf c name).2.owns (h.nearestOwner c name) name = true
  /-- A lookup that does not remember anything finds the same owner and leaves the same
  variables. -/
  plain : ∀ c name, h.contexts.Holds c →
    ((h.ownerOf c name).1, (h.ownerOf c name).2.forget) = h.forget.resolve c name
  /-- Two lookups of one name meet exactly if their nearest owners are the same. -/
  meets : ∀ c d name, h.contexts.Holds c → h.contexts.Holds d →
    (((h.ownerOf c name).2.ownerOf d name).1 = (h.ownerOf c name).1 ↔
      h.nearestOwner d name = h.nearestOwner c name)
  /-- So what is written from one of them is read from the other one, or else is not seen there. -/
  shares : ∀ c d name value, h.contexts.Holds c → h.contexts.Holds d →
    ((h.writeVariable c name value).readVariable d name).1
      = if h.nearestOwner d name = h.nearestOwner c name then value else (h.readVariable d name).1

theorem Heap.Scoped.transparent {h : Heap} (hscoped : h.Scoped) : h.Transparent where
  chain c := by
    obtain ⟨hhead, hchain, hlast, hroot, hnodup, -⟩ := lineage_chain hscoped.recalls.forest c
    exact ⟨hhead, hchain, hlast, hroot, hnodup⟩
  owner c name hc := by
    obtain ⟨howner, hforget, -⟩ := hscoped.recalls.ownerOf hc name
    rw [owns_of_forget hforget]
    exact ⟨howner, hscoped.recalls.owns_found hc name⟩
  plain c name hc := hscoped.recalls.ownerOf_eq_resolve hc name
  meets c d name hc hd := by
    obtain ⟨howner, -, hrecalls⟩ := hscoped.recalls.ownerOf hc name
    have hd' := (hscoped.recalls.holds_ownerOf hc name d).mpr hd
    rw [(hrecalls.ownerOf hd' name).1, hscoped.recalls.nearestOwner_ownerOf hc, howner]
  shares c d name value hc hd := hscoped.recalls.read_written hc hd name value

/-- The machine in which no context remembers anything. -/
def Machine.forget (M : Machine σ) : Machine σ :=
  { M with heap := M.heap.forget }

namespace Exec

/-- The answer of a computation, up to what contexts remember. -/
def forgetting : EStateM.Result Stop (Machine σ) α → EStateM.Result Stop (Machine σ) α
  | .ok a M => .ok a M.forget
  | .error e M => .error e M.forget

/-- The name on top of the stack. -/
def nameOperand : Exec σ String := do
  ofFault ((← heap).string (← pop))

/-- Read the variable whose name is on the stack, given what it is to read one. -/
def readBy (read : Heap → Ref .context → String → Value × Heap) (scope : Ref .context) :
    Exec σ Unit := do
  let name ← nameOperand
  let value ← modifyGet fun m =>
    let (value, h) := read m.heap scope name
    (value, { m with heap := h })
  push value

/-- Write the variable whose name is on the stack, given what it is to write one. -/
def writeBy (write : Heap → Ref .context → String → Value → Heap) (scope : Ref .context) :
    Exec σ Unit := do
  let name ← nameOperand
  let value ← pop
  modify fun m => m.onHeap fun h => write h scope name value

/-- **An instruction on variables**, given what it is to read and to write one. -/
def scopeBy (read : Heap → Ref .context → String → Value × Heap)
    (write : Heap → Ref .context → String → Value → Heap) (context : Ref .context)
    (op : ScopeOp) : Exec σ Unit := do
  match op with
  | .read => readBy read context
  | .write => writeBy write context
  | .readGlobal => readBy read ((← heap).root context)
  | .writeGlobal => writeBy write ((← heap).root context)

theorem readVariable_eq (scope : Ref .context) :
    (readVariable scope : Exec σ Unit) = readBy Heap.readVariable scope := by
  unfold readVariable readBy nameOperand
  simp only [bind_assoc]

theorem writeVariable_eq (scope : Ref .context) :
    (writeVariable scope : Exec σ Unit) = writeBy Heap.writeVariable scope := by
  unfold writeVariable writeBy nameOperand
  simp only [bind_assoc]

theorem scopeOperator_eq (context : Ref .context) (op : ScopeOp) :
    (scopeOperator context op : Exec σ Unit)
      = scopeBy Heap.readVariable Heap.writeVariable context op := by
  cases op <;> simp only [scopeOperator, scopeBy, readVariable_eq, writeVariable_eq]

theorem pop_forget (M : Machine σ) : (pop : Exec σ Value) M.forget = forgetting (pop M) := by
  have hmemory : M.forget.memory = M.memory := rfl
  cases hf : M.memory.frames.last? with
  | none => simp [pop, frame, bind_apply, hmemory, hf, forgetting]
  | some f =>
    by_cases hlow : M.memory.values.size ≤ f.privateBase
    · simp [pop, frame, bind_apply, hmemory, hf, hlow, forgetting]
    · cases hv : M.memory.values.last? with
      | none => simp [pop, frame, bind_apply, hmemory, hf, hlow, hv, forgetting]
      | some v =>
        simp [pop, frame, bind_apply, map_apply, hmemory, hf, hlow, hv, forgetting]
        rfl

theorem nameOperand_forget (M : Machine σ) :
    (nameOperand : Exec σ String) M.forget = forgetting (nameOperand M) := by
  have hstring (v : Value) : M.heap.forget.string v = M.heap.string v := by cases v <;> rfl
  unfold nameOperand
  rw [bind_of_ok (heap_apply M), bind_of_ok (heap_apply M.forget), bind_apply,
    bind_apply, pop_forget]
  cases pop M with
  | error e N => rfl
  | ok v N =>
    show ofFault (M.heap.forget.string v) N.forget = forgetting (ofFault (M.heap.string v) N)
    rw [hstring]
    cases M.heap.string v <;> rfl

theorem heap_nameOperand {M N : Machine σ} {name : String}
    (h : (nameOperand : Exec σ String) M = .ok name N) : N.heap = M.heap := by
  rw [nameOperand, bind_of_ok (heap_apply M)] at h
  obtain ⟨v, L, hpop, h⟩ := bind_eq_ok h
  obtain ⟨-, rfl⟩ := pop_eq_ok hpop
  cases hname : M.heap.string v with
  | error f =>
    rw [hname] at h
    cases h
  | ok s =>
    rw [hname] at h
    cases h
    rfl

section

variable {M : Machine σ} {scope : Ref .context} (hrecalls : M.heap.Recalls)
  (hscope : M.heap.contexts.Holds scope)
include hrecalls hscope

theorem readBy_forget :
    forgetting (readBy Heap.readVariable scope M) = readBy Heap.readPlain scope M.forget := by
  unfold readBy
  rw [bind_apply, bind_apply, nameOperand_forget]
  cases hname : nameOperand M with
  | error e N => rfl
  | ok name N =>
    have hheap := heap_nameOperand hname
    rw [← hheap] at hrecalls hscope
    obtain ⟨hvalue, hleft⟩ := Prod.ext_iff.mp (hrecalls.readVariable hscope name)
    dsimp only at hvalue hleft
    show EStateM.Result.ok () { N with
        heap := (N.heap.readVariable scope name).2.forget
        memory :=
          { N.memory with values := N.memory.values.push (N.heap.readVariable scope name).1 } }
      = .ok () { N with
        heap := (N.heap.forget.readPlain scope name).2
        memory := { N.memory with
          values := N.memory.values.push (N.heap.forget.readPlain scope name).1 } }
    rw [hvalue, hleft]

theorem writeBy_forget :
    forgetting (writeBy Heap.writeVariable scope M) = writeBy Heap.writePlain scope M.forget := by
  unfold writeBy
  rw [bind_apply, bind_apply, nameOperand_forget]
  cases hname : nameOperand M with
  | error e N => rfl
  | ok name N =>
    have hheap := heap_nameOperand hname
    show forgetting ((pop >>= fun value => modify fun m => m.onHeap fun h =>
        h.writeVariable scope name value) N)
      = (pop >>= fun value => modify fun m => m.onHeap fun h =>
        h.writePlain scope name value) N.forget
    rw [bind_apply, bind_apply, pop_forget]
    cases hpop : pop N with
    | error e L => rfl
    | ok value L =>
      obtain ⟨-, rfl⟩ := pop_eq_ok hpop
      have hwrite := hrecalls.writeVariable hscope name value
      rw [← hheap] at hwrite
      show EStateM.Result.ok () { N.onValues Stack.dropLast with
          heap := (N.heap.writeVariable scope name value).forget }
        = .ok () { N.onValues Stack.dropLast with
          heap := N.heap.forget.writePlain scope name value }
      rw [hwrite]

/-- **An instruction on variables** does what it would do without memory, up to what is
remembered. -/
theorem scopeOperator_forget (op : ScopeOp) :
    forgetting (scopeOperator scope op M)
      = scopeBy Heap.readPlain Heap.writePlain scope op M.forget := by
  have hforest := hrecalls.forest
  have hroot : M.heap.forget.root scope = M.heap.root scope := by
    have hforget := M.heap.forget_forget
    rw [Heap.root, Heap.root, Heap.lineage_congr hforest (.of_forget hforget hforest)
      (Heap.parent_of_forget hforget)]
  have hheld := Heap.holds_root hforest hscope
  rw [scopeOperator_eq]
  cases op with
  | read => exact readBy_forget hrecalls hscope
  | write => exact writeBy_forget hrecalls hscope
  | readGlobal =>
    show _ = readBy Heap.readPlain (M.heap.forget.root scope) M.forget
    rw [hroot]
    exact readBy_forget hrecalls hheld
  | writeGlobal =>
    show _ = writeBy Heap.writePlain (M.heap.forget.root scope) M.forget
    rw [hroot]
    exact writeBy_forget hrecalls hheld

end

end Exec

/-! ### Requests -/

namespace Heap.Scoped

variable {h : Heap}

/-- The contexts are in order where a request begins. -/
theorem opened (hscoped : h.Scoped) (request : Request)
    (hplace : ∀ c, request.place? = some c → h.contexts.Holds c) :
    (request.opened h).Scoped := by
  rcases request.opened_cases h with heq | ⟨c, h₁, hcontext, hclosure⟩
  · rwa [heq]
  · have hplaced : h₁.Scoped ∧ h₁.contexts.Holds c := by
      rcases hcontext with ⟨hgiven, rfl⟩ | hnew
      · exact ⟨hscoped, hplace c hgiven⟩
      · cases hnew
        exact ⟨hscoped.newContext nofun, h.holds_newContext_self none⟩
    rcases hclosure with heq | ⟨closure, hparent, heq⟩
    · rw [heq]
      exact hplaced.1
    · rw [heq]
      refine hplaced.1.addFunction closure fun p hp => ?_
      cases hparent.symm.trans hp
      exact hplaced.2

/-- They are with its coroutine made. -/
theorem made (hscoped : h.Scoped) (request : Request)
    (hplace : ∀ c, request.place? = some c → h.contexts.Holds c) (entry : Value)
    (config : Config) :
    ((request.opened h).newCoroutine (.new entry request.context? config)).2.Scoped := by
  refine (hscoped.opened request hplace).newCoroutine entry request.context? config fun c hc => ?_
  cases request with
  | functionIn r context args => exact hplace c hc
  | _ => cases hc

end Heap.Scoped

namespace Vm.Head

/-- Rounds above a floor in which every start is discreet. -/
abbrev LeadsDiscreetly (host : Host σ) (floor : Nat) : Head σ → Head σ → Prop :=
  Relation.ReflTransGen fun a b => a.Resumes Heap.Discreet ∧ a.NextAbove host floor b

end Vm.Head

/-- **Lookups as if nothing was remembered.**  If the contexts are in order when a request is made,
they are where its run begins, and at the head of every round, between all steps and at the end, as
long as every coroutine that is started in a context of its own is started discreetly.  All starts
are, if no coroutine had such a context before.  Wherever the contexts are in order, lookups and
instructions on variables do what they would do if nothing was ever remembered.  A start that is not
discreet leaves somebody with a wrong owner. -/
theorem lookups_transparent {host : Host σ} (hhost : host.Homely) :
    -- requests and runs
    (∀ vm : Vm σ, vm.heap.Scoped →
      (∀ fuel (request : Request),
        (∀ c, request.place? = some c → vm.heap.contexts.Holds c) →
        let begun : Vm σ := { vm with heap := request.opened vm.heap }
        Request.Begins host fuel begun request.context? (request.run host fuel vm) ∧
        begun.heap.Scoped ∧
        ∀ entry, (begun.heap.newCoroutine (.new entry request.context? vm.config)).2.Scoped) ∧
      ∀ fuel root args,
        (∀ head, (vm.start fuel root args).LeadsDiscreetly host vm.active.length head →
          head.vm.heap.Scoped ∧
          ∀ top M, Coroutine.canResume (head.vm.heap.coroutine top).state →
            head.vm.heap.Discreet top → head.vm.Runs host top head.values M → M.Scoped) ∧
        (vm.heap.All (·.entryContext = none) →
          ∀ head, (vm.start fuel root args).LeadsAbove host vm.active.length head →
            head.Resumes Heap.Discreet) ∧
        ((∀ head, (vm.start fuel root args).LeadsAbove host vm.active.length head →
            head.Resumes Heap.Discreet) →
          (Vm.last (Vm.execute host fuel root args vm)).heap.Scoped)) ∧
    -- lookups and instructions
    (∀ h : Heap, h.Scoped → h.Transparent) ∧
    (∀ M : Machine σ, M.Scoped → M.heap.Transparent ∧
      ∀ f c op, M.memory.frames.last? = some f → f.context? = some c →
        Exec.forgetting (Exec.scopeOperator c op M)
          = Exec.scopeBy Heap.readPlain Heap.writePlain c op M.forget) ∧
    -- starts
    ∀ h : Heap, h.Scoped → ∀ c, h.contexts.Holds c → ∀ names,
      (h.declareVariables c names).Recalls ↔ ∀ name ∈ names, h.Unsought c name := by
  refine ⟨fun vm hvm => ⟨?_, ?_⟩, ?_, ?_, ?_⟩
  · intro fuel request hplace
    exact ⟨request.begins host fuel vm, hvm.opened request hplace,
      fun entry => hvm.made request hplace entry vm.config⟩
  · intro fuel root args
    have hstart : (vm.start fuel root args).vm.heap.Scoped := hvm
    refine ⟨fun head leads => ?_, fun hnone head leads top _ => ?_, fun hdiscreet => ?_⟩
    · have hhead : head.vm.heap.Scoped := (Vm.scopes hhost).leads hstart leads
      refine ⟨hhead, fun top M haccepted hdiscreet runs => ?_⟩
      exact (Vm.scopes hhost).runs hhead haccepted hdiscreet runs
    · have hstart : (vm.start fuel root args).vm.heap.All (·.entryContext = none) := hnone
      have hhead : head.vm.heap.All (·.entryContext = none) :=
        (Vm.unplaced host).leads_of_admits hstart (fun _ _ _ _ => trivial) leads
      exact hhead.discreet top
    · exact (Vm.scopes hhost).execute hvm fuel root args hdiscreet
  · intro h hscoped
    exact hscoped.transparent
  · intro M hM
    refine ⟨hM.heap.transparent, fun f c op hf hc => ?_⟩
    exact Exec.scopeOperator_forget hM.heap.recalls (hM.placed.current hf hc) op
  · intro h hscoped c hc names
    exact hscoped.recalls.declare_iff hc names

/-! ### A coroutine in a context of its own -/

namespace Vm.Head

/-- The next head of a run above a floor, if there is one. -/
def next? (host : Host σ) (floor : Nat) (head : Head σ) : Option (Head σ) :=
  match head.fuel with
  | 0 => none
  | fuel + 1 =>
    match round host floor fuel head.values head.vm with
    | .ok (.again values) vm => some ⟨fuel, values, vm⟩
    | _ => none

theorem nextAbove_of_isSome {host : Host σ} {floor : Nat} {a : Head σ}
    (hsome : (a.next? host floor).isSome) :
    a.NextAbove host floor ((a.next? host floor).getD a) := by
  obtain ⟨b, hb⟩ := Option.isSome_iff_exists.mp hsome
  rw [hb]
  unfold next? at hb
  split at hb
  · cases hb
  · next fuel hfuel =>
    split at hb
    · next values vm hround =>
      cases hb
      exact ⟨hfuel, hround⟩
    · cases hb

end Vm.Head

namespace Heap

theorem unsought_of_forgotten {h : Heap} {name : String}
    (hforgotten : ∀ i < h.contexts.size, (h.context ⟨i⟩).owners.get? name = none)
    (c : Ref .context) : h.Unsought c name := by
  intro d o _ _ _ ho
  by_cases hd : h.contexts.Holds d
  · cases (hforgotten d.index hd).symm.trans ho
  · rw [context_of_not_holds hd] at ho
    cases ho

/-- Closures over a root and a child of it: one that looks a variable up, starts a coroutine and
looks the variable up again, one that declares that variable and sets it, and one that starts a
coroutine and only then looks the variable up. -/
def declaring : Heap :=
  { Heap.empty with
    units := ⟨#[⟨#[
      ⟨"looking",
        #[(Op.loadString .short).byte, .ofNat 0, (Op.scope .read).byte, (Op.control .pop).byte,
          (Op.loadArgument (.wide .short)).byte, .ofNat 0, (Op.control .resume).byte,
          (Op.loadString .short).byte, .ofNat 0, (Op.scope .read).byte, (Op.control .ret).byte],
        0, []⟩,
      ⟨"declaring",
        #[(Op.loadInt (.wide .short)).byte, .ofNat 3, (Op.loadString .short).byte, .ofNat 0,
          (Op.scope .write).byte, (Op.control .delimit).byte, (Op.control .ret).byte],
        0, ["x"]⟩,
      ⟨"starting",
        #[(Op.loadArgument (.wide .short)).byte, .ofNat 0, (Op.control .resume).byte,
          (Op.loadString .short).byte, .ofNat 0, (Op.scope .read).byte, (Op.control .ret).byte],
        0, []⟩], #["x"], 0⟩]⟩
    functions :=
      ⟨#[⟨⟨0⟩, 0, some ⟨1⟩⟩, ⟨⟨0⟩, 1, none⟩,
        ⟨⟨0⟩, 2, some ⟨1⟩⟩]⟩
    contexts := ⟨#[⟨none, .empty, .empty⟩, ⟨some ⟨0⟩, .empty, .empty⟩]⟩
    coroutines := ⟨#[.new (.function ⟨1⟩) (some ⟨1⟩) .standard]⟩ }

theorem scoped_declaring : declaring.Scoped := by
  have hroot : (Heap.empty.newContext none).2.Scoped := scoped_empty.newContext nofun
  have hchild : ((Heap.empty.newContext none).2.newContext (some ⟨0⟩)).2.Scoped := by
    refine hroot.newContext fun p hp => ?_
    cases hp
    exact Nat.zero_lt_one
  let bare : Heap := { declaring with functions := .empty, coroutines := .empty }
  have hbare : bare.Scoped := hchild.still rfl rfl rfl
  have hheld (p : Ref .context) (hp : some ⟨1⟩ = some p) : declaring.contexts.Holds p := by
    cases hp
    exact Nat.one_lt_two
  have hlooking := hbare.addFunction ⟨⟨0⟩, 0, some ⟨1⟩⟩ hheld
  have hboth := hlooking.addFunction ⟨⟨0⟩, 1, none⟩ nofun
  have hall := hboth.addFunction ⟨⟨0⟩, 2, some ⟨1⟩⟩ hheld
  exact hall.newCoroutine (.function ⟨1⟩) (some ⟨1⟩) .standard hheld

end Heap

/-- A coroutine is started in a context of its own and declares a variable there, before anybody has
looked for it. -/
theorem lookups_transparent_declaring :
    let vm : Vm Unit := { Vm.new .standard () with
      heap := (Heap.declaring.newCoroutine (.new (.function ⟨2⟩) none .standard)).2 }
    Host.bare.Homely ∧ vm.heap.Scoped ∧
    ∃ head, (vm.start 40 ⟨1⟩ [.coroutine ⟨0⟩]).LeadsDiscreetly .bare 0 head ∧
      head.vm.heap.Scoped ∧ head.vm.heap.cell ⟨1⟩ "x" = .int 3 ∧
      (head.vm.heap.ownerOf ⟨2⟩ "x").1 = ⟨1⟩ := by
  intro vm
  have hhost : Host.bare.Homely := nofun
  have hvm : vm.heap.Scoped :=
    Heap.scoped_declaring.newCoroutine (.function ⟨2⟩) none .standard nofun
  let first := vm.start 40 ⟨1⟩ [.coroutine ⟨0⟩]
  let second := (first.next? .bare 0).getD first
  let third := (second.next? .bare 0).getD second
  have hfirst : first.NextAbove .bare 0 second :=
    Vm.Head.nextAbove_of_isSome (by decide +kernel)
  have hsecond : second.NextAbove .bare 0 third :=
    Vm.Head.nextAbove_of_isSome (by decide +kernel)
  have hroot : first.Resumes Heap.Discreet := by
    intro top htop r c _ _ hcontext
    cases htop
    cases hcontext
  have hown : second.Resumes Heap.Discreet := by
    intro top htop r c _ hentry hcontext name hname
    have hactive : second.vm.active = [⟨0⟩, ⟨1⟩] := by decide +kernel
    have hdeclared : (second.vm.heap.prototype ⟨1⟩).declared = ["x"] := by decide +kernel
    have hstarted : (second.vm.heap.coroutine ⟨0⟩).entry = .function ⟨1⟩ := by
      decide +kernel
    rw [hactive] at htop
    cases htop
    cases hstarted.symm.trans hentry
    rw [hdeclared, List.mem_singleton] at hname
    subst hname
    exact Heap.unsought_of_forgotten (by decide +kernel) c
  have hleads : first.LeadsDiscreetly .bare 0 third :=
    .tail (.single ⟨hroot, hfirst⟩) ⟨hown, hsecond⟩
  obtain ⟨hruns, htransparent, -⟩ := lookups_transparent hhost
  have hthird := (((hruns vm hvm).2 40 ⟨1⟩ [.coroutine ⟨0⟩]).1 third hleads).1
  have hheld : third.vm.heap.contexts.size = 3 := by decide +kernel
  have howner := ((htransparent third.vm.heap hthird).owner ⟨2⟩ "x" (by
    rw [Store.Holds, hheld]
    decide)).1
  refine ⟨hhost, hvm, third, hleads, hthird, by decide +kernel,
    howner.trans (by decide +kernel)⟩

/-- The same start comes after somebody has looked for the variable: from then on the nearest owner
is not found any more. -/
theorem nearest_owner_missed :
    let vm : Vm Unit := { Vm.new .standard () with heap := .declaring }
    let result := Request.run .bare 40 (.function ⟨0⟩ [.coroutine ⟨0⟩]) vm
    let h := (Vm.last result).heap
    vm.heap.Scoped ∧ Vm.values? result = some [.nil] ∧ h.contexts.size = 3 ∧
      h.nearestOwner ⟨2⟩ "x" = ⟨1⟩ ∧ h.cell ⟨1⟩ "x" = .int 3 ∧
      (h.ownerOf ⟨2⟩ "x").1 = ⟨0⟩ := by
  intro vm result h
  exact ⟨Heap.scoped_declaring, by decide +kernel⟩

end ScriptVm
