import ScriptVm.Proofs.Arising
import ScriptVm.Proofs.Carrying
import ScriptVm.Proofs.Tracks

/-!
# No reference is dangling

A closure is made of a unit that is there, and none is ever taken off the heap.  So if
all that a host answers refers to closures that are there (`Host.Rooted`), and all that
it hands over, then no closure that is referred to is missing, nor is its unit: between
two errands of the host, when a request comes to its run, at the head of every round,
and between the steps of every resume.

An invariant of single steps that needs this is an invariant of all runs
(`Vm.Keeping`): a coroutine is resumed with values that are there.

Main statements: `Vm.Arises.intact` (between two errands), `Vm.Occurs.admits` (every
resume that occurs) and `Vm.comes_request` (how a request comes to its run).
-/

namespace ScriptVm

variable {σ : Type} {keeps : (Ref .function → Prop) → σ → Prop} {own : Heap → σ → Prop}
  {host : Host σ} {vm : Vm σ}

/-! ### New closures -/

/-- The entry function of a unit is one of its functions. -/
theorem Heap.newFunction_of_entryFunction {h : Heap} {u : Ref .unit}
    {parent : Option (Ref .context)}
    {made : Ref .function × Heap} (hmade : h.entryFunction u parent = .ok made) :
    h.newFunction u (h.unit u).entry parent = .ok made := by
  unfold Heap.entryFunction at hmade
  unfold Heap.newFunction
  dsimp only at hmade
  split at hmade
  · next hentry =>
    cases hmade
    exact if_pos hentry
  · cases hmade

/-- A new closure is there, and so is what was there before. -/
theorem Value.Held.newFunction {h h' : Heap} {u : Ref .unit} {index : Nat}
    {parent : Option (Ref .context)} {r : Ref .function}
    (hmade : h.newFunction u index parent = .ok (r, h')) :
    (Value.function r).Held h' ∧ ∀ v : Value, v.Held h → v.Held h' := by
  unfold Heap.newFunction at hmade
  split at hmade
  · cases hmade
    refine ⟨⟨fun _ hr => ?_, nofun⟩, fun v hv => ⟨fun r hr => ?_, hv.2⟩⟩
    · cases hr
      exact Store.holds_add_iff.mpr (.inr rfl)
    · exact Store.holds_add_iff.mpr (.inl (hv.1 r hr))
  · cases hmade

/-- The units of all closures are there. -/
def Heap.Founded (h : Heap) : Prop :=
  ∀ r, h.functions.Holds r → h.units.Holds (h.function r).unit

namespace Heap.Founded

variable {h h' : Heap}

/-- If closures stay what they are, only the new ones count. -/
theorem of_retains (hh : h.Founded) (hretains : h.Retains h')
    (hnew : ∀ r, h'.functions.Holds r → h.functions.Holds r ∨
      h'.units.Holds (h'.function r).unit) :
    h'.Founded := by
  intro r hr
  rcases hnew r hr with hold | hunit
  · rw [(hretains.functions r hold).2.1, hretains.units]
    exact hh r hold
  · exact hunit

theorem of_eq (hh : h.Founded) (hunits : h'.units = h.units)
    (hfunctions : h'.functions = h.functions) : h'.Founded :=
  hh.of_retains (.of_eq hunits hfunctions) fun _ hr => .inl (hfunctions ▸ hr)

/-- A closure is made of a unit that is there. -/
theorem newFunction (hh : h.Founded) {u : Ref .unit} {index : Nat} {parent : Option (Ref .context)}
    {r : Ref .function} (hmade : h.newFunction u index parent = .ok (r, h')) : h'.Founded := by
  have hunit : h.units.Holds u := by
    unfold Heap.newFunction at hmade
    split at hmade
    · next hindex => exact holds_unit hindex
    · cases hmade
  obtain rfl := h.newFunction_eq hmade
  refine hh.of_retains (.add h _) fun q hq => ?_
  rcases Store.holds_add_iff.mp hq with hold | rfl
  · exact .inl hold
  · right
    show h.units.Holds ((h.functions.add ⟨u, index, parent⟩).2.get
      (h.functions.add ⟨u, index, parent⟩).1).unit
    rw [h.functions.get_add_self]
    exact hunit

/-- A closure that is bound to a context is of the unit it was of. -/
theorem bind (hh : h.Founded) (r : Ref .function) (c : Ref .context) : (h.bind r c).Founded := by
  refine hh.of_retains (Heap.Move.bind h r c).retains fun q hq => .inl ?_
  simpa [Heap.bind, Heap.modifyFunction, Store.Holds] using hq

theorem newUnit (hh : h.Founded) (u : CodeUnit) : (h.newUnit u).2.Founded :=
  fun r hr => Store.holds_add_iff.mpr (.inl (hh r hr))

theorem move (hh : h.Founded) (move : h.Move h') : h'.Founded := by
  cases move with
  | function made => exact hh.newFunction made
  | bind r c => exact hh.bind r c
  | declare c names =>
    rw [h.declareVariables_eq]
    exact hh.of_eq rfl rfl
  | read c name =>
    rw [h.readVariable_eq]
    exact hh.of_eq rfl rfl
  | write c name value =>
    rw [h.writeVariable_eq]
    exact hh.of_eq rfl rfl
  | _ => exact hh.of_eq rfl rfl

theorem moves (hh : h.Founded) (moves : h.Moves h') : h'.Founded := by
  induction moves with
  | refl => exact hh
  | tail _ move ih => exact ih.move move

/-- All closures that are there are as they have to be. -/
theorem there (hh : h.Founded) : h.There = h.functions.Holds :=
  funext fun r => propext ⟨fun hr => hr.1, fun hr => ⟨hr, hh r hr, fun _ _ => trivial⟩⟩

end Heap.Founded

/-! ### Heaps, machines and schedulers -/

/-- **All that the host answers refers to closures that are there**, if all that it is shown does.
Its own state may refer to closures; `keeps` tells which states refer to no closures but those
given. -/
abbrev Host.Rooted (host : Host σ) (keeps : (Ref .function → Prop) → σ → Prop) : Prop :=
  host.Honest (fun _ => True) keeps

/-- The states of a host that refer to no closures but those that are there. -/
def Host.Owned (keeps : (Ref .function → Prop) → σ → Prop) (h : Heap) : σ → Prop :=
  keeps h.functions.Holds

/-- **A heap without dangling references**: all closures it refers to are there, and the units of
all closures. -/
structure Heap.Intact (h : Heap) : Prop extends h.Among h.functions.Holds where
  founded : h.Founded

/-- A machine without dangling references. -/
structure Machine.Intact (keeps : (Ref .function → Prop) → σ → Prop) (M : Machine σ) :
    Prop where
  whole : M.Whole (fun _ => True) keeps M.heap.functions.Holds
  founded : M.heap.Founded

theorem Machine.Closed.intact {M : Machine σ} (hM : M.Closed (fun _ => True) keeps)
    (founded : M.heap.Founded) : M.Intact keeps :=
  ⟨founded.there ▸ hM, founded⟩

/-- A scheduler without dangling references. -/
structure Vm.Intact (keeps : (Ref .function → Prop) → σ → Prop) (vm : Vm σ) : Prop where
  heap : vm.heap.Intact
  state : Host.Owned keeps vm.heap vm.state

namespace Machine.Intact

variable {M : Machine σ}

theorem heap (hM : M.Intact keeps) : M.heap.Intact :=
  ⟨hM.whole.heap.toAmong, hM.founded⟩

/-- The closures that have frames are there. -/
theorem holds (hM : M.Intact keeps) {f : Frame} (hf : f ∈ M.memory.frames.toList)
    {r : Ref .function} {context : Ref .context} (hactivity : f.activity = .bytecode r context) :
    M.heap.functions.Holds r := by
  have hamong := hM.whole.memory.frames f hf
  unfold Frame.Among at hamong
  rwa [hactivity] at hamong

/-- **A step**, and the values that leave the coroutine with it. -/
theorem step (rooted : host.Rooted keeps) (hM : M.Intact keeps) :
    (Exec.last (Exec.step host M)).Intact keeps ∧
    ∀ e N, Exec.step host M = .ok (some e) N →
      Value.AllAmong N.heap.functions.Holds e.values := by
  obtain ⟨hclosed, hexits⟩ := Exec.step_closed rooted hM.whole.closed
  have hfounded : (Exec.last (Exec.step host M)).heap.Founded :=
    hM.founded.moves (Exec.step_heap host M)
  refine ⟨hclosed.intact hfounded, fun e N h => ?_⟩
  have hN : N.heap.Founded := by
    rw [h] at hfounded
    exact hfounded
  rw [← hN.there]
  exact Exit.among_iff.mp (hexits e N h)

end Machine.Intact

/-! ### Resumes -/

namespace Vm

/-- **A coroutine may be resumed with some values**: all of them are there, and so is all that the
scheduler refers to. -/
structure Admits (keeps : (Ref .function → Prop) → σ → Prop) (vm : Vm σ)
    (args : List Value) : Prop extends vm.Intact keeps where
  values : Value.AllAmong vm.heap.functions.Holds args

/-- The machine after the opening of a resume. -/
theorem Admits.begin (rooted : host.Rooted keeps) {args : List Value}
    (admits : vm.Admits keeps args)
    (r : Ref .coroutine) : (Exec.last (Coroutine.begin host vm r args)).Intact keeps := by
  have hopened :=
    Coroutine.tame_opening host (vm.heap.coroutine r).state (vm.heap.coroutine r).entry
    (vm.heap.coroutine r).entryContext args (Coroutine.checkOut r vm.heap vm.state) False.elim
  have hfounded : (Exec.last (Coroutine.begin host vm r args)).heap.Founded :=
    (admits.heap.founded.of_eq rfl rfl : (Coroutine.checkOut r vm.heap vm.state).heap.Founded).moves
      hopened.heap
  have hwhole : vm.heap.Whole (fun _ => True) vm.heap.functions.Holds :=
    ⟨admits.heap.toAmong, admits.heap.founded.there⟩
  exact (Coroutine.begin_whole rooted hwhole admits.state r admits.values).closed.intact hfounded

/-- **What is there stays there**, as something that runs carry on. -/
def rooted (rooted : host.Rooted keeps) : Carrying host where
  holds h s := h.Intact ∧ Host.Owned keeps h s
  running M := M.Intact keeps
  carries h vs := Value.AllAmong h.functions.Holds vs
  spares _ := True
  begin r hvm hargs :=
    ⟨Admits.begin rooted ⟨⟨hvm.1, hvm.2⟩, hargs⟩ r, fun _ _ _ => trivial,
      fun _ _ _ => trivial⟩
  step hM :=
    ⟨(hM.step rooted).1, fun _ N h e he => (hM.step rooted).2 e N (he ▸ h),
      fun _ _ _ => trivial⟩
  stop {M} r state memory hstate hM hmemory := by
    refine ⟨⟨?_, hM.founded.of_eq rfl rfl⟩, hM.whole.state⟩
    refine hM.heap.toAmong.modifyCoroutine r ⟨fun h => absurd h hstate, ?_⟩
    rcases hmemory with rfl | rfl
    · exact hM.whole.memory
    · exact .clear _
  ready {h s} r hh := by
    refine ⟨⟨hh.1.toAmong.modifyCoroutine r ⟨fun hnew => ?_, (hh.1.coroutines r).memory⟩,
      hh.1.founded.of_eq rfl rfl⟩, hh.2⟩
    exact (hh.1.coroutines r).entry (Coroutine.eq_initial_of_resumable hnew)
  stays _ _ hvs := hvs

end Vm

/-! ### What a host does to a heap -/

/-- Values that a host hands over. -/
theorem Value.allAmong_of_held {h : Heap} {vs : List Value} (held : ∀ v ∈ vs, v.Held h) :
    Value.AllAmong h.functions.Holds vs :=
  fun v hv => (held v hv).1

/-- The heap changes, but for the units and the closures. -/
theorem Heap.Intact.of_eq {h g : Heap} (hh : h.Intact) (hamong : g.Among h.functions.Holds)
    (hunits : g.units = h.units) (hfunctions : g.functions = h.functions) :
    g.Intact ∧ ∀ r, h.functions.Holds r → g.functions.Holds r := by
  have hsame (r : Ref .function) : h.functions.Holds r → g.functions.Holds r :=
    fun hr => hfunctions ▸ hr
  exact ⟨⟨hamong.mono hsame, hh.founded.of_eq hunits hfunctions⟩, hsame⟩

/-- **What a host does to a heap** leaves no reference dangling, and takes no closure away. -/
theorem Deed.intact {sizes : Sizes} {d : Deed} {h g : Heap} {reply : Reply} (hh : h.Intact)
    (held : d.Held h) (hd : d.apply sizes h = .ok (reply, g)) :
    g.Intact ∧ ∀ r, h.functions.Holds r → g.functions.Holds r := by
  cases d with
  | load u =>
    cases hd
    exact ⟨⟨hh.toAmong.congr rfl rfl rfl rfl, hh.founded.newUnit u⟩, fun _ hr => hr⟩
  | newFunction u index parent =>
    rw [apply] at hd
    cases hmade : h.newFunction u index parent with
    | error e =>
      rw [hmade] at hd
      cases hd
    | ok made =>
      rw [hmade] at hd
      cases hd
      obtain ⟨r, h'⟩ := made
      have hfounded := hh.founded.newFunction hmade
      obtain rfl := h.newFunction_eq hmade
      have hstays (q : Ref .function) (hq : h.functions.Holds q) :
          (h.functions.add ⟨u, index, parent⟩).2.Holds q := Store.holds_add_iff.mpr (.inl hq)
      exact ⟨⟨(hh.toAmong.mono hstays).congr rfl rfl rfl rfl, hfounded⟩, hstays⟩
  | newCoroutine entry context config =>
    rw [apply] at hd
    rcases Coroutine.make_cases sizes entry context config with hmade | ⟨e, hmade, -⟩
    · rw [hmade] at hd
      cases hd
      exact hh.of_eq (hh.toAmong.newCoroutine ⟨fun _ => held.1, .new config⟩) rfl rfl
    · rw [hmade] at hd
      cases hd
  | newContext parent =>
    cases hd
    exact hh.of_eq (hh.toAmong.newContext parent) rfl rfl
  | newTable =>
    cases hd
    exact hh.of_eq hh.toAmong.newTable rfl rfl
  | newVector vs =>
    cases hd
    exact hh.of_eq (hh.toAmong.newVector (Value.allAmong_of_held held)) rfl rfl
  | bind r c =>
    cases hd
    have hstays (q : Ref .function) (hq : h.functions.Holds q) :
        (h.bind r c).functions.Holds q := by
      simpa [Heap.bind, Heap.modifyFunction, Store.Holds] using hq
    exact ⟨⟨(hh.toAmong.bind r c).mono hstays, hh.founded.bind r c⟩, hstays⟩
  | setMetatable t metatable =>
    cases hd
    exact hh.of_eq (hh.toAmong.modifyTable t fun _ ht => ht) rfl rfl
  | store t key value =>
    cases hd
    exact hh.of_eq (hh.toAmong.writeEntry t held.1.1 held.2.1) rfl rfl
  | fill r vs =>
    cases hd
    refine hh.of_eq (hh.toAmong.modifyVector r fun _ _ => ?_) rfl rfl
    simpa using Value.allAmong_of_held held
  | create c name value =>
    cases hd
    exact hh.of_eq (hh.toAmong.createVariable c name held.1) rfl rfl
  | write c name value =>
    cases hd
    refine hh.of_eq (hh.toAmong.writeVariable c name held.1) ?_ ?_ <;> rw [h.writeVariable_eq]
  | read c name =>
    cases hd
    refine hh.of_eq (hh.toAmong.readVariable c name).2 ?_ ?_ <;> rw [h.readVariable_eq]
  | ready r =>
    cases hd
    refine hh.of_eq
      (hh.toAmong.modifyCoroutine r ⟨fun hnew => ?_, (hh.coroutines r).memory⟩) rfl rfl
    exact (hh.coroutines r).entry (Coroutine.eq_initial_of_resumable hnew)
  | look t key =>
    cases hd
    exact ⟨hh, fun _ hr => hr⟩
  | items r =>
    cases hd
    exact ⟨hh, fun _ hr => hr⟩

namespace Vm

/-- **What is kept by all that a host does to the heap**, with values that are there. -/
def Bears (host : Host σ) (P : Vm σ → Prop) : Prop :=
  ∀ {vm : Vm σ} {d : Deed} {reply : Reply} {h : Heap}, P vm → d.Held vm.heap →
    d.apply host.sizes vm.heap = .ok (reply, h) → P { vm with heap := h }

theorem bears_intact (rooted : host.Rooted keeps) : Bears host (Intact keeps) := by
  intro vm d reply h hvm held hd
  obtain ⟨hheap, hstays⟩ := Deed.intact hvm.heap held hd
  exact ⟨hheap, rooted.mono hstays hvm.state⟩

theorem bears_arises : Bears host (·.Arises host own) :=
  fun arises held hd => arises.deed held hd

/-! ### Requests -/

/-- How a request comes to its run: something is known of the scheduler with the new coroutine as
well, if the request is not refused. -/
inductive Comes (host : Host σ) (P : Vm σ → Prop) (fuel : Nat) (opened : Vm σ)
    (context : Option (Ref .context)) : EStateM.Result Failure (Vm σ) (List Value) → Prop
  | refused {e : Failure} (known : P opened) (untraced : ∀ f trace, e = .runtime f trace →
      trace = []) :
      Comes host P fuel opened context (.error e opened)
  | runs {entry : Value} {args : List Value}
      (known : P { opened with
        heap := (opened.heap.newCoroutine (.new entry context opened.config)).2 })
      (held :
        (Errand.resume (opened.heap.newCoroutine (.new entry context opened.config)).1 args).Held
        (opened.heap.newCoroutine (.new entry context opened.config)).2) :
      Comes host P fuel opened context (execute host fuel
        (opened.heap.newCoroutine (.new entry context opened.config)).1 args
        { opened with heap := (opened.heap.newCoroutine (.new entry context opened.config)).2 })

section

variable {P : Vm σ → Prop} (bears : Bears host P)
include bears

/-- A new coroutine is made for a request. -/
theorem comes_executeNew (known : P vm) {entry : Value} (held : entry.Held vm.heap)
    (context : Option (Ref .context)) {args : List Value} (given : ∀ v ∈ args, v.Held vm.heap)
    (fuel : Nat) : Comes host P fuel vm context (executeNew host fuel entry context args vm) := by
  rcases Coroutine.make_cases host.sizes entry context vm.config with hmake | ⟨d, hmake, -⟩
  · have hrun : executeNew host fuel entry context args vm
        = execute host fuel (vm.heap.newCoroutine (.new entry context vm.config)).1 args
          { vm with heap := (vm.heap.newCoroutine (.new entry context vm.config)).2 } := by
      simp only [executeNew, bind_apply, get_apply, hmake]
      rfl
    rw [hrun]
    have hdeed : (Deed.newCoroutine entry context vm.config).apply host.sizes vm.heap
        = .ok (.values [.coroutine (vm.heap.newCoroutine (.new entry context vm.config)).1],
          (vm.heap.newCoroutine (.new entry context vm.config)).2) := by
      rw [Deed.apply, hmake]
      rfl
    refine .runs (bears (d := .newCoroutine entry context vm.config) known held hdeed)
      ⟨Store.holds_add_iff.mpr (.inr rfl), fun v hv => ?_⟩
    exact ⟨(given v hv).1, fun r hr => Store.holds_add_iff.mpr (.inl ((given v hv).2 r hr))⟩
  · have hrun : executeNew host fuel entry context args vm = .error (.defect d) vm := by
      simp only [executeNew, bind_apply, get_apply, hmake]
      rfl
    rw [hrun]
    exact .refused known fun _ _ h => by cases h

/-- **How a request comes to its run.** -/
theorem comes_request (known : P vm) {q : Request} (held : (Errand.request q).Held vm.heap)
    (fuel : Nat) :
    Comes host P fuel { vm with heap := q.opened vm.heap } q.context? (q.run host fuel vm) := by
  cases q with
  | function r args =>
    have hr : (Value.function r).Held vm.heap := ⟨fun _ h => by cases h; exact held.1, nofun⟩
    exact comes_executeNew bears known hr none held.2 fuel
  | functionIn r context args =>
    have hr : (Value.function r).Held vm.heap := ⟨fun _ h => by cases h; exact held.1, nofun⟩
    exact comes_executeNew bears known hr (some context) held.2 fuel
  | call callee args =>
    show Comes host P fuel vm none (Vm.call host fuel callee args vm)
    unfold Vm.call
    split
    · exact comes_executeNew bears known held.1 none held.2 fuel
    · exact .refused known fun f trace h => by cases h; rfl
  | unit u args context =>
    have hentry (c : Ref .context) {vm : Vm σ} (known : P vm) (given : ∀ v ∈ args,
      v.Held vm.heap) :
        Comes host P fuel { vm with heap := (Request.unit u args (some c)).opened vm.heap } none
          (executeUnit host fuel u args (some c) vm) := by
      simp only [executeUnit, pure_bind, bind_apply, get_apply]
      unfold Request.opened
      cases hfound : vm.heap.entryFunction u (some c) with
      | error e =>
        simp only [hfound]
        exact .refused known fun _ _ h => by cases h
      | ok found =>
        obtain ⟨r, h⟩ := found
        have hmade := Heap.newFunction_of_entryFunction hfound
        have hdeed : (Deed.newFunction u (vm.heap.unit u).entry (some c)).apply host.sizes vm.heap
            = .ok (.values [.function r], h) := by
          rw [Deed.apply, hmade]
          rfl
        obtain ⟨hnew, hold⟩ := Value.Held.newFunction hmade
        simp only [hfound]
        have hknown :=
          bears (d := .newFunction u (vm.heap.unit u).entry (some c)) known trivial hdeed
        exact comes_executeNew bears hknown hnew none (fun v hv => hold v (given v hv)) fuel
    cases context with
    | some c => exact hentry c known held
    | none =>
      have hnew : (Deed.newContext none).apply host.sizes vm.heap
          = .ok (.context (vm.heap.newContext none).1, (vm.heap.newContext none).2) := rfl
      exact hentry (vm.heap.newContext none).1
        (bears (d := .newContext none) known trivial hnew) held

end

/-! ### What a host brings about -/

/-- A whole run. -/
theorem Intact.execute (rooted : host.Rooted keeps) (hvm : vm.Intact keeps) (fuel : Nat)
    (root : Ref .coroutine) {args : List Value}
    (hargs : Value.AllAmong vm.heap.functions.Holds args) :
    (last (Vm.execute host fuel root args vm)).Intact keeps := by
  have hends := (Vm.rooted rooted).execute ⟨hvm.heap, hvm.state⟩ hargs fuel root
  exact ⟨hends.holds.1, hends.holds.2⟩

/-- **Between two errands** no reference is dangling. -/
theorem Arises.intact (rooted : host.Rooted keeps) (h : vm.Arises host (Host.Owned keeps)) :
    vm.Intact keeps := by
  induction h with
  | new config hown => exact ⟨⟨.empty, fun _ hr => absurd hr (Nat.not_lt_zero _)⟩, hown⟩
  | settle _ hown ih => exact ⟨ih.heap, hown⟩
  | @errand vm before e held fuel _ ih =>
    cases e with
    | deed d =>
      simp only [Errand.run, bind_apply, get_apply]
      cases hd : d.apply host.sizes vm.heap with
      | error e => exact ih
      | ok made => exact bears_intact rooted ih held hd
    | request q =>
      have hran : Intact keeps (last (q.run host fuel vm)) := by
        have hcomes := comes_request (bears_intact rooted) ih held fuel
        generalize q.run host fuel vm = result at hcomes
        cases hcomes with
        | refused known _ => exact known
        | runs known held => exact known.execute rooted fuel _ (Value.allAmong_of_held held.2)
      rw [Errand.run, bind_apply]
      generalize q.run host fuel vm = result at hran
      cases result <;> exact hran
    | resume r args =>
      have hends :=
        (Vm.rooted rooted).resume ⟨ih.heap, ih.state⟩ (Value.allAmong_of_held held.2) fuel r
      rw [Errand.run, bind_apply]
      generalize Coroutine.resume host fuel r args vm = result at hends
      cases result <;> exact ⟨hends.holds.1, hends.holds.2⟩

/-- **The resumes that occur**: those that a host has for itself, and those of the rounds of a run
that it starts. -/
inductive Occurs (host : Host σ) (own : Heap → σ → Prop) : Vm σ → Ref .coroutine →
    List Value → Prop
  | own {vm : Vm σ} {r : Ref .coroutine} {args : List Value} (arises : vm.Arises host own)
      (held : (Errand.resume r args).Held vm.heap) : Occurs host own vm r args
  | round {vm : Vm σ} {root top : Ref .coroutine} {args : List Value} {fuel : Nat} {head : Head σ}
      (arises : vm.Arises host own) (held : (Errand.resume root args).Held vm.heap)
      (leads : (vm.start fuel root args).LeadsAbove host vm.active.length head)
      (active : head.vm.active.head? = some top) : Occurs host own head.vm top head.values

/-- **Every resume that occurs.** -/
theorem Occurs.admits (rooted : host.Rooted keeps) {r : Ref .coroutine} {args : List Value}
    (occurs : Occurs host (Host.Owned keeps) vm r args) : vm.Admits keeps args := by
  cases occurs with
  | own arises held => exact ⟨arises.intact rooted, Value.allAmong_of_held held.2⟩
  | @round vm root _ args fuel _ arises held leads _ =>
    have hvm := arises.intact rooted
    have hstart : (Vm.rooted rooted).holds (vm.start fuel root args).vm.heap
        (vm.start fuel root args).vm.state := ⟨hvm.heap, hvm.state⟩
    obtain ⟨hhead, hvalues⟩ :=
      (Vm.rooted rooted).leads leads hstart (Value.allAmong_of_held held.2)
    exact ⟨⟨hhead.1, hhead.2⟩, hvalues⟩

end Vm

end ScriptVm
