import ScriptVm.Proofs.Evaluation
import ScriptVm.Proofs.Tower
import ScriptVm.Scheduler

/-!
# No bytecode breaks the machine

A defect is a mistake of the machine: a slot is asked for that does not exist, a
length would be negative, a closure is made over a prototype that is not there.
Whatever the units of a heap hold, none of these occurs, unless a size exceeds
the limits.

The reason is an invariant.  The stacks of every coroutine are **sound**: they are
a tower of activations over some values.  New coroutines are sound, and every
step keeps the stacks sound on which it runs and all others as they are.

Main statements: `Machine.Sound.step` (one step), `Machine.Sound.run` (a run),
`Vm.Reachable.sound` (every state of a scheduler), `never_defect`.
-/

namespace ScriptVm

variable {σ α β : Type}

/-! ### Sound stacks -/

/-- Stacks that are a tower of activations over some values. -/
def Layer.Sound (c : Layer) : Prop :=
  ∃ ground fs, Layer.Tower ground fs c

theorem Layer.Sound.bare (vs : List Value) : (Layer.bare vs).Sound :=
  ⟨vs, [], .ground⟩

/-- Sound stacks may get more values. -/
theorem Layer.Sound.pushed {c : Layer} (h : c.Sound) (vs : List Value) :
    (c.pile (.bare vs)).Sound := by
  obtain ⟨ground, fs, tower⟩ := h
  cases fs with
  | nil =>
    rw [tower.eq_bare, Layer.pile_bare]
    exact .bare (ground ++ vs)
  | cons f fs => exact ⟨ground, f :: fs, tower.pushed (by simp) vs⟩

/-- A call on sound stacks leaves them sound. -/
theorem Layer.Sound.invoked {p c : Layer} (h : p.Sound) {returnSize : Option Nat}
    (hc : Invoked returnSize c) : (p.pile c).Sound := by
  cases hc with
  | done results => exact h.pushed _
  | entered activation =>
    obtain ⟨ground, fs, tower⟩ := h
    obtain ⟨f, -, hf⟩ := activation
    exact ⟨ground, f :: fs, .call tower hf⟩

@[simp] theorem Stacks.view_new (config : Config) : (Stacks.new config).view = .bare [] := by
  simp [Stacks.view, Stacks.new, Layer.bare]

@[simp] theorem Stacks.view_clear (s : Stacks) : s.clear.view = .bare [] := by
  simp [Stacks.view, Stacks.clear, Layer.bare]

namespace Heap

/-- All coroutines are of some sort. -/
def Every (P : Coroutine → Prop) (h : Heap) : Prop :=
  ∀ c ∈ h.coroutines.cells.toList, P c

namespace Every

variable {P : Coroutine → Prop} {h h' : Heap}

theorem coroutine (hs : h.Every P) (hdefault : P default) (r : Ref .coroutine) :
    P (h.coroutine r) := by
  simp only [Heap.coroutine, Store.get, Array.getD]
  split
  · exact hs _ (by simp)
  · exact hdefault

/-- Coroutines that are new have not been resumed. -/
theorem grows (hs : h.Every P) (hgrows : h.Grows h')
    (hmake : ∀ entry config, P (.new entry none config)) : h'.Every P := by
  obtain ⟨made, hcells, hmade⟩ := hgrows
  intro c hc
  rw [hcells] at hc
  rcases List.mem_append.mp hc with hc | hc
  · exact hs c hc
  · obtain ⟨entry, config, hnew⟩ := hmade c hc
    exact hnew ▸ hmake entry config

/-- A coroutine has been made. -/
theorem make (hs : h.Every P) {c : Coroutine} (hc : P c) : (h.newCoroutine c).2.Every P := by
  have hcells : (h.newCoroutine c).2.coroutines.cells.toList
    = h.coroutines.cells.toList ++ [c] := by
    simp [Heap.newCoroutine, Store.add]
  intro q hq
  rw [hcells] at hq
  rcases List.mem_append.mp hq with hold | hnew
  · exact hs q hold
  · rwa [List.mem_singleton.mp hnew]

/-- A change of one coroutine. -/
theorem modify (hs : h.Every P) (r : Ref .coroutine) {φ : Coroutine → Coroutine}
    (hφ : ∀ c, P c → P (φ c)) : (h.modifyCoroutine r φ).Every P := by
  intro c hc
  obtain ⟨i, hi⟩ := List.mem_iff_getElem?.mp hc
  simp only [modifyCoroutine, Store.modify, Array.getElem?_toList, Array.getElem?_modify] at hi
  split at hi
  · obtain ⟨c', hc', hmap⟩ := Option.map_eq_some_iff.mp hi
    rw [← hmap]
    exact hφ c' (hs c' (by simpa using Array.mem_of_getElem? hc'))
  · exact hs c (by simpa using Array.mem_of_getElem? hi)

end Every

/-- The stacks of every coroutine are sound. -/
def Sound (h : Heap) : Prop :=
  ∀ c ∈ h.coroutines.cells.toList, c.memory.view.Sound

namespace Sound

variable {h h' : Heap}

theorem coroutine (hs : h.Sound) (r : Ref .coroutine) : (h.coroutine r).memory.view.Sound :=
  Every.coroutine (P := fun c => c.memory.view.Sound) hs (Layer.Sound.bare []) r

/-- Coroutines that are new are sound. -/
theorem grows (hs : h.Sound) (hgrows : h.Grows h') : h'.Sound :=
  Every.grows (P := fun c => c.memory.view.Sound) hs hgrows fun entry config => by
    simpa [Coroutine.new] using Layer.Sound.bare []

/-- A change of one coroutine. -/
theorem modify (hs : h.Sound) (r : Ref .coroutine) {φ : Coroutine → Coroutine}
    (hφ : ∀ c, c.memory.view.Sound → (φ c).memory.view.Sound) :
    (h.modifyCoroutine r φ).Sound :=
  Every.modify (P := fun c => c.memory.view.Sound) hs r hφ

end Sound

end Heap

/-! ### Steps and runs -/

namespace Machine

/-- The stacks of the running coroutine are sound. -/
def Sound (M : Machine σ) : Prop :=
  M.memory.view.Sound

/-- How a computation may end that began with the heap `start`: the stacks are sound, or there was a
fault, or the limits of sizes were reached.  The other coroutines are as they were. -/
inductive Keeps (sizes : Sizes) (start : Heap) : EStateM.Result Stop (Machine σ) α → Prop
  | ok {a : α} {M : Machine σ} (grows : start.Grows M.heap) (sound : M.Sound) :
      Keeps sizes start (.ok a M)
  | fault {f : Fault} {M : Machine σ} (grows : start.Grows M.heap) :
      Keeps sizes start (.error (.fault f) M)
  | limit {d : Defect} {M : Machine σ} (limit : sizes.Refuses d) :
      Keeps sizes start (.error (.defect d) M)
  | exhausted {M : Machine σ} (grows : start.Grows M.heap) (sound : M.Sound) :
      Keeps sizes start (.error .exhausted M)

theorem Keeps.trans {sizes : Sizes} {h h' : Heap} {r : EStateM.Result Stop (Machine σ) α}
    (hr : Keeps sizes h' r) (hgrows : h.Grows h') : Keeps sizes h r := by
  cases hr with
  | ok grows sound => exact .ok (hgrows.trans grows) sound
  | fault grows => exact .fault (hgrows.trans grows)
  | limit limit => exact .limit limit
  | exhausted grows sound => exact .exhausted (hgrows.trans grows) sound

theorem Keeps.bind {sizes : Sizes} {start : Heap} {x : Exec σ α} {f : α → Exec σ β}
    {M : Machine σ} (hx : Keeps sizes start (x M))
    (hf : ∀ a N, N.Sound → Keeps sizes N.heap (f a N)) : Keeps sizes start ((x >>= f) M) := by
  rw [Exec.bind_apply]
  generalize x M = r at hx
  cases hx with
  | ok grows sound => exact (hf _ _ sound).trans grows
  | fault grows => exact .fault grows
  | limit limit => exact .limit limit
  | exhausted grows sound => exact .exhausted grows sound

/-- A computation on part of the stacks keeps them sound if it leaves a sound whole. -/
theorem Keeps.of_fares {sizes : Sizes} {p : Layer} {start : Heap} {post : α → Layer → Prop}
    {r : EStateM.Result Stop (Machine σ) α} (h : Fares p sizes start post r)
    (hpost : ∀ a c, post a c → (p.pile c).Sound) : Keeps sizes start r := by
  cases h with
  | ok on grows result =>
    refine .ok grows ?_
    rw [Sound, on]
    exact hpost _ _ result
  | fault grows => exact .fault grows
  | limit limit => exact .limit limit

variable {host : Host σ} (hsyscall : ∀ i, host.syscall i = none)

/-- A coroutine without frames hands out its values. -/
theorem step_ground {M : Machine σ} {ground : List Value} (h : M.memory.view = .bare ground) :
    Exec.step host M
      = .ok (some (.finished ground)) (M.onValues fun values => values.truncate 0) := by
  have hframes : M.memory.frames.last? = none := by
    rw [Stack.last?_eq_getLast?, show M.memory.frames.toList = [] from congrArg Layer.frames h]
    rfl
  have hvalues : M.memory.values.toList = ground := congrArg Layer.values h
  simp [Exec.step, Exec.takeFrom, Exec.bind_apply, Exec.map_apply, hframes, Stack.valuesFrom_eq,
    Exec.ofDefect, hvalues]

include hsyscall

/-- **A step** on sound stacks leaves them sound, or is a fault. -/
theorem Sound.step {M : Machine σ} (hM : M.Sound) :
    Fares (.bare []) host.sizes M.heap (fun _ => Layer.Sound) (Exec.step host M) := by
  obtain ⟨ground, fs, tower⟩ := hM
  cases fs with
  | nil =>
    have hview : (M.onValues fun values => values.truncate 0).memory.view = .bare [] := by
      rw [view_onValues, tower.eq_bare]
      simp [Layer.bare]
    rw [step_ground tower.eq_bare]
    exact .ok (hview.trans (Layer.bare_nil_pile _).symm) (.refl _) (.bare [])
  | cons f fs =>
    have on : M.On (.bare []) M.memory.view := (Layer.bare_nil_pile _).symm
    have h := step_spec hsyscall on tower
    generalize Exec.step host M = result at h
    cases h with
    | goes _ _ alike grows tower' => exact .ok alike.left grows ⟨_, _, tower'⟩
    | calls _ _ alike grows tower' => exact .ok alike.left grows ⟨_, _, tower'⟩
    | exits _ _ alike grows tower' => exact .ok alike.left grows ⟨_, _, tower'⟩
    | returns _ _ alike grows tower' => exact .ok alike.left grows (.pushed ⟨_, _, tower'⟩ _)
    | fault _ grows => exact .fault grows
    | limitLeft limit => exact .limit limit
    | limitRight limit => exact .limit limit

/-- **A run** of any length on sound stacks leaves them sound, or ends with a fault. -/
theorem Sound.run (fuel : Nat) {M : Machine σ} (hM : M.Sound) :
    Keeps host.sizes M.heap (Exec.run host fuel M) := by
  induction fuel generalizing M with
  | zero => exact .exhausted (.refl _) hM
  | succ fuel ih =>
    have hstep : Keeps host.sizes M.heap (Exec.step host M) :=
      .of_fares (hM.step hsyscall) fun _ c hc => by rwa [Layer.bare_nil_pile]
    refine hstep.bind fun exit N hN => ?_
    cases exit with
    | some e => exact .ok (.refl _) hN
    | none => exact ih hN

omit hsyscall in
/-- A machine with more values. -/
theorem Sound.pushAll {M : Machine σ} (hM : M.Sound) (vs : List Value) :
    (M.onValues fun values => values.pushAll vs).Sound := by
  rw [Sound, view_pushAll]
  exact Layer.Sound.pushed hM vs

/-- A coroutine is started on any stacks. -/
theorem start_fares (M : Machine σ) (entry : Value) (context : Option (Ref .context))
    (args : List Value) :
    Fares M.memory.view host.sizes M.heap (fun _ => Invoked none)
      (Coroutine.start host entry context args M) := by
  have suits := Host.Suits.single hsyscall M.memory.view
  let N : Machine σ := M.onValues fun values => values.pushAll args
  have on : N.On M.memory.view (.bare args) := view_pushAll M args
  have hbase : M.memory.values.size = M.memory.view.values.length := Stack.size_eq_length _
  have hinvoke : Fares M.memory.view host.sizes M.heap (fun _ => Invoked none)
      (Exec.invoke host entry M.memory.values.size none N) := by
    rw [hbase]
    exact Steady.fares (Lockstep.invoke suits entry args none) on rfl
  have henter (r : Ref .function) (c : Ref .context) :
      Fares M.memory.view host.sizes M.heap (fun _ => Invoked none)
        (Exec.enter host r M.memory.values.size none (some c) N) := by
    rw [hbase]
    exact (Steady.fares (Lockstep.enter suits r args none (some c)) on rfl).mono fun _ _ hc =>
      .entered hc
  cases context with
  | none => cases entry <;> exact hinvoke
  | some c =>
    cases entry with
    | function r => exact henter r c
    | _ => exact hinvoke

/-- A coroutine is started on sound stacks. -/
theorem Sound.start {M : Machine σ} (hM : M.Sound) (entry : Value)
    (context : Option (Ref .context)) (args : List Value) :
    Keeps host.sizes M.heap (Coroutine.start host entry context args M) :=
  .of_fares (start_fares hsyscall M entry context args) fun _ _ hc => Layer.Sound.invoked hM hc

/-- A coroutine that is resumed on sound stacks. -/
theorem Sound.body {M : Machine σ} (hM : M.Sound) (fuel : Nat) (state : Lifecycle) (entry : Value)
    (context : Option (Ref .context)) (args : List Value) :
    Keeps host.sizes M.heap (Coroutine.body host fuel state entry context args M) := by
  unfold Coroutine.body
  split
  · exact (hM.start hsyscall entry context args).bind fun _ N hN => hN.run hsyscall fuel
  · exact Sound.run hsyscall fuel (hM.pushAll args)

end Machine

/-! ### The scheduler -/

/-- While a coroutine is out for a run, all others are sound. -/
theorem Heap.Sound.checkOut {h : Heap} (hs : h.Sound) (r : Ref .coroutine) (state : σ) :
    (Coroutine.checkOut r h state).heap.Sound := by
  refine hs.modify r fun c _ => ?_
  simpa [Coroutine.checkedOut] using Layer.Sound.bare []

theorem Heap.Sound.checkIn {h : Heap} (hs : h.Sound) (r : Ref .coroutine) (state : Lifecycle)
    {memory : Stacks} (hmemory : memory.view.Sound) :
    (Coroutine.checkIn r state memory h).Sound :=
  hs.modify r fun _ _ => hmemory

/-- All coroutines but one are as they were. -/
def Heap.SameBut (h : Heap) (r : Ref .coroutine) (h' : Heap) : Prop :=
  ∀ r', r' ≠ r → h.coroutines.Holds r' → h'.coroutine r' = h.coroutine r'

/-- A coroutine that was out for a run and is back. -/
theorem Heap.SameBut.resumed {h h' : Heap} {r : Ref .coroutine} {state : σ} {after : Lifecycle}
    {memory : Stacks} (hgrows : (Coroutine.checkOut r h state).heap.Grows h') :
    h.SameBut r (Coroutine.checkIn r after memory h') := by
  intro r' hne hr'
  have hholds : (Coroutine.checkOut r h state).heap.coroutines.Holds r' := by
    simpa [Store.Holds, Coroutine.checkOut, modifyCoroutine] using hr'
  calc (Coroutine.checkIn r after memory h').coroutine r'
      = h'.coroutine r' := Store.get_modify_of_ne _ _ hne
    _ = (Coroutine.checkOut r h state).heap.coroutine r' := hgrows.coroutine hholds
    _ = h.coroutine r' := Store.get_modify_of_ne _ _ hne

/-- **The states a scheduler can get into.**  A host can put any units, closures, contexts, tables
and vectors on the heap, make coroutines, and resume them. -/
inductive Vm.Reachable (host : Host σ) : Vm σ → Prop
  | new (config : Config) (state : σ) : Reachable host (.new config state)
  | arrange {vm vm' : Vm σ} (before : Reachable host vm)
      (coroutines : vm'.heap.coroutines = vm.heap.coroutines) : Reachable host vm'
  | make {vm : Vm σ} (before : Reachable host vm) (entry : Value) (context : Option (Ref .context))
      (config : Config) :
      Reachable host { vm with heap := (vm.heap.newCoroutine (.new entry context config)).2 }
  | ready {vm : Vm σ} (before : Reachable host vm) (r : Ref .coroutine) :
      Reachable host { vm with heap := Coroutine.setResumable r vm.heap }
  | resumed {vm vm' : Vm σ} {fuel : Nat} {r : Ref .coroutine} {args : List Value} {exit : Exit}
      (before : Reachable host vm) (resume : Coroutine.resume host fuel r args vm = .ok exit vm') :
      Reachable host vm'
  | failed {vm vm' : Vm σ} {fuel : Nat} {r : Ref .coroutine} {args : List Value} {e : Failure}
      (before : Reachable host vm) (resume : Coroutine.resume host fuel r args vm = .error e vm')
      (intact : ∀ d, e ≠ .defect d) : Reachable host vm'

/-- What a host can ask a scheduler to run. -/
inductive Request
  | unit (unit : Ref .unit) (args : List Value) (context : Option (Ref .context))
  | function (r : Ref .function) (args : List Value)
  | functionIn (r : Ref .function) (context : Ref .context) (args : List Value)
  | call (callee : Value) (args : List Value)

/-- Run what is asked for. -/
def Request.run (host : Host σ) (fuel : Nat) : Request → Schedule σ (List Value)
  | unit u args context => Vm.executeUnit host fuel u args context
  | function r args => Vm.executeFunction host fuel r args
  | functionIn r context args => Vm.executeInContext host fuel r context args
  | call callee args => Vm.call host fuel callee args

/-- **The machines that occur**: a coroutine was just started or resumed in a state the scheduler
can get into, or has made steps since. -/
inductive Machine.Occurs (host : Host σ) : Machine σ → Prop
  | started {vm : Vm σ} {r : Ref .coroutine} {args : List Value} {M : Machine σ}
      (reachable : vm.Reachable host) (initial : (vm.heap.coroutine r).state = .initial)
      (start : Coroutine.start host (vm.heap.coroutine r).entry (vm.heap.coroutine r).entryContext
        args (Coroutine.checkOut r vm.heap vm.state) = .ok () M) : Occurs host M
  | resumed {vm : Vm σ} {r : Ref .coroutine} {args : List Value} (reachable : vm.Reachable host)
      (suspended : (vm.heap.coroutine r).state = .suspended) :
      Occurs host
        ((Coroutine.checkOut r vm.heap vm.state).onValues fun values => values.pushAll args)
  | stepped {M M' : Machine σ} (before : Occurs host M) (step : Exec.step host M = .ok none M') :
      Occurs host M'

namespace Vm

/-- How a request may end: in a state with some property, or at the limits of sizes. -/
def Ends (sizes : Sizes) (good : Vm σ → Prop) : EStateM.Result Failure (Vm σ) α → Prop
  | .ok _ vm => good vm
  | .error (.defect d) _ => sizes.Refuses d
  | .error _ vm => good vm

variable {host : Host σ} {sizes : Sizes} {good : Vm σ → Prop}

theorem Ends.bind {x : Schedule σ α} {f : α → Schedule σ β} {vm : Vm σ}
    (hx : Ends sizes good (x vm)) (hf : ∀ a vm', good vm' → Ends sizes good (f a vm')) :
    Ends sizes good ((x >>= f) vm) := by
  show Ends sizes good (EStateM.bind x f vm)
  unfold EStateM.bind
  cases h : x vm with
  | ok a vm' =>
    rw [h] at hx
    exact hf a vm' hx
  | error e vm' =>
    rw [h] at hx
    cases e <;> exact hx

/-- The coroutine on top is made resumable. -/
theorem Reachable.readyTop {vm : Vm σ} (h : vm.Reachable host) :
    Ends host.sizes (·.Reachable host) (Vm.readyTop (σ := σ) vm) := by
  show Vm.Reachable host _
  dsimp only
  split
  · exact .ready h _
  · exact h

section

variable (hsyscall : ∀ i, host.syscall i = none)
include hsyscall

/-- When a coroutine has been resumed, all coroutines are sound, and all others are as they were. -/
theorem sound_resume {vm : Vm σ} (hs : vm.heap.Sound) (fuel : Nat) (r : Ref .coroutine)
    (args : List Value) :
    Ends host.sizes (fun vm' => vm'.heap.Sound ∧ vm.heap.SameBut r vm'.heap)
      (Coroutine.resume host fuel r args vm) := by
  have hM : (Coroutine.checkOut r vm.heap vm.state).Sound := hs.coroutine r
  have hheap := hs.checkOut r vm.state
  have h := hM.body hsyscall fuel (vm.heap.coroutine r).state (vm.heap.coroutine r).entry
    (vm.heap.coroutine r).entryContext args
  unfold Coroutine.resume
  dsimp only
  by_cases hcan : Coroutine.canResume (vm.heap.coroutine r).state
  · rw [if_pos hcan]
    generalize Coroutine.body host fuel _ _ _ args _ = result at h
    cases h with
    | ok grows sound => exact ⟨(hheap.grows grows).checkIn r _ sound, .resumed grows⟩
    | fault grows =>
      exact ⟨(hheap.grows grows).checkIn r _ (by simpa using Layer.Sound.bare []),
        .resumed grows⟩
    | limit limit => exact limit
    | exhausted grows sound => exact ⟨(hheap.grows grows).checkIn r _ sound, .resumed grows⟩
  · rw [if_neg hcan]
    exact ⟨hs, fun _ _ _ => rfl⟩

/-- **In every state a scheduler can get into, all coroutines are sound.** -/
theorem Reachable.sound {vm : Vm σ} (h : vm.Reachable host) : vm.heap.Sound := by
  induction h with
  | new config state =>
    intro c hc
    cases hc
  | arrange before coroutines ih => exact ih.grows (.of_coroutines_eq coroutines)
  | @make vm before entry context config ih =>
    refine Heap.Every.make (P := fun c => c.memory.view.Sound) ih ?_
    simpa [Coroutine.new] using Layer.Sound.bare []
  | ready before r ih => exact ih.modify r fun _ hc => hc
  | @resumed vm vm' fuel r args exit before resume ih =>
    have hends := sound_resume hsyscall ih fuel r args
    rw [resume] at hends
    exact hends.1
  | @failed vm vm' fuel r args e before resume intact ih =>
    have hends := sound_resume hsyscall ih fuel r args
    rw [resume] at hends
    cases e with
    | defect d => exact absurd rfl (intact d)
    | _ => exact hends.1

/-- A coroutine is resumed. -/
theorem Reachable.resume {vm : Vm σ} (h : vm.Reachable host) (fuel : Nat) (r : Ref .coroutine)
    (args : List Value) :
    Ends host.sizes (·.Reachable host) (Coroutine.resume host fuel r args vm) := by
  have hends := sound_resume hsyscall (h.sound hsyscall) fuel r args
  cases hresult : Coroutine.resume host fuel r args vm with
  | ok exit vm' => exact .resumed h hresult
  | error e vm' =>
    rw [hresult] at hends
    cases e with
    | defect d => exact hends
    | _ => exact .failed h hresult (by simp)

/-- The loop of the scheduler, for any number of coroutines and turns. -/
theorem Reachable.loop (floor fuel : Nat) {vm : Vm σ} (h : vm.Reachable host)
    (values : List Value) :
    Ends host.sizes (·.Reachable host) (Vm.loop host floor fuel values vm) := by
  induction fuel generalizing vm values with
  | zero => exact h
  | succ fuel ih =>
    -- A coroutine has ended its turn: it is removed, and the one below is next, if any.
    have hnext {vm : Vm σ} (h : vm.Reachable host) (below : List (Ref .coroutine))
        (results : List Value) (last : Schedule σ (List Value))
        (hlast : ∀ {vm : Vm σ}, vm.Reachable host →
          Ends host.sizes (·.Reachable host) (last vm)) :
        Ends host.sizes (·.Reachable host)
          ((do
            Vm.retire
            if below.length ≤ floor then
              last
            else
              Vm.readyTop
              Vm.loop host floor fuel results : Schedule σ (List Value)) vm) := by
      refine Ends.bind (x := Vm.retire) (.arrange h rfl) fun _ vm' h' => ?_
      split
      · exact hlast h'
      · exact h'.readyTop.bind fun _ vm'' h'' => ih h'' results
    rw [Vm.loop]
    refine Ends.bind (x := MonadState.get) h fun now vm' h' => ?_
    cases now.active with
    | nil => exact h'
    | cons top below =>
      refine (h'.resume hsyscall fuel top values).bind fun exit vm'' h'' => ?_
      cases exit with
      | switched next args =>
        exact Ends.bind (x := Vm.activate next) (.arrange h'' rfl) fun _ _ h₃ => ih h₃ args
      | finished results => exact hnext h'' below results (pure results) id
      | yielded results => exact hnext h'' below results (throw (.usage .yieldFromRoot)) id

/-- A coroutine and all that it starts are run to their end. -/
theorem Reachable.execute {vm : Vm σ} (h : vm.Reachable host) (fuel : Nat) (root : Ref .coroutine)
    (args : List Value) :
    Ends host.sizes (·.Reachable host) (Vm.execute host fuel root args vm) := by
  have hstart : Vm.Reachable host { vm with active := root :: vm.active } := .arrange h rfl
  have hloop := hstart.loop hsyscall vm.active.length fuel args
  unfold Vm.execute
  dsimp only
  cases hresult : Vm.loop host vm.active.length fuel args
      { vm with active := root :: vm.active } with
  | ok values vm' =>
    rw [hresult] at hloop
    exact hloop
  | error e vm' =>
    rw [hresult] at hloop
    cases e with
    | runtime f trace => exact .arrange hloop rfl
    | usage e => exact .arrange hloop rfl
    | defect d => exact hloop
    | exhausted => exact hloop

/-- A new coroutine is run to its end. -/
theorem Reachable.executeNew {vm : Vm σ} (h : vm.Reachable host) (fuel : Nat) (entry : Value)
    (context : Option (Ref .context)) (args : List Value) :
    Ends host.sizes (·.Reachable host) (Vm.executeNew host fuel entry context args vm) := by
  refine Ends.bind (x := MonadState.get) h fun now vm' h' => ?_
  rcases Coroutine.make_cases host.sizes entry context now.config with hmake |
    ⟨d, hmake, hlimit⟩
  · rw [hmake]
    show Ends host.sizes _ ((do
      let root ← Vm.allocate fun heap => heap.newCoroutine (.new entry context now.config)
      Vm.execute host fuel root args : Schedule σ (List Value)) vm')
    refine Ends.bind (Reachable.make h' entry context now.config) fun root vm'' h'' => ?_
    exact h''.execute hsyscall fuel root args
  · rw [hmake]
    exact hlimit

/-- **Every request** ends in a state the scheduler can get into, or at the limits of sizes. -/
theorem Reachable.request {vm : Vm σ} (h : vm.Reachable host) (fuel : Nat) (request : Request) :
    Ends host.sizes (·.Reachable host) (request.run host fuel vm) := by
  cases request with
  | function r args => exact h.executeNew hsyscall fuel (.function r) none args
  | functionIn r context args => exact h.executeNew hsyscall fuel (.function r) (some context) args
  | call callee args =>
    show Ends host.sizes _ (Vm.call host fuel callee args vm)
    unfold Vm.call
    split
    · exact h.executeNew hsyscall fuel callee none args
    · exact h
  | unit u args context =>
    have hget {f : Vm σ → Schedule σ (List Value)} (vm : Vm σ) : (get >>= f) vm = f vm vm :=
      rfl
    have hentry (c : Ref .context) {vm : Vm σ} (h : vm.Reachable host) :
        Ends host.sizes (·.Reachable host) (Vm.executeUnit host fuel u args (some c) vm) := by
      simp only [Vm.executeUnit, pure_bind, hget]
      cases hfound : vm.heap.entryFunction u (some c) with
      | error e => exact h
      | ok found =>
        obtain ⟨r, heap⟩ := found
        have hsame : heap.coroutines = vm.heap.coroutines := vm.heap.coroutines_entryFunction hfound
        have h' : Vm.Reachable host { vm with heap } := .arrange h hsame
        exact h'.executeNew hsyscall fuel (.function r) none args
    cases context with
    | some c => exact hentry c h
    | none =>
      refine Ends.bind (x := Vm.allocate fun heap => heap.newContext none) (.arrange h rfl)
        fun c vm' h' => hentry c h'

end

end Vm

/-- Every machine that occurs is sound. -/
theorem Machine.Occurs.sound {host : Host σ} (hsyscall : ∀ i, host.syscall i = none)
    {M : Machine σ} (h : M.Occurs host) : M.Sound := by
  induction h with
  | @started vm r args M reachable initial start =>
    have hM : (Coroutine.checkOut r vm.heap vm.state).Sound :=
      (reachable.sound hsyscall).coroutine r
    have hstart := hM.start hsyscall (vm.heap.coroutine r).entry (vm.heap.coroutine r).entryContext
      args
    rw [start] at hstart
    cases hstart with
    | ok grows sound => exact sound
  | @resumed vm r args reachable suspended =>
    have hM : (Coroutine.checkOut r vm.heap vm.state).Sound :=
      (reachable.sound hsyscall).coroutine r
    exact hM.pushAll args
  | stepped before step ih =>
    have hstep := ih.step hsyscall
    rw [step] at hstep
    cases hstep with
    | ok on grows sound =>
      rw [Machine.Sound, on, Layer.bare_nil_pile]
      exact sound

/-- The slot of a system call is the number its byte carries, one of eight. -/
theorem Instruction.syscall_slot {code : Bytes} {ip : Nat} {ins : Instruction} {slot : Fin 8}
    (hdecode : decode code ip = .ok ins) (hop : ins.op = some (.syscall slot)) :
    ins.onStack = false ∧ ins.imm = Int64.ofNat slot := by
  unfold decode at hdecode
  split at hdecode
  case isTrue h =>
    split at hdecode
    · cases hdecode
    · rename_i imm himm
      cases hdecode
      have hbyte : code[ip] = (Op.syscall slot).byte := (Op.byte_of_ofByte? hop).symm
      have hshape : shapeOfByte code[ip] = .embedded := by
        rw [shapeOfByte, show Op.ofByte? code[ip] = some (.syscall slot) from hop]
        rfl
      have hlow : ∀ s : Fin 8, (Op.syscall s).byte.toNat % 8 = s := by decide
      rw [readImmediate, hshape] at himm
      cases himm
      refine ⟨by simp [hshape], ?_⟩
      rw [hbyte, hlow]
  case isFalse h =>
    split at hdecode
    · cases hdecode
      cases hop
    · cases hdecode

/-- **No bytecode can break the machine.**  Without limits of sizes and without system calls, every
step of every machine that occurs goes on, hands control out or is a fault; every request to a
scheduler, however long it runs, is answered or ends with a fault or a usage error, and leaves the
scheduler in a state where the same holds; and the slot of a system call is always one of eight. -/
theorem never_defect {host : Host σ} (hsizes : host.sizes = .unbounded)
    (hsyscall : ∀ i, host.syscall i = none) :
    (∀ M : Machine σ, M.Occurs host →
      (∃ exit M', Exec.step host M = .ok exit M') ∨
      ∃ f M', Exec.step host M = .error (.fault f) M') ∧
    (∀ vm : Vm σ, vm.Reachable host → ∀ (fuel : Nat) (request : Request),
      (∃ values vm', request.run host fuel vm = .ok values vm' ∧ vm'.Reachable host) ∨
      ∃ e vm', request.run host fuel vm = .error e vm' ∧ vm'.Reachable host ∧
        ((∃ f trace, e = .runtime f trace) ∨ (∃ u, e = .usage u) ∨ e = .exhausted)) ∧
    ∀ (code : Bytes) (ip : Nat) (ins : Instruction) (slot : Fin 8),
      Instruction.decode code ip = .ok ins → ins.op = some (.syscall slot) →
      ins.onStack = false ∧ ins.imm = Int64.ofNat slot := by
  refine ⟨?_, ?_, fun _ _ _ _ => Instruction.syscall_slot⟩
  · intro M hM
    have hstep := (hM.sound hsyscall).step hsyscall
    rw [hsizes] at hstep
    generalize Exec.step host M = result at hstep
    cases hstep with
    | ok on grows sound => exact .inl ⟨_, _, rfl⟩
    | fault grows => exact .inr ⟨_, _, rfl⟩
    | limit limit => exact absurd limit (Sizes.not_refuses_unbounded _)
  · intro vm hvm fuel request
    have hends := hvm.request hsyscall fuel request
    cases hresult : request.run host fuel vm with
    | ok values vm' =>
      rw [hresult] at hends
      exact .inl ⟨values, vm', rfl, hends⟩
    | error e vm' =>
      rw [hresult, hsizes] at hends
      cases e with
      | runtime f trace => exact .inr ⟨_, vm', rfl, hends, .inl ⟨f, trace, rfl⟩⟩
      | usage u => exact .inr ⟨_, vm', rfl, hends, .inr (.inl ⟨u, rfl⟩)⟩
      | defect d => exact absurd hends (Sizes.not_refuses_unbounded d)
      | exhausted => exact .inr ⟨_, vm', rfl, hends, .inr (.inr rfl)⟩

/-- Code of two bytes, the first of which stands for no opcode, on a host without limits. -/
theorem never_defect_unknown_byte :
    let host : Host Unit := { Host.bare with sizes := .unbounded }
    let unit : CodeUnit := ⟨#[{ (default : Prototype) with code := #[0xff, 0x00] }], #[], 0⟩
    let vm : Vm Unit := { Vm.new .standard () with heap := (Heap.empty.newUnit unit).2 }
    let request : Request := .unit ⟨0⟩ [.nil] none
    host.sizes = .unbounded ∧ (∀ i, host.syscall i = none) ∧ vm.Reachable host ∧
    ((∃ values vm', request.run host 9 vm = .ok values vm' ∧ vm'.Reachable host) ∨
      ∃ e vm', request.run host 9 vm = .error e vm' ∧ vm'.Reachable host ∧
        ((∃ f trace, e = .runtime f trace) ∨ (∃ u, e = .usage u) ∨ e = .exhausted)) := by
  intro host unit vm request
  have hvm : vm.Reachable host := .arrange (.new .standard ()) rfl
  exact ⟨rfl, fun _ => rfl, hvm, (never_defect rfl fun _ => rfl).2.1 vm hvm 9 request⟩

end ScriptVm
