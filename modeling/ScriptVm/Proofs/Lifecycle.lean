import ScriptVm.Host.Scripted
import ScriptVm.Proofs.Resumption

/-!
# The life of a coroutine

A coroutine is new, runs, is suspended or has switched away, and is stopped in
the end.  Its stacks go with that: they are empty before it is started and after
it has stopped, and there is an active function while it waits.

That the stacks are empty after a return is not said anywhere in the code.  It
follows from how the frames are piled up: a frame notes how many delimiters and
try marks there are when it is made, and takes what comes above them away when
it is left.  So the lowest frame must have noted that there are none
(`Stacks.Grounded`).  A system call works on the stacks directly, and could take
the lowest frame away; `Host.Modest` says that it does not.

What is done to coroutines by whole resumes is collected in `Vm.Act`; a coroutine
that is not resumed waits meanwhile.  What happens when one is resumed while
another one is out is the matter of `Moments`.

Main statements: `Machine.Paces.grounded` (one step), `Vm.kept_of_departs` (control
leaves), `Vm.Acts.waits` (any number of operations).
-/

namespace ScriptVm

variable {σ α : Type}

/-! ### Grounded stacks -/

/-- Where the delimiters and the try marks of the lowest frame start. -/
def Stacks.floor (s : Stacks) : Option (Nat × Nat) :=
  s.frames.toList.head?.map fun f => (f.delimiterBase, f.tryBase)

/-- All delimiters and try marks belong to frames. -/
def Stacks.Grounded (s : Stacks) : Prop :=
  s.floor = some (0, 0) ∨
    (s.frames.toList = [] ∧ s.delimiters.toList = [] ∧ s.marks.toList = [])

/-- No system call of the host takes the lowest frame away, or moves where its delimiters and try
marks start. -/
def Host.Modest (host : Host σ) : Prop :=
  ∀ i call, host.syscall i = some call → ∀ heap (s : Stacks) state, s.frames.toList ≠ [] →
    (call heap s state).memory.floor = s.floor

/-- The current frame may change in other respects. -/
theorem Stacks.floor_modifyLast (s : Stacks) {φ : Frame → Frame}
    (hφ : ∀ f, (φ f).delimiterBase = f.delimiterBase ∧ (φ f).tryBase = f.tryBase) :
    floor { s with frames := s.frames.modifyLast φ } = s.floor := by
  by_cases hnone : s.frames.toList = []
  · have hitems : s.frames.items = #[] := Array.toList_eq_nil_iff.mp hnone
    simp [floor, Stack.modifyLast, Stack.toList, hitems]
  · obtain ⟨below, f, hframes⟩ : ∃ below f, s.frames.toList = below ++ [f] :=
      ⟨_, _, (List.dropLast_concat_getLast hnone).symm⟩
    have hmodified := Stack.toList_modifyLast hframes φ
    cases below with
    | nil => simpa [floor, hmodified, hframes] using hφ f
    | cons g below => simp [floor, hmodified, hframes]

theorem Stacks.grounded_of_view {s : Stacks} (h : s.view = .bare []) : s.Grounded :=
  .inr ⟨congrArg Layer.frames h, congrArg Layer.delimiters h, congrArg Layer.marks h⟩

namespace Stacks.Grounded

variable {s t : Stacks}

/-- With an active function, only the lowest frame counts. -/
theorem of_floor_eq (hs : s.Grounded) (hbusy : s.frames.toList ≠ []) (h : t.floor = s.floor) :
    t.Grounded := by
  rcases hs with hs | ⟨hnone, -⟩
  · exact .inl (h.trans hs)
  · exact absurd hnone hbusy

/-- Stacks without frames. -/
theorem empty (hs : s.Grounded) (hnone : s.frames.toList = []) :
    s.delimiters.toList = [] ∧ s.marks.toList = [] := by
  rcases hs with hs | ⟨-, hs⟩
  · simp [floor, hnone] at hs
  · exact hs

end Stacks.Grounded

namespace Machine

variable {host : Host σ} {M N : Machine σ}

/-- **A move** keeps grounded stacks grounded. -/
theorem Move.grounded (move : M.Move host N) (hM : M.memory.Grounded) : N.memory.Grounded := by
  cases move with
  | values φ => exact hM
  | heap move => exact hM
  | effect r args => exact hM
  | opening r => exact hM
  | async r object history => exact hM
  | delimiters busy φ => exact hM.of_floor_eq busy rfl
  | marks busy φ => exact hM.of_floor_eq busy rfl
  | frame φ place =>
    have hbases (f : Frame) :
        (φ f).delimiterBase = f.delimiterBase ∧ (φ f).tryBase = f.tryBase := by
      have hdelimiters := congrArg Frame.delimiterBase (place f)
      have hmarks := congrArg Frame.tryBase (place f)
      exact ⟨hdelimiters, hmarks⟩
    have hfloor := M.memory.floor_modifyLast hbases
    by_cases hbusy : M.Busy
    · exact hM.of_floor_eq hbusy hfloor
    · have hnone : M.memory.frames.toList = [] := Classical.not_not.mp hbusy
      refine .inr ⟨?_, hM.empty hnone⟩
      have hitems : M.memory.frames.items = #[] := Array.toList_eq_nil_iff.mp hnone
      simp [onFrames, Stack.modifyLast, Stack.toList, hitems]
  | enter f delimiters marks =>
    by_cases hbusy : M.Busy
    · refine hM.of_floor_eq hbusy ?_
      obtain ⟨g, below, hframes⟩ := List.exists_cons_of_ne_nil hbusy
      simp [Stacks.floor, onFrames, hframes]
    · have hnone : M.memory.frames.toList = [] := Classical.not_not.mp hbusy
      obtain ⟨hdelimiters, hmarks⟩ := hM.empty hnone
      refine .inl ?_
      simp [Stacks.floor, onFrames, hnone, delimiters, marks, Stack.size_eq_length, hdelimiters,
        hmarks]

theorem Moves.grounded (moves : M.Moves host N) (hM : M.memory.Grounded) : N.memory.Grounded := by
  induction moves with
  | refl => exact hM
  | tail _ move ih => exact move.grounded ih

theorem Strides.grounded (hmodest : host.Modest) (strides : M.Strides host N)
    (hM : M.memory.Grounded) : N.memory.Grounded := by
  cases strides with
  | moves moves => exact moves.grounded hM
  | called moves busy slot =>
    exact (moves.grounded hM).of_floor_eq busy (hmodest _ _ slot _ _ _ busy)

/-- **A step** keeps grounded stacks grounded. -/
theorem Paces.grounded (hmodest : host.Modest) (paces : M.Paces host N) (hM : M.memory.Grounded) :
    N.memory.Grounded := by
  cases paces with
  | goes strides => exact strides.grounded hmodest hM
  | @returns N strides f frame values =>
    have hN := strides.grounded hmodest hM
    rw [Stack.last?_eq_getLast?] at frame
    obtain ⟨below, hframes⟩ := List.getLast?_eq_some_iff.mp frame
    cases below with
    | nil =>
      -- The entry returns: its frame is the lowest, and nothing is left.
      have hfloor : (f.delimiterBase, f.tryBase) = (0, 0) := by
        rcases hN with hN | ⟨hnone, -⟩
        · simpa [Stacks.floor, hframes] using hN
        · simp [hframes] at hnone
      obtain ⟨hdelimiters, hmarks⟩ := Prod.mk.inj hfloor
      exact .inr ⟨by simp [hframes], by simp [hdelimiters], by simp [hmarks]⟩
    | cons g below =>
      have hrest : N.memory.frames.toList.dropLast = g :: below := by
        rw [hframes, List.dropLast_concat]
      refine hN.of_floor_eq (by simp [hframes]) ?_
      rw [Stacks.floor, Stacks.floor, Stack.toList_dropLast, hrest, hframes]
      rfl

end Machine

/-- The stacks of a coroutine, as its state has them. -/
def Coroutine.Kept (c : Coroutine) : Prop :=
  match c.state with
  | .initial | .stopped => c.memory.view = .bare []
  | .suspended | .inStack => c.memory.frames.toList ≠ [] ∧ c.memory.Grounded
  | .running => True

namespace Coroutine

theorem kept_new (entry : Value) (context : Option (Ref .context)) (config : Config) :
    (new entry context config).Kept :=
  Stacks.view_new config

/-- A coroutine that may be resumed has grounded stacks. -/
theorem Kept.grounded {c : Coroutine} (h : c.Kept) (hcan : canResume c.state) :
    c.memory.Grounded := by
  unfold Kept at h
  cases hstate : c.state with
  | initial =>
    rw [hstate] at h
    exact Stacks.grounded_of_view h
  | suspended =>
    rw [hstate] at h
    exact h.2
  | _ => simp [hstate, canResume] at hcan

end Coroutine

namespace Vm

variable {M N : Machine σ}

/-- Control has left a coroutine: its stacks are as its new state has them. -/
theorem kept_of_departs {exit : Exit} (departs : M.Departs N exit) (hM : M.memory.Grounded)
    (hN : N.memory.Grounded) (c : Coroutine) :
    Coroutine.Kept { c with state := Coroutine.stateAfter exit, memory := N.memory } := by
  cases departs with
  | finished idle left =>
    have hnone : M.memory.frames.toList = [] := Classical.not_not.mp idle
    obtain ⟨hdelimiters, hmarks⟩ := hM.empty hnone
    subst left
    show (M.onValues fun values => values.truncate 0).memory.view = .bare []
    simp [Machine.onValues, Stacks.view, Layer.bare, hnone, hdelimiters, hmarks]
  | yielded stays => exact ⟨stays.busy_after, hN⟩
  | switched stays => exact ⟨stays.busy_after, hN⟩
  | asyncYielded stays => exact ⟨stays.busy_after, hN⟩
  | asyncSwitched stays => exact ⟨stays.busy_after, hN⟩

end Vm

/-! ### Operations on coroutines -/

/-- **The moves of a coroutine's life.** -/
inductive Lifecycle.Arrow : Lifecycle → Lifecycle → Prop
  | start : Arrow .initial .running
  | again : Arrow .suspended .running
  | yield : Arrow .running .suspended
  | switch : Arrow .running .inStack
  | stop : Arrow .running .stopped
  | ready : Arrow .inStack .suspended

/-- Any number of moves of a coroutine's life. -/
abbrev Lifecycle.Arrows : Lifecycle → Lifecycle → Prop :=
  Relation.ReflTransGen Arrow

namespace Lifecycle

/-- No coroutine becomes new again. -/
theorem Arrows.ne_initial {s t : Lifecycle} (h : Arrows s t) (hs : s ≠ .initial) :
    t ≠ .initial := by
  induction h with
  | refl => exact hs
  | tail _ arrow ih => cases arrow <;> simp

theorem arrow_running {s : Lifecycle} (h : Coroutine.canResume s) : Arrow s .running := by
  cases s with
  | initial => exact .start
  | suspended => exact .again
  | _ => simp [Coroutine.canResume] at h

theorem arrow_stateAfter (exit : Exit) : Arrow .running (Coroutine.stateAfter exit) := by
  cases exit with
  | finished vs => exact .stop
  | yielded vs => exact .yield
  | switched q vs => exact .switch

end Lifecycle

namespace Vm

/-- The scheduler behind an answer. -/
def last : EStateM.Result Failure (Vm σ) α → Vm σ
  | .ok _ vm => vm
  | .error _ vm => vm

/-- **What can be done to coroutines**, one operation at a time, each marked with the coroutine it
lets run, if any.  `inside` leads to what an effectful function has before it that the running
coroutine has called, or what there is between two steps. -/
inductive Act (host : Host σ) : Option (Ref .coroutine) → Vm σ → Vm σ → Prop
  | arrange {vm vm' : Vm σ} (coroutines : vm'.heap.coroutines = vm.heap.coroutines) :
      Act host none vm vm'
  | make (vm : Vm σ) (entry : Value) (context : Option (Ref .context)) (config : Config) :
      Act host none vm { vm with heap := (vm.heap.newCoroutine (.new entry context config)).2 }
  | ready (vm : Vm σ) (r : Ref .coroutine) :
      Act host none vm { vm with heap := Coroutine.setResumable r vm.heap }
  | refused {vm : Vm σ} {r : Ref .coroutine}
      (refused : ¬ Coroutine.canResume (vm.heap.coroutine r).state) (fuel : Nat)
      (args : List Value) : Act host none vm (last (Coroutine.resume host fuel r args vm))
  | resume {vm : Vm σ} {r : Ref .coroutine}
      (accepted : Coroutine.canResume (vm.heap.coroutine r).state) (fuel : Nat)
      (args : List Value) : Act host (some r) vm (last (Coroutine.resume host fuel r args vm))
  | inside {vm : Vm σ} {fuel : Nat} {r : Ref .coroutine} {args : List Value} {H : Heap}
      (during : vm.During host fuel r args H) (state : σ) :
      Act host (some r) vm { vm with heap := H, state }

/-- Any number of operations with such marks. -/
abbrev Acts (host : Host σ) (marks : Option (Ref .coroutine) → Prop) :
    Vm σ → Vm σ → Prop :=
  Relation.ReflTransGen fun vm vm' => ∃ mark, marks mark ∧ Act host mark vm vm'

variable {host : Host σ} {vm vm' : Vm σ} {r : Ref .coroutine} {args : List Value}
  {mark : Option (Ref .coroutine)}

/-- The state in which a resume has left its coroutine. -/
def Leaves (state : Lifecycle) : EStateM.Result Failure (Vm σ) Exit → Prop
  | .ok exit _ => state = Coroutine.stateAfter exit
  | .error (.runtime _ _) _ => state = .stopped
  | .error e _ => state = .running ∧ ¬ e.Answers

/-- What a resume has done to the heap. -/
theorem Resumed.turned {result : EStateM.Result Failure (Vm σ) Exit}
    (h : vm.Resumed host r args result) :
    ∃ state memory, vm.heap.Turned r state memory (last result).heap ∧ Leaves state result := by
  cases h with
  | exits runs step =>
    have hgrows := runs.grows.trans ((Exec.step_paces host _).1 step).grows
    exact ⟨_, _, .of_grows hgrows _ _, rfl⟩
  | faults grows => exact ⟨_, _, .of_grows grows _ _, rfl⟩
  | @breaks e N unanswered grows =>
    refine ⟨_, _, .of_grows grows _ _, ?_⟩
    cases e with
    | runtime f trace => exact absurd trivial unanswered
    | _ => exact ⟨rfl, unanswered⟩

theorem Act.holds (act : Act host mark vm vm') (hr : vm.heap.coroutines.Holds r) :
    vm'.heap.coroutines.Holds r := by
  cases act with
  | arrange coroutines => rwa [coroutines]
  | make entry context config => exact Heap.holds_newCoroutine hr
  | ready q => exact Heap.holds_modifyCoroutine.mpr hr
  | refused refused fuel args => rwa [Coroutine.resume_refused host fuel args refused]
  | resume accepted fuel args =>
    obtain ⟨state, memory, hturned, -⟩ := (Coroutine.resumed host fuel args accepted).turned
    exact hturned.keeps r hr
  | inside during state =>
    exact during.grows.holds (Heap.holds_modifyCoroutine.mpr hr)

end Vm

/-- A coroutine that is not let run: it is as it was, or may be resumed again after a switch. -/
def Coroutine.Waits (c c' : Coroutine) : Prop :=
  c' = c ∨ (c.state = .inStack ∧ c' = { c with state := .suspended })

namespace Coroutine

theorem Waits.trans {c c' c'' : Coroutine} (h : c.Waits c') (h' : c'.Waits c'') : c.Waits c'' := by
  rcases h with rfl | ⟨hstate, rfl⟩
  · exact h'
  · rcases h' with rfl | ⟨hno, -⟩
    · exact .inr ⟨hstate, rfl⟩
    · cases hno

theorem Waits.memory_eq {c c' : Coroutine} (h : c.Waits c') : c'.memory = c.memory := by
  rcases h with rfl | ⟨-, rfl⟩ <;> rfl

theorem Waits.of_initial {c c' : Coroutine} (h : c.Waits c') (hc : c.state = .initial) :
    c' = c := by
  rcases h with rfl | ⟨hstate, -⟩
  · rfl
  · rw [hc] at hstate
    cases hstate

theorem Waits.arrows {c c' : Coroutine} (h : c.Waits c') : Lifecycle.Arrows c.state c'.state := by
  rcases h with rfl | ⟨hstate, rfl⟩
  · exact .refl
  · rw [hstate]
    exact .single .ready

/-- A coroutine is made resumable. -/
theorem waits_setResumable {h : Heap} {r : Ref .coroutine} (hr : h.coroutines.Holds r) :
    (h.coroutine r).Waits ((setResumable r h).coroutine r) ∧
      ((setResumable r h).coroutine r).state ≠ .inStack := by
  rw [setResumable, Heap.coroutine_modify_self hr]
  generalize h.coroutine r = c
  obtain ⟨entry, context, state, config, memory⟩ := c
  cases state with
  | inStack => exact ⟨.inr ⟨rfl, rfl⟩, nofun⟩
  | _ => exact ⟨.inl rfl, nofun⟩

end Coroutine

namespace Vm

variable {host : Host σ} {vm vm' : Vm σ} {r : Ref .coroutine} {args : List Value}
  {mark : Option (Ref .coroutine)}

/-- An operation that does not let a coroutine run leaves it alone. -/
theorem Act.waits (act : Act host mark vm vm') (hmark : mark ≠ some r)
    (hr : vm.heap.coroutines.Holds r) : (vm.heap.coroutine r).Waits (vm'.heap.coroutine r) := by
  cases act with
  | arrange coroutines =>
    left
    rw [Heap.coroutine, coroutines]
    rfl
  | make entry context config => exact .inl (Store.get_add_of_holds _ _ hr)
  | ready _ q =>
    show (vm.heap.coroutine r).Waits ((Coroutine.setResumable q vm.heap).coroutine r)
    by_cases hne : r = q
    · subst hne
      exact (Coroutine.waits_setResumable hr).1
    · rw [Coroutine.setResumable, Heap.coroutine_modify_of_ne hne]
      exact .inl rfl
  | refused refused fuel args =>
    rw [Coroutine.resume_refused host fuel args refused]
    exact .inl rfl
  | @resume _ q accepted fuel args =>
    have hne : r ≠ q := fun h => hmark (by rw [h])
    obtain ⟨state, memory, hturned, -⟩ := (Coroutine.resumed host fuel args accepted).turned
    exact .inl (hturned.others r hne hr)
  | @inside _ fuel q args H during state =>
    have hne : r ≠ q := fun h => hmark (by rw [h])
    exact .inl (during.others hne hr)

/-! ### Any number of operations -/

variable {marks : Option (Ref .coroutine) → Prop}

theorem Acts.holds (acts : Acts host marks vm vm') (hr : vm.heap.coroutines.Holds r) :
    vm'.heap.coroutines.Holds r := by
  induction acts with
  | refl => exact hr
  | tail _ act ih =>
    obtain ⟨mark, -, act⟩ := act
    exact act.holds ih

theorem Acts.waits (acts : Acts host (· ≠ some r) vm vm') (hr : vm.heap.coroutines.Holds r) :
    (vm.heap.coroutine r).Waits (vm'.heap.coroutine r) := by
  induction acts with
  | refl => exact .inl rfl
  | tail before act ih =>
    obtain ⟨mark, hmark, act⟩ := act
    exact ih.trans (act.waits hmark (Acts.holds before hr))

end Vm

/-! ### Hosts made of scripts -/

/-- What all actions of a system call keep, it keeps. -/
theorem Scripted.runSyscall_keeps {h : Heap} {P : Stacks → Prop} (script : List SyscallScript)
    (hsteps : ∀ memory events, ∀ step ∈ script, P memory →
      P (runSyscallStep h memory events step).memory)
    {memory : Stacks} (events : Array Event) (hmemory : P memory) :
    P (runSyscall script h memory events).memory := by
  induction script generalizing memory events with
  | nil => exact hmemory
  | cons step rest ih =>
    have hstep := hsteps memory events step List.mem_cons_self hmemory
    unfold runSyscall
    dsimp only
    split
    · exact hstep
    · exact ih (fun m e s hs => hsteps m e s (List.mem_cons_of_mem _ hs)) _ hstep

/-- **No script of a system call changes frames**, but for where the current one goes on and how
many results its caller wants: what holds of the call stack whatever these are, holds afterwards. -/
theorem Scripted.frames_runSyscall {P : Stack Frame → Prop}
    (next : ∀ frames n, P frames → P (frames.modifyLast fun f => { f with nextIp := n }))
    (returns : ∀ frames n, P frames → P (frames.modifyLast fun f => { f with returnSize := n }))
    (script : List SyscallScript) (h : Heap) (memory : Stacks) (events : Array Event)
    (hmemory : P memory.frames) : P (runSyscall script h memory events).memory.frames := by
  refine runSyscall_keeps (P := fun memory => P memory.frames) script
    (fun memory events step _ hP => ?_) events hmemory
  cases step with
  | pop =>
    unfold runSyscallStep
    cases memory.values.pop <;> exact hP
  | popDelimiter =>
    unfold runSyscallStep
    cases memory.delimiters.pop <;> exact hP
  | setNextIp n => exact next _ n hP
  | setReturnSize n => exact returns _ n hP
  | _ => exact hP

theorem Scripted.Library.modest (library : Library)
    (syscalls : Fin 8 → Option (List SyscallScript)) : (library.host syscalls).Modest := by
  intro i call hcall heap s state _
  obtain ⟨script, -, rfl⟩ := Option.map_eq_some_iff.mp hcall
  have hfloor {frames : Stack Frame} {φ : Frame → Frame}
      (hφ : ∀ f, (φ f).delimiterBase = f.delimiterBase ∧ (φ f).tryBase = f.tryBase)
      (hsame : Stacks.floor { s with frames } = s.floor) :
      Stacks.floor { s with frames := frames.modifyLast φ } = s.floor :=
    (Stacks.floor_modifyLast { s with frames } hφ).trans hsame
  exact frames_runSyscall (P := fun frames => Stacks.floor { s with frames } = s.floor)
    (fun _ _ => hfloor fun _ => ⟨rfl, rfl⟩) (fun _ _ => hfloor fun _ => ⟨rfl, rfl⟩) script
      heap s state rfl

/-- The exit of a resume. -/
def Vm.exit? : EStateM.Result Failure (Vm σ) Exit → Option Exit
  | .ok exit _ => some exit
  | .error _ _ => none

theorem Vm.ok_of_exit? {result : EStateM.Result Failure (Vm σ) Exit} {exit : Exit}
    (h : exit? result = some exit) : ∃ vm, result = .ok exit vm ∧ vm = last result := by
  cases result with
  | ok e vm =>
    cases h
    exact ⟨vm, rfl, rfl⟩
  | error e vm => cases h

end ScriptVm
