import ScriptVm.Proofs.Phases

/-!
# Hosts made of scripts

What a script answers it has been given, or it is written in the script.  So a host
made of scripts refers to nothing that is not there, unless a closure is written in
one of them.  A script of a system call may set where the current frame goes on and how
many results its caller wants, and leaves all else of the call stack as it is.

Main statements: `Scripted.Library.honest`, and `orderly`, `tidy` and `sparing` beside it.
-/

namespace ScriptVm

/-- Only the last element changes. -/
theorem Stack.dropLast_modifyLast {α : Type} (s : Stack α) (φ : α → α) :
    (s.modifyLast φ).toList.dropLast = s.toList.dropLast := by
  rcases List.eq_nil_or_concat' s.toList with hnone | ⟨below, a, hs⟩
  · have hitems : s.items = #[] := Array.toList_eq_nil_iff.mp hnone
    simp [modifyLast, toList, hitems]
  · rw [toList_modifyLast hs, hs, List.dropLast_concat, List.dropLast_concat]

/-- A value that is no closure. -/
def Value.plain : Value → Bool
  | .function _ => false
  | _ => true

theorem Value.among_of_plain {good : Ref .function → Prop} {v : Value} (hv : v.plain) :
    v.Among good := by
  refine .plain fun r h => ?_
  subst h
  cases hv

theorem Value.allAmong_of_plain {good : Ref .function → Prop} {vs : List Value}
    (hvs : vs.all Value.plain) : AllAmong good vs :=
  fun v hv => among_of_plain (List.all_eq_true.mp hvs v hv)

/-- The limits of sizes make no difference. -/
theorem Host.Honest.resized {σ : Type} {host : Host σ} {fit : Prototype → Prop}
    {keeps : (Ref .function → Prop) → σ → Prop} (h : host.Honest fit keeps) (sizes : Sizes) :
    Host.Honest { host with sizes } fit keeps where
  mono := h.mono
  pureFn := h.pureFn
  effectFn := h.effectFn
  opening := h.opening
  asyncFn := h.asyncFn
  syscall := h.syscall

namespace Scripted

/-- A script without closures of its own. -/
def PureScript.plain : PureScript → Bool
  | .constant results => results.all Value.plain
  | _ => true

def EffectScript.plain : EffectScript → Bool
  | .log results => results.all Value.plain
  | _ => true

def Choice.plain : Choice → Bool
  | .values vs => vs.all Value.plain
  | _ => true

def Pick.plain : Pick → Bool
  | .value v => v.plain
  | _ => true

def AsyncScript.plain (script : AsyncScript) : Bool :=
  script.choice.plain && match script.action with
    | .resume pick | .call pick => pick.plain
    | _ => true

def SyscallScript.plain : SyscallScript → Bool
  | .push v => v.plain
  | _ => true

/-- A library without closures of its own. -/
def Library.plain (library : Library) : Bool :=
  library.pures.all PureScript.plain && library.effects.all EffectScript.plain
    && library.asyncs.all fun script => script.all AsyncScript.plain

variable {good : Ref .function → Prop} {h : Heap} {args : List Value}

theorem among_runPure (hargs : Value.AllAmong good args) {script : PureScript}
    (hscript : script.plain) {results : List Value}
    (hresults : runPure h args script = .ok results) : Value.AllAmong good results := by
  cases script with
  | sum =>
    simp only [runPure, Except.map] at hresults
    split at hresults
    · cases hresults
    · cases hresults
      exact .cons (Value.among_int _) .nil
  | same =>
    cases hresults
    exact hargs
  | reversed =>
    cases hresults
    exact fun v hv => hargs v (List.mem_reverse.mp hv)
  | count =>
    cases hresults
    exact .cons (Value.among_int _) .nil
  | constant vs =>
    cases hresults
    exact Value.allAmong_of_plain hscript
  | fail vs => cases hresults

theorem among_runEffect {scene : Scene} (hmemory : scene.memory.Among good) {events : Array Event}
    {script : EffectScript} (hscript : script.plain) {results : List Value}
    (hresults : (runEffect scene args events script).1 = .ok results) :
    Value.AllAmong good results := by
  have hmap {γ : Type} (φ : γ → Value) (hφ : ∀ x, (φ x).plain) (xs : List γ) :
      Value.AllAmong good (xs.map φ) := by
    intro v hv
    obtain ⟨x, -, rfl⟩ := List.mem_map.mp hv
    exact Value.among_of_plain (hφ x)
  cases script with
  | log vs =>
    cases hresults
    exact Value.allAmong_of_plain hscript
  | stack =>
    cases hresults
    exact hmemory.values
  | trace =>
    cases hresults
    exact hmap _ (fun _ => rfl) _
  | config =>
    cases hresults
    exact hmap number (fun _ => rfl) _
  | fail vs => cases hresults
  | _ =>
    cases hresults
    exact .cons (Value.among_of_plain rfl) .nil

/-- What an asynchronous function remembers it has been given. -/
theorem among_savedArgs (script : List AsyncScript) {history : List (List Value)}
    (hhistory : ∀ vs ∈ history, Value.AllAmong good vs) :
    Value.AllAmong good (savedArgs script history) := by
  have hfold (steps : List (AsyncScript × List Value)) (saved : List Value)
      (hsaved : Value.AllAmong good saved) (hsteps : ∀ s ∈ steps, Value.AllAmong good s.2) :
      Value.AllAmong good (steps.foldl (fun saved s => if s.1.save then s.2 else saved) saved) := by
    induction steps generalizing saved with
    | nil => exact hsaved
    | cons s steps ih =>
      rw [List.foldl_cons]
      refine ih _ ?_ fun t ht => hsteps t (List.mem_cons_of_mem _ ht)
      split
      · exact hsteps s List.mem_cons_self
      · exact hsaved
  exact hfold _ [] .nil fun s hs => hhistory s.2 (List.of_mem_zip hs).2

section

variable {given saved : List Value} (hgiven : Value.AllAmong good given)
  (hsaved : Value.AllAmong good saved)
include hgiven hsaved

/-- The values that a script chooses. -/
theorem among_choice {choice : Choice} (hplain : choice.plain) :
    Value.AllAmong good (choice.eval given saved) := by
  cases choice with
  | args => exact hgiven
  | rest => exact hgiven.some fun _ hv => List.mem_of_mem_tail hv
  | saved => exact hsaved
  | savedRest => exact hsaved.some fun _ hv => List.mem_of_mem_tail hv
  | values vs => exact Value.allAmong_of_plain hplain

/-- The value that a script picks. -/
theorem among_pick {pick : Pick} (hplain : pick.plain) : (pick.eval given saved).Among good := by
  have hgetD {vs : List Value} (hvs : Value.AllAmong good vs) (n : Nat) :
      (vs.getD n .nil).Among good := by
    rw [List.getD_eq_getElem?_getD]
    cases hv : vs[n]? with
    | none => exact Value.among_nil
    | some v => exact hvs v (List.mem_of_getElem? hv)
  cases pick with
  | arg n => exact hgetD hgiven n
  | saved n => exact hgetD hsaved n
  | value v => exact Value.among_of_plain hplain

end

theorem among_runAsync {script : List AsyncScript} (hscript : script.all AsyncScript.plain)
    {history : List (List Value)} (hhistory : ∀ vs ∈ history, Value.AllAmong good vs)
    {answer : AsyncStep} (hanswer : runAsync h script history = .ok answer) :
    answer.Among good := by
  have hgiven : Value.AllAmong good (history.getLast?.getD []) := by
    cases hlast : history.getLast? with
    | none => exact .nil
    | some vs => exact hhistory vs (List.mem_of_getLast? hlast)
  have hsaved := among_savedArgs script hhistory
  generalize hargs : history.getLast?.getD [] = given at hgiven
  generalize hremembered : savedArgs script history = remembered at hsaved
  unfold runAsync at hanswer
  dsimp only at hanswer
  rw [hargs, hremembered] at hanswer
  split at hanswer
  · cases hanswer
    exact hgiven
  · next step hstep =>
    have hplain := List.all_eq_true.mp hscript step (List.mem_of_getElem? hstep)
    rw [AsyncScript.plain, Bool.and_eq_true] at hplain
    have hvalues := among_choice hgiven hsaved hplain.1
    obtain ⟨-, hactionPlain⟩ := hplain
    split at hanswer
    · cases hanswer
      exact hvalues
    · cases hanswer
      exact hvalues
    · next pick hpicked =>
      cases hcoroutine : h.asCoroutine (pick.eval given remembered) with
      | error f =>
        rw [hcoroutine] at hanswer
        cases hanswer
      | ok r =>
        rw [hcoroutine] at hanswer
        cases hanswer
        exact hvalues
    · next pick hpicked =>
      rw [hpicked] at hactionPlain
      cases hanswer
      exact ⟨among_pick hgiven hsaved hactionPlain, hvalues⟩
    · cases hanswer

theorem among_runSyscallStep {memory : Stacks} (events : Array Event) {step : SyscallScript}
    (hstep : step.plain) (hmemory : memory.Among good) :
    (runSyscallStep h memory events step).memory.Among good := by
  have hpush (v : Value) (hv : v.plain) :
      ({ memory with values := memory.values.push v } : Stacks).Among good := by
    refine ⟨?_, hmemory.frames⟩
    rw [Stack.toList_push]
    exact hmemory.values.append (.cons (Value.among_of_plain hv) .nil)
  cases step with
  | push v => exact hpush v hstep
  | pop =>
    unfold runSyscallStep Stack.pop
    cases memory.values.last? with
    | none => exact hmemory
    | some v =>
      refine ⟨?_, hmemory.frames⟩
      show Value.AllAmong good memory.values.dropLast.toList
      rw [Stack.toList_dropLast]
      exact hmemory.values.some (List.dropLast_subset _)
  | height => exact hpush _ rfl
  | truncate n =>
    refine ⟨?_, hmemory.frames⟩
    show Value.AllAmong good (memory.values.truncate n).toList
    rw [Stack.toList_truncate]
    exact hmemory.values.some fun _ hv => List.mem_of_mem_take hv
  | slot => exact hpush _ rfl
  | popDelimiter =>
    unfold runSyscallStep
    cases memory.delimiters.pop <;> exact ⟨hmemory.values, hmemory.frames⟩
  | setNextIp n | setReturnSize n =>
    refine ⟨hmemory.values, fun f hf => ?_⟩
    rcases Stack.mem_modifyLast hf with hold | ⟨g, hg, rfl⟩
    · exact hmemory.frames f hold
    · exact (hmemory.last hg : g.Among good)
  | _ => exact ⟨hmemory.values, hmemory.frames⟩

/-- **Scripts without closures of their own** make none up. -/
theorem Library.honest {library : Library} (hlibrary : library.plain)
    {syscalls : Fin 8 → Option (List SyscallScript)}
    (hsyscalls : ∀ i script, syscalls i = some script → script.all SyscallScript.plain)
    (fit : Prototype → Prop) : (library.host syscalls).Honest fit fun _ _ => True := by
  rw [plain, Bool.and_eq_true, Bool.and_eq_true] at hlibrary
  obtain ⟨⟨hpures, heffects⟩, hasyncs⟩ := hlibrary
  have hasync (r : Ref .asyncExternal) :
      (library.asyncs.getD r.index []).all AsyncScript.plain := by
    rw [Array.getD_eq_getD_getElem?]
    cases hget : library.asyncs[r.index]? with
    | none => rfl
    | some script => exact Array.all_eq_true'.mp hasyncs script (Array.mem_of_getElem? hget)
  constructor
  case mono =>
    intros
    trivial
  case pureFn =>
    intro good r h args results _ hargs hresults
    dsimp only [host] at hresults
    split at hresults
    · next script hscript =>
      have hplain := Array.all_eq_true'.mp hpures script (Array.mem_of_getElem? hscript)
      exact among_runPure hargs hplain hresults
    · cases hresults
      exact .nil
  case effectFn =>
    intro good args r scene state _ hmemory hargs _
    refine ⟨fun results hresults => ?_, trivial⟩
    dsimp only [host] at hresults
    split at hresults
    · next script hscript =>
      have hplain := Array.all_eq_true'.mp heffects script (Array.mem_of_getElem? hscript)
      exact among_runEffect hmemory hplain hresults
    · cases hresults
      exact .nil
  case opening =>
    intros
    trivial
  case asyncFn =>
    intro good h history r object state _ hhistory _
    exact ⟨fun answer hanswer => among_runAsync (hasync r) hhistory hanswer, trivial⟩
  case syscall =>
    intro i call hcall good h memory state _ hmemory _
    obtain ⟨script, hscript, rfl⟩ := Option.map_eq_some_iff.mp hcall
    have hplain := List.all_eq_true.mp (hsyscalls i script hscript)
    exact ⟨runSyscall_keeps script (fun m e s hs => among_runSyscallStep e (hplain s hs))
      state hmemory, trivial⟩

/-! ### The call stack -/

/-- What a script of a system call leaves of every frame. -/
theorem map_runSyscall {α : Type} {g : Frame → α}
    (next : ∀ f n, g { f with nextIp := n } = g f)
    (returns : ∀ f n, g { f with returnSize := n } = g f) (script : List SyscallScript) (h : Heap)
    (memory : Stacks) (events : Array Event) :
    (runSyscall script h memory events).memory.frames.toList.map g = memory.frames.toList.map g :=
  frames_runSyscall (P := fun frames => frames.toList.map g = memory.frames.toList.map g)
    (fun frames n hsame => (Stack.map_modifyLast frames (next · n)).trans hsame)
    (fun frames n hsame => (Stack.map_modifyLast frames (returns · n)).trans hsame) script h memory
    events rfl

theorem Library.orderly (library : Library) (syscalls : Fin 8 → Option (List SyscallScript)) :
    (library.host syscalls).Orderly := by
  intro i call hcall heap s state
  obtain ⟨script, -, rfl⟩ := Option.map_eq_some_iff.mp hcall
  exact map_runSyscall (fun _ _ => rfl) (fun _ _ => rfl) script heap s state

theorem Library.tidy (library : Library) (syscalls : Fin 8 → Option (List SyscallScript)) :
    (library.host syscalls).Tidy := by
  intro i call hcall heap s state
  obtain ⟨script, -, rfl⟩ := Option.map_eq_some_iff.mp hcall
  exact map_runSyscall (fun _ _ => rfl) (fun _ _ => rfl) script heap s state

theorem Library.sparing (library : Library) (syscalls : Fin 8 → Option (List SyscallScript)) :
    (library.host syscalls).Sparing := by
  intro i call hcall heap s state
  obtain ⟨script, -, rfl⟩ := Option.map_eq_some_iff.mp hcall
  have hcallers (frames : Stack Frame) (φ : Frame → Frame)
      (hsame : frames.toList.dropLast = s.frames.toList.dropLast) :
      (frames.modifyLast φ).toList.dropLast = s.frames.toList.dropLast :=
    (Stack.dropLast_modifyLast frames φ).trans hsame
  exact frames_runSyscall (P := fun frames => frames.toList.dropLast = s.frames.toList.dropLast)
    (fun frames _ hsame => hcallers frames _ hsame) (fun frames _ hsame => hcallers frames _ hsame)
    script heap s state rfl

end Scripted

end ScriptVm
