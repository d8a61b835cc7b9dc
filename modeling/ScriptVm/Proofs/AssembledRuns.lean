import ScriptVm.Proofs.Carrying
import ScriptVm.Proofs.Scripts
import ScriptVm.Proofs.Tracks

/-!
# Runs of assembled code

In a heap on track all code that can be reached can be run, and all suspended
coroutines stand at boundaries of their code.  It stays on track through resumes,
rounds of the scheduler and requests of a host, if these bring in nothing else; and
none of them ends with a fault about code.

Main statement: `assembled_code_on_track`.
-/

namespace ScriptVm

open Instruction

variable {σ α : Type}

/-! ### Coroutines -/

namespace Heap.Tracked

variable {h : Heap}

/-- A coroutine is taken out or put back. -/
theorem modifyCoroutine (hh : h.Tracked) (r : Ref .coroutine) {φ : Coroutine → Coroutine}
    (hamong : (φ (h.coroutine r)).Among h.Runnable) (htrack : (φ (h.coroutine r)).Tracked h) :
    (h.modifyCoroutine r φ).Tracked := by
  refine ⟨⟨hh.closed.toAmong.modifyCoroutine r hamong, rfl⟩, fun q hq => ?_⟩
  exact (hh.coroutines.modify (fun _ => htrack) q hq).congr fun _ => rfl

/-- The coroutine behind a reference, also if it leads nowhere. -/
theorem coroutine (hh : h.Tracked) (r : Ref .coroutine) : (h.coroutine r).Tracked h := by
  by_cases hr : h.coroutines.Holds r
  · exact hh.coroutines r hr
  · rw [coroutine_of_not_holds hr]
    exact ⟨fun _ hf => absurd hf List.not_mem_nil, fun _ => rfl⟩

theorem newCoroutine (hh : h.Tracked) {entry : Value} (hentry : entry.Among h.Runnable)
    (context : Option (Ref .context)) (config : Config) :
    (h.newCoroutine (.new entry context config)).2.Tracked := by
  have hfresh : (Coroutine.new entry context config).Tracked h :=
    ⟨fun _ hf => absurd hf List.not_mem_nil, fun _ => rfl⟩
  refine ⟨⟨hh.closed.toAmong.newCoroutine ⟨fun _ => hentry, .new config⟩, rfl⟩,
    fun q hq => ?_⟩
  exact (hh.coroutines.newCoroutine hfresh q hq).congr fun _ => rfl

end Heap.Tracked

/-! ### Runs -/

/-- What is known on track: values refer to closures that can be run, and no fault is about code. -/
def Vm.Terms.track (σ : Type) : Vm.Terms σ where
  holds h _ := h.Tracked
  running M := M.Tracked
  carries h vs := Value.AllAmong h.Runnable vs
  spares f := f.ofCode = false

/-- **A step** of a machine on track. -/
theorem Exec.step_carried {host : Host σ} (hhost : host.Aligned) {M : Machine σ}
    (hM : M.Tracked) :
    Exec.Carried (.track σ)
      (fun h exit => ∀ e, exit = some e → Value.AllAmong h.Runnable e.values)
      (step host M) where
  running := hM.step hhost
  answer _ N h e he := Exit.among_iff.mp ((step_closed hhost.honest hM.closed).exits e N (he ▸ h))
  faults := (step_tracks hhost hM).faults

namespace Coroutine

variable {host : Host σ} {vm : Vm σ} {r : Ref .coroutine} {args : List Value}

/-- A coroutine that is taken out is a machine on track. -/
theorem checkOut_tracked (hvm : vm.heap.Tracked) (r : Ref .coroutine) :
    (checkOut r vm.heap vm.state).Tracked := by
  refine ⟨hvm.modifyCoroutine r ⟨nofun, .new _⟩ ?_, (hvm.closed.coroutines r).memory,
    (hvm.coroutine r).track⟩
  exact ⟨fun _ hf => absurd hf List.not_mem_nil, nofun⟩

/-- **How a coroutine begins.** -/
theorem begin_carried (hhost : host.Aligned) (r : Ref .coroutine) (hvm : vm.heap.Tracked)
    (hargs : Value.AllAmong vm.heap.Runnable args) :
    Exec.Carried (.track σ) (fun _ _ => True) (begin host vm r args) := by
  have hM := checkOut_tracked hvm r
  have hwhole := begin_whole hhost.honest hvm.closed trivial r hargs
  have htame := tame_opening host (vm.heap.coroutine r).state (vm.heap.coroutine r).entry
    (vm.heap.coroutine r).entryContext args (checkOut r vm.heap vm.state) False.elim
  have htrack := hM.track.retains hM.among htame.retains
  have carried (htracks : Exec.Tracks (begin host vm r args)) :
      Exec.Carried (.track σ) (fun _ _ => True) (begin host vm r args) := by
    refine ⟨⟨?_, hwhole.closed.memory, htracks.track⟩, fun _ _ _ => trivial, htracks.faults⟩
    exact hM.heap.retains htame.retains htame.grows hwhole.heap.closed
  by_cases hinitial : (vm.heap.coroutine r).state = .initial
  · refine carried ((Exec.Straight.opening hhost.fair _ _ _ args).tracks ⟨htrack,
      fun f hf => ?_⟩)
    have hidle : (vm.heap.coroutine r).memory.frames.toList = [] := (hvm.coroutine r).fresh hinitial
    rw [Stack.last?_eq_getLast?] at hf
    exact absurd (List.mem_of_getLast? hf) (hidle ▸ List.not_mem_nil)
  · have hbegin : begin host vm r args = Exec.pushAll args (checkOut r vm.heap vm.state) := by
      rw [begin, opening, if_neg hinitial]
    rw [hbegin] at carried ⊢
    exact carried ⟨hM.track, fun _ _ h => by cases h⟩

end Coroutine

namespace Vm

variable {host : Host σ} {vm : Vm σ} {args : List Value}

theorem ready_tracked {h : Heap} (hh : h.Tracked) (r : Ref .coroutine) :
    (Coroutine.setResumable r h).Tracked := by
  refine hh.modifyCoroutine r
    ⟨fun hnew => (hh.closed.coroutines r).entry (Coroutine.eq_initial_of_resumable hnew),
      (hh.closed.coroutines r).memory⟩ ⟨(hh.coroutine r).track, fun hnew => ?_⟩
  exact (hh.coroutine r).fresh (Coroutine.eq_initial_of_resumable hnew)

/-- **Being on track is carried on.** -/
def track (hhost : host.Aligned) : Carrying host where
  toTerms := .track σ
  begin r hvm hargs := Coroutine.begin_carried hhost r hvm hargs
  step hM := Exec.step_carried hhost hM
  stop {M} r state memory hstate hM hmemory := by
    -- the coroutine is put back with its stacks or without, and it is not new any more
    rcases hmemory with rfl | rfl
    · exact hM.heap.modifyCoroutine r ⟨fun h => absurd h hstate, hM.among⟩
        ⟨hM.track, fun h => absurd h hstate⟩
    · exact hM.heap.modifyCoroutine r ⟨fun h => absurd h hstate, .clear _⟩
        ⟨fun _ hf => absurd hf List.not_mem_nil, fun h => absurd h hstate⟩
  ready r hh := ready_tracked hh r
  stays _ _ hvs := hvs

/-- **What keeps a heap on track**: it is on track in the end, the answer is of some sort, and no
failure is a fault about code. -/
structure Kept (post : Heap → α → Prop) (result : EStateM.Result Failure (Vm σ) α) :
    Prop where
  tracked : (last result).heap.Tracked
  answer : ∀ a vm, result = .ok a vm → post vm.heap a
  faults : ∀ f trace vm, result = .error (.runtime f trace) vm → f.ofCode = false

theorem Carried.kept {post : Heap → α → Prop} {result : EStateM.Result Failure (Vm σ) α}
    (h : Carried (.track σ) post result) : Kept post result :=
  ⟨h.holds, h.answer, h.faults⟩

/-- A run in a coroutine that is made for it. -/
theorem executeNew_carried (hhost : host.Aligned) (hvm : vm.heap.Tracked) {entry : Value}
    (hentry : entry.Among vm.heap.Runnable) (hargs : Value.AllAmong vm.heap.Runnable args)
    (context : Option (Ref .context)) (fuel : Nat) :
    Carried (.track σ) (fun h vs => Value.AllAmong h.Runnable vs)
      (executeNew host fuel entry context args vm) := by
  rcases executeNew_cases host fuel entry context args vm with hnew | ⟨d, hnew⟩
  · rw [hnew]
    let made : Vm σ :=
      { vm with heap := (vm.heap.newCoroutine (.new entry context vm.config)).2 }
    have hmade : (track hhost).holds made.heap made.state :=
      hvm.newCoroutine hentry context vm.config
    exact (track hhost).execute hmade hargs fuel _
  · rw [hnew]
    exact .error hvm fun _ _ h => by cases h

end Vm

/-! ### Requests -/

/-- **A request for assembled code**: the unit, or the closures that are called or given, can be
run. -/
def Request.Among (h : Heap) : Request → Prop
  | unit u args _ => h.Loaded u ∧ Value.AllAmong h.Runnable args
  | function r args | functionIn r _ args => h.Runnable r ∧ Value.AllAmong h.Runnable args
  | call callee args => callee.Among h.Runnable ∧ Value.AllAmong h.Runnable args

namespace Heap.Tracked

variable {h : Heap}

theorem newContext (hh : h.Tracked) (parent : Option (Ref .context)) :
    (h.newContext parent).2.Tracked := by
  refine ⟨⟨hh.closed.toAmong.newContext parent, rfl⟩, fun q hq => ?_⟩
  exact (hh.coroutines q hq).congr fun _ => rfl

/-- A closure is made. -/
theorem addFunction (hh : h.Tracked) (closure : Closure) :
    Heap.Tracked { h with functions := (h.functions.add closure).2 } :=
  hh.retains (.add h closure) (.of_coroutines_eq rfl) (hh.closed.add closure).closed

/-- A unit is loaded, of whatever code. -/
theorem newUnit (hh : h.Tracked) (u : CodeUnit) : (h.newUnit u).2.Tracked := by
  have hunit {q : Ref .unit} (hq : h.units.Holds q) : (h.newUnit u).2.unit q = h.unit q :=
    h.units.get_add_of_holds u hq
  have hrunnable {r : Ref .function} (hr : h.Runnable r) : (h.newUnit u).2.Runnable r := by
    refine ⟨hr.1, Nat.lt_of_lt_of_le hr.2.1 ?_, ?_⟩
    · show h.units.size ≤ (h.units.add u).2.size
      rw [Store.size_add]
      exact Nat.le_succ _
    · show ∀ p ∈ ((h.newUnit u).2.unit (h.function r).unit).prototypes, WellFormed p.code
      rw [hunit hr.2.1]
      exact hr.2.2
  have hamong : (h.newUnit u).2.Among (h.newUnit u).2.Runnable :=
    (hh.closed.toAmong.mono fun _ hr => hrunnable hr).congr rfl rfl rfl rfl
  refine ⟨⟨hamong, rfl⟩,
    fun q hq => ⟨fun f hf r c hactivity => ?_, (hh.coroutines q hq).fresh⟩⟩
  have hr : h.Runnable r := by
    have hframe := (hh.closed.coroutines q).memory.frames f hf
    unfold Frame.Among at hframe
    rwa [hactivity] at hframe
  have hcode : (h.newUnit u).2.prototype r = h.prototype r := by
    show ((h.newUnit u).2.unit (h.function r).unit).prototypes.getD _ _ = _
    rw [hunit hr.2.1]
    rfl
  rw [hcode]
  exact (hh.coroutines q hq).track f hf r c hactivity

end Heap.Tracked

namespace Vm

variable {host : Host σ} {vm : Vm σ}

/-- **Every request** for assembled code. -/
theorem request_carried (hhost : host.Aligned) (hvm : vm.heap.Tracked) {request : Request}
    (hrequest : request.Among vm.heap) (fuel : Nat) :
    Carried (.track σ) (fun h vs => Value.AllAmong h.Runnable vs) (request.run host fuel vm) := by
  cases request with
  | function r args =>
    exact executeNew_carried hhost hvm (Value.among_function.mpr hrequest.1) hrequest.2 none fuel
  | functionIn r context args =>
    exact executeNew_carried hhost hvm (Value.among_function.mpr hrequest.1) hrequest.2
      (some context) fuel
  | call callee args =>
    show Carried _ _ (call host fuel callee args vm)
    unfold call
    split
    · exact executeNew_carried hhost hvm hrequest.1 hrequest.2 none fuel
    · refine .error hvm fun f trace h => ?_
      cases h
      rfl
  | unit u args context =>
    have hentered (c : Ref .context) (vm : Vm σ) (hvm : vm.heap.Tracked) (hu : vm.heap.Loaded u)
        (hargs : Value.AllAmong vm.heap.Runnable args) :
        Carried (.track σ) (fun h vs => Value.AllAmong h.Runnable vs)
          (executeUnit host fuel u args (some c) vm) := by
      simp only [executeUnit, pure_bind, bind_apply, get_apply]
      cases hfound : vm.heap.entryFunction u (some c) with
      | error e => exact .error hvm fun _ _ h => by cases h
      | ok found =>
        obtain ⟨r, h⟩ := found
        let closure : Closure := ⟨u, (vm.heap.unit u).entry, some c⟩
        obtain ⟨rfl, rfl⟩ : r = (vm.heap.functions.add closure).1 ∧
            h = { vm.heap with functions := (vm.heap.functions.add closure).2 } := by
          simp only [Heap.entryFunction] at hfound
          split at hfound
          · cases hfound
            exact ⟨rfl, rfl⟩
          · cases hfound
        let made : Vm σ :=
          { vm with heap := { vm.heap with functions := (vm.heap.functions.add closure).2 } }
        have hmade : made.heap.Tracked := hvm.addFunction closure
        have hentry : (Value.function (vm.heap.functions.add closure).1).Among made.heap.Runnable :=
          Value.among_function.mpr (Heap.closureOf_add closure hu)
        have hargs' : Value.AllAmong made.heap.Runnable args :=
          hargs.mono fun _ hr => hr.add closure
        exact executeNew_carried hhost hmade hentry hargs' none fuel
    cases context with
    | some c => exact hentered c vm hvm hrequest.1 hrequest.2
    | none =>
      let made : Vm σ := { vm with heap := (vm.heap.newContext none).2 }
      have hmade : made.heap.Tracked := hvm.newContext none
      exact hentered (vm.heap.newContext none).1 made hmade hrequest.1 hrequest.2

/-- The text of a value. -/
theorem stringify_carried (hhost : host.Aligned) (hvm : vm.heap.Tracked) {v : Value}
    (hv : v.Among vm.heap.Runnable) (fuel : Nat) :
    Carried (.track σ) (fun _ _ => True) (stringify host fuel v vm) := by
  unfold stringify
  split
  · exact .ok hvm trivial
  · rw [bind_apply, get_apply]
    dsimp only
    cases hmethod : vm.heap.metamethod v "__str" with
    | none => exact .ok hvm trivial
    | some method =>
      have hrequest : (Request.call method [v]).Among vm.heap :=
        ⟨hvm.closed.metamethod hmethod, .cons hv .nil⟩
      refine (request_carried hhost hvm hrequest fuel).bind fun results vm' hvm' _ => ?_
      split <;> exact .ok hvm' trivial

end Vm

/-! ### Assembled code -/

/-- A unit of assembled functions can be run as soon as it is there. -/
theorem Heap.loaded_of_assembled {h : Heap} {u : Ref .unit} (hu : h.units.Holds u)
    (hassembled : (h.unit u).Assembled) : h.Loaded u :=
  ⟨hu, fun p hp => (hassembled p hp).wellFormed⟩

/-- **Where no function is active and all closures come from assembled units**, the heap is on
track. -/
theorem Heap.tracked_of_assembled {h : Heap} (hidle : h.All fun c => c.memory.frames.toList = [])
    (hclosures : h.Among fun r => h.functions.Holds r ∧ h.units.Holds (h.function r).unit ∧
      (h.unit (h.function r).unit).Assembled) : h.Tracked := by
  refine ⟨⟨hclosures.mono fun r hr => ⟨hr.1, loaded_of_assembled hr.2.1 hr.2.2⟩,
    rfl⟩, ?_⟩
  exact fun q hq => ⟨fun f hf => absurd hf (hidle q hq ▸ List.not_mem_nil),
    fun _ => hidle q hq⟩

theorem Heap.tracked_empty : Heap.empty.Tracked :=
  tracked_of_assembled (fun _ hq => absurd hq (Nat.not_lt_zero _)) .empty

/-- **Assembled code runs on track.**

A branch leads to the place where its label was last marked, and that is a boundary of the code; and
the code can be run.  In a heap on track, whatever is requested of assembled code, all frames that
occur stand at boundaries of their code, and no fault is about code: not of the request, not of a
resume, not of a single step.  A heap is on track if no function is active and all closures come
from assembled units, and it stays so when units are loaded. -/
theorem assembled_code_on_track {host : Host σ} (hhost : host.Aligned) :
    -- assembled functions
    (∀ name cs d p, (Draft.new name).calls cs = .ok d → (∀ c ∈ cs, c.direct) →
      d.build = .ok p →
      p.code.size < 2 ^ 31 →
      p.Assembled ∧ WellFormed p.code ∧
      ∀ b op label a, cs = b ++ .branch op label :: a →
        ∃ before ins, (Draft.new name).calls b = .ok before ∧
          decode p.code before.position = .ok ins ∧ ins.op = some op ∧
          ∃ b' a' marked, cs = b' ++ .mark label :: a' ∧ .mark label ∉ a' ∧
            (Draft.new name).calls b' = .ok marked ∧
            Int64.ofNat ins.next + ins.imm = Int64.ofNat marked.position ∧
            Boundary p.code marked.position) ∧
    (∀ strings listings entry u, Listing.assembleUnit strings listings entry = .ok u →
      (∀ listing ∈ listings, listing.locals < UInt64.size ∧ ∀ s ∈ listing.steps,
        s.direct) →
      (∀ p ∈ u.prototypes, p.code.size < 2 ^ 31) → u.Assembled) ∧
    -- heaps
    (∀ h : Heap, (h.All fun c => c.memory.frames.toList = []) →
      (h.Among fun r => h.functions.Holds r ∧ h.units.Holds (h.function r).unit ∧
        (h.unit (h.function r).unit).Assembled) → h.Tracked) ∧
    (∀ h : Heap, h.Tracked → ∀ u : CodeUnit, (h.newUnit u).2.Tracked ∧
      (u.Assembled → (h.newUnit u).2.Loaded (h.newUnit u).1)) ∧
    -- runs
    ∀ vm : Vm σ, vm.heap.Tracked →
      (∀ fuel (request : Request), request.Among vm.heap →
        Vm.Kept (fun h vs => Value.AllAmong h.Runnable vs) (request.run host fuel vm)) ∧
      (∀ fuel v, v.Among vm.heap.Runnable →
        Vm.Kept (fun _ _ => True) (Vm.stringify host fuel v vm)) ∧
      ∀ args, Value.AllAmong vm.heap.Runnable args →
        (∀ fuel floor head, Vm.Head.LeadsAbove host floor ⟨fuel, args, vm⟩ head →
          head.vm.heap.Tracked ∧ Value.AllAmong head.vm.heap.Runnable head.values) ∧
        (∀ fuel r, Vm.Kept (fun h e => e.Among h.Runnable)
          (Coroutine.resume host fuel r args vm)) ∧
        ∀ r M, vm.Runs host r args M →
          (∀ f ∈ M.memory.frames.toList, ∀ q c, f.activity = .bytecode q c →
            Boundary (M.heap.prototype q).code f.ip ∧
            Boundary (M.heap.prototype q).code f.nextIp) ∧
          ∀ f N, Exec.step host M = .error (.fault f) N → f.ofCode = false := by
  refine ⟨?_, ?_, fun h => Heap.tracked_of_assembled, fun h hh u => ⟨hh.newUnit u, ?_⟩, ?_⟩
  · intro name cs d p hcalls hdirect hbuild hshort
    refine ⟨⟨hshort, name, d, ⟨cs, hcalls, hdirect⟩, hbuild⟩,
      Draft.wellFormed_build hcalls hdirect hbuild hshort, ?_⟩
    rintro b op label a rfl
    exact Draft.branch_lands hcalls hbuild hshort
  · intro strings listings entry u hunit hlistings hshort
    exact Listing.assembled_unit hunit (fun l hl => (hlistings l hl).1)
      (fun l hl => (hlistings l hl).2) hshort
  · intro hu
    refine Heap.loaded_of_assembled ?_ ?_
    · show h.units.size < (h.units.add u).2.size
      rw [Store.size_add]
      exact Nat.lt_succ_self _
    · show ((h.units.add u).2.get (h.units.add u).1).Assembled
      rw [h.units.get_add_self u]
      exact hu
  · intro vm hvm
    let K := Vm.track hhost
    have hvm' : K.holds vm.heap vm.state := hvm
    refine ⟨fun fuel request hrequest => (Vm.request_carried hhost hvm hrequest fuel).kept,
      fun fuel v hv => (Vm.stringify_carried hhost hvm hv fuel).kept,
      fun args hargs => ⟨?_, ?_, ?_⟩⟩
    · exact fun fuel floor head leads => K.leads leads hvm hargs
    · intro fuel r
      have hresume := K.resume hvm' hargs fuel r
      exact ⟨hresume.holds, fun e vm' h => Exit.among_iff.mpr (hresume.answer e vm' h),
        hresume.faults⟩
    · intro r M runs
      have hM : M.Tracked := K.runs hvm' hargs runs
      refine ⟨fun f hf q c hactivity => ?_, (Exec.step_carried hhost hM).faults⟩
      exact ⟨(hM.track f hf q c hactivity).ip, (hM.track f hf q c hactivity).nextIp⟩

/-! ### Hosts made of scripts -/

namespace Scripted

variable {h : Heap}

/-- A script of a system call that moves no frame to another place. -/
def SyscallScript.still : SyscallScript → Bool
  | .setNextIp _ => false
  | _ => true

theorem spared_sumOf (h : Heap) (total : Int64) (vs : List Value) :
    Fault.Spared (sumOf h total vs) := by
  induction vs generalizing total with
  | nil =>
    intro f hf
    cases hf
  | cons v vs ih =>
    intro f hf
    rw [sumOf] at hf
    cases hv : h.integer v with
    | error g =>
      rw [hv] at hf
      cases hf
      exact Fault.spared_integer h v _ hv
    | ok i =>
      rw [hv] at hf
      exact ih _ f hf

theorem spared_runPure (h : Heap) (args : List Value) (script : PureScript) :
    Fault.Spared (runPure h args script) := by
  intro f hf
  cases script with
  | sum =>
    simp only [runPure, Except.map] at hf
    split at hf
    · next hsum =>
      cases hf
      exact spared_sumOf h 0 args _ hsum
    · cases hf
  | fail vs =>
    cases hf
    rfl
  | _ => cases hf

theorem spared_runEffect (scene : Scene) (args : List Value) (events : Array Event)
    (script : EffectScript) : Fault.Spared (runEffect scene args events script).1 := by
  intro f hf
  cases script with
  | fail vs =>
    cases hf
    rfl
  | _ => cases hf

theorem spared_runAsync (h : Heap) (script : List AsyncScript) (history : List (List Value)) :
    Fault.Spared (runAsync h script history) := by
  intro f hf
  unfold runAsync at hf
  dsimp only at hf
  split at hf
  · cases hf
  · split at hf
    · cases hf
    · cases hf
    · next pick hpicked =>
      cases hcoroutine : h.asCoroutine
          (pick.eval (history.getLast?.getD []) (savedArgs script history)) with
      | error g =>
        rw [hcoroutine] at hf
        cases hf
        exact Fault.spared_asCoroutine h _ _ hcoroutine
      | ok r =>
        rw [hcoroutine] at hf
        cases hf
    · cases hf
    · cases hf
      rfl

theorem onTrack_runSyscallStep {memory : Stacks} (events : Array Event) {step : SyscallScript}
    (hstep : step.still) (htrack : memory.OnTrack h) :
    (runSyscallStep h memory events step).memory.OnTrack h := by
  cases step with
  | pop =>
    unfold runSyscallStep
    cases memory.values.pop <;> exact htrack
  | popDelimiter =>
    unfold runSyscallStep
    cases memory.delimiters.pop <;> exact htrack
  | setNextIp n => cases hstep
  | setReturnSize n =>
    intro f hf
    rcases Stack.mem_modifyLast hf with hold | ⟨g, hg, rfl⟩
    · exact htrack f hold
    · rw [Stack.last?_eq_getLast?] at hg
      intro r c hactivity
      have hstands := htrack g (List.mem_of_getLast? hg) r c hactivity
      exact ⟨hstands.ip, hstands.nextIp, hstands.pending⟩
  | _ => exact htrack

/-- **Scripts without closures of their own** do not touch the code, if no system call moves a frame
to another place. -/
theorem Library.aligned {library : Library} (hlibrary : library.plain)
    {syscalls : Fin 8 → Option (List SyscallScript)}
    (hplain : ∀ i script, syscalls i = some script → script.all SyscallScript.plain)
    (hstill : ∀ i script, syscalls i = some script → script.all SyscallScript.still) :
    (library.host syscalls).Aligned where
  fair := by
    constructor
    · intro r h args
      dsimp only [host]
      split
      · exact spared_runPure h args _
      · exact fun f hf => by cases hf
    · intro r scene args state
      dsimp only [host]
      split
      · exact spared_runEffect scene args state _
      · exact fun f hf => by cases hf
    · exact fun r object h history state => spared_runAsync h _ history
  honest := Library.honest hlibrary hplain Prototype.Runnable
  track := by
    intro i call hcall h memory state htrack
    obtain ⟨script, hscript, rfl⟩ := Option.map_eq_some_iff.mp hcall
    have hall := List.all_eq_true.mp (hstill i script hscript)
    exact runSyscall_keeps script
      (fun m e s hs => onTrack_runSyscallStep e (hall s hs)) state htrack

end Scripted

/-! ### A countdown -/

/-- Its argument is counted down in a loop, by what the system call answers. -/
def Listing.countdown : Listing where
  name := "countdown"
  locals := 1
  declared := []
  steps := [
    .loadArgument 0, .storeLocal 0,
    .mark "again", .loadLocal 0, .loadInt 0, .emit (.binary .gtr) 0,
    .branch (.branch .falsy .long) "done",
    .loadLocal 0, .syscall 0, .emit (.binary .sub) 0, .storeLocal 0,
    .branch (.branch .always .long) "again",
    .mark "done", .emit (.control .delimit) 0, .loadLocal 0, .emit (.control .ret) 0]

/-- The unit of the countdown. -/
def CodeUnit.countdown : CodeUnit :=
  ((Listing.assembleUnit [] [.countdown] 0).toOption).getD default

/-- A host whose system calls are all the same. -/
def Scripted.calling (script : List SyscallScript) : Host (Array Event) :=
  (default : Library).host fun _ => some script

/-- The countdown is loaded.  It is asked for, and a coroutine over it is resumed. -/
theorem assembled_code_on_track_countdown :
    let host := Scripted.calling [.push (.int 1)]
    let vm : Vm (Array Scripted.Event) := { Vm.new .standard #[] with
      heap := (Heap.empty.newUnit .countdown).2 }
    let request := Request.unit ⟨0⟩ [.int 3] none
    let result := request.run host 200 vm
    let made : Vm (Array Scripted.Event) := { vm with
      heap :=
        ({ vm.heap with functions := (vm.heap.functions.add ⟨⟨0⟩, 0, none⟩).2 }.newCoroutine
        (.new (.function ⟨0⟩) none .standard)).2 }
    host.Aligned ∧ CodeUnit.countdown.Assembled ∧ vm.heap.Tracked ∧
      request.Among vm.heap ∧ Vm.Kept (fun h vs => Value.AllAmong h.Runnable vs) result ∧
      Vm.values? result = some [.int 0] ∧ made.heap.Tracked ∧
      ∃ M, made.Runs host ⟨0⟩ [.int 3] M ∧ ∃ f ∈ M.memory.frames.toList,
        f.activity = .bytecode ⟨0⟩ ⟨0⟩ ∧
        Boundary (M.heap.prototype ⟨0⟩).code f.nextIp := by
  intro host vm request result made
  have hhost : host.Aligned := by
    refine Scripted.Library.aligned (by decide +kernel) ?_ ?_ <;>
    · intro i script hscript
      cases hscript
      rfl
  obtain ⟨-, hunits, -, hnew, hruns⟩ := assembled_code_on_track hhost
  have hassembled : CodeUnit.countdown.Assembled := by
    have hunit : Listing.assembleUnit [] [.countdown] 0 = .ok .countdown := by decide +kernel
    exact hunits [] [.countdown] 0 _ hunit (by decide +kernel) (by decide +kernel)
  obtain ⟨hvm, hloaded⟩ := hnew .empty Heap.tracked_empty .countdown
  have hargs (good : Ref .function → Prop) : Value.AllAmong good [.int 3] :=
    .cons (Value.among_int 3) .nil
  have hrequest : request.Among vm.heap := ⟨hloaded hassembled, hargs _⟩
  have hmade : made.heap.Tracked := by
    refine (hvm.addFunction ⟨⟨0⟩, 0, none⟩).newCoroutine ?_ none .standard
    exact Value.among_function.mpr (Heap.closureOf_add _ (hloaded hassembled))
  have hbegin : ∃ M, Coroutine.begin host made ⟨0⟩ [.int 3] = .ok () M ∧
      M.memory.frames.toList.map Frame.activity = [.bytecode ⟨0⟩ ⟨0⟩] := ⟨_, rfl, rfl⟩
  obtain ⟨M, hbegin, hactivities⟩ := hbegin
  obtain ⟨f, hf, hactivity⟩ := List.mem_map.mp (hactivities ▸ List.mem_singleton_self _)
  have hplaces := ((hruns made hmade).2.2 [.int 3] (hargs _)).2.2 ⟨0⟩ M (.begun hbegin)
  refine ⟨hhost, hassembled, hvm, hrequest,
    (hruns vm hvm).1 200 request hrequest, by decide +kernel,
    hmade, M, .begun hbegin, f, hf, hactivity, (hplaces.1 f hf ⟨0⟩ ⟨0⟩ hactivity).2⟩

/-- A function of two instructions, the first of them a system call. -/
def Listing.calling : Listing where
  name := "calling"
  locals := 0
  declared := []
  steps := [.syscall 0, .emit (.control .ret) 0]

/-- A system call moves the frame behind the end of its code, and the next fetch is a fault. -/
theorem assembled_code_derailed :
    let unit := ((Listing.assembleUnit [] [.calling] 0).toOption).getD default
    let vm : Vm (Array Scripted.Event) := { Vm.new .standard #[] with
      heap := (Heap.empty.newUnit unit).2 }
    let result := Request.run (Scripted.calling [.setNextIp 999]) 20 (.unit ⟨0⟩ [] none) vm
    Listing.assembleUnit [] [.calling] 0 = .ok unit ∧ unit.Assembled ∧ vm.heap.Tracked ∧
      ∃ f trace, Vm.failure? result = some (.runtime f trace) ∧ f.ofCode = true := by
  intro unit vm result
  have hunit : Listing.assembleUnit [] [.calling] 0 = .ok unit := by decide +kernel
  have hassembled : unit.Assembled :=
    Listing.assembled_unit hunit (by decide +kernel) (by decide +kernel) (by decide +kernel)
  have hfault : Vm.failure? result = some (.runtime (.invalidInstructionPointer 999 2)
      [⟨"calling", 999⟩]) := by decide +kernel
  exact ⟨hunit, hassembled, Heap.tracked_empty.newUnit unit, _, _, hfault, rfl⟩

end ScriptVm
