import ScriptVm.Proofs.Passing

/-!
# What runs carry on

Values go from one coroutine to another: those that a coroutine is resumed with, and
those that leave it with control.  An invariant that speaks of them as well is
upheld by a run if the opening of every resume and every step uphold it, and the
values that leave with a step are again as they have to be (`Vm.Carrying`).  Faults
that are passed on may be of some sort too.

Main statements: `Vm.Carrying.resume`, `Vm.Carrying.leads` (the heads of a run),
`Vm.Carrying.execute` (whole runs) and `Vm.Carrying.runs` (the machines in between).
-/

namespace ScriptVm

variable {σ α β : Type}

/-- The values that leave a coroutine with control. -/
def Exit.values : Exit → List Value
  | finished vs | yielded vs | switched _ vs => vs

theorem Exit.among_iff {good : Ref .function → Prop} {e : Exit} :
    e.Among good ↔ Value.AllAmong good e.values := by
  cases e <;> exact Iff.rfl

/-- The values that a round leaves. -/
def Round.values : Round → List Value
  | again vs | done vs => vs

/-- **What is known** of the heap and the host when no coroutine runs, of the machine while one
does, of the values that go from one to another, and of the faults that are passed on. -/
structure Vm.Terms (σ : Type) where
  holds : Heap → σ → Prop
  running : Machine σ → Prop
  carries : Heap → List Value → Prop
  spares : Fault → Prop

/-- What is known when a computation of a machine ends. -/
structure Exec.Carried (K : Vm.Terms σ) (post : Heap → α → Prop)
    (result : EStateM.Result Stop (Machine σ) α) : Prop where
  running : K.running (last result)
  answer : ∀ a N, result = .ok a N → post N.heap a
  faults : ∀ f N, result = .error (.fault f) N → K.spares f

/-- **What is carried on** by the opening of every resume and by every step, when a coroutine is put
back with its stacks or without, and when one is made resumable. -/
structure Vm.Carrying (host : Host σ) extends Vm.Terms σ where
  begin : ∀ {vm : Vm σ} {args : List Value} (r : Ref .coroutine), holds vm.heap vm.state →
    carries vm.heap args → Exec.Carried toTerms (fun _ _ => True) (Coroutine.begin host vm r args)
  step : ∀ {M : Machine σ}, running M →
    Exec.Carried toTerms (fun h exit => ∀ e, exit = some e → carries h e.values)
      (Exec.step host M)
  stop : ∀ {M : Machine σ} (r : Ref .coroutine) (state : Lifecycle) {memory : Stacks},
    state ≠ .initial → running M → memory = M.memory ∨ memory = M.memory.clear →
    holds (Coroutine.checkIn r state memory M.heap) M.state
  ready : ∀ {h : Heap} {s : σ} (r : Ref .coroutine), holds h s →
    holds (Coroutine.setResumable r h) s
  /-- The values are what they are, whatever becomes of a coroutine. -/
  stays : ∀ {h : Heap} {vs : List Value} (r : Ref .coroutine) (φ : Coroutine → Coroutine),
    carries h vs → carries (h.modifyCoroutine r φ) vs

namespace Vm

variable {host : Host σ} {vm : Vm σ} {r : Ref .coroutine} {args : List Value} {M : Machine σ}

/-- What is known when a computation of the scheduler ends. -/
structure Carried (K : Terms σ) (post : Heap → α → Prop)
    (result : EStateM.Result Failure (Vm σ) α) : Prop where
  holds : K.holds (last result).heap (last result).state
  answer : ∀ a vm', result = .ok a vm' → post vm'.heap a
  faults : ∀ f trace vm', result = .error (.runtime f trace) vm' → K.spares f

namespace Carried

variable {K : Terms σ} {post : Heap → α → Prop}

theorem bind {x : Schedule σ α} {f : α → Schedule σ β} {post' : Heap → β → Prop}
    (hx : Carried K post (x vm))
    (hf : ∀ a vm', K.holds vm'.heap vm'.state → post vm'.heap a → Carried K post' (f a vm')) :
    Carried K post' ((x >>= f) vm) := by
  rw [bind_apply]
  generalize x vm = result at hx
  cases result with
  | error e vm' =>
    refine ⟨hx.holds, (fun _ _ h => by cases h), fun f trace _ h => ?_⟩
    cases h
    exact hx.faults f trace vm' rfl
  | ok a vm' => exact hf a vm' hx.holds (hx.answer a vm' rfl)

theorem ok {a : α} (hvm : K.holds vm.heap vm.state) (ha : post vm.heap a) :
    Carried K post (.ok a vm) := by
  refine ⟨hvm, fun b vm' h => ?_, fun _ _ _ h => by cases h⟩
  cases h
  exact ha

theorem error {e : Failure} (hvm : K.holds vm.heap vm.state)
    (he : ∀ f trace, e = .runtime f trace → K.spares f) : Carried K post (.error e vm) := by
  refine ⟨hvm, (fun _ _ h => by cases h), fun f trace vm' h => ?_⟩
  cases h
  exact he f trace rfl

end Carried

namespace Carrying

variable (K : Carrying host)

/-! ### Coroutines -/

/-- The machines between the steps of a coroutine. -/
theorem runs (hvm : K.holds vm.heap vm.state) (hargs : K.carries vm.heap args)
    (runs : vm.Runs host r args M) : K.running M := by
  induction runs with
  | begun begins =>
    have hbegin := (K.begin r hvm hargs).running
    rw [begins] at hbegin
    exact hbegin
  | goes _ step ih =>
    have hstep := (K.step ih).running
    rw [step] at hstep
    exact hstep

/-- **A run of any length.** -/
theorem run (fuel : Nat) (hM : K.running M) :
    Exec.Carried K.toTerms (fun h e => K.carries h e.values) (Exec.run host fuel M) := by
  induction fuel generalizing M with
  | zero => exact ⟨hM, (fun _ _ h => by cases h), fun _ _ h => by cases h⟩
  | succ fuel ih =>
    have hstep := K.step hM
    rw [Exec.run, Exec.bind_apply]
    generalize Exec.step host M = result at hstep
    cases result with
    | error e N =>
      refine ⟨hstep.running, (fun _ _ h => by cases h), fun f N' h => ?_⟩
      cases h
      exact hstep.faults f N rfl
    | ok exit N =>
      cases exit with
      | none => exact ih hstep.running
      | some e =>
        refine ⟨hstep.running, fun e' N' h => ?_, fun _ _ h => by cases h⟩
        cases h
        exact hstep.answer (some e) N rfl e rfl

variable (hvm : K.holds vm.heap vm.state) (hargs : K.carries vm.heap args)
include hvm hargs

/-- **A resume**, whether it is refused or not. -/
theorem resume (fuel : Nat) (r : Ref .coroutine) :
    Carried K.toTerms (fun h e => K.carries h e.values) (Coroutine.resume host fuel r args vm) := by
  by_cases haccepted : Coroutine.canResume (vm.heap.coroutine r).state
  · have hbody : Exec.Carried K.toTerms (fun h e => K.carries h e.values)
        (Coroutine.body host fuel (vm.heap.coroutine r).state (vm.heap.coroutine r).entry
          (vm.heap.coroutine r).entryContext args (Coroutine.checkOut r vm.heap vm.state)) := by
      have hbegin := K.begin r hvm hargs
      rw [Coroutine.body_eq, Exec.bind_apply]
      unfold Coroutine.begin at hbegin
      generalize Coroutine.opening host _ _ _ args _ = result at hbegin
      cases result with
      | error e M =>
        refine ⟨hbegin.running, (fun _ _ h => by cases h), fun f N h => ?_⟩
        cases h
        exact hbegin.faults f M rfl
      | ok u M => exact K.run fuel hbegin.running
    unfold Coroutine.resume
    dsimp only
    rw [if_pos haccepted]
    generalize Coroutine.body host fuel _ _ _ args _ = result at hbody
    cases result with
    | ok exit M =>
      refine ⟨K.stop r _ (by cases exit <;> nofun) hbody.running (.inl rfl), fun e vm' h => ?_,
        fun _ _ _ h => by cases h⟩
      cases h
      exact K.stays r _ (hbody.answer exit M rfl)
    | error e M =>
      cases e with
      | fault f =>
        refine ⟨K.stop r .stopped nofun hbody.running (.inr rfl), (fun _ _ h => by cases h),
          fun f' _ _ h => ?_⟩
        cases h
        exact hbody.faults f M rfl
      | defect d =>
        exact ⟨K.stop r .running nofun hbody.running (.inl rfl), (fun _ _ h => by cases h),
          fun _ _ _ h => by cases h⟩
      | exhausted =>
        exact ⟨K.stop r .running nofun hbody.running (.inl rfl), (fun _ _ h => by cases h),
          fun _ _ _ h => by cases h⟩
  · rw [Coroutine.resume_refused host fuel args haccepted]
    exact ⟨hvm, (fun _ _ h => by cases h), fun _ _ _ h => by cases h⟩

/-! ### The scheduler -/

omit hargs in
/-- The coroutine below goes on with what the top one has left. -/
theorem readyTop (hargs : K.carries vm.heap args) :
    Carried K.toTerms (fun h next => K.carries h next.values)
      ((Vm.readyTop >>= fun _ => pure (.again args) : Schedule σ Round) vm) := by
  obtain ⟨heap, state, config, active⟩ := vm
  cases active with
  | nil => exact .ok hvm hargs
  | cons top below => exact .ok (K.ready top hvm) (K.stays top _ hargs)

/-- **One round of the scheduler.** -/
theorem round (floor fuel : Nat) :
    Carried K.toTerms (fun h next => K.carries h next.values)
      (Vm.round host floor fuel args vm) := by
  rw [Vm.round, bind_apply, get_apply]
  dsimp only
  cases vm.active with
  | nil => exact .ok hvm hargs
  | cons top below =>
    refine (K.resume hvm hargs fuel top).bind fun exit vm' hvm' hexit => ?_
    -- the top coroutine is taken off when it has come back
    let retired : Vm σ := { vm' with active := vm'.active.tail }
    have hretired : K.holds retired.heap retired.state := hvm'
    cases exit with
    | switched next args => exact .ok hvm' hexit
    | finished results =>
      show Carried _ _
        ((if below.length ≤ floor then pure (.done results) else _ : Schedule σ Round) retired)
      split
      · exact .ok hvm' hexit
      · exact K.readyTop hretired hexit
    | yielded results =>
      show Carried _ _ ((if below.length ≤ floor then throw (.usage .yieldFromRoot) else _ :
        Schedule σ Round) retired)
      split
      · exact .error hvm' fun _ _ h => by cases h
      · exact K.readyTop hretired hexit

omit hvm hargs in
/-- **The heads of a run.** -/
theorem leads {floor : Nat} {first head : Head σ} (leads : first.LeadsAbove host floor head)
    (hvm : K.holds first.vm.heap first.vm.state) (hvalues : K.carries first.vm.heap first.values) :
    K.holds head.vm.heap head.vm.state ∧ K.carries head.vm.heap head.values := by
  induction leads with
  | refl => exact ⟨hvm, hvalues⟩
  | @tail b c _ next ih =>
    have hround := K.round ih.1 ih.2 floor c.fuel
    rw [next.2] at hround
    exact ⟨hround.holds, hround.answer _ c.vm rfl⟩

/-- A run from one of its heads on. -/
theorem loop (floor fuel : Nat) :
    Carried K.toTerms K.carries (Vm.loop host floor fuel args vm) := by
  induction fuel generalizing args vm with
  | zero => exact .error hvm fun _ _ h => by cases h
  | succ fuel ih =>
    rw [loop_succ]
    refine (K.round hvm hargs floor fuel).bind fun next vm' hvm' hnext => ?_
    cases next with
    | done results => exact .ok hvm' hnext
    | again values' => exact ih hvm' hnext

/-- **A whole run.** -/
theorem execute (fuel : Nat) (root : Ref .coroutine) :
    Carried K.toTerms K.carries (Vm.execute host fuel root args vm) := by
  let started : Vm σ := { vm with active := root :: vm.active }
  have hstarted : K.holds started.heap started.state := hvm
  have hloop := K.loop hstarted hargs vm.active.length fuel
  unfold Vm.execute
  dsimp only
  generalize Vm.loop host _ fuel args _ = result at hloop
  cases result with
  | ok values vm' => exact ⟨hloop.holds, hloop.answer, hloop.faults⟩
  | error e vm' =>
    cases e with
    | runtime f trace =>
      refine .error hloop.holds fun f' trace' h => ?_
      cases h
      exact hloop.faults f trace vm' rfl
    | usage e => exact .error hloop.holds fun _ _ h => by cases h
    | defect d => exact hloop
    | exhausted => exact hloop

end Carrying

end Vm

end ScriptVm
