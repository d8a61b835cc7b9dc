import ScriptVm.Proofs.Departure
import ScriptVm.Proofs.Safety

/-!
# A coroutine is resumed

A resume is refused, or it takes the coroutine out of the heap, lets it run and
brings it back in another state.  In between the heap knows it as running, and
that is what an effectful function sees that is called meanwhile.  All other
coroutines stay as they are, whatever the program does and whatever the host's
system calls do to the stacks.

Main statements: `Coroutine.resumed` (what a resume can come to),
`Heap.Turned.of_grows` (what it has done to the heap), `Vm.During.grows` (the
heaps that occur meanwhile).
-/

namespace ScriptVm

variable {σ : Type}

/-! ### Coroutines on the heap -/

namespace Heap

@[simp] theorem holds_modifyCoroutine {h : Heap} {r q : Ref .coroutine}
    {φ : Coroutine → Coroutine} :
    (h.modifyCoroutine r φ).coroutines.Holds q ↔ h.coroutines.Holds q := by
  simp [modifyCoroutine, Store.Holds]

theorem coroutine_modify_self {h : Heap} {r : Ref .coroutine} (hr : h.coroutines.Holds r)
    (φ : Coroutine → Coroutine) : (h.modifyCoroutine r φ).coroutine r = φ (h.coroutine r) :=
  Store.get_modify_self _ _ _ hr

theorem coroutine_modify_of_ne {h : Heap} {r q : Ref .coroutine} (hq : q ≠ r)
    (φ : Coroutine → Coroutine) : (h.modifyCoroutine r φ).coroutine q = h.coroutine q :=
  Store.get_modify_of_ne _ _ hq

/-- A reference that leads nowhere reads as a coroutine that cannot run. -/
theorem coroutine_of_not_holds {h : Heap} {r : Ref .coroutine} (hr : ¬ h.coroutines.Holds r) :
    h.coroutine r = .new .nil none .standard := by
  have hr' : ¬ r.index < h.coroutines.cells.size := hr
  simp [coroutine, Store.get, Array.getD, hr', default]

theorem Grows.holds {h h' : Heap} (hgrows : h.Grows h') {q : Ref .coroutine}
    (hq : h.coroutines.Holds q) : h'.coroutines.Holds q := by
  obtain ⟨made, hcells, -⟩ := hgrows
  have hlen := congrArg List.length hcells
  simp only [Array.length_toList, List.length_append] at hlen
  have hq' : q.index < h.coroutines.cells.size := hq
  show q.index < h'.coroutines.cells.size
  omega

/-- A coroutine of a heap that has grown was there before, or is new. -/
theorem Grows.fresh {h h' : Heap} (hgrows : h.Grows h') {q : Ref .coroutine}
    (hq : h'.coroutines.Holds q) :
    h.coroutines.Holds q ∨ ∃ entry config, h'.coroutine q = .new entry none config := by
  obtain ⟨made, hcells, hmade⟩ := hgrows
  by_cases hold : h.coroutines.Holds q
  · exact .inl hold
  · have hq' : q.index < h'.coroutines.cells.size := hq
    have hnew : h.coroutines.cells.toList.length ≤ q.index := by
      rw [Array.length_toList]
      exact Nat.le_of_not_lt hold
    have hcell : made[q.index - h.coroutines.cells.toList.length]? = some (h'.coroutine q) := by
      rw [← List.getElem?_append_right hnew, ← hcells]
      simp [Heap.coroutine, Store.get, Array.getD, hq']
    exact .inr (hmade _ (List.mem_of_getElem? hcell))

theorem holds_newCoroutine {h : Heap} {c : Coroutine} {q : Ref .coroutine}
    (hq : h.coroutines.Holds q) : (h.newCoroutine c).2.coroutines.Holds q := by
  have hlt : q.index < h.coroutines.size := hq
  simp only [Store.Holds, newCoroutine, Store.size_add]
  omega

/-- A coroutine of a heap with one more was there before, or is that one. -/
theorem fresh_newCoroutine {h : Heap} {c : Coroutine} {q : Ref .coroutine}
    (hq : (h.newCoroutine c).2.coroutines.Holds q) :
    (h.coroutines.Holds q ∧ (h.newCoroutine c).2.coroutine q = h.coroutine q) ∨
      (h.newCoroutine c).2.coroutine q = c := by
  by_cases hold : h.coroutines.Holds q
  · exact .inl ⟨hold, Store.get_add_of_holds _ _ hold⟩
  · have hlast : q = (h.coroutines.add c).1 := by
      have hlt : q.index < h.coroutines.cells.size + 1 := by
        simpa [Store.Holds, Store.size, Heap.newCoroutine, Store.add] using hq
      have hge : ¬ q.index < h.coroutines.cells.size := hold
      obtain ⟨i⟩ := q
      simp only [Store.add, Ref.mk.injEq]
      simp only at hlt hge
      omega
    rw [hlast]
    exact .inr (Store.get_add_self _ _)

/-- **What a resume does to the heap.**  The coroutine is in a new state and has other stacks; all
others are as they were, and any that were made meanwhile have never been resumed. -/
structure Turned (h : Heap) (r : Ref .coroutine) (state : Lifecycle) (memory : Stacks) (h' : Heap) :
    Prop where
  keeps : ∀ q, h.coroutines.Holds q → h'.coroutines.Holds q
  self : h'.coroutines.Holds r → (h'.coroutine r).state = state ∧
    (h'.coroutine r).memory = memory
  others : h.SameBut r h'
  fresh : ∀ q, q ≠ r → h'.coroutines.Holds q →
    h.coroutines.Holds q ∨ ∃ entry config, h'.coroutine q = .new entry none config

theorem Turned.of_grows {h h₁ : Heap} {r : Ref .coroutine} {s : σ}
    (hgrows : (Coroutine.checkOut r h s).heap.Grows h₁) (state : Lifecycle) (memory : Stacks) :
    h.Turned r state memory (Coroutine.checkIn r state memory h₁) where
  keeps q hq := holds_modifyCoroutine.mpr (hgrows.holds (holds_modifyCoroutine.mpr hq))
  self hr := by
    rw [Coroutine.checkIn, coroutine_modify_self (holds_modifyCoroutine.mp hr)]
    exact ⟨rfl, rfl⟩
  others := .resumed hgrows
  fresh q hne hq := by
    rcases hgrows.fresh (holds_modifyCoroutine.mp hq) with hold | ⟨entry, config, hnew⟩
    · exact .inl (holds_modifyCoroutine.mp hold)
    · exact .inr ⟨entry, config, (coroutine_modify_of_ne hne _).trans hnew⟩

/-- Every coroutine of the heap has a property. -/
def All (P : Coroutine → Prop) (h : Heap) : Prop :=
  ∀ q, h.coroutines.Holds q → P (h.coroutine q)

namespace All

variable {P : Coroutine → Prop} {h h' : Heap}

theorem of_coroutines_eq (hall : h.All P) (heq : h'.coroutines = h.coroutines) : h'.All P := by
  intro q hq
  rw [Heap.coroutine, heq]
  exact hall q (by rwa [heq] at hq)

theorem grows (hall : h.All P) (hgrows : h.Grows h')
    (hnew : ∀ entry config, P (.new entry none config)) : h'.All P := by
  intro q hq
  rcases hgrows.fresh hq with hold | ⟨entry, config, hmade⟩
  · rw [hgrows.coroutine hold]
    exact hall q hold
  · rw [hmade]
    exact hnew entry config

theorem modify (hall : h.All P) {r : Ref .coroutine} {φ : Coroutine → Coroutine}
    (hφ : h.coroutines.Holds r → P (φ (h.coroutine r))) : (h.modifyCoroutine r φ).All P := by
  intro q hq
  have hold := holds_modifyCoroutine.mp hq
  by_cases hne : q = r
  · subst hne
    rw [coroutine_modify_self hold]
    exact hφ hold
  · rw [coroutine_modify_of_ne hne]
    exact hall q hold

/-- One more coroutine. -/
theorem newCoroutine (hall : h.All P) {c : Coroutine} (hc : P c) : (h.newCoroutine c).2.All P := by
  intro q hq
  rcases fresh_newCoroutine hq with ⟨hold, hread⟩ | hread
  · rw [hread]
    exact hall q hold
  · rwa [hread]

/-- A coroutine was resumed. -/
theorem turned (hall : h.All P) {r : Ref .coroutine} {state : Lifecycle} {memory : Stacks}
    (hturned : h.Turned r state memory h') (hnew : ∀ entry config, P (.new entry none config))
    (hself : h'.coroutines.Holds r → P (h'.coroutine r)) : h'.All P := by
  intro q hq
  by_cases hne : q = r
  · subst hne
    exact hself hq
  · rcases hturned.fresh q hne hq with hold | ⟨entry, config, hmade⟩
    · rw [hturned.others q hne hold]
      exact hall q hold
    · rw [hmade]
      exact hnew entry config

end All

end Heap

/-! ### What a resume comes to -/

namespace Coroutine

/-- What a coroutine does first when it is resumed in a state: it is started, or gets the values it
is given on top of its stack. -/
def opening (host : Host σ) (state : Lifecycle) (entry : Value) (context : Option (Ref .context))
    (args : List Value) : Exec σ Unit :=
  if state = .initial then start host entry context args else Exec.pushAll args

theorem body_eq (host : Host σ) (fuel : Nat) (state : Lifecycle) (entry : Value)
    (context : Option (Ref .context)) (args : List Value) :
    body host fuel state entry context args
      = opening host state entry context args >>= fun _ => Exec.run host fuel := by
  unfold body opening
  split <;> rfl

/-- A coroutine is taken out of the heap and makes its opening. -/
def begin (host : Host σ) (vm : Vm σ) (r : Ref .coroutine) (args : List Value) :
    EStateM.Result Stop (Machine σ) Unit :=
  opening host (vm.heap.coroutine r).state (vm.heap.coroutine r).entry
    (vm.heap.coroutine r).entryContext args (checkOut r vm.heap vm.state)

/-- Making a coroutine resumable makes none new. -/
theorem eq_initial_of_resumable {state : Lifecycle} (h : resumable state = .initial) :
    state = .initial := by
  cases state <;> first | rfl | cases h

/-- A coroutine that is neither new nor suspended is not resumed, and nothing happens. -/
theorem resume_refused (host : Host σ) (fuel : Nat) {vm : Vm σ} {r : Ref .coroutine}
    (args : List Value) (h : ¬ canResume (vm.heap.coroutine r).state) :
    resume host fuel r args vm
      = .error (.usage (.invalidResume (vm.heap.coroutine r).state)) vm := by
  simp [resume, refusal, h]

end Coroutine

/-- The machines between the steps of a coroutine that is resumed. -/
inductive Vm.Runs (host : Host σ) (vm : Vm σ) (r : Ref .coroutine) (args : List Value) :
    Machine σ → Prop
  | begun {M : Machine σ} (begins : Coroutine.begin host vm r args = .ok () M) :
      Runs host vm r args M
  | goes {M N : Machine σ} (before : Runs host vm r args M)
      (step : Exec.step host M = .ok none N) :
      Runs host vm r args N

/-- Whether a failure is an answer; otherwise the request has not come back. -/
def Failure.Answers : Failure → Prop
  | .runtime _ _ | .usage _ => True
  | .defect _ | .exhausted => False

/-- **What a resume that is not refused can come to.** -/
inductive Vm.Resumed (host : Host σ) (vm : Vm σ) (r : Ref .coroutine) (args : List Value) :
    EStateM.Result Failure (Vm σ) Exit → Prop
  /-- A step has handed control out. -/
  | exits {exit : Exit} {M N : Machine σ} (runs : vm.Runs host r args M)
      (step : Exec.step host M = .ok (some exit) N) :
      Resumed host vm r args (.ok exit { vm with
        heap := Coroutine.checkIn r (Coroutine.stateAfter exit) N.memory N.heap
        state := N.state })
  | faults {f : Fault} {trace : List TraceLine} {N : Machine σ}
      (grows : (Coroutine.checkOut r vm.heap vm.state).heap.Grows N.heap) :
      Resumed host vm r args (.error (.runtime f trace) { vm with
        heap := Coroutine.checkIn r .stopped N.memory.clear N.heap
        state := N.state })
  /-- It has not come back. -/
  | breaks {e : Failure} {N : Machine σ} (unanswered : ¬ e.Answers)
      (grows : (Coroutine.checkOut r vm.heap vm.state).heap.Grows N.heap) :
      Resumed host vm r args (.error e { vm with
        heap := Coroutine.checkIn r .running N.memory N.heap
        state := N.state })

namespace Coroutine

/-- The opening makes moves only. -/
theorem tame_opening (host : Host σ) (state : Lifecycle) (entry : Value)
    (context : Option (Ref .context)) (args : List Value) :
    Exec.Tame host False (opening host state entry context args) := by
  unfold opening
  split
  · refine Exec.Tame.height.bind fun base => (Exec.Tame.pushAll args).bind fun _ => ?_
    split
    · exact Exec.Tame.enter _ base none _
    · exact Exec.Tame.invoke _ base none
  · exact Exec.Tame.pushAll args

theorem begin_grows (host : Host σ) (vm : Vm σ) (r : Ref .coroutine) (args : List Value) :
    (checkOut r vm.heap vm.state).heap.Grows (Exec.last (begin host vm r args)).heap :=
  (tame_opening host _ _ _ args _ False.elim).grows

/-- A step after which the machine goes on is followed by the rest of the run. -/
theorem run_of_runs {host : Host σ} {vm : Vm σ} {r : Ref .coroutine} {args : List Value}
    (fuel : Nat) {M N : Machine σ} {exit : Exit} (hM : vm.Runs host r args M)
    (hrun : Exec.run host fuel M = .ok exit N) :
    ∃ K, vm.Runs host r args K ∧ Exec.step host K = .ok (some exit) N := by
  induction fuel generalizing M with
  | zero => cases hrun
  | succ fuel ih =>
    obtain ⟨answer, L, hstep, hrun⟩ := Exec.bind_eq_ok hrun
    cases answer with
    | none => exact ih (.goes hM hstep) hrun
    | some e =>
      cases hrun
      exact ⟨M, hM, hstep⟩

/-- **What a resume that is not refused can come to.** -/
theorem resumed (host : Host σ) (fuel : Nat) {vm : Vm σ} {r : Ref .coroutine} (args : List Value)
    (h : canResume (vm.heap.coroutine r).state) :
    vm.Resumed host r args (resume host fuel r args vm) := by
  have hgrows : (checkOut r vm.heap vm.state).heap.Grows (Exec.last (body host fuel
      (vm.heap.coroutine r).state (vm.heap.coroutine r).entry
        (vm.heap.coroutine r).entryContext args
      (checkOut r vm.heap vm.state))).heap := by
    have hbegin := begin_grows host vm r args
    rw [body_eq, Exec.bind_apply]
    unfold begin at hbegin
    generalize opening host _ _ _ args _ = result at hbegin
    cases result with
    | error e M => exact hbegin
    | ok u M => exact hbegin.trans (Exec.run_grows host fuel M)
  unfold resume
  dsimp only
  rw [if_pos h]
  cases hbody : body host fuel (vm.heap.coroutine r).state (vm.heap.coroutine r).entry
      (vm.heap.coroutine r).entryContext args (checkOut r vm.heap vm.state) with
  | ok exit N =>
    rw [body_eq] at hbody
    obtain ⟨u, M, hopening, hrun⟩ := Exec.bind_eq_ok hbody
    obtain ⟨K, hK, hstep⟩ := run_of_runs fuel (.begun hopening) hrun
    exact .exits hK hstep
  | error e N =>
    rw [hbody] at hgrows
    cases e with
    | fault f => exact .faults hgrows
    | defect d => exact .breaks id hgrows
    | exhausted => exact .breaks id hgrows

/-- A resume from which control has come back has ended with a step. -/
theorem resume_eq_ok {host : Host σ} {fuel : Nat} {vm vm' : Vm σ} {r : Ref .coroutine}
    {args : List Value} {exit : Exit} (h : resume host fuel r args vm = .ok exit vm') :
    canResume (vm.heap.coroutine r).state ∧
      ∃ M N, vm.Runs host r args M ∧ Exec.step host M = .ok (some exit) N ∧
        vm' = { vm with
          heap := checkIn r (stateAfter exit) N.memory N.heap, state := N.state } := by
  by_cases haccepted : canResume (vm.heap.coroutine r).state
  · have hresumed := resumed host fuel args haccepted
    rw [h] at hresumed
    cases hresumed with
    | exits runs step => exact ⟨haccepted, _, _, runs, step, rfl⟩
  · rw [resume_refused host fuel args haccepted] at h
    cases h

/-- Nothing can be run behind a reference that leads nowhere. -/
theorem holds_of_begin {host : Host σ} {vm : Vm σ} {r : Ref .coroutine} {args : List Value}
    {M : Machine σ} (h : begin host vm r args = .ok () M) : vm.heap.coroutines.Holds r := by
  by_cases hr : vm.heap.coroutines.Holds r
  · exact hr
  · rw [begin, Heap.coroutine_of_not_holds hr] at h
    simp [opening, new, start, Exec.bind_apply, Exec.pushAll, Exec.invoke] at h

end Coroutine

/-! ### Meanwhile -/

namespace Vm

variable {host : Host σ} {vm : Vm σ} {r : Ref .coroutine} {args : List Value} {M : Machine σ}

theorem Runs.holds (h : vm.Runs host r args M) : vm.heap.coroutines.Holds r := by
  induction h with
  | begun begins => exact Coroutine.holds_of_begin begins
  | goes _ _ ih => exact ih

theorem Runs.grows (h : vm.Runs host r args M) :
    (Coroutine.checkOut r vm.heap vm.state).heap.Grows M.heap := by
  induction h with
  | begun begins =>
    have hgrows := Coroutine.begin_grows host vm r args
    rwa [begins] at hgrows
  | goes _ step ih => exact ih.trans (((Exec.step_paces host _).1 step).grows)

end Vm

/-- The host, with a record of what its functions are shown. -/
def Host.recording (host : Host σ) : Host (σ × List Scene) where
  sizes := host.sizes
  callPure := host.callPure
  callEffect r scene args s :=
    ((host.callEffect r scene args s.1).1, (host.callEffect r scene args s.1).2, s.2 ++ [scene])
  openAsync r scene s :=
    ((host.openAsync r scene s.1).1, (host.openAsync r scene s.1).2, s.2 ++ [scene])
  stepAsync r object heap history s :=
    ((host.stepAsync r object heap history s.1).1,
      (host.stepAsync r object heap history s.1).2, s.2)
  syscall i := (host.syscall i).map fun call heap memory s =>
    { memory := (call heap memory s.1).memory
      state := ((call heap memory s.1).state, s.2)
      defect := (call heap memory s.1).defect }

/-- What the functions of the host are shown while a coroutine is resumed. -/
def Vm.shown (host : Host σ) (fuel : Nat) (vm : Vm σ) (r : Ref .coroutine) (args : List Value) :
    List Scene :=
  match Coroutine.resume host.recording fuel r args
    ⟨vm.heap, (vm.state, []), vm.config, vm.active⟩ with
  | .ok _ vm => vm.state.2
  | .error _ vm => vm.state.2

/-- All that was shown on the way was shown on a heap that has grown. -/
def Machine.Shows (M N : Machine (σ × List Scene)) : Prop :=
  ∀ s ∈ N.state.2, s ∈ M.state.2 ∨ M.heap.Grows s.heap

namespace Machine

variable {host : Host σ} {M N L : Machine (σ × List Scene)}

theorem Shows.of_same (h : N.state.2 = M.state.2) : M.Shows N := by
  intro s hs
  exact .inl (h ▸ hs)

/-- One more scene is shown. -/
theorem Shows.of_scene {memory : Stacks} {config : Config}
    (h : N.state.2 = M.state.2 ++ [⟨M.heap, memory, config⟩]) : M.Shows N := by
  intro s hs
  rw [h] at hs
  rcases List.mem_append.mp hs with hs | hs
  · exact .inl hs
  · rw [List.mem_singleton.mp hs]
    exact .inr (.refl _)

theorem Shows.trans (h : M.Shows N) (hgrows : M.heap.Grows N.heap) (h' : N.Shows L) :
    M.Shows L := by
  intro s hs
  rcases h' s hs with hs | hs
  · exact h s hs
  · exact .inr (hgrows.trans hs)

theorem Moves.shows (moves : M.Moves host.recording N) : M.Shows N := by
  induction moves with
  | refl => exact .of_same rfl
  | @tail K L moves move ih =>
    refine ih.trans (Moves.grows moves) ?_
    cases move with
    | effect r args => exact .of_scene rfl
    | opening r => exact .of_scene rfl
    | _ => exact .of_same rfl

theorem Strides.shows (strides : M.Strides host.recording N) : M.Shows N := by
  cases strides with
  | moves moves => exact moves.shows
  | called moves busy slot =>
    refine moves.shows.trans moves.grows (.of_same ?_)
    obtain ⟨call, -, rfl⟩ := Option.map_eq_some_iff.mp slot
    rfl

end Machine

theorem Exec.step_shows (host : Host σ) (M : Machine (σ × List Scene)) :
    M.Shows (last (step host.recording M)) := by
  cases hstep : step host.recording M with
  | ok e N =>
    cases (step_paces host.recording M).1 hstep with
    | goes strides => exact strides.shows
    | returns strides frame values => exact strides.shows
  | error e N =>
    obtain ⟨L, strides, -, hstate⟩ := (step_paces host.recording M).2 hstep
    exact strides.shows.trans strides.grows (.of_same (congrArg Prod.snd hstate))

theorem Exec.run_shows (host : Host σ) (fuel : Nat) (M : Machine (σ × List Scene)) :
    M.Shows (last (run host.recording fuel M)) := by
  induction fuel generalizing M with
  | zero => exact .of_same rfl
  | succ fuel ih =>
    have hstep := step_shows host M
    have hgrows := step_grows host.recording M
    rw [run, bind_apply]
    generalize step host.recording M = result at hstep hgrows
    cases result with
    | error e N => exact hstep
    | ok exit N =>
      cases exit with
      | some e => exact hstep
      | none => exact hstep.trans hgrows (ih N)

/-- **The heaps that occur while a coroutine is resumed**: between its steps, and when a function of
the host is shown it. -/
inductive Vm.During (host : Host σ) (fuel : Nat) (vm : Vm σ) (r : Ref .coroutine)
    (args : List Value) : Heap → Prop
  | machine {M : Machine σ} (accepted : Coroutine.canResume (vm.heap.coroutine r).state)
      (runs : vm.Runs host r args M) : During host fuel vm r args M.heap
  | scene {s : Scene} (shown : s ∈ vm.shown host fuel r args) : During host fuel vm r args s.heap

namespace Vm

variable {host : Host σ} {fuel : Nat} {vm : Vm σ} {r : Ref .coroutine} {args : List Value}
    {H : Heap}

theorem shown_accepted {s : Scene} (hs : s ∈ vm.shown host fuel r args) :
    Coroutine.canResume (vm.heap.coroutine r).state := by
  by_cases h : Coroutine.canResume (vm.heap.coroutine r).state
  · exact h
  · simp [shown, Coroutine.resume, h] at hs

theorem shown_grows {s : Scene} (hs : s ∈ vm.shown host fuel r args) :
    (Coroutine.checkOut r vm.heap vm.state).heap.Grows s.heap := by
  have haccepted := shown_accepted hs
  let M : Machine (σ × List Scene) := Coroutine.checkOut r vm.heap (vm.state, [])
  have hbody : M.Shows (Exec.last (Coroutine.body host.recording fuel
      (vm.heap.coroutine r).state (vm.heap.coroutine r).entry
        (vm.heap.coroutine r).entryContext args
      M)) := by
    have hmoves := Coroutine.tame_opening host.recording (vm.heap.coroutine r).state
      (vm.heap.coroutine r).entry (vm.heap.coroutine r).entryContext args M False.elim
    rw [Coroutine.body_eq, Exec.bind_apply]
    generalize Coroutine.opening host.recording _ _ _ args M = result at hmoves
    cases result with
    | error e N => exact hmoves.shows
    | ok u N => exact hmoves.shows.trans hmoves.grows (Exec.run_shows host fuel N)
  have hlast : s ∈ (Exec.last (Coroutine.body host.recording fuel (vm.heap.coroutine r).state
      (vm.heap.coroutine r).entry (vm.heap.coroutine r).entryContext args M)).state.2 := by
    unfold shown Coroutine.resume at hs
    dsimp only at hs
    rw [if_pos haccepted] at hs
    generalize Coroutine.body host.recording fuel _ _ _ args _ = result at hs
    cases result with
    | ok exit N => exact hs
    | error e N => cases e <;> exact hs
  rcases hbody s hlast with hnone | hgrows
  · cases hnone
  · exact hgrows

theorem During.grows (h : vm.During host fuel r args H) :
    (Coroutine.checkOut r vm.heap vm.state).heap.Grows H := by
  cases h with
  | machine accepted runs => exact runs.grows
  | scene shown => exact shown_grows shown

/-- Only a coroutine of the heap can run. -/
theorem During.holds (h : vm.During host fuel r args H) : vm.heap.coroutines.Holds r := by
  cases h with
  | machine accepted runs => exact runs.holds
  | scene hshown =>
    by_cases hr : vm.heap.coroutines.Holds r
    · exact hr
    · simp [shown, Coroutine.resume, Coroutine.canResume, Coroutine.body_eq, Coroutine.opening,
        Coroutine.start, Heap.coroutine_of_not_holds hr, Coroutine.new, Exec.bind_apply,
        Exec.pushAll, Exec.invoke, Coroutine.checkOut, Machine.onValues] at hshown

/-- Meanwhile the coroutine is running. -/
theorem During.running (h : vm.During host fuel r args H) : (H.coroutine r).state = .running := by
  have hr := h.holds
  have hout : (Coroutine.checkOut r vm.heap vm.state).heap.coroutines.Holds r :=
    Heap.holds_modifyCoroutine.mpr hr
  rw [h.grows.coroutine hout]
  simp [Coroutine.checkOut, Heap.coroutine_modify_self hr, Coroutine.checkedOut]

/-- Meanwhile all others are as they were. -/
theorem During.others (h : vm.During host fuel r args H) {q : Ref .coroutine} (hne : q ≠ r)
    (hq : vm.heap.coroutines.Holds q) : H.coroutine q = vm.heap.coroutine q := by
  have hout : (Coroutine.checkOut r vm.heap vm.state).heap.coroutines.Holds q :=
    Heap.holds_modifyCoroutine.mpr hq
  rw [h.grows.coroutine hout]
  exact Heap.coroutine_modify_of_ne hne _

end Vm

end ScriptVm
