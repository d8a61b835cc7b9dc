import ScriptVm.Proofs.Mirror.Runs

/-!
# Rounds in a mirror

Where a run of the scheduler is live, one coroutine is out.  When it hands control on,
another one is resumed, or the run ends.  Two runs whose next coroutines are twins do
so side by side, whatever is below these.

Main statements: `Vm.Twin.enter` (a coroutine is resumed, or cannot be) and
`Vm.enter_suspended` (what is out when it had only been suspended).
-/

namespace ScriptVm

variable {σ : Type} {m : Mirror σ} {host : Host σ} {vm vm' : Vm σ} {r r' : Ref .coroutine}
  {below below' : List (Ref .coroutine)} {values values' : List Value}

/-! ### What a resume does -/

namespace Vm

/-- The top coroutine has made its opening. -/
theorem enter_of_begin (hactive : vm.active = r :: below)
    (haccepted : Coroutine.canResume (vm.heap.coroutine r).state) {M : Machine σ}
    (hbegin : Coroutine.begin host vm r values = .ok () M) :
    enter host values vm = .live ⟨M, r, below, vm.config⟩ := by
  simp only [enter, hactive, if_pos haccepted, hbegin]

/-- The top coroutine has failed in its opening. -/
theorem enter_of_fails (hactive : vm.active = r :: below)
    (haccepted : Coroutine.canResume (vm.heap.coroutine r).state) {e : Stop} {M : Machine σ}
    (hbegin : Coroutine.begin host vm r values = .error e M) :
    enter host values vm = .ended (failed r vm.config (r :: below) e M) := by
  simp only [enter, hactive, if_pos haccepted, hbegin]

/-- A coroutine that had only been suspended goes on with the values it is given. -/
theorem enter_suspended (hactive : vm.active = r :: below)
    (hstate : (vm.heap.coroutine r).state = .suspended) :
    enter host values vm = .live {
      machine := (Coroutine.checkOut r vm.heap vm.state).onValues fun s => s.pushAll values
      top := r
      below
      config := vm.config } := by
  refine enter_of_begin hactive (hstate ▸ rfl) ?_
  simp [Coroutine.begin, Coroutine.opening, hstate, Exec.pushAll]

/-- A coroutine that waits for another one cannot be resumed. -/
theorem enter_inStack (hactive : vm.active = r :: below)
    (hstate : (vm.heap.coroutine r).state = .inStack) :
    enter host values vm = .ended (.error (.usage (.invalidResume .inStack)) vm) := by
  simp only [enter, hactive, hstate]
  rfl

/-- Other coroutines stay as they are. -/
theorem enter_others {l : Live σ} (h : enter host values vm = .live l) {q : Ref .coroutine}
    (hq : vm.heap.coroutines.Holds q) (hne : q ≠ l.top) :
    l.machine.heap.coroutine q = vm.heap.coroutine q := by
  obtain ⟨-, hbegin, -⟩ := enter_eq_live h
  have hgrows := Coroutine.begin_grows host vm l.top values
  rw [hbegin] at hgrows
  exact (hgrows.coroutine (Heap.holds_modifyCoroutine.mpr hq)).trans
    (Heap.coroutine_modify_of_ne hne _)

/-- The coroutine that is out is running, and its stacks are not on the heap. -/
theorem enter_top {l : Live σ} (h : enter host values vm = .live l)
    (hheld : vm.heap.coroutines.Holds l.top) :
    l.machine.heap.coroutine l.top = Coroutine.checkedOut (vm.heap.coroutine l.top) ∧
      l.machine.config = (vm.heap.coroutine l.top).config := by
  obtain ⟨-, hbegin, -⟩ := enter_eq_live h
  have hgrows := Coroutine.begin_grows host vm l.top values
  have hmoves := Coroutine.tame_opening host (vm.heap.coroutine l.top).state
    (vm.heap.coroutine l.top).entry (vm.heap.coroutine l.top).entryContext values
    (Coroutine.checkOut l.top vm.heap vm.state) False.elim
  rw [show Coroutine.opening host _ _ _ values _ = _ from hbegin] at hmoves
  rw [hbegin] at hgrows
  exact ⟨(hgrows.coroutine (Heap.holds_modifyCoroutine.mpr hheld)).trans
    (Heap.coroutine_modify_self hheld _), hmoves.config_eq⟩

end Vm

/-! ### Twins -/

/-- Two live states that are alike in a mirror, whatever is below their top coroutines. -/
structure Vm.Live.Twin (m : Mirror σ) (l l' : Vm.Live σ) : Prop where
  machine : l.machine.Twin m l'.machine
  top : m.like.pairs l.top l'.top
  free : ¬ m.aside l.top
  config : l'.config = l.config

/-- What follows is alike: two live states above the given coroutines, or two failures. -/
inductive Vm.Sequel.Twin (m : Mirror σ) (below below' : List (Ref .coroutine)) :
    Vm.Sequel σ → Vm.Sequel σ → Prop
  | live {l l' : Vm.Live σ} (twin : l.Twin m l') (left : l.below = below)
      (right : l'.below = below') :
      Twin m below below' (.live l) (.live l')
  | failed {e e' : Failure} {vm vm' : Vm σ} (failures : e.Twin e') :
      Twin m below below' (.ended (.error e vm)) (.ended (.error e' vm'))

namespace Vm.Twin

/-- The top coroutines have failed. -/
theorem failed {M M' : Machine σ} (twin : M.Twin m M') (e : Stop) (config config' : Config)
    (active active' : List (Ref .coroutine)) :
    Sequel.Twin m below below' (.ended (Vm.failed r config active e M))
      (.ended (Vm.failed r' config' active' e M')) := by
  cases e with
  | fault f => exact .failed (.runtime f twin.calls_eq)
  | defect d => exact .failed (.defect d)
  | exhausted => exact .failed .exhausted

/-- **A coroutine is resumed**, or cannot be, as its twin. -/
theorem enter (oblivious : host.Oblivious m.states m.aside) (twin : vm.Twin m vm')
    (hactive : vm.active = r :: below) (hactive' : vm'.active = r' :: below')
    (hr : m.like.pairs r r') (hfree : ¬ m.aside r) (hvalues : Value.Twins m.like values values') :
    Sequel.Twin m below below' (Vm.enter host values vm) (Vm.enter host values' vm') := by
  have hc := twin.heap.coroutines r r' hr hfree
  have hbegin : Mirrored m Mirrors.Equal (Coroutine.begin host vm r values)
      (Coroutine.begin host vm' r' values') := by
    unfold Coroutine.begin
    rw [hc.state, hc.entryContext]
    exact Mirrors.opening oblivious _ hc.entry _ hvalues _ _ (twin.checkOut hr hfree)
  unfold Vm.enter
  rw [hactive, hactive']
  dsimp only
  rw [hc.state]
  split
  · generalize Coroutine.begin host vm r values = x at hbegin
    generalize Coroutine.begin host vm' r' values' = y at hbegin
    cases hbegin with
    | ok hmachine _ => exact .live ⟨hmachine, hr, hfree, twin.config⟩ rfl rfl
    | error e hmachine => exact failed hmachine e _ _ _ _
  · exact .failed (.usage _)

end Vm.Twin

end ScriptVm
