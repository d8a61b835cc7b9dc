import ScriptVm.Proofs.Rounds

/-!
# What requests uphold

An invariant of the heap is upheld by every request if it is upheld while single
coroutines run.  For that it goes together with an invariant of the machine: the
one of the heap holds when no coroutine runs, the one of the machine from the
opening of a resume up to its end.  It may ask something of the coroutines that are
resumed, and is then upheld by all runs that resume no others.

This file leads from the steps of a machine to resumes, to the rounds of a
scheduler, and to the requests of a host.

Main statements: `Vm.Keeping.resume` (a resume), `Vm.Keeping.leads` (rounds),
`Vm.Keeping.execute` (whole runs), `Vm.Keeping.request` (requests) and
`Vm.Keeping.runs` (the machines in between).
-/

namespace ScriptVm

variable {σ α β : Type}

/-- The opening of a resume, if a coroutine that is started may run in the context it has of its
own. -/
theorem Exec.Upholds.opening {host : Host σ} {K : Machine.CallKeeping host} {M : Machine σ}
    (state : Lifecycle) (entry : Value) (context : Option (Ref .context)) (args : List Value)
    (hM : K.holds M)
    (hown : ∀ {N : Machine σ} {r c room} {f : Frame}, state = .initial →
      entry = .function r →
      context = some c → N.heap = M.heap → f.activity = .bytecode r c → N.Tops f →
      K.holds N →
      K.holds (N.entered N.heap r c room f)) :
    K.holds (Exec.last (Coroutine.opening host state entry context args M)) := by
  let N := M.onValues fun values => values.pushAll args
  have hN : K.holds N := K.values _ hM
  have hpush : (Exec.pushAll args : Exec σ Unit) M = .ok () N := rfl
  unfold Coroutine.opening
  split
  · next hinitial =>
    rw [Coroutine.start, Exec.bind_of_ok (Exec.height_apply M), Exec.bind_of_ok hpush]
    split
    · next r c =>
      rcases Exec.enter_cases host r M.memory.values.size none (some c) N with
        ⟨d, h⟩ | ⟨room, f, htops, hactivity, h⟩
      · rw [h]
        exact hN
      · rw [h]
        exact hown hinitial rfl rfl rfl hactivity htops hN
    · exact Exec.Upholds.invoke entry _ none N hN
  · exact hN

/-- The values of an answer, if it has some. -/
def Vm.values? : EStateM.Result Failure (Vm σ) (List Value) → Option (List Value)
  | .ok values _ => some values
  | .error _ _ => none

/-- **An invariant of the heap and of the machine**: upheld when a coroutine is taken out and makes
its opening, if that is admitted, by its steps, when it is put back with its stacks or without, and
when it is made resumable. -/
structure Vm.Keeping (host : Host σ) where
  holds : Heap → Prop
  running : Machine σ → Prop
  admits : Vm σ → Ref .coroutine → List Value → Prop
  begin : ∀ {vm : Vm σ} {r : Ref .coroutine} {args : List Value},
    Coroutine.canResume (vm.heap.coroutine r).state → admits vm r args → holds vm.heap →
    running (Exec.last (Coroutine.begin host vm r args))
  step : ∀ {M : Machine σ}, running M → running (Exec.last (Exec.step host M))
  stop : ∀ {M : Machine σ} (r : Ref .coroutine) (state : Lifecycle) {memory : Stacks},
    state ≠ .initial → running M → memory = M.memory ∨ memory = M.memory.clear →
    holds (Coroutine.checkIn r state memory M.heap)
  ready : ∀ {h : Heap} (r : Ref .coroutine), holds h → holds (Coroutine.setResumable r h)

namespace Vm

namespace Head

/-- One round above a floor leads from a head to the next one. -/
def NextAbove (host : Host σ) (floor : Nat) (a b : Head σ) : Prop :=
  a.fuel = b.fuel + 1 ∧ round host floor b.fuel a.values a.vm = .ok (.again b.values) b.vm

/-- Any number of rounds above a floor. -/
abbrev LeadsAbove (host : Host σ) (floor : Nat) : Head σ → Head σ → Prop :=
  Relation.ReflTransGen (NextAbove host floor)

/-- The coroutine that is resumed next, if there is one, is of some sort. -/
def Resumes (admits : Heap → Ref .coroutine → Prop) (head : Head σ) : Prop :=
  ∀ top ∈ head.vm.active.head?, admits head.vm.heap top

/-- What is resumed next, and the values it is given, are of some sort. -/
def Admitted (admits : Vm σ → Ref .coroutine → List Value → Prop) (head : Head σ) : Prop :=
  ∀ top ∈ head.vm.active.head?, admits head.vm top head.values

end Head

variable {host : Host σ} {K : Keeping host} {vm : Vm σ} {r : Ref .coroutine} {args : List Value}
  {M : Machine σ}

/-- The machines between the steps of a coroutine. -/
theorem Keeping.runs (K : Keeping host) (hvm : K.holds vm.heap)
    (haccepted : Coroutine.canResume (vm.heap.coroutine r).state) (hadmits : K.admits vm r args)
    (runs : vm.Runs host r args M) : K.running M := by
  induction runs with
  | begun begins =>
    have hbegin := K.begin haccepted hadmits hvm
    rw [begins] at hbegin
    exact hbegin
  | goes _ step ih =>
    have hstep := K.step ih
    rw [step] at hstep
    exact hstep

theorem Keeping.run (K : Keeping host) (fuel : Nat) (hM : K.running M) :
    K.running (Exec.last (Exec.run host fuel M)) := by
  induction fuel generalizing M with
  | zero => exact hM
  | succ fuel ih =>
    have hstep := K.step hM
    rw [Exec.run, Exec.bind_apply]
    generalize Exec.step host M = result at hstep
    cases result with
    | error e N => exact hstep
    | ok exit N =>
      cases exit with
      | some e => exact hstep
      | none => exact ih hstep

/-- **A computation of the scheduler upholds an invariant**, however it ends. -/
def Upholds (K : Keeping host) (x : Schedule σ α) : Prop :=
  ∀ vm, K.holds vm.heap → K.holds (last (x vm)).heap

namespace Upholds

theorem bind {x : Schedule σ α} {f : α → Schedule σ β} (hx : Upholds K x)
    (hf : ∀ a, Upholds K (f a)) : Upholds K (x >>= f) := by
  intro vm hvm
  have hlast := hx vm hvm
  rw [bind_apply]
  generalize x vm = result at hlast
  cases result with
  | error e vm' => exact hlast
  | ok a vm' => exact hf a vm' hlast

/-- A computation that leaves the heap as it is. -/
theorem still {x : Schedule σ α} (h : ∀ vm, (last (x vm)).heap = vm.heap) : Upholds K x := by
  intro vm hvm
  rw [h vm]
  exact hvm

theorem readyTop : Upholds K (Vm.readyTop : Schedule σ Unit) := by
  intro vm hvm
  obtain ⟨heap, state, config, active⟩ := vm
  cases active with
  | nil => exact hvm
  | cons top below => exact K.ready top hvm

/-- What a round does when the top coroutine has come back. -/
theorem retired (floor : Nat) (below : List (Ref .coroutine)) {x y : Schedule σ α}
    (hx : ∀ vm, (last (x vm)).heap = vm.heap) (hy : ∀ vm, (last (y vm)).heap = vm.heap) :
    Upholds K (do
      retire
      if below.length ≤ floor then x else do
        Vm.readyTop
        y) := by
  refine bind (still fun _ => rfl) fun _ => ?_
  split
  · exact still hx
  · exact readyTop.bind fun _ => still hy

end Upholds

namespace Keeping

variable (K : Keeping host) (hvm : K.holds vm.heap)
include hvm

/-- **A resume** that is admitted, whether it is refused or not. -/
theorem resume (fuel : Nat) (args : List Value) (hadmits : K.admits vm r args) :
    K.holds (last (Coroutine.resume host fuel r args vm)).heap := by
  by_cases haccepted : Coroutine.canResume (vm.heap.coroutine r).state
  · have hbody : K.running (Exec.last (Coroutine.body host fuel (vm.heap.coroutine r).state
        (vm.heap.coroutine r).entry (vm.heap.coroutine r).entryContext args
        (Coroutine.checkOut r vm.heap vm.state))) := by
      have hbegin := K.begin haccepted hadmits hvm
      rw [Coroutine.body_eq, Exec.bind_apply]
      unfold Coroutine.begin at hbegin
      generalize Coroutine.opening host _ _ _ args _ = result at hbegin
      cases result with
      | error e M => exact hbegin
      | ok u M => exact K.run fuel hbegin
    unfold Coroutine.resume
    dsimp only
    rw [if_pos haccepted]
    generalize Coroutine.body host fuel _ _ _ args _ = result at hbody
    cases result with
    | ok exit M => exact K.stop r _ (by cases exit <;> nofun) hbody (.inl rfl)
    | error e M =>
      cases e with
      | fault f => exact K.stop r _ nofun hbody (.inr rfl)
      | defect d => exact K.stop r _ nofun hbody (.inl rfl)
      | exhausted => exact K.stop r _ nofun hbody (.inl rfl)
  · rw [Coroutine.resume_refused host fuel args haccepted]
    exact hvm

/-- One round of the scheduler. -/
theorem round (floor fuel : Nat) (values : List Value)
    (hadmits : ∀ top ∈ vm.active.head?, K.admits vm top values) :
    K.holds (last (Vm.round host floor fuel values vm)).heap := by
  rw [Vm.round, bind_apply, get_apply]
  dsimp only
  cases hactive : vm.active with
  | nil => exact hvm
  | cons top below =>
    have hresume := K.resume hvm fuel values (hadmits top (by simp [hactive]))
    dsimp only
    rw [bind_apply]
    generalize Coroutine.resume host fuel top values vm = result at hresume
    cases result with
    | error e vm' => exact hresume
    | ok exit vm' =>
      cases exit with
      | switched next args => exact hresume
      | finished results =>
        exact Upholds.retired (K := K) floor below (fun _ => rfl) (fun _ => rfl) vm' hresume
      | yielded results =>
        exact Upholds.retired (K := K) floor below (fun _ => rfl) (fun _ => rfl) vm' hresume

/-- **The heads of a run**, up to the first one that resumes what is not admitted. -/
theorem leads {floor fuel : Nat} {values : List Value} {head : Head σ}
    (leads : Relation.ReflTransGen (fun a b => a.Admitted K.admits ∧ a.NextAbove host floor b)
      ⟨fuel, values, vm⟩ head) : K.holds head.vm.heap := by
  induction leads with
  | refl => exact hvm
  | @tail b c _ next ih =>
    obtain ⟨hadmits, -, hround⟩ := next
    have hkept := K.round ih floor c.fuel b.values hadmits
    rw [hround] at hkept
    exact hkept

/-- All heads of a run, if everything is admitted. -/
theorem leads_of_admits {floor fuel : Nat} {values : List Value} {head : Head σ}
    (hadmits : ∀ head, Head.LeadsAbove host floor ⟨fuel, values, vm⟩ head →
      head.Admitted K.admits)
    (leads : Head.LeadsAbove host floor ⟨fuel, values, vm⟩ head) : K.holds head.vm.heap := by
  induction leads with
  | refl => exact hvm
  | @tail b c before next ih =>
    have hkept := K.round ih floor c.fuel b.values (hadmits b before)
    rw [next.2] at hkept
    exact hkept

theorem loop (floor fuel : Nat) (values : List Value)
    (hadmits : ∀ head, Head.LeadsAbove host floor ⟨fuel, values, vm⟩ head →
      head.Admitted K.admits) :
    K.holds (last (Vm.loop host floor fuel values vm)).heap := by
  induction fuel generalizing values vm with
  | zero => exact hvm
  | succ fuel ih =>
    have hround := K.round hvm floor fuel values (hadmits _ .refl)
    rw [loop_succ, bind_apply]
    cases hresult : Vm.round host floor fuel values vm with
    | error e vm' =>
      rw [hresult] at hround
      exact hround
    | ok next vm' =>
      rw [hresult] at hround
      cases next with
      | done results => exact hround
      | again values' =>
        have hnext :
            Head.NextAbove host floor ⟨fuel + 1, values, vm⟩ ⟨fuel, values', vm'⟩ :=
          ⟨rfl, hresult⟩
        exact ih hround values' fun head leads => hadmits head (.head hnext leads)

/-- **A whole run**, if it resumes only what is admitted. -/
theorem execute (fuel : Nat) (root : Ref .coroutine) (args : List Value)
    (hadmits : ∀ head, (vm.start fuel root args).LeadsAbove host vm.active.length head →
      head.Admitted K.admits) :
    K.holds (last (Vm.execute host fuel root args vm)).heap := by
  have hrun : K.holds { vm with active := root :: vm.active }.heap := hvm
  have hloop := K.loop hrun vm.active.length fuel args hadmits
  unfold Vm.execute
  dsimp only
  generalize Vm.loop host _ fuel args _ = result at hloop
  cases result with
  | ok values vm' => exact hloop
  | error e vm' => cases e <;> exact hloop

end Keeping

/-- **Every request**, if everything is admitted and the invariant holds where it begins and with
its coroutine made. -/
theorem Keeping.request (K : Keeping host) (hadmits : ∀ vm r args, K.admits vm r args)
    (vm : Vm σ) (fuel : Nat) (request : Request) (hopened : K.holds (request.opened vm.heap))
    (hmade : ∀ entry, K.holds
      ((request.opened vm.heap).newCoroutine (.new entry request.context? vm.config)).2) :
    K.holds (last (request.run host fuel vm)).heap := by
  have hbegins := request.begins host fuel vm
  generalize request.run host fuel vm = result at hbegins
  cases hbegins with
  | refused e => exact hopened
  | runs entry args => exact K.execute (hmade entry) fuel _ args fun _ _ _ _ => hadmits _ _ _

/-- The text of a value, which may take a call. -/
theorem Keeping.stringify (K : Keeping host) (hadmits : ∀ vm r args, K.admits vm r args)
    (vm : Vm σ) (fuel : Nat) (v : Value) (hvm : K.holds vm.heap)
    (hmade : ∀ entry, K.holds (vm.heap.newCoroutine (.new entry none vm.config)).2) :
    K.holds (last (stringify host fuel v vm)).heap := by
  unfold Vm.stringify
  split
  · exact hvm
  · rw [bind_apply, get_apply]
    dsimp only
    cases vm.heap.metamethod v "__str" with
    | none => exact hvm
    | some method =>
      have hcall := K.request hadmits vm fuel (.call method [v]) hvm hmade
      have hrun : Request.run host fuel (.call method [v]) vm = call host fuel method [v] vm := rfl
      rw [hrun] at hcall
      dsimp only
      rw [bind_apply]
      generalize call host fuel method [v] vm = result at hcall
      cases result with
      | error e vm' => exact hcall
      | ok results vm' =>
        dsimp only
        split <;> exact hcall

end Vm

end ScriptVm
