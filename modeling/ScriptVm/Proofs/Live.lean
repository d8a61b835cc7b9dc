import ScriptVm.Proofs.Rounds

/-!
# A run, step by step

A run of the scheduler is made of the steps of one coroutine after the other.
Between two steps it is **live**: the top coroutine is out, with its stacks on the
machine, and the others wait on the stack of coroutines.  A step leads to the next
live state, within one coroutine or from one to another, or the run ends.

The fuel plays no part in this.  What remains of a run from a live state on is
`Live.rest`, which is the scheduler's own code, cut off in the middle; and its
answer does not depend on the fuel if there is enough of it.

Main statements: `Vm.loop_eq_rest` (where a run begins to be live),
`Vm.Sequel.rest_of_ends` and `Vm.Sequel.rest_of_forever` (what remains of a run is
told by the steps).
-/

namespace ScriptVm

variable {σ α : Type}

namespace Vm

/-- A run in the middle. -/
structure Live (σ : Type) where
  machine : Machine σ
  /-- The coroutine whose stacks are on the machine. -/
  top : Ref .coroutine
  /-- The coroutines below it. -/
  below : List (Ref .coroutine)
  /-- The capacities of coroutines that the scheduler makes. -/
  config : Config

/-- What becomes of a run: it is live, or has ended. -/
inductive Sequel (σ : Type)
  | live (l : Live σ)
  | ended (result : EStateM.Result Failure (Vm σ) (List Value))

/-- The live state of a run, if it has not ended. -/
def Sequel.live? : Sequel σ → Option (Live σ)
  | live l => some l
  | ended _ => none

theorem Sequel.eq_live {s : Sequel σ} {l : Live σ} (h : s.live? = some l) : s = .live l := by
  cases s with
  | live m => rw [Option.some.inj h]
  | ended result => cases h

/-- The top coroutine is out no more, and has stopped with a failure. -/
def failed (r : Ref .coroutine) (config : Config) (active : List (Ref .coroutine)) (e : Stop)
    (M : Machine σ) : EStateM.Result Failure (Vm σ) α :=
  match e with
  | .fault f => .error (.runtime f (M.heap.backtrace M.memory))
      ⟨Coroutine.checkIn r .stopped M.memory.clear M.heap, M.state, config, active⟩
  | .defect d => .error (.defect d)
      ⟨Coroutine.checkIn r .running M.memory M.heap, M.state, config, active⟩
  | .exhausted => .error .exhausted
      ⟨Coroutine.checkIn r .running M.memory M.heap, M.state, config, active⟩

/-- Control has left the top coroutine, which is out no more. -/
def returned (r : Ref .coroutine) (config : Config) (active : List (Ref .coroutine)) (exit : Exit)
    (M : Machine σ) : Vm σ :=
  ⟨Coroutine.checkIn r (Coroutine.stateAfter exit) M.memory M.heap, M.state, config, active⟩

/-- What a resume makes of a coroutine's own part in it. -/
def settle (r : Ref .coroutine) (config : Config) (active : List (Ref .coroutine)) :
    EStateM.Result Stop (Machine σ) Exit → EStateM.Result Failure (Vm σ) Exit
  | .ok exit M => .ok exit (returned r config active exit M)
  | .error e M => failed r config active e M

theorem resume_eq_settle {host : Host σ} {fuel : Nat} {r : Ref .coroutine} {args : List Value}
    {vm : Vm σ} (h : Coroutine.canResume (vm.heap.coroutine r).state) :
    Coroutine.resume host fuel r args vm = settle r vm.config vm.active
      (Coroutine.body host fuel (vm.heap.coroutine r).state (vm.heap.coroutine r).entry
        (vm.heap.coroutine r).entryContext args (Coroutine.checkOut r vm.heap vm.state)) := by
  unfold Coroutine.resume
  dsimp only
  rw [if_pos h]
  cases Coroutine.body host fuel (vm.heap.coroutine r).state (vm.heap.coroutine r).entry
    (vm.heap.coroutine r).entryContext args (Coroutine.checkOut r vm.heap vm.state) with
  | ok exit M => rfl
  | error e M => cases e <;> rfl

/-- The rest of a round, once control has come back to the scheduler. -/
def goOn (host : Host σ) (floor fuel : Nat) (below : List (Ref .coroutine)) :
    Exit → Schedule σ (List Value)
  | .switched next args => do
    activate next
    loop host floor fuel args
  | .finished results => do
    retire
    if below.length ≤ floor then
      return results
    else
      readyTop
      loop host floor fuel results
  | .yielded results => do
    retire
    if below.length ≤ floor then
      throw (.usage .yieldFromRoot)
    else
      readyTop
      loop host floor fuel results

theorem loop_eq_goOn (host : Host σ) (floor fuel : Nat) (values : List Value) {vm : Vm σ}
    {top : Ref .coroutine} {below : List (Ref .coroutine)} (hactive : vm.active = top :: below) :
    loop host floor (fuel + 1) values vm
      = (Coroutine.resume host fuel top values >>= goOn host floor fuel below) vm := by
  rw [loop, bind_apply, get_apply]
  dsimp only
  rw [hactive]
  dsimp only
  rw [bind_apply, bind_apply]
  cases Coroutine.resume host fuel top values vm with
  | error e vm' => rfl
  | ok exit vm' => cases exit <;> rfl

/-! ### Live states -/

/-- The top coroutine is resumed with some values. -/
def enter (host : Host σ) (values : List Value) (vm : Vm σ) : Sequel σ :=
  match vm.active with
  | [] => .ended (.ok values vm)
  | top :: below =>
    if Coroutine.canResume (vm.heap.coroutine top).state then
      match Coroutine.begin host vm top values with
      | .ok _ M => .live ⟨M, top, below, vm.config⟩
      | .error e M => .ended (failed top vm.config vm.active e M)
    else .ended (.error (.usage (.invalidResume (vm.heap.coroutine top).state)) vm)

/-- A coroutine that is out was the top one, and has made its opening. -/
theorem enter_eq_live {host : Host σ} {values : List Value} {vm : Vm σ} {l : Live σ}
    (h : enter host values vm = .live l) :
    vm.active = l.top :: l.below ∧ Coroutine.begin host vm l.top values = .ok () l.machine ∧
      l.config = vm.config := by
  unfold enter at h
  cases hactive : vm.active with
  | nil =>
    rw [hactive] at h
    cases h
  | cons top below =>
    rw [hactive] at h
    dsimp only at h
    split at h
    · cases hbegin : Coroutine.begin host vm top values with
      | error e M =>
        rw [hbegin] at h
        cases h
      | ok u M =>
        rw [hbegin] at h
        cases h
        exact ⟨rfl, hbegin, rfl⟩
    · cases h

/-- The scheduler in which the top coroutine may be resumed again. -/
def readied (vm : Vm σ) : Vm σ :=
  match vm.active with
  | top :: _ => { vm with heap := Coroutine.setResumable top vm.heap }
  | [] => vm

theorem readied_active (vm : Vm σ) : (readied vm).active = vm.active := by
  obtain ⟨heap, state, config, active⟩ := vm
  cases active <;> rfl

namespace Live

/-- What follows when control leaves the top coroutine. -/
def dispose (host : Host σ) (floor : Nat) (l : Live σ) (exit : Exit) (M : Machine σ) :
    Sequel σ :=
  match exit with
  | .switched next args =>
    enter host args (returned l.top l.config (next :: l.top :: l.below) exit M)
  | .finished results =>
    if l.below.length ≤ floor then .ended (.ok results (returned l.top l.config l.below exit M))
    else enter host results (readied (returned l.top l.config l.below exit M))
  | .yielded results =>
    if l.below.length ≤ floor then
      .ended (.error (.usage .yieldFromRoot) (returned l.top l.config l.below exit M))
    else enter host results (readied (returned l.top l.config l.below exit M))

/-- What follows a step of the top coroutine, by its outcome. -/
def pursue (host : Host σ) (floor : Nat) (l : Live σ) :
    EStateM.Result Stop (Machine σ) (Option Exit) → Sequel σ
  | .ok none M => .live { l with machine := M }
  | .ok (some exit) M => l.dispose host floor exit M
  | .error e M => .ended (failed l.top l.config (l.top :: l.below) e M)

/-- **One step of a run.** -/
def next (host : Host σ) (floor : Nat) (l : Live σ) : Sequel σ :=
  l.pursue host floor (Exec.step host l.machine)

/-- **What remains of a run**: the top coroutine runs until control leaves it, and the scheduler
goes on from there. -/
def rest (host : Host σ) (floor k fuel : Nat) (l : Live σ) :
    EStateM.Result Failure (Vm σ) (List Value) :=
  match settle l.top l.config (l.top :: l.below) (Exec.run host k l.machine) with
  | .ok exit vm => goOn host floor fuel l.below exit vm
  | .error e vm => .error e vm

end Live

/-- What remains of a run. -/
def Sequel.rest (host : Host σ) (floor k fuel : Nat) :
    Sequel σ → EStateM.Result Failure (Vm σ) (List Value)
  | live l => l.rest host floor k fuel
  | ended result => result

variable {host : Host σ} {floor : Nat}

/-- **A run becomes live** when its top coroutine is resumed. -/
theorem loop_eq_rest (fuel : Nat) (values : List Value) (vm : Vm σ) :
    loop host floor (fuel + 1) values vm = (enter host values vm).rest host floor fuel fuel := by
  obtain ⟨heap, state, config, active⟩ := vm
  cases active with
  | nil => rfl
  | cons top below =>
    rw [loop_eq_goOn host floor fuel values rfl, bind_apply, enter]
    dsimp only
    by_cases haccepted : Coroutine.canResume (heap.coroutine top).state
    · rw [if_pos haccepted, resume_eq_settle haccepted, Coroutine.body_eq, Exec.bind_apply]
      unfold Coroutine.begin
      cases Coroutine.opening host (heap.coroutine top).state (heap.coroutine top).entry
        (heap.coroutine top).entryContext values (Coroutine.checkOut top heap state) with
      | error e M => cases e <;> rfl
      | ok u M =>
        dsimp only [Sequel.rest, Live.rest]
        cases settle top config (top :: below) (Exec.run host fuel M) <;> rfl
    · rw [if_neg haccepted, Coroutine.resume_refused host fuel values haccepted]
      rfl

theorem readyTop_loop (fuel : Nat) (results : List Value) (vm : Vm σ) :
    (do
      readyTop
      loop host floor (fuel + 1) results) vm
      = (enter host results (readied vm)).rest host floor fuel fuel := by
  obtain ⟨heap, state, config, active⟩ := vm
  rw [bind_apply]
  cases active <;> exact loop_eq_rest fuel results _

/-- What follows when control leaves the top coroutine, by the scheduler's own code. -/
theorem Live.rest_dispose (l : Live σ) (fuel : Nat) (exit : Exit) (M : Machine σ) :
    goOn host floor (fuel + 1) l.below exit
        (returned l.top l.config (l.top :: l.below) exit M)
      = (l.dispose host floor exit M).rest host floor fuel fuel := by
  cases exit with
  | switched next args =>
    rw [goOn, bind_apply]
    exact loop_eq_rest fuel args _
  | finished results =>
    simp only [goOn, dispose]
    rw [bind_apply]
    by_cases hlast : l.below.length ≤ floor
    · simp only [if_pos hlast]
      rfl
    · simp only [if_neg hlast]
      exact readyTop_loop fuel results _
  | yielded results =>
    simp only [goOn, dispose]
    rw [bind_apply]
    by_cases hlast : l.below.length ≤ floor
    · simp only [if_pos hlast]
      rfl
    · simp only [if_neg hlast]
      exact readyTop_loop fuel results _

namespace Live

variable {l : Live σ} {M : Machine σ}

theorem rest_of_goes (h : Exec.step host l.machine = .ok none M) (k fuel : Nat) :
    l.rest host floor (k + 1) fuel = Live.rest host floor k fuel { l with machine := M } := by
  unfold rest
  rw [Exec.run, Exec.bind_of_ok h]

theorem rest_of_exits {exit : Exit} (h : Exec.step host l.machine = .ok (some exit) M)
    (k fuel : Nat) :
    l.rest host floor (k + 1) fuel
      = goOn host floor fuel l.below exit (returned l.top l.config (l.top :: l.below) exit M) := by
  unfold rest
  rw [Exec.run, Exec.bind_of_ok h]
  rfl

theorem rest_of_stops {e : Stop} (h : Exec.step host l.machine = .error e M) (k fuel : Nat) :
    l.rest host floor (k + 1) fuel = failed l.top l.config (l.top :: l.below) e M := by
  unfold rest
  rw [Exec.run, Exec.bind_of_error h]
  cases e <;> rfl

/-- Without fuel the scheduler resumes no other coroutine. -/
theorem goOn_zero {exit : Exit} {l' : Live σ} (h : l.dispose host floor exit M = .live l') :
    ∃ vm, goOn host floor 0 l.below exit (returned l.top l.config (l.top :: l.below) exit M)
      = .error .exhausted vm := by
  cases exit with
  | switched next args => exact ⟨_, rfl⟩
  | finished results =>
    by_cases hlast : l.below.length ≤ floor
    · simp [dispose, hlast] at h
    · simp only [goOn, if_neg hlast]
      exact ⟨_, rfl⟩
  | yielded results =>
    by_cases hlast : l.below.length ≤ floor
    · simp [dispose, hlast] at h
    · simp only [goOn, if_neg hlast]
      exact ⟨_, rfl⟩

end Live

/-! ### What the steps tell of a run -/

namespace Sequel

/-- One more step. -/
def next (host : Host σ) (floor : Nat) : Sequel σ → Sequel σ
  | live l => l.next host floor
  | ended result => ended result

/-- Some more steps. -/
def after (host : Host σ) (floor : Nat) : Nat → Sequel σ → Sequel σ
  | 0, s => s
  | n + 1, s => after host floor n (s.next host floor)

/-- The run goes on forever. -/
def Forever (host : Host σ) (floor : Nat) (s : Sequel σ) : Prop :=
  ∀ n, ∃ l, s.after host floor n = live l

/-- The run ends. -/
def Ends (host : Host σ) (floor : Nat) (s : Sequel σ)
    (result : EStateM.Result Failure (Vm σ) (List Value)) : Prop :=
  ∃ n, s.after host floor n = ended result

theorem after_ended (n : Nat) (result : EStateM.Result Failure (Vm σ) (List Value)) :
    (ended result).after host floor n = ended result := by
  induction n with
  | zero => rfl
  | succ n ih => exact ih

/-- **A run that ends** comes to its end, if there is enough fuel. -/
theorem rest_of_ends {s : Sequel σ} {result : EStateM.Result Failure (Vm σ) (List Value)}
    (h : s.Ends host floor result) :
    ∃ n, ∀ k fuel, n ≤ k → n ≤ fuel → s.rest host floor k fuel = result := by
  obtain ⟨n, h⟩ := h
  refine ⟨n, ?_⟩
  induction n generalizing s with
  | zero =>
    intro k fuel _ _
    obtain rfl : s = ended result := h
    rfl
  | succ n ih =>
    have hnext := ih h
    intro k fuel hk hfuel
    obtain ⟨k, rfl⟩ :=
      Nat.exists_eq_succ_of_ne_zero (Nat.ne_of_gt (Nat.lt_of_lt_of_le (Nat.succ_pos n) hk))
    obtain ⟨fuel, rfl⟩ :=
      Nat.exists_eq_succ_of_ne_zero (Nat.ne_of_gt (Nat.lt_of_lt_of_le (Nat.succ_pos n) hfuel))
    have hk' := Nat.le_of_succ_le_succ hk
    have hfuel' := Nat.le_of_succ_le_succ hfuel
    cases s with
    | ended r => exact hnext k fuel hk' hfuel'
    | live l =>
      simp only [next, Live.next] at hnext
      cases hstep : Exec.step host l.machine with
      | error e M =>
        rw [hstep] at hnext
        exact (Live.rest_of_stops hstep k _).trans (hnext k fuel hk' hfuel')
      | ok exit M =>
        rw [hstep] at hnext
        cases exit with
        | none =>
          exact (Live.rest_of_goes hstep k _).trans
            (hnext k (fuel + 1) hk' (Nat.le_succ_of_le hfuel'))
        | some exit =>
          rw [Sequel.rest, Live.rest_of_exits hstep, Live.rest_dispose]
          exact hnext fuel fuel hfuel' hfuel'

theorem Forever.next {s : Sequel σ} (h : s.Forever host floor) :
    (s.next host floor).Forever host floor :=
  fun n => h (n + 1)

/-- The steps of one coroutine use up the fuel, or control leaves it and the rest of the fuel is
used up. -/
theorem exhausted_of_exits {fuel : Nat}
    (hexit : ∀ (l : Live σ) exit M, (live l).Forever host floor →
      Exec.step host l.machine = .ok (some exit) M →
      ∃ vm, goOn host floor fuel l.below exit (returned l.top l.config (l.top :: l.below) exit M)
        = .error .exhausted vm)
    {l : Live σ} (h : (live l).Forever host floor) (k : Nat) :
    ∃ vm, l.rest host floor k fuel = .error .exhausted vm := by
  induction k generalizing l with
  | zero => exact ⟨_, rfl⟩
  | succ k ih =>
    cases hstep : Exec.step host l.machine with
    | error e M =>
      obtain ⟨l', hl'⟩ := h 1
      simp [after, Sequel.next, Live.next, Live.pursue, hstep] at hl'
    | ok exit M =>
      cases exit with
      | some exit =>
        rw [Live.rest_of_exits hstep]
        exact hexit l exit M h hstep
      | none =>
        rw [Live.rest_of_goes hstep]
        have hnext := h.next
        simp only [Sequel.next, Live.next, Live.pursue, hstep] at hnext
        exact ih hnext

/-- **A run that goes on forever** uses up any fuel. -/
theorem rest_of_forever {s : Sequel σ} (h : s.Forever host floor) (k fuel : Nat) :
    ∃ vm, s.rest host floor k fuel = .error .exhausted vm := by
  induction fuel generalizing s k with
  | zero =>
    obtain ⟨l, rfl⟩ := h 0
    refine exhausted_of_exits (fun l exit M h hstep => ?_) h k
    obtain ⟨l', hl'⟩ := h 1
    simp only [after, Sequel.next, Live.next, Live.pursue, hstep] at hl'
    exact Live.goOn_zero hl'
  | succ fuel ih =>
    obtain ⟨l, rfl⟩ := h 0
    refine exhausted_of_exits (fun l exit M h hstep => ?_) h k
    have hnext := h.next
    simp only [Sequel.next, Live.next, Live.pursue, hstep] at hnext
    rw [Live.rest_dispose]
    exact ih hnext fuel

end Sequel

end Vm

end ScriptVm
