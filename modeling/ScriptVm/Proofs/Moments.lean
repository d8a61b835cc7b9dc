import ScriptVm.Proofs.Effects

/-!
# Coroutines within coroutines

An effectful function may use coroutines while it runs: make some, make one
resumable, resume one.  The coroutine that has called it is still running then,
and goes on when the function has answered.  So several coroutines may be out for
a run, each within an effectful function that the one below has called.

A `Moment` is the heap, the state of the host and the coroutines that are out, the
innermost first.  It changes by what the host does while it has control
(`Moment.Next.arrange`, `make`, `ready`, `resumes`) and by what the innermost
coroutine does: it goes on, calls an effectful function, gets its answer, or ends.
A function may answer anything, and may do anything to the objects of the heap but
coroutines.  That a step has nothing more to do with the heap once it has called a
function is `Exec.step_callsLast`.

Main statements: `Moment.Next.arrow` and `Moment.Next.settled` (one step),
`Moment.path_resume` (a resume is a path of such steps), `coroutine_lifecycle`.
-/

namespace ScriptVm

variable {σ α : Type}

/-! ### Moments -/

/-- What a coroutine that is out does next. -/
inductive Task
  /-- It has been resumed in a state: it is started, or gets the values it is given. -/
  | opening (state : Lifecycle) (entry : Value) (context : Option (Ref .context))
      (args : List Value)
  | step

/-- The computation of a task, and whether control leaves the coroutine. -/
def Task.work (task : Task) (host : Host σ) : Exec σ (Option Exit) :=
  match task with
  | .opening state entry context args => do
    Coroutine.opening host state entry context args
    return none
  | .step => Exec.step host

/-- Where a coroutine that is out has got to. -/
inductive Stage
  | before (task : Task)
  /-- An effectful function has been called, the results of which go to a position. -/
  | within (base : Nat) (returnSize : Option Nat)

/-- A coroutine that is out for a run. -/
structure Outing where
  ref : Ref .coroutine
  /-- Its stacks. -/
  memory : Stacks
  /-- Its capacities. -/
  config : Config
  stage : Stage

/-- The heap, the state of the host, and the coroutines that are out, the innermost first. -/
structure Moment (σ : Type) where
  heap : Heap
  state : σ
  out : List Outing

/-- The machine of a coroutine that is out. -/
def Outing.machine (o : Outing) (heap : Heap) (state : σ) : Machine σ :=
  ⟨heap, o.memory, o.config, state⟩

namespace Moment

/-- The coroutines that are out, the innermost first. -/
def refs (m : Moment σ) : List (Ref .coroutine) :=
  m.out.map Outing.ref

/-- The host has control: no coroutine is out, or the innermost has called a function. -/
def Idle (m : Moment σ) : Prop :=
  ∀ o ∈ m.out.head?, ∃ base returnSize, o.stage = .within base returnSize

theorem idle_of_out_eq_nil {m : Moment σ} (out : m.out = []) : m.Idle := by
  intro o ho
  simp [out] at ho

theorem idle_of_within {m : Moment σ} {o : Outing} {below : List Outing} {base : Nat}
    {returnSize : Option Nat} (out : m.out = o :: below)
    (stage : o.stage = .within base returnSize) : m.Idle := by
  intro p hp
  rw [out] at hp
  cases hp
  exact ⟨base, returnSize, stage⟩

/-- What a coroutine does first if it is resumed. -/
def opening (host : Host σ) (m : Moment σ) (r : Ref .coroutine) (args : List Value) :
    Exec σ Unit :=
  Coroutine.opening host (m.heap.coroutine r).state (m.heap.coroutine r).entry
    (m.heap.coroutine r).entryContext args

/-- A coroutine is taken out of the heap. -/
def takeOut (m : Moment σ) (r : Ref .coroutine) (args : List Value) : Moment σ :=
  let c := m.heap.coroutine r
  ⟨m.heap.modifyCoroutine r Coroutine.checkedOut, m.state,
    ⟨r, c.memory, c.config, .before (.opening c.state c.entry c.entryContext args)⟩ :: m.out⟩

/-- The innermost coroutine goes on from a machine. -/
def carryOn (r : Ref .coroutine) (M : Machine σ) (stage : Stage) (below : List Outing) :
    Moment σ :=
  ⟨M.heap, M.state, ⟨r, M.memory, M.config, stage⟩ :: below⟩

/-- The innermost coroutine is back in the heap. -/
def bringBack (r : Ref .coroutine) (state : Lifecycle) (memory : Stacks) (M : Machine σ)
    (below : List Outing) : Moment σ :=
  ⟨Coroutine.checkIn r state memory M.heap, M.state, below⟩

end Moment

namespace Stage

/-- **The computation that is due at a stage**: a task, or what is left to do when an effectful
function has given some answer. -/
inductive Does (host : Host σ) : Stage → Exec σ (Option Exit) → Prop
  | task (task : Task) : Does host (.before task) (task.work host)
  | answered (base : Nat) (returnSize : Option Nat) (answer : Except Fault (List Value)) :
      Does host (.within base returnSize) (Exec.settle host.sizes base returnSize none answer)

/-- **A coroutine goes on**, to a machine and a stage: its computation comes to a result, or to a
call of an effectful function. -/
inductive Goes (host : Host σ) (stage : Stage) (M : Machine σ) : Machine σ → Stage → Prop
  | done {x : Exec σ (Option Exit)} {N : Machine σ} (does : stage.Does host x)
      (work : x M = .ok none N) : Goes host stage M N (.before .step)
  | calls {task : Task} {call : EffectCall σ} (before : stage = .before task)
      (calls : Exec.Calls host task.work none M call) :
      Goes host stage M call.machine (.within call.base call.returnSize)

/-- **A coroutine ends its run**, with a machine: it is left in a state with some stacks. -/
inductive Ends (host : Host σ) (stage : Stage) (M : Machine σ) :
    Machine σ → Lifecycle → Stacks → Prop
  | exits {x : Exec σ (Option Exit)} {exit : Exit} {N : Machine σ} (does : stage.Does host x)
      (work : x M = .ok (some exit) N) : Ends host stage M N (Coroutine.stateAfter exit) N.memory
  | faults {x : Exec σ (Option Exit)} {f : Fault} {N : Machine σ} (does : stage.Does host x)
      (work : x M = .error (.fault f) N) : Ends host stage M N .stopped N.memory.clear
  /-- It does not come back. -/
  | breaks {x : Exec σ (Option Exit)} {e : Stop} {N : Machine σ} (does : stage.Does host x)
      (work : x M = .error e N) (unanswered : ∀ f, e ≠ .fault f) :
      Ends host stage M N .running N.memory
  /-- The host has given it up. -/
  | abandoned : Ends host stage M M .running M.memory

end Stage

namespace Moment

/-- **What may happen next**, marked with the coroutine that is resumed, if any.  A resume that is
refused changes nothing, and is no step. -/
inductive Next (host : Host σ) : Option (Ref .coroutine) → Moment σ → Moment σ → Prop
  | arrange {m m' : Moment σ} (idle : m.Idle)
      (coroutines : m'.heap.coroutines = m.heap.coroutines) (out : m'.out = m.out) :
      Next host none m m'
  | make {m : Moment σ} (idle : m.Idle) (entry : Value) (context : Option (Ref .context))
      (config : Config) :
      Next host none m { m with heap := (m.heap.newCoroutine (.new entry context config)).2 }
  | ready {m : Moment σ} (idle : m.Idle) (r : Ref .coroutine) :
      Next host none m { m with heap := Coroutine.setResumable r m.heap }
  | resumes {m : Moment σ} (idle : m.Idle) {r : Ref .coroutine} (holds : m.heap.coroutines.Holds r)
      (accepted : Coroutine.canResume (m.heap.coroutine r).state) (args : List Value) :
      Next host (some r) m (m.takeOut r args)
  | goes {m : Moment σ} {o : Outing} {below : List Outing} {N : Machine σ} {stage : Stage}
      (out : m.out = o :: below) (goes : o.stage.Goes host (o.machine m.heap m.state) N stage) :
      Next host none m (carryOn o.ref N stage below)
  | ends {m : Moment σ} {o : Outing} {below : List Outing} {N : Machine σ} {state : Lifecycle}
      {memory : Stacks} (out : m.out = o :: below)
      (ends : o.stage.Ends host (o.machine m.heap m.state) N state memory) :
      Next host none m (bringBack o.ref state memory N below)

/-- Any number of steps with such marks. -/
abbrev Path (host : Host σ) (marks : Option (Ref .coroutine) → Prop) :
    Moment σ → Moment σ → Prop :=
  Relation.ReflTransGen fun m m' => ∃ mark, marks mark ∧ Next host mark m m'

/-- The moments that a host with an empty heap comes to. -/
def Reached (host : Host σ) (m : Moment σ) : Prop :=
  ∃ state, Path host (fun _ => True) ⟨.empty, state, []⟩ m

end Moment

/-! ### The computations of a coroutine that is out -/

section

variable {host : Host σ} {M N : Machine σ} {f : Fault}

theorem Task.opening_moves (host : Host σ) (state : Lifecycle) (entry : Value)
    (context : Option (Ref .context)) (args : List Value) (M : Machine σ) :
    M.Moves host (Exec.last ((Task.opening state entry context args).work host M)) := by
  have htame : Exec.Tame host False ((Task.opening state entry context args).work host) :=
    (Coroutine.tame_opening host state entry context args).bind fun _ =>
      .of_calls fun _ => .pure none
  exact htame M False.elim

theorem Task.paces {task : Task} {e : Option Exit} (h : task.work host M = .ok e N) :
    M.Paces host N := by
  cases task with
  | opening state entry context args =>
    have hmoves := Task.opening_moves host state entry context args M
    rw [h] at hmoves
    exact .goes (.moves hmoves)
  | step => exact (Exec.step_paces host M).1 h

theorem Task.strides_of_fault {task : Task} (h : task.work host M = .error (.fault f) N) :
    M.Strides host N := by
  cases task with
  | opening state entry context args =>
    have hmoves := Task.opening_moves host state entry context args M
    rw [h] at hmoves
    exact .moves hmoves
  | step => exact Exec.strides_of_fault h

/-- **A task calls an effectful function last**, if at all. -/
theorem Task.work_callsLast (host : Host σ) (task : Task) :
    Exec.CallsLast host task.work none := by
  cases task with
  | opening state entry context args =>
    exact (Exec.CallsLast.opening state entry context args).giving none
  | step => exact Exec.step_callsLast host

theorem Exec.settle_moves (host : Host σ) (base : Nat) (returnSize : Option Nat)
    (answer : Except Fault (List Value)) (M : Machine σ) :
    M.Moves host
      (last ((settle host.sizes base returnSize none answer : Exec σ (Option Exit)) M)) := by
  have htame : Tame host False
      (settle host.sizes base returnSize none answer : Exec σ (Option Exit)) :=
    .of_calls fun _ => (Upholds.ofFault answer).bind fun results =>
      (Upholds.pushAll results).bind fun _ => (Upholds.shape _ base returnSize).bind fun _ =>
        .pure none
  exact htame M False.elim

/-- The machine at a call is one that a fault of the function would leave behind. -/
theorem Exec.Calls.faults {x : Host σ → Exec σ α} {a : α} {call : EffectCall σ}
    (h : Calls host x a M call) (f : Fault) :
    x (host.withEffects fun _ _ _ s => (.error f, s)) M = .error (.fault f) call.machine :=
  h _

namespace Stage

variable {stage stage' : Stage} {x : Exec σ (Option Exit)}

theorem Does.paces {e : Option Exit} (does : stage.Does host x) (h : x M = .ok e N) :
    M.Paces host N := by
  cases does with
  | task task => exact Task.paces h
  | answered base returnSize answer =>
    have hmoves := Exec.settle_moves host base returnSize answer M
    rw [h] at hmoves
    exact .goes (.moves hmoves)

theorem Does.grows (does : stage.Does host x) : M.heap.Grows (Exec.last (x M)).heap := by
  cases does with
  | task task =>
    cases task with
    | opening state entry context args =>
      exact (Task.opening_moves host state entry context args M).grows
    | step => exact Exec.step_grows host M
  | answered base returnSize answer =>
    exact (Exec.settle_moves host base returnSize answer M).grows

/-- Only steps hand control out. -/
theorem Does.departs {exit : Exit} (does : stage.Does host x) (h : x M = .ok (some exit) N) :
    M.Departs N exit := by
  cases does with
  | task task =>
    cases task with
    | opening state entry context args =>
      exact absurd h (Exec.Silent.bind (fun _ => .none) M N exit)
    | step => exact Exec.departs_of_step h
  | answered base returnSize answer =>
    have hsilent : Exec.Silent (Exec.settle (σ := σ) host.sizes base returnSize none answer) :=
      .bind fun _ => .bind fun _ => .bind fun _ => .none
    exact absurd h (hsilent M N exit)

theorem Goes.grows (goes : stage.Goes host M N stage') : M.heap.Grows N.heap := by
  cases goes with
  | done does work =>
    have hgrows := does.grows (M := M)
    rwa [work] at hgrows
  | calls before calls => exact (Task.strides_of_fault (calls.faults .stackUnderflow)).grows

/-- A coroutine that goes on keeps grounded stacks grounded. -/
theorem Goes.grounded (hmodest : host.Modest) (goes : stage.Goes host M N stage')
    (hM : M.memory.Grounded) : N.memory.Grounded := by
  cases goes with
  | done does work => exact (does.paces work).grounded hmodest hM
  | calls before calls =>
    have hstrides := Task.strides_of_fault (calls.faults .stackUnderflow)
    have hother (effects : Host.Effects σ) : (host.withEffects effects).Modest := hmodest
    exact hstrides.grounded (hother _) hM

variable {state : Lifecycle} {memory : Stacks}

theorem Ends.grows (ends : stage.Ends host M N state memory) : M.heap.Grows N.heap := by
  cases ends with
  | abandoned => exact .refl _
  | exits does work | faults does work | breaks does work =>
    have hgrows := does.grows (M := M)
    rwa [work] at hgrows

/-- The coroutine is running still, if it does not come back, or has moved on from that. -/
theorem Ends.arrow (ends : stage.Ends host M N state memory) :
    state = .running ∨ Lifecycle.Arrow .running state := by
  cases ends with
  | exits does work => exact .inr (Lifecycle.arrow_stateAfter _)
  | faults does work => exact .inr .stop
  | breaks does work => exact .inl rfl
  | abandoned => exact .inl rfl

/-- The stacks are as the state has them. -/
theorem Ends.kept (hmodest : host.Modest) (ends : stage.Ends host M N state memory)
    (hM : M.memory.Grounded) (c : Coroutine) : Coroutine.Kept { c with state, memory } := by
  cases ends with
  | exits does work =>
    have hN := (does.paces work).grounded hmodest hM
    exact Vm.kept_of_departs (does.departs work) hM hN c
  | faults does work => exact Stacks.view_clear _
  | breaks does work => trivial
  | abandoned => trivial

end Stage

end

namespace Moment

/-! ### One step -/

variable {host : Host σ} {m m' : Moment σ} {mark : Option (Ref .coroutine)} {r : Ref .coroutine}
  {marks : Option (Ref .coroutine) → Prop}

theorem Next.holds (next : Next host mark m m') (hr : m.heap.coroutines.Holds r) :
    m'.heap.coroutines.Holds r := by
  cases next with
  | arrange idle coroutines out => rwa [coroutines]
  | make idle entry context config => exact Heap.holds_newCoroutine hr
  | ready idle q => exact Heap.holds_modifyCoroutine.mpr hr
  | resumes idle holds accepted args => exact Heap.holds_modifyCoroutine.mpr hr
  | goes out goes => exact goes.grows.holds hr
  | ends out ends => exact Heap.holds_modifyCoroutine.mpr (ends.grows.holds hr)

/-- **What becomes of a coroutine in one step**, with the coroutines that are out before and after:
it is left to wait, it is resumed, or it was the innermost that is out and has ended its run. -/
inductive Fate (mark : Option (Ref .coroutine)) (r : Ref .coroutine)
    (before after : List (Ref .coroutine)) (c c' : Coroutine) : Prop
  | waits (left : mark ≠ some r) (out : r ∈ after → r ∈ before) (waits : c.Waits c')
  | resumed (mark : mark = some r) (accepted : Coroutine.canResume c.state)
      (running : c'.state = .running)
  | back (last : before = r :: after) (arrow : c'.state = .running ∨
      Lifecycle.Arrow .running c'.state)

theorem Next.fate (next : Next host mark m m') (hr : m.heap.coroutines.Holds r) :
    Fate mark r m.refs m'.refs (m.heap.coroutine r) (m'.heap.coroutine r) := by
  cases next with
  | arrange idle coroutines out =>
    refine .waits nofun (fun h => ?_) (.inl ?_)
    · rwa [refs, ← out]
    · rw [Heap.coroutine, coroutines]
      rfl
  | make idle entry context config =>
    exact .waits nofun id (.inl (Store.get_add_of_holds _ _ hr))
  | ready idle q =>
    refine .waits nofun id ?_
    show (m.heap.coroutine r).Waits ((Coroutine.setResumable q m.heap).coroutine r)
    by_cases hne : r = q
    · subst hne
      exact (Coroutine.waits_setResumable hr).1
    · rw [Coroutine.setResumable, Heap.coroutine_modify_of_ne hne]
      exact .inl rfl
  | @resumes _ _ q holds accepted args =>
    by_cases hne : r = q
    · subst hne
      exact .resumed rfl accepted (congrArg Coroutine.state (Heap.coroutine_modify_self hr _))
    · refine .waits (fun h => hne (Option.some.inj h).symm) (fun h => ?_)
        (.inl (Heap.coroutine_modify_of_ne hne _))
      exact (List.mem_cons.mp h).resolve_left hne
  | goes out goes =>
    refine .waits nofun (fun h => ?_) (.inl (goes.grows.coroutine hr))
    rw [refs, out]
    exact h
  | @ends _ o below N state memory out ends =>
    have hrefs : m.refs = o.ref :: below.map Outing.ref := by rw [refs, out, List.map_cons]
    have hback := ends.grows.holds hr
    by_cases hne : r = o.ref
    · subst hne
      have hstate : ((bringBack o.ref state memory N below).heap.coroutine o.ref).state = state :=
        congrArg Coroutine.state (Heap.coroutine_modify_self hback _)
      exact .back hrefs (hstate.symm ▸ ends.arrow)
    · refine .waits nofun (fun h => ?_) (.inl ?_)
      · rw [hrefs]
        exact List.mem_cons_of_mem _ h
      · exact (Heap.coroutine_modify_of_ne hne _).trans (ends.grows.coroutine hr)

/-- A coroutine that is neither out nor resumed is left to wait, and not out afterwards. -/
theorem Next.waits (next : Next host mark m m') (hmark : mark ≠ some r) (haway : r ∉ m.refs)
    (hr : m.heap.coroutines.Holds r) :
    (m.heap.coroutine r).Waits (m'.heap.coroutine r) ∧ r ∉ m'.refs := by
  cases next.fate hr with
  | waits left out waits => exact ⟨waits, fun h => haway (out h)⟩
  | resumed mark accepted running => exact absurd mark hmark
  | back last arrow => exact absurd (last ▸ List.mem_cons_self) haway

/-- A coroutine that is resumed is running. -/
theorem Next.running (next : Next host (some r) m m') (haway : r ∉ m.refs)
    (hr : m.heap.coroutines.Holds r) : (m'.heap.coroutine r).state = .running := by
  cases next.fate hr with
  | waits left out waits => exact absurd rfl left
  | resumed mark accepted running => exact running
  | back last arrow => exact absurd (last ▸ List.mem_cons_self) haway

/-- **The coroutines that are out** are there, they are running, and each is out once. -/
structure Ordered (m : Moment σ) : Prop where
  holds : ∀ r ∈ m.refs, m.heap.coroutines.Holds r
  running : ∀ r ∈ m.refs, (m.heap.coroutine r).state = .running
  distinct : m.refs.Nodup

/-- **One step** is at most one move in the life of a coroutine. -/
theorem Next.arrow (next : Next host mark m m') (hm : m.Ordered) (hr : m.heap.coroutines.Holds r) :
    (m'.heap.coroutine r).state = (m.heap.coroutine r).state ∨
      Lifecycle.Arrow (m.heap.coroutine r).state (m'.heap.coroutine r).state := by
  cases next.fate hr with
  | waits left out waits =>
    rcases waits with hsame | ⟨hstate, hready⟩
    · exact .inl (congrArg Coroutine.state hsame)
    · rw [hready, hstate]
      exact .inr .ready
  | resumed mark accepted running =>
    rw [running]
    exact .inr (Lifecycle.arrow_running accepted)
  | back last arrow =>
    rw [hm.running r (last ▸ List.mem_cons_self)]
    exact arrow

/-- How the coroutines change that are out: they are the same, one has come, or one has gone. -/
theorem Next.refs_cases (next : Next host mark m m') :
    m'.refs = m.refs ∨
      (∃ r, m'.refs = r :: m.refs ∧ m.heap.coroutines.Holds r ∧
        Coroutine.canResume (m.heap.coroutine r).state) ∨
      ∃ r, m.refs = r :: m'.refs := by
  cases next with
  | arrange idle coroutines out => exact .inl (congrArg (List.map Outing.ref) out)
  | make idle entry context config => exact .inl rfl
  | ready idle q => exact .inl rfl
  | resumes idle holds accepted args => exact .inr (.inl ⟨_, rfl, holds, accepted⟩)
  | goes out goes => exact .inl (congrArg (List.map Outing.ref) out).symm
  | ends out ends => exact .inr (.inr ⟨_, congrArg (List.map Outing.ref) out⟩)

/-- A coroutine that may be resumed is not out. -/
theorem Ordered.away (hm : m.Ordered) (hstate : (m.heap.coroutine r).state ≠ .running) :
    r ∉ m.refs :=
  fun hr => hstate (hm.running r hr)

/-- **One step** leaves the coroutines in order that are out. -/
theorem Next.ordered (next : Next host mark m m') (hm : m.Ordered) : m'.Ordered := by
  have hold : (∀ r ∈ m'.refs, m.heap.coroutines.Holds r) ∧ m'.refs.Nodup := by
    rcases next.refs_cases with hsame | ⟨q, hcome, hq, haccepted⟩ | ⟨q, hgone⟩
    · rw [hsame]
      exact ⟨hm.holds, hm.distinct⟩
    · have haway : q ∉ m.refs := hm.away fun h => by
        rw [h] at haccepted
        cases haccepted
      rw [hcome]
      exact ⟨List.forall_mem_cons.mpr ⟨hq, hm.holds⟩,
        List.nodup_cons.mpr ⟨haway, hm.distinct⟩⟩
    · have hholds := hm.holds
      have hdistinct := hm.distinct
      rw [hgone] at hholds hdistinct
      exact ⟨(List.forall_mem_cons.mp hholds).2, (List.nodup_cons.mp hdistinct).2⟩
  obtain ⟨hholds, hdistinct⟩ := hold
  refine ⟨fun r hr => next.holds (hholds r hr), fun r hr => ?_, hdistinct⟩
  cases next.fate (hholds r hr) with
  | waits left out waits =>
    rcases waits with hsame | ⟨hstate, -⟩
    · rw [hsame]
      exact hm.running r (out hr)
    · rw [hm.running r (out hr)] at hstate
      cases hstate
  | resumed mark accepted running => exact running
  | back last arrow =>
    have htwice := hm.distinct
    rw [last] at htwice
    exact absurd hr (List.nodup_cons.mp htwice).1

/-- The stacks of every coroutine are as its state has them, and those of the coroutines that are
out are grounded. -/
structure Settled (m : Moment σ) : Prop where
  kept : m.heap.All Coroutine.Kept
  grounded : ∀ o ∈ m.out, o.memory.Grounded

/-- **One step** leaves all stacks as they should be. -/
theorem Next.settled (hmodest : host.Modest) (next : Next host mark m m') (hm : m.Settled) :
    m'.Settled := by
  have hnew (entry : Value) (config : Config) : (Coroutine.new entry none config).Kept :=
    Coroutine.kept_new entry none config
  cases next with
  | arrange idle coroutines out =>
    exact ⟨hm.kept.of_coroutines_eq coroutines, fun o ho => hm.grounded o (out ▸ ho)⟩
  | make idle entry context config =>
    exact ⟨hm.kept.newCoroutine (Coroutine.kept_new entry context config), hm.grounded⟩
  | ready idle q =>
    refine ⟨hm.kept.modify fun hq => ?_, hm.grounded⟩
    have hkept := hm.kept q hq
    generalize m.heap.coroutine q = c at hkept
    obtain ⟨entry, context, state, config, memory⟩ := c
    cases state <;> exact hkept
  | resumes idle holds accepted args =>
    have hgrounded := (hm.kept _ holds).grounded accepted
    exact ⟨hm.kept.modify fun _ => trivial,
      List.forall_mem_cons.mpr ⟨hgrounded, hm.grounded⟩⟩
  | goes out goes =>
    have hout := hm.grounded
    rw [out] at hout
    obtain ⟨ho, hbelow⟩ := List.forall_mem_cons.mp hout
    exact ⟨hm.kept.grows goes.grows hnew,
      List.forall_mem_cons.mpr ⟨goes.grounded hmodest ho, hbelow⟩⟩
  | ends out ends =>
    have hout := hm.grounded
    rw [out] at hout
    obtain ⟨ho, hbelow⟩ := List.forall_mem_cons.mp hout
    exact ⟨(hm.kept.grows ends.grows hnew).modify fun _ => ends.kept hmodest ho _, hbelow⟩

/-! ### Any number of steps -/

/-- A path keeps what every step keeps. -/
theorem Path.keeps {P : Moment σ → Prop}
    (step : ∀ {mark m m'}, Next host mark m m' → P m → P m') (path : Path host marks m m')
    (hm : P m) : P m' := by
  induction path with
  | refl => exact hm
  | tail _ next ih =>
    obtain ⟨mark, -, next⟩ := next
    exact step next ih

theorem Path.holds (path : Path host marks m m') (hr : m.heap.coroutines.Holds r) :
    m'.heap.coroutines.Holds r :=
  Path.keeps (P := fun m => m.heap.coroutines.Holds r) (fun next => next.holds) path hr

/-- The marks may be forgotten. -/
theorem Next.path {mark : Option (Ref .coroutine)} (next : Next host mark m m') :
    Path host (fun _ => True) m m' :=
  .single ⟨mark, trivial, next⟩

theorem Path.free (path : Path host marks m m') : Path host (fun _ => True) m m' := by
  refine Relation.ReflTransGen.mono (fun a b h => ?_) _ _ path
  obtain ⟨mark, -, next⟩ := h
  exact ⟨mark, trivial, next⟩

theorem Path.ordered (path : Path host marks m m') (hm : m.Ordered) : m'.Ordered :=
  Path.keeps (fun next => next.ordered) path hm

theorem Path.settled (hmodest : host.Modest) (path : Path host marks m m') (hm : m.Settled) :
    m'.Settled :=
  Path.keeps (fun next => next.settled hmodest) path hm

/-- A coroutine that is not out waits until it is resumed. -/
theorem Path.waits (path : Path host (· ≠ some r) m m') (haway : r ∉ m.refs)
    (hr : m.heap.coroutines.Holds r) :
    (m.heap.coroutine r).Waits (m'.heap.coroutine r) ∧ r ∉ m'.refs := by
  induction path with
  | refl => exact ⟨.inl rfl, haway⟩
  | tail before next ih =>
    obtain ⟨mark, hmark, next⟩ := next
    obtain ⟨hwaits, haway'⟩ := ih
    obtain ⟨hwaits', haway''⟩ := next.waits hmark haway' (Path.holds before hr)
    exact ⟨hwaits.trans hwaits', haway''⟩

theorem Path.arrows (path : Path host marks m m') (hm : m.Ordered)
    (hr : m.heap.coroutines.Holds r) :
    Lifecycle.Arrows (m.heap.coroutine r).state (m'.heap.coroutine r).state := by
  induction path with
  | refl => exact .refl
  | tail before next ih =>
    obtain ⟨mark, -, next⟩ := next
    rcases next.arrow (Path.ordered before hm) (Path.holds before hr) with hsame | harrow
    · rwa [hsame]
    · exact ih.tail harrow

/-- A coroutine that has stopped is never touched again. -/
theorem Path.stopped (path : Path host marks m m') (hm : m.Ordered)
    (hr : m.heap.coroutines.Holds r) (hstate : (m.heap.coroutine r).state = .stopped) :
    m'.heap.coroutine r = m.heap.coroutine r := by
  induction path with
  | refl => rfl
  | @tail m₁ m₂ before next ih =>
    obtain ⟨mark, -, next⟩ := next
    have hstate₁ : (m₁.heap.coroutine r).state = .stopped := by rw [ih, hstate]
    cases next.fate (Path.holds before hr) with
    | waits left out waits =>
      rcases waits with hsame | ⟨hno, -⟩
      · exact hsame.trans ih
      · cases hno.symm.trans hstate₁
    | resumed mark accepted running =>
      rw [hstate₁] at accepted
      cases accepted
    | back last arrow =>
      have hrunning := (Path.ordered before hm).running r (last ▸ List.mem_cons_self)
      cases hrunning.symm.trans hstate₁

theorem Reached.onward (h : m.Reached host) (path : Path host marks m m') : m'.Reached host := by
  obtain ⟨state, before⟩ := h
  exact ⟨state, before.trans path.free⟩

theorem Reached.ordered (h : m.Reached host) : m.Ordered := by
  obtain ⟨state, path⟩ := h
  exact Path.ordered path ⟨nofun, nofun, .nil⟩

theorem Reached.settled (hmodest : host.Modest) (h : m.Reached host) : m.Settled := by
  obtain ⟨state, path⟩ := h
  exact Path.settled hmodest path ⟨fun q hq => absurd hq (Nat.not_lt_zero _), nofun⟩

/-! ### Resuming -/

/-- A coroutine that has never been resumed calls its entry. -/
theorem opening_initial (host : Host σ) (hstate : (m.heap.coroutine r).state = .initial)
    (args : List Value) :
    m.opening host r args
      = Coroutine.start host (m.heap.coroutine r).entry (m.heap.coroutine r).entryContext args := by
  rw [opening, Coroutine.opening, if_pos hstate]

/-- Any other gets the values that it is given. -/
theorem opening_again (host : Host σ) (hstate : (m.heap.coroutine r).state ≠ .initial)
    (args : List Value) : m.opening host r args = Exec.pushAll args := by
  rw [opening, Coroutine.opening, if_neg hstate]

/-- **A coroutine that has yielded or switched away** goes on where it was left: the values that it
is resumed with come on top of what control had left on its stacks. -/
theorem resumed_later (hm : m.Ordered) {o : Outing} {below : List Outing}
    (hout : m.out = o :: below) {x : Exec σ (Option Exit)} {exit : Exit} {N : Machine σ}
    (does : o.stage.Does host x) (work : x (o.machine m.heap m.state) = .ok (some exit) N)
    (path : Path host (· ≠ some o.ref)
      (bringBack o.ref (Coroutine.stateAfter exit) N.memory N below) m')
    (args : List Value) :
    ∃ K, m'.opening host o.ref args (Coroutine.checkOut o.ref m'.heap m'.state) = .ok () K ∧
      K.memory.view = { N.memory.view with values := N.memory.view.values ++ args } := by
  have hrefs : m.refs = o.ref :: below.map Outing.ref := by rw [refs, hout, List.map_cons]
  have hheld : m.heap.coroutines.Holds o.ref := hm.holds _ (hrefs ▸ List.mem_cons_self)
  have haway : o.ref ∉ below.map Outing.ref := by
    have hdistinct := hm.distinct
    rw [hrefs] at hdistinct
    exact (List.nodup_cons.mp hdistinct).1
  have hgrows : m.heap.Grows N.heap := by
    have hgrows := does.grows (M := o.machine m.heap m.state)
    rwa [work] at hgrows
  have hN := hgrows.holds hheld
  let c : Coroutine :=
    { N.heap.coroutine o.ref with state := Coroutine.stateAfter exit, memory := N.memory }
  have hback : (bringBack o.ref (Coroutine.stateAfter exit) N.memory N below).heap.coroutine o.ref
      = c := Heap.coroutine_modify_self hN _
  have hwaits := (Path.waits path haway (Heap.holds_modifyCoroutine.mpr hN)).1
  rw [hback] at hwaits
  have hlater : (m'.heap.coroutine o.ref).state ≠ .initial := by
    refine hwaits.arrows.ne_initial ?_
    cases exit <;> nofun
  rw [opening_again host hlater]
  refine ⟨(Coroutine.checkOut o.ref m'.heap m'.state).onValues fun values => values.pushAll args,
    rfl, ?_⟩
  have hmemory : (Coroutine.checkOut o.ref m'.heap m'.state).memory = N.memory := hwaits.memory_eq
  rw [Machine.view_pushAll, hmemory, Layer.pile_bare]

/-- The innermost coroutine, by its machine, goes on. -/
theorem Next.onward {M N : Machine σ} {stage stage' : Stage} (goes : stage.Goes host M N stage')
    (below : List Outing) : Next host none (carryOn r M stage below) (carryOn r N stage' below) :=
  .goes (o := ⟨r, M.memory, M.config, stage⟩) rfl goes

/-- The innermost coroutine, by its machine, ends its run. -/
theorem Next.homeward {M N : Machine σ} {stage : Stage} {state : Lifecycle} {memory : Stacks}
    (ends : stage.Ends host M N state memory) (below : List Outing) :
    Next host none (carryOn r M stage below) (bringBack r state memory N below) :=
  .ends (o := ⟨r, M.memory, M.config, stage⟩) rfl ends

/-- The moment at which a run has come back. -/
def home (r : Ref .coroutine) (below : List Outing) :
    EStateM.Result Stop (Machine σ) Exit → Moment σ
  | .ok exit N => bringBack r (Coroutine.stateAfter exit) N.memory N below
  | .error (.fault _) N => bringBack r .stopped N.memory.clear N below
  | .error _ N => bringBack r .running N.memory N below

/-- A computation that stops brings its coroutine back. -/
theorem Next.stops {x : Exec σ (Option Exit)} {M N : Machine σ} {stage : Stage} {e : Stop}
    (does : stage.Does host x) (work : x M = .error e N) (below : List Outing) :
    Next host none (carryOn r M stage below) (home r below (.error e N)) := by
  cases e with
  | fault f => exact .homeward (.faults does work) below
  | defect d => exact .homeward (.breaks does work fun _ h => by cases h) below
  | exhausted => exact .homeward (.breaks does work fun _ h => by cases h) below

/-- **A run** is a path. -/
theorem path_run (host : Host σ) (fuel : Nat) (r : Ref .coroutine) (M : Machine σ)
    (below : List Outing) :
    Path host (· = none) (carryOn r M (.before .step) below)
      (home r below (Exec.run host fuel M)) := by
  induction fuel generalizing M with
  | zero => exact .single ⟨none, rfl, .homeward .abandoned below⟩
  | succ fuel ih =>
    cases hstep : Exec.step host M with
    | error e N =>
      rw [Exec.run, Exec.bind_of_error hstep]
      exact .single ⟨none, rfl, .stops (.task .step) hstep below⟩
    | ok answer N =>
      rw [Exec.run, Exec.bind_of_ok hstep]
      cases answer with
      | some exit => exact .single ⟨none, rfl, .homeward (.exits (.task .step) hstep) below⟩
      | none => exact .head ⟨none, rfl, .onward (.done (.task .step) hstep) below⟩ (ih N)

/-- **A resume is a path** from the moment at which the coroutine is taken out of the heap. -/
theorem path_resume (host : Host σ) {vm : Vm σ}
    (accepted : Coroutine.canResume (vm.heap.coroutine r).state) (fuel : Nat) (args : List Value)
    (below : List Outing) :
    let vm' := Vm.last (Coroutine.resume host fuel r args vm)
    Path host (· = none) (takeOut ⟨vm.heap, vm.state, below⟩ r args) ⟨vm'.heap, vm'.state,
      below⟩ := by
  intro vm'
  let M : Machine σ := Coroutine.checkOut r vm.heap vm.state
  let task : Task := .opening (vm.heap.coroutine r).state (vm.heap.coroutine r).entry
    (vm.heap.coroutine r).entryContext args
  have hbody : Path host (· = none) (carryOn r M (.before task) below) (home r below
      (Coroutine.body host fuel (vm.heap.coroutine r).state (vm.heap.coroutine r).entry
        (vm.heap.coroutine r).entryContext args M)) := by
    rw [Coroutine.body_eq]
    cases hopening : Coroutine.opening host (vm.heap.coroutine r).state
        (vm.heap.coroutine r).entry (vm.heap.coroutine r).entryContext args M with
    | error e N =>
      rw [Exec.bind_of_error hopening]
      have hwork : task.work host M = .error e N := Exec.bind_of_error hopening
      exact .single ⟨none, rfl, .stops (.task task) hwork below⟩
    | ok u N =>
      rw [Exec.bind_of_ok hopening]
      have hwork : task.work host M = .ok none N := Exec.bind_of_ok hopening
      exact .head ⟨none, rfl, .onward (.done (.task task) hwork) below⟩
        (path_run host fuel r N below)
  have hhome : home r below (Coroutine.body host fuel (vm.heap.coroutine r).state
      (vm.heap.coroutine r).entry (vm.heap.coroutine r).entryContext args M)
        = ⟨vm'.heap, vm'.state, below⟩ := by
    simp only [vm', Coroutine.resume, accepted, if_true]
    generalize Coroutine.body host fuel _ _ _ args _ = result
    cases result with
    | ok exit N => rfl
    | error e N => cases e <;> rfl
  rwa [hhome] at hbody

end Moment

/-- **The life of a coroutine.**  Whatever is done to coroutines, also by effectful functions while
others are out for a run: the stacks of each are as its state has them; a coroutine that runs, has
switched away or has stopped is not resumed, and nothing changes; one that is resumed is running
until control leaves it and is then suspended, has switched away or has stopped; the only other move
is from switched away to suspended; its entry is called when it is resumed for the first time and
never again; and whenever it is resumed later, the values it gets come on top of what lay below the
position from which the last values were taken.  An effectful function is called at the end of what
a coroutine does at a time, so nothing else can come between. -/
theorem coroutine_lifecycle {host : Host σ} (hmodest : host.Modest) :
    -- the stacks that go with a state
    (∀ m : Moment σ, m.Reached host →
      (∀ r, m.heap.coroutines.Holds r →
        ((m.heap.coroutine r).state ∈ [.initial, .stopped] →
          (m.heap.coroutine r).memory.view = .bare []) ∧
        ((m.heap.coroutine r).state ∈ [.suspended, .inStack] →
          (m.heap.coroutine r).memory.frames.toList ≠ [])) ∧
      ∀ o ∈ m.out, m.heap.coroutines.Holds o.ref ∧
        (m.heap.coroutine o.ref).state = .running) ∧
    -- a resume that is refused
    (∀ (vm : Vm σ) fuel r args,
      (vm.heap.coroutine r).state ∈ [.running, .inStack, .stopped] →
      Coroutine.resume host fuel r args vm
        = .error (.usage (.invalidResume (vm.heap.coroutine r).state)) vm) ∧
    -- a resume that is not
    (∀ (vm : Vm σ) fuel r args, vm.heap.coroutines.Holds r →
      (vm.heap.coroutine r).state ∈ [.initial, .suspended] →
      (∃ state memory,
        vm.heap.Turned r state memory (Vm.last (Coroutine.resume host fuel r args vm)).heap ∧
        Vm.Leaves state (Coroutine.resume host fuel r args vm)) ∧
      ∀ below, (Moment.mk vm.heap vm.state below).Idle →
        ∃ m₁, Moment.Next host (some r) ⟨vm.heap, vm.state, below⟩ m₁ ∧
          Moment.Path host (· = none) m₁
            ⟨(Vm.last (Coroutine.resume host fuel r args vm)).heap,
              (Vm.last (Coroutine.resume host fuel r args vm)).state, below⟩) ∧
    -- a coroutine is made resumable
    (∀ (h : Heap) r, h.coroutines.Holds r →
      (h.coroutine r).Waits ((Coroutine.setResumable r h).coroutine r) ∧
      ((Coroutine.setResumable r h).coroutine r).state ≠ .inStack ∧
      ∀ q, q ≠ r → (Coroutine.setResumable r h).coroutine q = h.coroutine q) ∧
    -- one step, and any number of them
    (∀ m : Moment σ, m.Reached host → ∀ r, m.heap.coroutines.Holds r →
      (∀ mark m', Moment.Next host mark m m' →
        (m'.heap.coroutine r).state = (m.heap.coroutine r).state ∨
          Lifecycle.Arrow (m.heap.coroutine r).state (m'.heap.coroutine r).state) ∧
      ∀ m', Moment.Path host (fun _ => True) m m' →
        Lifecycle.Arrows (m.heap.coroutine r).state (m'.heap.coroutine r).state ∧
        ((m.heap.coroutine r).state = .stopped → m'.heap.coroutine r = m.heap.coroutine r)) ∧
    -- the entry
    (∀ m : Moment σ, m.Reached host → ∀ r, m.heap.coroutines.Holds r →
      (m.heap.coroutine r).state = .initial →
      ∀ m₁, Moment.Path host (· ≠ some r) m m₁ →
        (∀ args, m₁.opening host r args = Coroutine.start host (m.heap.coroutine r).entry
          (m.heap.coroutine r).entryContext args) ∧
        ∀ m₂ m₃, Moment.Next host (some r) m₁ m₂ →
          Moment.Path host (fun _ => True) m₂ m₃ →
          ∀ args, m₃.opening host r args = Exec.pushAll args) ∧
    -- the values of a later resume
    (∀ m : Moment σ, m.Reached host → ∀ o below, m.out = o :: below → ∀ x exit N,
      o.stage.Does host x → x (o.machine m.heap m.state) = .ok (some exit) N →
      (o.machine m.heap m.state).Departs N exit ∧
      let m₁ := Moment.bringBack o.ref (Coroutine.stateAfter exit) N.memory N below
      Moment.Next host none m m₁ ∧
      ∀ m₂, Moment.Path host (· ≠ some o.ref) m₁ m₂ → ∀ args, ∃ K,
        m₂.opening host o.ref args (Coroutine.checkOut o.ref m₂.heap m₂.state) = .ok () K ∧
        K.memory.view = { N.memory.view with values := N.memory.view.values ++ args }) ∧
    -- where effectful functions are called
    ∀ task : Task, Exec.CallsLast host task.work none := by
  refine ⟨?_, ?_, ?_, ?_, ?_, ?_, ?_, Task.work_callsLast host⟩
  · intro m hm
    refine ⟨fun r hr => ?_, fun o ho => ?_⟩
    · have hkept := (hm.settled hmodest).kept r hr
      unfold Coroutine.Kept at hkept
      generalize (m.heap.coroutine r).state = s at hkept
      cases s <;> simp_all
    · have hmem : o.ref ∈ m.refs := List.mem_map_of_mem ho
      exact ⟨hm.ordered.holds _ hmem, hm.ordered.running _ hmem⟩
  · intro vm fuel r args hstate
    refine Coroutine.resume_refused host fuel args ?_
    generalize (vm.heap.coroutine r).state = s at hstate
    cases s <;> simp_all [Coroutine.canResume]
  · intro vm fuel r args hr hstate
    have haccepted : Coroutine.canResume (vm.heap.coroutine r).state := by
      generalize (vm.heap.coroutine r).state = s at hstate
      cases s <;> simp_all [Coroutine.canResume]
    refine ⟨(Coroutine.resumed host fuel args haccepted).turned, fun below idle => ?_⟩
    exact ⟨_, .resumes idle hr haccepted args,
      Moment.path_resume host haccepted fuel args below⟩
  · intro h r hr
    obtain ⟨hwaits, hstate⟩ := Coroutine.waits_setResumable hr
    exact ⟨hwaits, hstate, fun q hne => Heap.coroutine_modify_of_ne hne _⟩
  · intro m hm r hr
    refine ⟨fun mark m' next => next.arrow hm.ordered hr, fun m' path => ?_⟩
    exact ⟨Moment.Path.arrows path hm.ordered hr, Moment.Path.stopped path hm.ordered hr⟩
  · intro m hm r hr hstate m₁ path
    have haway := hm.ordered.away (r := r) (by rw [hstate]; decide)
    have hsame := (Moment.Path.waits path haway hr).1.of_initial hstate
    refine ⟨fun args => ?_, fun m₂ m₃ next path' args => ?_⟩
    · rw [← hsame]
      exact Moment.opening_initial host (by rw [hsame, hstate]) args
    · have hr₁ := Moment.Path.holds path hr
      have hrunning := next.running (Moment.Path.waits path haway hr).2 hr₁
      have harrows := Moment.Path.arrows path' (next.ordered (Moment.Path.ordered path hm.ordered))
        (next.holds hr₁)
      exact Moment.opening_again host (harrows.ne_initial (by rw [hrunning]; decide)) args
  · intro m hm o below hout x exit N does work
    exact ⟨does.departs work, .ends hout (.exits does work), fun m₂ path args =>
      Moment.resumed_later hm.ordered hout does work path args⟩

/-! ### One coroutine within another -/

namespace Nesting

/-- Two closures: one yields a nil; the other calls its argument (`0x50` loads it), makes a system
call (`0xe0`) and ends. -/
def heap : Heap :=
  { Heap.empty with
    units := ⟨#[⟨#[
      ⟨"pausing", #[(Op.loadConstant .nil).byte, (Op.control .yield).byte], 0, []⟩,
      ⟨"calling", #[0x50, (Op.control .call).byte, 0xe0], 0, []⟩], #[], 0⟩]⟩
    functions := ⟨#[⟨⟨0⟩, 0, none⟩, ⟨⟨0⟩, 1, none⟩]⟩ }

/-- Its system call pushes a delimiter. -/
def host : Host (Array Scripted.Event) :=
  Scripted.Library.host default fun _ => some [.pushDelimiter 2]

/-- What the second closure does first when it is called with an effectful function. -/
def opening : Task := .opening .initial (.function ⟨1⟩) none [.effectFn ⟨0⟩]

/-- The heap with a coroutine over the first closure, -/
def single : Heap := (heap.newCoroutine (.new (.function ⟨0⟩) none .standard)).2

/-- and with one over the second closure as well. -/
def populated : Heap := (single.newCoroutine (.new (.function ⟨1⟩) none .standard)).2

/-- The second coroutine has been taken out, -/
def taken : Machine (Array Scripted.Event) := Coroutine.checkOut ⟨1⟩ populated #[]

/-- it has been started, -/
def started : Machine (Array Scripted.Event) := Exec.last (opening.work host taken)

/-- it has loaded its argument, -/
def loaded : Machine (Array Scripted.Event) := Exec.last (Exec.step host started)

/-- it has fetched the call, -/
def fetched : Machine (Array Scripted.Event) :=
  Exec.last ((Exec.fetch ⟨1⟩ : Exec _ _) loaded)

/-- it has taken the function off the stack, -/
def popped : Machine (Array Scripted.Event) := Exec.last (Exec.pop fetched)

/-- and the arguments. -/
def called : Machine (Array Scripted.Event) :=
  Exec.last ((Exec.takeFrom 1 : Exec _ _) popped)

/-- The function has been called. -/
def calling : Moment (Array Scripted.Event) := .carryOn ⟨1⟩ called (.within 1 none) []

theorem calls : Exec.Calls host Task.step.work none loaded ⟨called, ⟨0⟩, [], 1, none⟩ := by
  have hfetch : (Exec.fetch ⟨1⟩ : Exec _ _) loaded = .ok (.control .call, 0, 0) fetched :=
    Exec.ok_of_answer? (by decide +kernel)
  have hpop : (Exec.pop : Exec _ _) fetched = .ok (.effectFn ⟨0⟩) popped :=
    Exec.ok_of_answer? (by decide +kernel)
  have hbase : (Exec.peekDelimiter : Exec _ _) popped = .ok 1 popped := by
    rfl
  have hargs : (Exec.takeFrom 1 : Exec _ _) popped = .ok [] called :=
    Exec.ok_of_answer? (by decide +kernel)
  have hcall :
      Exec.Calls host (fun host => Exec.execute host ⟨1⟩ ⟨0⟩ (.control .call) 0 0) none
        fetched ⟨called, ⟨0⟩, [], 1, none⟩ :=
    .after hpop (.after hbase ((Exec.Calls.invoke hargs none).giving none))
  have hstep : Exec.Calls host
      (fun host => Exec.fetch ⟨1⟩ >>= fun next =>
        Exec.execute host ⟨1⟩ ⟨0⟩ next.1 next.2.1 next.2.2)
      none loaded ⟨called, ⟨0⟩, [], 1, none⟩ :=
    .after hfetch hcall
  exact hstep

theorem reached : calling.Reached host := by
  have hopening : opening.work host taken = .ok none started :=
    Exec.ok_of_answer? (by decide +kernel)
  have hload : Task.step.work host started = .ok none loaded :=
    Exec.ok_of_answer? (by decide +kernel)
  have harrange : Moment.Next host none ⟨.empty, #[], []⟩ ⟨heap, #[], []⟩ :=
    .arrange (Moment.idle_of_out_eq_nil rfl) rfl rfl
  have hmake₀ : Moment.Next host none ⟨heap, #[], []⟩ ⟨single, #[], []⟩ :=
    .make (Moment.idle_of_out_eq_nil rfl) (.function ⟨0⟩) none .standard
  have hmake₁ : Moment.Next host none ⟨single, #[], []⟩ ⟨populated, #[], []⟩ :=
    .make (Moment.idle_of_out_eq_nil rfl) (.function ⟨1⟩) none .standard
  have hresume : Moment.Next host (some ⟨1⟩) ⟨populated, #[], []⟩
      (.carryOn ⟨1⟩ taken (.before opening) []) :=
    .resumes (m := ⟨populated, #[], []⟩) (Moment.idle_of_out_eq_nil rfl) Nat.one_lt_two rfl
      [.effectFn ⟨0⟩]
  have hopen := Moment.Next.onward (r := ⟨1⟩) (.done (.task opening) hopening) []
  have hstep := Moment.Next.onward (r := ⟨1⟩) (.done (.task .step) hload) []
  have hcall := Moment.Next.onward (r := ⟨1⟩) (.calls rfl calls) []
  have hmade : Moment.Path host (fun _ => True) ⟨.empty, #[], []⟩ ⟨populated, #[], []⟩ :=
    (harrange.path.trans hmake₀.path).trans hmake₁.path
  have hran : Moment.Path host (fun _ => True) ⟨populated, #[], []⟩ calling :=
    ((hresume.path.trans hopen.path).trans hstep.path).trans hcall.path
  exact ⟨#[], hmade.trans hran⟩

theorem held : calling.heap.coroutines.Holds ⟨0⟩ ∧ calling.heap.coroutines.Holds ⟨1⟩ := by
  show 0 < calling.heap.coroutines.size ∧ 1 < calling.heap.coroutines.size
  decide +kernel

/-- The heap and the state of the host when the function has resumed the first coroutine. -/
def resumed : Vm (Array Scripted.Event) :=
  Vm.last (Coroutine.resume host 9 ⟨0⟩ [] ⟨calling.heap, calling.state, .standard, []⟩)

/-- The second coroutine, before the function answers, -/
def waiting : Machine (Array Scripted.Event) :=
  ⟨resumed.heap, called.memory, called.config, resumed.state⟩

/-- and afterwards. -/
def answered : Machine (Array Scripted.Event) :=
  Exec.last ((Exec.settle host.sizes 1 none none (.ok [.int 5]) : Exec _ (Option Exit)) waiting)

end Nesting

open Nesting in
/-- **One coroutine runs within another.**  The second one calls an effectful function, which
resumes the first one; then the second one goes on.  Its system call pushes a delimiter that is
never popped. -/
theorem coroutine_lifecycle_nested :
    host.Modest ∧ calling.Reached host ∧ calling.refs = [⟨1⟩] ∧
    (calling.heap.coroutine ⟨1⟩).state = .running ∧
    ∃ m₂ m₃, Moment.Path host (fun _ => True) calling m₂ ∧ m₂.refs = [⟨1⟩] ∧
      (m₂.heap.coroutine ⟨0⟩).state = .suspended ∧
      (m₂.heap.coroutine ⟨0⟩).memory.frames.toList ≠ [] ∧
      Moment.Path host (fun _ => True) m₂ m₃ ∧ m₃.refs = [] ∧
      (m₃.heap.coroutine ⟨1⟩).state = .stopped ∧
      (m₃.heap.coroutine ⟨1⟩).memory.view = .bare [] := by
  have hmodest : host.Modest := Scripted.Library.modest _ _
  obtain ⟨hstacks, -, hturns, -⟩ := coroutine_lifecycle hmodest
  let m₂ : Moment (Array Scripted.Event) := ⟨resumed.heap, resumed.state, calling.out⟩
  have hm₂ : m₂ = .carryOn ⟨1⟩ waiting (.within 1 none) [] := by
    simp only [m₂, Moment.carryOn, waiting, calling]
  let m₃ := Moment.home ⟨1⟩ [] (Exec.run host 9 answered)
  have hwithin : Moment.Path host (fun _ => True) calling m₂ := by
    obtain ⟨-, hpath⟩ := hturns ⟨calling.heap, calling.state, .standard, []⟩ 9 ⟨0⟩ []
      held.1 (by decide +kernel)
    obtain ⟨m₁, hnext, hpath⟩ := hpath calling.out (Moment.idle_of_within rfl rfl)
    have hfree : Moment.Path host (fun _ => True) m₁ m₂ := Moment.Path.free hpath
    exact hnext.path.trans hfree
  have hbehind : Moment.Path host (fun _ => True) m₂ m₃ := by
    have hanswer :
        (Exec.settle host.sizes 1 none none (.ok [.int 5]) : Exec _ (Option Exit)) waiting
          = .ok none answered := Exec.ok_of_answer? (by decide +kernel)
    have hrun :
        Moment.Path host (fun _ => True) (.carryOn ⟨1⟩ answered (.before .step) []) m₃ :=
      Moment.Path.free (Moment.path_run host 9 ⟨1⟩ answered [])
    have hgoes := Moment.Next.onward (r := ⟨1⟩) (.done (.answered 1 none _) hanswer) []
    rw [hm₂]
    exact hgoes.path.trans hrun
  have hsuspended : (m₂.heap.coroutine ⟨0⟩).state = .suspended := by decide +kernel
  have hstopped : (m₃.heap.coroutine ⟨1⟩).state = .stopped := by decide +kernel
  have hreached := reached.onward hwithin
  have hheld₂ : m₂.heap.coroutines.Holds ⟨0⟩ := Moment.Path.holds hwithin held.1
  have hheld₃ : m₃.heap.coroutines.Holds ⟨1⟩ :=
    Moment.Path.holds hbehind (Moment.Path.holds hwithin held.2)
  obtain ⟨-, hcalling⟩ := hstacks calling reached
  obtain ⟨hkept₂, -⟩ := hstacks m₂ hreached
  obtain ⟨hkept₃, -⟩ := hstacks m₃ (hreached.onward hbehind)
  have hrunning : (calling.heap.coroutine ⟨1⟩).state = .running :=
    (hcalling ⟨⟨1⟩, called.memory, called.config, .within 1 none⟩ List.mem_cons_self).2
  have hframes : (m₂.heap.coroutine ⟨0⟩).memory.frames.toList ≠ [] :=
    (hkept₂ ⟨0⟩ hheld₂).2 (by rw [hsuspended]; decide)
  have hview : (m₃.heap.coroutine ⟨1⟩).memory.view = .bare [] :=
    (hkept₃ ⟨1⟩ hheld₃).1 (by rw [hstopped]; decide)
  have hout₁ : calling.refs = [⟨1⟩] := rfl
  have hout₂ : m₂.refs = [⟨1⟩] := rfl
  have hout₃ : m₃.refs = [] := by decide +kernel
  exact ⟨hmodest, reached, hout₁, hrunning, m₂, m₃, hwithin, hout₂, hsuspended,
    hframes, hbehind, hout₃, hstopped, hview⟩

/-! ### A system call that does not keep to its activation -/

/-- A closure that makes a system call (`0xe0`) and ends, and a coroutine over it. -/
def Vm.littering : Vm Unit :=
  { Vm.new .standard () with
    heap := { Heap.empty with
      units := ⟨#[⟨#[⟨"littering", #[0xe0], 0, []⟩], #[], 0⟩]⟩
      functions := ⟨#[⟨⟨0⟩, 0, none⟩]⟩
      coroutines := ⟨#[.new (.function ⟨0⟩) none .standard]⟩ } }

/-- A host with a system call that pushes a delimiter and lets the delimiters of the current frame
start above it. -/
def Host.littering : Host Unit :=
  { Host.bare with
    syscall := fun _ => some fun _ s state =>
      { memory := { s with
          frames := s.frames.modifyLast fun f => { f with delimiterBase := 1 }
          delimiters := s.delimiters.push 0 }
        state
        defect := none } }

/-- **Without `Host.Modest`** a coroutine that has returned and stopped may have a delimiter
left. -/
theorem coroutine_lifecycle_littered :
    ∃ vm, Coroutine.resume .littering 9 ⟨0⟩ [] .littering = .ok (.finished []) vm ∧
      (vm.heap.coroutine ⟨0⟩).state = .stopped ∧
      (vm.heap.coroutine ⟨0⟩).memory.delimiters.toList = [0] := by
  have hexit : Vm.exit? (Coroutine.resume .littering 9 ⟨0⟩ [] .littering)
      = some (.finished []) := by decide +kernel
  obtain ⟨vm, hresume, hvm⟩ := Vm.ok_of_exit? hexit
  refine ⟨vm, hresume, ?_⟩
  rw [hvm]
  decide +kernel

end ScriptVm
