import ScriptVm.Proofs.Live
import ScriptVm.Proofs.Mirror.Steps

/-!
# Runs in a mirror

Twin machines make their steps side by side, so they run for the same time and stop
for the same reason.  A coroutine that is resumed and its twin make the same opening,
and when control has left them they are put back as twins.  So the scheduler makes its
rounds side by side as well, and a request has one answer on both sides.

What is known grows along a run.  So a computation of the scheduler mirrors another if
it does so however much is known already.

Main statements: `Machine.Twin.run` (a run of one coroutine), `Schedules.loop` (a run of
the scheduler) and `Schedules.request` (what is asked of it).
-/

namespace ScriptVm

variable {σ α β γ δ : Type} {m : Mirror σ} {host : Host σ}

/-- The mirror when more is known. -/
def Mirror.at (m : Mirror σ) (T : Likeness) : Mirror σ :=
  { m with like := T }

/-! ### Runs of a coroutine -/

/-- **A run**, for the same time on both sides. -/
theorem Machine.Twin.run (oblivious : host.Oblivious m.states m.aside) (fuel : Nat)
    {M M' : Machine σ} (twin : M.Twin m M') :
    Mirrored.Grown m Exit.Twin (Exec.run host fuel M) (Exec.run host fuel M') := by
  induction fuel generalizing m M M' with
  | zero => exact Mirrored.stay (.error _ twin)
  | succ fuel ih =>
    obtain ⟨T, hle, hstep⟩ := twin.step oblivious
    rw [Exec.run, Exec.bind_apply, Exec.bind_apply]
    generalize Exec.step host M = x at hstep
    generalize Exec.step host M' = y at hstep
    cases hstep with
    | error e twin' => exact ⟨T, hle, .error e twin'⟩
    | ok twin' result =>
      cases result with
      | some hexit => exact ⟨T, hle, .ok twin' hexit⟩
      | none =>
        obtain ⟨U, hle', hrun⟩ := ih (m := m.at T) oblivious twin'
        exact ⟨U, Likeness.le_trans hle hle', hrun⟩

namespace Mirrors

variable {vs vs' : List Value} {entry entry' : Value}

/-- **What a coroutine does first.** -/
theorem opening (oblivious : host.Oblivious m.states m.aside) (state : Lifecycle)
    (hentry : entry.Twin m.like entry') (context : Option (Ref .context))
    (hvs : Value.Twins m.like vs vs') :
    Mirrors m (Coroutine.opening host state entry context vs)
      (Coroutine.opening host state entry' context vs') Equal := by
  unfold Coroutine.opening
  refine ite Iff.rfl (fun _ => ?_) fun _ => pushAll hvs
  refine height.andThen fun base => (pushAll hvs).andThen fun _ => ?_
  have hinvoke := invoke oblivious hentry base none
  cases hentry with
  | coroutine paired => exact hinvoke
  | plain hplain =>
    cases entry with
    | function r =>
      cases context with
      | none => exact hinvoke
      | some c =>
        obtain ⟨p, hp⟩ := hplain.known r rfl
        exact enter hp base none (some c)
    | _ => exact hinvoke

end Mirrors

/-! ### Failures -/

/-- One failure as it is in two heaps: the calls that were active may be at other addresses. -/
inductive Failure.Twin : Failure → Failure → Prop
  | runtime (f : Fault) {trace trace' : List TraceLine}
      (calls : trace'.map TraceLine.function = trace.map TraceLine.function) :
      Twin (.runtime f trace) (.runtime f trace')
  | usage (e : UsageError) : Twin (.usage e) (.usage e)
  | defect (d : Defect) : Twin (.defect d) (.defect d)
  | exhausted : Twin .exhausted .exhausted

/-- The same calls were active. -/
theorem Machine.Twin.calls_eq {M M' : Machine σ} (twin : M.Twin m M') :
    (M'.heap.backtrace M'.memory).map TraceLine.function
      = (M.heap.backtrace M.memory).map TraceLine.function := by
  have hframes := List.forall₂_reverse_iff.mpr twin.memory.frames
  unfold Heap.backtrace
  rw [List.map_map, List.map_map]
  generalize M.memory.frames.toList.reverse = fs at hframes
  generalize M'.memory.frames.toList.reverse = fs' at hframes
  induction hframes with
  | nil => rfl
  | @cons f f' fs fs' hf _ ih =>
    have hname : M'.heap.frameName f' = M.heap.frameName f := by
      have hactivity := hf.activity
      unfold Heap.frameName
      generalize f.activity = a at hactivity
      generalize f'.activity = a' at hactivity
      cases hactivity with
      | bytecode r c => exact twin.heap.name_eq r
      | async q object _ => rfl
    rw [List.map_cons, List.map_cons, ih]
    exact congrArg (· :: _) hname

/-! ### Schedulers -/

/-- Two schedulers that are alike in a mirror, whichever coroutines are active. -/
structure Vm.Twin (m : Mirror σ) (vm vm' : Vm σ) : Prop where
  heap : vm.heap.Twin m.like m.aside vm'.heap
  config : vm'.config = vm.config
  state : m.states m.like vm.state vm'.state

/-- Two schedulers that are alike, with their active coroutines. -/
structure Vm.Abreast (m : Mirror σ) (vm vm' : Vm σ) : Prop extends Vm.Twin m vm vm' where
  active : List.Forall₂ m.like.pairs vm.active vm'.active

/-- More is known. -/
theorem Vm.Abreast.mono (oblivious : host.Oblivious m.states m.aside) {vm vm' : Vm σ}
    (abreast : vm.Abreast m vm') {T : Likeness} (hle : m.like ≤ T) {h h' : Heap}
    (hh : h.Twin T m.aside h') :
    Vm.Abreast (m.at T) { vm with heap := h } { vm' with heap := h' } where
  heap := hh
  config := abreast.config
  state := oblivious.mono hle abreast.state
  active := abreast.active.imp fun _ _ hr => hle.pairs hr

/-- A coroutine may be resumed again. -/
theorem Heap.Twin.setResumable {T : Likeness} {S : Ref .coroutine → Prop} {h h' : Heap}
    {r r' : Ref .coroutine} (hh : h.Twin T S h') (hr : T.pairs r r') :
    (Coroutine.setResumable r h).Twin T S (Coroutine.setResumable r' h') :=
  hh.modifyCoroutine hr fun hfree => by
    have hc := hh.coroutines r r' hr hfree
    exact { hc with state := congrArg Coroutine.resumable hc.state }

/-- The top coroutines may be resumed again. -/
theorem Vm.Abreast.readied {vm vm' : Vm σ} (abreast : vm.Abreast m vm') :
    (Vm.readied vm).Abreast m (Vm.readied vm') := by
  obtain ⟨heap, state, config, active⟩ := vm
  obtain ⟨heap', state', config', active'⟩ := vm'
  have hactive : List.Forall₂ m.like.pairs active active' := abreast.active
  cases hactive with
  | nil => exact abreast
  | cons hr hrest =>
    exact { abreast with
      heap := abreast.heap.setResumable hr
      active := .cons hr hrest }

namespace Vm.Twin

variable {vm vm' : Vm σ} {r r' : Ref .coroutine}

/-- A coroutine is put back. -/
theorem checkIn {M M' : Machine σ} (twin : M.Twin m M') (hr : m.like.pairs r r')
    (state : Lifecycle) {memory memory' : Stacks} (hmemory : memory.Twin m.like memory') :
    (Coroutine.checkIn r state memory M.heap).Twin m.like m.aside
      (Coroutine.checkIn r' state memory' M'.heap) :=
  twin.heap.modifyCoroutine hr fun hfree =>
    { twin.heap.coroutines r r' hr hfree with state := rfl, memory := hmemory }

/-- The machine of a coroutine that is taken out. -/
theorem checkOut (twin : vm.Twin m vm') (hr : m.like.pairs r r') (hfree : ¬ m.aside r) :
    (Coroutine.checkOut r vm.heap vm.state).Twin m (Coroutine.checkOut r' vm'.heap vm'.state) := by
  have hc := twin.heap.coroutines r r' hr hfree
  refine ⟨twin.heap.modifyCoroutine hr fun _ => ?_, hc.memory, hc.config, twin.state⟩
  refine ⟨hc.entry, rfl, rfl, hc.config, ?_⟩
  rw [Coroutine.checkedOut, Coroutine.checkedOut, hc.config]
  exact .new _

end Vm.Twin

/-- Control has left a coroutine. -/
theorem Machine.Twin.returned {M M' : Machine σ} (twin : M.Twin m M') {r r' : Ref .coroutine}
    (hr : m.like.pairs r r') {exit exit' : Exit} (hexit : exit.Twin m.like exit') (config : Config)
    {active active' : List (Ref .coroutine)}
    (hactive : List.Forall₂ m.like.pairs active active') :
    (Vm.returned r config active exit M).Abreast m (Vm.returned r' config active' exit' M') := by
  have hstate : Coroutine.stateAfter exit' = Coroutine.stateAfter exit := by cases hexit <;> rfl
  refine ⟨⟨?_, rfl, twin.state⟩, hactive⟩
  unfold Vm.returned
  rw [hstate]
  exact Vm.Twin.checkIn twin hr _ twin.memory

/-- One request as it is made in two heaps. -/
inductive Request.Twin (T : Likeness) : Request → Request → Prop
  | unit (u : Ref .unit) {args args' : List Value} (values : Value.Twins T args args')
      (context : Option (Ref .context)) : Twin T (.unit u args context) (.unit u args' context)
  | function {r : Ref .function} {p : Ref .unit × Nat} (known : T.home r = some p)
      {args args' : List Value} (values : Value.Twins T args args') :
      Twin T (.function r args) (.function r args')
  | functionIn {r : Ref .function} {p : Ref .unit × Nat} (known : T.home r = some p)
      (context : Ref .context) {args args' : List Value} (values : Value.Twins T args args') :
      Twin T (.functionIn r context args) (.functionIn r context args')
  | call {callee callee' : Value} (called : callee.Twin T callee') {args args' : List Value}
      (values : Value.Twins T args args') : Twin T (.call callee args) (.call callee' args')

/-- What one round leads to, as it is in two heaps. -/
inductive Round.Twin (T : Likeness) : Round → Round → Prop
  | again {values values' : List Value} (twins : Value.Twins T values values') :
      Twin T (.again values) (.again values')
  | done {results results' : List Value} (twins : Value.Twins T results results') :
      Twin T (.done results) (.done results')

/-- Two answers of the scheduler that match, once it is known what was made. -/
inductive Vm.Answers (m : Mirror σ) (R : Likeness → α → β → Prop) :
    EStateM.Result Failure (Vm σ) α → EStateM.Result Failure (Vm σ) β → Prop
  | ok {T : Likeness} {a : α} {b : β} {vm vm' : Vm σ} (le : m.like ≤ T)
      (abreast : vm.Abreast (m.at T) vm') (result : R T a b) : Answers m R (.ok a vm) (.ok b vm')
  | error {T : Likeness} {e e' : Failure} {vm vm' : Vm σ} (le : m.like ≤ T)
      (abreast : vm.Abreast (m.at T) vm') (same : e.Twin e') :
      Answers m R (.error e vm) (.error e' vm')

namespace Vm.Answers

variable {R : Likeness → α → β → Prop} {r r' : Ref .coroutine} {config : Config}
  {active active' : List (Ref .coroutine)}

/-- What comes later. -/
theorem later {T : Likeness} (hle : m.like ≤ T) {x : EStateM.Result Failure (Vm σ) α}
    {y : EStateM.Result Failure (Vm σ) β} (h : Answers (m.at T) R x y) : Answers m R x y := by
  cases h with
  | ok hle' abreast result => exact .ok (Likeness.le_trans hle hle') abreast result
  | error hle' abreast same => exact .error (Likeness.le_trans hle hle') abreast same

/-- A coroutine has stopped with a failure. -/
theorem failed {M M' : Machine σ} (twin : M.Twin m M') (hr : m.like.pairs r r') (e : Stop)
    (hactive : List.Forall₂ m.like.pairs active active') :
    Answers m R (Vm.failed r config active e M) (Vm.failed r' config active' e M') := by
  have hclear : M.memory.clear.Twin m.like M'.memory.clear := ⟨.nil, .nil, rfl, .nil⟩
  have hle := Likeness.le_refl m.like
  cases e with
  | fault f =>
    exact .error hle ⟨⟨Twin.checkIn twin hr _ hclear, rfl, twin.state⟩, hactive⟩
      (.runtime f twin.calls_eq)
  | defect d =>
    exact .error hle ⟨⟨Twin.checkIn twin hr _ twin.memory, rfl, twin.state⟩,
      hactive⟩ (.defect d)
  | exhausted =>
    exact .error hle ⟨⟨Twin.checkIn twin hr _ twin.memory, rfl, twin.state⟩,
      hactive⟩ .exhausted

/-- Control has left a coroutine. -/
theorem returned {M M' : Machine σ} (twin : M.Twin m M') (hr : m.like.pairs r r')
    {exit exit' : Exit}
    (hexit : exit.Twin m.like exit') (hactive : List.Forall₂ m.like.pairs active active') :
    Answers m Exit.Twin (.ok exit (Vm.returned r config active exit M))
      (.ok exit' (Vm.returned r' config active' exit' M')) :=
  .ok (Likeness.le_refl m.like) (twin.returned hr hexit config hactive) hexit

/-- What a resume makes of a run. -/
theorem settle {x y : EStateM.Result Stop (Machine σ) Exit} (h : Mirrored.Grown m Exit.Twin x y)
    (hr : m.like.pairs r r') (hactive : List.Forall₂ m.like.pairs active active') :
    Answers m Exit.Twin (Vm.settle r config active x) (Vm.settle r' config active' y) := by
  obtain ⟨T, hle, hrun⟩ := h
  have hr' := hle.pairs hr
  have hactive' := hactive.imp fun _ _ h => hle.pairs h
  cases hrun with
  | ok twin hexit => exact (returned (m := m.at T) twin hr' hexit hactive').later hle
  | error e twin => exact (failed (m := m.at T) twin hr' e hactive').later hle

end Vm.Answers

/-- Two computations of the scheduler whose answers match, however much is known. -/
def Schedules (m : Mirror σ) (x : Schedule σ α) (y : Schedule σ β)
    (R : Likeness → α → β → Prop) : Prop :=
  ∀ T, m.like ≤ T → ∀ vm vm', vm.Abreast (m.at T) vm' →
    Vm.Answers (m.at T) R (x vm) (y vm')

namespace Schedules

variable {x : Schedule σ α} {y : Schedule σ β} {R : Likeness → α → β → Prop}
  {Q : Likeness → γ → δ → Prop} {r r' : Ref .coroutine} {vs vs' : List Value}
  {entry entry' : Value}

/-- Computations one after the other. -/
theorem bind {f : α → Schedule σ γ} {g : β → Schedule σ δ} (hx : Schedules m x y R)
    (hf : ∀ T, m.like ≤ T → ∀ a b, R T a b → Schedules (m.at T) (f a) (g b) Q) :
    Schedules m (x >>= f) (y >>= g) Q := by
  intro T hle vm vm' habreast
  have h := hx T hle vm vm' habreast
  rw [Vm.bind_apply, Vm.bind_apply]
  generalize x vm = r at h
  generalize y vm' = r' at h
  cases h with
  | error hle' habreast' same => exact .error hle' habreast' same
  | @ok U a b w w' hle' habreast' result =>
    have hnext := hf U (Likeness.le_trans hle hle') a b result U (Likeness.le_refl U) w w' habreast'
    dsimp only
    generalize f a w = s at hnext
    generalize g b w' = s' at hnext
    cases hnext with
    | error hle'' habreast'' same => exact .error (Likeness.le_trans hle' hle'') habreast'' same
    | ok hle'' habreast'' result' => exact .ok (Likeness.le_trans hle' hle'') habreast'' result'

theorem pure {a : α} {b : β} (h : ∀ T, m.like ≤ T → R T a b) :
    Schedules (σ := σ) m (Pure.pure a) (Pure.pure b) R :=
  fun T hle _ _ habreast => .ok (Likeness.le_refl T) habreast (h T hle)

theorem throw {e e' : Failure} (same : e.Twin e') :
    Schedules (σ := σ) (α := α) (β := β) m (MonadExcept.throw e) (MonadExcept.throw e') R :=
  fun T _ _ _ habreast => .error (Likeness.le_refl T) habreast same

/-- What is read off the scheduler. -/
theorem get {f : Vm σ → Schedule σ α} {g : Vm σ → Schedule σ β}
    (h : ∀ T, m.like ≤ T → ∀ vm vm', vm.Abreast (m.at T) vm' →
      Schedules (m.at T) (f vm) (g vm') R) :
    Schedules m (MonadState.get >>= f) (MonadState.get >>= g) R :=
  fun T hle vm vm' habreast => h T hle vm vm' habreast T (Likeness.le_refl T) vm vm' habreast

theorem modify {f g : Vm σ → Vm σ}
    (h : ∀ T, m.like ≤ T → ∀ vm vm', vm.Abreast (m.at T) vm' →
      (f vm).Abreast (m.at T) (g vm')) :
    Schedules m (modify f) (modify g) (fun _ => Mirrors.Equal) :=
  fun T hle vm vm' habreast => .ok (Likeness.le_refl T) (h T hle vm vm' habreast) rfl

theorem activate (hr : m.like.pairs r r') :
    Schedules (σ := σ) m (Vm.activate r) (Vm.activate r') (fun _ => Mirrors.Equal) :=
  modify fun _ hle _ _ habreast => { habreast with active := .cons (hle.pairs hr) habreast.active }

theorem retire : Schedules (σ := σ) m Vm.retire Vm.retire (fun _ => Mirrors.Equal) := by
  refine modify fun T _ vm vm' habreast => { habreast with active := ?_ }
  have hactive := habreast.active
  show List.Forall₂ _ vm.active.tail vm'.active.tail
  generalize vm.active = rs at hactive ⊢
  generalize vm'.active = rs' at hactive ⊢
  cases hactive with
  | nil => exact .nil
  | cons _ hrest => exact hrest

theorem readyTop : Schedules (σ := σ) m Vm.readyTop Vm.readyTop (fun _ => Mirrors.Equal) :=
  modify fun _ _ _ _ habreast => habreast.readied

/-! ### Resuming and running -/

/-- A coroutine that there is room for. -/
theorem made {sizes : Sizes} (hentry : entry.Twin m.like entry') (context : Option (Ref .context))
    (config : Config) :
    Schedules (σ := σ) m (Vm.ofDefect (Coroutine.make sizes entry context config))
      (Vm.ofDefect (Coroutine.make sizes entry' context config)) Coroutine.Twin := by
  rw [Coroutine.make_entry sizes entry entry']
  rcases Coroutine.make_cases sizes entry context config with hmade | ⟨d, hmade, -⟩
  · rw [hmade]
    exact pure fun T hle => .new (hentry.mono hle.toWithin) context config
  · rw [hmade]
    exact throw (.defect d)

section

variable (oblivious : host.Oblivious m.states m.aside)
include oblivious

/-- New coroutines are paired with each other. -/
theorem newCoroutine {c c' : Coroutine} (hc : c.Twin m.like c') :
    Schedules (σ := σ) m (Vm.allocate fun h => h.newCoroutine c)
      (Vm.allocate fun h => h.newCoroutine c') Likeness.pairs := by
  intro T hle vm vm' habreast
  obtain ⟨hle', hheap⟩ := habreast.heap.newCoroutine (hc.mono hle.toWithin)
  exact .ok hle' (Vm.Abreast.mono (m := m.at T) oblivious habreast hle' hheap) (.inr ⟨rfl, rfl⟩)

variable (free : ∀ r, ¬ m.aside r)
include free

/-- **A coroutine is resumed.** -/
theorem resume (fuel : Nat) (hr : m.like.pairs r r') (hvs : Value.Twins m.like vs vs') :
    Schedules m (Coroutine.resume host fuel r vs) (Coroutine.resume host fuel r' vs')
      Exit.Twin := by
  intro T hle vm vm' habreast
  have hr := hle.pairs hr
  have hvs := hvs.mono hle.toWithin
  have hc := habreast.heap.coroutines r r' hr (free r)
  by_cases haccepted : Coroutine.canResume (vm.heap.coroutine r).state
  · have haccepted' : Coroutine.canResume (vm'.heap.coroutine r').state := by rwa [hc.state]
    have hopening := Mirrors.opening (m := m.at T) oblivious (vm.heap.coroutine r).state hc.entry
      (vm.heap.coroutine r).entryContext hvs _ _ (habreast.toTwin.checkOut hr (free r))
    rw [Vm.resume_eq_settle haccepted, Vm.resume_eq_settle haccepted', hc.state, hc.entryContext,
      Coroutine.body_eq, Coroutine.body_eq, Exec.bind_apply, Exec.bind_apply, habreast.config]
    refine Vm.Answers.settle ?_ hr habreast.active
    generalize Coroutine.opening host _ _ _ vs _ = x at hopening
    generalize Coroutine.opening host _ _ _ vs' _ = y at hopening
    cases hopening with
    | error e twin => exact Mirrored.stay (.error e twin)
    | ok twin _ => exact Machine.Twin.run (m := m.at T) oblivious fuel twin
  · have hrefused' : ¬ Coroutine.canResume (vm'.heap.coroutine r').state := by rwa [hc.state]
    rw [Coroutine.resume_refused host fuel vs haccepted,
      Coroutine.resume_refused host fuel vs' hrefused', hc.state]
    exact .error (Likeness.le_refl T) habreast (.usage _)

/-- **One round.** -/
theorem round (floor fuel : Nat) (hvs : Value.Twins m.like vs vs') :
    Schedules m (Vm.round host floor fuel vs) (Vm.round host floor fuel vs') Round.Twin := by
  refine get fun T hle vm vm' habreast => ?_
  have hvs := hvs.mono hle.toWithin
  have hactive := habreast.active
  generalize vm.active = rs at hactive
  generalize vm'.active = rs' at hactive
  cases hactive with
  | nil => exact pure fun U hle => .done (hvs.mono hle.toWithin)
  | @cons top top' below below' htop hbelow => ?_
  dsimp only
  have hlength := hbelow.length_eq
  refine (resume (m := m.at T) oblivious free fuel htop hvs).bind fun U hle exit exit' hexit => ?_
  cases hexit with
  | switched paired values =>
    exact (activate paired).bind fun V hle _ _ _ => pure fun W hle' =>
      .again (values.mono (Likeness.le_trans hle hle').toWithin)
  | finished values =>
    refine retire.bind fun V hle _ _ _ => ?_
    rw [← hlength]
    split
    · exact pure fun W hle' => .done (values.mono (Likeness.le_trans hle hle').toWithin)
    · exact readyTop.bind fun W hle' _ _ _ => pure fun X hle'' =>
        .again (values.mono (Likeness.le_trans hle (Likeness.le_trans hle' hle'')).toWithin)
  | yielded values =>
    refine retire.bind fun V hle _ _ _ => ?_
    rw [← hlength]
    split
    · exact throw (.usage _)
    · exact readyTop.bind fun W hle' _ _ _ => pure fun X hle'' =>
        .again (values.mono (Likeness.le_trans hle (Likeness.le_trans hle' hle'')).toWithin)

/-- **A run of the scheduler.** -/
theorem loop (floor fuel : Nat) (hvs : Value.Twins m.like vs vs') :
    Schedules m (Vm.loop host floor fuel vs) (Vm.loop host floor fuel vs') Value.Twins := by
  induction fuel generalizing m vs vs' with
  | zero => exact throw .exhausted
  | succ fuel ih =>
    rw [Vm.loop_succ, Vm.loop_succ]
    refine (round oblivious free floor fuel hvs).bind fun T hle a b hab => ?_
    cases hab with
    | again values => exact ih (m := m.at T) oblivious free values
    | done results => exact pure fun U hle' => results.mono hle'.toWithin

/-- A coroutine is run, with all that it starts. -/
theorem execute (fuel : Nat) (hr : m.like.pairs r r') (hvs : Value.Twins m.like vs vs') :
    Schedules m (Vm.execute host fuel r vs) (Vm.execute host fuel r' vs') Value.Twins := by
  intro T hle vm vm' habreast
  have hloop := loop oblivious free vm.active.length fuel hvs T hle
    { vm with active := r :: vm.active } { vm' with active := r' :: vm'.active }
    { habreast with active := .cons (hle.pairs hr) habreast.active }
  unfold Vm.execute
  dsimp only
  rw [← habreast.active.length_eq]
  generalize Vm.loop host vm.active.length fuel vs _ = x at hloop
  generalize Vm.loop host vm.active.length fuel vs' _ = y at hloop
  cases hloop with
  | ok hle' habreast' result => exact .ok hle' habreast' result
  | error hle' habreast' same =>
    cases same with
    | runtime f calls => exact .error hle' { habreast' with active := .nil } (.runtime f calls)
    | usage e => exact .error hle' { habreast' with active := .nil } (.usage e)
    | defect d => exact .error hle' habreast' (.defect d)
    | exhausted => exact .error hle' habreast' .exhausted

/-- A new coroutine is run. -/
theorem executeNew (fuel : Nat) (hentry : entry.Twin m.like entry')
    (context : Option (Ref .context)) (hvs : Value.Twins m.like vs vs') :
    Schedules m (Vm.executeNew host fuel entry context vs)
      (Vm.executeNew host fuel entry' context vs') Value.Twins := by
  refine get fun T hle vm vm' habreast => ?_
  dsimp only
  rw [habreast.config]
  refine (made (m := m.at T) (hentry.mono hle.toWithin) context vm.config).bind
    fun U hle' c c' hc => ?_
  refine (newCoroutine (m := m.at U) oblivious hc).bind fun V hle'' r r' hr => ?_
  exact execute (m := m.at V) oblivious free fuel hr
    (hvs.mono (Likeness.le_trans hle (Likeness.le_trans hle' hle'')).toWithin)

/-- Anything that can be called is called. -/
theorem call (fuel : Nat) (hentry : entry.Twin m.like entry') (hvs : Value.Twins m.like vs vs') :
    Schedules m (Vm.call host fuel entry vs) (Vm.call host fuel entry' vs') Value.Twins := by
  unfold Vm.call
  rw [hentry.invokable_eq]
  split
  · exact executeNew oblivious free fuel hentry none hvs
  · refine get fun T hle vm vm' habreast => ?_
    rw [habreast.heap.display_eq (hentry.mono hle.toWithin)]
    exact throw (.runtime _ rfl)

/-- The entry function of a unit is run in a context. -/
theorem executeUnitIn (fuel : Nat) (u : Ref .unit) (hvs : Value.Twins m.like vs vs')
    (c : Ref .context) :
    Schedules m (Vm.executeUnit host fuel u vs (some c)) (Vm.executeUnit host fuel u vs' (some c))
      Value.Twins := by
  intro T hle vm vm' habreast
  simp only [Vm.executeUnit, pure_bind, Vm.bind_apply, Vm.get_apply]
  rcases habreast.heap.entryFunction u (some c) with
    ⟨e, hnone, hnone'⟩ | ⟨r, g, g', hmade, hmade', hle', hg⟩
  · rw [hnone, hnone']
    exact .error (Likeness.le_refl T) habreast (.usage e)
  · rw [hmade, hmade']
    have hknown : (T.settle r u (vm.heap.unit u).entry).home r = some (u, (vm.heap.unit u).entry) :=
      if_pos rfl
    have hrun := executeNew (m := m.at (T.settle r u (vm.heap.unit u).entry)) oblivious free fuel
      (.function hknown) none (hvs.mono (Likeness.le_trans hle hle').toWithin)
    exact .later (m := m.at T) hle' (hrun _ (Likeness.le_refl _) _ _
      (Vm.Abreast.mono (m := m.at T) oblivious habreast hle' hg))

/-- The entry function of a unit is run. -/
theorem executeUnit (fuel : Nat) (u : Ref .unit) (hvs : Value.Twins m.like vs vs')
    (context : Option (Ref .context)) :
    Schedules m (Vm.executeUnit host fuel u vs context) (Vm.executeUnit host fuel u vs' context)
      Value.Twins := by
  cases context with
  | some c => exact executeUnitIn oblivious free fuel u hvs c
  | none =>
    have hcontext : Schedules (σ := σ) m (Vm.allocate fun h => h.newContext none)
        (Vm.allocate fun h => h.newContext none) (fun _ => Mirrors.Equal) := by
      intro T hle vm vm' habreast
      obtain ⟨hsame, hheap⟩ := habreast.heap.newContext none
      exact .ok (Likeness.le_refl T) { habreast with heap := hheap } hsame
    refine hcontext.bind fun T hle c c' hc => ?_
    obtain rfl : c' = c := hc
    exact executeUnitIn (m := m.at T) oblivious free fuel u (hvs.mono hle.toWithin) c'

/-- **Every request.** -/
theorem request {q q' : Request} (hq : q.Twin m.like q') (fuel : Nat) :
    Schedules m (q.run host fuel) (q'.run host fuel) Value.Twins := by
  cases hq with
  | unit u hvs context => exact executeUnit oblivious free fuel u hvs context
  | function known hvs => exact executeNew oblivious free fuel (.function known) none hvs
  | functionIn known c hvs => exact executeNew oblivious free fuel (.function known) (some c) hvs
  | call hcallee hvs => exact call oblivious free fuel hcallee hvs

end

end Schedules

end ScriptVm
