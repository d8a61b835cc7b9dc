import ScriptVm.Proofs.Safety
import ScriptVm.Proofs.SystemCalls

/-!
# The contract of a call

Every call goes through `Exec.invoke`, with the arguments from a position `base`
upward.  However the callee is made and whatever it does, when it is done its
results lie from `base` upward, in the number that was asked for, and nothing
else on the stacks has changed.  Nor has anything below `base` changed in the
meantime, through all steps and further calls of the callee, and while other
coroutines were running.

An external function is done at once.  Otherwise the call makes an activation,
which **lives** until the machine is back at the depth of the caller.

Main statements: `Lives.above` (what an activation stands on stays as it is),
`call_contract`.
-/

namespace ScriptVm

variable {σ : Type}

/-- A layer without the values from a position upward. -/
def Layer.cut (c : Layer) (base : Nat) : Layer :=
  { c with values := c.values.take base }

/-- A layer is at the bottom of another one. -/
structure Layer.Below (p c : Layer) : Prop where
  values : p.values <+: c.values
  frames : p.frames <+: c.frames
  delimiters : p.delimiters <+: c.delimiters
  marks : p.marks <+: c.marks

/-- What a layer stands on is at the bottom of the pile. -/
theorem Layer.below_pile (p c : Layer) : p.Below (p.pile c) :=
  ⟨List.prefix_append _ _, List.prefix_append _ _, List.prefix_append _ _,
    List.prefix_append _ _⟩

namespace Machine

/-- The list that an external function answers when it is called with the arguments from `base`
upward; none if it fails, and for a callee that is no external function. -/
def answer (host : Host σ) (callee : Value) (base : Nat) (M : Machine σ) : Option (List Value) :=
  let args := M.memory.view.values.drop base
  let memory := { M.memory with values := M.memory.values.truncate base }
  match callee with
  | .pureFn r => (host.callPure r M.heap args).toOption
  | .effectFn r => (host.callEffect r ⟨M.heap, memory, M.config⟩ args M.state).1.toOption
  | _ => none

/-- **The life of an activation** that was called at some depth: the machines from its first to its
last one.  It makes steps; and it may yield or switch away, whereupon other coroutines do anything
to the heap and the host's state, until it is resumed with some values. -/
inductive Lives (host : Host σ) (depth : Nat) :
    Machine σ → List (Machine σ) → Machine σ → Prop
  | last {M : Machine σ} (deep : depth < M.depth) : Lives host depth M [M] M
  | step {M N L : Machine σ} {trace : List (Machine σ)} (deep : depth < M.depth)
      (step : Exec.step host M = .ok none N) (rest : Lives host depth N trace L) :
      Lives host depth M (M :: trace) L
  | away {M N L : Machine σ} {trace : List (Machine σ)} {exit : Exit} (deep : depth < M.depth)
      (step : Exec.step host M = .ok (some exit) N) (heap : Heap) (state : σ) (values : List Value)
      (rest : Lives host depth ({ N with heap, state }.onValues fun s =>
        s.pushAll values) trace L) :
      Lives host depth M (M :: N :: trace) L

/-- **A call that completes**, from the machine `M` at which it is made to the machine `N` at which
it is done, with the machines in between and the results: what an external function answers, or what
the last step of the activation returns. -/
inductive Completes (host : Host σ) (callee : Value) (base : Nat) (returnSize : Option Nat)
    (M : Machine σ) : List (Machine σ) → Option (List Value) → Machine σ → Prop
  | external {N : Machine σ} (call : Exec.invoke host callee base returnSize M = .ok () N)
      (level : N.depth ≤ M.depth) :
      Completes host callee base returnSize M [] (M.answer host callee base) N
  | activation {first last N : Machine σ} {trace : List (Machine σ)}
      (call : Exec.invoke host callee base returnSize M = .ok () first)
      (lives : first.Lives host M.depth trace last) (step : Exec.step host last = .ok none N)
      (level : N.depth ≤ M.depth) :
      Completes host callee base returnSize M trace (last.returning host) N

variable {host : Host σ} {callee : Value} {base : Nat} {returnSize : Option Nat}
  {M N : Machine σ}

/-- The arguments of a call are a layer on what lies below `base`. -/
theorem on_cut (M : Machine σ) (base : Nat) :
    M.On (M.memory.view.cut base) (.bare (M.memory.view.values.drop base)) := by
  simp [On, Layer.pile_bare, Layer.cut]

theorem depth_cut (M : Machine σ) (base : Nat) :
    (M.memory.view.cut base).frames.length = M.depth :=
  (Stack.size_eq_length _).symm

/-- A call can only be made from a position of the stack. -/
theorem base_le_of_invoke (h : Exec.invoke host callee base returnSize M = .ok () N) :
    base ≤ M.memory.values.size := by
  rcases Nat.lt_or_ge M.memory.values.size base with hlt | hle
  · have hless (state : σ) : Exec.heightLess base { M with state }
        = .error (.defect .outOfBounds) { M with state } := by
      simp [Exec.heightLess, Exec.bind_apply, Nat.not_le.mpr hlt]
    have htake : Exec.takeFrom base M = .error (.defect .outOfBounds) M := by
      simp [Exec.takeFrom, Exec.bind_apply, Stack.valuesFrom_eq, Nat.not_le.mpr hlt, Exec.ofDefect]
    cases callee with
    | asyncFn r =>
      have hopen : Exec.openCall host r M = _ := Exec.openCall_apply rfl
      simp [Exec.invoke, Exec.enterAsync, Exec.bind_of_ok hopen, Exec.bind_apply, hless] at h
    | _ => simp [Exec.invoke, Exec.enter, Exec.bind_apply, hless M.state, htake] at h
  · exact hle

theorem length_cut (h : base ≤ M.memory.values.size) :
    (M.memory.view.cut base).values.length = base := by
  rw [Stack.size_eq_length] at h
  exact List.length_take_of_le h

/-- A call that has made an activation has made the machine deeper. -/
theorem depth_lt_of_entered {sizes : Sizes} {start : Heap}
    (h : Fares (M.memory.view.cut base) sizes start (fun _ => Entered returnSize)
      (.ok () N : EStateM.Result Stop (Machine σ) Unit)) : M.depth < N.depth := by
  cases h with
  | ok on _ entered =>
    obtain ⟨f, -, hf⟩ := entered
    rw [on.depth, depth_cut, hf.length_frames]
    exact Nat.lt_succ_self _

/-- Results that are put in place of the arguments. -/
theorem on_of_results {L : Machine σ} {results : List Value}
    (hbase : base ≤ M.memory.values.size) (on : L.On (M.memory.view.cut base) (.bare [])) (h : (do
      Exec.pushAll results
      Exec.shape host.sizes base returnSize : Exec σ Unit) L = .ok () N) :
    N.On (M.memory.view.cut base) (.bare (shaped returnSize results)) := by
  have hlen := length_cut hbase
  have hfares := Steady.fares (Lockstep.results (t := .single (M.memory.view.cut base) host.sizes)
    results returnSize) on rfl
  simp only [Footing.single, hlen] at hfares
  rw [h] at hfares
  cases hfares with
  | ok on' _ result => exact result ▸ on'

/-- A call that has been made has left results or a new activation on what lies below `base`. -/
theorem on_of_invoke (h : Exec.invoke host callee base returnSize M = .ok () N) :
    ∃ c, N.On (M.memory.view.cut base) c ∧ Invoked returnSize c := by
  have suits := host.mute_suits (M.memory.view.cut base)
  have hlen := length_cut (base_le_of_invoke h)
  have hfares := Steady.fares (Lockstep.invoke suits callee _ returnSize) (M.on_cut base) rfl
  simp only [Footing.single, hlen, Exec.invoke_mute] at hfares
  rw [h] at hfares
  cases hfares with
  | ok on _ result => exact ⟨_, on, result⟩

/-- An external function has left what it answers, shaped. -/
theorem answer_of_invoke (h : Exec.invoke host callee base returnSize M = .ok () N)
    (level : N.depth ≤ M.depth) :
    ∃ results, M.answer host callee base = some results ∧
      N.On (M.memory.view.cut base) (.bare (shaped returnSize results)) := by
  have hbase := base_le_of_invoke h
  have suits := host.mute_suits (M.memory.view.cut base)
  have htake : Exec.takeFrom base M = .ok (M.memory.view.values.drop base)
      (M.onValues fun values => values.truncate base) := Exec.takeFrom_apply hbase
  have on (state : σ) :
      ({ M.onValues fun values => values.truncate base with state } : Machine σ).On
        (M.memory.view.cut base) (.bare []) := by
    simp [On, Layer.pile_bare, Layer.cut, Stacks.view, Machine.onValues]
  -- Closures and asynchronous functions would have made the machine deeper.
  cases callee with
  | function r =>
    have hfares := Steady.fares (Lockstep.enter suits r _ returnSize none) (M.on_cut base) rfl
    simp only [Footing.single, length_cut hbase] at hfares
    rw [show Exec.enter host.mute r base returnSize none M = .ok () N from h] at hfares
    exact absurd (depth_lt_of_entered hfares) (Nat.not_lt.mpr level)
  | asyncFn r =>
    have hfares := Steady.fares (Lockstep.enterAsync suits r _ returnSize) (M.on_cut base) rfl
    simp only [Footing.single, length_cut hbase] at hfares
    rw [show Exec.enterAsync host.mute r base returnSize M = .ok () N from h] at hfares
    exact absurd (depth_lt_of_entered hfares) (Nat.not_lt.mpr level)
  | pureFn r =>
    simp only [Exec.invoke, Exec.bind_of_ok htake] at h
    cases hcall : host.callPure r M.heap (M.memory.view.values.drop base) with
    | error f =>
      simp [Exec.bind_apply, Machine.onValues, hcall, Exec.ofFault] at h
    | ok results =>
      rw [Exec.bind_of_ok (Exec.heap_apply _), show (M.onValues _).heap = M.heap from rfl, hcall]
        at h
      exact ⟨results, by simp [answer, hcall, Except.toOption],
        on_of_results hbase (on M.state) h⟩
  | effectFn r =>
    simp only [Exec.invoke, Exec.bind_of_ok htake] at h
    rcases hcall : host.callEffect r
      ⟨M.heap, (M.onValues fun values => values.truncate base).memory, M.config⟩
      (M.memory.view.values.drop base) M.state with ⟨result, state⟩
    rw [Exec.bind_apply, Exec.runEffect_apply hcall] at h
    cases result with
    | error f => simp [Exec.ofFault] at h
    | ok results =>
      have hanswer : M.answer host (.effectFn r) base = some results := by
        simp only [Machine.onValues] at hcall
        simp [answer, hcall, Except.toOption]
      exact ⟨results, hanswer, on_of_results hbase (on state) h⟩
  | _ => simp [Exec.invoke, Exec.bind_apply] at h

/-! ### The life of an activation -/

/-- The stacks of a machine are activations standing on `p`, the lowest of which is that of `f`. -/
def Above (host : Host σ) (p : Layer) (f : Frame) (M : Machine σ) : Prop :=
  Abreast (.single p host.sizes) f M M

namespace Above

variable {p : Layer} {f : Frame}

theorem below (h : M.Above host p f) : p.Below M.memory.view := by
  obtain ⟨fs, c, alike, -⟩ := h
  rw [show M.memory.view = p.pile c from alike.left]
  exact p.below_pile c

/-- What a step does to the lowest activation and all that stands on it. -/
theorem next (h : M.Above host p f) (behaves : M.Behaves host) {e : Option Exit}
    (step : Exec.step host M = .ok e N) :
    Abreast.Next host (.single p host.sizes) f M M (.ok e N) (.ok e N) := by
  obtain ⟨fs, c, alike, tower⟩ := h
  obtain ⟨g, below, hg⟩ := Abreast.exists_top fs f
  rw [hg] at tower
  exact .of_stepped hg (behaves.step alike.left tower step)

/-- Control leaves the coroutine, and all activations stay. -/
theorem exit (h : M.Above host p f) (behaves : M.Behaves host) {e : Exit}
    (step : Exec.step host M = .ok (some e) N) : N.Above host p f := by
  cases h.next behaves step with
  | exits abreast => exact abreast

/-- **A step** either keeps the lowest activation, or is its return. -/
theorem step (h : M.Above host p f) (behaves : M.Behaves host)
    (step : Exec.step host M = .ok none N) :
    (N.Above host p f ∧ p.frames.length < N.depth) ∨
    (N.depth = p.frames.length ∧ ∃ results, M.returning host = some results ∧
      N.On p (.bare (shaped f.returnSize results))) := by
  cases h.next behaves step with
  | goes _ abreast => exact .inl ⟨abreast, abreast.deep.1⟩
  | returns result _ alike => exact .inr ⟨alike.left.depth, _, result, alike.left⟩

end Above

/-- An activation is deeper than its caller as long as it lives. -/
theorem Lives.deep {depth : Nat} {trace : List (Machine σ)} {L : Machine σ}
    (h : M.Lives host depth trace L) : depth < M.depth := by
  cases h with
  | last deep => exact deep
  | step deep _ _ => exact deep
  | away deep _ _ _ _ _ => exact deep

/-- **As long as an activation lives**, it stands on what it was called on. -/
theorem Lives.above {p : Layer} {f : Frame} {trace : List (Machine σ)} {L : Machine σ}
    (h : M.Lives host p.frames.length trace L) (behaves : ∀ K ∈ trace, K.Behaves host)
    (hM : M.Above host p f) : L.Above host p f ∧ ∀ K ∈ trace, p.Below K.memory.view := by
  induction h with
  | last deep =>
    refine ⟨hM, fun K hK => ?_⟩
    rw [List.mem_singleton.mp hK]
    exact hM.below
  | step deep step rest ih =>
    -- The activation cannot have returned, for the rest of its life is deeper than the caller.
    obtain ⟨behavesM, behaves⟩ := List.forall_mem_cons.mp behaves
    rcases hM.step behavesM step with ⟨hN, -⟩ | ⟨hdepth, -⟩
    · obtain ⟨hL, htrace⟩ := ih behaves hN
      refine ⟨hL, fun K hK => ?_⟩
      rcases List.mem_cons.mp hK with hK | hK
      · exact hK ▸ hM.below
      · exact htrace K hK
    · have := rest.deep
      omega
  | away deep step heap state values rest ih =>
    obtain ⟨behavesM, behaves⟩ := List.forall_mem_cons.mp behaves
    have hN := hM.exit behavesM step
    obtain ⟨hL, htrace⟩ :=
      ih (List.forall_mem_cons.mp behaves).2 (Abreast.resumed hN heap state values)
    refine ⟨hL, fun K hK => ?_⟩
    rcases List.mem_cons.mp hK with hK | hK
    · exact hK ▸ hM.below
    · rcases List.mem_cons.mp hK with hK | hK
      · exact hK ▸ hN.below
      · exact htrace K hK

/-- The last machine of a life is one of it. -/
theorem Lives.mem {depth : Nat} {trace : List (Machine σ)} {L : Machine σ}
    (h : M.Lives host depth trace L) : L ∈ trace := by
  induction h with
  | last _ => exact List.mem_singleton_self _
  | step _ _ _ ih => exact List.mem_cons_of_mem _ ih
  | away _ _ _ _ _ _ ih => exact List.mem_cons_of_mem _ (List.mem_cons_of_mem _ ih)

/-- A call that completes. -/
theorem Completes.spec {trace : List (Machine σ)} {results : Option (List Value)}
    (h : M.Completes host callee base returnSize trace results N)
    (behaves : ∀ K ∈ trace, K.Behaves host) :
    ∃ list, results = some list ∧
      N.On (M.memory.view.cut base) (.bare (shaped returnSize list)) ∧
      ∀ K ∈ trace, (M.memory.view.cut base).Below K.memory.view := by
  cases h with
  | external call level =>
    obtain ⟨list, hanswer, on⟩ := answer_of_invoke call level
    exact ⟨list, hanswer, on, by simp⟩
  | @activation first last _ _ call lives step level =>
    obtain ⟨c, on, hc⟩ := on_of_invoke call
    rw [← M.depth_cut base] at lives level
    cases hc with
    | done list =>
      have := lives.deep
      rw [on.depth] at this
      exact absurd this (by simp)
    | entered activation =>
      obtain ⟨f, hsize, hf⟩ := activation
      obtain ⟨hlast, htrace⟩ := lives.above behaves (Abreast.of_activation (.single on) hf)
      rcases hlast.step (behaves last lives.mem) step with ⟨-, hdeep⟩ |
        ⟨-, list, hreturn, on'⟩
      · omega
      · exact ⟨list, hreturn, hsize ▸ on', htrace⟩

/-! ### Calls by instruction -/

section

variable {fs : List Frame} {f : Frame} {r : Ref .function} {context : Ref .context} {imm : Int64}
  {next : Nat} {V args : List Value} {D : List Nat}

/-- The instruction that starts a run of values. -/
theorem step_delimit (host : Host σ) (h : M.At fs f r context (.control .delimit) imm next) :
    ∃ N, Exec.step host M = .ok none N ∧
      M.Stacked { M.memory.view with
        frames := fs ++ [begun f (.control .delimit) imm next]
        delimiters := M.memory.view.delimiters ++ [M.memory.view.values.length] } N := by
  obtain ⟨L, hstep, hL⟩ := h.step host
  refine ⟨L.onDelimiters fun delimiters => delimiters.push L.memory.values.size, hstep,
    { hL with view := ?_ }⟩
  have hpush : (L.memory.delimiters.push L.memory.values.size).toList
      = M.memory.view.delimiters ++ [M.memory.view.values.length] := by
    rw [Stack.toList_push, hL.delimiters, hL.height]
  exact congrArg (fun delimiters => { L.memory.view with delimiters }) hpush |>.trans
    (by rw [hL.view])

/-- The instruction that calls, with the callee above its arguments, these above a delimiter. -/
theorem step_call (host : Host σ) (h : M.At fs f r context (.control .call) imm next)
    (hvalues : M.memory.view.values = V ++ args ++ [callee])
    (hdelimiters : M.memory.view.delimiters = D ++ [V.length]) (hown : f.delimiterBase ≤ D.length)
    (hlow : f.privateBase ≤ V.length) :
    ∃ P, M.Stacked { M.memory.view with
        values := V ++ args
        frames := fs ++ [begun f (.control .call) imm next] } P ∧
      Exec.step host M = (do
        Exec.invoke host callee V.length none
        return none : Exec σ (Option Exit)) P := by
  obtain ⟨L, hstep, hL⟩ := h.step host
  obtain ⟨P, hpop, hP⟩ := hL.pop rfl hvalues (by
    rw [List.length_append]
    exact Nat.le_add_right_of_le hlow)
  have hpeek := hP.peekDelimiter rfl hdelimiters hown (by simp)
  refine ⟨P, hP, ?_⟩
  rw [hstep]
  show (do
    let callee ← Exec.pop
    let base ← Exec.peekDelimiter
    Exec.invoke host callee base none
    return none : Exec σ (Option Exit)) L = _
  rw [Exec.bind_of_ok hpop, Exec.bind_of_ok hpeek]

/-- The instruction that shapes the run of values above a delimiter. -/
theorem step_shape (host : Host σ) {w : ShapeForm} {R : List Value}
    (h : M.At fs f r context (.shape w) imm next)
    (hvalues : M.memory.view.values = V ++ R)
    (hdelimiters : M.memory.view.delimiters = D ++ [V.length])
    (hown : f.delimiterBase ≤ D.length) :
    (∃ N, Exec.step host M = .ok none N ∧
      M.Stacked { M.memory.view with
        values := V ++ shaped (some imm.toNatClampNeg) R
        frames := fs ++ [begun f (.shape w) imm next]
        delimiters := D } N) ∨
    ∃ d N, Exec.step host M = .error (.defect d) N ∧ host.sizes.Refuses d := by
  obtain ⟨L, hstep, hL⟩ := h.step host
  obtain ⟨K, hpop, hK⟩ := hL.popDelimiter rfl hdelimiters hown (by simp [hvalues])
  have hshape : Exec.step host M = (do
      Exec.shape host.sizes V.length (some imm.toNatClampNeg)
      return none : Exec σ (Option Exit)) K := by
    rw [hstep]
    show (do
      (do
        let start ← Exec.popDelimiter
        Exec.shape host.sizes start (some imm.toNatClampNeg))
      return none : Exec σ (Option Exit)) L = _
    rw [bind_assoc, Exec.bind_of_ok hpop]
  rw [hshape]
  cases hadd : host.sizes.add V.length imm.toNatClampNeg with
  | error d =>
    rw [Exec.bind_of_error (Exec.shape_limit hadd K)]
    exact .inr ⟨d, K, rfl, .inl ⟨_, _, hadd⟩⟩
  | ok goal =>
    rw [Exec.bind_of_ok (Exec.shape_apply hadd K)]
    refine .inl ⟨_, rfl, hK.onValues ?_⟩
    rw [Sizes.eq_add_of_add_eq_ok hadd]
    exact Lockstep.toList_fitTo (hK.values.trans hvalues) _

/-- **A machine about to call** by instruction: the callee is on top, its arguments lie below, and
below them the frame has set a delimiter. -/
structure Calling (M : Machine σ) (fs : List Frame) (f : Frame) (r : Ref .function)
    (context : Ref .context) (imm : Int64) (next : Nat) (V args : List Value) (callee : Value)
    (D : List Nat) : Prop where
  at_call : M.At fs f r context (.control .call) imm next
  values : M.memory.view.values = V ++ args ++ [callee]
  delimiters : M.memory.view.delimiters = D ++ [V.length]
  own : f.delimiterBase ≤ D.length
  operands : f.privateBase ≤ V.length

end

end Machine

/-- On sound stacks, a frame of bytecode lies within them. -/
theorem Layer.Sound.frame_bounds {c : Layer} (h : c.Sound) {fs : List Frame} {f : Frame}
    (hf : c.frames = fs ++ [f]) {r : Ref .function} {context : Ref .context}
    (code : f.activity = .bytecode r context) :
    f.privateBase ≤ c.values.length ∧ f.delimiterBase ≤ c.delimiters.length := by
  obtain ⟨ground, gs, tower⟩ := h
  cases tower with
  | ground => simp at hf
  | @call _ g p a lower upper =>
    cases upper with
    | bytecode _ laid runs =>
      obtain ⟨ip, nextIp, progress, hg⟩ := runs.frames
      obtain rfl : p.liftFrame { g with ip, nextIp, progress } = f := by
        simpa [hg] using congrArg List.getLast? hf
      have := runs.operands
      simp only [liftFrame, pile_values, pile_delimiters, List.length_append, laid.delimiterBase]
      omega
    | async steps laid waits =>
      obtain ⟨call, hg⟩ := waits.frames
      obtain rfl : p.liftFrame { g with activity := .async call } = f := by
        simpa [hg] using congrArg List.getLast? hf
      cases code

/-- A call by instruction that completes, and the instruction that shapes its results. -/
theorem Machine.Calling.completes {host : Host σ} (hsyscall : ∀ i, host.syscall i = none)
    {M P N : Machine σ} {fs : List Frame} {f g : Frame} {r : Ref .function}
    {context : Ref .context}
    {imm n : Int64} {next after : Nat} {V args : List Value} {callee : Value} {D : List Nat}
    {trace : List (Machine σ)} {results : Option (List Value)} {w : ShapeForm}
    (h : M.Calling fs f r context imm next V args callee D)
    (hP : M.Stacked { M.memory.view with
      values := V ++ args
      frames := fs ++ [begun f (.control .call) imm next] } P)
    (hcompletes : P.Completes host callee V.length none trace results N)
    (hat : N.At fs g r context (.shape w) n after) :
    ∃ R, results = some R ∧
      ((∃ N', Exec.step host N = .ok none N' ∧ N.Stacked { M.memory.view with
          values := V ++ shaped (some n.toNatClampNeg) R
          frames := fs ++ [begun g (.shape w) n after]
          delimiters := D } N') ∨
        ∃ d N', Exec.step host N = .error (.defect d) N' ∧ host.sizes.Refuses d) := by
  obtain ⟨R, hR, on, -⟩ := hcompletes.spec fun K _ => .of_none hsyscall K
  -- The call has kept the frame and the delimiter, so the run above it is what was returned.
  have hview : N.memory.view = { M.memory.view with
      values := V ++ R
      frames := fs ++ [Machine.begun f (.control .call) imm next] } := by
    rw [show N.memory.view = _ from on, Layer.pile_bare, Layer.cut, hP.view]
    simp [shaped]
  have hg : g = Machine.begun f (.control .call) imm next := by
    simpa [hview] using congrArg List.getLast? hat.frames.symm
  have hvalues : N.memory.view.values = V ++ R := by rw [hview]
  have hdelimiters : N.memory.view.delimiters = D ++ [V.length] := by
    rw [hview]
    exact h.delimiters
  have hown : g.delimiterBase ≤ D.length := hg ▸ h.own
  refine ⟨R, hR, ?_⟩
  have hshape := Machine.step_shape host hat hvalues hdelimiters hown
  rw [hview] at hshape
  exact hshape

/-- **The contract of a call.**  When a call from `base` upward completes, its results, shaped, lie
where the arguments were, and otherwise the stacks are what they were; all the while, what lies
below `base` was in place.  So the values that a frame delimits, calls and shapes are the first of
the results.  While a coroutine is away, no other one touches its stacks. -/
theorem call_contract {host : Host σ} (hsyscall : ∀ i, host.syscall i = none) :
    (∀ (M N : Machine σ) (callee : Value) (base : Nat) (returnSize : Option Nat)
        (trace : List (Machine σ)) (results : Option (List Value)),
      M.Completes host callee base returnSize trace results N →
      base ≤ M.memory.values.size ∧
      (∃ R, results = some R ∧ N.memory.view = { M.memory.view with
        values := M.memory.view.values.take base ++ shaped returnSize R }) ∧
      ∀ K ∈ trace, (M.memory.view.cut base).Below K.memory.view) ∧
    (∀ (K : Machine σ) (fs : List Frame) (f : Frame) (r : Ref .function) (context : Ref .context)
        (imm : Int64) (next : Nat),
      K.Occurs host → K.At fs f r context (.control .delimit) imm next →
      f.privateBase ≤ K.memory.view.values.length ∧
      f.delimiterBase ≤ K.memory.view.delimiters.length ∧
      ∃ N, Exec.step host K = .ok none N ∧ K.Stacked { K.memory.view with
        frames := fs ++ [Machine.begun f (.control .delimit) imm next]
        delimiters := K.memory.view.delimiters ++ [K.memory.view.values.length] } N) ∧
    (∀ (M : Machine σ) (fs : List Frame) (f : Frame) (r : Ref .function) (context : Ref .context)
        (imm : Int64) (next : Nat) (V args : List Value) (callee : Value) (D : List Nat),
      M.Calling fs f r context imm next V args callee D →
      ∃ P, M.Stacked { M.memory.view with
          values := V ++ args
          frames := fs ++ [Machine.begun f (.control .call) imm next] } P ∧
        Exec.step host M = (do
          Exec.invoke host callee V.length none
          return none : Exec σ (Option Exit)) P ∧
        ∀ (N : Machine σ) (trace : List (Machine σ)) (results : Option (List Value))
            (w : ShapeForm) (n : Int64) (g : Frame) (after : Nat),
          P.Completes host callee V.length none trace results N →
          N.At fs g r context (.shape w) n after →
          ∃ R, results = some R ∧
            ((∃ N', Exec.step host N = .ok none N' ∧ N.Stacked { M.memory.view with
                values := V ++ shaped (some n.toNatClampNeg) R
                frames := fs ++ [Machine.begun g (.shape w) n after]
                delimiters := D } N') ∨
              ∃ d N', Exec.step host N = .error (.defect d) N' ∧ host.sizes.Refuses d)) ∧
    ∀ (vm vm' : Vm σ) (fuel : Nat) (r r' : Ref .coroutine) (args : List Value),
      vm.Reachable host → r' ≠ r → vm.heap.coroutines.Holds r' →
      ((∃ exit, Coroutine.resume host fuel r args vm = .ok exit vm') ∨
        ∃ e, Coroutine.resume host fuel r args vm = .error e vm' ∧ ∀ d, e ≠ .defect d) →
      vm'.heap.coroutine r' = vm.heap.coroutine r' := by
  refine ⟨?_, ?_, ?_, ?_⟩
  · intro M N callee base returnSize trace results h
    obtain ⟨R, hR, on, htrace⟩ := h.spec fun K _ => .of_none hsyscall K
    refine ⟨?_, ⟨R, hR, ?_⟩, htrace⟩
    · cases h with
      | external call _ => exact Machine.base_le_of_invoke call
      | activation call _ _ _ => exact Machine.base_le_of_invoke call
    · rw [show N.memory.view = _ from on, Layer.pile_bare]
      rfl
  · intro K fs f r context imm next hK hat
    obtain ⟨hprivate, hdelimiter⟩ := (hK.sound hsyscall).frame_bounds hat.frames hat.code
    exact ⟨hprivate, hdelimiter, Machine.step_delimit host hat⟩
  · intro M fs f r context imm next V args callee D h
    obtain ⟨P, hP, hstep⟩ :=
      Machine.step_call host h.at_call h.values h.delimiters h.own h.operands
    refine ⟨P, hP, hstep, ?_⟩
    intro N trace results w n g after hcompletes hat
    exact h.completes hsyscall hP hcompletes hat
  · intro vm vm' fuel r r' args hvm hne hr' hresult
    have hends := Vm.sound_resume hsyscall (hvm.sound hsyscall) fuel r args
    rcases hresult with ⟨exit, hresult⟩ | ⟨e, hresult, hintact⟩
    · rw [hresult] at hends
      exact hends.2 r' hne hr'
    · rw [hresult] at hends
      cases e with
      | defect d => exact absurd rfl (hintact d)
      | _ => exact hends.2 r' hne hr'

/-- Three numbers on the stack, and a closure without code on the heap. -/
def Machine.threeNumbers : Machine Unit where
  heap := { Heap.empty with
    units := ⟨#[⟨#[default], #[], 0⟩]⟩
    functions := ⟨#[⟨⟨0⟩, 0, none⟩]⟩
    contexts := ⟨#[⟨none, .empty, .empty⟩]⟩ }
  memory := { Stacks.new .standard with values := ⟨#[.int 1, .int 2, .int 3], 4⟩ }
  config := .standard
  state := ()

/-- The closure has been called with the third number, and is to return one value. -/
def Machine.threeNumbersCalled : Machine Unit where
  heap := { Machine.threeNumbers.heap with
    contexts := ⟨#[⟨none, .empty, .empty⟩, ⟨none, .empty, .empty⟩]⟩ }
  memory := { Machine.threeNumbers.memory with
    frames := Machine.threeNumbers.memory.frames.push
      ⟨.bytecode ⟨0⟩ ⟨1⟩, 2, 1, 3, 3, 0, 0, 0, 0, some 1, .none⟩ }
  config := .standard
  state := ()

/-- A closure without code completes in one step. -/
theorem call_contract_closure :
    (∀ i, Host.bare.syscall i = none) ∧
    ∃ trace results N,
      Machine.threeNumbers.Completes .bare (.function ⟨0⟩) 2 (some 1) trace results N ∧
      ∃ R, results = some R ∧ N.memory.view = { Machine.threeNumbers.memory.view with
        values := Machine.threeNumbers.memory.view.values.take 2 ++ shaped (some 1) R } := by
  have hcall : Exec.invoke .bare (.function ⟨0⟩) 2 (some 1) .threeNumbers
      = .ok () .threeNumbersCalled := rfl
  obtain ⟨N, hstep, hlevel⟩ : ∃ N, Exec.step .bare .threeNumbersCalled = .ok none N ∧
    N.depth ≤ 0 :=
    ⟨_, rfl, Nat.le_refl 0⟩
  have hM := Machine.Completes.activation hcall (.last Nat.zero_lt_one) hstep hlevel
  exact ⟨fun _ => rfl, _, _, N, hM, ((call_contract fun _ => rfl).1 _ _ _ _ _ _ _ hM).2.1⟩

end ScriptVm
