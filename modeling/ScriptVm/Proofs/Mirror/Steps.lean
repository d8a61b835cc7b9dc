import ScriptVm.Proofs.Mirror.Instructions

/-!
# Steps in a mirror

Whatever a program does, its twin does in the mirror.  The twins execute an
instruction each, at addresses beside each other, and come to such addresses again:
to the end of the instruction, or to where it jumps.

Main statement: `Machine.Twin.step` (a step).
-/

namespace ScriptVm

variable {σ : Type} {m : Mirror σ} {host : Host σ} {M M' : Machine σ} {f f' : Frame}
  {r : Ref .function} {context : Ref .context}

/-! ### Jumps -/

/-- The top frames run code of one closure, in one context. -/
structure Machine.Running (r : Ref .function) (context : Ref .context) (f f' : Frame)
    (M M' : Machine σ) : Prop where
  last : M.memory.frames.last? = some f
  last' : M'.memory.frames.last? = some f'
  activity : f.activity = .bytecode r context
  activity' : f'.activity = .bytecode r context

/-- The twins may jump: to addresses beside each other, or not at all. -/
def Machine.Lands (m : Mirror σ) (r : Ref .function) (f f' : Frame) (imm imm' : Int64)
    (M M' : Machine σ) : Prop :=
  Replies (m.like.code r) (landing (M.heap.prototype r).code.size f.nextIp imm)
    (landing (M'.heap.prototype r).code.size f'.nextIp imm')

namespace Machine.Running

/-- Other parts of the machines may change. -/
theorem congr (running : Running r context f f' M M') {N N' : Machine σ}
    (hframes : N.memory.frames.toList = M.memory.frames.toList)
    (hframes' : N'.memory.frames.toList = M'.memory.frames.toList) :
    Running r context f f' N N' := by
  obtain ⟨hf, hf', hactivity, hactivity'⟩ := running
  rw [Stack.last?_eq_getLast?] at hf hf'
  refine ⟨?_, ?_, hactivity, hactivity'⟩
  · rw [Stack.last?_eq_getLast?, hframes, hf]
  · rw [Stack.last?_eq_getLast?, hframes', hf']

/-- The top frames are twins. -/
theorem twin (running : Running r context f f' M M') (twin : M.Twin m M') : f.Twin m.like f' := by
  have hlast := twin.memory.last_frame
  rw [running.last, running.last'] at hlast
  cases hlast with
  | some hff' => exact hff'

end Machine.Running

namespace Machine.Twin

/-- A jump. -/
theorem jumpTarget (running : Running r context f f' M M') {imm imm' : Int64}
    (lands : Lands m r f f' imm imm' M M') :
    (∃ e, Exec.jumpTarget r imm M = .error e M ∧ Exec.jumpTarget r imm' M' = .error e M') ∨
      ∃ a a', Exec.jumpTarget r imm M = .ok a M ∧ Exec.jumpTarget r imm' M' = .ok a' M' ∧
        m.like.code r a a' := by
  rw [Exec.jumpTarget_apply running.last, Exec.jumpTarget_apply running.last']
  unfold Lands at lands
  generalize landing (M.heap.prototype r).code.size f.nextIp imm = x at lands
  generalize landing (M'.heap.prototype r).code.size f'.nextIp imm' = y at lands
  cases lands with
  | error e => exact .inl ⟨_, rfl, rfl⟩
  | ok ha => exact .inr ⟨_, _, rfl, rfl, ha⟩

/-- A branch, taken or not. -/
theorem branch (twin : M.Twin m M') (running : Running r context f f' M M') {imm imm' : Int64}
    (lands : Lands m r f f' imm imm' M M') (c : Condition) :
    Mirrored m Mirrors.Equal (Exec.branch r c imm M) (Exec.branch r c imm' M') := by
  have hcondition := Mirrors.condition c M M' twin
  have htrack := Exec.condition_track (M := M) c rfl
  have htrack' := Exec.condition_track (M := M') c rfl
  rw [Exec.branch, Exec.branch, Exec.bind_apply, Exec.bind_apply]
  generalize Exec.condition c M = x at hcondition htrack
  generalize Exec.condition c M' = y at hcondition htrack'
  cases hcondition with
  | error e twin' => exact .error e twin'
  | @ok taken taken' N N' twin' result =>
    obtain rfl : taken' = taken := result
    cases taken' with
    | false => exact .ok twin' rfl
    | true =>
      have hheap : N.heap = M.heap := htrack.1
      have hheap' : N'.heap = M'.heap := htrack'.1
      have hrunning : Running r context f f' N N' := running.congr htrack.2 htrack'.2
      have hlands : Lands m r f f' imm imm' N N' := by
        unfold Lands
        rw [hheap, hheap']
        exact lands
      have hff' := hrunning.twin twin'
      rcases jumpTarget hrunning hlands with ⟨e, he, he'⟩ | ⟨a, a', ha, ha', hbeside⟩
      · dsimp only
        rw [if_pos rfl, if_pos rfl, Exec.bind_of_error he, Exec.bind_of_error he']
        exact .error e twin'
      · dsimp only
        rw [if_pos rfl, if_pos rfl, Exec.bind_of_ok ha, Exec.bind_of_ok ha',
          Exec.modifyFrame_apply hrunning.last, Exec.modifyFrame_apply hrunning.last']
        refine .ok
          (twin'.onTop hrunning.last hrunning.last' (.goTo a) (.goTo a') (hff'.goTo ?_)) rfl
        rw [hrunning.activity]
        exact hbeside

/-- A try mark is set. -/
theorem tryEnter (twin : M.Twin m M') (running : Running r context f f' M M') {imm imm' : Int64}
    (lands : Lands m r f f' imm imm' M M') (w w' : Width) :
    Mirrored m Mirrors.Equal (Exec.tryOperator r (.enter w) imm M)
      (Exec.tryOperator r (.enter w') imm' M') := by
  rw [Exec.tryOperator, Exec.tryOperator]
  rcases jumpTarget running lands with ⟨e, he, he'⟩ | ⟨a, a', ha, ha', hbeside⟩
  · rw [Exec.bind_of_error he, Exec.bind_of_error he']
    exact .error e twin
  · rw [Exec.bind_of_ok ha, Exec.bind_of_ok ha']
    refine .ok (twin.onMarks ?_) rfl
    rw [Stack.toList_push, Stack.toList_push]
    refine List.rel_append twin.memory.marks (.cons ⟨⟨_, hbeside⟩, ?_⟩ .nil)
    rw [twin.memory.height_eq, twin.memory.frames_size_eq, twin.memory.delimiters_size_eq]

end Machine.Twin

/-! ### Fetching -/

/-- The outcomes of two fetches match: there are words beside each other to execute, in one phase,
and those that jump may do so. -/
inductive Fetched.Twin (m : Mirror σ) (r : Ref .function) (context : Ref .context) :
    EStateM.Result Stop (Machine σ) (Op × Int64 × Nat) →
    EStateM.Result Stop (Machine σ) (Op × Int64 × Nat) → Prop
  | ok {x x' : Word} {phase : Nat} {M M' : Machine σ} (twin : M.Twin m M')
      (word : m.like.words x x')
      (lands : x.1.jumps → ∃ f f', Machine.Running r context f f' M M' ∧
        Machine.Lands m r f f' x.2 x'.2 M M') :
      Fetched.Twin m r context (.ok (x.1, x.2, phase) M) (.ok (x'.1, x'.2, phase) M')
  | error (e : Stop) {M M' : Machine σ} (twin : M.Twin m M') :
      Fetched.Twin m r context (.error e M) (.error e M')

/-- Words that do not jump. -/
theorem Fetched.Twin.of_mirrored {op op' : Op} (stays : op.jumps = false)
    (word : ∀ imm, m.like.words (op, imm) (op', imm))
    {x y : EStateM.Result Stop (Machine σ) (Op × Int64 × Nat)}
    (h : Mirrored m (fun a b => ∃ imm, a = (op, imm, 0) ∧ b = (op', imm, 0)) x y) :
    Fetched.Twin m r context x y := by
  cases h with
  | error e twin => exact .error e twin
  | ok twin result =>
    obtain ⟨imm, rfl, rfl⟩ := result
    exact .ok twin (word imm) fun hjumps => absurd hjumps (by simp [stays])

namespace Machine

/-- The top frames are changed, but not what they run. -/
theorem Running.onTop (running : Running r context f f' M M') (φ ψ : Frame → Frame)
    (hφ : (φ f).activity = f.activity) (hψ : (ψ f').activity = f'.activity) :
    Running r context (φ f) (ψ f') (M.onFrames fun frames => frames.modifyLast φ)
      (M'.onFrames fun frames => frames.modifyLast ψ) where
  last := by
    show (M.memory.frames.modifyLast φ).last? = _
    rw [Stack.last?_modifyLast, running.last]
    rfl
  last' := by
    show (M'.memory.frames.modifyLast ψ).last? = _
    rw [Stack.last?_modifyLast, running.last']
    rfl
  activity := hφ.trans running.activity
  activity' := hψ.trans running.activity'

namespace Twin

/-- Words beside each other are begun. -/
theorem start {op op' : Op} {imm imm' : Int64} (hword : m.like.words (op, imm) (op', imm'))
    {f f' : Frame} (hf : f.Twin m.like f') :
    (f.inside (Progress.start op imm).complete).Twin m.like
      (f'.inside (Progress.start op' imm').complete) := by
  refine hf.inside ?_
  have hcount : op'.phaseCount = op.phaseCount := (m.like.alike _ _ hword).phaseCount_eq
  unfold Progress.start Progress.complete
  rw [hcount]
  exact .busy hword fun hjumps => ⟨Nat.le_of_eq (Op.phaseCount_of_jumps hjumps), Nat.le_refl _⟩

/-- A word whose immediate is on the stack. -/
theorem popWord (twin : M.Twin m M') {op op' : Op} (stays : op.jumps = false)
    (word : ∀ imm, m.like.words (op, imm) (op', imm)) :
    Fetched.Twin m r context
      ((do
        let imm ← do Exec.ofFault ((← Exec.heap).integer (← Exec.pop))
        Exec.modifyFrame (.inside (Progress.start op imm).complete)
        return (op, imm, 0) : Exec σ (Op × Int64 × Nat)) M)
      ((do
        let imm ← do Exec.ofFault ((← Exec.heap).integer (← Exec.pop))
        Exec.modifyFrame (.inside (Progress.start op' imm).complete)
        return (op', imm, 0) : Exec σ (Op × Int64 × Nat)) M') := by
  have hword : Mirrors (σ := σ) m
      (do
        let imm ← do Exec.ofFault ((← Exec.heap).integer (← Exec.pop))
        Exec.modifyFrame (.inside (Progress.start op imm).complete)
        return (op, imm, 0))
      (do
        let imm ← do Exec.ofFault ((← Exec.heap).integer (← Exec.pop))
        Exec.modifyFrame (.inside (Progress.start op' imm).complete)
        return (op', imm, 0))
      fun a b => ∃ imm, a = (op, imm, 0) ∧ b = (op', imm, 0) := by
    refine Mirrors.heap.bind fun h h' hh => Mirrors.pop.bind fun v v' hv => ?_
    refine (Mirrors.ofFault (.of_eq (hh.integer_eq hv))).andThen fun imm => ?_
    exact (Mirrors.modifyFrame fun f f' hf => start (word imm) hf).andThen fun _ =>
      .pure ⟨imm, rfl, rfl⟩
  exact .of_mirrored stays word (hword M M' twin)

/-- **The next instructions are fetched** at addresses beside each other. -/
theorem fetchNext (twin : M.Twin m M') (running : Running r context f f' M M') :
    Fetched.Twin m r context (Exec.fetchNext r M) (Exec.fetchNext r M') := by
  have hff' := running.twin twin
  have running₁ := running.onTop .arrive .arrive rfl rfl
  have twin₁ := twin.onTop running.last running.last' .arrive .arrive hff'.arrive
  have harrive {N : Machine σ} {g : Frame} (hg : N.memory.frames.last? = some g) :
      Exec.modifyFrame (fun f => { f with ip := f.nextIp }) N
        = .ok () (N.onFrames fun frames => frames.modifyLast .arrive) := Exec.modifyFrame_apply hg _
  have hgoTo {N : Machine σ} {g : Frame} (hg : N.memory.frames.last? = some g) (a : Nat) :
      Exec.modifyFrame (fun f => { f with nextIp := a }) N
        = .ok () (N.onFrames fun frames => frames.modifyLast (.goTo a)) :=
          Exec.modifyFrame_apply hg _
  have hinside {N : Machine σ} {g : Frame} (hg : N.memory.frames.last? = some g) (p : Progress) :
      Exec.modifyFrame (fun f => { f with progress := p }) N
        = .ok () (N.onFrames fun frames => frames.modifyLast (.inside p)) :=
          Exec.modifyFrame_apply hg _
  have hbeside : m.like.code r f.arrive.ip f'.arrive.ip := by
    have h := hff'.nextIp
    rw [running.activity] at h
    exact h
  have hdecode := (twin₁.heap.code hbeside).decodes _ _ hbeside
  unfold Exec.fetchNext
  rw [Exec.bind_of_ok (harrive running.last), Exec.bind_of_ok (harrive running.last'),
    Exec.bind_of_ok (Exec.frame_apply running₁.last),
    Exec.bind_of_ok (Exec.frame_apply running₁.last'),
    Exec.bind_of_ok (Exec.heap_apply _), Exec.bind_of_ok (Exec.heap_apply _)]
  generalize hx : Instruction.decode _ f.arrive.ip = x at hdecode ⊢
  generalize hy : Instruction.decode _ f'.arrive.ip = y at hdecode ⊢
  cases hdecode with
  | error e => exact .error _ twin₁
  | @ok ins ins' hins => ?_
  have running₂ := running₁.onTop (.goTo ins.next) (.goTo ins'.next) rfl rfl
  have twin₂ := twin₁.onTop running₁.last running₁.last' (.goTo ins.next) (.goTo ins'.next)
    ((running₁.twin twin₁).goTo (by
      rw [running₁.activity]
      exact hins.next))
  have hdecoded (N : Machine σ) (ins : Instruction) :
      (Exec.ofFault (.ok ins) : Exec σ Instruction) N = .ok ins N := rfl
  rw [Exec.bind_of_ok (hdecoded _ ins), Exec.bind_of_ok (hdecoded _ ins'),
    Exec.bind_of_ok (hgoTo running₁.last ins.next),
    Exec.bind_of_ok (hgoTo running₁.last' ins'.next)]
  cases hins with
  | unknown _ unknown unknown' byte =>
    rw [unknown, unknown', byte]
    exact .error _ twin₂
  | popped _ known known' onStack onStack' stays word =>
    rw [known, known', onStack, onStack']
    exact popWord twin₂ stays word
  | @carried op op' _ known known' inCode inCode' word lands =>
    have hff₂ := running₂.twin twin₂
    have running₃ := running₂.onTop (.inside (Progress.start op ins.imm).complete)
      (.inside (Progress.start op' ins'.imm).complete) rfl rfl
    have twin₃ := twin₂.onTop running₂.last running₂.last' _ _ (start word hff₂)
    rw [known, known', inCode, inCode']
    simp only [Bool.false_eq_true, if_false, pure_bind]
    rw [Exec.bind_of_ok (hinside running₂.last _), Exec.bind_of_ok (hinside running₂.last' _)]
    exact .ok twin₃ word fun hjumps => ⟨_, _, running₃, lands hjumps⟩

/-- **An instruction is fetched**, or the one in the middle is entered again. -/
theorem fetch (twin : M.Twin m M') (running : Running r context f f' M M') :
    Fetched.Twin m r context (Exec.fetch r M) (Exec.fetch r M') := by
  have hff' := running.twin twin
  have hprogress := hff'.progress
  unfold Exec.fetch
  rw [Exec.bind_of_ok (Exec.frame_apply running.last),
    Exec.bind_of_ok (Exec.frame_apply running.last')]
  rw [hprogress.finished_eq]
  split
  · exact twin.fetchNext running
  · next hunfinished =>
    have hadvance {N : Machine σ} {g : Frame} (hg : N.memory.frames.last? = some g) :
        Exec.modifyFrame (fun f => { f with progress := f.progress.advance }) N
          = .ok () (N.onFrames fun frames => frames.modifyLast fun f =>
            f.inside f.progress.advance) :=
      Exec.modifyFrame_apply hg _
    have running₁ := running.onTop (fun f => f.inside f.progress.advance)
      (fun f => f.inside f.progress.advance) rfl rfl
    have twin₁ := twin.onTop running.last running.last' (fun f => f.inside f.progress.advance)
      (fun f => f.inside f.progress.advance) (hff'.inside hprogress.advance)
    rw [Exec.bind_of_ok (hadvance running.last), Exec.bind_of_ok (hadvance running.last')]
    generalize f.progress = p at hprogress hunfinished
    generalize f'.progress = p' at hprogress
    cases hprogress with
    | idle idle =>
      rw [idle]
      exact twin₁.fetchNext running₁
    | busy word done =>
      -- What jumps is never unfinished.
      refine .ok twin₁ word fun hjumps => absurd ?_ hunfinished
      exact decide_eq_true (done hjumps).2

/-! ### Executing -/

variable (oblivious : host.Oblivious m.states m.aside)
include oblivious

/-- **What was fetched is executed.** -/
theorem execute {x y : EStateM.Result Stop (Machine σ) (Op × Int64 × Nat)}
    (fetched : Fetched.Twin m r context x y) :
    (∃ e N N', x = .error e N ∧ y = .error e N' ∧ N.Twin m N') ∨
      ∃ a b N N', x = .ok a N ∧ y = .ok b N' ∧
        Mirrored.Grown m (fun T => Option.Rel (Exit.Twin T))
          (Exec.execute host r context a.1 a.2.1 a.2.2 N)
          (Exec.execute host r context b.1 b.2.1 b.2.2 N') := by
  cases fetched with
  | error e twin => exact .inl ⟨e, _, _, rfl, rfl, twin⟩
  | @ok w w' phase N N' twin word lands =>
    refine .inr ⟨_, _, N, N', rfl, rfl, ?_⟩
    have halike := m.like.alike _ _ word
    cases hjumps : w.1.jumps with
    | true =>
      obtain ⟨f, f', running, hlands⟩ := lands hjumps
      refine Mirrored.stay ?_
      rcases halike.of_jumps hjumps with ⟨c, l, l', hop, hop'⟩ | ⟨l, l', hop, hop'⟩
      · rw [hop, hop']
        exact (twin.branch running hlands c).goes
      · rw [hop, hop']
        exact (twin.tryEnter running hlands l l').goes
    | false =>
      dsimp only
      rw [Exec.execute_of_alike halike hjumps]
      obtain ⟨op, imm⟩ := w
      by_cases hcoroutine : op = .control .makeCoroutine
      · subst hcoroutine
        exact twin.makeCoroutine oblivious context
      · by_cases hclosure : ∃ w, op = .loadFunction w
        · obtain ⟨width, rfl⟩ := hclosure
          exact (twin.loadFunction oblivious r imm).goes
        · exact Mirrored.stay (Mirrors.execute oblivious r context hjumps
            (fun w hw => hclosure ⟨w, hw⟩) hcoroutine imm phase N N' twin)

/-- **A step.** -/
theorem step (twin : M.Twin m M') :
    Mirrored.Grown m (fun T => Option.Rel (Exit.Twin T)) (Exec.step host M)
      (Exec.step host M') := by
  have hlast := twin.memory.last_frame
  simp only [Exec.step, Exec.bind_apply, Exec.get_apply]
  generalize hf : M.memory.frames.last? = x at hlast
  generalize hf' : M'.memory.frames.last? = y at hlast
  cases hlast with
  | none =>
    exact Mirrored.stay
      (((Mirrors.takeFrom 0).bind fun _ _ hvs => .pure (.some (.finished hvs))) M M' twin)
  | @some f f' hff' =>
    have hactivity := hff'.activity
    dsimp only
    generalize hnow : f.activity = a at hactivity
    generalize hnow' : f'.activity = a' at hactivity
    cases hactivity with
    | bytecode r context =>
      dsimp only
      rw [Exec.bind_apply, Exec.bind_apply]
      rcases execute oblivious (twin.fetch ⟨hf, hf', hnow, hnow'⟩) with
        ⟨e, N, N', hx, hy, twin'⟩ | ⟨a, b, N, N', hx, hy, hgrown⟩
      · rw [hx, hy]
        exact Mirrored.stay (.error e twin')
      · rw [hx, hy]
        exact hgrown
    | async q object history =>
      exact Mirrored.stay (Mirrors.stepAsync oblivious hff' q object history M M' twin)

end Twin

end Machine

end ScriptVm
