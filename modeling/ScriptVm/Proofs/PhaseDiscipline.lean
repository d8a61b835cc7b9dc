import ScriptVm.Proofs.Scripts
import ScriptVm.Proofs.StackInvariants

/-!
# The discipline of phases

Whatever a host does, every frame that there is has a course from its beginning to
where it is now: the frames of the coroutine that runs, whatever stands on them, and
those of the coroutines that wait.  So what is known of courses is known of every
frame: its phases are in order, it is in the middle of an instruction only while the
result of a metamethod is still to be collected, and what it has executed are
executions of instructions, one after the other.

Main statements: `Vm.Arises.recalled` (between two errands of a host),
`Vm.Live.Arises.recalled` (between two steps of a run) and `phase_discipline`.
-/

namespace ScriptVm

variable {σ : Type}

/-! ### Frames with a course -/

/-- The frame at the place `n` has just begun. -/
def Machine.BeginsAt (M : Machine σ) (n : Nat) : Prop :=
  ∃ p, M.posts[n]? = some p ∧ p.Begins

/-- **Every frame of the stacks has a course** from its beginning to here, and its code has been
kept since. -/
def Stacks.Recalled (host : Host σ) (h : Heap) (s : Stacks) : Prop :=
  ∀ n < s.frames.size, ∃ (L N : Machine σ) (log : List Dispatch), L.BeginsAt n ∧
    Machine.Course host n L log N ∧ N.memory = s ∧ N.heap.KeepsCode h

namespace Stacks.Recalled

variable {host : Host σ} {h h' : Heap} {s : Stacks} {M N : Machine σ}

theorem keeps (hs : s.Recalled host h) (hkeeps : h.KeepsCode h') : s.Recalled host h' := by
  intro n hn
  obtain ⟨L, N, log, begins, course, hmemory, hcode⟩ := hs n hn
  exact ⟨L, N, log, begins, course, hmemory, hcode.trans hkeeps⟩

/-- Without frames there is nothing to be told. -/
theorem of_nil (hs : s.frames.toList = []) : s.Recalled host h := by
  intro n hn
  rw [Stack.size_eq_length, hs] at hn
  exact absurd hn (Nat.not_lt_zero n)

/-- Stacks that wait are those of a machine again, with some values more. -/
theorem resumed (hs : s.Recalled host h) (hkeeps : h.KeepsCode M.heap) (values : List Value)
    (hmemory : M.memory = { s with values := s.values.pushAll values }) :
    M.memory.Recalled host M.heap := by
  intro n hn
  rw [hmemory] at hn
  obtain ⟨L, N, log, begins, course, rfl, hcode⟩ := hs n hn
  exact ⟨L, M, log, begins, course.away (hcode.trans hkeeps) values hmemory, rfl, .refl _⟩

/-- The course of a frame leads to the machine itself. -/
theorem course (hM : M.memory.Recalled host M.heap) {n : Nat} (hn : n < M.depth) :
    ∃ L log, L.BeginsAt n ∧ Machine.Course host n L log M := by
  obtain ⟨L, N, log, begins, course, hmemory, hcode⟩ := hM n hn
  refine ⟨L, log, begins, course.away hcode [] ?_⟩
  rw [← hmemory]
  rfl

/-- Frames that have come on top have just begun. -/
theorem began {old new : List Post} (hposts : N.posts = old ++ new)
    (begins : ∀ p ∈ new, Post.Begins p)
    {n : Nat} (hold : old.length ≤ n) (hn : n < N.depth) : N.BeginsAt n := by
  rw [← N.length_posts] at hn
  refine ⟨N.posts[n], List.getElem?_eq_getElem hn, begins _ ?_⟩
  simp only [hposts, List.getElem_append_right hold]
  exact List.getElem_mem _

/-- **A step.** -/
theorem step (orderly : host.Orderly) (hM : M.memory.Recalled host M.heap) :
    (Exec.last (Exec.step host M)).memory.Recalled host (Exec.last (Exec.step host M)).heap := by
  intro n hn
  rcases Nat.lt_or_ge n M.depth with hold | hnew
  · obtain ⟨L, log, begins, course⟩ := hM.course hold
    exact ⟨L, _, _, begins, course.step hn, rfl, .refl _⟩
  · refine ⟨_, _, [], ?_, .start hn, rfl, .refl _⟩
    have hn' : n < (Exec.last (Exec.step host M)).posts.length := by
      rw [Machine.length_posts]
      exact hn
    rw [← M.length_posts] at hnew
    rcases List.eq_nil_or_concat' M.posts with hnone | ⟨below, p, hposts⟩
    · have hgone : (Exec.last (Exec.step host M)).posts = [] :=
        congrArg (List.map Frame.post) (Exec.frames_step_nil host (List.map_eq_nil_iff.mp hnone))
      rw [hgone] at hn'
      exact absurd hn' (Nat.not_lt_zero n)
    · rw [hposts, List.length_append, List.length_singleton] at hnew
      rcases Exec.posts_step orderly hposts with hgone | ⟨p', new, begins, hstays⟩
      · rw [hgone] at hn'
        exact absurd (Nat.lt_trans hn' hnew) (Nat.lt_irrefl n)
      · exact began hstays begins (by simpa using hnew) hn

end Stacks.Recalled

/-- **Courses are kept** by all that a coroutine does, and by all that is done with it. -/
def Stacks.recalling {host : Host σ} (orderly : host.Orderly) : Stacks.Invariant host where
  premise := .none host
  holds h s := s.Recalled host h
  bare hs := .of_nil (congrArg Layer.frames hs)
  keeps hkeeps hs := hs.keeps hkeeps.keepsCode
  opened := by
    intro M entry context args hbare N _
    obtain ⟨new, begins, hposts⟩ :=
      (Exec.Raises.opening host .initial entry context args).posts M
    have hnone : M.posts = [] := List.map_eq_nil_iff.mpr (congrArg Layer.frames hbare)
    intro n hn
    exact ⟨N, N, [], Stacks.Recalled.began hposts begins (by simp [hnone]) hn, .start hn,
      rfl, .refl _⟩
  resumed values hmemory hs := hs.resumed (.refl _) values hmemory
  step _ hM := hM.step orderly

/-! ### Every reachable state -/

namespace Vm

variable {host : Host σ} {vm : Vm σ} {floor : Nat}
  {own : Heap → σ → Prop}
  {alike : (Ref .coroutine → Ref .coroutine → Prop) → σ → σ → Prop}

/-- **Between two errands** of a host every frame has a course. -/
theorem Arises.recalled (orderly : host.Orderly) (h : vm.Arises host own) :
    vm.heap.Upholds (Stacks.recalling orderly) :=
  h.upholds fun _ => trivial

/-- A live state is a coroutine that has been taken out and has made its opening, and some steps. -/
theorem Keeping.enter {K : Keeping host} (hadmits : ∀ vm r args, K.admits vm r args)
    (hvm : K.holds vm.heap)
    {values : List Value} {l : Live σ} (h : Vm.enter host values vm = .live l) :
    K.running l.machine := by
  unfold Vm.enter at h
  split at h
  · cases h
  · next top below hactive =>
    split at h
    · next haccepted =>
      have hbegin := K.begin haccepted (hadmits _ top values) hvm
      split at h
      · next M hbegun =>
        cases h
        rwa [hbegun] at hbegin
      · cases h
    · cases h

theorem Keeping.next {K : Keeping host} (hadmits : ∀ vm r args, K.admits vm r args)
    {l l' : Live σ}
    (hl : K.running l.machine) (h : l.next host floor = .live l') : K.running l'.machine := by
  have hstep := K.step hl
  unfold Live.next at h
  generalize Exec.step host l.machine = result at h hstep
  have hreturned {M : Machine σ} (hM : K.running M) (active : List (Ref .coroutine))
    (exit : Exit) : K.holds (returned l.top l.config active exit M).heap :=
    K.stop l.top _ (by cases exit <;> nofun) hM (.inl rfl)
  have hreadied {M : Machine σ} (hM : K.running M) (exit : Exit) :
      K.holds (readied (returned l.top l.config l.below exit M)).heap := by
    cases hbelow : l.below with
    | nil => exact hreturned hM [] exit
    | cons q qs => exact K.ready q (hreturned hM (q :: qs) exit)
  cases result with
  | error e M => cases h
  | ok exit M =>
    cases exit with
    | none =>
      cases h
      exact hstep
    | some exit =>
      cases exit with
      | switched next args =>
        have hswitched := hreturned hstep (next :: l.top :: l.below) (.switched next args)
        exact Keeping.enter hadmits hswitched h
      | finished results =>
        simp only [Live.pursue, Live.dispose] at h
        split at h
        · cases h
        · exact Keeping.enter hadmits (hreadied hstep _) h
      | yielded results =>
        simp only [Live.pursue, Live.dispose] at h
        split at h
        · cases h
        · exact Keeping.enter hadmits (hreadied hstep _) h

/-- **Between two steps** of a run every frame has a course, those of the coroutine that is out and
those of all others. -/
theorem Live.Arises.recalled (orderly : host.Orderly) {l : Live σ}
    (h : l.Arises host alike floor) :
    l.machine.memory.Recalled host l.machine.heap ∧
      l.machine.heap.Upholds (Stacks.recalling orderly) := by
  suffices hl : (Stacks.recalling orderly).keeping.running l.machine from hl.2
  induction h with
  | @enter vm r args l arises held given entered =>
    let resumed : Vm σ := { vm with active := r :: vm.active }
    have hresumed : (Stacks.recalling orderly).keeping.holds resumed.heap := arises.recalled orderly
    exact Keeping.enter (fun _ _ _ => trivial) hresumed entered
  | next _ step ih =>
    exact Keeping.next (K := (Stacks.recalling orderly).keeping) (fun _ _ _ => trivial) ih step

end Vm

/-! ### What is known of a frame -/

/-- **What is known of a frame** that has begun on `L` at the place `n`, has executed `log`, and is
in the post `p` on the machine `N`. -/
structure Machine.Disciplined (host : Host σ) (n : Nat) (L : Machine σ) (log : List Dispatch)
    (N : Machine σ) (p : Post) : Prop where
  post : N.posts[n]? = some p
  inPhase : p.InPhase
  /-- It is in the middle of an instruction just if it has called a metamethod last. -/
  pending : p.progress.finished = false ↔ ∃ d ∈ log.getLast?, d.called ≠ none
  /-- Then it is at that instruction, the next phase of which will collect the result. -/
  awaits : p.progress.finished = false → ∃ d name, log.getLast? = some d ∧
    d.called = some name ∧
    d.op.asks d.phase = some name ∧
    p = (Post.executing p.activity d.ip d.op d.imm d.phase).again (d.phase + 1)
  /-- It has executed one instruction after the other; only the last one may not be over. -/
  executions : ∃ es : List (List Dispatch × Dispatch),
    log = es.flatMap (fun e => e.1 ++ [e.2]) ∧
    (∀ e ∈ es, Dispatch.Execution e.1 e.2) ∧ ∀ e ∈ es.dropLast, e.2.called = none
  /-- Its instructions are those of its closure, the code of which is still the same. -/
  decodes : ∀ p₀ r context, L.posts[n]? = some p₀ → p₀.activity = .bytecode r context →
    p.activity = p₀.activity ∧
    (L.heap.functions.Holds r → (L.heap.prototype r).code ≠ #[] →
      ∀ d ∈ log, ∀ ins, d.decoded = some ins →
        Instruction.decode (N.heap.prototype r).code d.ip = .ok ins)
  /-- What it executes next goes on where it is, and does what it tells. -/
  next : ∀ d, N.dispatched host n = some d → d.Next log.getLast? ∧ d.Does host N

theorem Machine.Course.disciplined {host : Host σ} (orderly : host.Orderly) {n : Nat}
    {L N : Machine σ}
    {log : List Dispatch} (begins : L.BeginsAt n) (course : Machine.Course host n L log N) :
    ∃ p, Machine.Disciplined host n L log N p := by
  obtain ⟨p₀, hp₀, hbegins⟩ := begins
  obtain ⟨p, hp, hsame, hlog, hafter⟩ := course.records orderly hp₀ hbegins
  have hpending : p.progress.finished = false ↔ ∃ d ∈ log.getLast?, d.called ≠ none := by
    rw [← Bool.not_eq_true, hafter.finished_iff]
    push Not
    rfl
  refine ⟨p, hp, hafter.inPhase, hpending, hafter.again_of_unfinished, hlog.executions, ?_,
    fun d hd => Exec.next_of_dispatched hp hafter hd⟩
  intro p₁ r context hp₁ hactivity
  obtain rfl : p₀ = p₁ := Option.some.inj (hp₀.symm.trans hp₁)
  exact ⟨hsame r context hactivity,
    fun hheld hcode => course.decodes orderly hp₀ hbegins hactivity hheld hcode⟩

theorem Stacks.Recalled.inPhase {host : Host σ} (orderly : host.Orderly) {h : Heap} {s : Stacks}
    (hs : s.Recalled host h) : ∀ p ∈ s.posts, p.InPhase := by
  intro p hp
  obtain ⟨n, hn, rfl⟩ := List.mem_iff_getElem.mp hp
  have hsize : n < s.frames.size := by
    rw [Stack.size_eq_length]
    simpa [Stacks.posts] using hn
  obtain ⟨L, N, log, begins, course, rfl, -⟩ := hs n hsize
  obtain ⟨q, hq⟩ := course.disciplined orderly begins
  obtain rfl : N.memory.posts[n] = q :=
    Option.some.inj ((List.getElem?_eq_getElem hn).symm.trans hq.post)
  exact hq.inPhase

/-! ### The discipline of phases -/

/-- **The discipline of phases.**  In every state that a host can bring about, between two of its
errands and between two steps of a run, every frame of every coroutine has its phases in order and a
course that leads there from its beginning.  Along any course, a frame is in the middle of an
instruction just if it has called a metamethod last; then it is at that instruction, and that is
what it goes on with, without decoding another one.  So what it has executed are executions of
instructions, each with the phases from the first one on; and each calls only metamethods that the
instruction has, each of them once: `Leq` and `Geq` first `__lss`, then perhaps `__equ`. -/
theorem phase_discipline {host : Host σ} (orderly : host.Orderly) :
    (∀ vm : Vm σ, vm.Arises host (fun _ _ => True) → ∀ r,
      (vm.heap.coroutine r).memory.Recalled host vm.heap ∧
      ∀ p ∈ (vm.heap.coroutine r).memory.posts, p.InPhase) ∧
    (∀ (floor : Nat) (l : Vm.Live σ), l.Arises host (fun _ _ _ => True) floor →
      l.machine.memory.Recalled host l.machine.heap ∧ (∀ p ∈ l.machine.posts, p.InPhase) ∧
      ∀ r, (l.machine.heap.coroutine r).memory.Recalled host l.machine.heap ∧
        ∀ p ∈ (l.machine.heap.coroutine r).memory.posts, p.InPhase) ∧
    (∀ (n : Nat) (L N : Machine σ) (log : List Dispatch), L.BeginsAt n →
      Machine.Course host n L log N → ∃ p, Machine.Disciplined host n L log N p) ∧
    (∀ (e : List Dispatch) (d : Dispatch), Dispatch.Execution e d →
      (e ++ [d]).map Dispatch.phase = List.range (e.length + 1) ∧ e.length < d.op.phaseCount ∧
      (∃ first rest, e ++ [d] = first :: rest ∧ first.Fresh ∧ d.op = first.op ∧
        ∀ a ∈ rest, a.decoded = none ∧ a.ip = first.ip ∧ a.op = first.op ∧
          a.imm = first.imm) ∧
      (e ++ [d]).filterMap Dispatch.called <+: d.op.metamethods) ∧
    (∀ op : Op, op.metamethods.Nodup) ∧
    (Op.binary .leq).metamethods = ["__lss", "__equ"] ∧
    (Op.binary .geq).metamethods = ["__lss", "__equ"] := by
  have recalled {h : Heap} (hh : h.Upholds (Stacks.recalling orderly)) (r : Ref .coroutine) :
      (h.coroutine r).memory.Recalled host h ∧ ∀ p ∈ (h.coroutine r).memory.posts,
      p.InPhase :=
    ⟨(hh.coroutine r).memory, (hh.coroutine r).memory.inPhase orderly⟩
  refine ⟨fun vm hvm => recalled (hvm.recalled orderly), fun floor l hl => ?_,
    fun n L N log begins course => course.disciplined orderly begins, fun e d he => ?_,
    Op.nodup_metamethods, by decide, by decide⟩
  · obtain ⟨hmemory, hheap⟩ := hl.recalled orderly
    exact ⟨hmemory, hmemory.inPhase orderly, recalled hheap⟩
  · obtain ⟨first, rest, hfirst, fresh, -, hop, -, hrest⟩ := he.instruction
    refine ⟨?_, he.length_lt, ⟨first, rest, hfirst, fresh, hop, hrest⟩, he.called_prefix⟩
    rw [List.map_append, he.phases.1, List.map_singleton, he.phases.2, List.range_succ]

/-- A closure whose code is `Leq`, and a table whose metatable has `__lss` and `__equ`. -/
def Heap.comparable : Heap :=
  let h : Heap := { Heap.empty with
    units :=
      ⟨#[⟨#[{ (default : Prototype) with code := #[(Op.binary .leq).byte] }], #[], 0⟩]⟩
    functions := ⟨#[⟨⟨0⟩, 0, none⟩]⟩
    contexts := ⟨#[⟨none, .empty, .empty⟩]⟩
    tables := ⟨#[{ Table.empty with metatable := some ⟨1⟩ }, .empty]⟩ }
  (h.writeEntry ⟨1⟩ (.str "__lss") (.pureFn ⟨0⟩)).writeEntry ⟨1⟩ (.str "__equ")
    (.pureFn ⟨1⟩)

/-- The closure about to compare a number with the table. -/
def Machine.comparing : Machine (Array Scripted.Event) where
  heap := .comparable
  memory := { Stacks.new .standard with
    values := ⟨#[.nil, .int 3, .table ⟨0⟩], 9⟩
    frames := ⟨#[⟨.bytecode ⟨0⟩ ⟨0⟩, 0, 1, 1, 1, 0, 0, 0, 0, none, .none⟩], 4⟩ }
  config := .standard
  state := #[]

/-- Of the table and the number, neither is less than the other one, and they are equal: the
comparison takes three phases.  The host has a system call. -/
theorem phase_discipline_leq :
    let host :=
      Scripted.Library.host ⟨#[.constant [.bool false], .constant [.bool true]], #[], #[]⟩
      fun _ => some [.pushDelimiter 2]
    let M := Machine.comparing
    host.Orderly ∧ Vm.Arises host (fun _ _ => True) (.new .standard #[]) ∧ M.BeginsAt 0 ∧
    ∃ (log : List Dispatch) (N : Machine (Array Scripted.Event)) (p : Post),
      Machine.Course host 0 M log N ∧ log.map Dispatch.phase = [0, 1, 2] ∧
      log.map Dispatch.called = [some "__lss", some "__equ", none] ∧
      Machine.Disciplined host 0 M log N p := by
  intro host M
  have orderly : host.Orderly := Scripted.Library.orderly _ _
  have begins : M.BeginsAt 0 := ⟨_, rfl, rfl, rfl⟩
  let M₁ := Exec.last (Exec.step host M)
  let M₂ := Exec.last (Exec.step host M₁)
  let M₃ := Exec.last (Exec.step host M₂)
  have hdepth : 0 < M₁.depth ∧ 0 < M₂.depth ∧ 0 < M₃.depth := by decide +kernel
  have course : Machine.Course host 0 M _ M₃ :=
    (((Machine.Course.start Nat.one_pos).step hdepth.1).step hdepth.2.1).step hdepth.2.2
  obtain ⟨p, hp⟩ := (phase_discipline orderly).2.2.1 0 M M₃ _ begins course
  exact ⟨orderly, .new _ trivial, begins, _, M₃, p, course, by decide +kernel,
    by decide +kernel, hp⟩

/-! ### A system call that changes the phase -/

/-- A host the system calls of which have the current frame begin an addition. -/
def Host.rephasing : Host Unit :=
  { Host.bare with
    syscall := fun _ => some fun _ memory s =>
      let frames := memory.frames.modifyLast fun f => { f with progress := .start (.binary .add) 0 }
      ⟨{ memory with frames }, s, none⟩ }

/-- A function that returns two numbers (`0x31` and `0x32` load them), with a system call (`0xe0`)
before it does. -/
def CodeUnit.rephased : CodeUnit := ⟨#[
  ⟨"pair", #[(Op.control .delimit).byte, 0x31, 0x32, 0xe0, (Op.control .ret).byte], 0, []⟩],
  #[], 0⟩

/-- Behind the system call the frame is in the middle of an addition, of which no phase has been
executed.  There is no addition in the code, but one is executed, and the function returns the
sum. -/
theorem phase_discipline_rephased :
    let vm := Vm.over .rephased ()
    let code := (vm.heap.prototype ⟨0⟩).code
    (∃ l : Vm.Live Unit, l.Arises .rephasing (fun _ _ _ => True) 0 ∧
      l.machine.posts = [⟨.bytecode ⟨0⟩ ⟨0⟩, 3, .start (.binary .add) 0⟩]) ∧
    ¬ Post.InPhase ⟨.bytecode ⟨0⟩ ⟨0⟩, 3, .start (.binary .add) 0⟩ ∧
    (∀ ip < code.size, ∀ ins, Instruction.decode code ip = .ok ins →
      ins.op ≠ some (.binary .add)) ∧
    Vm.values? (Vm.execute .bare 20 ⟨0⟩ [] vm) = some [.int 1, .int 2] ∧
    Vm.values? (Vm.execute .rephasing 20 ⟨0⟩ [] vm) = some [.int 3] := by
  intro vm code
  let start := Vm.enter .rephasing [] { vm with active := [⟨0⟩] }
  obtain ⟨l, hl⟩ : ∃ l, (start.after .rephasing 0 4).live? = some l :=
    Option.isSome_iff_exists.mp (by decide +kernel)
  have arises : l.Arises .rephasing (fun _ _ _ => True) 0 :=
    .of_enter (Vm.arises_over (u := .rephased) _ Nat.zero_lt_one fun _ _ => trivial) Nat.zero_lt_one
      (by simp) (Vm.Sequel.eq_live hl)
  have hposts : (start.after .rephasing 0 4).live?.map (fun l => l.machine.posts)
      = some [⟨.bytecode ⟨0⟩ ⟨0⟩, 3, .start (.binary .add) 0⟩] := by decide +kernel
  rw [hl] at hposts
  refine ⟨⟨l, arises, Option.some.inj hposts⟩, fun inPhase => ?_,
    ?_, by decide +kernel, by decide +kernel⟩
  · obtain ⟨op, name, hop, hcount, hnext, -⟩ := inPhase.awaits (by decide)
    cases hnext
  · intro ip hip ins hins hop
    have hnone : ∀ ip < code.size,
        (Instruction.decode code ip).toOption.bind (·.op) ≠ some (.binary .add) := by
          decide +kernel
    exact hnone ip hip (by rw [hins]; exact hop)

end ScriptVm
