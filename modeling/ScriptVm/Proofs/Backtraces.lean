import ScriptVm.Proofs.Atomicity
import ScriptVm.Proofs.CallStack
import ScriptVm.Proofs.Scripts

/-!
# Backtraces

A fault that no function handles is told with a backtrace: one line for each frame
that there is, the innermost first, with the address at which the frame is.  A step
that faults has not removed any frame, and has put none on top that would not be
there; so these are the frames that the step has found.  All but the innermost wait,
and are at the instruction that they wait for.  The innermost one is at the
instruction that it was executing in that step: the one that was to be fetched, if
there is none that could be executed, and otherwise the one that was fetched.

Main statements: `Stacks.Waiting.faults` (a step that faults) and `backtraces` (every
fault that a host is told of).
-/

namespace ScriptVm

variable {σ : Type} {host : Host σ} {vm : Vm σ} {own : Heap → σ → Prop}
  {keeps : (Ref .function → Prop) → σ → Prop}

/-! ### A step that faults -/

/-- **What a function was executing** when the fault `e` happened, with its frame `f` above those of
its callers: there is no instruction at its address that could be executed; or there is one, and a
phase of it has faulted. -/
inductive Machine.Blames (host : Host σ) (M : Machine σ) (e : Fault) (N : Machine σ)
    (fs : List Frame) (f : Frame) (r : Ref .function) (context : Ref .context) : Prop
  | fetching (cause : Exec.Unfetched σ (M.heap.prototype r).code f.address (.fault e))
  | executing {op : Op} {imm : Int64} {phase : Nat} {K : Machine σ} {k : Frame}
      (fetched : Exec.fetch r M = .ok (op, imm, phase) K)
      (frames : K.memory.frames.toList = fs ++ [k])
      (ip : k.ip = f.address) (executes : k.Executes (M.heap.prototype r).code op phase)
      (faults : Exec.execute host r context op imm phase K = .error (.fault e) N)

/-- **A step that faults**, with the frame `f` on top of those of its callers, which it leaves as
`g`. -/
structure Machine.Faults (host : Host σ) (M : Machine σ) (e : Fault) (N : Machine σ)
    (fs : List Frame) (f g : Frame) : Prop where
  step : Exec.step host M = .error (.fault e) N
  heap : N.heap = M.heap
  found : M.memory.frames.toList = fs ++ [f]
  left : N.memory.frames.toList = fs ++ [g]
  /-- The callers wait. -/
  callers : ∀ k ∈ fs, k.Waiting M.heap
  /-- A function of bytecode is at the instruction that it was executing. -/
  bytecode : ∀ r context, f.activity = .bytecode r context →
    g.activity = f.activity ∧ g.ip = f.address ∧ M.Blames host e N fs f r context
  /-- A function of the host has been asked for a step. -/
  async : ∀ call, f.activity = .async call → ∃ call', g = { f with activity := .async call' }

section

variable {M N : Machine σ} {e : Fault} {fs : List Frame} {f : Frame}

/-- A step of an asynchronous call that faults leaves its frame on top. -/
theorem Machine.left_of_async {call : AsyncCall} (hframes : M.memory.frames.toList = fs ++ [f])
    (hactivity : f.activity = .async call) (hstep : Exec.step host M = .error (.fault e) N) :
    ∃ call', N.memory.frames.toList = fs ++ [{ f with activity := .async call' }] := by
  have hf : M.memory.frames.last? = some f := Stack.last?_of_toList hframes
  rw [Exec.step_async host hf hactivity] at hstep
  have hshifts := Exec.frames_stepAsync host hframes hactivity
  rw [hstep] at hshifts
  rcases hshifts with ⟨call', new, -, hlast, hnone, -⟩ | ⟨-, hfaults, -⟩
  · obtain rfl := hnone e N rfl
    rw [Option.toList_none, List.append_nil] at hlast
    exact ⟨call', hlast⟩
  · exact absurd rfl (hfaults e N)

/-- An instruction that faults leaves its frame on top, and is to blame. -/
theorem Machine.left_of_bytecode (orderly : host.Orderly) (sparing : host.Sparing)
    (hM : M.memory.Waiting M.heap) {r : Ref .function} {context : Ref .context}
    (hframes : M.memory.frames.toList = fs ++ [f]) (hactivity : f.activity = .bytecode r context)
    (hstep : Exec.step host M = .error (.fault e) N) :
    ∃ g, N.memory.frames.toList = fs ++ [g] ∧ g.activity = f.activity ∧ g.ip = f.address ∧
      M.Blames host e N fs f r context := by
  have hf : M.memory.frames.last? = some f := Stack.last?_of_toList hframes
  have henters := Exec.fetch_enters hframes hactivity (hM.to_frames hframes).2
  rw [Exec.step_bytecode host hf hactivity, Exec.bind_apply] at hstep
  cases hfetch : Exec.fetch r M with
  | error stop L =>
    rw [hfetch] at hstep henters
    cases hstep
    cases henters with
    | @fails _ _ g frames activity ip finished cause =>
      exact ⟨g, frames, activity, ip, .fetching (ip ▸ cause)⟩
  | ok fetched K =>
    rw [hfetch] at hstep henters
    cases henters with
    | @enters op imm phase _ k frames activity ip executes heap =>
      have blames : M.Blames host e N fs f r context := .executing hfetch frames ip executes hstep
      have hshifts := Exec.frames_execute orderly frames r context op imm phase
      have hexecute : Exec.execute host r context op imm phase K = .error (.fault e) N := hstep
      rw [hexecute] at hshifts
      cases hshifts with
      | stays posts below _ =>
        obtain ⟨gs, g, hlast, -, hpost⟩ := Machine.exists_frame posts
        have hbelow : gs = fs := by
          rw [← below sparing, hlast, List.dropLast_concat]
        refine ⟨g, hbelow ▸ hlast, ?_, ?_, blames⟩
        · exact (congrArg Post.activity hpost).trans activity
        · exact (congrArg Post.ip hpost).trans ip
      | asks _ _ hlast hnone =>
        obtain rfl := hnone e N rfl
        rw [Option.toList_none, List.append_nil] at hlast
        exact ⟨_, hlast, activity, ip, blames⟩
      | calls _ _ hlast hnone =>
        obtain rfl := hnone e N rfl
        rw [Option.toList_none, List.append_nil] at hlast
        exact ⟨_, hlast, activity, ip, blames⟩
      | returns _ _ hnone => exact absurd rfl (hnone e N)

/-- **What a step that faults leaves**, if all frames below the one on top wait. -/
theorem Stacks.Waiting.faults (orderly : host.Orderly) (sparing : host.Sparing)
    (hM : M.memory.Waiting M.heap) (hstep : Exec.step host M = .error (.fault e) N) :
    ∃ fs f g, M.Faults host e N fs f g := by
  have hheap : N.heap = M.heap := Exec.Atomic.step host M e N hstep
  rcases List.eq_nil_or_concat' M.memory.frames.toList with hnone | ⟨fs, f, hframes⟩
  · -- a coroutine without frames finishes
    rw [Exec.step_nil host hnone] at hstep
    have hsmooth : Exec.Smooth (Exec.takeFrom 0 >>= fun values => pure (some (.finished values)) :
        Exec σ (Option Exit)) :=
      (Exec.Smooth.takeFrom 0).bind fun values => .pure _
    exact absurd hstep (hsmooth M e N)
  have callers := (hM.to_frames hframes).1
  cases hactivity : f.activity with
  | async call =>
    obtain ⟨call', hlast⟩ := Machine.left_of_async hframes hactivity hstep
    refine ⟨fs, f, _, hstep, hheap, hframes, hlast, callers, fun r context hf => ?_,
      fun _ _ => ⟨call', rfl⟩⟩
    cases hactivity.symm.trans hf
  | bytecode r context =>
    obtain ⟨g, hlast, hsame, hip, blames⟩ :=
      Machine.left_of_bytecode orderly sparing hM hframes hactivity hstep
    refine ⟨fs, f, g, hstep, hheap, hframes, hlast, callers, fun r' context' hf => ?_,
      fun call hf => ?_⟩
    · cases hactivity.symm.trans hf
      exact ⟨hsame, hip, blames⟩
    · cases hactivity.symm.trans hf

end

/-! ### What a host is told -/

/-- **A backtrace that tells the truth**, of a fault that a resume passes on.  The coroutine has not
begun, since a function of the host that is its entry has faulted, and there is nothing to tell.  Or
a step has faulted, and there is one line for each frame, the innermost first. -/
inductive Vm.Reports (host : Host σ) (vm : Vm σ) (r : Ref .coroutine) (args : List Value)
    (e : Fault) (trace : List TraceLine) : Prop
  | opening {N : Machine σ} (begins : Coroutine.begin host vm r args = .error (.fault e) N)
      (frames : N.memory.frames.toList = []) (lines : trace = [])
  | step {M N : Machine σ} {fs : List Frame} {f g : Frame} (runs : vm.Runs host r args M)
      (faults : M.Faults host e N fs f g)
      (lines : trace = (fs ++ [g]).reverse.map fun k => ⟨M.heap.frameName k, k.ip⟩)

namespace Vm

/-- A coroutine that faults before its first step has no frames: it is new, and its entry is a
function of the host. -/
theorem frames_of_begin_fault {r : Ref .coroutine} {args : List Value} {e : Fault} {N : Machine σ}
    (fresh : (vm.heap.coroutine r).state = .initial →
      (vm.heap.coroutine r).memory.view = .bare [])
    (h : Coroutine.begin host vm r args = .error (.fault e) N) : N.memory.frames.toList = [] := by
  by_cases hnew : (vm.heap.coroutine r).state = .initial
  · obtain ⟨new, -, hframes, hnone⟩ := Exec.Raises.opening host (vm.heap.coroutine r).state
      (vm.heap.coroutine r).entry (vm.heap.coroutine r).entryContext args
      (Coroutine.checkOut r vm.heap vm.state)
    rw [Coroutine.begin] at h
    rw [h] at hframes hnone
    obtain rfl := hnone e N rfl
    rw [Option.toList_none, List.append_nil] at hframes
    exact hframes.trans (congrArg Layer.frames (fresh hnew))
  · rw [Coroutine.begin, Coroutine.opening, if_neg hnew] at h
    cases h

/-- **Every fault that a resume passes on.** -/
theorem Occurs.reports (orderly : host.Orderly) (sparing : host.Sparing)
    (rooted : host.Rooted keeps) {r : Ref .coroutine} {args : List Value}
    (occurs : vm.Occurs host (Host.Owned keeps) r args) {fuel : Nat} {e : Fault}
    {trace : List TraceLine} {vm' : Vm σ}
    (h : Coroutine.resume host fuel r args vm = .error (.runtime e trace) vm') :
    vm.Reports host r args e trace := by
  let I := Stacks.waiting orderly sparing rooted
  have covers : I.premise.Covers (Host.Owned keeps) := Vm.Premise.intact_covers rooted
  obtain ⟨haccepted, N, hfault, -, rfl⟩ := Coroutine.resume_eq_fault h
  rcases hfault with hbegin | ⟨M, runs, hstep⟩
  · have hnone : N.memory.frames.toList = [] :=
      frames_of_begin_fault ((occurs.upholds covers).coroutine r).fresh hbegin
    refine .opening hbegin hnone ?_
    rw [Heap.backtrace, hnone]
    rfl
  · have hwaiting : M.memory.Waiting M.heap := (occurs.runs covers haccepted runs).2
    obtain ⟨fs, f, g, faults⟩ := hwaiting.faults orderly sparing hstep
    refine .step runs faults ?_
    rw [Heap.backtrace, faults.left, faults.heap]

/-- A fault that ends a round has been passed on by its resume. -/
theorem exists_resume_of_round {floor fuel : Nat} {values : List Value} {e : Fault}
    {trace : List TraceLine} {vm' : Vm σ}
    (h : round host floor fuel values vm = .error (.runtime e trace) vm') :
    ∃ top vm'', vm.active.head? = some top ∧
      Coroutine.resume host fuel top values vm = .error (.runtime e trace) vm'' := by
  rw [round, bind_apply, get_apply] at h
  dsimp only at h
  cases hactive : vm.active with
  | nil =>
    rw [hactive] at h
    cases h
  | cons top below =>
    rw [hactive] at h
    dsimp only at h
    rw [bind_apply] at h
    cases hresume : Coroutine.resume host fuel top values vm with
    | error e' vm'' =>
      rw [hresume] at h
      cases h
      exact ⟨top, vm', rfl, hresume⟩
    | ok exit vm'' =>
      -- all that follows a resume is usage of the scheduler
      rw [hresume] at h
      cases exit with
      | switched next args => cases h
      | finished results =>
        have hretire : (retire : Schedule σ Unit) vm'' = .ok () _ := rfl
        simp only [bind_apply, hretire] at h
        split at h <;> cases h
      | yielded results =>
        have hretire : (retire : Schedule σ Unit) vm'' = .ok () _ := rfl
        simp only [bind_apply, hretire] at h
        split at h <;> cases h

/-- A fault that ends a run has been passed on by the resume at one of its heads. -/
theorem exists_resume_of_loop {floor fuel : Nat} {values : List Value} {e : Fault}
    {trace : List TraceLine} {vm' : Vm σ}
    (h : loop host floor fuel values vm = .error (.runtime e trace) vm') :
    ∃ head top fuel' vm'', Head.LeadsAbove host floor ⟨fuel, values, vm⟩ head ∧
      head.vm.active.head? = some top ∧
      Coroutine.resume host fuel' top head.values head.vm = .error (.runtime e trace) vm'' := by
  induction fuel generalizing values vm with
  | zero => cases h
  | succ fuel ih =>
    rw [loop_succ, bind_apply] at h
    cases hround : round host floor fuel values vm with
    | error e' vm'' =>
      rw [hround] at h
      cases h
      obtain ⟨top, vm'', hactive, hresume⟩ := exists_resume_of_round hround
      exact ⟨_, top, fuel, vm'', .refl, hactive, hresume⟩
    | ok next vm₁ =>
      rw [hround] at h
      cases next with
      | done results => cases h
      | again values' =>
        obtain ⟨head, top, fuel', vm'', leads, hactive, hresume⟩ := ih h
        have hnext :
            Head.NextAbove host floor ⟨fuel + 1, values, vm⟩ ⟨fuel, values', vm₁⟩ :=
          ⟨rfl, hround⟩
        exact ⟨head, top, fuel', vm'', .head hnext leads, hactive, hresume⟩

theorem loop_of_execute {fuel : Nat} {root : Ref .coroutine} {args : List Value} {e : Fault}
    {trace : List TraceLine} {vm' : Vm σ}
    (h : execute host fuel root args vm = .error (.runtime e trace) vm') :
    ∃ vm'', loop host vm.active.length fuel args { vm with active := root :: vm.active }
      = .error (.runtime e trace) vm'' := by
  unfold execute at h
  dsimp only at h
  cases hloop : loop host vm.active.length fuel args { vm with active := root :: vm.active } with
  | ok values vm'' =>
    rw [hloop] at h
    cases h
  | error failure vm'' =>
    rw [hloop] at h
    cases failure <;> cases h
    exact ⟨vm'', rfl⟩

/-- **Every fault that ends a request**, unless it is refused before anything runs. -/
theorem Arises.exists_resume (arises : vm.Arises host own) {q : Request}
    (held : (Errand.request q).Held vm.heap) {fuel : Nat} {e : Fault} {trace : List TraceLine}
    {vm' : Vm σ} (h : q.run host fuel vm = .error (.runtime e trace) vm') :
    (trace = [] ∧ vm' = { vm with heap := q.opened vm.heap }) ∨
    ∃ vm₁ r args fuel' vm'', vm₁.Occurs host own r args ∧
      Coroutine.resume host fuel' r args vm₁ = .error (.runtime e trace) vm'' := by
  have hcomes := comes_request bears_arises arises held fuel
  rw [h] at hcomes
  generalize hresult : (EStateM.Result.error (.runtime e trace) vm' :
    EStateM.Result Failure (Vm σ) (List Value)) = result at hcomes
  cases hcomes with
  | refused _ untraced =>
    cases hresult
    exact .inl ⟨untraced e trace rfl, rfl⟩
  | runs arises held =>
    right
    obtain ⟨vm'', hloop⟩ := loop_of_execute hresult.symm
    obtain ⟨head, top, fuel', vm₁, leads, hactive, hresume⟩ := exists_resume_of_loop hloop
    exact ⟨head.vm, top, head.values, fuel', vm₁, .round arises held leads hactive, hresume⟩

end Vm

/-- **Backtraces tell the truth.**  The system calls of a host leave the call stack alone, but for
the frame that makes them and for where that goes on; and all closures that the host refers to are
there.  Then every fault that a resume passes on is told with one line for each frame that there is
at the fault, the innermost first.  The frame on top is at the instruction that it was executing;
all frames below wait, for a function that they have called or for a metamethod of an operator, and
are at the instruction that they wait for.  A fault that ends a request has been passed on by such a
resume, if the request is not refused before anything runs. -/
theorem backtraces (orderly : host.Orderly) (sparing : host.Sparing) (rooted : host.Rooted keeps) :
    (∀ (vm vm' : Vm σ) (r : Ref .coroutine) (args : List Value) (fuel : Nat) (e : Fault)
        (trace : List TraceLine), vm.Occurs host (Host.Owned keeps) r args →
      Coroutine.resume host fuel r args vm = .error (.runtime e trace) vm' →
      vm.Reports host r args e trace) ∧
    ∀ (vm vm' : Vm σ) (q : Request) (fuel : Nat) (e : Fault) (trace : List TraceLine),
      vm.Arises host (Host.Owned keeps) → (Errand.request q).Held vm.heap →
      q.run host fuel vm = .error (.runtime e trace) vm' →
      (trace = [] ∧ vm' = { vm with heap := q.opened vm.heap }) ∨
      ∃ (vm₁ : Vm σ) (r : Ref .coroutine) (args : List Value),
        vm₁.Occurs host (Host.Owned keeps) r args ∧ vm₁.Reports host r args e trace := by
  refine ⟨fun vm vm' r args fuel e trace occurs => occurs.reports orderly sparing rooted, ?_⟩
  intro vm vm' q fuel e trace arises held h
  rcases arises.exists_resume held h with refused |
    ⟨vm₁, r, args, fuel', vm'', occurs, hresume⟩
  · exact .inl refused
  · exact .inr ⟨vm₁, r, args, occurs, occurs.reports orderly sparing rooted hresume⟩

/-! ### A fault in a metamethod -/

/-- A function that compares the sum of its first argument and what a system call has pushed with
its second one (`0x50` to `0x52` load its arguments, the last of them adds up, `0xe0` makes the
system call and `0xb1` keeps one result); one that calls a third one; and that one, the code of
which is cut off inside its second instruction. -/
def CodeUnit.broken : CodeUnit := ⟨#[
  ⟨"compare", #[(Op.control .delimit).byte, 0x50, 0xe0, 0x52, (Op.control .call).byte, 0xb1, 0x51,
    (Op.binary .leq).byte, (Op.control .ret).byte], 0, []⟩,
  ⟨"less", #[(Op.control .delimit).byte, (Op.loadFunction .short).byte, 2,
    (Op.control .call).byte], 0, []⟩,
  ⟨"broken", #[(Op.control .nop).byte, (Op.loadFunction .short).byte], 0, []⟩], #[], 0⟩

/-- A scheduler with a coroutine over the first function, and a table the metamethod `__lss` of
which is the second one. -/
def Vm.broken : Vm (Array Scripted.Event) :=
  let h : Heap := { Heap.empty with
    units := ⟨#[.broken]⟩
    functions := ⟨#[⟨⟨0⟩, 0, none⟩, ⟨⟨0⟩, 1, none⟩]⟩
    tables := ⟨#[.empty, .empty]⟩
    coroutines := ⟨#[.new (.function ⟨0⟩) none .standard]⟩ }
  let h := h.writeEntry ⟨1⟩ (.str "__lss") (.function ⟨1⟩)
  { Vm.new .standard #[] with
    heap := h.modifyTable ⟨0⟩ fun table => { table with metatable := some ⟨1⟩ } }

theorem Vm.arises_broken (library : Scripted.Library)
    (syscalls : Fin 8 → Option (List Scripted.SyscallScript))
    {own : Heap → Array Scripted.Event → Prop} (hown : own .empty #[]) :
    Vm.broken.Arises (library.host syscalls) own := by
  have hnew : (Vm.new Config.standard #[]).Arises (library.host syscalls) own := .new .standard hown
  have hload := hnew.deed (d := .load .broken) trivial rfl
  have hcompare := hload.deed (d := .newFunction ⟨0⟩ 0 none) trivial rfl
  have hless := hcompare.deed (d := .newFunction ⟨0⟩ 1 none) trivial rfl
  have htables := (hless.deed (d := .newTable) trivial rfl).deed (d := .newTable) trivial rfl
  have hcoroutine := htables.deed (d := .newCoroutine (.function ⟨0⟩) none .standard)
    ⟨fun r hr => by cases hr; exact Nat.zero_lt_two, nofun⟩
    (Eq.refl (Except.ok (Reply.values [.coroutine ⟨0⟩], _)))
  have hstore := hcoroutine.deed (d := .store ⟨1⟩ (.str "__lss") (.function ⟨1⟩))
    ⟨⟨nofun, nofun⟩, fun r hr => by cases hr; exact Nat.one_lt_two, nofun⟩ rfl
  exact hstore.deed (d := .setMetatable ⟨0⟩ (some ⟨1⟩)) trivial rfl

/-- The first function waits at its eighth instruction, for the metamethod; that one at its third,
for the function that it has called; and that one was to fetch its second. -/
theorem backtraces_broken :
    let host := Scripted.Library.host ⟨#[.sum], #[], #[]⟩ fun _ => some [.push (.int 1)]
    let keeps (_ : Ref .function → Prop) (_ : Array Scripted.Event) : Prop := True
    let args : List Value := [.int 3, .table ⟨0⟩, .pureFn ⟨0⟩]
    let trace : List TraceLine := [⟨"broken", 1⟩, ⟨"less", 3⟩, ⟨"compare", 7⟩]
    host.Orderly ∧ host.Sparing ∧ host.Rooted keeps ∧
    ∃ vm', Vm.broken.Occurs host (Host.Owned keeps) ⟨0⟩ args ∧
      Coroutine.resume host 20 ⟨0⟩ args Vm.broken
        = .error (.runtime .unexpectedEndOfCode trace) vm' ∧
      Vm.broken.Reports host ⟨0⟩ args .unexpectedEndOfCode trace := by
  intro host keeps args trace
  have orderly : host.Orderly := Scripted.Library.orderly _ _
  have sparing : host.Sparing := Scripted.Library.sparing _ _
  have rooted : host.Rooted keeps := by
    refine Scripted.Library.honest (by decide +kernel) (fun i script hscript => ?_) _
    cases hscript
    rfl
  have hfailure : Vm.failure? (Coroutine.resume host 20 ⟨0⟩ args Vm.broken)
      = some (.runtime .unexpectedEndOfCode trace) := by
    decide +kernel
  obtain ⟨vm', hresume, -⟩ := Vm.error_of_failure? hfailure
  have occurs : Vm.broken.Occurs host (Host.Owned keeps) ⟨0⟩ args :=
    .own (Vm.arises_broken _ _ trivial) ⟨Nat.zero_lt_one, by simp [args, Value.Held]⟩
  exact ⟨orderly, sparing, rooted, vm', occurs, hresume,
    (backtraces orderly sparing rooted).1 _ _ _ _ _ _ _ occurs hresume⟩

/-! ### A system call that moves its caller -/

/-- A host the system calls of which move all frames to a place behind their code. -/
def Host.misplacing : Host Unit :=
  { Host.bare with
    syscall := fun _ => some fun _ memory s =>
      let moved := memory.frames.items.map fun f => { f with ip := 999 }
      ⟨{ memory with frames := { memory.frames with items := moved } }, s, none⟩ }

theorem Host.misplacing_rooted : Host.misplacing.Rooted fun _ _ => True := by
  constructor
  case pureFn => exact fun _ _ => nofun
  case effectFn =>
    intros
    exact ⟨nofun, trivial⟩
  case asyncFn =>
    intros
    exact ⟨nofun, trivial⟩
  case syscall =>
    intro i call hcall good h memory s hh hmemory _
    cases hcall
    refine ⟨⟨hmemory.values, fun f hf => ?_⟩, trivial⟩
    obtain ⟨g, hg, rfl⟩ : ∃ g ∈ memory.frames.toList, { g with ip := 999 } = f := by
      simpa [Stack.toList] using hf
    exact (hmemory.frames g hg : g.Among good)
  all_goals
    intros
    trivial

/-- A function that calls another one, and that one, which makes a system call (`0xe0`) and divides
one by zero (`0x31` and `0x30` load the numbers). -/
def CodeUnit.misplaced : CodeUnit := ⟨#[
  ⟨"calling", #[(Op.control .delimit).byte, (Op.loadFunction .short).byte, 1,
    (Op.control .call).byte, (Op.control .ret).byte], 0, []⟩,
  ⟨"dividing", #[0xe0, 0x31, 0x30, (Op.binary .div).byte], 0, []⟩],
  #[], 0⟩

/-- The first function waits at its third instruction.  The backtrace tells that it is at a place
where there is none. -/
theorem backtraces_misplaced :
    let vm := Vm.over .misplaced ()
    let trace : List TraceLine := [⟨"dividing", 3⟩, ⟨"calling", 999⟩]
    (∃ vm', vm.Occurs .misplacing (Host.Owned fun _ _ => True) ⟨0⟩ [] ∧
      Coroutine.resume .misplacing 20 ⟨0⟩ [] vm
        = .error (.runtime (.divisionByZero .div) trace) vm') ∧
    (vm.heap.prototype ⟨0⟩).name = "calling" ∧
    Instruction.decode (vm.heap.prototype ⟨0⟩).code 999
      = .error (.invalidInstructionPointer 999 5) ∧
    Host.misplacing.Rooted fun _ _ => True := by
  intro vm trace
  have hfailure : Vm.failure? (Coroutine.resume .misplacing 20 ⟨0⟩ [] vm)
      = some (.runtime (.divisionByZero .div) trace) := by
    decide +kernel
  obtain ⟨vm', hresume, -⟩ := Vm.error_of_failure? hfailure
  have arises : vm.Arises .misplacing (Host.Owned fun _ _ => True) :=
    Vm.arises_over (u := .misplaced) _ Nat.zero_lt_two trivial
  exact ⟨⟨vm', .own arises ⟨Nat.zero_lt_one, nofun⟩, hresume⟩, rfl, rfl,
    Host.misplacing_rooted⟩

end ScriptVm
