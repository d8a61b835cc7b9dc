import ScriptVm.Proofs.StackInvariants

/-!
# Frames that wait

Only the frame on top of a call stack executes something.  All others wait for a
function that they have called: with the instruction `Call`, which is done; or with an
operator or an instruction on tables that has called a metamethod, and the next phase
of which will collect the result.  So every one of them is at that instruction, and
goes on behind it.  The frame on top is in the middle of an instruction for the second
reason only.

An instruction is entered when it is fetched, at the address of its frame
(`Frame.address`).

Main statements: `Exec.fetch_enters` (an instruction is fetched), `Stacks.Waiting.execute`
(one phase of it) and `Stacks.Waiting.step` (a whole step).
-/

namespace ScriptVm

variable {σ : Type} {h h' : Heap} {code : Bytes} {op : Op} {phase : Nat} {f g : Frame}

/-! ### Inside an instruction -/

/-- **A frame is inside an instruction**: it is where that is decoded, and goes on behind it. -/
structure Frame.Inside (code : Bytes) (op : Op) (f : Frame) : Prop where
  decodes : ∃ ins, Instruction.decode code f.ip = .ok ins ∧ ins.op = some op ∧
    f.nextIp = ins.next
  known : f.progress.op = some op
  count : f.progress.count = op.phaseCount

/-- **A frame executes a phase of an instruction**, and is done with it unless the phase says
otherwise. -/
structure Frame.Executes (code : Bytes) (op : Op) (phase : Nat) (f : Frame) : Prop
    extends f.Inside code op where
  phase : f.progress.phase = phase
  finished : f.progress.finished = true

/-- **A frame waits** for a function that it has called, or for a metamethod. -/
inductive Frame.Waits (code : Bytes) (f : Frame) : Prop
  | call (inside : f.Inside code (.control .call)) (finished : f.progress.finished = true)
  | method {op : Op} {name : String} (inside : f.Inside code op)
      (asks : op.asks f.progress.phase = some name) (next : f.progress.next = f.progress.phase + 1)
      (pending : f.progress.finished = false)

/-- A frame of bytecode waits at an instruction of its closure, which is there. -/
def Frame.Waiting (h : Heap) (f : Frame) : Prop :=
  ∀ r context, f.activity = .bytecode r context →
    h.functions.Holds r ∧ f.Waits (h.prototype r).code

/-- The address of the instruction that a frame executes next: the next one, or the one it is in the
middle of. -/
def Frame.address (f : Frame) : Nat :=
  if f.progress.finished then f.nextIp else f.ip

namespace Frame

theorem Starts.finished (hf : f.Starts) : f.progress.finished = true := by
  rw [hf.progress]
  rfl

/-- What there is to wait for is not at the end of the code. -/
theorem Waits.code_ne (hf : f.Waits code) : code ≠ #[] := by
  rintro rfl
  have hreturns {ip : Nat} {ins : Instruction} (hdecode : Instruction.decode #[] ip = .ok ins) :
      ins.op = some (.control .ret) := by
    unfold Instruction.decode at hdecode
    have hout : ¬ ip < (#[] : Bytes).size := Nat.not_lt_zero ip
    rw [dif_neg hout] at hdecode
    split at hdecode
    · cases hdecode
      rfl
    · cases hdecode
  cases hf with
  | call inside _ =>
    obtain ⟨ins, hdecode, hop, -⟩ := inside.decodes
    cases (hreturns hdecode).symm.trans hop
  | method inside asks _ _ =>
    obtain ⟨ins, hdecode, hop, -⟩ := inside.decodes
    cases (hreturns hdecode).symm.trans hop
    cases asks

/-- A frame in the middle of an instruction waits for a metamethod. -/
theorem Waits.method_of_unfinished (hf : f.Waits code) (hunfinished : f.progress.finished = false) :
    ∃ op name, f.Inside code op ∧ op.asks f.progress.phase = some name ∧
      f.progress.next = f.progress.phase + 1 := by
  cases hf with
  | call _ finished => cases finished.symm.trans hunfinished
  | method inside asks next _ => exact ⟨_, _, inside, asks, next⟩

theorem Waiting.keeps (hf : f.Waiting h) (hkeeps : h.KeepsCode h') : f.Waiting h' := by
  intro r context hactivity
  obtain ⟨hr, hwaits⟩ := hf r context hactivity
  obtain ⟨hr', hsame⟩ := hkeeps r hr hwaits.code_ne
  exact ⟨hr', hsame ▸ hwaits⟩

end Frame

/-! ### Call stacks -/

/-- **Every frame but the one on top waits**, and that one does if it is in the middle of an
instruction. -/
structure Stacks.Waiting (h : Heap) (s : Stacks) : Prop where
  callers : ∀ f ∈ s.frames.toList.dropLast, f.Waiting h
  current : ∀ f ∈ s.frames.toList.getLast?, f.progress.finished = false → f.Waiting h

namespace Stacks.Waiting

variable {s : Stacks} {fs : List Frame}

theorem keeps (hs : s.Waiting h) (hkeeps : h.KeepsCode h') : s.Waiting h' :=
  ⟨fun f hf => (hs.callers f hf).keeps hkeeps,
    fun f hf hf' => (hs.current f hf hf').keeps hkeeps⟩

theorem of_frames (hframes : s.frames.toList = fs ++ [f]) (callers : ∀ g ∈ fs, g.Waiting h)
    (current : f.progress.finished = false → f.Waiting h) : s.Waiting h := by
  refine ⟨?_, fun g hg => ?_⟩
  · rwa [hframes, List.dropLast_concat]
  · rw [hframes, List.getLast?_concat] at hg
    cases hg
    exact current

/-- A frame on top of a call stack, and those below it. -/
theorem to_frames (hs : s.Waiting h) (hframes : s.frames.toList = fs ++ [f]) :
    (∀ g ∈ fs, g.Waiting h) ∧ (f.progress.finished = false → f.Waiting h) := by
  refine ⟨?_, hs.current f ?_⟩
  · have hcallers := hs.callers
    rwa [hframes, List.dropLast_concat] at hcallers
  · rw [hframes, List.getLast?_concat]
    rfl

/-- Frames that all wait. -/
theorem of_waiting (hs : ∀ g ∈ s.frames.toList, g.Waiting h) : s.Waiting h :=
  ⟨fun g hg => hs g (List.dropLast_subset _ hg), fun g hg _ => hs g (List.mem_of_getLast? hg)⟩

/-- **A call**: the frame that makes it waits, and another one may have come on top. -/
theorem raised {new : Option Frame} (hframes : s.frames.toList = fs ++ [f] ++ new.toList)
    (starts : ∀ g ∈ new, g.Starts) (callers : ∀ g ∈ fs, g.Waiting h) (hf : f.Waiting h) :
    s.Waiting h := by
  have hbelow : ∀ g ∈ fs ++ [f], g.Waiting h := by
    intro g hg
    rcases List.mem_append.mp hg with hg | hg
    · exact callers g hg
    · exact List.mem_singleton.mp hg ▸ hf
  cases new with
  | none =>
    rw [Option.toList_none, List.append_nil] at hframes
    exact of_waiting (hframes ▸ hbelow)
  | some top =>
    refine of_frames hframes hbelow fun hunfinished => ?_
    cases (starts top rfl).finished.symm.trans hunfinished

end Stacks.Waiting

namespace Exec

variable {host : Host σ} {M N : Machine σ} {fs : List Frame} {r : Ref .function}
  {context : Ref .context}

/-! ### Fetching -/

/-- **What fetching comes to**, for a frame that is in the middle of an instruction only if it
waits: it enters the instruction at its address, or there is none. -/
inductive Enters (M : Machine σ) (r : Ref .function) (fs : List Frame) (f : Frame) :
    EStateM.Result Stop (Machine σ) (Op × Int64 × Nat) → Prop
  | fails {e : Stop} {N : Machine σ} {g : Frame} (frames : N.memory.frames.toList = fs ++ [g])
      (activity : g.activity = f.activity) (ip : g.ip = f.address)
      (finished : g.progress.finished = true)
      (cause : Unfetched σ (M.heap.prototype r).code g.ip e) : Enters M r fs f (.error e N)
  | enters {op : Op} {imm : Int64} {phase : Nat} {N : Machine σ} {g : Frame}
      (frames : N.memory.frames.toList = fs ++ [g]) (activity : g.activity = f.activity)
      (ip : g.ip = f.address) (executes : g.Executes (M.heap.prototype r).code op phase)
      (heap : N.heap = M.heap) : Enters M r fs f (.ok (op, imm, phase) N)

theorem fetch_enters (hframes : M.memory.frames.toList = fs ++ [f])
    (hactivity : f.activity = .bytecode r context)
    (hwaits : f.progress.finished = false → f.Waiting M.heap) : Enters M r fs f (fetch r M) := by
  -- a frame in the middle of an instruction knows which one it is
  have hfinished (idle : f.progress.finished = true ∨ f.progress.op = none) :
      f.progress.finished = true := by
    cases hf : f.progress.finished with
    | true => rfl
    | false =>
      obtain ⟨op, name, inside, -⟩ := (hwaits hf r context hactivity).2.method_of_unfinished hf
      have hunknown := idle.resolve_left (by simp [hf])
      cases hunknown.symm.trans inside.known
  have hfetches := fetches hframes r
  generalize fetch r M = result at hfetches
  cases hfetches with
  | fails idle frames activity ip _ progress cause =>
    have hf := hfinished idle
    refine .fails frames activity ?_ ((progress hf).symm ▸ hf) (ip ▸ cause)
    rw [Frame.address, if_pos hf, ip]
  | @fresh ins op imm N idle decodes hop himm frames heap state =>
    refine .enters frames rfl ?_ ⟨⟨⟨ins, decodes, hop, rfl⟩, rfl, rfl⟩, rfl, ?_⟩ heap
    · rw [Frame.address, if_pos (hfinished idle)]
    · exact decide_eq_true (Nat.le_refl _)
  | @again op N unfinished hop frames heap state =>
    obtain ⟨op', name, inside, -⟩ :=
      (hwaits unfinished r context hactivity).2.method_of_unfinished unfinished
    obtain rfl : op' = op := Option.some.inj (inside.known.symm.trans hop)
    refine .enters frames rfl ?_ ⟨⟨inside.decodes, inside.known, inside.count⟩,
      rfl, ?_⟩ heap
    · rw [Frame.address, unfinished]
      rfl
    · exact decide_eq_true (Nat.le_refl _)

end Exec

namespace Stacks.Waiting

variable {host : Host σ} {M : Machine σ} {fs : List Frame} {r : Ref .function}
  {context : Ref .context}

/-! ### Steps -/

/-- **One phase of an instruction.** -/
theorem execute (orderly : host.Orderly) (sparing : host.Sparing)
    (hframes : M.memory.frames.toList = fs ++ [f]) (hactivity : f.activity = .bytecode r context)
    (hr : h.functions.Holds r) (callers : ∀ g ∈ fs, g.Waiting h)
    (executes : f.Executes (h.prototype r).code op phase) (imm : Int64) :
    (Exec.last (Exec.execute host r context op imm phase M)).memory.Waiting h := by
  have hwaiting {g : Frame} (hg : g.activity = f.activity) (hwaits : g.Waits (h.prototype r).code) :
      g.Waiting h := by
    intro r' context' hactivity'
    cases hactivity'.symm.trans (hg.trans hactivity)
    exact ⟨hr, hwaits⟩
  have hshifts := Exec.frames_execute orderly hframes r context op imm phase
  generalize Exec.execute host r context op imm phase M = result at hshifts
  cases hshifts with
  | stays posts below _ =>
    obtain ⟨gs, g, hlast, -, hpost⟩ := Machine.exists_frame posts
    have hbelow : gs = fs := by
      rw [← below sparing, hlast, List.dropLast_concat]
    refine .of_frames hlast (hbelow ▸ callers) fun hunfinished => ?_
    have hprogress : g.progress = f.progress := congrArg Post.progress hpost
    cases (hprogress ▸ executes.finished).symm.trans hunfinished
  | asks asks opens frames _ =>
    refine .raised frames (fun g hg => (opens g hg).toStarts) callers (hwaiting rfl ?_)
    refine .method ⟨executes.decodes, executes.known, executes.count⟩
      (executes.phase.symm ▸ asks)
      (congrArg (· + 1) executes.phase.symm) (decide_eq_false (Nat.not_le.mpr ?_))
    exact lt_of_lt_of_eq (Op.lt_phaseCount_of_asks asks) executes.count.symm
  | calls call opens frames _ =>
    subst call
    exact .raised frames (fun g hg => (opens g hg).toStarts) callers
      (hwaiting rfl (.call executes.toInside executes.finished))
  | returns _ frames _ => exact .of_waiting (frames ▸ callers)

/-- **A step**, if the closures that have frames are there. -/
theorem step (orderly : host.Orderly) (sparing : host.Sparing)
    (hheld : ∀ f ∈ M.memory.frames.toList, ∀ r context, f.activity = .bytecode r context →
      M.heap.functions.Holds r)
    (hM : M.memory.Waiting M.heap) :
    (Exec.last (Exec.step host M)).memory.Waiting M.heap := by
  rcases List.eq_nil_or_concat' M.memory.frames.toList with hnone | ⟨fs, f, hframes⟩
  · refine .of_waiting fun g hg => ?_
    rw [Exec.frames_step_nil host hnone] at hg
    cases hg
  obtain ⟨callers, current⟩ := hM.to_frames hframes
  have hf : M.memory.frames.last? = some f := Stack.last?_of_toList hframes
  cases hactivity : f.activity with
  | async call =>
    rw [Exec.step_async host hf hactivity]
    rcases Exec.frames_stepAsync host hframes hactivity with
      ⟨call', new, opens, hlast, -⟩ | ⟨hgone, -⟩
    · exact .raised hlast (fun g hg => (opens g hg).1.toStarts) callers nofun
    · exact .of_waiting (hgone ▸ callers)
  | bytecode r context =>
    have hr := hheld f (by simp [hframes]) r context hactivity
    have henters := Exec.fetch_enters hframes hactivity current
    rw [Exec.step_bytecode host hf hactivity, Exec.bind_apply]
    generalize Exec.fetch r M = result at henters
    cases henters with
    | fails frames _ _ finished _ =>
      exact .of_frames frames callers fun hunfinished => by cases finished.symm.trans hunfinished
    | enters frames activity _ executes _ =>
      exact execute orderly sparing frames (activity.trans hactivity) hr callers executes _

end Stacks.Waiting

/-! ### Every reachable state -/

/-- **Frames wait** whatever a coroutine does, and whatever is done with it. -/
def Stacks.waiting {host : Host σ} {keeps : (Ref .function → Prop) → σ → Prop}
    (orderly : host.Orderly) (sparing : host.Sparing) (rooted : host.Rooted keeps) :
    Stacks.Invariant host where
  premise := .intact rooted
  holds h s := s.Waiting h
  bare {h s} hs := by
    have hnone : s.frames.toList = [] := congrArg Layer.frames hs
    exact .of_waiting (hnone ▸ List.forall_mem_nil _)
  keeps hkeeps hs := hs.keeps hkeeps.keepsCode
  opened := by
    intro M entry context args hbare N _
    obtain ⟨new, opens, hframes, -⟩ := Exec.Raises.opening host .initial entry context args M
    have hnone : M.memory.frames.toList = [] := congrArg Layer.frames hbare
    rw [hnone, List.nil_append] at hframes
    cases new with
    | none => exact .of_waiting (hframes ▸ List.forall_mem_nil _)
    | some f =>
      have hone : N.memory.frames.toList = [] ++ [f] := hframes
      refine .of_frames hone (List.forall_mem_nil _) fun hunfinished => ?_
      cases (opens f rfl).1.finished.symm.trans hunfinished
  resumed := by
    intro M s values hmemory hs
    rw [hmemory]
    exact ⟨hs.callers, hs.current⟩
  step {M} hgiven hM := by
    have hstep := hM.step orderly sparing fun f hf r context hactivity => hgiven.holds hf hactivity
    exact hstep.keeps (.of_retains (Exec.step_retains host M))

end ScriptVm
