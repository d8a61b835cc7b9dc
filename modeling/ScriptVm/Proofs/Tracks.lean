import ScriptVm.Proofs.Passing

/-!
# Frames on track

A frame is **on track** if it stands at boundaries of its code: at the start of
the instruction it executes, and with the next one right behind it or where a
branch has led.  If all code can be run, every step leaves all frames on track and
never faults because of the code: what is fetched is an instruction, it ends at a
boundary, and what jumps was given the distance to one.

The code of a closure stays what it is, since no unit changes and a closure keeps
its prototype.

Main statement: `Machine.Tracked.step`.
-/

namespace ScriptVm

open Instruction

variable {σ : Type}

/-! ### Code stays -/

/-- **Closures stay what they are**, but for the contexts they are bound to. -/
structure Heap.Retains (h h' : Heap) : Prop where
  units : h'.units = h.units
  functions : ∀ r, h.functions.Holds r → h'.functions.Holds r ∧
    (h'.function r).unit = (h.function r).unit ∧ (h'.function r).index = (h.function r).index

namespace Heap.Retains

variable {h h' h'' : Heap}

theorem of_eq (hunits : h'.units = h.units) (hfunctions : h'.functions = h.functions) :
    h.Retains h' := by
  refine ⟨hunits, fun r hr => ?_⟩
  unfold Heap.function
  rw [hfunctions]
  exact ⟨hr, rfl, rfl⟩

theorem refl (h : Heap) : h.Retains h := of_eq rfl rfl

theorem trans (hfirst : h.Retains h') (hsecond : h'.Retains h'') : h.Retains h'' := by
  refine ⟨hsecond.units.trans hfirst.units, fun r hr => ?_⟩
  obtain ⟨hr', hunit, hindex⟩ := hfirst.functions r hr
  obtain ⟨hr'', hunit', hindex'⟩ := hsecond.functions r hr'
  exact ⟨hr'', hunit'.trans hunit, hindex'.trans hindex⟩

/-- A new closure comes behind the others. -/
theorem add (h : Heap) (closure : Closure) :
    h.Retains { h with functions := (h.functions.add closure).2 } := by
  refine ⟨rfl, fun r hr => ?_⟩
  have hsame : (h.functions.add closure).2.get r = h.functions.get r :=
    h.functions.get_add_of_holds closure hr
  unfold Heap.function
  rw [hsame]
  exact ⟨Nat.lt_of_lt_of_le hr (by rw [Store.size_add]; exact Nat.le_succ _), rfl, rfl⟩

theorem unit (hretains : h.Retains h') (u : Ref .unit) : h'.unit u = h.unit u := by
  unfold Heap.unit
  rw [hretains.units]

theorem prototype (hretains : h.Retains h') {r : Ref .function} (hr : h.functions.Holds r) :
    h'.prototype r = h.prototype r := by
  obtain ⟨-, hunit, hindex⟩ := hretains.functions r hr
  unfold Heap.prototype
  dsimp only
  rw [hretains.unit, hunit, hindex]

end Heap.Retains

theorem Heap.Move.retains {h h' : Heap} (move : h.Move h') : h.Retains h' := by
  cases move with
  | function made =>
    obtain rfl := h.newFunction_eq made
    exact .add h _
  | bind r context =>
    refine ⟨rfl,
      fun q hq => ⟨by simpa [Heap.bind, Heap.modifyFunction, Store.Holds] using hq, ?_⟩⟩
    show ((h.functions.modify r fun f => { f with parent := some context }).get q).unit
      = (h.functions.get q).unit ∧ ((h.functions.modify r fun f =>
        { f with parent := some context }).get q).index = (h.functions.get q).index
    rcases h.functions.get_modify_cases (fun f => { f with parent := some context }) q r
      with heq | heq
    · rw [heq]
      exact ⟨rfl, rfl⟩
    · rw [heq]
      exact ⟨rfl, rfl⟩
  | declare c names =>
    rw [h.declareVariables_eq]
    exact .of_eq rfl rfl
  | read c name =>
    rw [h.readVariable_eq]
    exact .of_eq rfl rfl
  | write c name value =>
    rw [h.writeVariable_eq]
    exact .of_eq rfl rfl
  | _ => exact .of_eq rfl rfl

/-- Any number of changes of the heap. -/
abbrev Heap.Moves : Heap → Heap → Prop :=
  Relation.ReflTransGen Heap.Move

theorem Heap.Moves.retains {h h' : Heap} (moves : h.Moves h') : h.Retains h' := by
  induction moves with
  | refl => exact .refl _
  | tail _ move ih => exact ih.trans move.retains

namespace Machine

variable {host : Host σ} {M N : Machine σ}

/-- What moves do to the heap. -/
theorem Moves.heap (moves : M.Moves host N) : M.heap.Moves N.heap := by
  induction moves with
  | refl => exact .refl
  | tail _ move ih =>
    cases move with
    | heap move => exact ih.tail move
    | _ => exact ih

theorem Moves.retains (moves : M.Moves host N) : M.heap.Retains N.heap :=
  moves.heap.retains

theorem Strides.heap (strides : M.Strides host N) : M.heap.Moves N.heap := by
  cases strides with
  | moves moves => exact moves.heap
  | called moves busy slot => exact moves.heap

end Machine

/-- **What a step does to the heap.** -/
theorem Exec.step_heap (host : Host σ) (M : Machine σ) :
    M.heap.Moves (last (step host M)).heap := by
  cases hstep : step host M with
  | ok e N =>
    cases (step_paces host M).1 hstep with
    | goes strides => exact strides.heap
    | returns strides frame values => exact strides.heap
  | error e N =>
    obtain ⟨L, strides, hheap, -⟩ := (step_paces host M).2 hstep
    show M.heap.Moves N.heap
    rw [hheap]
    exact strides.heap

/-- No step changes code. -/
theorem Exec.step_retains (host : Host σ) (M : Machine σ) :
    M.heap.Retains (last (step host M)).heap :=
  (step_heap host M).retains

/-! ### Frames -/

/-- **A frame that stands at boundaries** of some code, and is in the middle of no jump. -/
structure Frame.Stands (code : Bytes) (f : Frame) : Prop where
  ip : Boundary code f.ip
  nextIp : Boundary code f.nextIp
  pending : f.progress.finished = false → ∀ op, f.progress.op = some op → op.jumps = false

/-- A frame that stands at boundaries of its code, if it has any. -/
def Frame.OnTrack (h : Heap) (f : Frame) : Prop :=
  ∀ r c, f.activity = .bytecode r c → f.Stands (h.prototype r).code

/-- The current instruction of a frame is no jump. -/
def Frame.Calm (f : Frame) : Prop :=
  ∀ r c, f.activity = .bytecode r c → ∀ op, f.progress.op = some op → op.jumps = false

def Stacks.OnTrack (h : Heap) (s : Stacks) : Prop :=
  ∀ f ∈ s.frames.toList, f.OnTrack h

theorem Frame.Starts.onTrack {f : Frame} (hf : f.Starts) (h : Heap) : f.OnTrack h := by
  intro r c _
  refine ⟨hf.ip ▸ .start, hf.nextIp ▸ .start, fun hpending => ?_⟩
  rw [hf.progress] at hpending
  cases hpending

theorem Frame.Starts.calm {f : Frame} (hf : f.Starts) : f.Calm := by
  intro r c _ op hop
  rw [hf.progress] at hop
  cases hop

/-- Closures that are there keep their frames on track. -/
theorem Stacks.OnTrack.retains {h h' : Heap} {s : Stacks} (hs : s.OnTrack h)
    (hamong : s.Among h.Runnable) (hretains : h.Retains h') : s.OnTrack h' := by
  intro f hf r c hactivity
  have hr := hamong.frames f hf
  unfold Frame.Among at hr
  rw [hactivity] at hr
  rw [hretains.prototype hr.1]
  exact hs f hf r c hactivity

/-- A frame at boundaries on top of frames on track. -/
theorem Stacks.onTrack_of_top {h : Heap} {s : Stacks} {below : List Frame} {f : Frame}
    {r : Ref .function} {c : Ref .context} (hframes : s.frames.toList = below ++ [f])
    (hbelow : ∀ g ∈ below, g.OnTrack h) (hactivity : f.activity = .bytecode r c)
    (hf : f.Stands (h.prototype r).code) : s.OnTrack h := by
  intro g hg
  rw [hframes, List.mem_append, List.mem_singleton] at hg
  rcases hg with hold | rfl
  · exact hbelow g hold
  · intro r' c' hactivity'
    cases hactivity.symm.trans hactivity'
    exact hf

namespace Stacks

/-- Frames on track, of which the last one is in no jump. -/
structure Steady (h : Heap) (frames : Stack Frame) : Prop where
  track : ∀ f ∈ frames.toList, f.OnTrack h
  calm : ∀ f, frames.last? = some f → f.Calm

/-- **A hop keeps frames on track.** -/
theorem Hop.steady {h : Heap} {frames frames' : Stack Frame} (hop : Hop frames frames')
    (hsteady : Steady h frames) : Steady h frames' := by
  have hmodified {φ : Frame → Frame} (htrack : ∀ f, f.OnTrack h → f.Calm →
    (φ f).OnTrack h)
      (hcalm : ∀ f, f.Calm → (φ f).Calm) : Steady h (frames.modifyLast φ) := by
    constructor
    · intro g hg
      rcases Stack.mem_modifyLast hg with hold | ⟨f, hf, rfl⟩
      · exact hsteady.track g hold
      · have hmem : f ∈ frames.toList := by
          rw [Stack.last?_eq_getLast?] at hf
          exact List.mem_of_getLast? hf
        exact htrack f (hsteady.track f hmem) (hsteady.calm f hf)
    · intro g hg
      rw [Stack.last?_modifyLast] at hg
      obtain ⟨f, hf, rfl⟩ := Option.map_eq_some_iff.mp hg
      exact hcalm f (hsteady.calm f hf)
  cases hop with
  | again phase =>
    refine hmodified (fun f htrack hcalm r c hactivity => ?_) fun f hcalm => hcalm
    obtain ⟨hip, hnext, -⟩ := htrack r c hactivity
    exact ⟨hip, hnext, fun _ => hcalm r c hactivity⟩
  | records history =>
    have hsame (f : Frame) : Exec.recordStep f history = f ∨
        ∀ r c, (Exec.recordStep f history).activity ≠ .bytecode r c := by
      unfold Exec.recordStep
      split
      · exact .inr nofun
      · exact .inl rfl
    refine hmodified (fun f htrack _ => ?_) fun f hcalm => ?_
    · rcases hsame f with heq | hasync
      · rwa [heq]
      · exact fun r c hactivity => absurd hactivity (hasync r c)
    · rcases hsame f with heq | hasync
      · rwa [heq]
      · exact fun r c hactivity => absurd hactivity (hasync r c)
  | @enters f starts =>
    constructor
    · intro g hg
      rw [Stack.toList_push, List.mem_append, List.mem_singleton] at hg
      rcases hg with hold | rfl
      · exact hsteady.track g hold
      · exact starts.onTrack h
    · intro g hg
      rw [Stack.last?_eq_getLast?, Stack.toList_push, List.getLast?_concat] at hg
      cases hg
      exact starts.calm

theorem Hops.steady {h : Heap} {frames frames' : Stack Frame} (hops : Hops frames frames')
    (hsteady : Steady h frames) : Steady h frames' := by
  induction hops with
  | refl => exact hsteady
  | tail _ hop ih => exact hop.steady ih

end Stacks

/-! ### Fetching -/

/-- An immediate that is written in the code is not on the stack. -/
theorem Instruction.onStack_of_immediate {code : Bytes} {ip : Nat} {ins : Instruction} {op : Op}
    (hdecode : decode code ip = .ok ins) (hop : ins.op = some op)
    (himm : op.immediate ≠ .onStack) : ins.onStack = false := by
  unfold decode at hdecode
  split at hdecode
  · split at hdecode
    · cases hdecode
    · cases hdecode
      have hop' : Op.ofByte? code[ip] = some op := hop
      simp only [shapeOfByte, hop', decide_eq_false_iff_not]
      exact himm
  · split at hdecode
    · cases hdecode
      rfl
    · cases hdecode

/-- What may jump has its target in its code. -/
theorem Instruction.onStack_of_jumps {code : Bytes} {ip : Nat} {ins : Instruction} {op : Op}
    (hdecode : decode code ip = .ok ins) (hop : ins.op = some op) (hjumps : op.jumps) :
    ins.onStack = false := by
  refine onStack_of_immediate hdecode hop ?_
  cases op with
  | branch c w => cases w <;> nofun
  | guarded o =>
    cases o with
    | enter w => cases w <;> nofun
    | _ => cases hjumps
  | _ => cases hjumps

namespace Exec

variable {M : Machine σ} {below : List Frame} {f : Frame} {r : Ref .function} {code : Bytes}

/-- **What fetching comes to** for a frame at a boundary: an instruction, with the distance to a
boundary if it may jump, or a fault that is not about code. -/
structure Fetched (code : Bytes) (below : List Frame) (f : Frame) (M : Machine σ)
    (result : EStateM.Result Stop (Machine σ) (Op × Int64 × Nat)) : Prop where
  heap : (last result).heap = M.heap
  frame : ∃ g, (last result).memory.frames.toList = below ++ [g] ∧ g.activity = f.activity ∧
    g.Stands code ∧ ∀ op imm phase N, result = .ok (op, imm, phase) N →
      (op.jumps = false → ∀ o, g.progress.op = some o → o.jumps = false) ∧
      (op.jumps → ∃ target, Boundary code target ∧
        Int64.ofNat g.nextIp + imm = Int64.ofNat target)
  faults : ∀ e N, result = .error (.fault e) N → e.ofCode = false

/-- The current frame is changed, and nothing else. -/
theorem modifyFrame_state (hframes : M.memory.frames.toList = below ++ [f]) (φ : Frame → Frame) :
    ∃ N, (modifyFrame φ : Exec σ Unit) M = .ok () N ∧ N.heap = M.heap ∧
      N.state = M.state ∧
      N.memory.frames.toList = below ++ [φ f] := by
  have hf : M.memory.frames.last? = some f := Stack.last?_of_toList hframes
  exact ⟨_, modifyFrame_apply hf φ, rfl, rfl, Stack.toList_modifyLast hframes φ⟩

theorem modifyFrame_track (hframes : M.memory.frames.toList = below ++ [f]) (φ : Frame → Frame) :
    ∃ N, (modifyFrame φ : Exec σ Unit) M = .ok () N ∧ N.heap = M.heap ∧
      N.memory.frames.toList = below ++ [φ f] := by
  obtain ⟨N, hmodify, hheap, -, hN⟩ := modifyFrame_state hframes φ
  exact ⟨N, hmodify, hheap, hN⟩

theorem frame_track (hframes : M.memory.frames.toList = below ++ [f]) :
    (frame : Exec σ Frame) M = .ok f M := by
  exact frame_apply (Stack.last?_of_toList hframes)

/-- With the immediate known, the frame is in the instruction and done with it. -/
theorem fetched_of_start (hwell : WellFormed code) (hnext : Boundary code f.nextIp)
    {ins : Instruction}
    {op : Op} (hdecode : decode code f.nextIp = .ok ins) (hop : ins.op = some op) {imm : Int64}
    (himm : op.jumps → imm = ins.imm) {N : Machine σ} (hheap : N.heap = M.heap)
    (hN : N.memory.frames.toList = below ++ [{ f with ip := f.nextIp, nextIp := ins.next }]) :
    Fetched code below f M ((do
      modifyFrame fun f => { f with progress := (Progress.start op imm).complete }
      return (op, imm, 0) : Exec σ (Op × Int64 × Nat)) N) := by
  obtain ⟨L, hprogress, hheapL, hL⟩ :=
    modifyFrame_track hN fun f => { f with progress := (Progress.start op imm).complete }
  have hbehind := hnext.decode_next hdecode
  rw [bind_of_ok hprogress]
  refine ⟨hheapL.trans hheap, ⟨_, hL, rfl, ⟨hnext, hbehind, fun hunfinished => ?_⟩, ?_⟩,
    fun _ _ h => by cases h⟩
  · simp [Progress.complete, Progress.finished] at hunfinished
  · intro op' imm' phase N' h
    cases h
    refine ⟨fun hcalm o ho => ?_, fun hjumps => ?_⟩
    · cases ho
      exact hcalm
    · rw [himm hjumps]
      exact hwell.lands f.nextIp ins op hnext hdecode hop hjumps

theorem fetchNext_fetched (hframes : M.memory.frames.toList = below ++ [f])
    (hcode : (M.heap.prototype r).code = code) (hwell : WellFormed code)
    (hnext : Boundary code f.nextIp)
    (hpending : f.progress.finished = false → ∀ op, f.progress.op = some op →
      op.jumps = false) :
    Fetched code below f M (fetchNext r M) := by
  obtain ⟨ins, op, hdecode, hop⟩ := hwell.decodes f.nextIp hnext
  obtain ⟨M₁, hip, hheap₁, hframes₁⟩ :=
    modifyFrame_track hframes fun f => { f with ip := f.nextIp }
  obtain ⟨M₂, hbeyond, hheap₂, hframes₂⟩ :=
    modifyFrame_track hframes₁ fun f => { f with nextIp := ins.next }
  have hdecoded :
      (ofFault (decode (M₁.heap.prototype r).code f.nextIp) : Exec σ Instruction) M₁
        = .ok ins M₁ := by
    rw [hheap₁, hcode, hdecode]
    rfl
  let fetched : Frame := { f with ip := f.nextIp, nextIp := ins.next }
  have hfetched : fetched.Stands code := ⟨hnext, hnext.decode_next hdecode, hpending⟩
  rw [fetchNext, bind_of_ok hip, bind_of_ok (frame_track hframes₁), bind_of_ok (heap_apply M₁),
    bind_of_ok hdecoded, bind_of_ok hbeyond, hop]
  dsimp only
  split
  · next honStack =>
    have hjumps : op.jumps = false := by
      by_contra hjumps
      rw [onStack_of_jumps hdecode hop (by simpa using hjumps)] at honStack
      cases honStack
    let popped : Exec σ Int64 := do ofFault ((← heap).integer (← pop))
    let K : Machine.Keeping σ :=
      { holds := fun N => N.heap = M.heap ∧ N.memory.frames.toList = below ++ [fetched]
        values := fun _ hN => hN }
    have hkeeps : Upholds K popped :=
      Upholds.heap.bind fun h => Upholds.pop.bind fun v => .ofFault _
    have hstraight : Straight popped :=
      Straight.heap.bind fun h => Straight.pop.bind fun v => .ofFault (Fault.spared_integer h v)
    have hlast := hkeeps M₂ ⟨hheap₂.trans hheap₁, hframes₂⟩
    have hfaults := hstraight.faults M₂
    suffices hpopped : Fetched code below f M ((popped >>= fun imm => do
        modifyFrame fun f => { f with progress := (Progress.start op imm).complete }
        return (op, imm, 0)) M₂) by
      simpa only [popped, bind_assoc] using hpopped
    rw [bind_apply]
    generalize popped M₂ = result at hlast hfaults
    cases result with
    | error e N =>
      refine ⟨hlast.1, ⟨_, hlast.2, rfl, hfetched, fun _ _ _ _ h => by cases h⟩,
        fun f N' h => ?_⟩
      cases h
      exact hfaults f N rfl
    | ok imm N =>
      exact fetched_of_start hwell hnext hdecode hop (fun h => absurd h (by simp [hjumps])) hlast.1
        hlast.2
  · exact fetched_of_start hwell hnext hdecode hop (fun _ => rfl)
      (hheap₂.trans hheap₁) hframes₂

/-- **Every fetch** of a frame on track. -/
theorem fetch_fetched (hframes : M.memory.frames.toList = below ++ [f])
    (hcode : (M.heap.prototype r).code = code) (hwell : WellFormed code) (hf : f.Stands code) :
    Fetched code below f M (fetch r M) := by
  rw [fetch, bind_of_ok (frame_track hframes)]
  split
  · exact fetchNext_fetched hframes hcode hwell hf.nextIp hf.pending
  · next hunfinished =>
    obtain ⟨N, hadvance, hheap, hN⟩ :=
      modifyFrame_track hframes fun f => { f with progress := f.progress.advance }
    have hold := hf.pending (by simpa using hunfinished)
    rw [bind_of_ok hadvance]
    cases hop : f.progress.op with
    | some op =>
      have hcalm := hold op hop
      have hadvanced : Frame.Stands code { f with progress := f.progress.advance } :=
        ⟨hf.ip, hf.nextIp, fun _ => hold⟩
      refine ⟨hheap, ⟨_, hN, rfl, hadvanced, fun op' imm phase N' h => ?_⟩,
        fun _ _ h => by cases h⟩
      cases h
      exact ⟨fun _ => hold, fun hjumps => absurd hjumps (by simp [hcalm])⟩
    | none =>
      have hnext : Fetched code below { f with progress := f.progress.advance } N (fetchNext r N) :=
        fetchNext_fetched hN (hheap ▸ hcode) hwell hf.nextIp fun _ => hold
      exact ⟨hnext.heap.trans hheap, hnext.frame, hnext.faults⟩

/-! ### Jumping -/

/-- **A jump to a boundary** is possible. -/
theorem jumpTarget_lands {g : Frame} {imm : Int64} {target : Nat}
    (hframes : M.memory.frames.toList = below ++ [g])
    (hcode : (M.heap.prototype r).code = code) (hwell : WellFormed code)
    (htarget : Boundary code target) (hadd : Int64.ofNat g.nextIp + imm = Int64.ofNat target) :
    (jumpTarget r imm : Exec σ Nat) M = .ok target M := by
  have hle := hwell.boundary_le htarget
  have hshort := hwell.short
  have hint : (Int64.ofNat target).toInt = target := Int64.toInt_ofNat_of_lt (by omega)
  have hnat : (Int64.ofNat target).toNatClampNeg = target := by
    show (Int64.ofNat target).toInt.toNat = target
    rw [hint]
    rfl
  have hinside :
      ¬ (Int64.ofNat target < 0 ∨ code.size < (Int64.ofNat target).toNatClampNeg) := by
    rw [hnat, Int64.lt_iff_toInt_lt, hint]
    simp only [Int64.toInt_zero]
    omega
  rw [jumpTarget, bind_of_ok (heap_apply M), bind_of_ok (frame_track hframes), hcode, hadd,
    if_neg hinside, hnat]
  rfl

/-- A condition only looks at the operands. -/
theorem condition_track (c : Condition) (hframes : M.memory.frames.toList = below) :
    (last (condition c M)).heap = M.heap ∧ (last (condition c M)).memory.frames.toList
      = below := by
  let K : Machine.Keeping σ :=
    { holds := fun N => N.heap = M.heap ∧ N.memory.frames.toList = below
      values := fun _ hN => hN }
  have hkeeps : Upholds K (condition c) := by
    cases c with
    | always => exact .pure true
    | _ => exact Upholds.pop.bind fun _ => .pure _
  exact hkeeps M ⟨rfl, hframes⟩

/-- The current frame is the same one still, and stands at boundaries; and no fault is about
code. -/
structure Stands {α : Type} (code : Bytes) (below : List Frame) (f : Frame)
    (result : EStateM.Result Stop (Machine σ) α) : Prop where
  frame : ∃ g, (last result).memory.frames.toList = below ++ [g] ∧ g.activity = f.activity ∧
    g.Stands code
  faults : ∀ e N, result = .error (.fault e) N → e.ofCode = false

section

variable {imm : Int64} {target : Nat} (hframes : M.memory.frames.toList = below ++ [f])
  (hcode : (M.heap.prototype r).code = code) (hwell : WellFormed code) (hf : f.Stands code)
  (htarget : Boundary code target) (hadd : Int64.ofNat f.nextIp + imm = Int64.ofNat target)
include hframes hcode hwell hf htarget hadd

/-- **A branch**, taken or not. -/
theorem branch_stands (c : Condition) : Stands code below f (branch r c imm M) := by
  have hcondition := condition_track c hframes
  have hfaults := (Straight.condition c).faults M
  rw [branch, bind_apply]
  generalize condition c M = result at hcondition hfaults
  cases result with
  | error e N =>
    refine ⟨⟨f, hcondition.2, rfl, hf⟩, fun e' N' h => ?_⟩
    cases h
    exact hfaults e' N rfl
  | ok taken N =>
    have hheap : N.heap = M.heap := hcondition.1
    have hN : N.memory.frames.toList = below ++ [f] := hcondition.2
    have hcodeN : (N.heap.prototype r).code = code := by
      rw [← hcode]
      exact congrArg (fun h : Heap => (h.prototype r).code) hheap
    cases taken with
    | false => exact ⟨⟨f, hN, rfl, hf⟩, fun _ _ h => by cases h⟩
    | true =>
      obtain ⟨L, hmodified, -, hL⟩ := modifyFrame_track hN fun f => { f with nextIp := target }
      dsimp only
      rw [if_pos rfl, bind_of_ok (jumpTarget_lands hN hcodeN hwell htarget hadd), hmodified]
      exact ⟨⟨_, hL, rfl, hf.ip, htarget, hf.pending⟩, fun _ _ h => by cases h⟩

/-- A try mark is set. -/
theorem try_stands (w : Width) : Stands code below f (tryOperator r (.enter w) imm M) := by
  rw [tryOperator, bind_of_ok (jumpTarget_lands hframes hcode hwell htarget hadd)]
  exact ⟨⟨f, hframes, rfl, hf⟩, fun _ _ h => by cases h⟩

/-- **What jumps keeps its frame at boundaries.** -/
theorem jump_stands {host : Host σ} {context : Ref .context} {op : Op} {phase : Nat}
    (hjumps : op.jumps) : Stands code below f (perform host r context op imm phase M) := by
  have hperform {x : Exec σ Unit} (hexecute : execute host r context op imm phase
        = (x >>= fun _ => pure none : Exec σ (Option Exit)))
      (hx : Stands code below f (x M)) :
      Stands code below f (perform host r context op imm phase M) := by
    have hop : op ≠ .control .ret := by
      rintro rfl
      cases hjumps
    rw [perform, if_neg hop, hexecute, bind_assoc, bind_apply]
    generalize x M = result at hx
    cases result with
    | error e N =>
      refine ⟨hx.frame, fun e' N' h => ?_⟩
      cases h
      exact hx.faults e' N rfl
    | ok u N => exact ⟨hx.frame, fun _ _ h => by cases h⟩
  cases op with
  | branch c w => exact hperform rfl (branch_stands hframes hcode hwell hf htarget hadd c)
  | guarded o =>
    cases o with
    | enter w => exact hperform rfl (try_stands hframes hcode hwell hf htarget hadd w)
    | _ => cases hjumps
  | _ => cases hjumps

end

end Exec

/-! ### Steps -/

/-- **A host that does not touch the code**: no fault that a function answers is about code, no
closure is made up, and a system call leaves the frames at boundaries. -/
structure Host.Aligned (host : Host σ) : Prop where
  fair : host.Fair
  honest : host.Honest Prototype.Runnable fun _ _ => True
  track : ∀ {i call}, host.syscall i = some call → ∀ {h memory} {state : σ},
    memory.OnTrack h → (call h memory state).memory.OnTrack h

/-- A coroutine has its frames on track, and none at first. -/
structure Coroutine.Tracked (h : Heap) (c : Coroutine) : Prop where
  track : c.memory.OnTrack h
  fresh : c.state = .initial → c.memory.frames.toList = []

theorem Coroutine.Tracked.congr {h h' : Heap} {c : Coroutine} (hc : c.Tracked h)
    (hsame : ∀ r, h'.prototype r = h.prototype r) : c.Tracked h' := by
  refine ⟨fun f hf r context hactivity => ?_, hc.fresh⟩
  rw [hsame]
  exact hc.track f hf r context hactivity

/-- **A heap on track**: all closures that are referred to can be run, and the coroutines have their
frames on track. -/
structure Heap.Tracked (h : Heap) : Prop where
  closed : h.Closed Prototype.Runnable
  coroutines : h.All fun c => c.Tracked h

/-- **A machine on track.** -/
structure Machine.Tracked (M : Machine σ) : Prop where
  heap : M.heap.Tracked
  among : M.memory.Among M.heap.Runnable
  track : M.memory.OnTrack M.heap

/-- Nothing is asked of the state of the host. -/
theorem Machine.Tracked.closed {M : Machine σ} (hM : M.Tracked) :
    M.Closed Prototype.Runnable fun _ _ => True :=
  ⟨hM.heap.closed, hM.among, trivial⟩

/-- All code of a runnable closure's unit can be run, also where a prototype is missing. -/
theorem Heap.wellFormed_of_runnable {h : Heap} {r : Ref .function} (hr : h.Runnable r) :
    WellFormed (h.prototype r).code := by
  unfold Heap.prototype
  dsimp only
  rw [Array.getD_eq_getD_getElem?]
  cases hp : (h.unit (h.function r).unit).prototypes[(h.function r).index]? with
  | none => exact wellFormed_empty
  | some p => exact hr.2.2 p (Array.mem_of_getElem? hp)

/-- What leaves closures and coroutines as they are keeps a heap on track. -/
theorem Heap.Tracked.retains {h h' : Heap} (hh : h.Tracked) (hretains : h.Retains h')
    (hgrows : h.Grows h') (hclosed : h'.Closed Prototype.Runnable) : h'.Tracked := by
  refine ⟨hclosed, Heap.All.grows (fun r hr => ⟨?_, (hh.coroutines r hr).fresh⟩) hgrows ?_⟩
  · exact (hh.coroutines r hr).track.retains (hh.closed.coroutines r).memory hretains
  · exact fun _ _ => ⟨fun _ hf => absurd hf List.not_mem_nil, fun _ => rfl⟩

namespace Exec

variable {host : Host σ} {M : Machine σ}

/-- The frames are on track, and no fault is about code. -/
structure Tracks {α : Type} (result : EStateM.Result Stop (Machine σ) α) : Prop where
  track : (last result).memory.OnTrack (last result).heap
  faults : ∀ f N, result = .error (.fault f) N → f.ofCode = false

/-- What goes straight on from a calm frame. -/
theorem Straight.tracks {α : Type} {x : Exec σ α} (hx : Straight x)
    (hsteady : Stacks.Steady (last (x M)).heap M.memory.frames) : Tracks (x M) :=
  ⟨((hx.frames M).steady hsteady).track, hx.faults M⟩

/-- A system call of an aligned host. -/
theorem syscall_tracks (hhost : host.Aligned) (i : Fin 8) (htrack : M.memory.OnTrack M.heap) :
    Tracks (syscall host i M) ∧ (last (syscall host i M)).heap = M.heap := by
  have hlast := last_syscall host i M
  refine ⟨⟨?_, (Smooth.syscall host i).faultless M⟩, ?_⟩
  all_goals
    rw [hlast]
    cases hslot : host.syscall i with
    | none => first | exact htrack | rfl
    | some call => first | exact hhost.track hslot htrack | rfl

/-- An instruction that is no jump, of a frame that has just been fetched from. -/
theorem perform_tracks (hhost : host.Aligned) {r : Ref .function} {context : Ref .context} {op : Op}
    {imm : Int64} {phase : Nat} (hjumps : op.jumps = false) (hM : M.memory.OnTrack M.heap)
    (hsteady : Stacks.Steady (last (perform host r context op imm phase M)).heap M.memory.frames) :
    Tracks (perform host r context op imm phase M) := by
  by_cases hsyscall : ∃ i, op = .syscall i
  · obtain ⟨i, rfl⟩ := hsyscall
    have hperform : perform host r context (.syscall i) imm phase
        = (syscall host i >>= fun _ => pure .goes : Exec σ Outcome) := by
      rw [perform, if_neg (fun h => by cases h), execute]
      simp only [bind_assoc, pure_bind]
      rfl
    have hcall := (syscall_tracks hhost i hM).1
    rw [hperform, bind_apply]
    generalize syscall host i M = result at hcall
    cases result with
    | error e N =>
      refine ⟨hcall.track, fun f N' h => ?_⟩
      cases h
      exact hcall.faults f N rfl
    | ok u N => exact ⟨hcall.track, fun _ _ h => by cases h⟩
  · exact (Straight.perform hhost.fair r context op imm phase hjumps
      (not_exists.mp hsyscall)).tracks hsteady

theorem advance_bytecode {f : Frame} {r : Ref .function} {context : Ref .context}
    (hf : M.memory.frames.last? = some f) (hactivity : f.activity = .bytecode r context) :
    advance host M
      = (fetch r >>= fun next => perform host r context next.1 next.2.1 next.2.2) M := by
  rw [advance, bind_of_ok (get_apply M), hf]
  dsimp only
  rw [hactivity]

theorem advance_async {f : Frame} {call : AsyncCall} (hf : M.memory.frames.last? = some f)
    (hactivity : f.activity = .async call) : advance host M = advanceAsync host f call M := by
  rw [advance, bind_of_ok (get_apply M), hf]
  dsimp only
  rw [hactivity]

/-- **An instruction that has just been fetched.** -/
theorem perform_fetched (hhost : host.Aligned) (hM : M.Tracked) {below : List Frame} {f : Frame}
    {r : Ref .function} {context : Ref .context} {op : Op} {imm : Int64} {phase : Nat}
    (hframes : M.memory.frames.toList = below ++ [f]) (hactivity : f.activity = .bytecode r context)
    (hcalm : op.jumps = false → ∀ o, f.progress.op = some o → o.jumps = false)
    (htarget : op.jumps → ∃ target, Boundary (M.heap.prototype r).code target ∧
      Int64.ofNat f.nextIp + imm = Int64.ofNat target) :
    Tracks (perform host r context op imm phase M) := by
  have hbusy : M.Busy := by simp [Machine.Busy, hframes]
  have hretains : M.heap.Retains (last (perform host r context op imm phase M)).heap :=
    (strides_perform hbusy r context op imm phase).heap.retains
  have htrack := hM.track.retains hM.among hretains
  have hmem : f ∈ M.memory.frames.toList := by simp [hframes]
  have hr : M.heap.Runnable r := by
    have hamong := hM.among.frames f hmem
    unfold Frame.Among at hamong
    rwa [hactivity] at hamong
  cases hjumps : op.jumps with
  | true =>
    obtain ⟨target, hboundary, hadd⟩ := htarget hjumps
    have hjump : Stands (M.heap.prototype r).code below f (perform host r context op imm phase M) :=
      jump_stands hframes rfl (Heap.wellFormed_of_runnable hr) (hM.track f hmem r context hactivity)
        hboundary hadd hjumps
    obtain ⟨g, hN, hg, hstands⟩ := hjump.frame
    rw [← hretains.prototype hr.1] at hstands
    refine ⟨Stacks.onTrack_of_top hN (fun g' hg' => ?_) (hg.trans hactivity) hstands,
      hjump.faults⟩
    exact htrack g' (by simp [hframes, hg'])
  | false =>
    refine perform_tracks hhost hjumps hM.track ⟨htrack, fun g hg r' c' _ => ?_⟩
    rw [Stack.last?_of_toList hframes] at hg
    cases hg
    exact hcalm hjumps

/-- **Every step**, with a return still to be made. -/
theorem advance_tracks (hhost : host.Aligned) (hM : M.Tracked) : Tracks (advance host M) := by
  have hclosed := hM.closed
  cases hf : M.memory.frames.last? with
  | none =>
    have hidle : ¬ M.Busy := by
      rw [Stack.last?_eq_getLast?, List.getLast?_eq_none_iff] at hf
      exact fun hbusy => hbusy hf
    rw [advance_idle hidle]
    exact ⟨hM.track, fun _ _ h => by cases h⟩
  | some f =>
    cases hactivity : f.activity with
    | async call =>
      have htrack := hM.track.retains hM.among (strides_advance host M).heap.retains
      rw [advance_async hf hactivity] at htrack ⊢
      refine (Straight.advanceAsync hhost.fair f call).tracks ⟨htrack, fun g hg r c hcode => ?_⟩
      cases hf.symm.trans hg
      cases hactivity.symm.trans hcode
    | bytecode r context =>
      obtain ⟨below, hframes⟩ : ∃ below, M.memory.frames.toList = below ++ [f] := by
        rw [Stack.last?_eq_getLast?] at hf
        exact ⟨_, (List.dropLast_append_getLast? f hf).symm⟩
      have hmem : f ∈ M.memory.frames.toList := by simp [hframes]
      have hr : M.heap.Runnable r := by
        have hamong := hM.among.frames f hmem
        unfold Frame.Among at hamong
        rwa [hactivity] at hamong
      have hfetched :=
        fetch_fetched hframes rfl (Heap.wellFormed_of_runnable hr)
          (hM.track f hmem r context hactivity)
      have hwhole := (Passes.fetch r M hclosed).1
      rw [advance_bytecode hf hactivity, bind_apply]
      obtain ⟨g, hN, hg, hstands, hnext⟩ := hfetched.frame
      have hheap := hfetched.heap
      have htracked : (last (fetch r M)).Tracked := by
        refine ⟨hheap ▸ hM.heap, hheap ▸ hwhole.memory, ?_⟩
        rw [hheap]
        refine Stacks.onTrack_of_top hN (fun f' hf' => ?_) (hg.trans hactivity) hstands
        exact hM.track f' (by simp [hframes, hf'])
      cases hresult : fetch r M with
      | error e N =>
        rw [hresult] at htracked hfetched
        refine ⟨htracked.track, fun f N' h => ?_⟩
        cases h
        exact hfetched.faults f N rfl
      | ok next N =>
        obtain ⟨op, imm, phase⟩ := next
        rw [hresult] at htracked hheap hN
        have hheap' : N.heap = M.heap := hheap
        obtain ⟨hcalm, htarget⟩ := hnext op imm phase N hresult
        rw [← hheap'] at htarget
        exact perform_fetched hhost htracked hN (hg.trans hactivity) hcalm htarget

/-- A return leaves the other frames on track. -/
theorem leave_tracks (host : Host σ) (results : List Value) (htrack : M.memory.OnTrack M.heap) :
    Tracks (leave host results M) := by
  let K : Machine.Keeping σ :=
    { holds := fun N => N.memory.OnTrack N.heap
      values := fun _ hN => hN }
  have hkeeps : Upholds K (leave host results) := by
    refine Upholds.frame.bind fun f => Upholds.bind (.change fun N hN => ?_) fun _ => ?_
    · intro g hg
      have hlist : g ∈ N.memory.frames.toList.dropLast :=
        Stack.toList_dropLast N.memory.frames ▸ hg
      exact hN g (List.dropLast_subset _ hlist)
    · refine Upholds.bind (.change fun N hN => hN) fun _ =>
        (Upholds.pushAll results).bind fun _ => ?_
      refine (Upholds.shape _ _ _).bind fun _ => ?_
      exact Upholds.bind (.change fun N hN => hN) fun _ => .change fun N hN => hN
  exact ⟨hkeeps M htrack, (Smooth.leave host results).faultless M⟩

/-- **Every step** leaves all frames on track and has no fault about code. -/
theorem step_tracks (hhost : host.Aligned) (hM : M.Tracked) : Tracks (step host M) := by
  have hadvance := advance_tracks hhost hM
  rw [step_eq, bind_apply]
  cases hresult : advance host M with
  | error e N =>
    rw [hresult] at hadvance
    refine ⟨hadvance.track, fun f N' h => ?_⟩
    cases h
    exact hadvance.faults f N rfl
  | ok outcome N =>
    rw [hresult] at hadvance
    cases outcome with
    | goes => exact ⟨hadvance.track, fun _ _ h => by cases h⟩
    | exits e => exact ⟨hadvance.track, fun _ _ h => by cases h⟩
    | returns results =>
      have hleave : Tracks (leave host results N) := leave_tracks host results hadvance.track
      show Tracks ((leave host results >>= fun _ => pure none : Exec σ (Option Exit)) N)
      rw [bind_apply]
      generalize leave host results N = left at hleave
      cases left with
      | error e L =>
        refine ⟨hleave.track, fun f N' h => ?_⟩
        cases h
        exact hleave.faults f L rfl
      | ok u L => exact ⟨hleave.track, fun _ _ h => by cases h⟩

end Exec

/-- **Every step of a machine on track** leaves it on track. -/
theorem Machine.Tracked.step {host : Host σ} (hhost : host.Aligned) {M : Machine σ}
    (hM : M.Tracked) : (Exec.last (Exec.step host M)).Tracked := by
  have hclosed := (Exec.step_closed hhost.honest hM.closed).closed
  refine ⟨?_, hclosed.memory, (Exec.step_tracks hhost hM).track⟩
  exact hM.heap.retains (Exec.step_retains host M) (Exec.step_grows host M) hclosed.heap

end ScriptVm
