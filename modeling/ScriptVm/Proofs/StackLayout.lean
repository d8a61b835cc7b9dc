import ScriptVm.Proofs.Extents
import ScriptVm.Proofs.Scripts

/-!
# The layout of the stacks

The frames of a coroutine share its four stacks.  Every frame has a base on the value
stack, one on the delimiter stack and one on the try stack, and what lies above belongs
to it, up to the base of the next frame.  On the value stack a bytecode frame has its
arguments, its local variables and its operands; the next frame starts among the
operands.  An asynchronous call has arguments only, and what it calls takes all of them,
so the next frame starts where it starts itself.

That a coroutine is a tower of activations says most of this already; how many local
variables a frame has, where a frame on top of an asynchronous call starts, and where
try marks lead, is known from the extents of the frames.

Main statement: `stack_layout`.
-/

namespace ScriptVm

variable {σ α : Type} {host : Host σ}
  {own : Heap → σ → Prop}

/-! ### The layout -/

namespace Frame

/-- The least height of the value stack with a frame on top: its operands are above its local
variables, and an asynchronous call has nothing but its arguments. -/
def floor (f : Frame) : Nat :=
  match f.activity with
  | .bytecode _ _ => f.privateBase
  | .async _ => f.stackBase

/-- **A frame carries another one**, which starts among its operands, or where it starts itself if
it is an asynchronous call. -/
def Carries (f g : Frame) : Prop :=
  match f.activity with
  | .bytecode _ _ => f.privateBase ≤ g.stackBase
  | .async _ => g.stackBase = f.stackBase

/-- **All slots of a stack are as they have to be** for the frames that they belong to.  The slots
from the base of a frame on are its own, up to the base of the next frame; `P` gets the number of
the frame, the frame and the slot. -/
def EachOwned (base : Frame → Nat) (fs : List Frame) (slots : List α)
    (P : Nat → Frame → α → Prop) : Prop :=
  ∀ i f j slot, fs[i]? = some f → base f ≤ j →
    (∀ g, fs[i + 1]? = some g → j < base g) →
    slots[j]? = some slot → P i f slot

end Frame

/-- **The layout of the stacks of a coroutine**, whose frames are numbered from the lowest one
on. -/
structure Layer.LaidOut (h : Heap) (c : Layer) : Prop where
  /-- The bases do not decrease. -/
  ordered : c.frames.Pairwise fun f g =>
    f.stackBase ≤ g.stackBase ∧ f.delimiterBase ≤ g.delimiterBase ∧ f.tryBase ≤ g.tryBase
  /-- The stacks reach up to them. -/
  within : ∀ f ∈ c.frames, f.stackBase ≤ c.values.length ∧
    f.delimiterBase ≤ c.delimiters.length ∧ f.tryBase ≤ c.marks.length
  /-- Arguments and local variables follow one another, as many of these as the prototype has. -/
  bytecode : ∀ f ∈ c.frames, ∀ r context, f.activity = .bytecode r context →
    f.stackBase + f.argumentCount = f.localsBase ∧
    f.localsBase ≤ f.privateBase ∧ f.privateBase - f.localsBase = (h.prototype r).locals
  carries : c.frames.IsChain Frame.Carries
  height : ∀ f ∈ c.frames.getLast?, f.floor ≤ c.values.length
  /-- There is no delimiter and no try mark that belongs to no frame. -/
  lowest : ∀ f ∈ c.frames.head?, f.delimiterBase = 0 ∧ f.tryBase = 0
  empty : c.frames = [] → c.delimiters = [] ∧ c.marks = []
  /-- Only bytecode frames have delimiters, and have them above their local variables. -/
  delimiters : Frame.EachOwned Frame.delimiterBase c.frames c.delimiters fun _ f d =>
    (∃ r context, f.activity = .bytecode r context) ∧ f.privateBase ≤ d
  /-- Only bytecode frames have try marks; these lead into their code, to its end at most, and tell
  of the stacks as they were with that frame on top. -/
  marks : Frame.EachOwned Frame.tryBase c.frames c.marks fun i f m =>
    ∃ r context, f.activity = .bytecode r context ∧ m.callDepth = i + 1 ∧
      m.target ≤ (h.prototype r).code.size ∧ f.privateBase ≤ m.stackSize ∧
      f.delimiterBase ≤ m.delimiterDepth

/-! ### One more activation -/

/-- Another frame comes on top, with the slots above the others. -/
theorem Frame.EachOwned.concat {base : Frame → Nat} {fs : List Frame} {below own : List α}
    {P : Nat → Frame → α → Prop} (hbelow : EachOwned base fs below P)
    (within : ∀ f ∈ fs, base f ≤ below.length) {g : Frame} (hbase : base g = below.length)
    (hown : ∀ slot ∈ own, P fs.length g slot) :
    EachOwned base (fs ++ [g]) (below ++ own) P := by
  intro i f j slot hf hj hnext hslot
  rcases Nat.lt_or_ge i fs.length with hi | hi
  · rw [List.getElem?_append_left hi] at hf
    -- the slots of a frame below end at the next base, and that is not above the others
    have hlow : j < below.length := by
      rcases Nat.lt_or_ge (i + 1) fs.length with hi' | hi'
      · have hk : (fs ++ [g])[i + 1]? = some fs[i + 1] := by
          rw [List.getElem?_append_left hi', List.getElem?_eq_getElem hi']
        exact Nat.lt_of_lt_of_le (hnext _ hk) (within _ (List.getElem_mem hi'))
      · have hk : (fs ++ [g])[i + 1]? = some g := by
          rw [show i + 1 = fs.length by omega]
          exact List.getElem?_concat_length
        exact hbase ▸ hnext g hk
    rw [List.getElem?_append_left hlow] at hslot
    refine hbelow i f j slot hf hj (fun k hk => hnext k ?_) hslot
    obtain ⟨hi', -⟩ := List.getElem?_eq_some_iff.mp hk
    rwa [List.getElem?_append_left hi']
  · obtain rfl : i = fs.length := by
      obtain ⟨hlt, -⟩ := List.getElem?_eq_some_iff.mp hf
      rw [List.length_append, List.length_singleton] at hlt
      omega
    rw [List.getElem?_concat_length] at hf
    obtain rfl : g = f := Option.some.inj hf
    rw [List.getElem?_append_right (hbase ▸ hj)] at hslot
    exact hown slot (List.mem_of_getElem? hslot)

namespace Layer

/-- **An activation on top of a layer**, told of the frame `g` that it has there. -/
structure Upper (p a : Layer) (g : Frame) : Prop where
  frames : (p.pile a).frames = p.frames ++ [g]
  stackBase : g.stackBase = p.values.length
  delimiterBase : g.delimiterBase = p.delimiters.length
  tryBase : g.tryBase = p.marks.length
  floor : g.floor ≤ (p.pile a).values.length
  delimiters : ∀ d ∈ a.delimiters.map (p.values.length + ·),
    (∃ r context, g.activity = .bytecode r context) ∧ g.privateBase ≤ d
  marks : ∀ m ∈ a.marks.map p.liftMark, m.callDepth = p.frames.length + 1 ∧
    g.privateBase ≤ m.stackSize ∧ g.delimiterBase ≤ m.delimiterDepth

theorem Activation.upper {f : Frame} {a : Layer} (activation : Activation f a) (p : Layer) :
    ∃ g, Upper p a g := by
  cases activation with
  | @bytecode r context code laid runs =>
    obtain ⟨ip, nextIp, progress, hframes⟩ := runs.frames
    refine ⟨p.liftFrame { f with ip, nextIp, progress }, ?_, ?_, ?_, ?_, ?_, ?_, ?_⟩
    · rw [pile_frames, hframes, List.map_singleton]
    · simp [liftFrame, laid.stackBase]
    · simp [liftFrame, laid.delimiterBase]
    · simp [liftFrame, laid.tryBase]
    · have hoperands := runs.operands
      simp only [Frame.floor, liftFrame, code, pile_values, List.length_append]
      omega
    · intro d hd
      obtain ⟨k, hk, rfl⟩ := List.mem_map.mp hd
      exact ⟨⟨r, context, code⟩, Nat.add_le_add_left (runs.delimiters k hk) _⟩
    · intro m hm
      obtain ⟨k, hk, rfl⟩ := List.mem_map.mp hm
      obtain ⟨hdepth, hsize⟩ := runs.marks k hk
      refine ⟨?_, Nat.add_le_add_left hsize _, ?_⟩
      · simp [liftMark, hdepth]
      · simp [liftMark, liftFrame, laid.delimiterBase]
  | @async call steps laid waits =>
    obtain ⟨call', hframes⟩ := waits.frames
    refine ⟨p.liftFrame { f with activity := .async call' }, ?_, ?_, ?_, ?_, ?_, ?_, ?_⟩
    · rw [pile_frames, hframes, List.map_singleton]
    · simp [liftFrame, laid.stackBase]
    · simp [liftFrame, laid.delimiterBase]
    · simp [liftFrame, laid.tryBase]
    · simp [Frame.floor, liftFrame, laid.stackBase]
    · simp [waits.delimiters]
    · simp [waits.marks]

namespace LaidOut

variable {h : Heap} {p a c : Layer} {g : Frame}

theorem bare (values : List Value) : (Layer.bare values).LaidOut h where
  ordered := .nil
  within := List.forall_mem_nil _
  bytecode := List.forall_mem_nil _
  carries := .nil
  height _ hf := by cases hf
  lowest _ hf := by cases hf
  empty _ := ⟨rfl, rfl⟩
  delimiters _ _ _ _ _ _ _ hslot := by cases hslot
  marks _ _ _ _ _ _ _ hslot := by cases hslot

/-- One more activation. -/
theorem pile (hp : p.LaidOut h) (upper : Upper p a g) (measured : g.extent.Measured .unbounded h)
    (start : ∀ f ∈ p.frames.getLast?, f.extent.closure = none → g.stackBase = f.stackBase)
    (leads : ∀ m ∈ a.marks.map p.liftMark, g.extent.Leads h m) : (p.pile a).LaidOut h := by
  have hmem (f : Frame) (hf : f ∈ (p.pile a).frames) : f ∈ p.frames ∨ f = g := by
    rw [upper.frames] at hf
    simpa using hf
  constructor
  case ordered =>
    rw [upper.frames, List.pairwise_append]
    refine ⟨hp.ordered, List.pairwise_singleton _ _, fun f hf k hk => ?_⟩
    obtain rfl := List.mem_singleton.mp hk
    rw [upper.stackBase, upper.delimiterBase, upper.tryBase]
    exact hp.within f hf
  case within =>
    intro f hf
    rw [pile_values, pile_delimiters, pile_marks, List.length_append, List.length_append,
      List.length_append]
    rcases hmem f hf with hf | rfl
    · obtain ⟨hvalues, hdelimiters, hmarks⟩ := hp.within f hf
      omega
    · rw [upper.stackBase, upper.delimiterBase, upper.tryBase]
      omega
  case bytecode =>
    intro f hf r context hactivity
    rcases hmem f hf with hf | rfl
    · exact hp.bytecode f hf r context hactivity
    · obtain ⟨-, -, hroom⟩ := measured.locals r (Frame.closure_extent hactivity)
      have hlocals : f.privateBase = f.localsBase + (h.prototype r).locals :=
        Sizes.eq_add_of_add_eq_ok hroom
      exact ⟨measured.arguments, by omega, by omega⟩
  case carries =>
    rw [upper.frames, List.isChain_append]
    refine ⟨hp.carries, .singleton _, fun f hf k hk => ?_⟩
    obtain rfl : g = k := by simpa using hk
    have hheight := hp.height f hf
    unfold Frame.Carries Frame.floor at *
    cases hactivity : f.activity with
    | bytecode r context =>
      simp only [hactivity] at hheight
      exact upper.stackBase ▸ hheight
    | async call => exact start f hf (by simp [Frame.extent, Frame.code?, hactivity])
  case height =>
    intro f hf
    rw [upper.frames, List.getLast?_concat] at hf
    obtain rfl : g = f := Option.some.inj hf
    exact upper.floor
  case lowest =>
    intro f hf
    rw [upper.frames] at hf
    cases hframes : p.frames with
    | nil =>
      obtain rfl : g = f := by simpa [hframes] using hf
      obtain ⟨hdelimiters, hmarks⟩ := hp.empty hframes
      rw [upper.delimiterBase, upper.tryBase, hdelimiters, hmarks]
      exact ⟨rfl, rfl⟩
    | cons k ks =>
      rw [hframes] at hf
      exact hp.lowest f (hframes ▸ hf)
  case empty =>
    intro hnone
    rw [upper.frames] at hnone
    simp at hnone
  case delimiters =>
    rw [upper.frames]
    exact hp.delimiters.concat (fun f hf => (hp.within f hf).2.1) upper.delimiterBase
      upper.delimiters
  case marks =>
    rw [upper.frames]
    refine hp.marks.concat (fun f hf => (hp.within f hf).2.2) upper.tryBase fun m hm => ?_
    obtain ⟨hdepth, hsize, hdelimiters⟩ := upper.marks m hm
    obtain ⟨r, hclosure, htarget⟩ := leads m hm
    obtain ⟨context, hactivity⟩ := Frame.activity_of_closure hclosure
    exact ⟨r, context, hactivity, hdepth, htarget, hsize, hdelimiters⟩

/-- **A tower of activations**, if the extents of its frames fit. -/
theorem of_tower {ground : List Value} {fs : List Frame} (tower : Tower ground fs c)
    (measured : ∀ f ∈ c.frames, f.extent.Measured .unbounded h)
    (stacked : Extent.Stacked h (c.frames.map Frame.extent).reverse c.marks) : c.LaidOut h := by
  induction tower with
  | ground => exact bare ground
  | @call fs f p a lower activation ih =>
    obtain ⟨g, upper⟩ := activation.upper p
    have hreverse : ((p.pile a).frames.map Frame.extent).reverse
        = g.extent :: (p.frames.map Frame.extent).reverse := by
      rw [upper.frames, List.map_append, List.reverse_append]
      rfl
    rw [hreverse] at stacked
    generalize hmarks : (p.pile a).marks = marks at stacked
    cases stacked with
    | @frame _ _ below own lower' start base leads =>
      have hlength : p.marks.length = below.length := upper.tryBase.symm.trans base
      obtain ⟨rfl, rfl⟩ := List.append_inj hmarks hlength
      have hframe (k : Frame) (hk : k ∈ p.frames ++ [g]) : k.extent.Measured .unbounded h :=
        measured k (upper.frames ▸ hk)
      refine (ih (fun k hk => hframe k (List.mem_append_left _ hk)) lower').pile upper
        (hframe g (by simp)) (fun k hk hnone => ?_) leads
      refine start k.extent ?_ hnone
      rw [List.head?_reverse, List.getLast?_map, hk]
      rfl

end LaidOut

end Layer

theorem Stacks.Fitting.laidOut {h : Heap} {s : Stacks} (hs : s.Fitting host h)
    (hsizes : host.sizes = .unbounded) (hsyscall : ∀ i, host.syscall i = none)
    (sound : s.view.Sound) : s.view.LaidOut h := by
  obtain ⟨ground, fs, tower⟩ := sound
  refine .of_tower tower (fun f hf => ?_) (hs.stacked hsizes hsyscall)
  rw [← hsizes]
  exact hs.measured f.extent (List.mem_map_of_mem hf)

/-! ### Resumes -/

namespace Vm

variable {vm : Vm σ} {floor fuel : Nat} {values : List Value} {r : Ref .coroutine}
  {args : List Value} {M : Machine σ}

section

variable (hsyscall : ∀ i, host.syscall i = none)
include hsyscall

/-- One round of the scheduler. -/
theorem Reachable.round (h : vm.Reachable host) (floor fuel : Nat) (values : List Value) :
    Ends host.sizes (·.Reachable host) (Vm.round host floor fuel values vm) := by
  -- The top coroutine has come back, and the one below goes on, if there is one for this run.
  have hretired {vm : Vm σ} (h : vm.Reachable host) (below : List (Ref .coroutine))
      {x y : Schedule σ Round}
      (hx : ∀ {vm : Vm σ}, vm.Reachable host → Ends host.sizes (·.Reachable host) (x vm))
      (hy : ∀ {vm : Vm σ}, vm.Reachable host → Ends host.sizes (·.Reachable host) (y vm)) :
      Ends host.sizes (·.Reachable host) ((do
        retire
        if below.length ≤ floor then x else do
          Vm.readyTop
          y) vm) := by
    refine Ends.bind (x := retire) (.arrange h rfl) fun _ vm₁ h₁ => ?_
    split
    · exact hx h₁
    · exact h₁.readyTop.bind fun _ vm₂ h₂ => hy h₂
  rw [Vm.round]
  refine Ends.bind (x := MonadState.get) h fun now vm' h' => ?_
  cases now.active with
  | nil => exact h'
  | cons top below =>
    refine (h'.resume hsyscall fuel top values).bind fun exit vm₁ h₁ => ?_
    cases exit with
    | switched next args =>
      exact Ends.bind (x := activate next) (.arrange h₁ rfl) fun _ _ h₂ => h₂
    | finished results => exact hretired h₁ below id id
    | yielded results => exact hretired h₁ below id id

/-- The heads of a run. -/
theorem Head.LeadsAbove.reachable {a b : Head σ} (leads : a.LeadsAbove host floor b)
    (ha : a.vm.Reachable host) : b.vm.Reachable host := by
  induction leads with
  | refl => exact ha
  | @tail b c _ next ih =>
    have hround := ih.round hsyscall floor c.fuel b.values
    rw [next.2] at hround
    exact hround

/-- Where a coroutine is resumed. -/
theorem Occurs.reachable (occurs : vm.Occurs host own r args) : vm.Reachable host := by
  cases occurs with
  | own arises _ => exact arises.reachable hsyscall
  | round arises _ leads _ =>
    exact Head.LeadsAbove.reachable hsyscall leads (.arrange (arises.reachable hsyscall) rfl)

/-- **Between the steps of a resume** all stacks are sound. -/
theorem Runs.sound (hvm : vm.heap.Sound) (runs : vm.Runs host r args M) :
    M.Sound ∧ M.heap.Sound := by
  induction runs with
  | begun begins =>
    have hbegin := sound_begin hsyscall hvm r args
    rw [begins] at hbegin
    cases hbegin with
    | ok on grows sound => exact ⟨sound_of_on on sound, (hvm.checkOut r vm.state).grows grows⟩
  | goes _ step ih =>
    have hstep := ih.1.step hsyscall
    rw [step] at hstep
    cases hstep with
    | ok on grows sound => exact ⟨sound_of_on on sound, ih.2.grows grows⟩

end

end Vm

/-! ### All coroutines -/

/-- The stacks of every coroutine are as they have to be. -/
def Heap.LaidOut (h : Heap) : Prop :=
  ∀ r, (h.coroutine r).memory.view.LaidOut h

theorem Heap.Upholds.laidOut {h : Heap} {I : Stacks.Invariant host}
    (hfitting : ∀ h s, I.holds h s → s.Fitting host h) (hs : h.Upholds I) (sound : h.Sound)
    (hsizes : host.sizes = .unbounded) (hsyscall : ∀ i, host.syscall i = none) : h.LaidOut :=
  fun r => (hfitting _ _ (hs.coroutine r).memory).laidOut hsizes hsyscall (sound.coroutine r)

/-- **The stacks of every coroutine are laid out** in all states that a host can bring about,
without limits of sizes and without system calls: between two errands of the host; where a coroutine
is resumed, on its own or in a run; and between the steps that follow, the stacks of the coroutine
that runs and those of all others.  All closures that the host refers to are there. -/
theorem stack_layout {keeps : (Ref .function → Prop) → σ → Prop}
    (hsizes : host.sizes = .unbounded)
    (hsyscall : ∀ i, host.syscall i = none) (rooted : host.Rooted keeps) :
    (∀ vm : Vm σ, vm.Arises host (Host.Owned keeps) → vm.heap.LaidOut) ∧
    ∀ (vm : Vm σ) (r : Ref .coroutine) (args : List Value),
      vm.Occurs host (Host.Owned keeps) r args →
      vm.heap.LaidOut ∧
      (Coroutine.canResume (vm.heap.coroutine r).state →
        ∀ M, vm.Runs host r args M → M.memory.view.LaidOut M.heap ∧ M.heap.LaidOut) := by
  have orderly : host.Orderly := fun i call hcall => by simp [hsyscall i] at hcall
  have tidy : host.Tidy := fun i call hcall => by simp [hsyscall i] at hcall
  let I : Stacks.Invariant host := Stacks.fitting orderly tidy rooted
  have covers : I.premise.Covers (Host.Owned keeps) := Vm.Premise.intact_covers rooted
  refine ⟨fun vm arises => ?_, fun vm r args occurs => ?_⟩
  · have hheap : vm.heap.Upholds I := arises.upholds covers
    exact hheap.laidOut (fun _ _ => id) ((arises.reachable hsyscall).sound hsyscall) hsizes hsyscall
  · have hsound : vm.heap.Sound := (occurs.reachable hsyscall).sound hsyscall
    have hheap : vm.heap.Upholds I := occurs.upholds covers
    refine ⟨hheap.laidOut (fun _ _ => id) hsound hsizes hsyscall, fun haccepted M runs => ?_⟩
    obtain ⟨-, hmemory, hothers⟩ := I.keeping.runs hheap haccepted (covers occurs) runs
    obtain ⟨hM, hMheap⟩ := runs.sound hsyscall hsound
    have hnow : M.memory.Fitting host M.heap := hmemory
    exact ⟨hnow.laidOut hsizes hsyscall hM,
      hothers.laidOut (fun _ _ => id) hMheap hsizes hsyscall⟩

/-! ### A coroutine that waits in the middle of a call -/

/-- A function that calls its second argument with the first one, keeps the result in a local
variable, sets a try mark and calls another function; and that one, which has two local variables
and yields (`0x50` and `0x51` load the arguments, `0xb1` keeps one result, `0x48` stores the
variable and `0x31` loads the number one). -/
def CodeUnit.yielding : CodeUnit := ⟨#[
  ⟨"calling", #[(Op.control .delimit).byte, 0x50, 0x51, (Op.control .call).byte, 0xb1, 0x48,
    (Op.guarded (.enter .short)).byte, 4, (Op.control .delimit).byte,
    (Op.loadFunction .short).byte, 1, (Op.control .call).byte, (Op.control .ret).byte], 1, []⟩,
  ⟨"yielding", #[(Op.control .delimit).byte, 0x31, (Op.control .yield).byte,
    (Op.control .ret).byte], 2, []⟩], #[], 0⟩

/-- The first function has two arguments and a local variable, a delimiter and a try mark; the
second one starts above them, and has two local variables and a delimiter.  The host adds up. -/
theorem stack_layout_yielding :
    let host : Host (Array Scripted.Event) :=
      { Scripted.Library.host ⟨#[.sum], #[], #[]⟩ fun _ => none with sizes := .unbounded }
    let keeps (_ : Ref .function → Prop) (_ : Array Scripted.Event) : Prop := True
    let args : List Value := [.int 7, .pureFn ⟨0⟩]
    let vm := Vm.last ((Errand.resume ⟨0⟩ args).run host 20 (Vm.over .yielding #[]))
    let memory := (vm.heap.coroutine ⟨0⟩).memory
    host.sizes = .unbounded ∧ (∀ i, host.syscall i = none) ∧ host.Rooted keeps ∧
    vm.Arises host (Host.Owned keeps) ∧
    memory.frames.toList.map (fun f => (f.stackBase, f.localsBase, f.privateBase))
      = [(0, 2, 3), (3, 3, 5)] ∧
    memory.values.toList.take 3 = [.int 7, .pureFn ⟨0⟩, .int 7] ∧
    memory.delimiters.toList = [3, 5] ∧ memory.marks.toList = [⟨12, 3, 1, 0⟩] ∧
    memory.view.LaidOut vm.heap ∧
    (Vm.over .yielding #[]).Occurs host (Host.Owned keeps) ⟨0⟩ args ∧
    ∀ M, (Vm.over .yielding #[]).Runs host ⟨0⟩ args M →
      M.memory.view.LaidOut M.heap ∧ M.heap.LaidOut := by
  intro host keeps args vm memory
  have rooted : host.Rooted keeps := by
    have hlibrary : (Scripted.Library.host ⟨#[.sum], #[], #[]⟩ fun _ => none).Rooted keeps := by
      refine Scripted.Library.honest (by decide +kernel) (fun i script hscript => ?_) _
      cases hscript
    exact hlibrary.resized .unbounded
  have arises : (Vm.over .yielding #[]).Arises host (Host.Owned keeps) :=
    Vm.arises_over (u := .yielding) host Nat.zero_lt_two trivial
  have held : (Errand.resume ⟨0⟩ args).Held (Vm.over .yielding ()).heap :=
    ⟨Nat.zero_lt_one, by simp [args, Value.Held]⟩
  have hanswer : Vm.failure? ((Errand.resume ⟨0⟩ args).run host 20 (Vm.over .yielding #[]))
    = none := by
    decide +kernel
  have after : vm.Arises host (Host.Owned keeps) := arises.errand held 20 fun d vm' h => by
    rw [h] at hanswer
    cases hanswer
  have occurs : (Vm.over .yielding #[]).Occurs host (Host.Owned keeps) ⟨0⟩ args :=
    .own arises held
  have hsizes : host.sizes = .unbounded := rfl
  have hlaidOut := stack_layout hsizes (fun _ => rfl) rooted
  exact ⟨hsizes, fun _ => rfl, rooted,
    after, by decide +kernel, by decide +kernel, by decide +kernel,
    by decide +kernel, hlaidOut.1 vm after ⟨0⟩, occurs, (hlaidOut.2 _ _ _ occurs).2 rfl⟩

end ScriptVm
