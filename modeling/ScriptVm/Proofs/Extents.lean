import ScriptVm.Proofs.StackInvariants

/-!
# Where frames lie

The extent of a frame is settled when the frame is made, and does not change as long as
it is there: its arguments lie below its local variables, and there is room for as many
of these as its prototype has.  A step can do four things to the extents.  It leaves them
as they are, or puts one on top; it takes the topmost one away; and an instruction on try
marks sets a mark that leads into the code of the topmost frame, or takes away one of
that frame's marks.

A frame that an asynchronous call has put on top starts where that call started.

Main statements: `Exec.rearranges_step` (what a step does to extents and try marks) and
`Stacks.fitting` (what is known of them in every state).
-/

namespace ScriptVm

variable {σ : Type} {host : Host σ}

theorem Frame.closure_extent {f : Frame} {r : Ref .function} {context : Ref .context}
    (hactivity : f.activity = .bytecode r context) : f.extent.closure = some r := by
  rw [extent, code?, hactivity]
  rfl

theorem Frame.activity_of_closure {f : Frame} {r : Ref .function}
    (hclosure : f.extent.closure = some r) : ∃ context, f.activity = .bytecode r context := by
  cases hactivity : f.activity with
  | bytecode q context =>
    obtain rfl : q = r := Option.some.inj ((f.closure_extent hactivity).symm.trans hclosure)
    exact ⟨context, rfl⟩
  | async call => simp [extent, code?, hactivity] at hclosure

/-! ### What a step does -/

namespace Exec

/-- **What a step does to the frames and the try marks**: the topmost extent `e`, on those `below`,
stays where it is; another frame comes on top; a try mark is set or taken away; or the extent is
gone, with its marks.  The heap at the beginning is `h`. -/
inductive Rearranges (host : Host σ) (h : Heap) (below : List Extent) (e : Extent)
    (marks : List TryMark) (N : Machine σ) : Prop
  | stays (extents : N.extents = below ++ [e])
      (kept : (∀ i, host.syscall i = none) → N.memory.marks.toList = marks)
  | calls {g : Frame} (opens : g.Opens host.sizes N) (top : g ∈ N.memory.frames.toList)
      (extents : N.extents = below ++ [e] ++ [g.extent])
      (start : e.closure = none → g.stackBase = e.stackBase)
      (kept : N.memory.marks.toList = marks)
  | marks {m : TryMark} {r : Ref .function} (closure : e.closure = some r)
      (target : m.target ≤ (h.prototype r).code.size) (extents : N.extents = below ++ [e])
      (pushed : N.memory.marks.toList = marks ++ [m])
  | unmarks (own : e.tryBase < marks.length) (extents : N.extents = below ++ [e])
      (popped : N.memory.marks.toList = marks.dropLast)
  | returns (extents : N.extents = below)
      (cut : host.sizes = .unbounded → N.memory.marks.toList = marks.take e.tryBase)

variable {M : Machine σ} {fs : List Frame} {f : Frame} {r : Ref .function} {context : Ref .context}
  {marks : List TryMark}

/-- A function has been called, or not. -/
theorem Rearranges.raised {h : Heap} {N : Machine σ} {g : Frame} {new : Option Frame}
    (opens : ∀ k ∈ new, k.Opens host.sizes N)
    (frames : N.memory.frames.toList = fs ++ [g] ++ new.toList)
    (start : ∀ k ∈ new, g.extent.closure = none → k.stackBase = g.stackBase)
    (kept : N.memory.marks.toList = marks) :
    Rearranges host h (fs.map Frame.extent) g.extent marks N := by
  have hextents : N.extents = fs.map Frame.extent ++ [g.extent] ++ new.toList.map Frame.extent := by
    rw [Machine.extents, Stacks.extents, frames, List.map_append, List.map_append]
    rfl
  cases new with
  | none => exact .stays (hextents.trans (List.append_nil _)) fun _ => kept
  | some k => exact .calls (opens k rfl) (by simp [frames]) hextents (start k rfl) kept

/-! #### Instructions on try marks -/

/-- A jump leads into the code, to its end at most. -/
theorem jumpTarget_cases (hframes : M.memory.frames.toList = fs ++ [f]) (r : Ref .function)
    (imm : Int64) :
    (∃ target, jumpTarget r imm M = .ok target M ∧
      target ≤ (M.heap.prototype r).code.size) ∨
      ∃ e, jumpTarget r imm M = .error e M := by
  rw [jumpTarget, bind_of_ok (heap_apply M), bind_of_ok (frame_track hframes)]
  split
  · exact .inr ⟨_, rfl⟩
  · next hin => exact .inl ⟨_, rfl, Nat.le_of_not_lt fun hlt => hin (.inr hlt)⟩

theorem rearranges_tryOperator (hframes : M.memory.frames.toList = fs ++ [f])
    (hactivity : f.activity = .bytecode r context) (op : TryOp) (imm : Int64) :
    Rearranges host M.heap (fs.map Frame.extent) f.extent M.memory.marks.toList
      (last (tryOperator r op imm M)) := by
  have hextents : (last (tryOperator r op imm M)).extents = fs.map Frame.extent ++ [f.extent] :=
    ((Level.tryOperator r op imm).extents M).trans (extents_of_toList hframes)
  cases op with
  | enter w =>
    rcases jumpTarget_cases hframes r imm with ⟨target, htarget, hle⟩ | ⟨e, hfault⟩
    · rw [tryOperator, bind_of_ok htarget] at hextents ⊢
      exact .marks (m := ⟨target, _, _, _⟩) (Frame.closure_extent hactivity) hle hextents
        (Stack.toList_push _ _)
    · rw [tryOperator, bind_of_error hfault] at hextents ⊢
      exact .stays hextents fun _ => rfl
  | leave =>
    rw [tryOperator, bind_of_ok (frame_track hframes), bind_of_ok (get_apply M)] at hextents ⊢
    split at hextents
    · next hown =>
      rw [if_pos hown]
      rw [Stack.size_eq_length] at hown
      exact .unmarks hown hextents (Stack.toList_dropLast _)
    · next hown =>
      rw [if_neg hown]
      exact .stays hextents fun _ => rfl
  | throw =>
    have hsame : Upholds (Machine.sameMarks host M.memory.marks).toKeeping
        (tryOperator r .throw imm : Exec σ Unit) :=
      Upholds.pop.bind fun v => Upholds.heap.bind fun h => .fault _
    exact .stays hextents fun _ => congrArg Stack.toList (hsame M rfl)

/-! #### Returns -/

theorem rearranges_ret (hframes : M.memory.frames.toList = fs ++ [f]) (h : Heap) :
    Rearranges host h (fs.map Frame.extent) f.extent M.memory.marks.toList (last (ret host M)) := by
  have hstill : Still (popDelimiter >>= takeFrom : Exec σ (List Value)) :=
    Still.popDelimiter.bind fun start => .smooth fun _ => .takeFrom start
  have hsame : Upholds (Machine.sameMarks host M.memory.marks).toKeeping
      (popDelimiter >>= takeFrom : Exec σ (List Value)) :=
    (Upholds.popDelimiter (K := Machine.sameMarks host M.memory.marks)).bind fun start =>
      .takeFrom start
  have hret : ret host = (popDelimiter >>= takeFrom) >>= leave host := (bind_assoc _ _ _).symm
  have hfirst := hstill M
  have hmarks := hsame M rfl
  rw [hret, bind_apply]
  generalize (popDelimiter >>= takeFrom : Exec σ (List Value)) M = result at hfirst hmarks
  have hon : (last result).memory.frames.toList = fs ++ [f] :=
    (congrArg Stack.toList hfirst).trans hframes
  have hkept : (last result).memory.marks = M.memory.marks := hmarks
  cases result with
  | error e N => exact .stays (extents_of_toList hon) fun _ => congrArg Stack.toList hkept
  | ok results N =>
    refine .returns (congrArg (List.map Frame.extent) (frames_leave host hon results))
      fun hsizes => ?_
    have hcut := congrArg Stack.toList (marks_leave hsizes hon results)
    rw [hkept, Stack.toList_truncate] at hcut
    exact hcut

/-! #### Whole steps -/

theorem rearranges_execute (orderly : host.Orderly) (tidy : host.Tidy)
    (hframes : M.memory.frames.toList = fs ++ [f]) (hactivity : f.activity = .bytecode r context)
    (op : Op) (imm : Int64) (phase : Nat) :
    Rearranges host M.heap (fs.map Frame.extent) f.extent M.memory.marks.toList
      (last (execute host r context op imm phase M)) := by
  have hgoes (x : Exec σ Unit) : last ((do x; return none : Exec σ (Option Exit)) M)
    = last (x M) := by
    rw [goes_apply]
    cases x M <;> rfl
  by_cases hret : op = .control .ret
  · subst hret
    have hlast : last (execute host r context (.control .ret) imm phase M) = last (ret host M) :=
      hgoes _
    rw [hlast]
    exact rearranges_ret hframes M.heap
  by_cases hguarded : ∃ o, op = .guarded o
  · obtain ⟨o, rfl⟩ := hguarded
    have hlast : last (execute host r context (.guarded o) imm phase M)
      = last (tryOperator r o imm M) :=
      hgoes _
    rw [hlast]
    exact rearranges_tryOperator hframes hactivity o imm
  · -- all other instructions leave the try marks alone, a system call apart
    have hkept (hsyscall : ∀ i, op = .syscall i → host.syscall i = none) :
        (last (execute host r context op imm phase M)).memory.marks.toList
          = M.memory.marks.toList := by
      let K := Machine.sameMarks host M.memory.marks
      refine congrArg Stack.toList
        (Upholds.execute (K := K) trivial r op imm phase rfl hret ?_ ?_ ?_)
      · intro o _
        exact Upholds.tableOperator (K := K) o (fun _ _ _ _ _ hN => hN) phase M rfl
      · intro o ho
        exact absurd ⟨o, ho⟩ hguarded
      · intro i hi
        rw [last_syscall, hsyscall i hi]
        rfl
    have hshifts := frames_execute orderly hframes r context op imm phase
    generalize execute host r context op imm phase M = result at hkept hshifts
    have hclosure := Frame.closure_extent hactivity
    cases hshifts with
    | stays _ _ extents => exact .stays (extents tidy) fun hnone => hkept fun i _ => hnone i
    | @asks _ new asks opens frames _ =>
      let g : Frame := { f with progress := { f.progress with next := phase + 1 } }
      refine Rearranges.raised (g := g) opens frames (fun k _ hnone => ?_) (hkept fun i hi => ?_)
      · cases hclosure.symm.trans hnone
      · subst hi
        cases phase <;> cases asks
    | calls call opens frames _ =>
      refine Rearranges.raised opens frames (fun k _ hnone => ?_) (hkept fun i hi => ?_)
      · cases hclosure.symm.trans hnone
      · cases call.symm.trans hi
    | returns isReturn _ _ => exact absurd isReturn hret

/-- **What a step does to the extents of the frames and to the try marks.** -/
theorem rearranges_step (orderly : host.Orderly) (tidy : host.Tidy)
    (hframes : M.memory.frames.toList = fs ++ [f]) :
    Rearranges host M.heap (fs.map Frame.extent) f.extent M.memory.marks.toList
      (last (step host M)) := by
  have hf : M.memory.frames.last? = some f := Stack.last?_of_toList hframes
  cases hactivity : f.activity with
  | async call =>
    rw [step_async host hf hactivity]
    have hcode (call' : AsyncCall) : ({ f with activity := .async call' } : Frame).extent
      = f.extent := by
      simp only [Frame.extent, Frame.code?, hactivity]
    rcases frames_stepAsync host hframes hactivity with
      ⟨call', new, opens, hstays, -, hkept⟩ | ⟨hgone, -, hcut⟩
    · rw [← hcode call']
      exact .raised (fun k hk => (opens k hk).1) hstays (fun k hk _ => (opens k hk).2)
        (congrArg Stack.toList hkept)
    · refine .returns (congrArg (List.map Frame.extent) hgone) fun hsizes => ?_
      rw [hcut hsizes, Stack.toList_truncate]
      rfl
  | bytecode r context =>
    have hsame : Upholds (Machine.sameMarks host M.memory.marks).toKeeping
        (fetch r : Exec σ (Op × Int64 × Nat)) :=
      Upholds.fetch (K := (Machine.sameMarks host M.memory.marks).toCallKeeping) r
    have hmarks := hsame M rfl
    have hfetches := fetches hframes r
    rw [step_bytecode host hf hactivity, bind_apply]
    generalize fetch r M = result at hmarks hfetches
    have hkept : (last result).memory.marks = M.memory.marks := hmarks
    -- the instruction is executed by the same frame, further on in its code
    have hexecuted {g : Frame} {N : Machine σ} (hN : N.memory.frames.toList = fs ++ [g])
        (hg : g.activity = f.activity) (hextent : g.extent = f.extent) (hheap : N.heap = M.heap)
        (hkept : N.memory.marks = M.memory.marks) (op : Op) (imm : Int64) (phase : Nat) :
        Rearranges host M.heap (fs.map Frame.extent) f.extent M.memory.marks.toList
          (last (execute host r context op imm phase N)) := by
      have hexecute := rearranges_execute orderly tidy hN (hg.trans hactivity) op imm phase
      rwa [hextent, hheap, hkept] at hexecute
    cases hfetches with
    | fails _ frames _ _ extent _ _ =>
      refine .stays ?_ fun _ => congrArg Stack.toList hkept
      rw [← extent]
      exact extents_of_toList frames
    | fresh _ _ _ _ frames heap _ => exact hexecuted frames rfl rfl heap hkept _ _ _
    | again _ _ frames heap _ => exact hexecuted frames rfl rfl heap hkept _ _ _

end Exec

/-! ### What is known in every state -/

namespace Extent

/-- **The arguments and the local variables of a frame**, whose closure is there: the former lie
below the latter, and of these there are as many as the prototype has. -/
structure Measured (sizes : Sizes) (h : Heap) (e : Extent) : Prop where
  arguments : e.stackBase + e.argumentCount = e.localsBase
  locals : ∀ r, e.closure = some r → h.functions.Holds r ∧
    h.units.Holds (h.function r).unit ∧
    sizes.add e.localsBase (h.prototype r).locals = .ok e.privateBase

/-- A try mark leads into the code of the frame. -/
def Leads (h : Heap) (e : Extent) (m : TryMark) : Prop :=
  ∃ r, e.closure = some r ∧ m.target ≤ (h.prototype r).code.size

/-- **Frames on top of one another, and their try marks**, the topmost frame first: a frame on top
of an asynchronous call starts where that call started, and the marks of every frame lead into its
code. -/
inductive Stacked (h : Heap) : List Extent → List TryMark → Prop
  | ground : Stacked h [] []
  | frame {es : List Extent} {e : Extent} {below own : List TryMark} (lower : Stacked h es below)
      (start : ∀ c ∈ es.head?, c.closure = none → e.stackBase = c.stackBase)
      (base : e.tryBase = below.length) (leads : ∀ m ∈ own, e.Leads h m) :
      Stacked h (e :: es) (below ++ own)

variable {sizes : Sizes} {h h' : Heap} {e : Extent} {es : List Extent} {marks : List TryMark}

theorem Measured.keeps (he : e.Measured sizes h) (hkeeps : h.KeepsPrototypes h') :
    e.Measured sizes h' := by
  refine ⟨he.arguments, fun r hr => ?_⟩
  obtain ⟨hheld, hunit, hroom⟩ := he.locals r hr
  obtain ⟨hheld', hunit', hsame⟩ := hkeeps r hheld hunit
  exact ⟨hheld', hunit', hsame ▸ hroom⟩

namespace Stacked

theorem keeps (hs : Stacked h es marks) (measured : ∀ e ∈ es, e.Measured sizes h)
    (hkeeps : h.KeepsPrototypes h') : Stacked h' es marks := by
  induction hs with
  | ground => exact .ground
  | @frame es e below own lower start base leads ih =>
    refine .frame (ih fun e he => measured e (List.mem_cons_of_mem _ he)) start base fun m hm => ?_
    obtain ⟨r, hclosure, htarget⟩ := leads m hm
    obtain ⟨hheld, hunit, -⟩ := (measured e List.mem_cons_self).locals r hclosure
    obtain ⟨-, -, hsame⟩ := hkeeps r hheld hunit
    exact ⟨r, hclosure, hsame ▸ htarget⟩

/-- The first frame. -/
theorem single (base : e.tryBase = 0) : Stacked h [e] [] := by
  have hground : Stacked h [] [] := .ground
  show Stacked h [e] ([] ++ [])
  exact hground.frame nofun base (List.forall_mem_nil _)

/-- Another frame comes on top. -/
theorem push (hs : Stacked h (e :: es) marks) {g : Extent}
    (start : e.closure = none → g.stackBase = e.stackBase) (base : g.tryBase = marks.length) :
    Stacked h (g :: e :: es) marks := by
  have hpushed : Stacked h (g :: e :: es) (marks ++ []) := by
    refine .frame hs ?_ base (List.forall_mem_nil _)
    rintro c ⟨⟩
    exact start
  rwa [List.append_nil] at hpushed

/-- A try mark is set. -/
theorem mark (hs : Stacked h (e :: es) marks) {m : TryMark} (leads : e.Leads h m) :
    Stacked h (e :: es) (marks ++ [m]) := by
  cases hs with
  | @frame _ _ below own lower start base hown =>
    rw [List.append_assoc]
    refine .frame lower start base fun k hk => ?_
    rcases List.mem_append.mp hk with hk | hk
    · exact hown k hk
    · exact List.mem_singleton.mp hk ▸ leads

/-- One of the marks of the topmost frame is taken away. -/
theorem unmark (hs : Stacked h (e :: es) marks) (hown : e.tryBase < marks.length) :
    Stacked h (e :: es) marks.dropLast := by
  cases hs with
  | @frame _ _ below own lower start base leads =>
    have hne : own ≠ [] := by
      rintro rfl
      simp [base] at hown
    rw [List.dropLast_append_of_ne_nil hne]
    exact .frame lower start base fun k hk => leads k (List.dropLast_subset _ hk)

/-- The topmost frame is gone, with its marks. -/
theorem pop (hs : Stacked h (e :: es) marks) : Stacked h es (marks.take e.tryBase) := by
  cases hs with
  | frame lower start base leads =>
    rw [base, List.take_left]
    exact lower

end Stacked

end Extent

/-- The closures that have frames are there, and so are their units. -/
def Machine.Grounded (M : Machine σ) : Prop :=
  ∀ f ∈ M.memory.frames.toList, ∀ r context, f.activity = .bytecode r context →
    M.heap.functions.Holds r ∧ M.heap.units.Holds (M.heap.function r).unit

theorem Machine.Intact.grounded {keeps : (Ref .function → Prop) → σ → Prop} {M : Machine σ}
    (hM : M.Intact keeps) : M.Grounded := by
  intro f hf r context hactivity
  have hr := hM.holds hf hactivity
  exact ⟨hr, hM.founded r hr⟩

/-- **What is known of the frames of a coroutine and of its try marks**: of the latter, as long as
no system call meddles with them, and no return fails for the limits of sizes. -/
structure Stacks.Fitting (host : Host σ) (h : Heap) (s : Stacks) : Prop where
  measured : ∀ e ∈ s.extents, e.Measured host.sizes h
  stacked : host.sizes = .unbounded → (∀ i, host.syscall i = none) →
    Extent.Stacked h s.extents.reverse s.marks.toList

namespace Stacks.Fitting

variable {h h' : Heap} {s : Stacks} {M : Machine σ}

theorem keeps (hs : s.Fitting host h) (hkeeps : h.KeepsPrototypes h') : s.Fitting host h' where
  measured e he := (hs.measured e he).keeps hkeeps
  stacked hsizes hsyscall := (hs.stacked hsizes hsyscall).keeps
    (fun e he => hs.measured e (List.mem_reverse.mp he)) hkeeps

theorem of_nil (hextents : s.extents = []) (hmarks : s.marks.toList = []) : s.Fitting host h where
  measured e he := absurd (hextents ▸ he) List.not_mem_nil
  stacked _ _ := by
    rw [hextents, hmarks]
    exact .ground

/-- A frame that has just come on top. -/
theorem measured_of_opens {f : Frame} (hf : f ∈ M.memory.frames.toList)
    (opens : f.Opens host.sizes M) (held : M.Grounded) : f.extent.Measured host.sizes M.heap := by
  refine ⟨opens.arguments, fun r hr => ?_⟩
  obtain ⟨context, hactivity⟩ := Frame.activity_of_closure hr
  obtain ⟨hheld, hunit⟩ := held f hf r context hactivity
  exact ⟨hheld, hunit, opens.locals r context hactivity⟩

/-- **The opening of a coroutine.** -/
theorem opened (entry : Value) (context : Option (Ref .context)) (args : List Value)
    (hbare : M.memory.view = .bare [])
    (held : (Exec.last (Coroutine.opening host .initial entry context args M)).Grounded) :
    let N := Exec.last (Coroutine.opening host .initial entry context args M)
    N.memory.Fitting host N.heap := by
  intro N
  obtain ⟨new, opens, hframes, -⟩ := Exec.Raises.opening host .initial entry context args M
  have hnone : M.memory.frames.toList = [] := congrArg Layer.frames hbare
  have hmarks : N.memory.marks.toList = [] := by
    have hsame : (Machine.sameMarks host M.memory.marks).holds N :=
      Exec.Upholds.opening (K := (Machine.sameMarks host M.memory.marks).toCallKeeping)
        _ entry context args rfl fun _ _ _ _ _ _ hL => hL
    exact (congrArg Stack.toList hsame).trans (congrArg Layer.marks hbare)
  rw [hnone, List.nil_append] at hframes
  have hextents : N.memory.extents = new.toList.map Frame.extent :=
    congrArg (List.map Frame.extent) hframes
  cases new with
  | none => exact of_nil hextents hmarks
  | some f =>
    have hmeasured := measured_of_opens (by simp [hframes]) (opens f rfl).1 held
    refine ⟨fun e he => ?_, fun _ _ => ?_⟩
    · rw [hextents] at he
      exact List.mem_singleton.mp he ▸ hmeasured
    · rw [hextents, hmarks]
      refine .single ?_
      have hbase : f.tryBase = N.memory.marks.size := (opens f rfl).1.marks
      rw [Stack.size_eq_length, hmarks] at hbase
      exact hbase

/-- **A step.** -/
theorem step (orderly : host.Orderly) (tidy : host.Tidy) (hM : M.memory.Fitting host M.heap)
    (held : (Exec.last (Exec.step host M)).Grounded) :
    (Exec.last (Exec.step host M)).memory.Fitting host (Exec.last (Exec.step host M)).heap := by
  let N := Exec.last (Exec.step host M)
  have hkeeps : M.heap.KeepsPrototypes N.heap := .of_retains (Exec.step_retains host M)
  have hnow : M.memory.Fitting host N.heap := hM.keeps hkeeps
  rcases List.eq_nil_or_concat' M.memory.frames.toList with hnone | ⟨fs, f, hframes⟩
  · have hsame : N.memory.extents = M.memory.extents :=
      congrArg (List.map Frame.extent) ((Exec.frames_step_nil host hnone).trans hnone.symm)
    have hkept : (Machine.sameMarks host M.memory.marks).holds N := by
      have htake : Exec.Upholds (Machine.sameMarks host M.memory.marks).toKeeping
          (Exec.takeFrom 0 >>= fun values => pure (some (.finished values)) :
            Exec σ (Option Exit)) :=
        (Exec.Upholds.takeFrom 0).bind fun values => .pure _
      have hlast := htake M rfl
      rwa [← Exec.step_nil host hnone] at hlast
    refine ⟨hsame ▸ hnow.measured, fun hsizes hsyscall => ?_⟩
    rw [hsame, show N.memory.marks = M.memory.marks from hkept]
    exact hnow.stacked hsizes hsyscall
  have hextents : M.memory.extents = fs.map Frame.extent ++ [f.extent] :=
    Exec.extents_of_toList hframes
  have hreverse : M.memory.extents.reverse = f.extent :: (fs.map Frame.extent).reverse := by
    rw [hextents, List.reverse_append]
    rfl
  have hold (e : Extent) (he : e ∈ fs.map Frame.extent ++ [f.extent]) :
      e.Measured host.sizes N.heap :=
    hnow.measured e (hextents ▸ he)
  have htower := hnow.stacked
  rw [hreverse] at htower
  cases Exec.rearranges_step orderly tidy hframes with
  | stays extents kept =>
    have hsame : N.memory.extents = M.memory.extents := extents.trans hextents.symm
    refine ⟨hsame ▸ hnow.measured, fun hsizes hsyscall => ?_⟩
    rw [hsame, kept hsyscall, hreverse]
    exact htower hsizes hsyscall
  | @calls g opens top extents start kept =>
    have hnew := measured_of_opens top opens held
    have hlast : N.memory.extents.reverse = g.extent :: M.memory.extents.reverse := by
      rw [hextents, ← List.reverse_concat]
      exact congrArg List.reverse extents
    refine ⟨fun e he => ?_, fun hsizes hsyscall => ?_⟩
    · have hmem : e ∈ fs.map Frame.extent ++ [f.extent] ++ [g.extent] := extents ▸ he
      rcases List.mem_append.mp hmem with he | he
      · exact hold e he
      · exact List.mem_singleton.mp he ▸ hnew
    · rw [hlast, kept, hreverse]
      refine (htower hsizes hsyscall).push start ?_
      have hbase : g.tryBase = N.memory.marks.size := opens.marks
      rw [← kept, ← Stack.size_eq_length]
      exact hbase
  | @marks m r closure target extents pushed =>
    have hsame : N.memory.extents = M.memory.extents := extents.trans hextents.symm
    refine ⟨hsame ▸ hnow.measured, fun hsizes hsyscall => ?_⟩
    rw [hsame, pushed, hreverse]
    refine (htower hsizes hsyscall).mark ⟨r, closure, ?_⟩
    obtain ⟨hheld, hunit, -⟩ := (hM.measured f.extent (by simp [hextents])).locals r closure
    obtain ⟨-, -, hcode⟩ := hkeeps r hheld hunit
    exact hcode ▸ target
  | unmarks own extents popped =>
    have hsame : N.memory.extents = M.memory.extents := extents.trans hextents.symm
    refine ⟨hsame ▸ hnow.measured, fun hsizes hsyscall => ?_⟩
    rw [hsame, popped, hreverse]
    exact (htower hsizes hsyscall).unmark own
  | returns extents cut =>
    refine ⟨fun e he => ?_, fun hsizes hsyscall => ?_⟩
    · have hmem : e ∈ fs.map Frame.extent := extents ▸ he
      exact hold e (List.mem_append_left _ hmem)
    · have hlast : N.memory.extents.reverse = (fs.map Frame.extent).reverse :=
        congrArg List.reverse extents
      rw [hlast, cut hsizes]
      exact (htower hsizes hsyscall).pop

end Stacks.Fitting

/-- **Frames and try marks fit** whatever a coroutine does, and whatever is done with it. -/
def Stacks.fitting {keeps : (Ref .function → Prop) → σ → Prop}
    (orderly : host.Orderly) (tidy : host.Tidy) (rooted : host.Rooted keeps) :
    Stacks.Invariant host where
  premise := .intact rooted
  holds h s := s.Fitting host h
  bare hs := .of_nil (congrArg (fun l : Layer => l.frames.map Frame.extent) hs)
    (congrArg Layer.marks hs)
  keeps hkeeps hs := hs.keeps hkeeps
  opened entry context args hbare hgiven :=
    Stacks.Fitting.opened entry context args hbare (Machine.Intact.grounded hgiven)
  resumed values hmemory hs := by
    rw [hmemory]
    exact ⟨hs.measured, hs.stacked⟩
  step hgiven hM := hM.step orderly tidy (Machine.Intact.step rooted hgiven).1.grounded

end ScriptVm
