import ScriptVm.Machine.Call
import ScriptVm.Proofs.Lockstep.Stacks

/-!
# Calls and returns, in lockstep

A call starts with its arguments as a layer of their own, standing on all that
the caller has.  It ends as a layer of results in the same place, or with a new
activation there.  A return does the converse: whatever the activation has left
behind, its layer becomes the results.

Main statements: `Lockstep.invoke`, `Lockstep.leave`, and `Lockstep.invokeAt`
(a call made by an activation).
-/

namespace ScriptVm

variable {σ α β : Type}

/-- What is assumed of the host: no system call is registered, and functions of the host do not look
at the stacks where two runs are compared. -/
structure Host.Suits (host : Host σ) (t : Footing) : Prop where
  sizes : host.sizes = t.sizes
  syscalls : ∀ i, host.syscall i = none
  effects : t.one ∨ host.Blind

theorem Host.Suits.on {host : Host σ} {t : Footing} (h : host.Suits t) (a : Layer) :
    host.Suits (t.on a) := ⟨h.sizes, h.syscalls, h.effects⟩

/-- The layer of a new activation, which is to return a number of results. -/
def Entered (returnSize : Option Nat) (c : Layer) : Prop :=
  ∃ f : Frame, f.returnSize = returnSize ∧ Layer.Activation f c

/-- What a call makes of the layer of its arguments: the results, or a new activation. -/
inductive Invoked (returnSize : Option Nat) : Layer → Prop
  | done (results : List Value) : Invoked returnSize (.bare (shaped returnSize results))
  | entered {a : Layer} (activation : Entered returnSize a) : Invoked returnSize a

/-- What an activation becomes when it goes on: it stays, or has called another one. -/
inductive Layer.Continues (f : Frame) : Layer → Prop
  | stays {c : Layer} (activation : Layer.Activation f c) : Continues f c
  | calls {g : Frame} {a b : Layer} (caller : Layer.Activation f a)
      (callee : Layer.Activation g b) : Continues f (a.pile b)

/-- The frame of a call that starts at the bottom of its layer. -/
def Frame.fresh (activity : Activity) (arguments locals : Nat) (returnSize : Option Nat) :
    Frame where
  activity
  stackBase := 0
  argumentCount := arguments
  localsBase := arguments
  privateBase := arguments + locals
  ip := 0
  nextIp := 0
  delimiterBase := 0
  tryBase := 0
  returnSize
  progress := .none

theorem Frame.Laid.fresh (activity : Activity) (arguments locals : Nat) (returnSize : Option Nat) :
    (Frame.fresh activity arguments locals returnSize).Laid :=
  ⟨rfl, rfl, rfl, rfl, Nat.le_add_right _ _⟩

/-- An effectful function changes the state of the host. -/
theorem Exec.runEffect_apply {host : Host σ} {r : Ref .effectExternal} {args : List Value}
    {L : Machine σ} {result : Except Fault (List Value)} {state : σ}
    (h : host.callEffect r ⟨L.heap, L.memory, L.config⟩ args L.state = (result, state)) :
    Exec.runEffect host r args L = Exec.ofFault result { L with state } := by
  simp only [Exec.runEffect, Exec.bind_apply, Exec.get_apply, h, Exec.set_apply]

/-- An asynchronous function that opens a call changes the state of the host. -/
theorem Exec.openCall_apply {host : Host σ} {r : Ref .asyncExternal} {L : Machine σ}
    {object : Nat}
    {state : σ} (h : host.openAsync r ⟨L.heap, L.memory, L.config⟩ L.state = (object, state)) :
    Exec.openCall host r L = .ok object { L with state } := by
  simp only [Exec.openCall, Exec.bind_apply, Exec.get_apply, h, Exec.set_apply]
  rfl

/-- What a call of a closure does once it has a context: its slots lie on `base`, the local
variables from `localsBase` to `privateBase`. -/
def Exec.enterIn (r : Ref .function) (prototype : Prototype) (returnSize : Option Nat)
    (base argumentCount localsBase privateBase : Nat) (context : Ref .context) : Exec σ Unit := do
  modify fun m => m.onHeap fun h => h.declareVariables context prototype.declared
  modify fun m => m.onValues fun values => values.fillTo privateBase
  modify fun m => m.onFrames fun frames => frames.push {
    activity := .bytecode r context
    stackBase := base
    argumentCount
    localsBase
    privateBase
    ip := 0
    nextIp := 0
    delimiterBase := m.memory.delimiters.size
    tryBase := m.memory.marks.size
    returnSize
    progress := .none }

namespace Lockstep

variable {t : Footing} {pre : Layer → Prop} {f : Frame} {host : Host σ}

/-- A sum of a position and a size. -/
theorem add {i n : Nat} : Lockstep (σ := σ) t pre
    (Exec.ofDefect (t.sizes.add (t.left.values.length + i) n))
    (Exec.ofDefect (t.sizes.add (t.right.values.length + i) n))
    (Position t fun j c => j = i + n ∧ pre c) := by
  intro c M N alike hc
  cases hl : t.sizes.add (t.left.values.length + i) n with
  | error d => exact .limitLeft (.inl ⟨_, _, hl⟩)
  | ok a =>
    cases hr : t.sizes.add (t.right.values.length + i) n with
    | error d => exact .limitRight (.inl ⟨_, _, hr⟩)
    | ok b =>
      refine .ok alike (.refl _) ⟨i + n, ?_, ?_, rfl, hc⟩
      · rw [Sizes.eq_add_of_add_eq_ok hl, Nat.add_assoc]
      · rw [Sizes.eq_add_of_add_eq_ok hr, Nat.add_assoc]

/-- Nil in all slots up to a position. -/
theorem fillTo {c₀ : Layer} {i : Nat} : Lockstep (σ := σ) t (· = c₀)
    (modify fun m => m.onValues fun values => values.fillTo (t.left.values.length + i))
    (modify fun m => m.onValues fun values => values.fillTo (t.right.values.length + i))
    (Same fun _ c =>
      c = { c₀ with values := c₀.values ++ List.replicate (i - c₀.values.length) .nil }) := by
  intro c M N alike hc
  obtain rfl := hc
  have h (M : Machine σ) (p : Layer) (on : M.On p c) :
      (M.memory.values.fillTo (p.values.length + i)).toList
        = p.values ++ (c.values ++ List.replicate (i - c.values.length) .nil) := by
    rw [Stack.toList_fillTo, on.values, on.height, Nat.add_sub_add_left, List.append_assoc]
    rfl
  exact .ok (alike.onValues (h M _ alike.left) (h N _ alike.right) fun e => by rw [e]) (.refl _)
    ⟨rfl, rfl⟩

/-- A frame on top of values that are to be its own. -/
theorem pushFrame {c₀ : Layer} {g : Frame} (hc₀ : c₀ = .bare c₀.values)
    {mk : Machine σ → Frame}
    (hl : ∀ M : Machine σ, M.On t.left c₀ → mk M = t.left.liftFrame g)
    {mk' : Machine σ → Frame}
    (hr : ∀ N : Machine σ, N.On t.right c₀ → mk' N = t.right.liftFrame g) :
    Lockstep t (· = c₀) (modify fun m => m.onFrames fun frames => frames.push (mk m))
      (modify fun m => m.onFrames fun frames => frames.push (mk' m))
      (Same fun _ c => c = { c₀ with frames := [g] }) := by
  intro c M N alike hc
  obtain rfl := hc
  have hnone : c.frames = [] := by
    rw [hc₀]
    rfl
  have h (M : Machine σ) (p : Layer) (on : M.On p c) (made : Frame)
    (hmade : made = p.liftFrame g) :
      (M.memory.frames.push made).toList = p.frames ++ [g].map p.liftFrame := by
    rw [Stack.toList_push, on.frames, hnone, hmade]
    simp
  have hleft := hl M alike.left
  have hright := hr N alike.right
  refine .ok (alike.onFrames (h M _ alike.left _ hleft) (h N _ alike.right _ hright) fun ho => ?_)
    (.refl _) ⟨rfl, rfl⟩
  rw [hleft, hright, t.same ho]

/-- A closure gets its frame. -/
theorem enterIn (r : Ref .function) (prototype : Prototype) (args : List Value)
    (returnSize : Option Nat) (context : Ref .context) {locals : Nat}
    (hlocals : locals = args.length + prototype.locals) :
    Lockstep (σ := σ) t (· = .bare args)
      (Exec.enterIn r prototype returnSize t.left.values.length args.length
        (t.left.values.length + args.length) (t.left.values.length + locals) context)
      (Exec.enterIn r prototype returnSize t.right.values.length args.length
        (t.right.values.length + args.length) (t.right.values.length + locals) context)
      (Same fun _ => Entered returnSize) := by
  unfold Exec.enterIn
  refine (onHeap fun h => by simp).andThen fun _ => fillTo.andThen fun _ => ?_
  refine (pushFrame (g := .fresh (.bytecode r context) args.length prototype.locals returnSize)
    rfl ?_ ?_).mono (fun _ h => h) ?_
  · intro M on
    simp_all [Layer.liftFrame, Frame.fresh, on.delimiters_size, on.marks_size]
  · intro M on
    simp_all [Layer.liftFrame, Frame.fresh, on.delimiters_size, on.marks_size]
  · intro _ _ _ hc
    obtain ⟨rfl, rfl⟩ := hc
    refine ⟨rfl, _, rfl, .bytecode rfl (.fresh _ _ _ _) ⟨⟨_, _, _, rfl⟩, ?_, ?_, ?_⟩⟩
    · simp_all [Frame.fresh]
    · simp
    · simp

/-- A call of a closure. -/
theorem enter (suits : host.Suits t) (r : Ref .function) (args : List Value)
    (returnSize : Option Nat) (context : Option (Ref .context)) :
    Lockstep t (· = .bare args) (Exec.enter host r t.left.values.length returnSize context)
      (Exec.enter host r t.right.values.length returnSize context)
      (Same fun _ => Entered returnSize) := by
  unfold Exec.enter
  rw [suits.sizes]
  refine heap.andThen fun h => ?_
  refine (heightAbove (i := 0) fun _ _ => Nat.zero_le _).andThen fun argumentCount => ?_
  refine height.andAt fun localsBase => ?_
  refine add.andAt fun privateBase => ofLayer ?_
  intro _ hc
  obtain ⟨hprivate, rfl, hcount, rfl⟩ := hc
  obtain rfl : argumentCount = args.length := by simpa using hcount
  have tail (c : Ref .context) :=
    enterIn (σ := σ) (t := t) r (h.prototype r) args returnSize c hprivate
  cases context with
  | some c => exact tail c
  | none =>
    refine (allocate fun h => ?_).andThen tail
    exact .of_coroutines_eq (by simp)

/-- An asynchronous function opens the same call on both sides. -/
theorem openCall (suits : host.Suits t) (r : Ref .asyncExternal) :
    Steady t pre (Exec.openCall host r) fun _ => pre := by
  intro c M N alike hc
  have hanswer : host.openAsync r ⟨M.heap, M.memory, M.config⟩ M.state
      = host.openAsync r ⟨N.heap, N.memory, N.config⟩ N.state := by
    rcases suits.effects with ho | hblind
    · rw [alike.one ho]
    · rw [alike.heap, alike.config, alike.state]
      exact hblind.opening _ _ _ _ _ _
  rcases hresult : host.openAsync r ⟨N.heap, N.memory, N.config⟩ N.state
    with ⟨object, state⟩
  rw [hresult] at hanswer
  rw [Exec.openCall_apply hanswer, Exec.openCall_apply hresult]
  exact .ok { alike with
    state := rfl, one := fun ho => by rw [alike.one ho] } (.refl _) ⟨rfl, hc⟩

/-- A call of an asynchronous function. -/
theorem enterAsync (suits : host.Suits t) (r : Ref .asyncExternal) (args : List Value)
    (returnSize : Option Nat) :
    Lockstep t (· = .bare args) (Exec.enterAsync host r t.left.values.length returnSize)
      (Exec.enterAsync host r t.right.values.length returnSize)
      (Same fun _ => Entered returnSize) := by
  refine (openCall suits r).andThen fun object => ?_
  refine (heightAbove (i := 0) fun _ _ => Nat.zero_le _).andThen fun argumentCount => ofLayer ?_
  intro _ hc
  obtain ⟨hcount, rfl⟩ := hc
  refine (pushFrame (g := .fresh (.async ⟨r, object, []⟩) args.length 0 returnSize)
    rfl ?_ ?_).mono (fun _ h => h) ?_
  · intro M on
    simp_all [Layer.liftFrame, Frame.fresh, on.height, on.delimiters_size, on.marks_size]
  · intro M on
    simp_all [Layer.liftFrame, Frame.fresh, on.height, on.delimiters_size, on.marks_size]
  · intro _ _ _ hc
    obtain ⟨rfl, rfl⟩ := hc
    exact ⟨rfl, _, rfl, .async rfl (.fresh (.async ⟨r, object, []⟩) _ _ _) ⟨⟨_, rfl⟩,
      rfl, rfl⟩⟩

/-- An effectful function answers both sides alike. -/
theorem runEffect (suits : host.Suits t) (r : Ref .effectExternal) (args : List Value) :
    Steady t pre (Exec.runEffect host r args) fun _ => pre := by
  intro c M N alike hc
  have hanswer : host.callEffect r ⟨M.heap, M.memory, M.config⟩ args M.state
      = host.callEffect r ⟨N.heap, N.memory, N.config⟩ args N.state := by
    rcases suits.effects with ho | hblind
    · rw [alike.one ho]
    · rw [alike.heap, alike.config, alike.state]
      exact hblind.effect _ _ _ _ _ _ _
  rcases hresult : host.callEffect r ⟨N.heap, N.memory, N.config⟩ args N.state
    with ⟨result, state⟩
  rw [hresult] at hanswer
  have alike' : Alike t c { M with state } { N with state } := { alike with
    state := rfl
    one := fun ho => by rw [alike.one ho] }
  rw [Exec.runEffect_apply hanswer, Exec.runEffect_apply hresult]
  exact (ofFault c _ _ alike' hc).mono (.refl _) fun _ _ _ h => ⟨h.1, h.2.2⟩

/-- Shaping all values of a layer. -/
theorem shapeAll {c₀ : Layer} (size : Option Nat) :
    Lockstep (σ := σ) t (· = c₀) (Exec.shape t.sizes t.left.values.length size)
      (Exec.shape t.sizes t.right.values.length size)
      (Same fun _ c => c = { c₀ with values := shaped size c₀.values }) := by
  refine (shape (i := 0) (Nat.zero_le _) size).mono (fun _ h => h) ?_
  intro _ _ _ hc
  obtain ⟨rfl, rfl⟩ := hc
  exact ⟨rfl, by simp⟩

/-- The results of a function of the host, where its arguments were. -/
theorem results (vs : List Value) (returnSize : Option Nat) :
    Lockstep (σ := σ) t (· = .bare [])
      (do
        Exec.pushAll vs
        Exec.shape t.sizes t.left.values.length returnSize)
      (do
        Exec.pushAll vs
        Exec.shape t.sizes t.right.values.length returnSize)
      (Same fun _ c => c = .bare (shaped returnSize vs)) :=
  (pushAll vs).andThen fun _ => shapeAll returnSize

/-- The arguments of a call, taken off the stack. -/
theorem takeArguments (args : List Value) :
    Lockstep (σ := σ) t (· = .bare args) (Exec.takeFrom t.left.values.length)
      (Exec.takeFrom t.right.values.length) (Same fun _ c => c = .bare []) := by
  refine (takeFrom (i := 0) (Nat.zero_le _)).mono (fun _ h => h) ?_
  intro vs _ _ hc
  obtain ⟨rfl, -, rfl⟩ := hc
  exact ⟨rfl, by simp [Layer.bare]⟩

/-- **A call** makes of the layer of its arguments a layer of results or a new activation, whatever
lies below. -/
theorem invoke (suits : host.Suits t) (callee : Value) (args : List Value)
    (returnSize : Option Nat) :
    Lockstep t (· = .bare args) (Exec.invoke host callee t.left.values.length returnSize)
      (Exec.invoke host callee t.right.values.length returnSize)
      (Same fun _ => Invoked returnSize) := by
  have done {vs : List Value} (a b : Unit) (c : Layer)
      (h : Same (fun _ c => c = .bare (shaped returnSize vs)) a b c) :
      Same (fun _ => Invoked returnSize) a b c := ⟨h.1, h.2 ▸ .done vs⟩
  have entered (a b : Unit) (c : Layer) (h : Same (fun _ => Entered returnSize) a b c) :
      Same (fun _ => Invoked returnSize) a b c := ⟨h.1, .entered h.2⟩
  cases callee with
  | function r => exact (enter suits r args returnSize none).mono (fun _ h => h) entered
  | asyncFn r => exact (enterAsync suits r args returnSize).mono (fun _ h => h) entered
  | pureFn r =>
    refine (takeArguments args).andThen fun taken => heap.andThen fun h => ?_
    rw [suits.sizes]
    refine ofFault.andThen fun vs => assume fun _ => ?_
    exact (results vs returnSize).mono (fun _ h => h) done
  | effectFn r =>
    refine (takeArguments args).andThen fun taken => (runEffect suits r taken).andThen fun vs => ?_
    rw [suits.sizes]
    exact (results vs returnSize).mono (fun _ h => h) done
  | _ => exact heap.andThen fun h => .fault

/-! ### Calls made by an activation -/

/-- A layer may be counted to what lies below. -/
theorem on {a : Layer} {x : Exec σ α} {y : Exec σ β} {post : α → β → Layer → Prop}
    (h : Lockstep (t.on a) pre x y post) :
    Lockstep t (fun c => ∃ b, c = a.pile b ∧ pre b) x y
      fun r r' c => ∃ b, c = a.pile b ∧ post r r' b := by
  intro _ M N alike hc
  obtain ⟨b, rfl, hb⟩ := hc
  have hagree := h b M N (alike_on.mpr alike) hb
  revert hagree
  generalize x M = r
  generalize y N = r'
  intro hagree
  cases hagree with
  | ok alike' grows result => exact .ok (alike_on.mp alike') grows ⟨_, rfl, result⟩
  | fault alike' grows => exact .fault (alike_on.mp alike') grows
  | limitLeft limit => exact .limitLeft limit
  | limitRight limit => exact .limitRight limit

/-- An activation that calls from position `i` on keeps what it has below, and gets the results or
another activation on top. -/
theorem invokeAt {r : Ref .function} {context : Ref .context} (suits : host.Suits t)
    (code : f.activity = .bytecode r context) (laid : f.Laid) (callee : Value) {i : Nat}
    (returnSize : Option Nat) :
    Lockstep t (RunsFrom f i) (Exec.invoke host callee (t.left.values.length + i) returnSize)
      (Exec.invoke host callee (t.right.values.length + i) returnSize)
      (Same fun _ => Layer.Continues f) := by
  refine ofLayer fun c hc => ?_
  have hlen : (c.values.take i).length = i := by
    rw [List.length_take, Nat.min_eq_left hc.high]
  let a : Layer := { c with values := c.values.take i }
  have ha : Layer.Activation f a :=
    .bytecode code laid { hc.runs with operands := by rw [hlen]; exact hc.low }
  have h := (invoke (suits.on a) callee (c.values.drop i) returnSize).on
  have hleft : (t.on a).left.values.length = t.left.values.length + i := by
    simp [Footing.on, a, hc.high]
  have hright : (t.on a).right.values.length = t.right.values.length + i := by
    simp [Footing.on, a, hc.high]
  rw [hleft, hright] at h
  refine h.mono ?_ ?_
  · intro _ hc
    obtain rfl := hc
    exact ⟨_, by simp [Layer.pile_bare, a], rfl⟩
  · intro _ _ _ hc
    obtain ⟨b, rfl, rfl, hb⟩ := hc
    refine ⟨rfl, ?_⟩
    cases hb with
    | done results =>
      rw [Layer.pile_bare]
      exact .stays (ha.pushed _)
    | entered activation =>
      obtain ⟨g, -, hg⟩ := activation
      exact .calls ha hg

/-! ### Returns -/

/-- The layer without its frames. -/
theorem dropFrame {c₀ : Layer} {g : Frame} (hg : c₀.frames = [g]) :
    Steady (σ := σ) t (· = c₀) (modify fun m => m.onFrames Stack.dropLast)
      fun _ c => c = { c₀ with frames := [] } := by
  intro c M N alike hc
  obtain rfl := hc
  refine .ok (alike.onFrames ?_ ?_ fun _ => rfl) (.refl _) ⟨rfl, rfl⟩
  · simp [alike.left.frames, hg]
  · simp [alike.right.frames, hg]

/-- The layer without its values. -/
theorem dropValues {c₀ : Layer} : Lockstep (σ := σ) t (· = c₀)
    (modify fun m => m.onValues fun values => values.truncate t.left.values.length)
    (modify fun m => m.onValues fun values => values.truncate t.right.values.length)
    (Same fun _ c => c = { c₀ with values := [] }) := by
  intro c M N alike hc
  obtain rfl := hc
  refine .ok (alike.onValues ?_ ?_ fun h => by rw [h]) (.refl _) ⟨rfl, rfl⟩
  · simp [alike.left.values]
  · simp [alike.right.values]

/-- The layer without its delimiters. -/
theorem dropDelimiters {c₀ : Layer} : Lockstep (σ := σ) t (· = c₀)
    (modify fun m => m.onDelimiters fun ds => ds.truncate t.left.delimiters.length)
    (modify fun m => m.onDelimiters fun ds => ds.truncate t.right.delimiters.length)
    (Same fun _ c => c = { c₀ with delimiters := [] }) := by
  intro c M N alike hc
  obtain rfl := hc
  refine .ok (alike.onDelimiters ?_ ?_ fun ho => by rw [t.same ho]) (.refl _) ⟨rfl, rfl⟩
  · simp [alike.left.delimiters]
  · simp [alike.right.delimiters]

/-- The layer without its marks. -/
theorem dropMarks {c₀ : Layer} : Lockstep (σ := σ) t (· = c₀)
    (modify fun m => m.onMarks fun marks => marks.truncate t.left.marks.length)
    (modify fun m => m.onMarks fun marks => marks.truncate t.right.marks.length)
    (Same fun _ c => c = { c₀ with marks := [] }) := by
  intro c M N alike hc
  obtain rfl := hc
  refine .ok (alike.onMarks ?_ ?_ fun ho => by rw [t.same ho]) (.refl _) ⟨rfl, rfl⟩
  · simp [alike.left.marks]
  · simp [alike.right.marks]

/-- **A return** makes of the layer of an activation a layer of its results, whatever it has left
behind. -/
theorem leave {c₀ : Layer} (suits : host.Suits t) (hc₀ : Layer.Activation f c₀)
    (results : List Value) :
    Steady t (· = c₀) (Exec.leave host results)
      fun _ c => c = .bare (shaped f.returnSize results) := by
  obtain ⟨g, hg, hstack, hdelimiter, htry, hsize⟩ := hc₀.frames_eq
  refine onlyFrame hg ?_
  simp only [Layer.liftFrame, hstack, hdelimiter, htry, hsize, suits.sizes, Nat.add_zero]
  refine (dropFrame hg).andThen fun _ => dropValues.andThen fun _ => ?_
  refine (pushAll results).andThen fun _ => (shapeAll f.returnSize).andThen fun _ => ?_
  refine dropDelimiters.andThen fun _ => dropMarks.mono (fun _ h => h) ?_
  intro _ _ _ hc
  obtain ⟨rfl, rfl⟩ := hc
  exact ⟨rfl, rfl⟩

end Lockstep

end ScriptVm
