import ScriptVm.Machine.Call
import ScriptVm.Proofs.Exec
import ScriptVm.Proofs.Twins.Heap

/-!
# Computations in a mirror

Two machines can be twins in a **mirror**: their heaps and stacks are alike up to
the identity of coroutines, and their hosts are in states that the mirror counts
as alike.  A computation of the one mirrors a computation of the other if from
any twins both come to twins again, with matching results or with one reason to
stop.

The stacks of twins have the same slots in use, so a position is the same position
on both sides.  A value is the same value, except for coroutines.

Main statements: `Mirrors.bind` and the other rules of composition, one lemma for
each elementary computation, `Mirrors.invoke` (a call) and `Mirrors.leave` (a
return).
-/

namespace ScriptVm

/-- How two machines are looked at. -/
structure Mirror (σ : Type) where
  /-- How the heaps are alike. -/
  like : Likeness
  /-- The coroutines that are set aside. -/
  aside : Ref .coroutine → Prop
  /-- Which states of the host are alike, if the heaps are alike in some way. -/
  states : Likeness → σ → σ → Prop

variable {σ α β γ δ : Type} {m : Mirror σ}

/-- Two machines that are alike in a mirror. -/
structure Machine.Twin (m : Mirror σ) (M M' : Machine σ) : Prop where
  heap : M.heap.Twin m.like m.aside M'.heap
  memory : M.memory.Twin m.like M'.memory
  config : M'.config = M.config
  state : m.states m.like M.state M'.state

/-- The outcomes of two computations match: there are matching results, or one reason to stop, and
the machines are twins. -/
inductive Mirrored (m : Mirror σ) (R : α → β → Prop) :
    EStateM.Result Stop (Machine σ) α → EStateM.Result Stop (Machine σ) β → Prop
  | ok {a : α} {b : β} {M M' : Machine σ} (twin : M.Twin m M') (result : R a b) :
      Mirrored m R (.ok a M) (.ok b M')
  | error (e : Stop) {M M' : Machine σ} (twin : M.Twin m M') :
      Mirrored m R (.error e M) (.error e M')

/-- Two computations whose outcomes match, from any twins on. -/
def Mirrors (m : Mirror σ) (x : Exec σ α) (y : Exec σ β) (R : α → β → Prop) : Prop :=
  ∀ M M', M.Twin m M' → Mirrored m R (x M) (y M')

/-- Results that are the same on both sides. -/
def Mirrors.Equal (a b : α) : Prop := b = a

/-! ### Rules -/

namespace Mirrors

variable {x : Exec σ α} {y : Exec σ β} {R : α → β → Prop} {Q : γ → δ → Prop}

/-- Computations one after the other. -/
theorem bind {f : α → Exec σ γ} {g : β → Exec σ δ} (hx : Mirrors m x y R)
    (hf : ∀ a b, R a b → Mirrors m (f a) (g b) Q) : Mirrors m (x >>= f) (y >>= g) Q := by
  intro M M' twin
  have h := hx M M' twin
  rw [Exec.bind_apply, Exec.bind_apply]
  generalize x M = r at h
  generalize y M' = r' at h
  cases h with
  | ok twin' result => exact hf _ _ result _ _ twin'
  | error e twin' => exact .error e twin'

/-- A computation with equal results, and what comes after it. -/
theorem andThen {x y : Exec σ α} {f : α → Exec σ γ} {g : α → Exec σ δ}
    (hx : Mirrors m x y Equal)
    (hf : ∀ a, Mirrors m (f a) (g a) Q) : Mirrors m (x >>= f) (y >>= g) Q := by
  refine hx.bind fun a b h => ?_
  obtain rfl : b = a := h
  exact hf b

theorem pure {a : α} {b : β} (h : R a b) : Mirrors (σ := σ) m (Pure.pure a) (Pure.pure b) R :=
  fun _ _ twin => .ok twin h

theorem done {a : α} : Mirrors (σ := σ) m (Pure.pure a) (Pure.pure a) Equal := pure rfl

theorem fault (f : Fault) : Mirrors (σ := σ) m (Exec.fault f) (Exec.fault f) R :=
  fun _ _ twin => .error _ twin

theorem defect (d : Defect) : Mirrors (σ := σ) m (Exec.defect d) (Exec.defect d) R :=
  fun _ _ twin => .error _ twin

/-- A check that comes to the same on both sides. -/
theorem ofFault {a : Except Fault α} {b : Except Fault β} (h : Replies R a b) :
    Mirrors (σ := σ) m (Exec.ofFault a) (Exec.ofFault b) R := by
  cases h with
  | ok result => exact pure result
  | error f => exact fault f

theorem ofDefect (a : Except Defect α) :
    Mirrors (σ := σ) m (Exec.ofDefect a) (Exec.ofDefect a) Equal := by
  cases a with
  | ok a => exact done
  | error d => exact defect d

/-- What is read off the machine. -/
theorem get {f : Machine σ → Exec σ α} {g : Machine σ → Exec σ β}
    (h : ∀ M M', M.Twin m M' → Mirrors m (f M) (g M') R) :
    Mirrors m (MonadState.get >>= f) (MonadState.get >>= g) R :=
  fun M M' twin => h M M' twin M M' twin

theorem modify {f g : Machine σ → Machine σ}
    (h : ∀ M M', M.Twin m M' → (f M).Twin m (g M')) : Mirrors m (modify f) (modify g) Equal :=
  fun M M' twin => .ok (h M M' twin) rfl

theorem ite {P P' : Prop} [Decidable P] [Decidable P'] (hiff : P' ↔ P) {x x' : Exec σ α}
    {y y' : Exec σ β} (hpos : P → Mirrors m x y R) (hneg : ¬ P → Mirrors m x' y' R) :
    Mirrors m (if P then x else x') (if P' then y else y') R := by
  by_cases hP : P
  · rw [if_pos hP, if_pos (hiff.mpr hP)]
    exact hpos hP
  · rw [if_neg hP, if_neg (mt hiff.mp hP)]
    exact hneg hP

end Mirrors

/-! ### Changes of a machine -/

namespace Machine.Twin

variable {M M' : Machine σ} (h : M.Twin m M')
include h

theorem onHeap {f g : Heap → Heap} (hf : (f M.heap).Twin m.like m.aside (g M'.heap)) :
    (M.onHeap f).Twin m (M'.onHeap g) :=
  { h with heap := hf }

theorem onValues {f g : Stack Value → Stack Value}
    (hf : Value.Twins m.like (f M.memory.values).toList (g M'.memory.values).toList) :
    (M.onValues f).Twin m (M'.onValues g) :=
  { h with memory := { h.memory with values := hf } }

theorem onFrames {f g : Stack Frame → Stack Frame}
    (hf : List.Forall₂ (Frame.Twin m.like) (f M.memory.frames).toList
      (g M'.memory.frames).toList) :
    (M.onFrames f).Twin m (M'.onFrames g) :=
  { h with memory := { h.memory with frames := hf } }

/-- The top frames are changed. -/
theorem onTop {f f' : Frame} (hf : M.memory.frames.last? = some f)
    (hf' : M'.memory.frames.last? = some f') (φ ψ : Frame → Frame)
    (hφ : (φ f).Twin m.like (ψ f')) :
    (M.onFrames fun frames => frames.modifyLast φ).Twin m
      (M'.onFrames fun frames => frames.modifyLast ψ) := by
  refine h.onFrames ?_
  have hframes := h.memory.frames
  rw [Stack.last?_eq_getLast?] at hf hf'
  obtain ⟨below, hlist⟩ := List.getLast?_eq_some_iff.mp hf
  obtain ⟨below', hlist'⟩ := List.getLast?_eq_some_iff.mp hf'
  rw [Stack.toList_modifyLast hlist, Stack.toList_modifyLast hlist']
  rw [hlist, hlist'] at hframes
  have hbelow : List.Forall₂ (Frame.Twin m.like) below below' := by
    have hdropped := List.forall₂_take below.length hframes
    have hlength : below.length = below'.length := by simpa using hframes.length_eq
    rwa [List.take_left, hlength, List.take_left] at hdropped
  exact List.rel_append hbelow (.cons hφ .nil)

theorem onDelimiters {f g : Stack Nat → Stack Nat}
    (hf : (g M'.memory.delimiters).toList = (f M.memory.delimiters).toList) :
    (M.onDelimiters f).Twin m (M'.onDelimiters g) :=
  { h with memory := { h.memory with delimiters := hf } }

theorem onMarks {f g : Stack TryMark → Stack TryMark}
    (hf : List.Forall₂ (TryMark.Twin m.like) (f M.memory.marks).toList
      (g M'.memory.marks).toList) :
    (M.onMarks f).Twin m (M'.onMarks g) :=
  { h with memory := { h.memory with marks := hf } }

end Machine.Twin

/-! ### Elementary computations -/

namespace Mirrors

variable {v v' : Value} {vs vs' : List Value} {R : α → β → Prop}

theorem heap : Mirrors (σ := σ) m Exec.heap Exec.heap (Heap.Twin m.like m.aside) :=
  fun _ _ twin => .ok twin twin.heap

theorem onHeap {f g : Heap → Heap}
    (h : ∀ H H', H.Twin m.like m.aside H' → (f H).Twin m.like m.aside (g H')) :
    Mirrors (σ := σ) m (MonadState.modifyGet fun M => ((), M.onHeap f))
      (MonadState.modifyGet fun M => ((), M.onHeap g)) Equal :=
  modify fun _ _ twin => twin.onHeap (h _ _ twin.heap)

/-- An object is made. -/
theorem allocate {k : Kind} {f g : Heap → Ref k × Heap}
    (h : ∀ H H', H.Twin m.like m.aside H' →
      (g H').1 = (f H).1 ∧ (f H).2.Twin m.like m.aside (g H').2) :
    Mirrors (σ := σ) m (Exec.allocate f) (Exec.allocate g) Equal := by
  intro M M' twin
  obtain ⟨hsame, htwin⟩ := h _ _ twin.heap
  exact .ok { twin with heap := htwin } hsame

theorem frame : Mirrors (σ := σ) m Exec.frame Exec.frame (Frame.Twin m.like) := by
  refine get fun M M' twin => ?_
  have hlast := twin.memory.last_frame
  generalize M.memory.frames.last? = f at hlast
  generalize M'.memory.frames.last? = f' at hlast
  cases hlast with
  | none => exact defect _
  | some hf => exact pure hf

/-- The top frame is changed. -/
theorem modifyFrame {φ ψ : Frame → Frame}
    (h : ∀ f f', f.Twin m.like f' → (φ f).Twin m.like (ψ f')) :
    Mirrors (σ := σ) m (Exec.modifyFrame φ) (Exec.modifyFrame ψ) Equal := by
  intro M M' twin
  have hlast := twin.memory.last_frame
  generalize hf : M.memory.frames.last? = x at hlast
  generalize hf' : M'.memory.frames.last? = y at hlast
  cases hlast with
  | none =>
    simp only [Exec.modifyFrame, Exec.frame, Exec.bind_apply, Exec.get_apply, hf, hf']
    exact .error _ twin
  | some hff' =>
    rw [Exec.modifyFrame_apply hf, Exec.modifyFrame_apply hf']
    exact .ok (twin.onTop hf hf' φ ψ (h _ _ hff')) rfl

theorem height : Mirrors (σ := σ) m Exec.height Exec.height Equal :=
  fun _ _ twin => .ok twin twin.memory.height_eq

theorem heightLess (n : Nat) : Mirrors (σ := σ) m (Exec.heightLess n) (Exec.heightLess n) Equal :=
  height.andThen fun _ => ite Iff.rfl (fun _ => done) fun _ => defect _

theorem push (hv : v.Twin m.like v') : Mirrors (σ := σ) m (Exec.push v) (Exec.push v') Equal := by
  refine modify fun M M' twin => twin.onValues ?_
  rw [Stack.toList_push, Stack.toList_push]
  exact twin.memory.values.append (.cons hv .nil)

theorem pushAll (hvs : Value.Twins m.like vs vs') :
    Mirrors (σ := σ) m (Exec.pushAll vs) (Exec.pushAll vs') Equal := by
  refine modify fun M M' twin => twin.onValues ?_
  rw [Stack.toList_pushAll, Stack.toList_pushAll]
  exact twin.memory.values.append hvs

theorem pop : Mirrors (σ := σ) m Exec.pop Exec.pop (Value.Twin m.like) := by
  refine frame.bind fun f f' hf => height.andThen fun top => ?_
  rw [hf.rest]
  refine ite Iff.rfl (fun _ => fault _) fun _ => get fun M M' twin => ?_
  have hlast := twin.memory.values.getLast?
  rw [← Stack.last?_eq_getLast?, ← Stack.last?_eq_getLast?] at hlast
  generalize M.memory.values.last? = v at hlast
  generalize M'.memory.values.last? = v' at hlast
  cases hlast with
  | none => exact defect _
  | some hv =>
    refine (modify fun M M' twin => twin.onValues ?_).andThen fun _ => pure hv
    rw [Stack.toList_dropLast, Stack.toList_dropLast]
    exact twin.memory.values.dropLast

theorem popMany (n : Nat) : Mirrors (σ := σ) m (Exec.popMany n) (Exec.popMany n) Equal := by
  induction n with
  | zero => exact done
  | succ n ih => exact pop.bind fun _ _ _ => ih

theorem peek (offset : Nat) :
    Mirrors (σ := σ) m (Exec.peek offset) (Exec.peek offset) (Value.Twin m.like) := by
  refine frame.bind fun f f' hf => height.andThen fun top => ?_
  rw [hf.rest]
  refine ite Iff.rfl (fun _ => fault _) fun _ => get fun M M' twin => ?_
  have hreverse := List.forall₂_reverse_iff.mpr twin.memory.values
  have hget := Value.Twins.getElem? hreverse offset
  rw [Stack.top_eq, Stack.top_eq]
  generalize M.memory.values.toList.reverse[offset]? = v at hget
  generalize M'.memory.values.toList.reverse[offset]? = v' at hget
  cases hget with
  | none => exact defect _
  | some hv => exact pure hv

theorem replaceTop (count : Nat) (hv : v.Twin m.like v') :
    Mirrors (σ := σ) m (Exec.replaceTop count v) (Exec.replaceTop count v') Equal :=
  (popMany count).andThen fun _ => push hv

/-- The stack is cut off. -/
theorem truncate (n : Nat) :
    Mirrors (σ := σ) m
      (MonadState.modifyGet fun M => ((), M.onValues fun values => values.truncate n))
      (MonadState.modifyGet fun M => ((), M.onValues fun values => values.truncate n)) Equal := by
  refine modify fun M M' twin => twin.onValues ?_
  rw [Stack.toList_truncate, Stack.toList_truncate]
  exact List.forall₂_take n twin.memory.values

/-- The stack is filled up with nil. -/
theorem fillTo (n : Nat) :
    Mirrors (σ := σ) m
      (MonadState.modifyGet fun M => ((), M.onValues fun values => values.fillTo n))
      (MonadState.modifyGet fun M => ((), M.onValues fun values => values.fillTo n)) Equal := by
  refine modify fun M M' twin => twin.onValues ?_
  rw [Stack.toList_fillTo, Stack.toList_fillTo, twin.memory.height_eq]
  exact twin.memory.values.append (.replicate _ .nil)

theorem overwriteTop (hvs : Value.Twins m.like vs vs') :
    Mirrors (σ := σ) m (Exec.overwriteTop vs) (Exec.overwriteTop vs') Equal := by
  unfold Exec.overwriteTop
  rw [hvs.length_eq]
  refine (heightLess _).andThen fun start => modify fun M M' twin => twin.onValues ?_
  rw [Stack.toList_pushAll, Stack.toList_pushAll, Stack.toList_truncate, Stack.toList_truncate]
  exact Value.Twins.append (List.forall₂_take start twin.memory.values) hvs

theorem slot (i : Nat) : Mirrors (σ := σ) m (Exec.slot i) (Exec.slot i) (Value.Twin m.like) := by
  refine get fun M M' twin => ?_
  have hget := Value.Twins.getElem? twin.memory.values i
  rw [Stack.get_eq, Stack.get_eq]
  generalize M.memory.values.toList[i]? = v at hget
  generalize M'.memory.values.toList[i]? = v' at hget
  cases hget with
  | none => exact defect _
  | some hv => exact pure hv

theorem setSlot (i : Nat) (hv : v.Twin m.like v') :
    Mirrors (σ := σ) m (Exec.setSlot i v) (Exec.setSlot i v') Equal := by
  refine height.andThen fun top => ite Iff.rfl (fun _ => ?_) fun _ => defect _
  refine modify fun M M' twin => twin.onValues ?_
  rw [Stack.toList_write, Stack.toList_write]
  exact Value.Twins.set twin.memory.values i hv

/-- The run of values from a position upward. -/
theorem valuesFrom {f : List Value → Exec σ α} {g : List Value → Exec σ β} (start : Nat)
    (h : ∀ vs vs', Value.Twins m.like vs vs' → Mirrors m (f vs) (g vs') R) :
    Mirrors m (do f (← Exec.ofDefect ((← MonadState.get).memory.values.valuesFrom start)))
      (do g (← Exec.ofDefect ((← MonadState.get).memory.values.valuesFrom start))) R := by
  refine get fun M M' twin => ?_
  rw [Stack.valuesFrom_eq, Stack.valuesFrom_eq, twin.memory.height_eq]
  split
  · exact (pure (R := Value.Twins m.like) (List.forall₂_drop start twin.memory.values)).bind h
  · exact (defect (R := Value.Twins m.like) _).bind h

theorem takeFrom (start : Nat) :
    Mirrors (σ := σ) m (Exec.takeFrom start) (Exec.takeFrom start) (Value.Twins m.like) :=
  valuesFrom start fun _ _ hvs => (truncate start).andThen fun _ => pure hvs

theorem shape (sizes : Sizes) (base : Nat) (size : Option Nat) :
    Mirrors (σ := σ) m (Exec.shape sizes base size) (Exec.shape sizes base size) Equal := by
  cases size with
  | none => exact done
  | some size =>
    refine (ofDefect _).andThen fun goal => height.andThen fun top => ?_
    exact ite Iff.rfl (fun _ => truncate goal) fun _ => fillTo goal

/-! ### Delimiters -/

theorem pushDelimiter : Mirrors (σ := σ) m Exec.pushDelimiter Exec.pushDelimiter Equal := by
  refine modify fun M M' twin => twin.onDelimiters ?_
  rw [Stack.toList_push, Stack.toList_push, twin.memory.delimiters, twin.memory.height_eq]

theorem dropDelimiter :
    Mirrors (σ := σ) m (MonadState.modifyGet fun M => ((), M.onDelimiters Stack.dropLast))
      (MonadState.modifyGet fun M => ((), M.onDelimiters Stack.dropLast)) Equal := by
  refine modify fun M M' twin => twin.onDelimiters ?_
  rw [Stack.toList_dropLast, Stack.toList_dropLast, twin.memory.delimiters]

theorem checkDelimiter (position : Nat) :
    Mirrors (σ := σ) m (Exec.checkDelimiter position) (Exec.checkDelimiter position) Equal :=
  height.andThen fun _ => ite Iff.rfl (fun _ => fault _) fun _ => done

theorem ownsDelimiter {f f' : Frame} (hf : f.Twin m.like f') :
    Mirrors (σ := σ) m (Exec.ownsDelimiter f) (Exec.ownsDelimiter f') Equal := by
  refine get fun M M' twin => ?_
  rw [hf.rest, twin.memory.delimiters_size_eq]
  exact done

/-- The position of the innermost delimiter. -/
theorem topDelimiter {f g : Nat → Exec σ α} {R : α → α → Prop}
    (h : ∀ d, Mirrors m (f d) (g d) R) :
    Mirrors m (do f (← Exec.ofDefect ((← MonadState.get).memory.delimiters.top 0)))
      (do g (← Exec.ofDefect ((← MonadState.get).memory.delimiters.top 0))) R := by
  refine get fun M M' twin => ?_
  rw [Stack.top_eq, Stack.top_eq, twin.memory.delimiters]
  exact (ofDefect _).andThen h

theorem peekDelimiter : Mirrors (σ := σ) m Exec.peekDelimiter Exec.peekDelimiter Equal := by
  refine frame.bind fun f f' hf => (ownsDelimiter hf).andThen fun owns => ?_
  refine ite Iff.rfl (fun _ => topDelimiter checkDelimiter) fun _ => ?_
  rw [hf.rest]
  exact checkDelimiter _

theorem popDelimiter : Mirrors (σ := σ) m Exec.popDelimiter Exec.popDelimiter Equal := by
  refine frame.bind fun f f' hf => (ownsDelimiter hf).andThen fun owns => ?_
  refine ite Iff.rfl (fun _ => topDelimiter fun d => dropDelimiter.andThen fun _ =>
    checkDelimiter d) fun _ => ?_
  rw [hf.rest]
  exact checkDelimiter _

end Mirrors

end ScriptVm
