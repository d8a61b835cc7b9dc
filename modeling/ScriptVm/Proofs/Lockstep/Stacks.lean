import ScriptVm.Proofs.Exec
import ScriptVm.Proofs.Lockstep

/-!
# The elementary computations, in lockstep

The elementary computations on the stacks read and write at the top of the
layer that is running.  Each of them has a lemma about one machine (what it does
when the stacks are `c` standing on `p`) and, from that, one about two of them.

The activation of bytecode that is running is described by `Layer.Runs f k`: its
frame is laid out as `f` and it has `k` operands at least.  Popping an operand
may fail with a fault; what was seen by `peek` is there.
-/

namespace ScriptVm

variable {σ α β : Type}

namespace Machine.On

variable {M : Machine σ} {p c : Layer} {g : Frame}

theorem values (h : M.On p c) : M.memory.values.toList = p.values ++ c.values :=
  congrArg Layer.values h

theorem frames (h : M.On p c) :
    M.memory.frames.toList = p.frames ++ c.frames.map p.liftFrame :=
  congrArg Layer.frames h

theorem delimiters (h : M.On p c) :
    M.memory.delimiters.toList = p.delimiters ++ c.delimiters.map (p.values.length + ·) :=
  congrArg Layer.delimiters h

theorem marks (h : M.On p c) : M.memory.marks.toList = p.marks ++ c.marks.map p.liftMark :=
  congrArg Layer.marks h

theorem height (h : M.On p c) : M.memory.values.size = p.values.length + c.values.length := by
  rw [Stack.size_eq_length, h.values, List.length_append]

theorem delimiters_size (h : M.On p c) :
    M.memory.delimiters.size = p.delimiters.length + c.delimiters.length := by
  rw [Stack.size_eq_length, h.delimiters, List.length_append, List.length_map]

theorem marks_size (h : M.On p c) :
    M.memory.marks.size = p.marks.length + c.marks.length := by
  rw [Stack.size_eq_length, h.marks, List.length_append, List.length_map]

theorem frames_size (h : M.On p c) :
    M.memory.frames.size = p.frames.length + c.frames.length := by
  rw [Stack.size_eq_length, h.frames, List.length_append, List.length_map]

/-- The current frame is the topmost one of the layer. -/
theorem last_frame (h : M.On p c) (hg : c.frames = [g]) :
    M.memory.frames.last? = some (p.liftFrame g) := by
  rw [Stack.last?_eq_getLast?, h.frames, hg]
  simp

end Machine.On

namespace Alike

variable {t : Footing} {c : Layer} {M N : Machine σ}

/-- Both value stacks get the same values. -/
theorem onValues (h : Alike t c M N) {g g' : Stack Value → Stack Value} {vs : List Value}
    (hl : (g M.memory.values).toList = t.left.values ++ vs)
    (hr : (g' N.memory.values).toList = t.right.values ++ vs)
    (hone : t.left = t.right → g = g') :
    Alike t { c with values := vs } (M.onValues g) (N.onValues g') where
  left := Layer.ext hl h.left.frames h.left.delimiters h.left.marks
  right := Layer.ext hr h.right.frames h.right.delimiters h.right.marks
  heap := h.heap
  config := h.config
  state := h.state
  one := fun ho => by rw [h.one ho, hone (t.same ho)]

/-- Both call stacks get the same frames. -/
theorem onFrames (h : Alike t c M N) {g g' : Stack Frame → Stack Frame} {fs : List Frame}
    (hl : (g M.memory.frames).toList = t.left.frames ++ fs.map t.left.liftFrame)
    (hr : (g' N.memory.frames).toList = t.right.frames ++ fs.map t.right.liftFrame)
    (hone : t.one → g = g') :
    Alike t { c with frames := fs } (M.onFrames g) (N.onFrames g') where
  left := Layer.ext h.left.values hl h.left.delimiters h.left.marks
  right := Layer.ext h.right.values hr h.right.delimiters h.right.marks
  heap := h.heap
  config := h.config
  state := h.state
  one := fun ho => by rw [h.one ho, hone ho]

/-- Both delimiter stacks get the same delimiters. -/
theorem onDelimiters (h : Alike t c M N) {g g' : Stack Nat → Stack Nat} {ds : List Nat}
    (hl : (g M.memory.delimiters).toList
      = t.left.delimiters ++ ds.map (t.left.values.length + ·))
    (hr : (g' N.memory.delimiters).toList
      = t.right.delimiters ++ ds.map (t.right.values.length + ·))
    (hone : t.one → g = g') :
    Alike t { c with delimiters := ds } (M.onDelimiters g) (N.onDelimiters g') where
  left := Layer.ext h.left.values h.left.frames hl h.left.marks
  right := Layer.ext h.right.values h.right.frames hr h.right.marks
  heap := h.heap
  config := h.config
  state := h.state
  one := fun ho => by rw [h.one ho, hone ho]

/-- Both try stacks get the same marks. -/
theorem onMarks (h : Alike t c M N) {g g' : Stack TryMark → Stack TryMark} {ks : List TryMark}
    (hl : (g M.memory.marks).toList = t.left.marks ++ ks.map t.left.liftMark)
    (hr : (g' N.memory.marks).toList = t.right.marks ++ ks.map t.right.liftMark)
    (hone : t.one → g = g') :
    Alike t { c with marks := ks } (M.onMarks g) (N.onMarks g') where
  left := Layer.ext h.left.values h.left.frames h.left.delimiters hl
  right := Layer.ext h.right.values h.right.frames h.right.delimiters hr
  heap := h.heap
  config := h.config
  state := h.state
  one := fun ho => by rw [h.one ho, hone ho]

end Alike

/-- A stack that is not empty has a top slot. -/
theorem exists_concat {l : List α} (h : 0 < l.length) : ∃ below top, l = below ++ [top] :=
  have hne : l ≠ [] := List.ne_nil_of_length_pos h
  ⟨l.dropLast, l.getLast hne, (List.dropLast_concat_getLast hne).symm⟩

namespace Lockstep

variable {t : Footing} {pre : Layer → Prop} {f : Frame} {k : Nat}

/-! ### The height and the current frame -/

theorem height : Lockstep (σ := σ) t pre Exec.height Exec.height
    (Position t fun i c => i = c.values.length ∧ pre c) :=
  fun c _ _ alike hc =>
    .ok alike (.refl _) ⟨c.values.length, alike.left.height, alike.right.height, rfl, hc⟩

/-- A position some places below the top. -/
theorem heightLess {n : Nat} (hn : ∀ c, pre c → n ≤ c.values.length) :
    Lockstep (σ := σ) t pre (Exec.heightLess n) (Exec.heightLess n)
      (Position t fun i c => i + n = c.values.length ∧ pre c) := by
  intro c M N alike hc
  have hle := hn c hc
  have h (M : Machine σ) (p : Layer) (on : M.On p c) :
      Exec.heightLess n M = .ok (p.values.length + (c.values.length - n)) M := by
    show (if n ≤ M.memory.values.size then _ else _ : Exec σ Nat) M = _
    rw [on.height, if_pos (by omega), Nat.add_sub_assoc hle]
    rfl
  rw [h M _ alike.left, h N _ alike.right]
  exact .ok alike (.refl _) ⟨_, rfl, rfl, by omega, hc⟩

/-- The number of values above a position. -/
theorem heightAbove {i : Nat} (hi : ∀ c, pre c → i ≤ c.values.length) :
    Lockstep (σ := σ) t pre (Exec.heightLess (t.left.values.length + i))
      (Exec.heightLess (t.right.values.length + i))
      (Same fun n c => i + n = c.values.length ∧ pre c) := by
  intro c M N alike hc
  have hle := hi c hc
  have h (M : Machine σ) (p : Layer) (on : M.On p c) :
      Exec.heightLess (p.values.length + i) M = .ok (c.values.length - i) M := by
    show (if p.values.length + i ≤ M.memory.values.size then _ else _ : Exec σ Nat) M = _
    rw [on.height, if_pos (by omega), Nat.add_sub_add_left]
    rfl
  rw [h M _ alike.left, h N _ alike.right]
  exact .ok alike (.refl _) ⟨rfl, by omega, hc⟩

/-- A computation that is understood from each layer it may start with. -/
theorem ofLayer {x : Exec σ α} {y : Exec σ β} {post : α → β → Layer → Prop}
    (h : ∀ c, pre c → Lockstep t (· = c) x y post) : Lockstep t pre x y post :=
  fun c M N alike hc => h c hc c M N alike rfl

/-- What comes after a look at the only frame of the layer. -/
theorem onlyFrame {c₀ : Layer} {g : Frame} (hg : c₀.frames = [g]) {φ : Frame → Exec σ α}
    {ψ : Frame → Exec σ β} {post : α → β → Layer → Prop}
    (h : Lockstep t (· = c₀) (φ (t.left.liftFrame g)) (ψ (t.right.liftFrame g)) post) :
    Lockstep t (· = c₀) (Exec.frame >>= φ) (Exec.frame >>= ψ) post := by
  intro c M N alike hc
  obtain rfl := hc
  rw [Exec.bind_of_ok (Exec.frame_apply (alike.left.last_frame hg)),
    Exec.bind_of_ok (Exec.frame_apply (alike.right.last_frame hg))]
  exact h c M N alike rfl

/-- What comes after a look at the current frame. -/
theorem frame {φ : Frame → Exec σ α} {ψ : Frame → Exec σ β}
    {post : α → β → Layer → Prop} (h : ∀ ip nextIp progress, Lockstep t (Layer.Runs f k)
      (φ (t.left.liftFrame { f with ip, nextIp, progress }))
      (ψ (t.right.liftFrame { f with ip, nextIp, progress })) post) :
    Lockstep t (Layer.Runs f k) (Exec.frame >>= φ) (Exec.frame >>= ψ) post := by
  refine ofLayer fun c hc => ?_
  obtain ⟨ip, nextIp, progress, hg⟩ := hc.frames
  refine onlyFrame hg ?_
  intro c M N alike hc
  obtain rfl := hc
  exact h ip nextIp progress c M N alike hc

/-- A change of the only frame of the layer that does not depend on where the layer stands. -/
theorem modifyOnly {c₀ : Layer} {g : Frame} (hg : c₀.frames = [g]) {φ : Frame → Frame}
    (hlift : ∀ p : Layer, φ (p.liftFrame g) = p.liftFrame (φ g)) :
    Steady (σ := σ) t (· = c₀) (Exec.modifyFrame φ) fun _ c => c = { c₀ with
      frames := [φ g] } := by
  refine onlyFrame hg ?_
  intro c M N alike hc
  obtain rfl := hc
  have hlast (M : Machine σ) (p : Layer) (on : M.On p c) :
      (M.memory.frames.modifyLast φ).toList = p.frames ++ [φ g].map p.liftFrame := by
    have hframes : M.memory.frames.toList = p.frames ++ [p.liftFrame g] := by
      rw [on.frames, hg]
      rfl
    rw [Stack.toList_modifyLast hframes, hlift]
    rfl
  exact .ok (alike.onFrames (hlast M _ alike.left) (hlast N _ alike.right) fun _ => rfl)
    (.refl _) ⟨rfl, rfl⟩

/-- The frame goes on in its code.  What changes of it is no position on a stack. -/
theorem modifyFrame {φ : Frame → Frame}
    (hlift : ∀ p g, φ (Layer.liftFrame p g) = p.liftFrame (φ g))
    (hkeep : ∀ ip nextIp progress, ∃ ip' nextIp' progress',
      φ { f with ip, nextIp, progress }
        = { f with ip := ip', nextIp := nextIp', progress := progress' }) :
    Steady (σ := σ) t (Layer.Runs f k) (Exec.modifyFrame φ) fun _ => Layer.Runs f k := by
  refine ofLayer fun c hc => ?_
  obtain ⟨ip, nextIp, progress, hg⟩ := hc.frames
  refine (modifyOnly hg fun p => hlift p _).mono (fun _ h => h) ?_
  intro _ _ _ hc
  obtain ⟨rfl, rfl⟩ := hc
  obtain ⟨ip', nextIp', progress', hφ⟩ := hkeep ip nextIp progress
  exact ⟨rfl, { hc with frames := ⟨ip', nextIp', progress', by rw [hφ]⟩ }⟩

/-! ### Operands -/

/-- Values pushed on top. -/
theorem pushAll {c₀ : Layer} (vs : List Value) :
    Steady (σ := σ) t (· = c₀) (Exec.pushAll vs)
      fun _ c => c = { c₀ with values := c₀.values ++ vs } := by
  intro c M N alike hc
  obtain rfl := hc
  refine .ok (alike.onValues ?_ ?_ fun _ => rfl) (.refl _) ⟨rfl, rfl⟩
  · rw [Stack.toList_pushAll, alike.left.values, List.append_assoc]
  · rw [Stack.toList_pushAll, alike.right.values, List.append_assoc]

/-- Values pushed by an activation. -/
theorem pushMany (vs : List Value) :
    Steady (σ := σ) t (Layer.Runs f k) (Exec.pushAll vs) fun _ =>
      Layer.Runs f (k + vs.length) := by
  refine ofLayer fun c hc => (pushAll vs).mono (fun _ h => h) ?_
  intro _ _ _ hc
  obtain ⟨rfl, rfl⟩ := hc
  have := hc.operands
  exact ⟨rfl, { hc with operands := by simp only [List.length_append]; omega }⟩

theorem push (v : Value) :
    Steady (σ := σ) t (Layer.Runs f k) (Exec.push v) fun _ => Layer.Runs f (k + 1) :=
  pushMany [v]

/-- Popping takes the topmost operand, or is refused on both sides. -/
theorem pop : Steady (σ := σ) t (Layer.Runs f k) Exec.pop fun _ => Layer.Runs f (k - 1) := by
  intro c M N alike hc
  obtain ⟨ip, nextIp, progress, hg⟩ := hc.frames
  have hk := hc.operands
  by_cases hlow : c.values.length ≤ f.privateBase
  · have h (M : Machine σ) (p : Layer) (on : M.On p c) :
        Exec.pop M = .error (.fault .stackUnderflow) M :=
      Exec.pop_underflow (on.last_frame hg) (by simp [Layer.liftFrame, on.height, hlow])
    rw [h M _ alike.left, h N _ alike.right]
    exact .fault alike (.refl _)
  · obtain ⟨vs, v, hv⟩ := exists_concat (show 0 < c.values.length by omega)
    have hvalues (M : Machine σ) (p : Layer) (on : M.On p c) :
        M.memory.values.toList = (p.values ++ vs) ++ [v] := by
      rw [on.values, hv, List.append_assoc]
    have h (M : Machine σ) (p : Layer) (on : M.On p c) :
        Exec.pop M = .ok v (M.onValues Stack.dropLast) := by
      refine Exec.pop_apply (on.last_frame hg) ?_ ?_
      · simp only [Layer.liftFrame, on.height]
        omega
      · exact Stack.last?_of_toList (hvalues M p on)
    have hdrop (M : Machine σ) (p : Layer) (on : M.On p c) :
        M.memory.values.dropLast.toList = p.values ++ vs := by
      rw [Stack.toList_dropLast, hvalues M p on, List.dropLast_concat]
    rw [h M _ alike.left, h N _ alike.right]
    refine .ok (alike.onValues (hdrop M _ alike.left) (hdrop N _ alike.right) fun _ =>
      rfl) (.refl _) ⟨rfl, { hc with operands := ?_ }⟩
    simp only [hv, List.length_append, List.length_singleton] at hk hlow
    simp only
    omega

/-- Popping several operands, and pushing a value in their place. -/
theorem popMany (n : Nat) : Steady (σ := σ) t (Layer.Runs f k) (Exec.popMany n)
      fun _ => Layer.Runs f 0 := by
  induction n generalizing k with
  | zero => exact .pure fun c hc => ⟨rfl, hc.mono (Nat.zero_le _)⟩
  | succ n ih => exact pop.andThen fun _ => ih

theorem replaceTop (n : Nat) (v : Value) :
    Steady (σ := σ) t (Layer.Runs f k) (Exec.replaceTop n v) fun _ => Layer.Runs f 0 :=
  (popMany n).andThen fun _ => (push v).mono (fun _ h => h) fun _ _ _ h =>
    ⟨h.1, h.2.mono (by omega)⟩

/-- What can be looked at is an operand of the activation, and so is all above it. -/
theorem peek (offset : Nat) :
    Steady (σ := σ) t (Layer.Runs f k) (Exec.peek offset)
      fun _ => Layer.Runs f (max k (offset + 1)) := by
  intro c M N alike hc
  obtain ⟨ip, nextIp, progress, hg⟩ := hc.frames
  by_cases hlow : c.values.length ≤ f.privateBase + offset
  · have h (M : Machine σ) (p : Layer) (on : M.On p c) :
        Exec.peek offset M = .error (.fault .stackUnderflow) M :=
      Exec.peek_underflow (on.last_frame hg) (by simp [Layer.liftFrame, on.height]; omega)
    rw [h M _ alike.left, h N _ alike.right]
    exact .fault alike (.refl _)
  · obtain ⟨v, hv⟩ : ∃ v, c.values.reverse[offset]? = some v :=
      ⟨_, List.getElem?_eq_getElem (by simp; omega)⟩
    have h (M : Machine σ) (p : Layer) (on : M.On p c) : Exec.peek offset M = .ok v M := by
      refine Exec.peek_apply (on.last_frame hg) (by simp [Layer.liftFrame, on.height]; omega) ?_
      rw [on.values, List.reverse_append, List.getElem?_append_left (by simp; omega), hv]
    rw [h M _ alike.left, h N _ alike.right]
    refine .ok alike (.refl _) ⟨rfl, { hc with operands := ?_ }⟩
    have := hc.operands
    omega

/-- Writing over operands that are there. -/
theorem overwriteTop {vs : List Value} (hk : vs.length ≤ k) :
    Steady (σ := σ) t (Layer.Runs f k) (Exec.overwriteTop vs) fun _ => Layer.Runs f k := by
  refine (heightLess fun c hc => ?_).andAt fun i => ?_
  · have := hc.operands
    omega
  · intro c M N alike hc
    obtain ⟨hi, hc⟩ := hc
    have h (M : Machine σ) (p : Layer) (on : M.On p c) :
        ((M.memory.values.truncate (p.values.length + i)).pushAll vs).toList
          = p.values ++ (c.values.take i ++ vs) := by
      rw [Stack.toList_pushAll, Stack.toList_truncate, on.values, List.take_length_add_append,
        List.append_assoc]
    refine .ok (alike.onValues (h M _ alike.left) (h N _ alike.right) fun e => by rw [e]) (.refl _)
      ⟨rfl, { hc with operands := ?_ }⟩
    have := hc.operands
    simp only [List.length_append, List.length_take]
    omega

/-! ### Slots -/

/-- A slot of the layer. -/
theorem slot {i : Nat} (hi : ∀ c, pre c → i < c.values.length) :
    Lockstep (σ := σ) t pre (Exec.slot (t.left.values.length + i))
      (Exec.slot (t.right.values.length + i)) (Same fun _ => pre) := by
  intro c M N alike hc
  obtain ⟨v, hv⟩ : ∃ v, c.values[i]? = some v := ⟨_, List.getElem?_eq_getElem (hi c hc)⟩
  have h (M : Machine σ) (p : Layer) (on : M.On p c) :
      Exec.slot (p.values.length + i) M = .ok v M := by
    have hget : M.memory.values.toList[p.values.length + i]? = some v := by
      rw [on.values, List.getElem?_append_right (Nat.le_add_right _ _), Nat.add_sub_cancel_left, hv]
    simp [Exec.slot, Exec.bind_apply, Stack.get_eq, hget, Exec.ofDefect]
  rw [h M _ alike.left, h N _ alike.right]
  exact .ok alike (.refl _) ⟨rfl, hc⟩

/-- Writing a slot of the activation. -/
theorem setSlot {i : Nat} (hi : i < f.privateBase) (v : Value) :
    Lockstep (σ := σ) t (Layer.Runs f k) (Exec.setSlot (t.left.values.length + i) v)
      (Exec.setSlot (t.right.values.length + i) v) (Same fun _ => Layer.Runs f k) := by
  intro c M N alike hc
  have hoperands := hc.operands
  have h (M : Machine σ) (p : Layer) (on : M.On p c) :
      Exec.setSlot (p.values.length + i) v M
        = .ok () (M.onValues fun values => values.write (p.values.length + i) v) := by
    simp [Exec.setSlot, Exec.bind_apply, on.height, show i < c.values.length by omega]
  have hset (M : Machine σ) (p : Layer) (on : M.On p c) :
      (M.memory.values.write (p.values.length + i) v).toList = p.values ++ c.values.set i v := by
    rw [Stack.toList_write, on.values, List.set_append_right _ _ (Nat.le_add_right _ _),
      Nat.add_sub_cancel_left]
  rw [h M _ alike.left, h N _ alike.right]
  refine .ok (alike.onValues (hset M _ alike.left) (hset N _ alike.right) fun e => by rw [e])
    (.refl _) ⟨rfl, { hc with operands := by simpa using hoperands }⟩

/-! ### Runs of values -/

/-- Taking every value from a position upward. -/
theorem takeFrom {c₀ : Layer} {i : Nat} (hi : i ≤ c₀.values.length) :
    Lockstep (σ := σ) t (· = c₀) (Exec.takeFrom (t.left.values.length + i))
      (Exec.takeFrom (t.right.values.length + i))
      (Same fun vs c => vs = c₀.values.drop i ∧
        c = { c₀ with values := c₀.values.take i }) := by
  intro c M N alike hc
  obtain rfl := hc
  have h (M : Machine σ) (p : Layer) (on : M.On p c) :
      Exec.takeFrom (p.values.length + i) M
        = .ok (c.values.drop i)
            (M.onValues fun values => values.truncate (p.values.length + i)) := by
    simp [Exec.takeFrom, Exec.bind_apply, Exec.map_apply, Stack.valuesFrom_eq, on.height, hi,
      Exec.ofDefect, on.values, List.drop_length_add_append]
  have htake (M : Machine σ) (p : Layer) (on : M.On p c) :
      (M.memory.values.truncate (p.values.length + i)).toList = p.values ++ c.values.take i := by
    rw [Stack.toList_truncate, on.values, List.take_length_add_append]
  rw [h M _ alike.left, h N _ alike.right]
  exact .ok (alike.onValues (htake M _ alike.left) (htake N _ alike.right) fun e => by rw [e])
    (.refl _) ⟨rfl, rfl, rfl⟩

end Lockstep

/-- Results as a caller wants them: all of them, or cut off and filled up to a number. -/
def shaped : Option Nat → List Value → List Value
  | none, vs => vs
  | some n, vs => vs.take n ++ List.replicate (n - vs.length) .nil

@[simp] theorem length_shaped_some (n : Nat) (vs : List Value) :
    (shaped (some n) vs).length = n := by
  simp [shaped]
  omega

namespace Lockstep

variable {t : Footing} {pre : Layer → Prop} {f : Frame} {k : Nat}

/-- A stack fitted to a height has its upper part shaped. -/
theorem toList_fitTo {s : Stack Value} {below above : List Value} (h : s.toList = below ++ above)
    (n : Nat) : (Exec.fitTo (below.length + n) s).toList = below ++ shaped (some n) above := by
  have hsize : s.size = below.length + above.length := by
    rw [Stack.size_eq_length, h, List.length_append]
  unfold Exec.fitTo
  split
  · rw [Stack.toList_truncate, h, List.take_length_add_append]
    simp [shaped, show n - above.length = 0 by omega]
  · rw [Stack.toList_fillTo, h, hsize, Nat.add_sub_add_left, List.append_assoc]
    simp [shaped, List.take_of_length_le (show above.length ≤ n by omega), default]

/-- Shaping what lies above a position. -/
theorem shape {c₀ : Layer} {i : Nat} (hi : i ≤ c₀.values.length) (size : Option Nat) :
    Lockstep (σ := σ) t (· = c₀) (Exec.shape t.sizes (t.left.values.length + i) size)
      (Exec.shape t.sizes (t.right.values.length + i) size)
      (Same fun _ c =>
        c = { c₀ with values := c₀.values.take i ++ shaped size (c₀.values.drop i) }) := by
  intro c M N alike hc
  obtain rfl := hc
  cases size with
  | none => exact .ok alike (.refl _) ⟨rfl, by simp [shaped]⟩
  | some n =>
    have hfit (M : Machine σ) (p : Layer) (on : M.On p c) :
        (Exec.fitTo (p.values.length + i + n) M.memory.values).toList
          = p.values ++ (c.values.take i ++ shaped (some n) (c.values.drop i)) := by
      have hvalues : M.memory.values.toList = (p.values ++ c.values.take i) ++ c.values.drop i := by
        rw [on.values, List.append_assoc, List.take_append_drop]
      have h := toList_fitTo hvalues n
      rwa [List.length_append, List.length_take, Nat.min_eq_left hi, List.append_assoc] at h
    cases hl : t.sizes.add (t.left.values.length + i) n with
    | error d =>
      rw [Exec.shape_limit hl]
      exact .limitLeft (.inl ⟨_, _, hl⟩)
    | ok goal =>
      cases hr : t.sizes.add (t.right.values.length + i) n with
      | error d =>
        rw [Exec.shape_limit hr]
        exact .limitRight (.inl ⟨_, _, hr⟩)
      | ok goal' =>
        rw [Exec.shape_apply hl, Exec.shape_apply hr, Sizes.eq_add_of_add_eq_ok hl,
          Sizes.eq_add_of_add_eq_ok hr]
        exact .ok (alike.onValues (hfit M _ alike.left) (hfit N _ alike.right) fun e => by rw [e])
          (.refl _) ⟨rfl, rfl⟩

/-- A run of operands of the activation starts at `i`. -/
structure RunsFrom (f : Frame) (i : Nat) (c : Layer) : Prop where
  runs : Layer.Runs f 0 c
  low : f.privateBase ≤ i
  high : i ≤ c.values.length

/-- An activation that takes a run of its operands. -/
theorem takeRun {i : Nat} : Lockstep (σ := σ) t (RunsFrom f i)
    (Exec.takeFrom (t.left.values.length + i)) (Exec.takeFrom (t.right.values.length + i))
    (Same fun _ => Layer.Runs f 0) := by
  refine ofLayer fun c hc => (takeFrom hc.high).mono (fun _ h => h) ?_
  intro vs _ _ hc
  obtain ⟨rfl, -, rfl⟩ := hc
  have hlen : (c.values.take i).length = i := by
    rw [List.length_take, Nat.min_eq_left hc.high]
  exact ⟨rfl, { hc.runs with operands := by rw [hlen]; exact hc.low }⟩

/-- An activation that shapes a run of its operands. -/
theorem shapeRun {i : Nat} (size : Option Nat) : Lockstep (σ := σ) t (RunsFrom f i)
    (Exec.shape t.sizes (t.left.values.length + i) size)
    (Exec.shape t.sizes (t.right.values.length + i) size)
    (Same fun _ => Layer.Runs f 0) := by
  refine ofLayer fun c hc => (shape hc.high size).mono (fun _ h => h) ?_
  intro _ _ _ hc
  obtain ⟨rfl, rfl⟩ := hc
  refine ⟨rfl, { hc.runs with operands := ?_ }⟩
  have hlow := hc.low
  have hhigh := hc.high
  simp only [List.length_append, List.length_take]
  omega

/-! ### Delimiters -/

theorem pushDelimiter : Steady (σ := σ) t (Layer.Runs f k) Exec.pushDelimiter
      fun _ => Layer.Runs f k := by
  intro c M N alike hc
  have h (M : Machine σ) (p : Layer) (on : M.On p c) :
      (M.memory.delimiters.push M.memory.values.size).toList
        = p.delimiters ++ (c.delimiters ++ [c.values.length]).map (p.values.length + ·) := by
    simp [on.delimiters, on.height]
  refine .ok (alike.onDelimiters (h M _ alike.left) (h N _ alike.right) fun ho => ?_) (.refl _)
    ⟨rfl, { hc with delimiters := ?_ }⟩
  · rw [alike.one ho]
  · intro d hd
    have := hc.operands
    rcases List.mem_append.mp hd with hd | hd
    · exact hc.delimiters d hd
    · rw [List.mem_singleton.mp hd]
      omega

/-- A delimiter counts if its run was not popped away. -/
theorem checkDelimiter {i : Nat} (hi : f.privateBase ≤ i) :
    Lockstep (σ := σ) t (Layer.Runs f k) (Exec.checkDelimiter (t.left.values.length + i))
      (Exec.checkDelimiter (t.right.values.length + i)) (Position t (RunsFrom f)) := by
  refine height.andAt fun j => ite (by omega) (fun _ => .fault) fun hj => .pure ?_
  intro c hc
  obtain ⟨rfl, hc⟩ := hc
  exact ⟨i, rfl, rfl, hc.mono (Nat.zero_le _), hi, by omega⟩

theorem peekDelimiter : Lockstep (σ := σ) t (Layer.Runs f k) Exec.peekDelimiter Exec.peekDelimiter
    (Position t (RunsFrom f)) := by
  intro c M N alike hc
  obtain ⟨ip, nextIp, progress, hg⟩ := hc.frames
  by_cases hown : f.delimiterBase < c.delimiters.length
  · obtain ⟨ds, d, hd⟩ := exists_concat (Nat.zero_lt_of_lt hown)
    have h (M : Machine σ) (p : Layer) (on : M.On p c) :
        Exec.peekDelimiter M = Exec.checkDelimiter (p.values.length + d) M := by
      refine Exec.peekDelimiter_own (on.last_frame hg) ?_ ?_
      · simp [Layer.liftFrame, on.delimiters_size, hown]
      · simp [on.delimiters, hd]
    rw [h M _ alike.left, h N _ alike.right]
    exact checkDelimiter (hc.delimiters d (by simp [hd])) c M N alike hc
  · have h (M : Machine σ) (p : Layer) (on : M.On p c) :
        Exec.peekDelimiter M = Exec.checkDelimiter (p.values.length + f.privateBase) M :=
      Exec.peekDelimiter_fallback (on.last_frame hg)
        (by simp [Layer.liftFrame, on.delimiters_size]; omega)
    rw [h M _ alike.left, h N _ alike.right]
    exact checkDelimiter (Nat.le_refl _) c M N alike hc

theorem popDelimiter : Lockstep (σ := σ) t (Layer.Runs f k) Exec.popDelimiter Exec.popDelimiter
    (Position t (RunsFrom f)) := by
  intro c M N alike hc
  obtain ⟨ip, nextIp, progress, hg⟩ := hc.frames
  by_cases hown : f.delimiterBase < c.delimiters.length
  · obtain ⟨ds, d, hd⟩ := exists_concat (Nat.zero_lt_of_lt hown)
    have h (M : Machine σ) (p : Layer) (on : M.On p c) :
        Exec.popDelimiter M
          = Exec.checkDelimiter (p.values.length + d) (M.onDelimiters Stack.dropLast) := by
      refine Exec.popDelimiter_own (on.last_frame hg) ?_ ?_
      · simp [Layer.liftFrame, on.delimiters_size, hown]
      · simp [on.delimiters, hd]
    have hdrop (M : Machine σ) (p : Layer) (on : M.On p c) :
        M.memory.delimiters.dropLast.toList
          = p.delimiters ++ ds.map (p.values.length + ·) := by
      rw [Stack.toList_dropLast, on.delimiters, hd, List.map_append, ← List.append_assoc]
      exact List.dropLast_concat
    rw [h M _ alike.left, h N _ alike.right]
    have alike' := alike.onDelimiters (hdrop M _ alike.left) (hdrop N _ alike.right) fun _ => rfl
    refine checkDelimiter (k := k) (hc.delimiters d (by simp [hd])) _ _ _ alike' { hc with
      delimiters := fun e he => hc.delimiters e ?_ }
    rw [hd]
    exact List.mem_append_left _ he
  · have h (M : Machine σ) (p : Layer) (on : M.On p c) :
        Exec.popDelimiter M = Exec.checkDelimiter (p.values.length + f.privateBase) M :=
      Exec.popDelimiter_fallback (on.last_frame hg)
        (by simp [Layer.liftFrame, on.delimiters_size]; omega)
    rw [h M _ alike.left, h N _ alike.right]
    exact checkDelimiter (Nat.le_refl _) c M N alike hc

/-! ### The heap -/

/-- A change of the heap that leaves the coroutines alone. -/
theorem onHeap {φ : Heap → Heap} (hφ : ∀ h, (φ h).coroutines = h.coroutines) :
    Steady (σ := σ) t pre (modify fun m => m.onHeap φ) fun _ => pre := by
  intro c M N alike hc
  refine .ok (c := c) ?_ (.of_coroutines_eq (hφ M.heap)) ⟨rfl, hc⟩
  exact { alike with
    heap := congrArg φ alike.heap
    one := fun ho => by rw [alike.one ho] }

/-- A change of the heap that has a result. -/
theorem getHeap {φ : Heap → α × Heap} (hφ : ∀ h, Heap.Grows h (φ h).2) :
    Steady (σ := σ) t pre
      (modifyGet fun m =>
        let (a, h) := φ m.heap
        (a, { m with heap := h }))
      fun _ => pre := by
  intro c M N alike hc
  refine .ok (c := c) ?_ (hφ M.heap) ⟨by rw [alike.heap], hc⟩
  exact { alike with
    heap := by rw [alike.heap]
    one := fun ho => by rw [alike.one ho] }

/-- Making an object. -/
theorem allocate {κ : Kind} {make : Heap → Ref κ × Heap}
    (hmake : ∀ h, Heap.Grows h (make h).2) :
    Steady (σ := σ) t pre (Exec.allocate make) fun _ => pre :=
  getHeap hmake

end Lockstep

end ScriptVm
