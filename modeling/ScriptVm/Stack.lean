import ScriptVm.Fault

/-!
# Growable stacks

The values, the frames, the delimiters and the try marks of a coroutine live on
stacks of one kind: a run of slots together with a capacity.  The capacity is
only told to those who ask.  It starts at one slot at least and doubles when a
push finds the stack full; nothing else changes it.

Slots are counted from the bottom.  An operation that is asked for a slot that
does not exist answers a `Defect`: the machine checks its operands first, so
such a request would be a mistake of the machine and not of a program.

The view of a stack is `toList`, bottom first, and each operation has one small
lemma about it.
-/

namespace ScriptVm

/-- A run of slots and the capacity reserved for it. -/
structure Stack (α : Type) where
  /-- The slots, bottom first. -/
  items : Array α
  /-- The number of slots reserved. -/
  capacity : Nat
  deriving DecidableEq, Repr

namespace Stack

variable {α : Type}

/-- The capacity of a stack for which none is asked. -/
def defaultCapacity : Nat := 128

/-- An empty stack with room for `capacity` slots, one at least. -/
def withCapacity (capacity : Nat) : Stack α :=
  ⟨#[], max capacity 1⟩

instance : Inhabited (Stack α) := ⟨withCapacity defaultCapacity⟩

/-- The slots, bottom first. -/
def toList (s : Stack α) : List α :=
  s.items.toList

/-- The number of slots in use. -/
def size (s : Stack α) : Nat :=
  s.items.size

/-- Whether no slot is in use. -/
def isEmpty (s : Stack α) : Bool :=
  s.items.isEmpty

/-- One more slot on top.  A full stack first doubles its capacity. -/
def push (s : Stack α) (a : α) : Stack α :=
  if s.items.size = s.capacity then ⟨s.items.push a, 2 * s.capacity⟩
  else ⟨s.items.push a, s.capacity⟩

/-- More slots on top, the last of the list uppermost. -/
def pushAll (s : Stack α) (values : List α) : Stack α :=
  values.foldl push s

/-- The top slot, if there is one. -/
def last? (s : Stack α) : Option α :=
  s.items.back?

/-- The stack without its top slot. -/
def dropLast (s : Stack α) : Stack α :=
  { s with items := s.items.pop }

/-- The stack with its top slot changed. -/
def modifyLast (s : Stack α) (f : α → α) : Stack α :=
  { s with items := s.items.modify (s.items.size - 1) f }

/-- The top slot and the stack without it. -/
def pop (s : Stack α) : Except Defect (α × Stack α) :=
  match s.last? with
  | some a => .ok (a, s.dropLast)
  | none => .error .stackUnderflow

/-- The slot `offset` places below the top. -/
def top (s : Stack α) (offset : Nat) : Except Defect α :=
  if h : offset < s.items.size then .ok s.items[s.items.size - 1 - offset]
  else .error .stackUnderflow

/-- The stack with the slot `offset` places below the top replaced. -/
def setTop (s : Stack α) (offset : Nat) (a : α) : Except Defect (Stack α) :=
  if offset < s.items.size then
    .ok { s with items := s.items.setIfInBounds (s.items.size - 1 - offset) a }
  else .error .stackUnderflow

/-- The slot at a position counted from the bottom. -/
def get (s : Stack α) (i : Nat) : Except Defect α :=
  if h : i < s.items.size then .ok s.items[i] else .error .outOfBounds

/-- The stack with the slot at a position counted from the bottom replaced, if there is one. -/
def write (s : Stack α) (i : Nat) (a : α) : Stack α :=
  { s with items := s.items.setIfInBounds i a }

/-- The stack with the slot at a position counted from the bottom replaced. -/
def set (s : Stack α) (i : Nat) (a : α) : Except Defect (Stack α) :=
  if i < s.items.size then .ok (s.write i a) else .error .outOfBounds

/-- The lowest `n` slots; all of them if there are fewer. -/
def truncate (s : Stack α) (n : Nat) : Stack α :=
  { s with items := s.items.shrink n }

/-- The slots from `start` upward. -/
def valuesFrom (s : Stack α) (start : Nat) : Except Defect (List α) :=
  if start ≤ s.items.size then .ok (s.items.extract start s.items.size).toList
  else .error .outOfBounds

/-- The slots from `start` upward, and the stack below them. -/
def splitOff (s : Stack α) (start : Nat) : Except Defect (List α × Stack α) :=
  match s.valuesFrom start with
  | .ok values => .ok (values, s.truncate start)
  | .error d => .error d

/-- The stack grown with default slots until it has `n` of them. -/
def fillTo [Inhabited α] (s : Stack α) (n : Nat) : Stack α :=
  s.pushAll (List.replicate (n - s.size) default)

/-- The stack without any slot; the capacity stays. -/
def clear (s : Stack α) : Stack α :=
  { s with items := #[] }

@[simp] theorem toList_withCapacity (c : Nat) : (withCapacity c : Stack α).toList = [] := rfl

@[simp] theorem length_toList (s : Stack α) : s.toList.length = s.size := by
  simp [toList, size]

@[simp] theorem items_push (s : Stack α) (a : α) : (s.push a).items = s.items.push a := by
  unfold push
  split <;> rfl

/-- Only a full stack gets more capacity. -/
theorem capacity_push (s : Stack α) (a : α) :
    (s.push a).capacity = if s.size = s.capacity then 2 * s.capacity else s.capacity := by
  unfold push size
  split <;> rfl

@[simp] theorem toList_push (s : Stack α) (a : α) : (s.push a).toList = s.toList ++ [a] := by
  simp [toList]

@[simp] theorem size_push (s : Stack α) (a : α) : (s.push a).size = s.size + 1 := by
  simp [size]

@[simp] theorem toList_pushAll (s : Stack α) (values : List α) :
    (s.pushAll values).toList = s.toList ++ values := by
  induction values generalizing s with
  | nil => simp [pushAll]
  | cons a rest ih =>
    have h := ih (s.push a)
    simp only [pushAll] at h
    simp [pushAll, h]

@[simp] theorem size_pushAll (s : Stack α) (values : List α) :
    (s.pushAll values).size = s.size + values.length := by
  rw [← length_toList, toList_pushAll, List.length_append, length_toList]

@[simp] theorem toList_truncate (s : Stack α) (n : Nat) :
    (s.truncate n).toList = s.toList.take n := by
  simp [toList, truncate]

@[simp] theorem toList_clear (s : Stack α) : s.clear.toList = [] := rfl

@[simp] theorem toList_fillTo [Inhabited α] (s : Stack α) (n : Nat) :
    (s.fillTo n).toList = s.toList ++ List.replicate (n - s.size) default := by
  simp [fillTo]

/-- Slots can be taken from a position exactly if it is not above the top. -/
theorem valuesFrom_eq (s : Stack α) (start : Nat) :
    s.valuesFrom start =
      if start ≤ s.size then .ok (s.toList.drop start) else .error .outOfBounds := by
  by_cases h : start ≤ s.items.size
  · simp [valuesFrom, size, toList, h, List.take_of_length_le]
  · simp [valuesFrom, size, h]

theorem size_eq_length (s : Stack α) : s.size = s.toList.length :=
  (length_toList s).symm

theorem last?_eq_getLast? (s : Stack α) : s.last? = s.toList.getLast? := by
  simp [last?, toList]

@[simp] theorem toList_dropLast (s : Stack α) : s.dropLast.toList = s.toList.dropLast := by
  simp [dropLast, toList]

/-- The top slot of a stack that has one. -/
theorem last?_of_toList {s : Stack α} {below : List α} {a : α} (h : s.toList = below ++ [a]) :
    s.last? = some a := by
  rw [last?_eq_getLast?, h, List.getLast?_concat]

/-- Changing the top slot of a stack that has one. -/
theorem toList_modifyLast {s : Stack α} {below : List α} {a : α} (h : s.toList = below ++ [a])
    (f : α → α) : (s.modifyLast f).toList = below ++ [f a] := by
  have hsize : s.items.size = below.length + 1 := by
    have hlen := congrArg List.length h
    simpa [toList] using hlen
  have hitems : s.items.toList = below ++ [a] := h
  simp [modifyLast, toList, hitems, hsize, List.modify_eq_take_cons_drop]

/-- The slot `offset` places below the top is the one of that number from above. -/
theorem top_eq (s : Stack α) (offset : Nat) :
    s.top offset = match s.toList.reverse[offset]? with
      | some a => .ok a
      | none => .error .stackUnderflow := by
  unfold top
  by_cases h : offset < s.items.size
  · have hlist : s.toList.reverse[offset]? = some s.items[s.items.size - 1 - offset] := by
      rw [List.getElem?_reverse (by simpa [toList] using h)]
      simp [toList, Nat.sub_right_comm, show s.items.size - offset - 1 < s.items.size by omega]
    rw [dif_pos h, hlist]
  · have hlist : s.toList.reverse[offset]? = none := by
      simpa [toList] using h
    rw [dif_neg h, hlist]

theorem get_eq (s : Stack α) (i : Nat) :
    s.get i = match s.toList[i]? with
      | some a => .ok a
      | none => .error .outOfBounds := by
  unfold get
  by_cases h : i < s.items.size
  · simp [h, toList]
  · have hlist : s.toList[i]? = none := by
      simpa [toList] using h
    rw [dif_neg h, hlist]

@[simp] theorem toList_write (s : Stack α) (i : Nat) (a : α) :
    (s.write i a).toList = s.toList.set i a := by
  simp [write, toList]

end Stack

end ScriptVm
