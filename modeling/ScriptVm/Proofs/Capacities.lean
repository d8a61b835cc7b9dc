import Mathlib.Algebra.Group.Nat.Defs
import Mathlib.Order.Bounds.Basic
import ScriptVm.Stack

/-!
# The capacity of a stack

A stack is asked for slots, one request after the other.  Its answers and its slots
are those of a plain list, so nobody can tell from them with which capacity it was
made.  The capacity itself follows the **high-water mark**, the greatest number of
slots that there have been: it is the one that the stack was made with, doubled just
as often as it took to hold so many.

A capacity that no object can have is refused before there is a stack (`Sizes.reserve`),
so here any number will do to start with.

A stack does not keep its high-water mark.  What carries the argument is that a push
which finds the stack full also finds it at its high-water mark, since the mark lies
between the number of slots and the capacity.

Main statements: `answer_eq` (a request means the same to a stack and to a list),
`CapacityFor.push` (one slot more), `marked_served` (a whole history) and
`list_with_capacity`.
-/

namespace ScriptVm

namespace Stack

variable {α σ : Type}

/-! ### Requests -/

/-- **What is asked of a stack.** -/
inductive Request (α : Type)
  | push (a : α)
  /-- One more slot, with the default in it. -/
  | pushSlot
  | pushAll (values : List α)
  | fillTo (n : Nat)
  | pop
  | top (offset : Nat)
  | setTop (offset : Nat) (a : α)
  | last
  | get (i : Nat)
  | set (i : Nat) (a : α)
  | truncate (n : Nat)
  | splitOff (start : Nat)
  | valuesFrom (start : Nat)
  | clear
  deriving DecidableEq, Repr

/-- **What a stack answers**, as the slots that the answer tells of, and what becomes of it. -/
def answer [Inhabited α] (s : Stack α) : Request α → Except Defect (List α × Stack α)
  | .push a => .ok ([a], s.push a)
  | .pushSlot => .ok ([default], s.push default)
  | .pushAll values => .ok ([], s.pushAll values)
  | .fillTo n => .ok ([], s.fillTo n)
  | .pop => s.pop.map fun (a, below) => ([a], below)
  | .top offset => (s.top offset).map fun a => ([a], s)
  | .setTop offset a => (s.setTop offset a).map fun s => ([], s)
  | .last => .ok (s.last?.toList, s)
  | .get i => (s.get i).map fun a => ([a], s)
  | .set i a => (s.set i a).map fun s => ([], s)
  | .truncate n => .ok ([], s.truncate n)
  | .splitOff start => s.splitOff start
  | .valuesFrom start => (s.valuesFrom start).map fun values => (values, s)
  | .clear => .ok ([], s.clear)

/-- **What a plain list answers**, with its last element on top, and what becomes of it. -/
def answerList [Inhabited α] (l : List α) : Request α → Except Defect (List α × List α)
  | .push a => .ok ([a], l ++ [a])
  | .pushSlot => .ok ([default], l ++ [default])
  | .pushAll values => .ok ([], l ++ values)
  | .fillTo n => .ok ([], l ++ List.replicate (n - l.length) default)
  | .pop => match l.getLast? with
    | some a => .ok ([a], l.dropLast)
    | none => .error .stackUnderflow
  | .top offset => match l.reverse[offset]? with
    | some a => .ok ([a], l)
    | none => .error .stackUnderflow
  | .setTop offset a =>
    if offset < l.length then .ok ([], l.set (l.length - 1 - offset) a)
    else .error .stackUnderflow
  | .last => .ok (l.getLast?.toList, l)
  | .get i => match l[i]? with
    | some a => .ok ([a], l)
    | none => .error .outOfBounds
  | .set i a => if i < l.length then .ok ([], l.set i a) else .error .outOfBounds
  | .truncate n => .ok ([], l.take n)
  | .splitOff start =>
    if start ≤ l.length then .ok (l.drop start, l.take start) else .error .outOfBounds
  | .valuesFrom start => if start ≤ l.length then .ok (l.drop start, l) else .error .outOfBounds
  | .clear => .ok ([], [])

section

variable (reply : σ → Request α → Except Defect (List α × σ))

/-- What a request leaves behind.  A refused one changes nothing. -/
def afterwards (s : σ) (q : Request α) : σ :=
  match reply s q with
  | .ok (_, next) => next
  | .error _ => s

/-- What requests leave behind, one after the other. -/
def served (s : σ) (requests : List (Request α)) : σ :=
  requests.foldl (afterwards reply) s

/-- The answers to requests, one after the other, refusals among them. -/
def answers (s : σ) : List (Request α) → List (Except Defect (List α))
  | [] => []
  | q :: rest => (reply s q).map Prod.fst :: answers (afterwards reply s q) rest

end

/-- **The high-water mark** of a list: its greatest length before, between and after some
requests. -/
def highWater [Inhabited α] (l : List α) : List (Request α) → Nat
  | [] => l.length
  | q :: rest => max l.length (highWater (afterwards answerList l q) rest)

theorem length_le_highWater [Inhabited α] (l : List α) (requests : List (Request α)) :
    l.length ≤ highWater l requests := by
  cases requests with
  | nil => exact Nat.le_refl _
  | cons q rest => exact Nat.le_max_left _ _

/-! ### The slots are those of a list -/

section

variable [Inhabited α]

/-- **A request means the same** to a stack and to its list of slots. -/
theorem answer_eq (s : Stack α) (q : Request α) :
    (s.answer q).map (Prod.map id toList) = answerList s.toList q := by
  cases q with
  | pop =>
    rw [answer, answerList, pop, last?_eq_getLast?]
    cases s.toList.getLast? with
    | none => rfl
    | some a => exact congrArg (fun l => Except.ok ([a], l)) s.toList_dropLast
  | top offset =>
    rw [answer, answerList, top_eq]
    cases s.toList.reverse[offset]? <;> rfl
  | setTop offset a =>
    have hsize : s.items.size = s.toList.length := rfl
    rw [answer, answerList, setTop, hsize]
    by_cases h : offset < s.toList.length
    · rw [if_pos h, if_pos h]
      exact congrArg (fun l => Except.ok ([], l)) (s.toList_write (s.toList.length - 1 - offset) a)
    · rw [if_neg h, if_neg h]
      rfl
  | get i =>
    rw [answer, answerList, get_eq]
    cases s.toList[i]? <;> rfl
  | set i a =>
    have hsize : s.items.size = s.toList.length := rfl
    rw [answer, answerList, set, hsize]
    by_cases h : i < s.toList.length
    · rw [if_pos h, if_pos h]
      exact congrArg (fun l => Except.ok ([], l)) (s.toList_write i a)
    · rw [if_neg h, if_neg h]
      rfl
  | splitOff start =>
    rw [answer, answerList, splitOff, valuesFrom_eq, length_toList]
    by_cases h : start ≤ s.size
    · rw [if_pos h, if_pos h]
      exact congrArg (fun l => Except.ok (_, l)) (s.toList_truncate start)
    · rw [if_neg h, if_neg h]
      rfl
  | valuesFrom start =>
    rw [answer, answerList, valuesFrom_eq, length_toList]
    split <;> rfl
  | last => simp [answer, answerList, Except.map, last?_eq_getLast?]
  | _ => simp [answer, answerList, Except.map]

/-- So does what it leaves behind. -/
theorem toList_afterwards (s : Stack α) (q : Request α) :
    (afterwards answer s q).toList = afterwards answerList s.toList q := by
  unfold afterwards
  rw [← answer_eq]
  cases s.answer q <;> rfl

theorem toList_served (s : Stack α) (requests : List (Request α)) :
    (served answer s requests).toList = served answerList s.toList requests := by
  induction requests generalizing s with
  | nil => rfl
  | cons q rest ih =>
    have hrest := ih (afterwards answer s q)
    rwa [toList_afterwards] at hrest

theorem answers_eq (s : Stack α) (requests : List (Request α)) :
    answers answer s requests = answers answerList s.toList requests := by
  induction requests generalizing s with
  | nil => rfl
  | cons q rest ih =>
    have hfirst : (s.answer q).map Prod.fst = (answerList s.toList q).map Prod.fst := by
      rw [← answer_eq]
      cases s.answer q <;> rfl
    rw [answers, answers, hfirst, ih, toList_afterwards]

end

/-! ### The capacity for a height -/

/-- **The capacity that a height takes**: the one at the start, doubled as often as it must be to
hold so many slots. -/
def CapacityFor (start height capacity : Nat) : Prop :=
  ∃ k, IsLeast {k | height ≤ start * 2 ^ k} k ∧ capacity = start * 2 ^ k

namespace CapacityFor

variable {start height height' capacity capacity' size : Nat}

theorem zero (start : Nat) : CapacityFor start 0 start :=
  ⟨0, ⟨Nat.zero_le _, fun _ _ => Nat.zero_le _⟩, by simp⟩

theorem height_le (h : CapacityFor start height capacity) : height ≤ capacity := by
  obtain ⟨k, hk, rfl⟩ := h
  exact hk.1

theorem unique (h : CapacityFor start height capacity) (h' : CapacityFor start height capacity') :
    capacity = capacity' := by
  obtain ⟨k, hk, rfl⟩ := h
  obtain ⟨k', hk', rfl⟩ := h'
  rw [hk.unique hk']

/-- A greater height takes no less. -/
theorem mono (h : CapacityFor start height capacity) (h' : CapacityFor start height' capacity')
    (hle : height ≤ height') : capacity ≤ capacity' := by
  obtain ⟨k, hk, rfl⟩ := h
  obtain ⟨k', hk', rfl⟩ := h'
  have hdoubled : k ≤ k' := hk.2 (le_trans hle hk'.1)
  exact Nat.mul_le_mul_left start (Nat.pow_le_pow_right (by decide) hdoubled)

/-- **One slot more.**  A full stack is as high as it has ever been, and doubles once. -/
theorem push (h : CapacityFor start height capacity) (hstart : 0 < start)
    (hsize : size ≤ height) :
    CapacityFor start (max height (size + 1)) (if size = capacity then 2 * capacity
      else capacity) := by
  have hheight := h.height_le
  obtain ⟨k, ⟨-, hleast⟩, hk⟩ := h
  split
  · next hfull =>
    have hpos : 0 < start * 2 ^ k := Nat.mul_pos hstart (Nat.two_pow_pos k)
    have hdouble : start * 2 ^ (k + 1) = 2 * capacity := by
      rw [hk, Nat.pow_succ, Nat.mul_comm (2 ^ k), Nat.mul_left_comm]
    refine ⟨k + 1, ⟨?_, fun j hj => ?_⟩, hdouble.symm⟩
    · show max height (size + 1) ≤ start * 2 ^ (k + 1)
      omega
    · have hroom : max height (size + 1) ≤ start * 2 ^ j := hj
      have hmore : start * 2 ^ k < start * 2 ^ j := by omega
      exact (Nat.pow_lt_pow_iff_right (by decide)).mp (Nat.lt_of_mul_lt_mul_left hmore)
  · next hroom =>
    refine ⟨k, ⟨?_, fun j hj => ?_⟩, hk⟩
    · show max height (size + 1) ≤ start * 2 ^ k
      omega
    · exact hleast (le_trans (Nat.le_max_left _ _) hj)

end CapacityFor

/-! ### The capacity follows the high-water mark -/

/-- **A stack that has been as high as `mark`** since it was made with a capacity. -/
structure Marked (start mark : Nat) (s : Stack α) : Prop where
  capacity : CapacityFor start mark s.capacity
  size_le : s.size ≤ mark

namespace Marked

variable {start mark : Nat} {s : Stack α}

theorem push (h : s.Marked start mark) (hstart : 0 < start) (a : α) :
    (s.push a).Marked start (max mark (s.push a).size) := by
  rw [size_push]
  constructor
  · rw [capacity_push]
    exact h.capacity.push hstart h.size_le
  · rw [size_push]
    exact Nat.le_max_right _ _

theorem pushAll (h : s.Marked start mark) (hstart : 0 < start) (values : List α) :
    (s.pushAll values).Marked start (max mark (s.pushAll values).size) := by
  induction values generalizing s mark with
  | nil =>
    have hmark : max mark (s.pushAll []).size = mark := Nat.max_eq_left h.size_le
    rw [hmark]
    exact h
  | cons a rest ih =>
    have hrest : (s.pushAll (a :: rest)).Marked start
        (max (max mark (s.push a).size) (s.pushAll (a :: rest)).size) := ih (h.push hstart a)
    have hless : (s.push a).size ≤ (s.pushAll (a :: rest)).size := by
      rw [size_push, size_pushAll, List.length_cons]
      omega
    rwa [Nat.max_assoc, Nat.max_eq_right hless] at hrest

/-- With the same capacity and no more slots, nothing is new. -/
theorem kept (h : s.Marked start mark) {s' : Stack α} (hcapacity : s'.capacity = s.capacity)
    (hsize : s'.size ≤ s.size) : s'.Marked start (max mark s'.size) := by
  have hle : s'.size ≤ mark := Nat.le_trans hsize h.size_le
  rw [Nat.max_eq_left hle]
  exact ⟨hcapacity ▸ h.capacity, hle⟩

end Marked

section

variable [Inhabited α] {start mark : Nat} {s : Stack α}

/-- **What a request makes of a stack**: it pushes some values, or it leaves the capacity alone and
adds no slot. -/
theorem answer_cases {q : Request α} {slots : List α} {next : Stack α}
    (h : s.answer q = .ok (slots, next)) :
    (∃ values, next = s.pushAll values) ∨ next.capacity = s.capacity ∧
      next.size ≤ s.size := by
  -- what only reads leaves the stack as it was
  have hread {β : Type} {x : Except Defect β} {f : β → List α}
      (h : x.map (fun b => (f b, s)) = .ok (slots, next)) : next = s := by
    cases x <;> cases h
    rfl
  cases q with
  | push a =>
    cases h
    exact .inl ⟨[a], rfl⟩
  | pushSlot =>
    cases h
    exact .inl ⟨[default], rfl⟩
  | pushAll values =>
    cases h
    exact .inl ⟨values, rfl⟩
  | fillTo n =>
    cases h
    exact .inl ⟨List.replicate (n - s.size) default, rfl⟩
  | pop =>
    right
    rw [answer, pop] at h
    cases hlast : s.last? with
    | none =>
      rw [hlast] at h
      cases h
    | some a =>
      rw [hlast] at h
      cases h
      exact ⟨rfl, by simp [dropLast, size]⟩
  | top offset | get i | valuesFrom start =>
    cases hread h
    exact .inr ⟨rfl, Nat.le_refl _⟩
  | setTop offset a =>
    right
    rw [answer, setTop] at h
    split at h <;> cases h
    exact ⟨rfl, by simp [size]⟩
  | set i a =>
    right
    rw [answer, set] at h
    split at h <;> cases h
    exact ⟨rfl, by simp [write, size]⟩
  | splitOff start =>
    right
    rw [answer, splitOff] at h
    split at h <;> cases h
    exact ⟨rfl, by simp [truncate, size]⟩
  | last =>
    cases h
    exact .inr ⟨rfl, Nat.le_refl _⟩
  | truncate n =>
    cases h
    exact .inr ⟨rfl, by simp [truncate, size]⟩
  | clear =>
    cases h
    exact .inr ⟨rfl, Nat.zero_le _⟩

/-- **One request.** -/
theorem Marked.afterwards (h : s.Marked start mark) (hstart : 0 < start) (q : Request α) :
    (afterwards answer s q).Marked start (max mark (Stack.afterwards answer s q).size) := by
  unfold Stack.afterwards
  cases hanswer : s.answer q with
  | error d => exact h.kept rfl (Nat.le_refl _)
  | ok result =>
    obtain ⟨slots, next⟩ := result
    rcases answer_cases hanswer with ⟨values, rfl⟩ | ⟨hcapacity, hsize⟩
    · exact h.pushAll hstart values
    · exact h.kept hcapacity hsize

/-- **A whole history.** -/
theorem Marked.served (h : s.Marked start mark) (hstart : 0 < start)
    (requests : List (Request α)) :
    (served answer s requests).Marked start (max mark (highWater s.toList requests)) := by
  induction requests generalizing s mark with
  | nil =>
    rw [highWater, length_toList, Nat.max_eq_left h.size_le]
    exact h
  | cons q rest ih =>
    have hrest := ih (h.afterwards hstart q)
    have hnow : s.toList.length ≤ mark := s.length_toList ▸ h.size_le
    have hnext := length_le_highWater (Stack.afterwards answer s q).toList rest
    have hmark : max (max mark (Stack.afterwards answer s q).size)
        (highWater (Stack.afterwards answer s q).toList rest)
          = max mark (highWater s.toList (q :: rest)) := by
      rw [highWater, ← toList_afterwards, ← length_toList]
      omega
    rw [hmark] at hrest
    exact hrest

/-- **A new stack after a history** has the capacity for its high-water mark. -/
theorem marked_served (capacity : Nat) (requests : List (Request α)) :
    (served answer (withCapacity capacity) requests).Marked (max capacity 1)
      (highWater [] requests) := by
  have hnew : (withCapacity capacity : Stack α).Marked (max capacity 1) 0 :=
    ⟨.zero _, Nat.le_refl _⟩
  have hserved := hnew.served (Nat.le_max_right _ _) requests
  rwa [toList_withCapacity, Nat.zero_max] at hserved

theorem highWater_le_append (l : List α) (before after : List (Request α)) :
    highWater l before ≤ highWater l (before ++ after) := by
  induction before generalizing l with
  | nil => exact length_le_highWater l after
  | cons q rest ih =>
    have hrest := ih (afterwards answerList l q)
    simp only [List.cons_append, highWater]
    omega

end

/-- **A stack is a list with a capacity that depends on its high-water mark only.**  Whatever
capacity it was made with, and whatever has been asked of it: all answers, refusals among them, and
the slots are those of a plain list, and so the same for every other capacity to start with.  The
capacity is the one it was made with, one at least, doubled as few times as it takes to hold the
greatest number of slots that there have been.  So it never shrinks, and there are never more
slots. -/
theorem list_with_capacity [Inhabited α] (capacity : Nat) (requests : List (Request α)) :
    let made : Nat → Stack α := withCapacity
    let s := served answer (made capacity) requests
    answers answer (made capacity) requests = answers answerList [] requests ∧
      s.toList = served answerList [] requests ∧
      (∀ other, answers answer (made other) requests = answers answer (made capacity) requests ∧
        (served answer (made other) requests).toList = s.toList) ∧
      (∃ k, IsLeast {k | highWater [] requests ≤ max capacity 1 * 2 ^ k} k ∧
        s.capacity = max capacity 1 * 2 ^ k) ∧
      (∀ requests', highWater [] requests' = highWater ([] : List α) requests →
        (served answer (made capacity) requests').capacity = s.capacity) ∧
      (∀ later, s.capacity ≤ (served answer (made capacity) (requests ++ later)).capacity) ∧
      s.size ≤ highWater [] requests ∧ highWater [] requests ≤ s.capacity := by
  intro made s
  have hanswers (c : Nat) : answers answer (made c) requests = answers answerList [] requests :=
    answers_eq (made c) requests
  have hslots (c : Nat) :
      (served answer (made c) requests).toList = served answerList [] requests :=
    toList_served (made c) requests
  obtain ⟨hcapacity, hsize⟩ := marked_served capacity requests
  refine ⟨hanswers capacity, hslots capacity, fun other => ⟨?_, ?_⟩, hcapacity, ?_, ?_, hsize,
    hcapacity.height_le⟩
  · rw [hanswers, hanswers]
  · rw [hslots, hslots]
  · intro requests' hsame
    have hother := (marked_served capacity requests').capacity
    rw [hsame] at hother
    exact hother.unique hcapacity
  · intro later
    exact hcapacity.mono (marked_served capacity (requests ++ later)).capacity
      (highWater_le_append [] requests later)

/-- Three slots made a capacity of four, which they leave behind when they go. -/
example :
    (served answer (withCapacity 0 : Stack Nat) [.pushAll [5, 6, 7], .clear, .push 8]).capacity
    = 4 := by decide

end Stack

end ScriptVm
