import ScriptVm.Proofs.OperatorContract

/-!
# The faults of operators

When does an operator instruction fault, and how?  Each of its phases either ends, or
calls a metamethod, or is a fault of its own; and what goes wrong in the called function
is no fault of the operator.

The types of the operands tell whether an operator has a native path
(`BinaryOp.native`).  Two things go wrong without a metamethod: an integer is divided
by zero, and there is neither a native path nor a metamethod.  `Equ` and `Neq` have
identity to fall back on.

Main statements: `Operation.binary_faults`, `Reentry.order_faults`,
`Operation.unary_faults`, and all of them in `operator_faults`.
-/

namespace ScriptVm

variable {σ : Type}

/-! ### Native paths -/

/-- Integers and floats are numbers. -/
def ValueType.numeric : ValueType → Bool
  | integer | float => true
  | _ => false

/-- Whether a binary operator has a native path for operands of these types. -/
def BinaryOp.native : BinaryOp → ValueType → ValueType → Bool
  | add, s, t | lss, s, t | gtr, s, t | leq, s, t | geq, s, t =>
    s.numeric && t.numeric || s = .string && t = .string
  | sub, s, t | mul, s, t | div, s, t => s.numeric && t.numeric
  | mod, s, t | lsh, s, t | rsh, s, t => s = .integer && t = .integer
  | and, s, t | orr, s, t | xor, s, t => s = t && (s = .integer || s = .boolean)
  | equ, s, t | neq, s, t =>
    s.numeric && t.numeric ||
      s = t && (s = .nil || s = .boolean || s = .string || s = .function)

/-- Whether a unary operator has a native path for an operand of this type. -/
def UnaryOp.native : UnaryOp → ValueType → Bool
  | not, t => t = .integer || t = .boolean
  | neg, t => t.numeric
  | typeof, _ | isNil, _ => true

namespace Operator

variable {h : Heap} {o : BinaryOp} {u : UnaryOp} {x y : Value}

theorem arithmetic_isSome (ints : Int64 → Int64 → Int64) (floats : Float → Float → Float)
    (x y : Value) : (arithmetic ints floats x y).isSome = (x.type.numeric && y.type.numeric) := by
  cases x <;> cases y <;> rfl

theorem bitwise_isSome (ints : Int64 → Int64 → Int64) (bools : Bool → Bool → Bool)
    (x y : Value) :
    (bitwise ints bools x y).isSome
      = (x.type = y.type && (x.type = .integer || x.type = .boolean)) := by
  cases x <;> cases y <;> rfl

theorem nativeOrder?_isSome (x y : Value) :
    (nativeOrder? x y).isSome
      = (x.type.numeric && y.type.numeric || x.type = .string && y.type = .string) := by
  cases x <;> cases y <;> rfl

theorem nativeEquals?_isSome (h : Heap) (x y : Value) :
    (nativeEquals? h x y).isSome = (x.type.numeric && y.type.numeric ||
      x.type = y.type && (x.type = .nil || x.type = .boolean || x.type = .string ||
        x.type = .function)) := by
  cases x <;> cases y <;> rfl

/-- An integer is divided by zero. -/
structure DividesByZero (o : BinaryOp) (x y : Value) : Prop where
  operator : o = .div ∨ o = .mod
  left : x.type = .integer
  right : y = .int 0

/-- What the native path of a binary operator comes to: a fault if it divides by zero, and otherwise
a value where the types of the operands have such a path. -/
def Paths (o : BinaryOp) (x y : Value) (result : Except Fault (Option Value)) : Prop :=
  (∃ v, result = .ok v ∧ v.isSome = o.native x.type y.type ∧ ¬ DividesByZero o x y) ∨
    result = .error (.divisionByZero o) ∧ DividesByZero o x y

theorem Paths.of_isSome {v : Option Value} (hdivides : o ≠ .div ∧ o ≠ .mod)
    (hv : v.isSome = o.native x.type y.type) : Paths o x y (.ok v) :=
  .inl ⟨v, rfl, hv, fun zero => zero.operator.elim hdivides.1 hdivides.2⟩

/-- The comparisons have one native path. -/
theorem Paths.of_comparison {verdict : Ordering → Bool} (hdivides : o ≠ .div ∧ o ≠ .mod)
    (hnative : o.native x.type y.type
      = (x.type.numeric && y.type.numeric || x.type = .string && y.type = .string)) :
    Paths o x y (.ok (comparison verdict x y)) := by
  refine .of_isSome hdivides ?_
  rw [comparison, Option.isSome_map, nativeOrder?_isSome, hnative]

/-- A quotient of integers, unless the divisor is zero. -/
theorem Paths.of_quotient {a b : Int64} {quotient : Value} (ho : o = .div ∨ o = .mod) :
    Paths o (.int a) (.int b)
      (if b = 0 then .error (.divisionByZero o) else .ok (some quotient)) := by
  by_cases hb : b = 0
  · rw [if_pos hb, hb]
    exact .inr ⟨rfl, ho, rfl, rfl⟩
  · rw [if_neg hb]
    refine .inl ⟨_, rfl, ?_, fun zero => hb (Value.int.inj zero.right)⟩
    rcases ho with rfl | rfl <;> rfl

/-- Operands that are not two integers are not divided by zero. -/
theorem Paths.of_not_integers {v : Option Value}
    (hxy : ¬ (x.type = .integer ∧ y.type = .integer))
    (hv : v.isSome = o.native x.type y.type) : Paths o x y (.ok v) :=
  .inl ⟨v, rfl, hv, fun zero => hxy ⟨zero.left, zero.right ▸ rfl⟩⟩

/-- **The native paths of the binary operators.** -/
theorem binary_paths (h : Heap) (o : BinaryOp) (x y : Value) : Paths o x y (binary h o x y) := by
  cases o with
  | add => cases x <;> cases y <;> exact .of_isSome (by decide) rfl
  | sub | mul => exact .of_isSome (by decide) (arithmetic_isSome _ _ x y)
  | div =>
    cases x <;> cases y
    case int.int a b => exact .of_quotient (.inl rfl)
    all_goals exact .of_not_integers (by simp [Value.type]) rfl
  | mod =>
    cases x <;> cases y
    case int.int a b => exact .of_quotient (.inr rfl)
    all_goals exact .of_not_integers (by simp [Value.type]) rfl
  | lsh | rsh => cases x <;> cases y <;> exact .of_isSome (by decide) rfl
  | and | orr | xor => exact .of_isSome (by decide) (bitwise_isSome _ _ x y)
  | lss | gtr | leq | geq => exact .of_comparison (by decide) rfl
  | equ | neq =>
    refine .of_isSome (by decide) ?_
    rw [Option.isSome_map, nativeEquals?_isSome]
    rfl

/-- A binary operator has a native path for the operands of some types only. -/
theorem binary_eq_none_iff : binary h o x y = .ok none ↔ o.native x.type y.type = false := by
  rcases binary_paths h o x y with ⟨v, hv, hnative, -⟩ | ⟨herror, zero⟩
  · rw [hv, ← hnative]
    cases v <;> simp
  · rw [herror]
    have hy : y.type = .integer := zero.right ▸ rfl
    rcases zero.operator with rfl | rfl <;> simp [BinaryOp.native, ValueType.numeric, zero.left, hy]

/-- So has a unary operator. -/
theorem unary_eq_none_iff : unary u x = none ↔ u.native x.type = false := by
  cases u <;> cases x <;> simp [unary, UnaryOp.native, ValueType.numeric, Value.type]

end Operator

/-! ### Faults of a step -/

namespace Machine

variable {host : Host σ} {M N P : Machine σ} {own : Fault → Prop} {method? : Option Value}
  {method : Value} {kept args : List Value}

/-- **The next step calls a metamethod** from the machine `P`, with the arguments `args` on top of
the values `kept`. -/
structure Calls (host : Host σ) (M : Machine σ) (method : Value) (kept args : List Value)
    (P : Machine σ) : Prop where
  values : P.memory.view.values = kept ++ args
  heap : P.heap = M.heap
  step : Exec.step host M = (do
    Exec.invoke host method kept.length (some 1)
    return none : Exec σ (Option Exit)) P

/-- **The faults of the next step** are its own ones; or it calls a metamethod with the arguments
`args`, if there is one to call, and they are what the call goes wrong with. -/
def FaultsBy (host : Host σ) (M : Machine σ) (own : Fault → Prop) (method? : Option Value)
    (args : List Value) : Prop :=
  ∀ f, (∃ N, Exec.step host M = .error (.fault f) N) ↔
    own f ∨ ∃ method kept P N, method? = some method ∧ M.Calls host method kept args P ∧
      Exec.invoke host method kept.length (some 1) P = .error (.fault f) N

theorem FaultsBy.of_ok {e : Option Exit} (hstep : Exec.step host M = .ok e N)
    (hown : ∀ f, ¬ own f) (hmethod : method? = none) : M.FaultsBy host own method? args := by
  intro f
  simp [hstep, hown f, hmethod]

theorem FaultsBy.of_fault {g : Fault} (hstep : Exec.step host M = .error (.fault g) N)
    (hown : ∀ f, own f ↔ f = g) (hmethod : method? = none) :
    M.FaultsBy host own method? args := by
  intro f
  simp [hstep, hown f, hmethod, eq_comm]

theorem FaultsBy.of_call (hcalls : M.Calls host method kept args P) (hown : ∀ f, ¬ own f)
    (hmethod : method? = some method) : M.FaultsBy host own method? args := by
  have faults {kept : List Value} {P L : Machine σ} (hcalls : M.Calls host method kept args P)
      {f : Fault} : Exec.step host M = .error (.fault f) L ↔
        Exec.invoke host method kept.length (some 1) P = .error (.fault f) L := by
    rw [hcalls.step, Exec.bind_apply]
    cases Exec.invoke host method kept.length (some 1) P <;> simp
  intro f
  constructor
  · rintro ⟨L, hL⟩
    exact .inr ⟨method, kept, P, L, hmethod, hcalls, (faults hcalls).mp hL⟩
  · rintro (hf | ⟨method', kept', P', L, hmethod', hcalls', hL⟩)
    · exact absurd hf (hown f)
    · obtain rfl : method = method' := Option.some.inj (hmethod.symm.trans hmethod')
      exact ⟨L, (faults hcalls').mpr hL⟩

end Machine

/-! ### First phases -/

/-- **The faults of its own** that a binary operator has in its first phase. -/
inductive BinaryOp.Faulty (h : Heap) (o : BinaryOp) (x y : Value) : Fault → Prop
  | zero (divides : Operator.DividesByZero o x y) : Faulty h o x y (.divisionByZero o)
  | operands (missing : Operator.binary h o x y = .ok none) (inequality : o ≠ .equ ∧ o ≠ .neq)
      (left : ¬ h.Overloads x (Overload.ofBinary o).name)
      (right : ¬ h.Overloads y (Overload.ofBinary o).name) :
      Faulty h o x y (.invalidBinaryOperand o x.type y.type)

/-- The metamethod that a binary operator calls, if any: it has no native path, and the metatable of
the left operand is asked first. -/
def BinaryOp.method? (h : Heap) (o : BinaryOp) (x y : Value) : Option Value :=
  if o.native x.type y.type then none
  else (h.metamethod x (Overload.ofBinary o).name).or (h.metamethod y (Overload.ofBinary o).name)

/-- The arguments of the metamethod. -/
def BinaryOp.arguments (o : BinaryOp) (x y : Value) : List Value :=
  if o = .gtr ∨ o = .geq then [y, x] else [x, y]

/-- The metamethod that a unary operator calls, if any. -/
def UnaryOp.method? (h : Heap) (u : UnaryOp) (x : Value) : Option Value :=
  if u.native x.type then none else h.metamethod x (Overload.ofUnary u)

namespace BinaryOp

variable {h : Heap} {o : BinaryOp} {x y : Value} {f : Fault}

theorem Faulty.not_of_value {v : Value} (hvalue : Operator.binary h o x y = .ok (some v))
    (hf : o.Faulty h x y f) : False := by
  cases hf with
  | zero divides =>
    rcases Operator.binary_paths h o x y with ⟨_, _, _, sound⟩ | ⟨herror, -⟩
    · exact sound divides
    · rw [herror] at hvalue
      cases hvalue
  | operands missing =>
    rw [missing] at hvalue
    cases hvalue

/-- Dividing by zero is the only fault of an operator that does it, whatever overloads there are. -/
theorem faulty_iff_of_zero (divides : Operator.DividesByZero o x y) :
    o.Faulty h x y f ↔ f = .divisionByZero o := by
  constructor
  · intro hf
    cases hf with
    | zero => rfl
    | operands missing =>
      rcases Operator.binary_paths h o x y with ⟨_, _, _, sound⟩ | ⟨herror, -⟩
      · exact absurd divides sound
      · rw [herror] at missing
        cases missing
  · rintro rfl
    exact .zero divides

theorem not_divides_of_missing (hmissing : Operator.binary h o x y = .ok none) :
    ¬ Operator.DividesByZero o x y := by
  intro divides
  rcases Operator.binary_paths h o x y with ⟨_, _, _, sound⟩ | ⟨herror, -⟩
  · exact sound divides
  · rw [herror] at hmissing
    cases hmissing

/-- The arguments are the operands in the order of the call. -/
theorem arguments_eq (o : BinaryOp) (x y : Value) :
    ∃ a b, (Overload.ofBinary o).order x y = (a, b) ∧ o.arguments x y = [a, b] := by
  rw [Overload.order_ofBinary, arguments]
  split
  · exact ⟨y, x, rfl, rfl⟩
  · exact ⟨x, y, rfl, rfl⟩

/-- `Equ` and `Neq` have no faults of their own. -/
theorem Faulty.not_of_equality (ho : o = .equ ∨ o = .neq) : ¬ o.Faulty h x y f := by
  intro hf
  cases hf with
  | zero divides => rcases ho with rfl | rfl <;> exact absurd divides.operator (by decide)
  | operands _ inequality => exact ho.elim inequality.1 inequality.2

end BinaryOp

/-- None of two metamethods is there. -/
theorem Heap.or_metamethod_eq_none {h : Heap} {x y : Value} {name : String} :
    (h.metamethod x name).or (h.metamethod y name) = none ↔
      ¬ h.Overloads x name ∧ ¬ h.Overloads y name := by
  rw [Option.or_eq_none_iff, metamethod_eq_none, metamethod_eq_none]

namespace Operation

variable {host : Host σ} {s : Operation σ} {o : BinaryOp} {u : UnaryOp} {x y : Value}
  {phase after phase' : Nat} {N L : Machine σ} {method : Value} {U W : List Value}

/-- A step that comes to the call of a metamethod. -/
theorem Holds.calls {z : Exec σ Unit} {K : Machine σ} (hK : s.Holds phase after (U ++ W) N K)
    (hstep : Exec.step host N = (do
      z
      return none : Exec σ (Option Exit)) L)
    (hz : z L = Exec.callMethod host method W.length 1 phase' K) :
    ∃ P, s.Holds phase phase' (U ++ W) N P ∧ N.Calls host method (s.kept ++ U) W P := by
  obtain ⟨P, hP, hinvoke⟩ := hK.callMethod host method 1 phase'
  refine ⟨P, hP, ⟨?_, hP.heap, ?_⟩⟩
  · rw [hP.view]
    exact (List.append_assoc _ _ _).symm
  · rw [hstep, Exec.bind_apply, hz, hinvoke, Exec.bind_apply]

/-- **A binary operator that finds a metamethod** calls it.  `Leq` and `Geq` call it on a copy of
the operands. -/
theorem binary_calls (host : Host σ) (hop : s.op = .binary o) (hxy : s.operands = [x, y])
    (hmethod : o.method? s.machine.heap x y = some method) :
    ∃ copies P, copies = (if o = .leq ∨ o = .geq then o.arguments x y else []) ∧
      s.Holds 0 1 (copies ++ o.arguments x y) s.machine P ∧
      s.machine.Calls host method (s.kept ++ copies) (o.arguments x y) P := by
  unfold BinaryOp.method? at hmethod
  split at hmethod
  case isTrue => cases hmethod
  case isFalse hnative =>
    have hbinary : Operator.binary s.machine.heap o x y = .ok none :=
      Operator.binary_eq_none_iff.mpr (Bool.eq_false_iff.mpr hnative)
    obtain ⟨a, b, hab, hargs⟩ := o.arguments_eq x y
    have hlookup : s.machine.heap.overloadMethod o x y = some method :=
      (s.machine.heap.binaryMethod_order o x y _).trans hmethod
    obtain ⟨L, K, hstep, hK, hoperate⟩ := binary_call host hop hxy hbinary hlookup hab
    rw [hargs]
    by_cases horder : o = .leq ∨ o = .geq
    · obtain ⟨K₁, hK₁, hs₁⟩ := hK.push a
      obtain ⟨K₂, hK₂, hs₂⟩ := hs₁.push b
      rw [if_pos horder, Exec.bind_of_ok hK₁, Exec.bind_of_ok hK₂] at hoperate
      obtain ⟨P, hP, hcalls⟩ := Holds.calls (U := [a, b]) (W := [a, b]) hs₂ hstep hoperate
      exact ⟨[a, b], P, (if_pos horder).symm, hP, hcalls⟩
    · rw [if_neg horder] at hoperate
      obtain ⟨P, hP, hcalls⟩ := Holds.calls (U := []) (W := [a, b]) hK hstep hoperate
      exact ⟨[], P, (if_neg horder).symm, hP, hcalls⟩

/-- **The faults of a binary operator in its first phase.** -/
theorem binary_faults (host : Host σ) (hop : s.op = .binary o) (hxy : s.operands = [x, y]) :
    s.machine.FaultsBy host (o.Faulty s.machine.heap x y) (o.method? s.machine.heap x y)
      (o.arguments x y) := by
  rcases Operator.binary_paths s.machine.heap o x y with ⟨v, hbinary, hnative, -⟩ |
    ⟨hbinary, divides⟩
  · cases v with
    | some value =>
      obtain ⟨L, hstep, -⟩ := binary_native host hop hxy hbinary
      refine .of_ok hstep (fun f => BinaryOp.Faulty.not_of_value hbinary) ?_
      rw [BinaryOp.method?, ← hnative]
      rfl
    | none =>
      have hmissing : o.method? s.machine.heap x y
          = (s.machine.heap.metamethod x (Overload.ofBinary o).name).or
            (s.machine.heap.metamethod y (Overload.ofBinary o).name) := by
        rw [BinaryOp.method?, ← hnative]
        rfl
      cases hmethod : o.method? s.machine.heap x y with
      | some method =>
        obtain ⟨copies, P, -, -, hcalls⟩ := binary_calls host hop hxy hmethod
        refine .of_call hcalls (fun f hf => ?_) rfl
        cases hf with
        | zero divides => exact BinaryOp.not_divides_of_missing hbinary divides
        | operands _ _ left right =>
          rw [hmissing, Heap.or_metamethod_eq_none.mpr ⟨left, right⟩] at hmethod
          cases hmethod
      | none =>
        have hplain := hmissing.symm.trans hmethod
        have hresorts := binary_missing host hop hxy hbinary
          ((s.machine.heap.binaryMethod_order o x y _).trans hplain)
        obtain ⟨left, right⟩ := Heap.or_metamethod_eq_none.mp hplain
        by_cases ho : o = .equ ∨ o = .neq
        · obtain ⟨L, e, hstep⟩ : ∃ L e, Exec.step host s.machine = .ok e L := by
            rcases ho with rfl | rfl
            · obtain ⟨L, hstep, -⟩ := hresorts
              exact ⟨L, none, hstep⟩
            · obtain ⟨L, hstep, -⟩ := hresorts
              exact ⟨L, none, hstep⟩
          exact .of_ok hstep (fun f => BinaryOp.Faulty.not_of_equality ho) rfl
        · have hfaults : Faults host (.invalidBinaryOperand o x.type y.type) s.machine := by
            cases o with
            | equ | neq => simp at ho
            | _ => exact hresorts
          obtain ⟨L, hstep⟩ := hfaults
          refine .of_fault hstep (fun f => ⟨fun hf => ?_, ?_⟩) rfl
          · cases hf with
            | zero divides => exact absurd divides (BinaryOp.not_divides_of_missing hbinary)
            | operands => rfl
          · rintro rfl
            exact .operands hbinary (not_or.mp ho) left right
  · obtain ⟨L, hstep⟩ := binary_fault host hop hxy hbinary
    refine .of_fault hstep (fun f => BinaryOp.faulty_iff_of_zero divides) ?_
    have hy : y.type = .integer := divides.right ▸ rfl
    rcases divides.operator with rfl | rfl <;>
      simp [BinaryOp.method?, BinaryOp.native, ValueType.numeric, divides.left, hy]

/-- **The faults of a unary operator in its first phase.** -/
theorem unary_faults (host : Host σ) (hop : s.op = .unary u) (hx : s.operands = [x]) :
    s.machine.FaultsBy host
      (fun f => f = .invalidUnaryOperand u x.type ∧ Operator.unary u x = none ∧
        ¬ s.machine.heap.Overloads x (Overload.ofUnary u))
      (u.method? s.machine.heap x) [x] := by
  cases hunary : Operator.unary u x with
  | some value =>
    obtain ⟨L, hstep, -⟩ := unary_native host hop hx hunary
    have hnative : u.native x.type = true := by
      rw [← Bool.not_eq_false, ← Operator.unary_eq_none_iff, hunary]
      simp
    exact .of_ok hstep (by simp) (if_pos hnative)
  | none =>
    have hmissing : u.method? s.machine.heap x = s.machine.heap.metamethod x (Overload.ofUnary u) :=
      if_neg (by simp [Operator.unary_eq_none_iff.mp hunary])
    rw [hmissing]
    cases hmethod : s.machine.heap.metamethod x (Overload.ofUnary u) with
    | none =>
      obtain ⟨L, hstep⟩ := unary_missing host hop hx hunary hmethod
      exact .of_fault hstep (by simp [Heap.metamethod_eq_none.mp hmethod]) rfl
    | some method =>
      obtain ⟨L, hstep, hL, hpeek⟩ := unary_first host hop hx
      have hcall : Exec.unaryOperator host u 0 L = Exec.callMethod host method 1 1 1 L := by
        simp only [Exec.unaryOperator, OperatorPhase.ofNumber]
        rw [Exec.bind_of_ok hpeek, hunary]
        simp only
        rw [Exec.bind_of_ok (Exec.heap_apply L), hL.heap, hmethod]
      obtain ⟨P, -, hcalls⟩ := Holds.calls (U := []) (W := [x]) hL hstep hcall
      exact .of_call hcalls (fun f hf => hf.2.2 (.of_metamethod hmethod)) rfl

end Operation

/-! ### Later phases -/

/-- **An operator instruction about to be entered again**: the current frame is in the middle of it,
with what its metamethod has left on top of the values to be kept. -/
structure Reentry (σ : Type) where
  machine : Machine σ
  /-- The frames below the current one. -/
  below : List Frame
  frame : Frame
  function : Ref .function
  context : Ref .context
  op : Op
  /-- The values below the operands. -/
  kept : List Value
  operands : List Value
  frames : machine.memory.view.frames = below ++ [frame]
  code : frame.activity = .bytecode function context
  doing : frame.progress.op = some op
  unfinished : frame.progress.finished = false
  values : machine.memory.view.values = kept ++ operands
  room : frame.privateBase ≤ kept.length

namespace Reentry

variable {host : Host σ} {t : Reentry σ} {o : BinaryOp} {u : UnaryOp} {x y less v : Value}

/-- The phase to run. -/
def phase (t : Reentry σ) : Nat :=
  t.frame.progress.next

/-- The stacks in the midst of the phase, with other values in place of the operands. -/
def layer (t : Reentry σ) (progress : Progress) (vs : List Value) : Layer :=
  { t.machine.memory.view with
    values := t.kept ++ vs
    frames := t.below ++ [{ t.frame with progress }] }

/-- The phase begins. -/
theorem step (t : Reentry σ) (host : Host σ) :
    ∃ L, Exec.step host t.machine
        = Exec.execute host t.function t.context t.op t.frame.progress.imm t.phase L ∧
      t.machine.Stacked (t.layer t.frame.progress.advance t.operands) L := by
  obtain ⟨L, hstep, hL⟩ :=
    Machine.Stacked.step_again t.machine.stacked_self t.frames t.code t.doing t.unfinished host
  refine ⟨L, hstep, { hL with view := ?_ }⟩
  rw [hL.view, layer, ← t.values]

/-- **The faults of `Leq` and `Geq` in their second phase**, when `__lss` has answered `less`.  The
operands lie on the stack as they were handed to `__lss`, and a fault names them as they stood in
the source. -/
theorem order_faults (host : Host σ) (hop : t.op = .binary o) (horder : o = .leq ∨ o = .geq)
    (hphase : t.phase = 1) (hoperands : t.operands = o.arguments x y ++ [less]) :
    t.machine.FaultsBy host
      (fun f => f = .invalidBinaryOperand .lss x.type y.type ∧ less.truthy = false ∧
        ¬ t.machine.heap.Overloads x "__equ" ∧ ¬ t.machine.heap.Overloads y "__equ")
      (if less.truthy then none
        else (t.machine.heap.metamethod x "__equ").or (t.machine.heap.metamethod y "__equ"))
      (o.arguments x y) := by
  obtain ⟨a, b, hab, hargs⟩ := o.arguments_eq x y
  obtain ⟨L, hstep, hL⟩ := t.step host
  rw [hoperands, hargs] at hL
  rw [hargs]
  have hexecute : Exec.execute host t.function t.context t.op t.frame.progress.imm t.phase = (do
      Exec.orderEqual host o
      return none : Exec σ (Option Exit)) := by
    rw [hop, hphase]
    simp [Exec.execute, Exec.binaryOperator, horder, OrderPhase.ofNumber]
  obtain ⟨L₁, hL₁, hequal⟩ :=
    hL.orderEqual rfl (List.append_assoc t.kept [a, b] [less]).symm t.room hab host
  rw [hexecute, Exec.bind_apply, hequal] at hstep
  cases htruthy : less.truthy with
  | true =>
    obtain ⟨L₂, hreplace, -⟩ := hL₁.replaceTop rfl rfl t.room (.bool true)
    rw [List.length_cons, List.length_singleton] at hreplace
    rw [htruthy, if_pos rfl, hreplace] at hstep
    exact .of_ok hstep (by simp) rfl
  | false =>
    simp only [htruthy, Bool.false_eq_true, if_false] at hstep ⊢
    cases hfound :
      (t.machine.heap.metamethod x "__equ").or (t.machine.heap.metamethod y "__equ") with
    | none =>
      obtain ⟨left, right⟩ := Heap.or_metamethod_eq_none.mp hfound
      rw [hfound] at hstep
      exact .of_fault hstep (by simp [left, right]) rfl
    | some method =>
      obtain ⟨P, hP, hinvoke⟩ := hL₁.callMethod (W := [a, b]) rfl rfl host method 1 2
      rw [List.length_cons, List.length_singleton] at hinvoke
      rw [hfound] at hstep
      simp only [hinvoke] at hstep
      have hcalls : t.machine.Calls host method t.kept [a, b] P :=
        ⟨congrArg Layer.values hP.view, hP.heap, by rw [hstep, Exec.bind_apply]⟩
      refine .of_call hcalls (fun f hf => ?_) rfl
      rw [Heap.or_metamethod_eq_none.mpr hf.2.2] at hfound
      cases hfound

/-- **The last phase of an operator**, which collects the result of its last metamethod, does not
fault. -/
theorem finishes (host : Host σ)
    (hop : (∃ o, t.op = .binary o ∧ (if o = .leq ∨ o = .geq then 2 else 1) ≤ t.phase) ∨
      ∃ u, t.op = .unary u ∧ 1 ≤ t.phase) (hoperands : t.operands = [v]) :
    ∃ N, Exec.step host t.machine = .ok none N := by
  obtain ⟨L, hstep, hL⟩ := t.step host
  rw [hoperands] at hL
  have settle (φ : Value → Value) : ∃ N, (do
      let result ← Exec.pop
      Exec.push (φ result) : Exec σ Unit) L = .ok () N := by
    obtain ⟨K, hpop, -⟩ := hL.pop rfl rfl t.room
    exact ⟨_, by rw [Exec.bind_of_ok hpop]; rfl⟩
  have hexecute : ∃ (z : Exec σ Unit) (N : Machine σ), z L = .ok () N ∧
      Exec.execute host t.function t.context t.op t.frame.progress.imm t.phase = (do
        z
        return none : Exec σ (Option Exit)) := by
    rcases hop with ⟨o, hop, hphase⟩ | ⟨u, hop, hphase⟩
    · by_cases horder : o = .leq ∨ o = .geq
      · rw [if_pos horder] at hphase
        have hlast : OrderPhase.ofNumber t.phase = .finish := by
          unfold OrderPhase.ofNumber
          split <;> first | rfl | omega
        obtain ⟨N, hN⟩ := settle fun v => .bool v.truthy
        refine ⟨_, N, hN, ?_⟩
        simp only [hop, Exec.execute, Exec.binaryOperator, if_pos horder, hlast]
        rfl
      · rw [if_neg horder] at hphase
        have hlast : OperatorPhase.ofNumber t.phase = .finish := by
          unfold OperatorPhase.ofNumber
          split <;> first | rfl | omega
        have hfinish : ∃ N, Exec.finishBinary o L = .ok () N := by
          cases o with
          | lss | gtr | equ => exact settle fun v => .bool v.truthy
          | neq => exact settle fun v => .bool !v.truthy
          | _ => exact ⟨L, rfl⟩
        obtain ⟨N, hN⟩ := hfinish
        refine ⟨_, N, hN, ?_⟩
        simp only [hop, Exec.execute, Exec.binaryOperator, if_neg horder, hlast]
    · have hlast : OperatorPhase.ofNumber t.phase = .finish := by
        unfold OperatorPhase.ofNumber
        split <;> first | rfl | omega
      refine ⟨pure (), L, rfl, ?_⟩
      simp only [hop, Exec.execute, Exec.unaryOperator, hlast]
  obtain ⟨z, N, hz, hexecute⟩ := hexecute
  exact ⟨N, by rw [hstep, hexecute, Exec.bind_of_ok hz]; rfl⟩

/-- **An operator comes to its next phase** when the metamethod that it has called is done. -/
theorem of_completed {s : Operation σ} {phase : Nat} {N P K : Machine σ} {method : Value}
    {U W : List Value} (hP : s.Holds phase (phase + 1) (U ++ W) N P)
    (hphase : phase + 1 < s.op.phaseCount) {trace : List (Machine σ)}
    {results : Option (List Value)}
    (hcompletes : P.Completes host method (s.kept ++ U).length (some 1) trace results K)
    (behaves : ∀ K ∈ trace, K.Behaves host) :
    ∃ (R : List Value) (t : Reentry σ), results = some R ∧ t.machine = K ∧ t.op = s.op ∧
      t.phase = phase + 1 ∧ t.operands = U ++ [R.headD .nil] := by
  obtain ⟨R, hR, hview⟩ := hP.completed hcompletes behaves
  rw [shaped_one] at hview
  exact ⟨R, {
    machine := K
    below := s.below
    frame := s.frameAt phase (phase + 1)
    function := s.function
    context := s.context
    op := s.op
    kept := s.kept
    operands := U ++ [R.headD .nil]
    frames := congrArg Layer.frames hview
    code := s.begins.code
    doing := rfl
    unfinished := s.unfinished hphase
    values := congrArg Layer.values hview
    room := s.room }, hR, rfl, rfl, rfl, rfl⟩

end Reentry

/-- **Exactly when operators fault.**  The types of the operands tell which operators have a native
path.  In its first phase, a binary operator faults if it divides an integer by zero, or if it has
no native path and neither operand overloads it; the fault names the operands as they stand in the
source.  `Leq` and `Geq` come to a second phase when `__lss` has answered: that is a fault if the
answer is falsy and neither operand overloads `__equ`.  `Equ` and `Neq` have no fault of their own.
`Not` and `Neg` fault if they have no native path and the operand does not overload them.  All other
phases come to their end.  Whatever else an operator faults with comes out of the metamethod that it
calls. -/
theorem operator_faults (host : Host σ) :
    -- native paths
    (∀ (h : Heap) (o : BinaryOp) (x y : Value),
      Operator.binary h o x y = .ok none ↔ o.native x.type y.type = false) ∧
    (∀ (u : UnaryOp) (x : Value), Operator.unary u x = none ↔ u.native x.type = false) ∧
    -- the first phase of a binary operator
    (∀ (s : Operation σ) (o : BinaryOp) (x y : Value), s.op = .binary o →
      s.operands = [x, y] →
      s.machine.FaultsBy host (o.Faulty s.machine.heap x y) (o.method? s.machine.heap x y)
        (o.arguments x y)) ∧
    (∀ (h : Heap) (o : BinaryOp) (x y : Value) (f : Fault), o = .equ ∨ o = .neq →
      ¬ o.Faulty h x y f) ∧
    -- the second phase of `Leq` and `Geq`
    (∀ (s : Operation σ) (o : BinaryOp) (x y method : Value), s.op = .binary o →
      s.operands = [x, y] →
      o = .leq ∨ o = .geq → o.method? s.machine.heap x y = some method →
      let base := s.kept ++ o.arguments x y
      ∃ P, s.machine.Calls host method base (o.arguments x y) P ∧
        ∀ (trace : List (Machine σ)) (results : Option (List Value)) (N : Machine σ),
          P.Completes host method base.length (some 1) trace results N →
          (∀ K ∈ trace, K.Behaves host) →
          ∃ (R : List Value) (t : Reentry σ), results = some R ∧ t.machine = N ∧
            t.op = .binary o ∧
            t.phase = 1 ∧ t.operands = o.arguments x y ++ [R.headD .nil]) ∧
    (∀ (t : Reentry σ) (o : BinaryOp) (x y less : Value), t.op = .binary o → o = .leq ∨
      o = .geq →
      t.phase = 1 → t.operands = o.arguments x y ++ [less] →
      t.machine.FaultsBy host
        (fun f => f = .invalidBinaryOperand .lss x.type y.type ∧ less.truthy = false ∧
          ¬ t.machine.heap.Overloads x "__equ" ∧ ¬ t.machine.heap.Overloads y "__equ")
        (if less.truthy then none
          else (t.machine.heap.metamethod x "__equ").or (t.machine.heap.metamethod y "__equ"))
        (o.arguments x y)) ∧
    -- the first phase of a unary operator
    (∀ (s : Operation σ) (u : UnaryOp) (x : Value), s.op = .unary u → s.operands = [x] →
      s.machine.FaultsBy host
        (fun f => f = .invalidUnaryOperand u x.type ∧ Operator.unary u x = none ∧
          ¬ s.machine.heap.Overloads x (Overload.ofUnary u))
        (u.method? s.machine.heap x) [x]) ∧
    -- last phases
    ∀ (t : Reentry σ) (v : Value),
      ((∃ o, t.op = .binary o ∧ (if o = .leq ∨ o = .geq then 2 else 1) ≤ t.phase) ∨
        ∃ u, t.op = .unary u ∧ 1 ≤ t.phase) → t.operands = [v] →
      ∃ N, Exec.step host t.machine = .ok none N := by
  refine ⟨fun h o x y => Operator.binary_eq_none_iff, fun u x => Operator.unary_eq_none_iff,
    fun s o x y => s.binary_faults host, fun h o x y f => BinaryOp.Faulty.not_of_equality, ?_,
    fun t o x y less => t.order_faults host, fun s u x => s.unary_faults host,
    fun t v => t.finishes host⟩
  intro s o x y method hop hxy horder hmethod
  obtain ⟨copies, P, hcopies, hP, hcalls⟩ := s.binary_calls host hop hxy hmethod
  rw [if_pos horder] at hcopies
  subst hcopies
  refine ⟨P, hcalls, fun trace results N hcompletes behaves => ?_⟩
  have hphases : 0 + 1 < s.op.phaseCount := by
    rw [hop]
    rcases horder with rfl | rfl <;> decide
  rw [← hop]
  exact Reentry.of_completed hP hphases hcompletes behaves

/-- `Geq` about to compare a number with a table that overloads `__lss` only. -/
def Operation.atLeast : Operation Unit :=
  { Operation.greater with
    machine := { Operation.greater.machine with
      heap := { Heap.ordered with
        units :=
          ⟨#[⟨#[{ (default : Prototype) with code := #[(Op.binary .geq).byte] }], #[], 0⟩]⟩
            } }
    op := .binary .geq
    begins := ⟨rfl, rfl, rfl, ⟨(Op.binary .geq).byte, rfl⟩⟩ }

/-- `__lss` gets the table and the number and says no: that is a fault, about the number and the
table. -/
theorem operator_faults_unequal :
    let host := { Host.bare with callPure := fun _ _ _ => .ok [.bool false] }
    let s := Operation.atLeast
    ∃ P N L,
      s.machine.Calls host (.pureFn ⟨0⟩) [.nil, .table ⟨0⟩, .int 3] [.table ⟨0⟩,
        .int 3] P ∧
      P.Completes host (.pureFn ⟨0⟩) 3 (some 1) [] (some [.bool false]) N ∧
      Exec.step host N = .error (.fault (.invalidBinaryOperand .lss .integer .table)) L := by
  intro host s
  obtain ⟨-, -, -, -, hfirst, hsecond, -, -⟩ := operator_faults host
  have hmethod : BinaryOp.geq.method? s.machine.heap (.int 3) (.table ⟨0⟩)
    = some (.pureFn ⟨0⟩) := by
    decide +kernel
  have hplain : s.machine.heap.metamethod (.table ⟨0⟩) "__equ" = none := by decide +kernel
  obtain ⟨P, hcalls, hnext⟩ :=
    hfirst s .geq (.int 3) (.table ⟨0⟩) _ rfl rfl (.inr rfl) hmethod
  let N := ((P.onValues fun values => values.truncate 3).onValues fun values =>
    values.pushAll [.bool false]).onValues (Exec.fitTo 4)
  have hsize : 3 ≤ P.memory.values.size := by
    rw [Stack.size_eq_length, show P.memory.values.toList = _ from hcalls.values]
    decide
  have hinvoke : Exec.invoke host (.pureFn ⟨0⟩) 3 (some 1) P = .ok () N := by
    have hroom : host.sizes.add 3 1 = .ok 4 := rfl
    rw [Exec.invoke, Exec.bind_of_ok (Exec.takeFrom_apply hsize),
      Exec.bind_of_ok (Exec.heap_apply _)]
    exact Exec.shape_apply hroom _
  have completes := Machine.Completes.external hinvoke (Nat.le_refl _)
  obtain ⟨R, t, hR, hmachine, hop, hphase, hoperands⟩ :=
    hnext [] (some [.bool false]) N completes (by simp)
  obtain rfl : [.bool false] = R := Option.some.inj hR
  have hheap : t.machine.heap = s.machine.heap := by
    rw [hmachine]
    exact hcalls.heap
  have hint : ¬ s.machine.heap.Overloads (.int 3) "__equ" := by
    rintro ⟨u, m, method, hv, -⟩
    cases hv
  have hfaults :=
    (hsecond t .geq (.int 3) (.table ⟨0⟩) (.bool false) hop (.inr rfl) hphase hoperands
    (.invalidBinaryOperand .lss .integer .table)).mpr
    (.inl ⟨rfl, rfl, hheap ▸ hint, hheap ▸ Heap.metamethod_eq_none.mp hplain⟩)
  obtain ⟨L, hL⟩ := hfaults
  rw [hmachine] at hL
  exact ⟨P, N, L, hcalls, completes, hL⟩

end ScriptVm
