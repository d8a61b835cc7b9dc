import ScriptVm.Proofs.Operation

/-!
# Operator instructions from end to end

What every operator instruction does with its operands: the binary and the unary
operators, and reading and writing the entries of tables and vectors.  Each one
has a native path and a metamethod; `Leq` and `Geq` may ask two metamethods, the
second one about the operands that the first one has left in place.

Main statements: `Operation.binary`, `Operation.unary`, `Operation.read`,
`Operation.update`, and all of them in `operator_contract`.
-/

namespace ScriptVm

variable {σ : Type}

/-! ### Metamethods -/

/-- The metamethod of a value is an entry of its metatable that can be called. -/
theorem Heap.metamethod_eq_some {h : Heap} {v : Value} {name : String} {method : Value} :
    h.metamethod v name = some method ↔
      ∃ t u, v = .table t ∧ (h.table t).metatable = some u ∧
        h.readEntry u (.str name) = some method ∧ method.invokable = true := by
  cases v with
  | table t =>
    simp [metamethod, tableMethod, Option.filter_eq_some_iff, Option.bind_eq_some_iff,
      ← exists_and_right, and_assoc]
  | _ => simp [metamethod]

/-- The value is a table whose metatable holds something that can be called under a name. -/
def Heap.Overloads (h : Heap) (v : Value) (name : String) : Prop :=
  ∃ t u method, v = .table t ∧ (h.table t).metatable = some u ∧
    h.readEntry u (.str name) = some method ∧ method.invokable = true

theorem Heap.Overloads.of_metamethod {h : Heap} {v : Value} {name : String} {method : Value}
    (hmethod : h.metamethod v name = some method) : h.Overloads v name := by
  obtain ⟨t, u, hv, hu, hentry, hinvokable⟩ := metamethod_eq_some.mp hmethod
  exact ⟨t, u, method, hv, hu, hentry, hinvokable⟩

theorem Heap.metamethod_eq_none {h : Heap} {v : Value} {name : String} :
    h.metamethod v name = none ↔ ¬ h.Overloads v name := by
  constructor
  · rintro hnone ⟨t, u, method, hv, hu, hentry, hinvokable⟩
    rw [metamethod_eq_some.mpr ⟨t, u, hv, hu, hentry, hinvokable⟩] at hnone
    cases hnone
  · intro hnot
    cases hmethod : h.metamethod v name with
    | none => rfl
    | some method => exact absurd (.of_metamethod hmethod) hnot

/-- Only `Gtr` and `Geq` call their metamethod with the operands exchanged. -/
theorem Overload.order_ofBinary (o : BinaryOp) (x y : Value) :
    (ofBinary o).order x y = if o = .gtr ∨ o = .geq then (y, x) else (x, y) := by
  cases o <;> rfl

theorem Overload.latterFirst_ofBinary (o : BinaryOp) :
    (ofBinary o).latterFirst = (ofBinary o).swap := by
  cases o <;> rfl

/-- Operands that are exchanged twice are in their order again. -/
theorem Overload.order_order (o : Overload) (x y : Value) :
    o.order (o.order x y).1 (o.order x y).2 = (x, y) := by
  cases h : o.swap <;> simp [order, h]

/-- Of the operands in source order, the left one's metatable is asked first. -/
theorem Heap.binaryMethod_order (h : Heap) (o : BinaryOp) (x y : Value) (name : String) :
    h.binaryMethod ((Overload.ofBinary o).order x y).1 ((Overload.ofBinary o).order x y).2 name
        (Overload.ofBinary o).latterFirst
      = (h.metamethod x name).or (h.metamethod y name) := by
  rw [Overload.latterFirst_ofBinary, binaryMethod, Overload.order]
  cases (Overload.ofBinary o).swap <;> rfl

/-- What an operator makes of the first result of its metamethod. -/
def BinaryOp.settle : BinaryOp → Value → Value
  | lss, v | gtr, v | equ, v => .bool v.truthy
  | neq, v => .bool !v.truthy
  | _, v => v

theorem shaped_zero (R : List Value) : shaped (some 0) R = [] := by
  simp [shaped]

theorem shaped_one (R : List Value) : shaped (some 1) R = [R.headD .nil] := by
  cases R with
  | nil => rfl
  | cons v R => simp [shaped]

/-- **What `Leq` and `Geq` do in their second phase**, with the operands `x` and `y` in the order of
the call and the verdict of `__lss` on top of the values `V`. -/
theorem Machine.Stacked.orderEqual {M N : Machine σ} {c : Layer} (h : M.Stacked c N)
    {fs : List Frame} {f : Frame} (hf : c.frames = fs ++ [f]) {V : List Value} {a b less : Value}
    (hv : c.values = V ++ [a, b] ++ [less]) (hlow : f.privateBase ≤ V.length) {o : BinaryOp}
    {x y : Value} (hab : (Overload.ofBinary o).order x y = (a, b)) (host : Host σ) :
    ∃ L, M.Stacked { c with values := V ++ [a, b] } L ∧
      Exec.orderEqual host o N = (if less.truthy then Exec.replaceTop 2 (.bool true)
        else match (M.heap.metamethod x "__equ").or (M.heap.metamethod y "__equ") with
          | some method => Exec.callMethod host method 2 1 2
          | none => Exec.fault (.invalidBinaryOperand .lss x.type y.type)) L := by
  have hroom (U : List Value) : f.privateBase ≤ (V ++ U).length := by
    rw [List.length_append]
    omega
  obtain ⟨L, hpop, hL⟩ := h.pop hf hv (hroom [a, b])
  refine ⟨L, hL, ?_⟩
  rw [Exec.orderEqual, Exec.bind_of_ok hpop]
  by_cases htruthy : less.truthy = true
  · rw [if_pos htruthy, if_pos htruthy]
  · rw [if_neg htruthy, if_neg htruthy]
    have hb : (Exec.peek 0 : Exec σ Value) L = .ok b L :=
      hL.peek (V := V ++ [a]) (W := []) hf (by simp) (hroom [a])
    have ha : (Exec.peek 1 : Exec σ Value) L = .ok a L := hL.peek (W := [b]) hf rfl hlow
    have hlookup := M.heap.binaryMethod_order o x y "__equ"
    have hsource := (Overload.ofBinary o).order_order x y
    rw [hab] at hlookup hsource
    rw [Exec.bind_of_ok hb, Exec.bind_of_ok ha, Exec.bind_of_ok (Exec.heap_apply L),
      hL.heap, hlookup]
    cases (M.heap.metamethod x "__equ").or (M.heap.metamethod y "__equ") with
    | some equ => rfl
    | none => simp only [hsource]

namespace Operation

/-- The last resort of a binary operator: equality falls back on identity, and all others are a
fault. -/
def Resorts (host : Host σ) (s : Operation σ) (o : BinaryOp) (x y : Value) : Prop :=
  match o with
  | .equ => s.Ends host 0 [.bool (Operator.identical x y)] s.machine.heap s.machine
  | .neq => s.Ends host 0 [.bool !(Operator.identical x y)] s.machine.heap s.machine
  | _ => Faults host (.invalidBinaryOperand o x.type y.type) s.machine

/-- What `Leq` and `Geq` do at the machine `L`, when `__lss` has answered: if that was falsy they
ask `__equ`, and without one they are a fault. -/
def Judges (host : Host σ) (s : Operation σ) (x y : Value) (args : List Value) (less : Value)
    (L : Machine σ) : Prop :=
  if less.truthy then s.Ends host 1 [.bool true] L.heap L
  else match (L.heap.metamethod x "__equ").or (L.heap.metamethod y "__equ") with
    | some equ => s.Asks host 1 equ [] args 1
        (fun R L => s.Ends host 2 [.bool (R.headD .nil).truthy] L.heap L) L
    | none => Faults host (.invalidBinaryOperand .lss x.type y.type) L

/-- **What a binary operator does** with the operands `x` and `y`.  Without a native value it asks
the metamethod of `x`, or else of `y`, with the operands exchanged for `Gtr` and `Geq`. -/
def Binary (host : Host σ) (s : Operation σ) (o : BinaryOp) (x y : Value) : Prop :=
  match Operator.binary s.machine.heap o x y with
  | .error f => Faults host f s.machine
  | .ok (some value) => s.Ends host 0 [value] s.machine.heap s.machine
  | .ok none =>
    let name := (Overload.ofBinary o).name
    let args := if o = .gtr ∨ o = .geq then [y, x] else [x, y]
    match (s.machine.heap.metamethod x name).or (s.machine.heap.metamethod y name) with
    | some method =>
      if o = .leq ∨ o = .geq then
        -- `__lss` gets a copy of the operands, so that they are still there for `__equ`.
        s.Asks host 0 method args args 1 (fun R L => s.Judges host x y args (R.headD .nil) L)
          s.machine
      else
        s.Asks host 0 method [] args 1
          (fun R L => s.Ends host 1 [o.settle (R.headD .nil)] L.heap L) s.machine
    | none => s.Resorts host o x y

/-- **What a unary operator does** with the operand `x`. -/
def Unary (host : Host σ) (s : Operation σ) (u : UnaryOp) (x : Value) : Prop :=
  match Operator.unary u x with
  | some value => s.Ends host 0 [value] s.machine.heap s.machine
  | none =>
    match s.machine.heap.metamethod x (Overload.ofUnary u) with
    | some method => s.Asks host 0 method [] [x] 1
        (fun R L => s.Ends host 1 [R.headD .nil] L.heap L) s.machine
    | none => Faults host (.invalidUnaryOperand u x.type) s.machine

/-- **What `Ren` does** with a container and a key. -/
def Read (host : Host σ) (s : Operation σ) (container key : Value) : Prop :=
  match container with
  | .vector w =>
    s.Ends host 0 [Exec.vectorItem (s.machine.heap.vector w) key] s.machine.heap s.machine
  | .table t =>
    match s.machine.heap.metamethod (.table t) "__ren" with
    | some method => s.Asks host 0 method [] [.table t, key] 1
        (fun R L => s.Ends host 1 [R.headD .nil] L.heap L) s.machine
    | none =>
      s.Ends host 0 [(s.machine.heap.readEntry t key).getD .nil] s.machine.heap s.machine
  | other => Faults host (s.machine.heap.mismatch .table other) s.machine

/-- **What `Uen` does** with a value, a container and a key. -/
def Update (host : Host σ) (s : Operation σ) (value container key : Value) : Prop :=
  match container with
  | .vector w =>
    match s.machine.heap.integer key with
    | .error f => Faults host f s.machine
    | .ok i =>
      let size := (s.machine.heap.vector w).size
      if i < 0 ∨ size ≤ i.toNatClampNeg then
        Faults host (.vectorIndexOutOfRange i size) s.machine
      else
        s.Ends host 0 [] (s.machine.heap.modifyVector w fun items =>
          items.setIfInBounds i.toNatClampNeg value) s.machine
  | .table t =>
    match s.machine.heap.metamethod (.table t) "__uen" with
    | some method => s.Asks host 0 method [] [.table t, key, value] 0
        (fun _ L => s.Ends host 1 [] L.heap L) s.machine
    | none => s.Ends host 0 [] (s.machine.heap.writeEntry t key value) s.machine
  | other => Faults host (s.machine.heap.mismatch .table other) s.machine

variable {host : Host σ} {s : Operation σ} {phase after : Nat} {N L : Machine σ}
  {U : List Value} {v : Value}

/-! ### Binary operators -/

/-- A result on top that is exchanged for another value. -/
theorem Holds.settle (h : s.Holds phase after (U ++ [v]) N L) (φ : Value → Value) :
    ∃ K, (do
      let result ← Exec.pop
      Exec.push (φ result) : Exec σ Unit) L = .ok () K ∧
        s.Holds phase after (U ++ [φ v]) N K := by
  obtain ⟨K, hK, hs⟩ := h.pop
  obtain ⟨K', hK', hs'⟩ := hs.push (φ v)
  exact ⟨K', by rw [Exec.bind_of_ok hK, hK'], hs'⟩

theorem Holds.finishBinary (h : s.Holds phase after [v] N L) (o : BinaryOp) :
    ∃ K, (Exec.finishBinary o : Exec σ Unit) L = .ok () K ∧
      s.Holds phase after [o.settle v] N K := by
  cases o with
  | lss | gtr | equ => exact h.settle (U := []) fun v => .bool v.truthy
  | neq => exact h.settle (U := []) fun v => .bool !v.truthy
  | _ => exact ⟨L, rfl, h⟩

section

variable {o : BinaryOp} {x y : Value}

/-- The first phase of a binary operator. -/
theorem binary_first (host : Host σ) (hop : s.op = .binary o) (hxy : s.operands = [x, y]) :
    ∃ L, Exec.step host s.machine = (do
        Exec.operateBinary host o
        return none : Exec σ (Option Exit)) L ∧
      s.Holds 0 s.op.phaseCount [x, y] s.machine L ∧
      (Exec.peek 0 : Exec σ Value) L = .ok y L ∧ (Exec.peek 1 : Exec σ Value) L = .ok x L := by
  obtain ⟨L, hstep, hL⟩ := s.first_phase host
  rw [hxy] at hL
  refine ⟨L, ?_, hL, hL.peek (U := [x]) (W := []), hL.peek (U := []) (W := [y])⟩
  rw [hstep, hop]
  simp [Exec.execute, Exec.binaryOperator, OrderPhase.ofNumber, OperatorPhase.ofNumber]

/-- **A binary operator with a native value** ends at once. -/
theorem binary_native (host : Host σ) (hop : s.op = .binary o) (hxy : s.operands = [x, y])
    {value : Value} (hnative : Operator.binary s.machine.heap o x y = .ok (some value)) :
    s.Ends host 0 [value] s.machine.heap s.machine := by
  obtain ⟨L, hstep, hL, hy, hx⟩ := binary_first host hop hxy
  obtain ⟨K, hK, hs⟩ := hL.replaceTop value
  refine ends hstep ?_ hs
  rw [Exec.operateBinary, Exec.bind_of_ok hy, Exec.bind_of_ok hx,
    Exec.bind_of_ok (Exec.heap_apply L), hL.heap, hnative]
  exact hK

/-- A binary operator whose native path is a fault. -/
theorem binary_fault (host : Host σ) (hop : s.op = .binary o) (hxy : s.operands = [x, y])
    {f : Fault} (hnative : Operator.binary s.machine.heap o x y = .error f) :
    Faults host f s.machine := by
  obtain ⟨L, hstep, hL, hy, hx⟩ := binary_first host hop hxy
  refine faults hstep (K := L) ?_
  rw [Exec.operateBinary, Exec.bind_of_ok hy, Exec.bind_of_ok hx,
    Exec.bind_of_ok (Exec.heap_apply L), hL.heap, hnative]
  rfl

/-- A binary operator without a native value and without a metamethod. -/
theorem binary_missing (host : Host σ) (hop : s.op = .binary o) (hxy : s.operands = [x, y])
    (hnative : Operator.binary s.machine.heap o x y = .ok none)
    (hmethod : s.machine.heap.overloadMethod o x y = none) :
    s.Resorts host o x y := by
  obtain ⟨L, hstep, hL, hy, hx⟩ := binary_first host hop hxy
  have hoperate : Exec.operateBinary host o L = (match o with
      | .equ => Exec.replaceTop 2 (.bool (Operator.identical x y))
      | .neq => Exec.replaceTop 2 (.bool !(Operator.identical x y))
      | _ => Exec.fault (.invalidBinaryOperand o x.type y.type)) L := by
    rw [Exec.operateBinary, Exec.bind_of_ok hy, Exec.bind_of_ok hx,
      Exec.bind_of_ok (Exec.heap_apply L), hL.heap, hnative]
    simp only [Exec.ofFault]
    rw [Exec.bind_of_ok (Exec.pure_apply _ L)]
    cases o <;> simp only [hmethod]
  cases o with
  | equ | neq =>
    obtain ⟨K, hK, hs⟩ := hL.replaceTop _
    exact ends hstep (hoperate.trans hK) hs
  | _ => exact faults hstep hoperate

/-- The operands of a metamethod are put into the order of the call. -/
theorem Holds.callOverload (h : s.Holds phase after [x, y] N L) (host : Host σ) (o : BinaryOp)
    (method : Value) {a b : Value} (hab : (Overload.ofBinary o).order x y = (a, b)) :
    ∃ K, s.Holds phase after [a, b] N K ∧
      Exec.callOverload host o method x y L = (if o = .leq ∨ o = .geq then do
        Exec.push a
        Exec.push b
        Exec.callMethod host method 2 1 1
      else Exec.callMethod host method 2 1 1) K := by
  unfold Exec.callOverload
  simp only [hab]
  cases hswap : (Overload.ofBinary o).swap with
  | true =>
    obtain ⟨K, hK, hs⟩ := h.overwriteTop (W := [a, b]) rfl
    refine ⟨K, hs, ?_⟩
    rw [if_pos rfl, Exec.bind_of_ok hK]
  | false =>
    obtain ⟨rfl, rfl⟩ : x = a ∧ y = b := by simpa [Overload.order, hswap] using hab
    exact ⟨L, h, rfl⟩

/-- A binary operator that has no native value and calls a metamethod. -/
theorem binary_call (host : Host σ) (hop : s.op = .binary o) (hxy : s.operands = [x, y])
    (hnative : Operator.binary s.machine.heap o x y = .ok none) {method a b : Value}
    (hmethod : s.machine.heap.overloadMethod o x y = some method)
    (hab : (Overload.ofBinary o).order x y = (a, b)) :
    ∃ L K, Exec.step host s.machine = (do
        Exec.operateBinary host o
        return none : Exec σ (Option Exit)) L ∧
      s.Holds 0 s.op.phaseCount [a, b] s.machine K ∧
      Exec.operateBinary host o L = (if o = .leq ∨ o = .geq then do
        Exec.push a
        Exec.push b
        Exec.callMethod host method 2 1 1
      else Exec.callMethod host method 2 1 1) K := by
  obtain ⟨L, hstep, hL, hy, hx⟩ := binary_first host hop hxy
  obtain ⟨K, hK, hcall⟩ := hL.callOverload host o method hab
  refine ⟨L, K, hstep, hK, ?_⟩
  rw [Exec.operateBinary, Exec.bind_of_ok hy, Exec.bind_of_ok hx,
    Exec.bind_of_ok (Exec.heap_apply L), hL.heap, hnative]
  simp only [Exec.ofFault]
  rw [Exec.bind_of_ok (Exec.pure_apply _ L), hmethod]
  exact hcall

variable (hsyscall : ∀ i, host.syscall i = none)
include hsyscall

/-- **A binary operator other than `Leq` and `Geq`** asks its metamethod, and ends with what it
makes of the first result. -/
theorem binary_method (hop : s.op = .binary o) (hxy : s.operands = [x, y])
    (horder : ¬ (o = .leq ∨ o = .geq))
    (hnative : Operator.binary s.machine.heap o x y = .ok none) {method a b : Value}
    (hmethod : s.machine.heap.overloadMethod o x y = some method)
    (hab : (Overload.ofBinary o).order x y = (a, b)) :
    s.Asks host 0 method [] [a, b] 1
      (fun R L => s.Ends host 1 [o.settle (R.headD .nil)] L.heap L) s.machine := by
  obtain ⟨L, K, hstep, hK, hcall⟩ := binary_call host hop hxy hnative hmethod hab
  obtain ⟨P, hP, hinvoke⟩ := Holds.callMethod (U := []) (W := [a, b]) hK host method 1 1
  rw [if_neg horder] at hcall
  have hphases : 0 + 1 < s.op.phaseCount := by
    rw [hop]
    cases o <;> decide
  refine asks hsyscall hstep (hcall.trans hinvoke) hP hphases fun R N N' hagain hN' => ?_
  rw [shaped_one] at hN'
  obtain ⟨N'', hfinish, hs⟩ := Holds.finishBinary hN' o
  rw [hop] at hagain
  refine ends hagain ?_ hs
  rw [Exec.binaryOperator, if_neg horder]
  exact hfinish

/-- The second phase of `Leq` and `Geq`: the verdict of `__lss` is on top, the operands in the order
of the call are below it. -/
theorem order_second (hop : s.op = .binary o) (horder : o = .leq ∨ o = .geq) {a b less : Value}
    (hab : (Overload.ofBinary o).order x y = (a, b))
    (hstep : Exec.step host N = Exec.execute host s.function s.context s.op s.imm 1 L)
    (hL : s.Holds 1 s.op.phaseCount ([a, b] ++ [less]) N L) :
    s.Judges host x y [a, b] less N := by
  have hphases : s.op.phaseCount = 3 := by
    rw [hop]
    rcases horder with rfl | rfl <;> rfl
  have hexecute : Exec.execute host s.function s.context s.op s.imm 1 = (do
      Exec.orderEqual host o
      return none : Exec σ (Option Exit)) := by
    rw [hop]
    simp [Exec.execute, Exec.binaryOperator, horder, OrderPhase.ofNumber]
  rw [hexecute] at hstep
  obtain ⟨L₁, hL₁, hequal⟩ :=
    hL.orderEqual rfl (List.append_assoc s.kept [a, b] [less]).symm s.room hab host
  unfold Judges
  cases htruthy : less.truthy with
  | true =>
    rw [htruthy] at hequal
    obtain ⟨L₂, hreplace, hL₂⟩ := Holds.replaceTop (V := [a, b]) hL₁ (.bool true)
    exact ends hstep (hequal.trans hreplace) hL₂
  | false =>
    rw [htruthy] at hequal
    simp only [Bool.false_eq_true, if_false] at hequal ⊢
    cases hfound : (N.heap.metamethod x "__equ").or (N.heap.metamethod y "__equ") with
    | none =>
      rw [hfound] at hequal
      exact faults hstep hequal
    | some equ =>
      rw [hfound] at hequal
      obtain ⟨Q, hQ, hask⟩ := Holds.callMethod (U := []) (W := [a, b]) hL₁ host equ 1 2
      refine asks hsyscall hstep (hequal.trans hask) hQ (by omega) fun R K K' hlast hK' => ?_
      -- In the third phase, the verdict of `__equ` is all there is.
      rw [shaped_one] at hK'
      obtain ⟨K'', hfinish, hs⟩ := hK'.settle (U := []) fun v => .bool v.truthy
      refine ends (x := Exec.orderFinish) ?_ hfinish hs
      rw [hlast, hop]
      simp [Exec.execute, Exec.binaryOperator, horder, OrderPhase.ofNumber]

/-- **`Leq` and `Geq`** ask `__lss` about a copy of the operands, and `__equ` about the operands
themselves when that was falsy. -/
theorem order_method (hop : s.op = .binary o) (hxy : s.operands = [x, y])
    (horder : o = .leq ∨ o = .geq)
    (hnative : Operator.binary s.machine.heap o x y = .ok none) {method a b : Value}
    (hmethod : s.machine.heap.overloadMethod o x y = some method)
    (hab : (Overload.ofBinary o).order x y = (a, b)) :
    s.Asks host 0 method [a, b] [a, b] 1
      (fun R L => s.Judges host x y [a, b] (R.headD .nil) L) s.machine := by
  obtain ⟨L, K, hstep, hK, hcall⟩ := binary_call host hop hxy hnative hmethod hab
  obtain ⟨K₁, hK₁, hs₁⟩ := hK.push a
  obtain ⟨K₂, hK₂, hs₂⟩ := hs₁.push b
  obtain ⟨P, hP, hinvoke⟩ := Holds.callMethod (U := [a, b]) (W := [a, b]) hs₂ host method 1 1
  rw [if_pos horder, Exec.bind_of_ok hK₁, Exec.bind_of_ok hK₂] at hcall
  have hphases : 0 + 1 < s.op.phaseCount := by
    rw [hop]
    rcases horder with rfl | rfl <;> decide
  refine asks hsyscall hstep (hcall.trans hinvoke) hP hphases fun R N N' hagain hN' => ?_
  rw [shaped_one] at hN'
  exact order_second hsyscall hop horder hab hagain hN'

end

/-! ### Unary operators -/

section

variable {u : UnaryOp} {x : Value}

/-- The first phase of a unary operator. -/
theorem unary_first (host : Host σ) (hop : s.op = .unary u) (hx : s.operands = [x]) :
    ∃ L, Exec.step host s.machine = (do
        Exec.unaryOperator host u 0
        return none : Exec σ (Option Exit)) L ∧
      s.Holds 0 s.op.phaseCount [x] s.machine L ∧ (Exec.peek 0 : Exec σ Value) L = .ok x L := by
  obtain ⟨L, hstep, hL⟩ := s.first_phase host
  rw [hx] at hL
  refine ⟨L, ?_, hL, hL.peek (U := []) (W := [])⟩
  rw [hstep, hop]
  rfl

/-- **A unary operator with a native value** ends at once. -/
theorem unary_native (host : Host σ) (hop : s.op = .unary u) (hx : s.operands = [x])
    {value : Value} (hnative : Operator.unary u x = some value) :
    s.Ends host 0 [value] s.machine.heap s.machine := by
  obtain ⟨L, hstep, hL, hpeek⟩ := unary_first host hop hx
  obtain ⟨K, hK, hs⟩ := hL.replaceTop value
  refine ends hstep ?_ hs
  simp only [Exec.unaryOperator, OperatorPhase.ofNumber]
  rw [Exec.bind_of_ok hpeek, hnative]
  exact hK

/-- A unary operator without a native value and without a metamethod. -/
theorem unary_missing (host : Host σ) (hop : s.op = .unary u) (hx : s.operands = [x])
    (hnative : Operator.unary u x = none)
    (hmethod : s.machine.heap.metamethod x (Overload.ofUnary u) = none) :
    Faults host (.invalidUnaryOperand u x.type) s.machine := by
  obtain ⟨L, hstep, hL, hpeek⟩ := unary_first host hop hx
  refine faults hstep (K := L) ?_
  simp only [Exec.unaryOperator, OperatorPhase.ofNumber]
  rw [Exec.bind_of_ok hpeek, hnative]
  simp only
  rw [Exec.bind_of_ok (Exec.heap_apply L), hL.heap, hmethod]
  rfl

/-- **A unary operator without a native value** asks its metamethod, and ends with the first
result. -/
theorem unary_method (hsyscall : ∀ i, host.syscall i = none) (hop : s.op = .unary u)
    (hx : s.operands = [x]) (hnative : Operator.unary u x = none) {method : Value}
    (hmethod : s.machine.heap.metamethod x (Overload.ofUnary u) = some method) :
    s.Asks host 0 method [] [x] 1 (fun R L => s.Ends host 1 [R.headD .nil] L.heap L)
      s.machine := by
  obtain ⟨L, hstep, hL, hpeek⟩ := unary_first host hop hx
  obtain ⟨P, hP, hinvoke⟩ := Holds.callMethod (U := []) (W := [x]) hL host method 1 1
  have hcall : Exec.unaryOperator host u 0 L = Exec.callMethod host method 1 1 1 L := by
    simp only [Exec.unaryOperator, OperatorPhase.ofNumber]
    rw [Exec.bind_of_ok hpeek, hnative]
    simp only
    rw [Exec.bind_of_ok (Exec.heap_apply L), hL.heap, hmethod]
  -- Only operators that may lack a native value have a second phase.
  have hphases : s.op.phaseCount = 2 := by
    rw [hop]
    cases u with
    | not | neg => rfl
    | typeof | isNil => cases hnative
  have hlast : Exec.execute host s.function s.context s.op s.imm 1 = pure none := by
    rw [hop]
    rfl
  simpa only [shaped_one, List.nil_append] using
    asks_and_ends hsyscall hstep (hcall.trans hinvoke) hP hphases hlast

end

/-! ### Entries of tables and vectors -/

section

variable {t : Ref .table} {w : Ref .vector} {container key value : Value}

/-- A step that ends the instruction and changes the heap. -/
theorem ends_writing {x : Exec σ Unit} {φ : Heap → Heap}
    (hstep : Exec.step host N = (do
      x
      return none : Exec σ (Option Exit)) L)
    (hL : s.Holds phase s.op.phaseCount [value, container, key] N L)
    (hx : x L = (do
      modify fun m => m.onHeap φ
      Exec.dropWrite : Exec σ Unit) L) : s.Ends host phase [] (φ N.heap) N := by
  have hheap : { N with heap := φ N.heap }.Stacked
      (s.layer phase s.op.phaseCount [value, container, key]) (L.onHeap φ) :=
    { hL with heap := congrArg φ hL.heap }
  have hless : Exec.heightLess 3 (L.onHeap φ) = .ok s.kept.length (L.onHeap φ) :=
    hheap.heightLess rfl
  refine ⟨(L.onHeap φ).onValues fun values => values.truncate s.kept.length, ?_, ?_⟩
  · rw [hstep, Exec.bind_apply, hx, Exec.bind_of_ok (Exec.modify_apply _ L), Exec.dropWrite,
      Exec.bind_of_ok hless]
    rfl
  · have hkept : ((L.onHeap φ).memory.values.truncate s.kept.length).toList = s.kept ++ [] := by
      rw [Stack.toList_truncate, hheap.values, List.append_nil]
      exact List.take_left
    exact hheap.onValues hkept

/-- The first phase of a read. -/
theorem read_first (host : Host σ) (hop : s.op = .table .read)
    (hoperands : s.operands = [container, key]) :
    ∃ L, Exec.step host s.machine = (do
        Exec.readEntry host true
        return none : Exec σ (Option Exit)) L ∧
      s.Holds 0 s.op.phaseCount [container, key] s.machine L ∧
      (Exec.peek 0 : Exec σ Value) L = .ok key L ∧
      (Exec.peek 1 : Exec σ Value) L = .ok container L := by
  obtain ⟨L, hstep, hL⟩ := s.first_phase host
  rw [hoperands] at hL
  refine ⟨L, ?_, hL, hL.peek (U := [container]) (W := []), hL.peek (U := []) (W := [key])⟩
  rw [hstep, hop]
  rfl

/-- A read of a vector ends at once. -/
theorem read_vector (host : Host σ) (hop : s.op = .table .read)
    (hoperands : s.operands = [.vector w, key]) :
    s.Ends host 0 [Exec.vectorItem (s.machine.heap.vector w) key] s.machine.heap s.machine := by
  obtain ⟨L, hstep, hL, hkey, hcontainer⟩ := read_first host hop hoperands
  obtain ⟨K, hK, hs⟩ := hL.replaceTop (Exec.vectorItem (s.machine.heap.vector w) key)
  refine ends hstep ?_ hs
  rw [Exec.readEntry, Exec.bind_of_ok hkey, Exec.bind_of_ok hcontainer,
    Exec.bind_of_ok (Exec.heap_apply L), hL.heap]
  exact hK

/-- A read of a table without `__ren` ends at once. -/
theorem read_table (host : Host σ) (hop : s.op = .table .read)
    (hoperands : s.operands = [.table t, key])
    (hmethod : s.machine.heap.metamethod (.table t) "__ren" = none) :
    s.Ends host 0 [(s.machine.heap.readEntry t key).getD .nil] s.machine.heap s.machine := by
  obtain ⟨L, hstep, hL, hkey, hcontainer⟩ := read_first host hop hoperands
  obtain ⟨K, hK, hs⟩ := hL.replaceTop ((s.machine.heap.readEntry t key).getD .nil)
  refine ends hstep ?_ hs
  rw [Exec.readEntry, Exec.bind_of_ok hkey, Exec.bind_of_ok hcontainer,
    Exec.bind_of_ok (Exec.heap_apply L), hL.heap]
  simp only [Heap.asTable, Exec.ofFault, if_true]
  rw [Exec.bind_of_ok (Exec.pure_apply _ L),
    show s.machine.heap.tableMethod t "__ren" = none from hmethod]
  exact hK

/-- Nothing else has entries to read. -/
theorem read_mismatch (host : Host σ) (hop : s.op = .table .read)
    (hoperands : s.operands = [container, key]) (hvector : ∀ w, container ≠ .vector w)
    {f : Fault}
    (htable : s.machine.heap.asTable container = .error f) : Faults host f s.machine := by
  obtain ⟨L, hstep, hL, hkey, hcontainer⟩ := read_first host hop hoperands
  refine faults hstep (K := L) ?_
  rw [Exec.readEntry, Exec.bind_of_ok hkey, Exec.bind_of_ok hcontainer,
    Exec.bind_of_ok (Exec.heap_apply L), hL.heap]
  cases container with
  | vector w => exact absurd rfl (hvector w)
  | _ =>
    simp only [htable]
    rfl

/-- **A read through `__ren`** ends with its first result. -/
theorem read_method (hsyscall : ∀ i, host.syscall i = none) (hop : s.op = .table .read)
    (hoperands : s.operands = [.table t, key]) {method : Value}
    (hmethod : s.machine.heap.metamethod (.table t) "__ren" = some method) :
    s.Asks host 0 method [] [.table t, key] 1
      (fun R L => s.Ends host 1 [R.headD .nil] L.heap L) s.machine := by
  obtain ⟨L, hstep, hL, hkey, hcontainer⟩ := read_first host hop hoperands
  obtain ⟨P, hP, hinvoke⟩ :=
    Holds.callMethod (U := []) (W := [.table t, key]) hL host method 1 1
  have hcall : Exec.readEntry host true L = Exec.callMethod host method 2 1 1 L := by
    rw [Exec.readEntry, Exec.bind_of_ok hkey, Exec.bind_of_ok hcontainer,
      Exec.bind_of_ok (Exec.heap_apply L), hL.heap]
    simp only [Heap.asTable, Exec.ofFault, if_true]
    rw [Exec.bind_of_ok (Exec.pure_apply _ L),
      show s.machine.heap.tableMethod t "__ren" = some method from hmethod]
  have hphases : s.op.phaseCount = 2 := by
    rw [hop]
    rfl
  have hlast : Exec.execute host s.function s.context s.op s.imm 1 = pure none := by
    rw [hop]
    rfl
  simpa only [shaped_one, List.nil_append] using
    asks_and_ends hsyscall hstep (hcall.trans hinvoke) hP hphases hlast

/-- The first phase of a write. -/
theorem update_first (host : Host σ) (hop : s.op = .table .update)
    (hoperands : s.operands = [value, container, key]) :
    ∃ L, Exec.step host s.machine = (do
        Exec.updateEntry host true
        return none : Exec σ (Option Exit)) L ∧
      s.Holds 0 s.op.phaseCount [value, container, key] s.machine L ∧
      (Exec.peek 0 : Exec σ Value) L = .ok key L ∧
      (Exec.peek 1 : Exec σ Value) L = .ok container L ∧
      (Exec.peek 2 : Exec σ Value) L = .ok value L := by
  obtain ⟨L, hstep, hL⟩ := s.first_phase host
  rw [hoperands] at hL
  refine ⟨L, ?_, hL, hL.peek (U := [value, container]) (W := []),
    hL.peek (U := [value]) (W := [key]), hL.peek (U := []) (W := [container, key])⟩
  rw [hstep, hop]
  rfl

/-- A write into a vector ends at once, if the key is an index of it. -/
theorem update_vector (host : Host σ) (hop : s.op = .table .update)
    (hoperands : s.operands = [value, .vector w, key]) :
    match s.machine.heap.integer key with
    | .error f => Faults host f s.machine
    | .ok i =>
      let size := (s.machine.heap.vector w).size
      if i < 0 ∨ size ≤ i.toNatClampNeg then
        Faults host (.vectorIndexOutOfRange i size) s.machine
      else
        s.Ends host 0 [] (s.machine.heap.modifyVector w fun items =>
          items.setIfInBounds i.toNatClampNeg value) s.machine := by
  obtain ⟨L, hstep, hL, hkey, hcontainer, hvalue⟩ := update_first host hop hoperands
  have hupdate : Exec.updateEntry host true L = (do
      let index ← Exec.ofFault (s.machine.heap.integer key)
      let size := (s.machine.heap.vector w).size
      if index < 0 ∨ size ≤ index.toNatClampNeg then
        Exec.fault (.vectorIndexOutOfRange index size)
      else
        modify fun m => m.onHeap fun h =>
          h.modifyVector w fun items => items.setIfInBounds index.toNatClampNeg value
        Exec.dropWrite : Exec σ Unit) L := by
    rw [Exec.updateEntry, Exec.bind_of_ok hkey, Exec.bind_of_ok hcontainer, Exec.bind_of_ok hvalue,
      Exec.bind_of_ok (Exec.heap_apply L), hL.heap]
  cases hindex : s.machine.heap.integer key with
  | error f =>
    rw [hindex] at hupdate
    exact faults hstep hupdate
  | ok i =>
    rw [hindex] at hupdate
    simp only [Exec.ofFault] at hupdate
    rw [Exec.bind_of_ok (Exec.pure_apply _ L)] at hupdate
    dsimp only
    by_cases hrange : i < 0 ∨ (s.machine.heap.vector w).size ≤ i.toNatClampNeg
    · rw [if_pos hrange] at hupdate ⊢
      exact faults hstep hupdate
    · rw [if_neg hrange] at hupdate ⊢
      exact ends_writing (φ := fun h => h.modifyVector w fun items =>
        items.setIfInBounds i.toNatClampNeg value) hstep hL hupdate

/-- Nothing else has entries to write. -/
theorem update_mismatch (host : Host σ) (hop : s.op = .table .update)
    (hoperands : s.operands = [value, container, key]) (hvector : ∀ w, container ≠ .vector w)
    {f : Fault} (htable : s.machine.heap.asTable container = .error f) :
    Faults host f s.machine := by
  obtain ⟨L, hstep, hL, hkey, hcontainer, hvalue⟩ := update_first host hop hoperands
  refine faults hstep (K := L) ?_
  rw [Exec.updateEntry, Exec.bind_of_ok hkey, Exec.bind_of_ok hcontainer, Exec.bind_of_ok hvalue,
    Exec.bind_of_ok (Exec.heap_apply L), hL.heap]
  cases container with
  | vector w => exact absurd rfl (hvector w)
  | _ =>
    simp only [htable]
    rfl

/-- A write into a table without `__uen` ends at once. -/
theorem update_table (host : Host σ) (hop : s.op = .table .update)
    (hoperands : s.operands = [value, .table t, key])
    (hmethod : s.machine.heap.metamethod (.table t) "__uen" = none) :
    s.Ends host 0 [] (s.machine.heap.writeEntry t key value) s.machine := by
  obtain ⟨L, hstep, hL, hkey, hcontainer, hvalue⟩ := update_first host hop hoperands
  refine ends_writing (φ := fun h => h.writeEntry t key value) hstep hL ?_
  rw [Exec.updateEntry, Exec.bind_of_ok hkey, Exec.bind_of_ok hcontainer, Exec.bind_of_ok hvalue,
    Exec.bind_of_ok (Exec.heap_apply L), hL.heap]
  simp only [Heap.asTable, Exec.ofFault, if_true]
  rw [Exec.bind_of_ok (Exec.pure_apply _ L),
    show s.machine.heap.tableMethod t "__uen" = none from hmethod]

/-- **A write through `__uen`** gives it the table, the key and the value, and leaves nothing. -/
theorem update_method (hsyscall : ∀ i, host.syscall i = none) (hop : s.op = .table .update)
    (hoperands : s.operands = [value, .table t, key]) {method : Value}
    (hmethod : s.machine.heap.metamethod (.table t) "__uen" = some method) :
    s.Asks host 0 method [] [.table t, key, value] 0
      (fun _ L => s.Ends host 1 [] L.heap L) s.machine := by
  obtain ⟨L, hstep, hL, hkey, hcontainer, hvalue⟩ := update_first host hop hoperands
  obtain ⟨K, hrotate, hK⟩ := hL.overwriteTop (W := [.table t, key, value]) rfl
  obtain ⟨P, hP, hinvoke⟩ :=
    Holds.callMethod (U := []) (W := [.table t, key, value]) hK host method 0 1
  have hcall : Exec.updateEntry host true L = Exec.callMethod host method 3 0 1 K := by
    rw [Exec.updateEntry, Exec.bind_of_ok hkey, Exec.bind_of_ok hcontainer, Exec.bind_of_ok hvalue,
      Exec.bind_of_ok (Exec.heap_apply L), hL.heap]
    simp only [Heap.asTable, Exec.ofFault, if_true]
    rw [Exec.bind_of_ok (Exec.pure_apply _ L),
      show s.machine.heap.tableMethod t "__uen" = some method from hmethod]
    exact Exec.bind_of_ok hrotate
  have hphases : s.op.phaseCount = 2 := by
    rw [hop]
    rfl
  have hlast : Exec.execute host s.function s.context s.op s.imm 1 = pure none := by
    rw [hop]
    rfl
  simpa only [shaped_zero, List.nil_append] using
    asks_and_ends hsyscall hstep (hcall.trans hinvoke) hP hphases hlast

end

/-! ### The contract -/

section

variable (hsyscall : ∀ i, host.syscall i = none)
include hsyscall

theorem binary {o : BinaryOp} {x y : Value} (hop : s.op = .binary o) (hxy : s.operands = [x, y]) :
    s.Binary host o x y := by
  unfold Binary
  cases hnative : Operator.binary s.machine.heap o x y with
  | error f => exact binary_fault host hop hxy hnative
  | ok native =>
    cases native with
    | some value => exact binary_native host hop hxy hnative
    | none =>
      have hlookup : s.machine.heap.overloadMethod o x y
          = (s.machine.heap.metamethod x (Overload.ofBinary o).name).or
            (s.machine.heap.metamethod y (Overload.ofBinary o).name) :=
        s.machine.heap.binaryMethod_order o x y _
      obtain ⟨a, b, hab, hargs⟩ : ∃ a b, (Overload.ofBinary o).order x y = (a, b) ∧
          (if o = .gtr ∨ o = .geq then [y, x] else [x, y]) = [a, b] := by
        rw [Overload.order_ofBinary]
        split
        · exact ⟨y, x, rfl, rfl⟩
        · exact ⟨x, y, rfl, rfl⟩
      simp only [← hlookup, hargs]
      cases hmethod : s.machine.heap.overloadMethod o x y with
      | none => exact binary_missing host hop hxy hnative hmethod
      | some method =>
        simp only
        split
        case isTrue horder =>
          exact order_method hsyscall hop hxy horder hnative hmethod hab
        case isFalse horder =>
          exact binary_method hsyscall hop hxy horder hnative hmethod hab

theorem unary {u : UnaryOp} {x : Value} (hop : s.op = .unary u) (hx : s.operands = [x]) :
    s.Unary host u x := by
  unfold Unary
  cases hnative : Operator.unary u x with
  | some value => exact unary_native host hop hx hnative
  | none =>
    cases hmethod : s.machine.heap.metamethod x (Overload.ofUnary u) with
    | some method => exact unary_method hsyscall hop hx hnative hmethod
    | none => exact unary_missing host hop hx hnative hmethod

theorem read {container key : Value} (hop : s.op = .table .read)
    (hoperands : s.operands = [container, key]) : s.Read host container key := by
  cases container with
  | vector w => exact read_vector host hop hoperands
  | table t =>
    simp only [Read]
    cases hmethod : s.machine.heap.metamethod (.table t) "__ren" with
    | some method => exact read_method hsyscall hop hoperands hmethod
    | none => exact read_table host hop hoperands hmethod
  | _ => exact read_mismatch host hop hoperands (by simp) rfl

theorem update {value container key : Value} (hop : s.op = .table .update)
    (hoperands : s.operands = [value, container, key]) : s.Update host value container key := by
  cases container with
  | vector w => exact update_vector host hop hoperands
  | table t =>
    simp only [Update]
    cases hmethod : s.machine.heap.metamethod (.table t) "__uen" with
    | some method => exact update_method hsyscall hop hoperands hmethod
    | none => exact update_table host hop hoperands hmethod
  | _ => exact update_mismatch host hop hoperands (by simp) rfl

end

end Operation

/-- **The contract of the operator instructions.**  A metamethod is an entry of the metatable of a
value that can be called.  Every operator instruction does with its operands what `Binary`, `Unary`,
`Read` and `Update` say, whatever lies below them. -/
theorem operator_contract {host : Host σ} (hsyscall : ∀ i, host.syscall i = none) :
    (∀ (h : Heap) (v : Value) (name : String) (method : Value),
      h.metamethod v name = some method ↔
        ∃ t u, v = .table t ∧ (h.table t).metatable = some u ∧
          h.readEntry u (.str name) = some method ∧ method.invokable = true) ∧
    ∀ s : Operation σ,
      (∀ (o : BinaryOp) (x y : Value), s.op = .binary o → s.operands = [x, y] →
        s.Binary host o x y) ∧
      (∀ (u : UnaryOp) (x : Value), s.op = .unary u → s.operands = [x] → s.Unary host u x) ∧
      (∀ container key : Value, s.op = .table .read → s.operands = [container, key] →
        s.Read host container key) ∧
      ∀ value container key : Value, s.op = .table .update →
        s.operands = [value, container, key] → s.Update host value container key := by
  refine ⟨fun _ _ _ _ => Heap.metamethod_eq_some, fun s => ⟨?_, ?_, ?_, ?_⟩⟩
  · exact fun _ _ _ hop hxy => s.binary hsyscall hop hxy
  · exact fun _ _ hop hx => s.unary hsyscall hop hx
  · exact fun _ _ hop hoperands => s.read hsyscall hop hoperands
  · exact fun _ _ _ hop hoperands => s.update hsyscall hop hoperands

/-- A closure whose code is `Gtr`, and a table whose metatable has `__lss`. -/
def Heap.ordered : Heap :=
  let h : Heap := { Heap.empty with
    units := ⟨#[⟨#[{ (default : Prototype) with code := #[0x0a] }], #[], 0⟩]⟩
    functions := ⟨#[⟨⟨0⟩, 0, none⟩]⟩
    contexts := ⟨#[⟨none, .empty, .empty⟩]⟩
    tables := ⟨#[{ Table.empty with metatable := some ⟨1⟩ }, .empty]⟩ }
  h.writeEntry ⟨1⟩ (.str "__lss") (.pureFn ⟨0⟩)

/-- The closure about to compare a number with the table. -/
def Operation.greater : Operation Unit where
  machine := {
    heap := .ordered
    memory := { Stacks.new .standard with
      values := ⟨#[.nil, .int 3, .table ⟨0⟩], 4⟩
      frames := ⟨#[⟨.bytecode ⟨0⟩ ⟨0⟩, 0, 1, 1, 1, 0, 0, 0, 0, none, .none⟩], 4⟩ }
    config := .standard
    state := () }
  below := []
  frame := ⟨.bytecode ⟨0⟩ ⟨0⟩, 0, 1, 1, 1, 0, 0, 0, 0, none, .none⟩
  function := ⟨0⟩
  context := ⟨0⟩
  op := .binary .gtr
  imm := 0
  next := 1
  kept := [.nil]
  operands := [.int 3, .table ⟨0⟩]
  begins := ⟨rfl, rfl, rfl, ⟨0x0a, rfl⟩⟩
  values := rfl
  room := Nat.le_refl 1

/-- A number compared with a table: `__lss` is asked about the table and the number. -/
theorem operator_contract_greater :
    (∀ i, Host.bare.syscall i = none) ∧
    Operation.greater.op = .binary .gtr ∧
    Operation.greater.operands = [.int 3, .table ⟨0⟩] ∧
    Operation.greater.Asks .bare 0 (.pureFn ⟨0⟩) [] [.table ⟨0⟩, .int 3] 1
      (fun R L => Operation.greater.Ends .bare 1 [.bool (R.headD .nil).truthy] L.heap L)
      Operation.greater.machine := by
  have hnative : Operator.binary Operation.greater.machine.heap .gtr (.int 3) (.table ⟨0⟩)
    = .ok none :=
    rfl
  have hmethod : (Operation.greater.machine.heap.metamethod (.int 3) "__lss").or
      (Operation.greater.machine.heap.metamethod (.table ⟨0⟩) "__lss")
        = some (.pureFn ⟨0⟩) := by
    decide +kernel
  have hsyscall : ∀ i, Host.bare.syscall i = none := fun _ => rfl
  have hbinary := ((operator_contract hsyscall).2 .greater).1 .gtr (.int 3) (.table ⟨0⟩) rfl rfl
  refine ⟨hsyscall, rfl, rfl, ?_⟩
  rw [Operation.Binary, hnative] at hbinary
  simp only [Overload.ofBinary, Overload.flipped, hmethod] at hbinary
  exact hbinary

end ScriptVm
