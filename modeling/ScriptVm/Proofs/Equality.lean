import ScriptVm.Proofs.OperatorContract
import ScriptVm.Proofs.OrderedMap

/-!
# The two equalities

The operator `Equ` and the keys of tables compare values by rules of their own.
`Equ` has a native equality, then the metamethod `__equ`, and at last identity;
keys have raw equality, and a hash.

All of them see the same of a value: a closure is the prototype that it runs and the
context that it is bound to, and any other value is itself.  So `Equ` comes to raw
equality wherever no metamethod speaks and no integer is widened to a float.

Main statements: `Operator.equals_eq_rawEquals`, `equality_agreement`.
-/

namespace ScriptVm

variable {σ : Type}

namespace Operator

/-- What `Equ` says of its operands when no metamethod speaks. -/
def equals (h : Heap) (x y : Value) : Bool :=
  (nativeEquals? h x y).getD (identical x y)

/-- One of two values is an integer, the other one a float. -/
def Mixed (x y : Value) : Prop :=
  x.type = .integer ∧ y.type = .float ∨ x.type = .float ∧ y.type = .integer

/-- **`Equ` is raw equality** where no integer is widened to a float. -/
theorem equals_eq_rawEquals (h : Heap) {x y : Value} (hsorted : ¬ Mixed x y) :
    equals h x y = h.rawEquals x y := by
  cases x <;> cases y <;>
    simp_all [equals, nativeEquals?, identical, Heap.rawEquals, Value.sameObject, Value.type,
      bothNumeric?, widen?, Mixed]

end Operator

namespace Operation

variable {host : Host σ} {s : Operation σ} {x y : Value}

/-- `Equ` without a metamethod ends at once. -/
theorem equ_ends (host : Host σ) (hop : s.op = .binary .equ) (hxy : s.operands = [x, y])
    (hx : ¬ s.machine.heap.Overloads x "__equ") (hy : ¬ s.machine.heap.Overloads y "__equ") :
    s.Ends host 0 [.bool (Operator.equals s.machine.heap x y)] s.machine.heap s.machine := by
  have hmethod : s.machine.heap.overloadMethod .equ x y = none := by
    show (s.machine.heap.metamethod x "__equ").or (s.machine.heap.metamethod y "__equ") = none
    rw [Heap.metamethod_eq_none.mpr hx, Heap.metamethod_eq_none.mpr hy]
    rfl
  cases hnative : Operator.nativeEquals? s.machine.heap x y with
  | some equal =>
    have hbinary : Operator.binary s.machine.heap .equ x y = .ok (some (.bool equal)) := by
      simp [Operator.binary, hnative]
    rw [Operator.equals, hnative]
    exact binary_native host hop hxy hbinary
  | none =>
    have hbinary : Operator.binary s.machine.heap .equ x y = .ok none := by
      simp [Operator.binary, hnative]
    rw [Operator.equals, hnative]
    exact binary_missing host hop hxy hbinary hmethod

end Operation

/-- **The equality of the operator and the equality of keys are one.**  Take any operands, neither
of which overloads `__equ`, and which are not an integer and a float: `Equ` pushes whether they are
raw-equal.  In every heap, raw equality is an equivalence, and raw-equal values have one hash. -/
theorem equality_agreement (host : Host σ) :
    (∀ (s : Operation σ) (x y : Value), s.op = .binary .equ → s.operands = [x, y] →
      ¬ s.machine.heap.Overloads x "__equ" → ¬ s.machine.heap.Overloads y "__equ" →
      ¬ Operator.Mixed x y →
      s.Ends host 0 [.bool (s.machine.heap.rawEquals x y)] s.machine.heap s.machine) ∧
    ∀ h : Heap, (Equivalence fun x y => h.rawEquals x y = true) ∧
      ∀ x y, h.rawEquals x y = true → h.rawHash x = h.rawHash y := by
  refine ⟨?_, fun h => ⟨h.rawKeys_lawful.equivalence, fun x y => h.hash_eq_of_rawEquals⟩⟩
  intro s x y hop hxy hx hy hsorted
  rw [← Operator.equals_eq_rawEquals s.machine.heap hsorted]
  exact s.equ_ends host hop hxy hx hy

/-- A closure whose code is `Equ`, about to compare two closures that were made alike. -/
def Operation.comparing : Operation Unit where
  machine := {
    heap := { Heap.empty with
      units :=
        ⟨#[⟨#[{ (default : Prototype) with code := #[(Op.binary .equ).byte] }], #[], 0⟩]⟩
      functions :=
        ⟨#[⟨⟨0⟩, 0, none⟩, ⟨⟨0⟩, 0, some ⟨0⟩⟩,
          ⟨⟨0⟩, 0, some ⟨0⟩⟩]⟩
      contexts := ⟨#[⟨none, .empty, .empty⟩]⟩ }
    memory := { Stacks.new .standard with
      values := ⟨#[.function ⟨1⟩, .function ⟨2⟩], 4⟩
      frames := ⟨#[⟨.bytecode ⟨0⟩ ⟨0⟩, 0, 0, 0, 0, 0, 0, 0, 0, none, .none⟩], 4⟩ }
    config := .standard
    state := () }
  below := []
  frame := ⟨.bytecode ⟨0⟩ ⟨0⟩, 0, 0, 0, 0, 0, 0, 0, 0, none, .none⟩
  function := ⟨0⟩
  context := ⟨0⟩
  op := .binary .equ
  imm := 0
  next := 1
  kept := []
  operands := [.function ⟨1⟩, .function ⟨2⟩]
  begins := ⟨rfl, rfl, rfl, ⟨(Op.binary .equ).byte, rfl⟩⟩
  values := rfl
  room := Nat.le_refl 0

/-- Two closures over one prototype, bound to one context, are equal although they are two
objects. -/
theorem equality_agreement_closures :
    let s := Operation.comparing
    let h := s.machine.heap
    let x := Value.function ⟨1⟩
    let y := Value.function ⟨2⟩
    (s.op = .binary .equ ∧ s.operands = [x, y] ∧ ¬ h.Overloads x "__equ" ∧
      ¬ h.Overloads y "__equ" ∧
      ¬ Operator.Mixed x y) ∧
    h.rawEquals x y = true ∧ s.Ends .bare 0 [.bool true] h s.machine ∧
    h.rawHash x = h.rawHash y := by
  intro s h x y
  have plain (r : Ref .function) : ¬ h.Overloads (.function r) "__equ" := by
    rintro ⟨t, u, method, hv, -⟩
    cases hv
  have hsorted : ¬ Operator.Mixed x y := by
    rintro (⟨hx, -⟩ | ⟨hx, -⟩) <;> cases hx
  have hraw : h.rawEquals x y = true := by decide +kernel
  have hends := (equality_agreement .bare).1 s x y rfl rfl (plain ⟨1⟩) (plain ⟨2⟩) hsorted
  rw [show s.machine.heap.rawEquals x y = true from hraw] at hends
  exact ⟨⟨rfl, rfl, plain ⟨1⟩, plain ⟨2⟩, hsorted⟩, hraw, hends,
    ((equality_agreement .bare).2 h).2 x y hraw⟩

end ScriptVm
