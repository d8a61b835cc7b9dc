import ScriptVm.Proofs.Compilation
import ScriptVm.Proofs.StackLayout
import ScriptVm.Proofs.UnitText

/-!
# Frames and words of 64 bits

Where the operands of a frame start is a sum: the height of the value stack when the
frame is made, and the number of local variables of the prototype.  A machine with words
of 64 bits has to be able to tell it, and does not come to it otherwise.

How many local variables a prototype may have depends on the file that it is from.  A
binary one has four bytes for the number, and then the sum fits as long as there are less
than `2 ^ 64 - 2 ^ 32` values.  One in JSON may have any word there, and nothing looks at
it before the call.  So a unit that is loaded without complaint can have a function that
cannot be called.

What is made is in order: no frame has bases that have wrapped around, and no instruction
on local variables gets out of them.

Main statements: `frame_bases` and `overflow_on_call` (a unit from a file and a call of it
that comes to nothing).
-/

namespace ScriptVm

variable {σ : Type} {host : Host σ}

/-! ### Sizes in files -/

/-- The items of a list that has been read. -/
theorem Json.exists_of_mem_list? {α : Type} {read : Json → Option α} {j : Json}
    {items : List α}
    (h : j.list? read = some items) {x : α} (hx : x ∈ items) : ∃ d, read d = some x := by
  unfold Json.list? at h
  split at h
  · next docs =>
    induction docs generalizing items with
    | nil =>
      cases h
      cases hx
    | cons d docs ih =>
      simp only [List.mapM_cons, Option.bind_eq_bind, Option.bind_eq_some_iff, Option.pure_def,
        Option.some.injEq] at h
      obtain ⟨y, hy, rest, hrest, rfl⟩ := h
      rcases List.mem_cons.mp hx with rfl | hx
      · exact ⟨d, hy⟩
      · exact ih hx hrest
  · cases h

theorem Json.lt_of_size? {j : Json} {n : Nat} (h : j.size? = some n) : n < UInt64.size := by
  unfold Json.size? Json.natBelow? at h
  split at h
  · exact of_decide_eq_true (Option.filter_eq_some_iff.mp h).2
  · cases h

theorem Prototype.locals_of_ofMembers? {name code locals : Json} {declared : Option Json}
    {p : Prototype}
    (h : ofMembers? name code locals declared = some p) : p.locals < UInt64.size := by
  simp only [ofMembers?, Option.bind_eq_bind, Option.bind_eq_some_iff, Option.pure_def] at h
  obtain ⟨_, -, _, -, n, hn, h⟩ := h
  have hlocals : p.locals = n := by
    split at h
    all_goals
      obtain ⟨_, -, hp⟩ := Option.bind_eq_some_iff.mp h
      cases hp
      rfl
  exact hlocals ▸ Json.lt_of_size? hn

theorem Prototype.locals_of_ofJson? {j : Json} {p : Prototype} (h : ofJson? j = some p) :
    p.locals < UInt64.size := by
  unfold ofJson? at h
  split at h
  · simp only [Option.bind_eq_bind, Option.bind_eq_some_iff] at h
    obtain ⟨_, -, _, -, _, -, _, -, _, -, hmembers⟩ := h
    exact locals_of_ofMembers? hmembers
  · exact locals_of_ofMembers? h
  · exact locals_of_ofMembers? h
  · cases h

namespace CodeUnit

theorem locals_of_ofMembers? {prototypes strings entry : Json} {u : CodeUnit}
    (h : ofMembers? prototypes strings entry = some u) : ∀ p ∈ u.prototypes,
    p.locals < UInt64.size := by
  simp only [ofMembers?, Option.bind_eq_bind, Option.bind_eq_some_iff, Option.pure_def,
    Option.some.injEq] at h
  obtain ⟨items, hitems, _, -, _, -, rfl⟩ := h
  intro p hp
  obtain ⟨j, hj⟩ := Json.exists_of_mem_list? hitems (by simpa using hp)
  exact Prototype.locals_of_ofJson? hj

theorem locals_of_ofJson? {j : Json} {u : CodeUnit} (h : ofJson? j = some u) :
    ∀ p ∈ u.prototypes, p.locals < UInt64.size := by
  unfold ofJson? at h
  split at h
  · simp only [Option.bind_eq_bind, Option.bind_eq_some_iff] at h
    obtain ⟨_, -, _, -, _, -, _, -, hmembers⟩ := h
    exact locals_of_ofMembers? hmembers
  · exact locals_of_ofMembers? h
  · cases h

theorem locals_of_ofJsonBytes? {bytes : Bytes} {u : CodeUnit} (h : ofJsonBytes? bytes = some u) :
    ∀ p ∈ u.prototypes, p.locals < UInt64.size := by
  unfold ofJsonBytes? at h
  split at h
  · obtain ⟨j, -, hj⟩ := Option.bind_eq_some_iff.mp h
    exact locals_of_ofJson? hj
  · split at h
    · cases h
    · obtain ⟨j, -, hj⟩ := Option.bind_eq_some_iff.mp h
      exact locals_of_ofJson? hj

/-- **The local variables of a loaded unit** are as many as its file can tell: four bytes, or a
word. -/
theorem locals_of_load {bytes : Bytes} {u : CodeUnit} (h : load bytes = .ok u) :
    ∀ p ∈ u.prototypes, p.locals < if isBinary bytes then UInt32.size else UInt64.size := by
  by_cases hbinary : isBinary bytes = true
  · rw [if_pos hbinary]
    exact (fits_of_load h hbinary).locals
  · rw [if_neg hbinary]
    rw [load, if_neg hbinary] at h
    split at h
    · next v hv =>
      cases h
      exact locals_of_ofJsonBytes? hv
    · cases h

end CodeUnit

/-! ### Frames -/

/-- **A frame of a closure with bases that have not wrapped around**: its arguments lie below its
local variables, it has as many of these as the prototype says, and all bases are words. -/
structure Frame.Bounded (h : Heap) (r : Ref .function) (f : Frame) : Prop where
  arguments : f.stackBase + f.argumentCount = f.localsBase
  ordered : f.stackBase ≤ f.localsBase ∧ f.localsBase ≤ f.privateBase
  count : f.localCount = (h.prototype r).locals
  word : f.privateBase < UInt64.size

theorem Sizes.add_word64_eq_ok {a b n : Nat} (h : word64.add a b = .ok n) :
    n = a + b ∧ n < UInt64.size := by
  have hsum := eq_add_of_add_eq_ok h
  simp only [add] at h
  split at h
  · next hlt => exact ⟨hsum, hsum ▸ hlt⟩
  · cases h

theorem Frame.Bounded.of_sum {h : Heap} {r : Ref .function} {f : Frame}
    (arguments : f.stackBase + f.argumentCount = f.localsBase)
    (hroom : Sizes.word64.add f.localsBase (h.prototype r).locals = .ok f.privateBase) :
    f.Bounded h r := by
  obtain ⟨hsum, hword⟩ := Sizes.add_word64_eq_ok hroom
  refine ⟨arguments, by omega, ?_, hword⟩
  rw [localCount, hsum, Nat.add_sub_cancel_left]

theorem Stacks.Fitting.bounded {h : Heap} {s : Stacks} (hs : s.Fitting host h)
    (hsizes : host.sizes = .word64)
    {f : Frame} (hf : f ∈ s.frames.toList) {r : Ref .function} {context : Ref .context}
    (hactivity : f.activity = .bytecode r context) : f.Bounded h r := by
  have measured := hs.measured f.extent (List.mem_map_of_mem hf)
  obtain ⟨-, -, hroom⟩ := measured.locals r (Frame.closure_extent hactivity)
  rw [hsizes] at hroom
  exact .of_sum measured.arguments hroom

/-- **A frame has a local variable**, in that slot. -/
structure Frame.HasLocal (f : Frame) (imm : Int64) (i : Nat) : Prop where
  positive : 0 ≤ imm
  slot : i = f.localsBase + imm.toNatClampNeg
  above : f.localsBase ≤ i
  below : i < f.privateBase

namespace Exec

variable {M : Machine σ} {f : Frame} {r : Ref .function}

/-! ### Calls -/

/-- **A closure is entered** if its operands start at a word. -/
theorem enter_bounded (hsizes : host.sizes = .word64) {base : Nat} (returnSize : Option Nat)
    (context : Option (Ref .context)) (hbase : base ≤ M.memory.values.size)
    (hroom : M.memory.values.size + (M.heap.prototype r).locals < UInt64.size) :
    ∃ N f, enter host r base returnSize context M = .ok () N ∧
      N.memory.frames.toList = M.memory.frames.toList ++ [f] ∧ f.stackBase = base ∧
      f.localsBase = M.memory.values.size ∧ N.memory.values.size = f.privateBase ∧
      f.Bounded N.heap r := by
  have hadd : host.sizes.add M.memory.values.size (M.heap.prototype r).locals
      = .ok (M.memory.values.size + (M.heap.prototype r).locals) := by
    rw [hsizes, Sizes.add, if_pos hroom]
  refine ⟨_, _, enter_of_room returnSize context hbase hadd, Stack.toList_push _ _, rfl,
    rfl, ?_, ?_⟩
  · rw [Stack.size_eq_length, Machine.entered, Stack.toList_fillTo, List.length_append,
      List.length_replicate, ← Stack.size_eq_length]
    exact Nat.add_sub_cancel' (Nat.le_add_right _ _)
  · refine .of_sum (Nat.add_sub_cancel' hbase) ?_
    rw [← hsizes, ← hadd, Machine.entered, Heap.declareVariables_eq]
    cases context <;> rfl

/-- Otherwise that is a defect, and no frame is made. -/
theorem enter_overflows (hsizes : host.sizes = .word64) {base : Nat} (returnSize : Option Nat)
    (context : Option (Ref .context)) (hbase : base ≤ M.memory.values.size)
    (hroom : UInt64.size ≤ M.memory.values.size + (M.heap.prototype r).locals) :
    enter host r base returnSize context M = .error (.defect .sizeOverflow) M := by
  refine enter_of_limit returnSize context hbase ?_
  rw [hsizes, Sizes.add, if_neg (Nat.not_lt.mpr hroom)]

/-! ### Local variables -/

/-- The position of a local variable, if the frame has it. -/
theorem localSlot_bounded (hf : M.memory.frames.last? = some f) (bounded : f.Bounded M.heap r)
    (imm : Int64) :
    (∃ i, f.HasLocal imm i ∧ localSlot imm M = .ok i M) ∨
      ¬ (0 ≤ imm ∧ imm.toNatClampNeg < (M.heap.prototype r).locals) ∧
        localSlot imm M
          = .error (.fault (.localIndexOutOfRange imm (M.heap.prototype r).locals)) M := by
  have hcount : f.privateBase - f.localsBase = (M.heap.prototype r).locals := bounded.count
  rw [localSlot, bind_of_ok (frame_apply hf), bounded.count]
  by_cases hout : imm < 0 ∨ (M.heap.prototype r).locals ≤ imm.toNatClampNeg
  · refine .inr ⟨fun hin => ?_, by rw [if_pos hout]; rfl⟩
    obtain ⟨hpositive, hlt⟩ := hin
    rcases hout with hnegative | hhigh
    · exact absurd hnegative (Int64.not_lt.mpr hpositive)
    · omega
  · obtain ⟨hpositive, hlt⟩ := not_or.mp hout
    exact .inl ⟨_,
      ⟨Int64.not_lt.mp hpositive, rfl, by omega, by omega⟩, by rw [if_neg hout]; rfl⟩

/-- **What an instruction on a local variable does** to a machine with the frame on top: it reads or
writes one of the slots of the local variables of the frame, or there is no such variable, and
nothing happens but a fault. -/
structure Accesses (f : Frame) (bound : Nat) (imm : Int64) (M : Machine σ) : Prop where
  load : ∀ N, loadLocal imm M = .ok () N → ∃ i v, f.HasLocal imm i ∧
    M.memory.values.toList[i]? = some v ∧ N = M.onValues fun values => values.push v
  store : ∀ N, storeLocal imm M = .ok () N → ∃ i v, f.HasLocal imm i ∧
    M.memory.values.last? = some v ∧ N = M.onValues fun values => values.dropLast.write i v
  refused : ¬ (0 ≤ imm ∧ imm.toNatClampNeg < bound) →
    loadLocal imm M = .error (.fault (.localIndexOutOfRange imm bound)) M ∧
      storeLocal imm M = .error (.fault (.localIndexOutOfRange imm bound)) M

theorem accesses (hf : M.memory.frames.last? = some f) (bounded : f.Bounded M.heap r)
    (imm : Int64) : Accesses f (M.heap.prototype r).locals imm M := by
  rcases localSlot_bounded hf bounded imm with ⟨i, own, hslot⟩ | ⟨hout, hfault⟩
  · constructor
    case load =>
      intro N hN
      rw [loadLocal, bind_of_ok hslot] at hN
      obtain ⟨v, L, hv, hpush⟩ := bind_eq_ok hN
      obtain ⟨hget, rfl⟩ := ofDefect_eq_ok hv
      rw [Stack.get_eq] at hget
      split at hget
      · next w hw =>
        cases hget
        cases hpush
        exact ⟨i, v, own, hw, rfl⟩
      · cases hget
    case store =>
      intro N hN
      rw [storeLocal, bind_of_ok hslot] at hN
      obtain ⟨v, L, hv, hset⟩ := bind_eq_ok hN
      obtain ⟨hvalues, rfl⟩ := pop_eq_ok hv
      refine ⟨i, v, own, Stack.last?_of_toList hvalues, ?_⟩
      rw [setSlot, bind_of_ok (height_apply _)] at hset
      split at hset
      · cases hset
        rfl
      · cases hset
    case refused =>
      have hcount : f.privateBase - f.localsBase = (M.heap.prototype r).locals := bounded.count
      obtain ⟨hpositive, hi, -, hlt⟩ := own
      exact fun hout => absurd ⟨hpositive, by omega⟩ hout
  · have hload : loadLocal imm M
        = .error (.fault (.localIndexOutOfRange imm (M.heap.prototype r).locals)) M :=
          bind_of_error hfault
    have hstore : storeLocal imm M
        = .error (.fault (.localIndexOutOfRange imm (M.heap.prototype r).locals)) M :=
          bind_of_error hfault
    exact ⟨fun N hN => by simp [hload] at hN, fun N hN => by simp [hstore] at hN,
      fun _ => ⟨hload, hstore⟩⟩

end Exec

/-! ### All frames -/

/-- All frames of closures have bases that have not wrapped around. -/
def Stacks.Bounded (h : Heap) (s : Stacks) : Prop :=
  ∀ f ∈ s.frames.toList, ∀ r context, f.activity = .bytecode r context → f.Bounded h r

/-- The frames of all coroutines. -/
def Heap.Bounded (h : Heap) : Prop :=
  ∀ r, (h.coroutine r).memory.Bounded h

/-- **The bases of frames.**  The number of local variables of a loaded function is below `2 ^ 32`
if its file is binary, and may be any word if that is in JSON.  A call makes a frame, with bases
that are words and in order, if the height of the value stack and that number have a sum below `2 ^
64`, and is a defect if not.  So in every state that a host can bring about, between two of its
errands and between two steps of a run, the frames of all coroutines have such bases.  The
instructions on local variables do not get out of these. -/
theorem frame_bases {keeps : (Ref .function → Prop) → σ → Prop}
    (hsizes : host.sizes = .word64)
    (orderly : host.Orderly) (tidy : host.Tidy) (rooted : host.Rooted keeps) :
    (∀ bytes u, CodeUnit.load bytes = .ok u →
      ∀ p ∈ u.prototypes, p.locals < if CodeUnit.isBinary bytes then UInt32.size
        else UInt64.size) ∧
    (∀ u : CodeUnit, u.Sized → CodeUnit.load (.ofString u.toJsonText) = .ok u) ∧
    (∀ (M : Machine σ) r base returnSize context, base ≤ M.memory.values.size →
      (M.memory.values.size + (M.heap.prototype r).locals < UInt64.size →
        ∃ N f, Exec.enter host r base returnSize context M = .ok () N ∧
          N.memory.frames.toList = M.memory.frames.toList ++ [f] ∧ f.stackBase = base ∧
          f.localsBase = M.memory.values.size ∧ N.memory.values.size = f.privateBase ∧
          f.Bounded N.heap r) ∧
      (UInt64.size ≤ M.memory.values.size + (M.heap.prototype r).locals →
        Exec.enter host r base returnSize context M = .error (.defect .sizeOverflow) M)) ∧
    (∀ vm : Vm σ, vm.Arises host (Host.Owned keeps) → vm.heap.Bounded) ∧
    (∀ (vm : Vm σ) r args, vm.Occurs host (Host.Owned keeps) r args →
      vm.heap.Bounded ∧ (Coroutine.canResume (vm.heap.coroutine r).state →
        ∀ M, vm.Runs host r args M → M.memory.Bounded M.heap ∧ M.heap.Bounded)) ∧
    ∀ (M : Machine σ) f r imm, M.memory.frames.last? = some f → f.Bounded M.heap r →
      Exec.Accesses f (M.heap.prototype r).locals imm M := by
  let I : Stacks.Invariant host := Stacks.fitting orderly tidy rooted
  have covers : I.premise.Covers (Host.Owned keeps) := Vm.Premise.intact_covers rooted
  have hbounded {h : Heap} (hs : h.Upholds I) : h.Bounded := by
    intro q f hf r context hactivity
    have hq : (h.coroutine q).memory.Fitting host h := (hs.coroutine q).memory
    exact hq.bounded hsizes hf hactivity
  refine ⟨fun _ _ => CodeUnit.locals_of_load, fun _ => CodeUnit.load_toJsonText, ?calls,
    fun vm arises => hbounded (arises.upholds covers), ?resumes, fun _ _ _ imm hf bounded =>
    Exec.accesses hf bounded imm⟩
  case calls =>
    intro M r base returnSize context hbase
    exact ⟨Exec.enter_bounded hsizes returnSize context hbase,
      Exec.enter_overflows hsizes returnSize context hbase⟩
  case resumes =>
    intro vm r args occurs
    have hvm : vm.heap.Upholds I := occurs.upholds covers
    refine ⟨hbounded hvm, fun haccepted M runs => ?_⟩
    obtain ⟨-, hmemory, hheap⟩ := I.keeping.runs hvm haccepted (covers occurs) runs
    have hnow : M.memory.Fitting host M.heap := hmemory
    exact ⟨fun f hf q context hactivity => hnow.bounded hsizes hf hactivity, hbounded hheap⟩

/-- A coroutine that waits in the middle of a call, after a function of the host has been called.
The host has system calls as well. -/
theorem frame_bases_yielding :
    let host := Scripted.Library.host ⟨#[.sum], #[], #[]⟩ fun _ => some [.push (.int 1)]
    let keeps (_ : Ref .function → Prop) (_ : Array Scripted.Event) : Prop := True
    let vm :=
      Vm.last
        ((Errand.resume ⟨0⟩ [.int 7, .pureFn ⟨0⟩]).run host 20 (Vm.over .yielding #[]))
    let memory := (vm.heap.coroutine ⟨0⟩).memory
    host.sizes = .word64 ∧ host.Orderly ∧ host.Tidy ∧ host.Rooted keeps ∧
    vm.Arises host (Host.Owned keeps) ∧ memory.frames.size = 2 ∧ memory.Bounded vm.heap := by
  intro host keeps vm memory
  have orderly : host.Orderly := Scripted.Library.orderly _ _
  have tidy : host.Tidy := Scripted.Library.tidy _ _
  have rooted : host.Rooted keeps := by
    refine Scripted.Library.honest (by decide +kernel) (fun i script hscript => ?_) _
    cases hscript
    rfl
  have held : (Errand.resume ⟨0⟩ [.int 7, .pureFn ⟨0⟩]).Held (Vm.over .yielding ()).heap :=
    ⟨Nat.zero_lt_one, by simp [Value.Held]⟩
  have hanswer : Vm.failure? ((Errand.resume ⟨0⟩ [.int 7, .pureFn ⟨0⟩]).run host 20
      (Vm.over .yielding #[])) = none := by
    decide +kernel
  have before : (Vm.over .yielding #[]).Arises host (Host.Owned keeps) :=
    Vm.arises_over (u := .yielding) host Nat.zero_lt_two trivial
  have arises : vm.Arises host (Host.Owned keeps) := before.errand held 20 fun d vm' h => by
    rw [h] at hanswer
    cases hanswer
  exact ⟨rfl, orderly, tidy, rooted, arises, by decide +kernel,
    (frame_bases rfl orderly tidy rooted).2.2.2.1 vm arises ⟨0⟩⟩

/-! ### A function that cannot be called -/

/-- A function with as many local variables as a word can count (`0x31` loads the number one). -/
def CodeUnit.vast : CodeUnit :=
  ⟨#[⟨"vast", #[0x31, (Op.control .ret).byte], 0xffffffffffffffff, []⟩], #[], 0⟩

/-- **Nothing keeps the sum within a word.**  That unit is loaded from a file in JSON, and running
it with one argument comes to a defect. -/
theorem overflow_on_call :
    CodeUnit.load (.ofString CodeUnit.vast.toJsonText) = .ok CodeUnit.vast ∧
    Vm.outcome (Vm.executeLoaded .bare 9 CodeUnit.vast [.int 1] none (.new .standard ()))
      = .error (.defect .sizeOverflow) := by
  have hsized : CodeUnit.vast.Sized := ⟨by simp [CodeUnit.vast, UInt64.size], by decide⟩
  have hfailure :
      Vm.failure? (Vm.executeLoaded .bare 9 CodeUnit.vast [.int 1] none (.new .standard ()))
        = some (.defect .sizeOverflow) := by decide +kernel
  obtain ⟨vm', hrun, -⟩ := Vm.error_of_failure? hfailure
  exact ⟨CodeUnit.load_toJsonText hsized, by rw [hrun]; rfl⟩

end ScriptVm
