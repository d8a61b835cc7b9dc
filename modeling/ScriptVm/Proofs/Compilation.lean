import ScriptVm.CommandLine.Program
import ScriptVm.Proofs.Rounds
import ScriptVm.Proofs.UnitFile

/-!
# Units, compiled

A unit file in JSON may say things that a binary one cannot: an entry that is none
of the functions, and more local variables than a word of four bytes can count.
Writing the binary form does not look at that.  The number of local variables is
cut to its word, and if no function carries the entry flag then the first one is
the entry when the file is read.

`CodeUnit.narrowed` is the unit that comes out.  It is the same unit exactly if the
unit `Fits`, and every unit that was read from a binary file does.  An entry out of
range is what makes a difference that nobody is told about: the unit was refused,
and its binary form runs.

Main statements: `CodeUnit.narrowed_eq_iff`, `CodeUnit.fits_of_ofBinary`,
`compiled_outcome` (what running the binary form comes to) and
`compiled_entry_changes` (the two outcomes can differ).
-/

namespace ScriptVm

variable {σ : Type}

/-- The prototype with as many local variables as its word of four bytes can count. -/
def Prototype.narrowed (p : Prototype) : Prototype :=
  { p with locals := p.locals % UInt32.size }

theorem Prototype.narrowed_eq_iff {p : Prototype} : p.narrowed = p ↔ p.locals < UInt32.size := by
  constructor
  · intro h
    rw [← congrArg Prototype.locals h]
    exact Nat.mod_lt _ (by decide)
  · intro h
    rw [narrowed, Nat.mod_eq_of_lt h]

namespace CodeUnit

open Binary

/-- The unit with counts of local variables that are words of four bytes. -/
def shrunk (u : CodeUnit) : CodeUnit :=
  { u with prototypes := u.prototypes.map Prototype.narrowed }

/-- **What a unit is read back as** after it was written in binary form. -/
def narrowed (u : CodeUnit) : CodeUnit :=
  u.shrunk.entered

/-- What the binary form can say: the entry is one of the functions, or the first place when there
are none, and every function has few enough local variables. -/
structure Fits (u : CodeUnit) : Prop where
  entry : u.Entered
  locals : ∀ p ∈ u.prototypes, p.locals < UInt32.size

theorem entered_eq_iff {u : CodeUnit} : u.entered = u ↔ u.Entered := by
  refine ⟨fun h => ?_, Entered.entered_eq⟩
  have hentry : (if u.entry < u.prototypes.size then u.entry else 0) = u.entry :=
    congrArg CodeUnit.entry h
  by_cases hlt : u.entry < u.prototypes.size
  · exact .inl hlt
  · rw [if_neg hlt] at hentry
    rw [← hentry] at hlt
    exact .inr ⟨Array.eq_empty_of_size_eq_zero (Nat.eq_zero_of_not_pos hlt), hentry.symm⟩

theorem shrunk_eq_iff {u : CodeUnit} :
    u.shrunk = u ↔ ∀ p ∈ u.prototypes, p.locals < UInt32.size := by
  simp only [← Prototype.narrowed_eq_iff]
  constructor
  · intro h p hp
    have hmap : u.prototypes.map Prototype.narrowed = u.prototypes := congrArg prototypes h
    obtain ⟨i, hi, rfl⟩ := Array.mem_iff_getElem.mp hp
    have hi' : i < (u.prototypes.map Prototype.narrowed).size := by simpa using hi
    rw [← Array.getElem_map Prototype.narrowed hi']
    simp only [hmap]
  · intro h
    rw [shrunk, Array.map_congr_left h]
    simp

/-- **A unit is read back as the same unit exactly if it fits.** -/
theorem narrowed_eq_iff {u : CodeUnit} : u.narrowed = u ↔ u.Fits := by
  constructor
  · intro h
    have hshrunk : u.shrunk = u := by
      have hprototypes : u.narrowed.prototypes = u.prototypes := by rw [h]
      show { u with prototypes := u.narrowed.prototypes } = u
      rw [hprototypes]
    rw [narrowed, hshrunk] at h
    exact ⟨entered_eq_iff.mp h, shrunk_eq_iff.mp hshrunk⟩
  · intro h
    rw [narrowed, shrunk_eq_iff.mpr h.locals, entered_eq_iff.mpr h.entry]

/-! ### Writing -/

/-- Only the low four bytes of a number are written. -/
theorem dword_mod (n : Nat) : dword (n % UInt32.size) = dword n := by
  have h := Bytes.toLittle_ofLittle (dword n)
  rwa [length_dword, dword, Bytes.ofLittle_toLittle] at h

theorem function_narrowed (p : Prototype) (isEntry : Bool) :
    function p.narrowed isEntry = function p isEntry := by
  simp only [function, Prototype.narrowed, dword_mod]
  rfl

/-- Cutting the counts to their words changes no byte of the file. -/
theorem toBinary_shrunk (u : CodeUnit) : u.shrunk.toBinary = u.toBinary := by
  have htable : functionTable u.shrunk = functionTable u := by
    simp [functionTable, shrunk, List.zipIdx_map, List.flatMap_map, function_narrowed]
  have hsize : functionTableSize u.shrunk = functionTableSize u := by
    rw [← length_functionTable, htable, length_functionTable]
  simp only [toBinary, fileSize, htable, hsize]
  rfl

/-- **What a binary form is read back as**, of every unit. -/
theorem ofBinary_narrowed (u : CodeUnit) (hsize : u.toBinary.size < UInt32.size) :
    ofBinary u.toBinary = .ok u.narrowed ∧
      readWord u.toBinary 8 4 = .ok (u.toBinary.size, 12) ∧ isBinary u.toBinary = true := by
  have hlocals : ∀ p ∈ u.shrunk.prototypes, p.locals < UInt32.size := by
    intro p hp
    obtain ⟨q, -, rfl⟩ := Array.mem_map.mp hp
    exact Nat.mod_lt _ (by decide)
  rw [← toBinary_shrunk] at hsize ⊢
  exact ofBinary_toBinary u.shrunk hlocals hsize

theorem load_toBinary (u : CodeUnit) (hsize : u.toBinary.size < UInt32.size) :
    load u.toBinary = .ok u.narrowed := by
  obtain ⟨hread, -, hbinary⟩ := ofBinary_narrowed u hsize
  rw [load, if_pos hbinary, hread]

/-! ### Units read from binary files -/

theorem readWord_lt {bytes : Bytes} {cursor n next : Nat}
    (h : readWord bytes cursor 4 = .ok (n, next)) : n < UInt32.size := by
  obtain ⟨⟨word, c⟩, htake, h⟩ := bind_eq_ok h
  cases h
  unfold take at htake
  split at htake
  · next hslice =>
    cases htake
    have hlt := Bytes.ofLittle_lt word.toList
    rwa [Array.length_toList, Bytes.size_of_slice? hslice] at hlt
  · cases htake

theorem locals_of_readFunction {body : Bytes} {start next : Nat} {r : FunctionRecord}
    (h : readFunction body start = .ok (r, next)) : r.prototype.locals < UInt32.size := by
  obtain ⟨⟨headerSize, c1⟩, _, h⟩ := bind_eq_ok h
  obtain ⟨⟨size, c2⟩, _, h⟩ := bind_eq_ok h
  obtain ⟨⟨codeLength, c3⟩, _, h⟩ := bind_eq_ok h
  obtain ⟨⟨flags, c4⟩, _, h⟩ := bind_eq_ok h
  obtain ⟨⟨variableCount, c5⟩, _, h⟩ := bind_eq_ok h
  obtain ⟨⟨locals, c6⟩, hlocals, h⟩ := bind_eq_ok h
  obtain ⟨⟨header, c7⟩, _, h⟩ := bind_eq_ok h
  obtain ⟨⟨name, c8⟩, _, h⟩ := bind_eq_ok h
  obtain ⟨⟨declared, c9⟩, _, h⟩ := bind_eq_ok h
  obtain ⟨⟨code, c10⟩, _, h⟩ := bind_eq_ok h
  simp only at h
  split at h
  · cases h
  · obtain ⟨⟨whole, c11⟩, _, h⟩ := bind_eq_ok h
    cases h
    exact readWord_lt hlocals

theorem locals_of_readFunctions {body : Bytes} {cursor : Nat} {rs : List FunctionRecord}
    (h : readFunctions body cursor = .ok rs) :
    ∀ r ∈ rs, r.prototype.locals < UInt32.size := by
  fun_induction readFunctions body cursor generalizing rs with
  | case1 cursor inside e hread => cases h
  | case2 cursor inside r next hread forward e hrest ih => cases h
  | case3 cursor inside r next hread forward rest hrest ih =>
    cases h
    intro r' hr'
    rcases List.mem_cons.mp hr' with rfl | hr'
    · exact locals_of_readFunction hread
    · exact ih hrest r' hr'
  | case4 cursor outside =>
    cases h
    simp

theorem Fits.addFunction {u : CodeUnit} (hu : u.Fits) {r : FunctionRecord}
    (hr : r.prototype.locals < UInt32.size) : (addFunction u r).Fits where
  entry := by
    left
    have hentry := hu.entry
    simp only [Binary.addFunction, Array.size_push]
    split
    · exact Nat.lt_succ_self _
    · rcases hentry with hlt | ⟨-, hzero⟩
      · omega
      · omega
  locals p hp := by
    rcases Array.mem_push.mp hp with hp | rfl
    · exact hu.locals p hp
    · exact hr

theorem Fits.addFunctions {u : CodeUnit} (hu : u.Fits) {rs : List FunctionRecord}
    (hrs : ∀ r ∈ rs, r.prototype.locals < UInt32.size) :
    (rs.foldl Binary.addFunction u).Fits := by
  induction rs generalizing u with
  | nil => exact hu
  | cons r rs ih =>
    exact ih (hu.addFunction (hrs r (by simp))) fun r' hr' => hrs r' (by simp [hr'])

theorem Fits.readBody {u u' : CodeUnit} (hu : u.Fits) {kind : Nat} {body : Bytes}
    (h : readBody u kind body = .ok u') : u'.Fits := by
  unfold Binary.readBody at h
  split at h
  · obtain ⟨more, _, h⟩ := bind_eq_ok h
    cases h
    exact ⟨hu.entry, hu.locals⟩
  · split at h
    · obtain ⟨more, hmore, h⟩ := bind_eq_ok h
      cases h
      exact hu.addFunctions (locals_of_readFunctions hmore)
    · cases h

theorem Fits.readSections {bytes : Bytes} {u u' : CodeUnit} {start : Nat} (hu : u.Fits)
    (h : readSections bytes u start = .ok u') : u'.Fits := by
  fun_induction Binary.readSections bytes u start with
  | case1 u start inside e hread => cases h
  | case2 u start inside s hread forward e hbody => cases h
  | case3 u start inside s hread forward u₁ hbody hlast =>
    cases h
    exact hu.readBody hbody
  | case4 u start inside s hread forward u₁ hbody hmore ih => exact ih (hu.readBody hbody) h
  | case5 u start outside =>
    cases h
    exact hu

/-- **Every unit that was read from a binary file fits.** -/
theorem fits_of_ofBinary {bytes : Bytes} {u : CodeUnit} (h : ofBinary bytes = .ok u) : u.Fits := by
  obtain ⟨⟨start, c1⟩, _, h⟩ := bind_eq_ok h
  simp only at h
  split at h
  · cases h
  · obtain ⟨⟨minor, c2⟩, _, h⟩ := bind_eq_ok h
    obtain ⟨⟨major, c3⟩, _, h⟩ := bind_eq_ok h
    simp only at h
    split at h
    · cases h
    · obtain ⟨⟨length, c4⟩, _, h⟩ := bind_eq_ok h
      simp only at h
      split at h
      · cases h
      · obtain ⟨⟨first, c5⟩, _, h⟩ := bind_eq_ok h
        have hnone : Fits ⟨#[], #[], 0⟩ := ⟨.inr ⟨rfl, rfl⟩, by simp⟩
        exact hnone.readSections h

theorem fits_of_load {bytes : Bytes} {u : CodeUnit} (hload : load bytes = .ok u)
    (hbinary : isBinary bytes = true) : u.Fits := by
  rw [load, if_pos hbinary] at hload
  split at hload
  · next u' hread =>
    cases hload
    exact fits_of_ofBinary hread
  · cases hload

end CodeUnit

/-! ### Running units -/

namespace Vm

/-- What a request comes to: its results, or why it failed. -/
def outcome {α : Type} : EStateM.Result Failure (Vm σ) α → Except Failure α
  | .ok a _ => .ok a
  | .error e _ => .error e

/-- Run the entry function of a unit that has just been loaded. -/
def executeLoaded (host : Host σ) (fuel : Nat) (u : CodeUnit) (args : List Value)
    (context : Option (Ref .context)) : Schedule σ (List Value) := do
  let unit ← allocate fun h => h.newUnit u
  executeUnit host fuel unit args context

variable (host : Host σ) (fuel : Nat) (args : List Value) (context : Option (Ref .context))
  (vm : Vm σ)

/-- Without a context, a new root is made. -/
theorem executeUnit_none (unit : Ref .unit) :
    executeUnit host fuel unit args none vm
      = executeUnit host fuel unit args (some (vm.heap.newContext none).1)
          { vm with heap := (vm.heap.newContext none).2 } := by
  simp only [executeUnit, pure_bind, bind_apply]
  rfl

variable {vm} {unit : Ref .unit} {u : CodeUnit}

/-- A unit whose entry is none of its functions is refused. -/
theorem executeUnit_refused (hunit : vm.heap.unit unit = u) (h : ¬ u.entry < u.prototypes.size) :
    ∃ vm', executeUnit host fuel unit args context vm
      = .error (.usage (.entryIndexOutOfRange u.entry u.prototypes.size)) vm' := by
  have hgiven {vm : Vm σ} (c : Ref .context) (hunit : vm.heap.unit unit = u) :
      executeUnit host fuel unit args (some c) vm
        = .error (.usage (.entryIndexOutOfRange u.entry u.prototypes.size)) vm := by
    simp only [executeUnit, pure_bind, bind_apply, get_apply, Heap.entryFunction, hunit, if_neg h]
    rfl
  cases context with
  | some c => exact ⟨_, hgiven c hunit⟩
  | none =>
    rw [executeUnit_none]
    exact ⟨_, hgiven _ hunit⟩

/-- Otherwise its entry function is run. -/
theorem executeUnit_entered (hunit : vm.heap.unit unit = u) (h : u.entry < u.prototypes.size) :
    ∃ r vm', executeUnit host fuel unit args context vm = executeFunction host fuel r args vm' ∧
      vm'.heap.prototype r = u.prototypes.getD u.entry default := by
  have hgiven {vm : Vm σ} (c : Ref .context) (hunit : vm.heap.unit unit = u) :
      ∃ r vm', executeUnit host fuel unit args (some c) vm
        = executeFunction host fuel r args vm' ∧
        vm'.heap.prototype r = u.prototypes.getD u.entry default := by
    let made := vm.heap.functions.add ⟨unit, u.entry, some c⟩
    refine ⟨made.1, { vm with heap.functions := made.2 }, ?_, ?_⟩
    · simp only [executeUnit, pure_bind, bind_apply, get_apply, Heap.entryFunction,
        hunit, if_pos h]
      rfl
    · have hmade : made.2.get made.1 = ⟨unit, u.entry, some c⟩ := Store.get_add_self _ _
      simp only [Heap.prototype, Heap.function, hmade]
      rw [← hunit]
      rfl
  cases context with
  | some c => exact hgiven c hunit
  | none =>
    rw [executeUnit_none]
    exact hgiven _ hunit

/-! A run that was begun is not refused for its entry any more. -/

theorem resume_entered (host : Host σ) (fuel : Nat) (r : Ref .coroutine) (args : List Value)
    (vm : Vm σ) (i n : Nat) :
    outcome (Coroutine.resume host fuel r args vm)
      ≠ .error (.usage (.entryIndexOutOfRange i n)) := by
  by_cases haccepted : Coroutine.canResume (vm.heap.coroutine r).state
  · have hresumed := Coroutine.resumed host fuel args haccepted
    generalize Coroutine.resume host fuel r args vm = result at hresumed
    cases hresumed with
    | exits runs step => nofun
    | faults grows => nofun
    | breaks unanswered grows =>
      intro h
      cases h
      exact unanswered trivial
  · rw [Coroutine.resume_refused host fuel args haccepted]
    nofun

theorem loop_entered (host : Host σ) (floor fuel : Nat) (values : List Value) (vm : Vm σ)
    (i n : Nat) :
    outcome (loop host floor fuel values vm) ≠ .error (.usage (.entryIndexOutOfRange i n)) := by
  induction fuel generalizing values vm with
  | zero =>
    intro h
    cases h
  | succ fuel ih =>
    rw [loop, bind_apply, get_apply]
    dsimp only
    cases vm.active with
    | nil =>
      intro h
      cases h
    | cons top below =>
      have hresume := resume_entered host fuel top values vm i n
      simp only [bind_apply]
      generalize Coroutine.resume host fuel top values vm = result at hresume
      cases result with
      | error e vm₁ =>
        intro h
        cases h
        exact hresume rfl
      | ok exit vm₁ =>
        cases exit with
        | switched next args => exact ih args _
        | finished results =>
          by_cases hlast : below.length ≤ floor
          · simp only [if_pos hlast]
            intro h
            cases h
          · simp only [if_neg hlast]
            exact ih results _
        | yielded results =>
          by_cases hlast : below.length ≤ floor
          · simp only [if_pos hlast]
            intro h
            cases h
          · simp only [if_neg hlast]
            exact ih results _

theorem outcome_execute (host : Host σ) (fuel : Nat) (root : Ref .coroutine) (args : List Value)
    (vm : Vm σ) :
    outcome (execute host fuel root args vm)
      = outcome (loop host vm.active.length fuel args { vm with active := root :: vm.active }) := by
  unfold execute
  dsimp only
  cases loop host vm.active.length fuel args { vm with active := root :: vm.active } with
  | ok values vm' => rfl
  | error e vm' => cases e <;> rfl

theorem executeFunction_entered (host : Host σ) (fuel : Nat) (r : Ref .function)
    (args : List Value) (vm : Vm σ) (i n : Nat) :
    outcome (executeFunction host fuel r args vm)
      ≠ .error (.usage (.entryIndexOutOfRange i n)) := by
  rw [executeFunction, executeNew, bind_apply, get_apply]
  simp only [bind_apply]
  cases Coroutine.make host.sizes (.function r) none vm.config with
  | error d =>
    intro h
    cases h
  | ok made =>
    intro h
    exact loop_entered host _ fuel args _ i n ((outcome_execute ..).symm.trans h)

variable (vm)

theorem executeLoaded_refused (h : ¬ u.entry < u.prototypes.size) :
    outcome (executeLoaded host fuel u args context vm)
      = .error (.usage (.entryIndexOutOfRange u.entry u.prototypes.size)) := by
  have hunit : (vm.heap.newUnit u).2.unit (vm.heap.newUnit u).1 = u := Store.get_add_self _ _
  obtain ⟨vm₁, hrun⟩ : ∃ vm₁, executeLoaded host fuel u args context vm
    = .error _ vm₁ :=
    executeUnit_refused host fuel args context hunit h
  rw [hrun]
  rfl

theorem executeLoaded_entered (h : u.entry < u.prototypes.size) :
    ∃ r vm', executeLoaded host fuel u args context vm = executeFunction host fuel r args vm' ∧
      vm'.heap.prototype r = u.prototypes.getD u.entry default := by
  have hunit : (vm.heap.newUnit u).2.unit (vm.heap.newUnit u).1 = u := Store.get_add_self _ _
  exact executeUnit_entered host fuel args context hunit h

/-- **A loaded unit is refused for its entry** exactly if that is none of its functions, and the
error names the entry. -/
theorem refused_iff {i n : Nat} :
    outcome (executeLoaded host fuel u args context vm)
        = .error (.usage (.entryIndexOutOfRange i n)) ↔
      ¬ u.entry < u.prototypes.size ∧ i = u.entry ∧ n = u.prototypes.size := by
  by_cases h : u.entry < u.prototypes.size
  · obtain ⟨r, vm', hrun, -⟩ := executeLoaded_entered host fuel args context vm h
    rw [hrun]
    exact ⟨fun hout => absurd hout (executeFunction_entered host fuel r args vm' i n),
      fun hout => absurd h hout.1⟩
  · rw [executeLoaded_refused host fuel args context vm h]
    simp [h, eq_comm]

end Vm

/-- **What running the binary form of a unit comes to.**  It is read back as the narrowed unit,
which is the same one exactly if the unit fits, and then does the same from every state.  A unit
that came from a binary file fits.  A unit whose entry is none of its functions is refused, and its
binary form never is in the same way: its first function is run, if it has one. -/
theorem compiled_outcome {bytes : Bytes} {u : CodeUnit} (hload : CodeUnit.load bytes = .ok u)
    (hsize : u.toBinary.size < UInt32.size) :
    CodeUnit.load u.toBinary = .ok u.narrowed ∧
    (u.narrowed = u ↔ u.Fits) ∧
    (CodeUnit.isBinary bytes = true → u.Fits) ∧
    (u.Fits → ∀ (host : Host σ) fuel args context vm,
      Vm.executeLoaded host fuel u.narrowed args context vm
        = Vm.executeLoaded host fuel u args context vm) ∧
    (¬ u.Entered → ∀ (host : Host σ) fuel args context vm,
      Vm.outcome (Vm.executeLoaded host fuel u args context vm)
        = .error (.usage (.entryIndexOutOfRange u.entry u.prototypes.size)) ∧
      Vm.outcome (Vm.executeLoaded host fuel u.narrowed args context vm)
        ≠ Vm.outcome (Vm.executeLoaded host fuel u args context vm) ∧
      ∀ p, u.prototypes[0]? = some p →
        ∃ r vm', Vm.executeLoaded host fuel u.narrowed args context vm
            = Vm.executeFunction host fuel r args vm' ∧
          vm'.heap.prototype r = p.narrowed) := by
  refine ⟨u.load_toBinary hsize, u.narrowed_eq_iff, CodeUnit.fits_of_load hload, ?_, ?_⟩
  · intro hfits host fuel args context vm
    rw [CodeUnit.narrowed_eq_iff.mpr hfits]
  · intro hentry host fuel args context vm
    have hout : ¬ u.entry < u.prototypes.size := fun hlt => hentry (.inl hlt)
    have hnarrowed : u.narrowed = ⟨u.prototypes.map Prototype.narrowed, u.strings, 0⟩ := by
      simp [CodeUnit.narrowed, CodeUnit.entered, CodeUnit.shrunk, hout]
    have hrefused := Vm.executeLoaded_refused host fuel args context vm hout
    refine ⟨hrefused, fun hsame => ?_, fun p hp => ?_⟩
    · rw [hrefused, Vm.refused_iff] at hsame
      obtain ⟨hout', hindex, -⟩ := hsame
      -- Only a unit without functions is still refused, and the error names another entry.
      have hnone : u.prototypes.size = 0 := by simpa [hnarrowed] using hout'
      have hzero : u.entry = 0 := by simpa [hnarrowed] using hindex
      exact hentry (.inr ⟨Array.eq_empty_of_size_eq_zero hnone, hzero⟩)
    · obtain ⟨hlt, hget⟩ := Array.getElem?_eq_some_iff.mp hp
      have hentered : u.narrowed.entry < u.narrowed.prototypes.size := by
        simpa [hnarrowed] using hlt
      obtain ⟨r, vm', hrun, hprototype⟩ :=
        Vm.executeLoaded_entered host fuel args context vm hentered
      refine ⟨r, vm', hrun, hprototype.trans ?_⟩
      simp [hnarrowed, hlt, hget]

/-- A unit in JSON with one function, and another one as its entry. -/
def CodeUnit.straying : Bytes :=
  .ofString "[[[\"main\",[51,170],0]],[],9]"

theorem ok_of_toOption {ε α : Type} {result : Except ε α} {a : α}
    (h : result.toOption = some a) : result = .ok a := by
  cases result with
  | error e => cases h
  | ok b =>
    cases h
    rfl

theorem CodeUnit.load_straying :
    load straying = .ok ⟨#[⟨"main", #[51, 170], 0, []⟩], #[], 9⟩ := by
  have hloads :
      (load straying).toOption = some ⟨#[⟨"main", #[51, 170], 0, []⟩], #[], 9⟩ := by
    decide +kernel
  exact ok_of_toOption hloads

/-- That unit is refused, and its binary form is not refused in the same way. -/
theorem compiled_outcome_straying :
    ∃ u, CodeUnit.load CodeUnit.straying = .ok u ∧ u.toBinary.size < UInt32.size ∧
      ¬ u.Entered ∧
      CodeUnit.load u.toBinary = .ok u.narrowed ∧
      Vm.outcome (Vm.executeLoaded .bare 9 u [] none (.new .standard ()))
        = .error (.usage (.entryIndexOutOfRange 9 1)) ∧
      Vm.outcome (Vm.executeLoaded .bare 9 u.narrowed [] none (.new .standard ()))
        ≠ .error (.usage (.entryIndexOutOfRange 9 1)) := by
  let u : CodeUnit := ⟨#[⟨"main", #[51, 170], 0, []⟩], #[], 9⟩
  have hsize : u.toBinary.size < UInt32.size := by decide +kernel
  have hentry : ¬ u.Entered := by
    simp [CodeUnit.Entered, u]
  obtain ⟨hcompiled, -, -, -, hstrays⟩ :=
    @compiled_outcome Unit _ u CodeUnit.load_straying hsize
  obtain ⟨hrefused, hdiffers, -⟩ := hstrays hentry .bare 9 [] none (.new .standard ())
  exact ⟨u, CodeUnit.load_straying, hsize, hentry, hcompiled, hrefused, fun h =>
    hdiffers (h.trans hrefused.symm)⟩

/-- **Compiling can change what a unit does.**  That unit is refused, and its binary form runs. -/
theorem compiled_entry_changes :
    ∃ u v, CodeUnit.load CodeUnit.straying = .ok u ∧ CodeUnit.load u.toBinary = .ok v ∧
      Vm.outcome (Vm.executeLoaded .bare 9 u [] none (.new .standard ()))
        = .error (.usage (.entryIndexOutOfRange 9 1)) ∧
      Vm.outcome (Vm.executeLoaded .bare 9 v [] none (.new .standard ())) = .ok [.int 3] := by
  let u : CodeUnit := ⟨#[⟨"main", #[51, 170], 0, []⟩], #[], 9⟩
  have hsize : u.toBinary.size < UInt32.size := by decide +kernel
  have hruns :
      (Vm.outcome (Vm.executeLoaded .bare 9 u.narrowed [] none (.new .standard ()))).toOption
        = some [.int 3] := by decide +kernel
  refine ⟨u, u.narrowed, CodeUnit.load_straying, u.load_toBinary hsize,
    Vm.executeLoaded_refused _ _ _ _ _ (by decide), ok_of_toOption hruns⟩

end ScriptVm
