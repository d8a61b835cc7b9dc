import ScriptVm.Proofs.Scheduling

/-!
# What a run leaves behind

A run that ends well, or with a yield of its first coroutine, leaves no coroutine
behind that has switched away.  A run that fails further up does: the scheduler
forgets its stack, but the coroutines below the top are not told, and keep a state
in which they cannot be resumed.

Main statements: `away_after_request` (which coroutines these are),
`passing_strands` (one of them).
-/

namespace ScriptVm

variable {σ : Type}

namespace Heap

variable {h h' : Heap} {q : Ref .coroutine}

theorem away_of_coroutines_eq (heq : h'.coroutines = h.coroutines) : h'.Away q ↔ h.Away q := by
  rw [Away, Away, Heap.coroutine, Heap.coroutine, heq]

/-- One more coroutine, which has not switched away. -/
theorem away_newCoroutine {c : Coroutine} (hc : c.state ≠ .inStack) :
    (h.newCoroutine c).2.Away q ↔ h.Away q := by
  constructor
  · rintro ⟨hq, hstate⟩
    rcases fresh_newCoroutine hq with ⟨hold, hread⟩ | hread
    · rw [hread] at hstate
      exact ⟨hold, hstate⟩
    · rw [hread] at hstate
      exact absurd hstate hc
  · rintro ⟨hq, hstate⟩
    have hread : (h.newCoroutine c).2.coroutine q = h.coroutine q := Store.get_add_of_holds _ _ hq
    exact ⟨holds_newCoroutine hq, hread ▸ hstate⟩

end Heap

/-- **What a request leaves behind** that has been answered.  Nothing is running.  If it let a
coroutine run, then those that have switched away are the ones that had done so before, and after a
failure also those that were below the top when it came to that.  There are none of these if the
first coroutine has yielded. -/
theorem away_after_request {host : Host σ} {vm : Vm σ} (hidle : vm.Idle) (fuel : Nat)
    (request : Request) :
    (∀ vm', Vm.ComesBack (request.run host fuel vm) vm' →
      ∀ q, vm'.heap.coroutines.Holds q → (vm'.heap.coroutine q).state ≠ .running) ∧
    ((∃ e vm', request.run host fuel vm = .error e vm' ∧
        vm'.heap.coroutines = vm.heap.coroutines) ∨
      ∃ root args vm₁, vm₁.Idle ∧ (∀ q, vm₁.heap.Away q ↔ vm.heap.Away q) ∧
        request.run host fuel vm = Vm.execute host fuel root args vm₁ ∧
        (∀ results vm', request.run host fuel vm = .ok results vm' →
          ∀ q, vm'.heap.Away q ↔ vm.heap.Away q) ∧
        ∀ e vm', request.run host fuel vm = .error e vm' → e.Answers →
          ∃ head, (vm₁.start fuel root args).Leads host head ∧
            (∃ vm'', head.Last host (.error e vm'')) ∧
            (∀ q, vm'.heap.Away q ↔ vm.heap.Away q ∨ q ∈ head.vm.active.tail) ∧
            (e = .usage .yieldFromRoot → head.vm.active.tail = [])) := by
  refine ⟨fun vm' hback => (hidle.rests.request request hback).calm, ?_⟩
  have hbegins := Vm.begins host fuel vm request
  generalize request.run host fuel vm = result at hbegins
  cases hbegins with
  | refused active coroutines e => exact .inl ⟨e, _, rfl, coroutines⟩
  | @runs vm₀ active coroutines root entry context args =>
    right
    have hidle₁ := Vm.Idle.make (.arrange hidle coroutines active) entry context vm₀.config
    have hnew : (Coroutine.new entry context vm₀.config).state ≠ .inStack := nofun
    have haway₁ (q : Ref .coroutine) :=
      (Heap.away_newCoroutine hnew (q := q)).trans (Heap.away_of_coroutines_eq coroutines)
    refine ⟨root, args, _, hidle₁, haway₁, rfl, ?_, ?_⟩
    · intro results vm' hrun q
      rw [(hidle₁.rests.execute_ok hrun).2, haway₁]
    · intro e vm' hrun he
      obtain ⟨-, head, hleads, hlast, haway, hroot⟩ := hidle₁.rests.execute_error hrun he
      refine ⟨head, hleads, hlast, fun q => ?_, hroot⟩
      rw [haway, haway₁]

/-- The failure of a request. -/
def Vm.failure? {α : Type} : EStateM.Result Failure (Vm σ) α → Option Failure
  | .ok _ _ => none
  | .error e _ => some e

theorem Vm.error_of_failure? {α : Type} {result : EStateM.Result Failure (Vm σ) α} {e : Failure}
    (h : failure? result = some e) : ∃ vm, result = .error e vm ∧ vm = last result := by
  cases result with
  | ok a vm => cases h
  | error e' vm =>
    cases h
    exact ⟨vm, rfl, rfl⟩

/-- The first coroutine is to hand the second one on, which faults since it gets nothing that it
could hand on.  The first one stays switched away, and is not resumed any more. -/
theorem passing_strands :
    Vm.passing.Idle ∧
    ∃ f trace vm',
      Request.run .bare 9 (.function ⟨0⟩ [.coroutine ⟨0⟩, .coroutine ⟨1⟩]) Vm.passing
        = .error (.runtime f trace) vm' ∧
      (vm'.heap.coroutine ⟨1⟩).state = .stopped ∧
      vm'.heap.Away ⟨0⟩ ∧
      ∀ fuel args, Coroutine.resume .bare fuel ⟨0⟩ args vm'
        = .error (.usage (.invalidResume .inStack)) vm' := by
  let request : Request := .function ⟨0⟩ [.coroutine ⟨0⟩, .coroutine ⟨1⟩]
  have hfailure : Vm.failure? (request.run .bare 9 Vm.passing)
      = some (.runtime (.assertionFailed .coroutine .nil "nil") [⟨"passing", 2⟩]) := by
    decide +kernel
  obtain ⟨vm', hrun, hvm'⟩ := Vm.error_of_failure? hfailure
  have hstopped : (vm'.heap.coroutine ⟨1⟩).state = .stopped := by
    rw [hvm']
    decide +kernel
  have hstate : (vm'.heap.coroutine ⟨0⟩).state = .inStack := by
    rw [hvm']
    decide +kernel
  have hholds : 0 < vm'.heap.coroutines.size := by
    rw [hvm']
    decide +kernel
  refine ⟨Vm.idle_passing, _, _, vm', hrun, hstopped, ⟨hholds, hstate⟩, fun fuel args => ?_⟩
  have hrefused : ¬ Coroutine.canResume (vm'.heap.coroutine ⟨0⟩).state := by
    simp [hstate, Coroutine.canResume]
  rw [Coroutine.resume_refused .bare fuel args hrefused, hstate]

/-- Those that were below the coroutine that faults are the ones that stay so. -/
theorem away_after_request_passing :
    Vm.passing.Idle ∧
    ∃ f trace vm',
      Request.run .bare 9 (.function ⟨0⟩ [.coroutine ⟨0⟩, .coroutine ⟨1⟩]) Vm.passing
        = .error (.runtime f trace) vm' ∧
      (∀ q, vm'.heap.coroutines.Holds q → (vm'.heap.coroutine q).state ≠ .running) ∧
      ∃ head : Vm.Head Unit, (∃ vm'', head.Last .bare (.error (.runtime f trace) vm'')) ∧
        ∀ q, vm'.heap.Away q ↔ q ∈ head.vm.active.tail := by
  let request : Request := .function ⟨0⟩ [.coroutine ⟨0⟩, .coroutine ⟨1⟩]
  let e : Failure := .runtime (.assertionFailed .coroutine .nil "nil") [⟨"passing", 2⟩]
  have hanswers : e.Answers := trivial
  have hfailure : Vm.failure? (request.run .bare 9 Vm.passing) = some e := by
    decide +kernel
  obtain ⟨vm', hrun, hvm'⟩ := Vm.error_of_failure? hfailure
  have hback : Vm.ComesBack (request.run .bare 9 Vm.passing) vm' := by
    rw [hrun]
    exact .error hanswers vm'
  have hnone (q : Ref .coroutine) : ¬ Vm.passing.heap.Away q := by
    have hempty : Heap.passing.All (·.state = .initial) := fun q hq => nomatch hq
    have hnew : Vm.passing.heap.All (·.state = .initial) :=
      (hempty.newCoroutine rfl).newCoroutine rfl
    rintro ⟨hq, hstate⟩
    cases (hnew q hq).symm.trans hstate
  obtain ⟨hcalm, hcases⟩ := @away_after_request Unit .bare Vm.passing Vm.idle_passing 9 request
  refine ⟨Vm.idle_passing, _, _, vm', hrun, hcalm vm' hback, ?_⟩
  rcases hcases with ⟨e', vm'', hrefused, hsame⟩ | ⟨root, args, vm₁, -, -, -, -, hfailed⟩
  · -- A refused request has not changed any coroutine.
    cases hrun.symm.trans hrefused
    have hstate : (vm'.heap.coroutine ⟨0⟩).state = .inStack := by
      rw [hvm']
      decide +kernel
    have hinitial : (vm'.heap.coroutine ⟨0⟩).state = .initial := by
      rw [Heap.coroutine, hsame]
      rfl
    cases hinitial.symm.trans hstate
  · obtain ⟨head, -, hlast, haway, -⟩ := hfailed e vm' hrun hanswers
    refine ⟨head, hlast, fun q => ?_⟩
    rw [haway]
    exact or_iff_right (hnone q)

end ScriptVm
