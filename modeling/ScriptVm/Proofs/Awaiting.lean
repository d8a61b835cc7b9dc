import ScriptVm.Proofs.Scheduling

/-!
# A coroutine that is away

A coroutine that has yielded or switched to another one is away until it is resumed.
Nothing touches its stacks meanwhile, so it goes on from where it was left, with the
values that it is resumed with on top.

In a run, the one that it has switched to lies right above it on the scheduler's
stack, under whatever that one has switched to in turn.  It comes back when that one
has finished or yielded, and is resumed with what that one has finished or yielded
with.

Main statements: `Vm.begin_again` (how a coroutine goes on), `Vm.Head.Leads.awaits`
(how it comes back).
-/

namespace ScriptVm

variable {σ : Type}

namespace Vm

variable {host : Host σ}

/-! ### On the heap -/

/-- A coroutine has the same capacities each time that it is taken out of the heap. -/
theorem Runs.config_eq {vm : Vm σ} {r : Ref .coroutine} {args : List Value} {M : Machine σ}
    (h : vm.Runs host r args M) : M.config = (vm.heap.coroutine r).config := by
  induction h with
  | begun begins =>
    have moves :=
      Coroutine.tame_opening host (vm.heap.coroutine r).state (vm.heap.coroutine r).entry
      (vm.heap.coroutine r).entryContext args (Coroutine.checkOut r vm.heap vm.state) False.elim
    rw [show Coroutine.opening host _ _ _ args _ = _ from begins] at moves
    exact moves.config_eq
  | goes _ step ih => exact (Exec.step_config step).trans ih

/-- What a resume has brought back. -/
theorem Runs.brought_back {vm : Vm σ} {r : Ref .coroutine} {args : List Value} {exit : Exit}
    {M N : Machine σ} (h : vm.Runs host r args M) (step : Exec.step host M = .ok (some exit) N) :
    let back := Coroutine.checkIn r (Coroutine.stateAfter exit) N.memory N.heap
    back.coroutines.Holds r ∧ back.coroutine r
      = ⟨(vm.heap.coroutine r).entry, none, Coroutine.stateAfter exit,
        (vm.heap.coroutine r).config, N.memory⟩ := by
  intro back
  have hgrows := h.grows.trans ((Exec.step_paces host M).1 step).grows
  have hout : (Coroutine.checkOut r vm.heap vm.state).heap.coroutines.Holds r :=
    Heap.holds_modifyCoroutine.mpr h.holds
  have hN := hgrows.holds hout
  refine ⟨Heap.holds_modifyCoroutine.mpr hN, ?_⟩
  rw [show back.coroutine r = _ from Heap.coroutine_modify_self hN _, hgrows.coroutine hout,
    show (Coroutine.checkOut r vm.heap vm.state).heap.coroutine r = _ from
      Heap.coroutine_modify_self h.holds _]
  rfl

/-- **A coroutine that is resumed again** is as it was when control left it, but for the heap and
the host's state; and the values that it is resumed with are on top of what it had on its stack. -/
theorem begin_again {vm vm₁ : Vm σ} {fuel : Nat} {r : Ref .coroutine} {args : List Value}
    {exit : Exit} (hresume : Coroutine.resume host fuel r args vm = .ok exit vm₁) :
    ∃ M N, vm.Runs host r args M ∧ Exec.step host M = .ok (some exit) N ∧
      ∀ vm₂, Acts host (· ≠ some r) vm₁ vm₂ → ∀ values, ∃ heap state,
        Coroutine.begin host vm₂ r values
          = .ok () ({ N with heap, state }.onValues fun s => s.pushAll values) := by
  obtain ⟨-, M, N, runs, step, rfl⟩ := Coroutine.resume_eq_ok hresume
  refine ⟨M, N, runs, step, fun vm₂ acts values =>
    ⟨vm₂.heap.modifyCoroutine r Coroutine.checkedOut, vm₂.state, ?_⟩⟩
  obtain ⟨hheld, hback⟩ := runs.brought_back step
  have hconfig : N.config = (vm.heap.coroutine r).config :=
    (Exec.step_config step).trans runs.config_eq
  have hwaits := Acts.waits acts hheld
  -- It was left in a state in which it is not started a second time.
  have hlater : (vm₂.heap.coroutine r).state ≠ .initial := by
    refine hwaits.arrows.ne_initial ?_
    rw [hback]
    cases exit <;> nofun
  have hmemory : (vm₂.heap.coroutine r).memory = N.memory :=
    hwaits.memory_eq.trans (congrArg Coroutine.memory hback)
  have hsame : (vm₂.heap.coroutine r).config = N.config := by
    rcases hwaits with heq | ⟨-, heq⟩ <;> rw [heq, hback, hconfig]
  rw [Coroutine.begin, Coroutine.opening, if_neg hlater, Coroutine.checkOut, hmemory, hsame]
  rfl

/-! ### In a run -/

namespace Head

variable {before : Heap} {a b c : Head σ} {top next : Ref .coroutine}
    {below : List (Ref .coroutine)}

/-- A round lets no coroutine run but the top one. -/
theorem Next.acts (h : a.Next host b) (hactive : a.vm.active = top :: below)
    {marks : Option (Ref .coroutine) → Prop} (hnone : marks none) (htop : marks (some top)) :
    Acts host marks a.vm b.vm := by
  obtain ⟨fuel, values, vm'⟩ := b
  obtain ⟨-, hround⟩ := h
  have hturns := @turns _ host fuel a.values _ _ _ hactive
  rw [hround] at hturns
  have hacts {exit : Exit} {vm₁ : Vm σ}
      (hresume : Coroutine.resume host fuel top a.values a.vm = .ok exit vm₁) :
      Acts host marks a.vm vm₁ := by
    have hact : Act host (some top) a.vm _ :=
      .resume (Coroutine.resume_eq_ok hresume).1 fuel a.values
    rw [hresume] at hact
    exact .single ⟨_, htop, hact⟩
  cases hturns with
  | switches resume => exact (hacts resume).tail ⟨none, hnone, .arrange rfl⟩
  | @returns parent _ _ _ vm₁ resume gone =>
    exact ((hacts resume).tail ⟨none, hnone, .ready vm₁ parent⟩).tail ⟨none, hnone,
      .arrange rfl⟩

/-- **The round in which a coroutine comes back** that has switched to another one: that one, which
lies right above it, has finished or yielded, and with these values it will be resumed. -/
structure HandsBack (host : Host σ) (top next : Ref .coroutine) (below : List (Ref .coroutine))
    (a b : Head σ) : Prop where
  active : a.vm.active = next :: top :: below
  round : a.Next host b
  exit : ∃ vm', Coroutine.resume host b.fuel next a.values a.vm = .ok (.finished b.values) vm' ∨
    Coroutine.resume host b.fuel next a.values a.vm = .ok (.yielded b.values) vm'
  after : b.vm.active = top :: below
  ready : Coroutine.canResume (b.vm.heap.coroutine top).state

/-- A coroutine that had switched away and is the next one may be resumed. -/
theorem ready_of_returned {h h' : Heap} {r q : Ref .coroutine} {state : Lifecycle} {memory : Stacks}
    (haway : h.Away r) (hturned : h.Turned q state memory h') (hne : r ≠ q) :
    Coroutine.canResume ((Coroutine.setResumable r h').coroutine r).state := by
  have hsame := hturned.others r hne haway.1
  obtain ⟨hwaits, hready⟩ := Coroutine.waits_setResumable (hturned.keeps r haway.1)
  rcases hwaits with heq | ⟨-, heq⟩
  · rw [heq, hsame] at hready
    exact absurd haway.2 hready
  · rw [heq]
    rfl

/-- **One round above a coroutine** that has switched away leaves it under the one it has switched
to, or brings it back. -/
theorem Next.above {above : List (Ref .coroutine)} (h : a.Next host b) (nested : a.vm.Nested before)
    (hactive : a.vm.active = above ++ next :: top :: below) :
    Acts host (· ≠ some top) a.vm b.vm ∧
    ((∃ above, b.vm.active = above ++ next :: top :: below) ∨
      HandsBack host top next below a b) := by
  obtain ⟨q, rest, hq, hrest⟩ : ∃ q rest, above ++ next :: top :: below = q :: rest ∧
    top ∈ rest := by
    cases above with
    | nil => exact ⟨_, _, rfl, by simp⟩
    | cons q above => exact ⟨_, _, rfl, by simp⟩
  have hactive' : a.vm.active = q :: rest := hactive.trans hq
  have haway : a.vm.heap.Away top := (nested.under hactive').2 top hrest
  have hround := h
  obtain ⟨fuel, values, vm'⟩ := b
  have hturns := @turns _ host fuel a.values _ _ _ hactive'
  rw [hround.2] at hturns
  cases hturns with
  | @switches _ asked _ _ resume =>
    have hne : q ≠ top := fun heq => (Coroutine.turned_of_ok resume).2.1 (heq ▸ haway)
    refine ⟨h.acts hactive' nofun (by simpa using hne), .inl ⟨asked :: above, ?_⟩⟩
    rw [List.cons_append, hq]
  | @returns parent _ exit _ vm₁ resume gone =>
    obtain ⟨-, hfree, memory, hturned⟩ := Coroutine.turned_of_ok resume
    have hne : q ≠ top := fun heq => hfree (heq ▸ haway)
    refine ⟨h.acts hactive' nofun (by simpa using hne), ?_⟩
    cases above with
    | nil =>
      cases hq
      refine .inr ⟨hactive, h, ⟨vm₁, ?_⟩, rfl, ready_of_returned haway hturned hne.symm⟩
      rcases gone with rfl | rfl
      · exact .inl resume
      · exact .inr resume
    | cons _ above => exact .inl ⟨above, (List.cons.inj hq).2.symm⟩

/-- The round in which the top coroutine switches to another one. -/
theorem Next.switches (h : a.Next host b) (hactive : a.vm.active = top :: below)
    (hnext : b.vm.active = next :: top :: below) :
    ∃ vm', Coroutine.resume host b.fuel top a.values a.vm = .ok (.switched next b.values) vm' ∧
      b.vm.heap.coroutines = vm'.heap.coroutines := by
  obtain ⟨fuel, values, vm'⟩ := b
  obtain ⟨-, hround⟩ := h
  have hturns := @turns _ host fuel a.values _ _ _ hactive
  rw [hround] at hturns
  cases hturns with
  | switches resume =>
    cases hnext
    exact ⟨_, resume, rfl⟩
  | returns resume gone =>
    have hlength := congrArg List.length hnext
    simp at hlength

/-- **While a coroutine is away** that has switched to another one, it lies right below that one on
the scheduler's stack and does not run; and it comes back when that one has finished or yielded. -/
theorem Leads.awaits (hleads : b.Leads host c) (nested : b.vm.Nested before)
    (hactive : b.vm.active = next :: top :: below) :
    (Acts host (· ≠ some top) b.vm c.vm ∧ ∃ above,
      c.vm.active = above ++ next :: top :: below) ∨
    ∃ p d, b.Leads host p ∧ HandsBack host top next below p d ∧
      Acts host (· ≠ some top) b.vm d.vm ∧ d.Leads host c := by
  induction hleads with
  | refl => exact .inl ⟨.refl, [], hactive⟩
  | @tail c c' before step ih =>
    rcases ih with ⟨acts, above, habove⟩ | ⟨p, d, hp, hback, acts, hd⟩
    · obtain ⟨acts', still | back⟩ := step.above (Leads.nested before nested) habove
      · exact .inl ⟨acts.trans acts', still⟩
      · exact .inr ⟨c, c', before, back, acts.trans acts', .refl⟩
    · exact .inr ⟨p, d, hp, hback, acts, hd.tail step⟩

end Head

end Vm

end ScriptVm
