import ScriptVm.Proofs.Pending
import ScriptVm.Proofs.Wholeness

/-!
# Invariants of stacks

What is known of the stacks of one coroutine, whatever it is, is known in the same
way: empty stacks have it; a coroutine that begins gets it, and one that goes on with
some values keeps it; every step of the coroutine keeps it; and as long as it waits,
nothing that the others and the host do to the heap takes it away.  Then all
coroutines have it, in every state that a host can bring about.

A step may need more than the invariant itself, such as that no reference is dangling.
That is its premise (`Vm.Premise`).

Main statements: `Vm.Arises.upholds` (between two errands of a host),
`Vm.Occurs.upholds` (where a coroutine is resumed) and `Vm.Occurs.runs` (between the
steps that follow).
-/

namespace ScriptVm

variable {σ : Type} {host : Host σ} {own : Heap → σ → Prop}
  {keeps : (Ref .function → Prop) → σ → Prop}

/-! ### Prototypes -/

/-- The unit of a closure that has code is there. -/
theorem Heap.loaded_of_code {h : Heap} {r : Ref .function} (hcode : (h.prototype r).code ≠ #[]) :
    h.units.Holds (h.function r).unit := by
  by_contra hmissing
  refine hcode ?_
  have hout : ¬ (h.function r).unit.index < h.units.cells.size := hmissing
  have hnone : h.unit (h.function r).unit = default := by
    simp [Heap.unit, Store.get, Array.getD, hout]
  rw [prototype, hnone]
  rfl

/-- **The prototypes of closures stay**, if their units are there. -/
def Heap.KeepsPrototypes (h h' : Heap) : Prop :=
  ∀ r, h.functions.Holds r → h.units.Holds (h.function r).unit →
    h'.functions.Holds r ∧ h'.units.Holds (h'.function r).unit ∧ h'.prototype r = h.prototype r

namespace Heap.KeepsPrototypes

variable {h h' h'' : Heap}

theorem trans (hfirst : h.KeepsPrototypes h') (hsecond : h'.KeepsPrototypes h'') :
    h.KeepsPrototypes h'' := by
  intro r hr hunit
  obtain ⟨hr', hunit', hsame⟩ := hfirst r hr hunit
  obtain ⟨hr'', hunit'', hsame'⟩ := hsecond r hr' hunit'
  exact ⟨hr'', hunit'', hsame'.trans hsame⟩

/-- No run changes prototypes. -/
theorem of_retains (hretains : h.Retains h') : h.KeepsPrototypes h' := by
  intro r hr hunit
  obtain ⟨hr', hsame, -⟩ := hretains.functions r hr
  refine ⟨hr', ?_, hretains.prototype hr⟩
  rw [hsame, hretains.units]
  exact hunit

theorem of_eq (hunits : h'.units = h.units) (hfunctions : h'.functions = h.functions) :
    h.KeepsPrototypes h' :=
  of_retains (.of_eq hunits hfunctions)

/-- A unit comes behind the others. -/
theorem newUnit (h : Heap) (u : CodeUnit) : h.KeepsPrototypes (h.newUnit u).2 := by
  intro r hr hunit
  have hsame : (h.newUnit u).2.unit (h.function r).unit = h.unit (h.function r).unit :=
    h.units.get_add_of_holds u hunit
  refine ⟨hr, Store.holds_add_iff.mpr (.inl hunit), ?_⟩
  show ((h.newUnit u).2.unit (h.function r).unit).prototypes.getD _ default = _
  rw [hsame]
  rfl

theorem keepsCode (hkeeps : h.KeepsPrototypes h') : h.KeepsCode h' := by
  intro r hr hcode
  obtain ⟨hr', -, hsame⟩ := hkeeps r hr (loaded_of_code hcode)
  exact ⟨hr', congrArg _ hsame⟩

end Heap.KeepsPrototypes

/-! ### Invariants -/

/-- **What else is known** of the machines on which coroutines run, if these are resumed on certain
schedulers only. -/
structure Vm.Premise (host : Host σ) where
  admits : Vm σ → Ref .coroutine → List Value → Prop
  given : Machine σ → Prop
  begin : ∀ {vm : Vm σ} {r : Ref .coroutine} {args : List Value}, admits vm r args →
    given (Exec.last (Coroutine.begin host vm r args))
  step : ∀ {M : Machine σ}, given M → given (Exec.last (Exec.step host M))

/-- Nothing else is known. -/
def Vm.Premise.none (host : Host σ) : Vm.Premise host where
  admits _ _ _ := True
  given _ := True
  begin _ := trivial
  step _ := trivial

/-- No reference is dangling. -/
def Vm.Premise.intact (rooted : host.Rooted keeps) : Vm.Premise host where
  admits vm _ args := vm.Admits keeps args
  given := Machine.Intact keeps
  begin admits := admits.begin rooted _
  step hM := (hM.step rooted).1

/-- **An invariant of the stacks of a coroutine.** -/
structure Stacks.Invariant (host : Host σ) where
  premise : Vm.Premise host
  holds : Heap → Stacks → Prop
  bare : ∀ {h : Heap} {s : Stacks}, s.view = .bare [] → holds h s
  keeps : ∀ {h h' : Heap} {s : Stacks}, h.KeepsPrototypes h' → holds h s → holds h' s
  /-- A coroutine begins. -/
  opened :
    ∀ {M : Machine σ} (entry : Value) (context : Option (Ref .context)) (args : List Value),
    M.memory.view = .bare [] →
    let N := Exec.last (Coroutine.opening host .initial entry context args M)
    premise.given N → holds N.heap N.memory
  /-- It goes on with some values. -/
  resumed : ∀ {M : Machine σ} {s : Stacks} (values : List Value),
    M.memory = { s with values := s.values.pushAll values } → holds M.heap s →
    holds M.heap M.memory
  step : ∀ {M : Machine σ}, premise.given M → holds M.heap M.memory →
    let N := Exec.last (Exec.step host M)
    holds N.heap N.memory

/-- A coroutine whose stacks have an invariant; they are empty if it is new. -/
structure Coroutine.Upholds (I : Stacks.Invariant host) (h : Heap) (c : Coroutine) : Prop where
  memory : I.holds h c.memory
  fresh : c.state = .initial → c.memory.view = .bare []

theorem Coroutine.Upholds.of_bare {I : Stacks.Invariant host} {h : Heap} {c : Coroutine}
    (hc : c.memory.view = .bare []) : c.Upholds I h :=
  ⟨I.bare hc, fun _ => hc⟩

/-- The stacks of every coroutine have an invariant. -/
def Heap.Upholds (I : Stacks.Invariant host) (h : Heap) : Prop :=
  h.Every (·.Upholds I h)

namespace Heap.Upholds

variable {I : Stacks.Invariant host} {h h' : Heap}

theorem empty : Heap.empty.Upholds I := List.forall_mem_nil _

theorem coroutine (hs : h.Upholds I) (r : Ref .coroutine) : (h.coroutine r).Upholds I h :=
  Heap.Every.coroutine (P := (·.Upholds I h)) hs (.of_bare (Stacks.view_new _)) r

/-- All that was known is still known if the prototypes stay. -/
theorem mono (hs : h.Upholds I) (hkeeps : h.KeepsPrototypes h') : h.Every (·.Upholds I h') :=
  fun c hc => ⟨I.keeps hkeeps (hs c hc).memory, (hs c hc).fresh⟩

/-- The heap changes, and perhaps there are new coroutines. -/
theorem grows (hs : h.Upholds I) (hgrows : h.Grows h') (hkeeps : h.KeepsPrototypes h') :
    h'.Upholds I :=
  Heap.Every.grows (P := (·.Upholds I h')) (hs.mono hkeeps) hgrows fun _ _ =>
    .of_bare (Stacks.view_new _)

theorem make (hs : h.Upholds I) (entry : Value) (context : Option (Ref .context))
    (config : Config) : (h.newCoroutine (.new entry context config)).2.Upholds I :=
  Heap.Every.make (P := (·.Upholds I (h.newCoroutine (.new entry context config)).2))
    (hs.mono (.of_eq rfl rfl)) (.of_bare (Stacks.view_new _))

/-- One coroutine is put in another state, perhaps with other stacks. -/
theorem modify (hs : h.Upholds I) (r : Ref .coroutine) {φ : Coroutine → Coroutine}
    (hφ : ∀ c, c.Upholds I (h.modifyCoroutine r φ) →
      (φ c).Upholds I (h.modifyCoroutine r φ)) :
    (h.modifyCoroutine r φ).Upholds I :=
  Heap.Every.modify (P := (·.Upholds I (h.modifyCoroutine r φ))) (hs.mono (.of_eq rfl rfl)) r hφ

/-- A coroutine is made resumable. -/
theorem ready (hs : h.Upholds I) (r : Ref .coroutine) : (Coroutine.setResumable r h).Upholds I := by
  exact hs.modify r fun c hc =>
    ⟨hc.memory, fun hnew => hc.fresh (Coroutine.eq_initial_of_resumable hnew)⟩

/-- What a host does to a heap. -/
theorem deed (hs : h.Upholds I) {sizes : Sizes} {d : Deed} {reply : Reply}
    (hd : d.apply sizes h = .ok (reply, h')) : h'.Upholds I := by
  cases d with
  | load u =>
    cases hd
    exact hs.grows (.of_coroutines_eq rfl) (.newUnit h u)
  | newFunction u index parent =>
    rw [Deed.apply] at hd
    cases hmade : h.newFunction u index parent with
    | error e =>
      rw [hmade] at hd
      cases hd
    | ok made =>
      rw [hmade] at hd
      cases hd
      have hgrows := Heap.Grows.of_coroutines_eq (h.coroutines_newFunction hmade)
      obtain ⟨r, g⟩ := made
      have hadded := h.newFunction_eq hmade
      subst hadded
      exact hs.grows hgrows (.of_retains (.add h _))
  | newCoroutine entry context config =>
    rw [Deed.apply] at hd
    rcases Coroutine.make_cases sizes entry context config with hmade | ⟨e, hmade, -⟩
    · rw [hmade] at hd
      cases hd
      exact hs.make entry context config
    · rw [hmade] at hd
      cases hd
  | bind r c =>
    cases hd
    exact hs.grows (.of_coroutines_eq rfl) (.of_retains (Heap.Move.bind h r c).retains)
  | ready r =>
    cases hd
    exact hs.ready r
  | write c name value =>
    cases hd
    have move := Heap.Move.write h c name value
    exact hs.grows move.grows (.of_retains move.retains)
  | read c name =>
    cases hd
    have move := Heap.Move.read h c name
    exact hs.grows move.grows (.of_retains move.retains)
  | _ =>
    cases hd
    exact hs.grows (.of_coroutines_eq (by simp)) (.of_eq rfl rfl)

end Heap.Upholds

/-! ### Every reachable state -/

/-- **An invariant of stacks is kept** by all that a coroutine does, and by all that is done with
it. -/
def Stacks.Invariant.keeping (I : Stacks.Invariant host) : Vm.Keeping host where
  holds h := h.Upholds I
  running M := I.premise.given M ∧ I.holds M.heap M.memory ∧ M.heap.Upholds I
  admits := I.premise.admits
  begin := by
    intro vm r args haccepted hadmits hvm
    let M := Coroutine.checkOut r vm.heap vm.state
    let N := Exec.last (Coroutine.begin host vm r args)
    have htame :=
      Coroutine.tame_opening host (vm.heap.coroutine r).state (vm.heap.coroutine r).entry
      (vm.heap.coroutine r).entryContext args M False.elim
    have hkeeps : M.heap.KeepsPrototypes N.heap := .of_retains htame.retains
    have hgiven : I.premise.given N := I.premise.begin hadmits
    have hheap : M.heap.Upholds I := hvm.modify r fun _ _ => .of_bare (Stacks.view_new _)
    refine ⟨hgiven, ?_, hheap.grows htame.grows hkeeps⟩
    have hwaits := hvm.coroutine r
    by_cases hnew : (vm.heap.coroutine r).state = .initial
    · have hopening : N = Exec.last (Coroutine.opening host .initial (vm.heap.coroutine r).entry
          (vm.heap.coroutine r).entryContext args M) := by
        show Exec.last (Coroutine.begin host vm r args) = _
        rw [Coroutine.begin, hnew]
      have hopened :=
        I.opened (M := M) (vm.heap.coroutine r).entry (vm.heap.coroutine r).entryContext args
        (hwaits.fresh hnew)
      rw [← hopening] at hopened
      exact hopened hgiven
    · have hbegin : N = M.onValues fun values => values.pushAll args := by
        show Exec.last (Coroutine.opening _ _ _ _ _ _) = _
        rw [Coroutine.opening, if_neg hnew]
        rfl
      refine I.resumed (M := N) (s := (vm.heap.coroutine r).memory) args ?_ ?_
      · show N.memory = _
        rw [hbegin]
        rfl
      · have hout : vm.heap.KeepsPrototypes M.heap := .of_eq rfl rfl
        exact I.keeps (hout.trans hkeeps) hwaits.memory
  step := by
    intro M ⟨hgiven, hmemory, hheap⟩
    exact ⟨I.premise.step hgiven, I.step hgiven hmemory,
      hheap.grows (Exec.step_grows host M) (.of_retains (Exec.step_retains host M))⟩
  stop := by
    intro M r state memory hstate ⟨_, hmemory, hheap⟩ hkept
    refine hheap.modify r fun _ _ => ⟨?_, fun hnew => absurd hnew hstate⟩
    rcases hkept with rfl | rfl
    · have hkeeps : M.heap.KeepsPrototypes (Coroutine.checkIn r state M.memory M.heap) :=
        .of_eq rfl rfl
      exact I.keeps hkeeps hmemory
    · exact I.bare (Stacks.view_clear _)
  ready := fun r hh => hh.ready r

/-- A premise of all resumes that occur. -/
def Vm.Premise.Covers (P : Vm.Premise host) (own : Heap → σ → Prop) : Prop :=
  ∀ {vm : Vm σ} {r : Ref .coroutine} {args : List Value}, vm.Occurs host own r args →
    P.admits vm r args

theorem Vm.Premise.intact_covers (rooted : host.Rooted keeps) :
    (Vm.Premise.intact rooted).Covers (Host.Owned keeps) :=
  fun occurs => occurs.admits rooted

namespace Vm

variable {I : Stacks.Invariant host} {vm : Vm σ}

theorem bears_upholds : Bears host fun vm => vm.Arises host own ∧ vm.heap.Upholds I :=
  fun known held hd => ⟨known.1.deed held hd, known.2.deed hd⟩

/-- **Between two errands** of a host the stacks of all coroutines have the invariant. -/
theorem Arises.upholds (covers : I.premise.Covers own) (h : vm.Arises host own) :
    vm.heap.Upholds I := by
  induction h with
  | new config hown => exact .empty
  | settle _ _ ih => exact ih
  | @errand vm before e held fuel _ ih =>
    cases e with
    | deed d =>
      simp only [Errand.run, bind_apply, get_apply]
      cases hd : d.apply host.sizes vm.heap with
      | error e => exact ih
      | ok made => exact ih.deed hd
    | request q =>
      have hran : Heap.Upholds I (last (q.run host fuel vm)).heap := by
        have hcomes := comes_request bears_upholds ⟨before, ih⟩ held fuel
        generalize q.run host fuel vm = result at hcomes
        cases hcomes with
        | refused known _ => exact known.2
        | @runs entry args known given =>
          let made : Vm σ := { vm with
            heap := ((q.opened vm.heap).newCoroutine (.new entry q.context? vm.config)).2 }
          have hmade : I.keeping.holds made.heap := known.2
          refine I.keeping.execute hmade fuel _ args ?_
          exact fun head leads top active => covers (.round known.1 given leads active)
      rw [Errand.run, bind_apply]
      generalize q.run host fuel vm = result at hran
      cases result <;> exact hran
    | resume r args =>
      have hran := I.keeping.resume ih fuel args (covers (.own before held))
      rw [Errand.run, bind_apply]
      generalize Coroutine.resume host fuel r args vm = result at hran
      cases result <;> exact hran

/-- **Where a coroutine is resumed.** -/
theorem Occurs.upholds (covers : I.premise.Covers own) {r : Ref .coroutine} {args : List Value}
    (occurs : vm.Occurs host own r args) : vm.heap.Upholds I := by
  cases occurs with
  | own arises _ => exact arises.upholds covers
  | @round vm root _ args _ _ arises held leads _ =>
    have hroot : vm.heap.Upholds I := arises.upholds covers
    have hvm : Heap.Upholds I { vm with active := root :: vm.active }.heap := hroot
    exact I.keeping.leads_of_admits hvm
      (fun _ leads _ active => covers (.round arises held leads active)) leads

/-- **Between the steps that follow.** -/
theorem Occurs.runs (covers : I.premise.Covers own) {r : Ref .coroutine} {args : List Value}
    (occurs : vm.Occurs host own r args)
    (haccepted : Coroutine.canResume (vm.heap.coroutine r).state) {M : Machine σ}
    (runs : vm.Runs host r args M) : I.premise.given M ∧ I.holds M.heap M.memory := by
  obtain ⟨hgiven, hmemory, -⟩ :=
    I.keeping.runs (occurs.upholds covers) haccepted (covers occurs) runs
  exact ⟨hgiven, hmemory⟩

end Vm

end ScriptVm
