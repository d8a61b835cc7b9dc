import ScriptVm.Proofs.Arising
import ScriptVm.Proofs.Locality

/-!
# A function at home and away

A function is called in two ways.  At home, its activation stands on the stacks of the
coroutine that calls.  Away, it stands alone in a new coroutine, and the one that calls
waits below it.  The two runs go in tandem: a step of the one is a step of the other.

While the function is at work, the two machines have the same activations on different
grounds (`Detour.Inside`).  While other coroutines are at work, it is suspended in both
runs, here in the coroutine that calls, there in the new one (`Detour.Away`).  In the
first run the coroutine that calls is suspended only by a switch, so whoever resumes it
fails in both runs.

Main statements: `Detour.Inside.next` and `Detour.Away.next` (what a step makes of two
runs in tandem).
-/

namespace ScriptVm

variable {σ : Type} {alike : (Ref .coroutine → Ref .coroutine → Prop) → σ → σ → Prop}
  {host : Host σ} {T U : Likeness}

/-! ### Stacks by their views -/

/-- Whether stacks are twins is told by their slots. -/
theorem Stacks.Twin.congr {s s' t t' : Stacks} (h : s.Twin T s') (ht : t.view = s.view)
    (ht' : t'.view = s'.view) : t.Twin T t' := by
  have hvalues : t.values.toList = s.values.toList := congrArg Layer.values ht
  have hframes : t.frames.toList = s.frames.toList := congrArg Layer.frames ht
  have hdelimiters : t.delimiters.toList = s.delimiters.toList := congrArg Layer.delimiters ht
  have hmarks : t.marks.toList = s.marks.toList := congrArg Layer.marks ht
  have hvalues' : t'.values.toList = s'.values.toList := congrArg Layer.values ht'
  have hframes' : t'.frames.toList = s'.frames.toList := congrArg Layer.frames ht'
  have hdelimiters' : t'.delimiters.toList = s'.delimiters.toList := congrArg Layer.delimiters ht'
  have hmarks' : t'.marks.toList = s'.marks.toList := congrArg Layer.marks ht'
  constructor
  · rw [hvalues, hvalues']
    exact h.values
  · rw [hframes, hframes']
    exact h.frames
  · rw [hdelimiters, hdelimiters']
    exact h.delimiters
  · rw [hmarks, hmarks']
    exact h.marks

/-- The stacks with more values. -/
def Stacks.given (s : Stacks) (vs : List Value) : Stacks :=
  { s with values := s.values.pushAll vs }

theorem Stacks.view_given (s : Stacks) (vs : List Value) :
    (s.given vs).view = s.view.pile (.bare vs) := by
  rw [Layer.pile_bare]
  exact congrArg (fun values => { s.view with values }) (Stack.toList_pushAll s.values vs)

theorem Stacks.Twin.given {s s' : Stacks} (h : s.Twin T s') {vs vs' : List Value}
    (hvs : Value.Twins T vs vs') : (s.given vs).Twin T (s'.given vs') := by
  refine { h with values := ?_ }
  show Value.Twins T (s.values.pushAll vs).toList (s'.values.pushAll vs').toList
  rw [Stack.toList_pushAll, Stack.toList_pushAll]
  exact h.values.append hvs

/-- What is a twin of values alone is values alone. -/
theorem Stacks.Twin.bare {s s' : Stacks} (h : s.Twin T s') {vs : List Value}
    (hs : s.view = .bare vs) : ∃ vs', s'.view = .bare vs' ∧ Value.Twins T vs vs' := by
  have hvalues : s.values.toList = vs := congrArg Layer.values hs
  have hframes := h.frames
  have hmarks := h.marks
  have hdelimiters := h.delimiters
  rw [show s.frames.toList = [] from congrArg Layer.frames hs] at hframes
  rw [show s.marks.toList = [] from congrArg Layer.marks hs] at hmarks
  rw [show s.delimiters.toList = [] from congrArg Layer.delimiters hs] at hdelimiters
  refine ⟨s'.values.toList, ?_, hvalues ▸ h.values⟩
  exact Layer.ext rfl (List.forall₂_nil_left_iff.mp hframes) hdelimiters
    (List.forall₂_nil_left_iff.mp hmarks)

/-! ### Failures -/

/-- The same failure, whatever calls were active. -/
inductive Failure.Same : Failure → Failure → Prop
  | runtime (f : Fault) (trace trace' : List TraceLine) :
      Same (.runtime f trace) (.runtime f trace')
  | usage (e : UsageError) : Same (.usage e) (.usage e)
  | defect (d : Defect) : Same (.defect d) (.defect d)
  | exhausted : Same .exhausted .exhausted

theorem Failure.Twin.same {e e' : Failure} (h : e.Twin e') : e.Same e' := by
  cases h with
  | runtime f _ => exact .runtime f _ _
  | usage e => exact .usage e
  | defect d => exact .defect d
  | exhausted => exact .exhausted

namespace Vm

/-- **A function is called in two ways**, within a coroutine and in a new one that is waited for. -/
structure Detour where
  /-- The coroutine that calls. -/
  caller : Ref .coroutine
  /-- What the heap knows of it while it is out. -/
  record : Coroutine
  /-- Its stacks, without the arguments of the call. -/
  kept : Stacks
  /-- The coroutines below it. -/
  below : List (Ref .coroutine)
  /-- The capacities of coroutines that the scheduler makes. -/
  config : Config
  /-- The new coroutine. -/
  fresh : Ref .coroutine
  /-- The frame of the function. -/
  frame : Frame
  /-- What is known when it is called. -/
  like : Likeness

namespace Detour

/-- What the function stands on. -/
def footing (d : Detour) (sizes : Sizes) : Footing := .pair d.kept.view (.bare []) sizes

/-- The coroutine that calls, while it waits for the new one. -/
def waiting (d : Detour) : Coroutine :=
  { d.record with state := .inStack, memory := d.kept }

/-- The coroutine that calls stands for itself, and the new one for none. -/
structure Known (d : Detour) : Prop where
  caller : d.like.pairs d.caller d.caller
  fresh : d.like.extra d.fresh
  record : d.record.Twin d.like d.record
  kept : d.kept.Twin d.like d.kept
  out : Coroutine.checkedOut d.record = d.record

/-- How the two runs are looked at: what the coroutine that calls is, is left open. -/
def mirror (d : Detour)
    (alike : (Ref .coroutine → Ref .coroutine → Prop) → σ → σ → Prop)
    (T : Likeness) : Mirror σ := .renamed alike (· = d.caller) T

/-- **The function is suspended in both heaps**, with the same activations, and in the second one
the coroutine that calls waits. -/
structure Suspended (σ : Type) (d : Detour) (sizes : Sizes) (T : Likeness) (h h' : Heap) :
    Prop where
  activations : ∃ M N : Machine σ, ScriptVm.Abreast (d.footing sizes) d.frame M N ∧
    M.config = d.record.config ∧
    h.coroutine d.caller = { d.record with state := .inStack, memory := M.memory } ∧
    N.memory.Twin T (h'.coroutine d.fresh).memory
  state : (h'.coroutine d.fresh).state = .inStack
  config : (h'.coroutine d.fresh).config = d.record.config
  waits : h'.coroutine d.caller = d.waiting

/-- **The function is at work in both runs**, on its two grounds. -/
structure Inside (d : Detour)
    (alike : (Ref .coroutine → Ref .coroutine → Prop) → σ → σ → Prop)
    (sizes : Sizes) (T : Likeness) (l l' : Live σ) : Prop where
  le : d.like ≤ T
  /-- Between the two runs there is one more machine, with the heap of the first one and the ground
  of the second one. -/
  machines : ∃ N, ScriptVm.Abreast (d.footing sizes) d.frame l.machine N ∧
    N.Twin (d.mirror alike T) l'.machine
  left : l.top = d.caller ∧ l.below = d.below ∧ l.config = d.config
  right : l'.top = d.fresh ∧ l'.below = d.caller :: d.below ∧ l'.config = d.config
  record : l.machine.heap.coroutine d.caller = d.record
  config : l.machine.config = d.record.config
  config' : (l'.machine.heap.coroutine d.fresh).config = d.record.config
  waits : l'.machine.heap.coroutine d.caller = d.waiting

/-- Two stacks of coroutines, down to the function. -/
structure Above (d : Detour) (T : Likeness) (active active' : List (Ref .coroutine)) : Prop where
  split : ∃ qs qs', active = qs ++ d.caller :: d.below ∧
    active' = qs' ++ d.fresh :: d.caller :: d.below ∧
    List.Forall₂ (fun q q' => T.pairs q q' ∧ q ≠ d.caller) qs qs'

/-- **Other coroutines are at work** in both runs. -/
structure Away (d : Detour)
    (alike : (Ref .coroutine → Ref .coroutine → Prop) → σ → σ → Prop)
    (sizes : Sizes) (T : Likeness) (l l' : Live σ) : Prop where
  le : d.like ≤ T
  twin : l.Twin (d.mirror alike T) l'
  config : l.config = d.config
  above : d.Above T l.below l'.below
  suspended : d.Suspended σ sizes T l.machine.heap l'.machine.heap

/-- **The function has returned in both runs**, and the coroutine that calls goes on. -/
structure Back (d : Detour)
    (alike : (Ref .coroutine → Ref .coroutine → Prop) → σ → σ → Prop)
    (l l' : Live σ) : Prop where
  left : l.top = d.caller ∧ l.below = d.below ∧ l.config = d.config
  right : l'.top = d.caller ∧ l'.below = d.below ∧ l'.config = d.config
  machines : ∃ U results results', d.like ≤ U ∧
    l.machine.Twin (.renamed alike (fun _ => False) U) l'.machine ∧
    l.machine.memory.view = d.kept.view.pile (.bare results) ∧
    l'.machine.memory.view = d.kept.view.pile (.bare results') ∧ Value.Twins U results results'
  spent : (l'.machine.heap.coroutine d.fresh).state = .stopped

/-- **Two runs in tandem**: the function is at work in both, or is suspended in both, or has
returned in both, the second run needing one more step; or both have ended alike, or one of them at
the limits of sizes. -/
inductive Tandem (d : Detour)
    (alike : (Ref .coroutine → Ref .coroutine → Prop) → σ → σ → Prop)
    (host : Host σ) (floor : Nat) : Sequel σ → Sequel σ → Prop
  | inside {T : Likeness} {l l' : Live σ} (inside : d.Inside alike host.sizes T l l') :
      Tandem d alike host floor (.live l) (.live l')
  | away {T : Likeness} {l l' : Live σ} (away : d.Away alike host.sizes T l l') :
      Tandem d alike host floor (.live l) (.live l')
  | back {l l' k : Live σ} (other : l'.top ≠ d.caller) (next : l'.next host floor = .live k)
      (back : d.Back alike l k) : Tandem d alike host floor (.live l) (.live l')
  | failed {e e' : Failure} {vm vm' : Vm σ} (same : e.Same e') :
      Tandem d alike host floor (.ended (.error e vm)) (.ended (.error e' vm'))
  | limitLeft {defect : Defect} {vm : Vm σ} {s : Sequel σ} (limit : host.sizes.Refuses defect) :
      Tandem d alike host floor (.ended (.error (.defect defect) vm)) s
  | limitRight {defect : Defect} {vm : Vm σ} {s : Sequel σ} (limit : host.sizes.Refuses defect) :
      Tandem d alike host floor s (.ended (.error (.defect defect) vm))

variable {d : Detour} {floor : Nat} {h h' g g' : Heap} {q q' : Ref .coroutine}

/-! ### The two coroutines on the heap -/

namespace Known

variable {S : Ref .coroutine → Prop}

theorem pairs (known : d.Known) (hle : d.like ≤ T) : T.pairs d.caller d.caller :=
  hle.pairs known.caller

theorem extra (known : d.Known) (hle : d.like ≤ T) : T.extra d.fresh :=
  hle.extra ▸ known.fresh

/-- What stands for another coroutine is neither of the two. -/
theorem apart (known : d.Known) (hle : d.like ≤ T) (hh : h.Twin T S h') (hq : T.pairs q q')
    (hne : q ≠ d.caller) : q' ≠ d.caller ∧ q' ≠ d.fresh := by
  refine ⟨fun heq => hne ((hh.sharp _ _ _ _ hq (known.pairs hle)).mpr heq), ?_⟩
  rintro rfl
  exact (hh.lone _ (known.extra hle)).2 q hq

theorem caller_ne_fresh (known : d.Known) (hle : d.like ≤ T) (hh : h.Twin T S h') :
    d.caller ≠ d.fresh := by
  intro heq
  exact (hh.lone _ (known.extra hle)).2 d.caller (heq ▸ known.pairs hle)

/-- Both are there. -/
theorem holds (known : d.Known) (hle : d.like ≤ T) (hh : h.Twin T S h') :
    h.coroutines.Holds d.caller ∧ h'.coroutines.Holds d.caller ∧ h'.coroutines.Holds d.fresh :=
  ⟨(hh.held _ _ (known.pairs hle)).1, (hh.held _ _ (known.pairs hle)).2,
    (hh.lone _ (known.extra hle)).1⟩

end Known

namespace Suspended

variable {sizes : Sizes}

/-- The two coroutines are as they were. -/
theorem congr (hs : d.Suspended σ sizes T h h') (hle : T ≤ U)
    (hcaller : g.coroutine d.caller = h.coroutine d.caller)
    (hfresh : g'.coroutine d.fresh = h'.coroutine d.fresh)
    (hcaller' : g'.coroutine d.caller = h'.coroutine d.caller) : d.Suspended σ sizes U g g' := by
  obtain ⟨M, N, habreast, hconfig, hrecord, hmemory⟩ := hs.activations
  refine ⟨⟨M, N, habreast, hconfig, hcaller.trans hrecord, ?_⟩, ?_, ?_,
    hcaller'.trans hs.waits⟩
  · rw [hfresh]
    exact hmemory.mono hle.toWithin
  · rw [hfresh]
    exact hs.state
  · rw [hfresh]
    exact hs.config

/-- Other coroutines are changed. -/
theorem modify (hs : d.Suspended σ sizes T h h') (hq : q ≠ d.caller)
    (hq' : q' ≠ d.caller ∧ q' ≠ d.fresh) (φ ψ : Coroutine → Coroutine) :
    d.Suspended σ sizes T (h.modifyCoroutine q φ) (h'.modifyCoroutine q' ψ) :=
  hs.congr (Likeness.le_refl T) (Heap.coroutine_modify_of_ne hq.symm φ)
    (Heap.coroutine_modify_of_ne hq'.2.symm ψ) (Heap.coroutine_modify_of_ne hq'.1.symm ψ)

variable {vm vm' : Vm σ} {active active' : List (Ref .coroutine)} {values values' : List Value}

/-- **Another coroutine is resumed**, or cannot be. -/
theorem enter (incurious : host.Incurious alike (· = d.caller)) (known : d.Known)
    (hle : d.like ≤ T)
    (hs : d.Suspended σ host.sizes T vm.heap vm'.heap) (twin : vm.Twin (d.mirror alike T) vm')
    (hconfig : vm.config = d.config) (hactive : vm.active = q :: active)
    (hactive' : vm'.active = q' :: active') (hq : T.pairs q q') (hne : q ≠ d.caller)
    (above : d.Above T active active') (hvalues : Value.Twins T values values') :
    d.Tandem alike host floor (Vm.enter host values vm) (Vm.enter host values' vm') := by
  have henter :=
    Vm.Twin.enter (m := d.mirror alike T) incurious twin hactive hactive' hq hne hvalues
  obtain ⟨hcaller, hcaller', hfresh⟩ := known.holds hle twin.heap
  generalize hx : Vm.enter host values vm = x at henter ⊢
  generalize hy : Vm.enter host values' vm' = y at henter ⊢
  cases henter with
  | failed failures => exact .failed failures.same
  | live twin' left right =>
    obtain ⟨hne', hlone⟩ := known.apart hle twin'.machine.heap twin'.top twin'.free
    have hlconfig := (enter_eq_live hx).2.2
    refine .away ⟨hle, twin', hlconfig.trans hconfig, left ▸ right ▸ above, ?_⟩
    exact hs.congr (Likeness.le_refl T) (enter_others hx hcaller (Ne.symm twin'.free))
      (enter_others hy hfresh hlone.symm) (enter_others hy hcaller' hne'.symm)

end Suspended

/-- The coroutine that calls cannot be resumed while the function is suspended. -/
theorem Suspended.enter_caller {sizes : Sizes} {vm vm' : Vm σ}
    (hs : d.Suspended σ sizes T vm.heap vm'.heap) {active active' : List (Ref .coroutine)}
    (hactive : vm.active = d.caller :: active) (hactive' : vm'.active = d.caller :: active')
    (values values' : List Value) :
    d.Tandem alike host floor (Vm.enter host values vm) (Vm.enter host values' vm') := by
  obtain ⟨M, N, -, -, hrecord, -⟩ := hs.activations
  rw [enter_inStack hactive (by rw [hrecord]), enter_inStack hactive' (by rw [hs.waits]; rfl)]
  exact .failed (.usage _)

/-- **The function is resumed** in both runs with some values. -/
theorem Suspended.resume (known : d.Known) (hle : d.like ≤ T)
    (hs : d.Suspended σ host.sizes T h h') (hh : h.Twin T (· = d.caller) h') {s s' : σ}
    (hstate : (d.mirror alike T).states T s s') {values values' : List Value}
    (hvalues : Value.Twins T values values') :
    d.Tandem alike host floor
      (Vm.enter host values (readied ⟨h, s, d.config, d.caller :: d.below⟩))
      (Vm.enter host values' (readied ⟨h', s', d.config, d.fresh :: d.caller :: d.below⟩)) := by
  obtain ⟨M, N, habreast, hconfig, hrecord, hmemory⟩ := hs.activations
  obtain ⟨hcaller, hcaller', hfresh⟩ := known.holds hle hh
  have hne := known.caller_ne_fresh hle hh
  have hlone (r : Ref .coroutine) (hr : T.pairs r d.fresh) : r = d.caller :=
    absurd hr ((hh.lone _ (known.extra hle)).2 r)
  let vm : Vm σ := ⟨Coroutine.setResumable d.caller h, s, d.config, d.caller :: d.below⟩
  let vm' : Vm σ :=
    ⟨Coroutine.setResumable d.fresh h', s', d.config, d.fresh :: d.caller :: d.below⟩
  have hcoroutine : vm.heap.coroutine d.caller
      = { d.record with state := .suspended, memory := M.memory } :=
    (Heap.coroutine_modify_self hcaller _).trans
      (congrArg (fun c => { c with state := Coroutine.resumable c.state }) hrecord)
  have hcoroutine' : vm'.heap.coroutine d.fresh
      = { h'.coroutine d.fresh with state := .suspended } := by
    refine (Heap.coroutine_modify_self hfresh _).trans ?_
    rw [hs.state]
    rfl
  have hout : Coroutine.checkOut d.caller vm.heap s
      = { M with heap := (Coroutine.checkOut d.caller vm.heap s).heap, state := s } := by
    simp only [Coroutine.checkOut, hcoroutine, hconfig]
  have hN : N.config = d.record.config := by
    obtain ⟨fs, c, halike, -⟩ := habreast
    exact halike.config.symm.trans hconfig
  show d.Tandem alike host floor (Vm.enter host values vm) (Vm.enter host values' vm')
  rw [enter_suspended (show vm.active = d.caller :: d.below from rfl) (by rw [hcoroutine]),
    enter_suspended (show vm'.active = d.fresh :: d.caller :: d.below from rfl)
      (by rw [hcoroutine'])]
  let L : Machine σ := { N with heap := (Coroutine.checkOut d.caller vm.heap s).heap, state := s }
  refine .inside ⟨hle,
    ⟨L.onValues fun stack => stack.pushAll values, ?_, ⟨?_, ?_, ?_, hstate⟩⟩,
    ⟨rfl, rfl, rfl⟩, ⟨rfl, rfl, rfl⟩, ?_, ?_, ?_, ?_⟩
  · rw [hout]
    exact habreast.resumed _ s values
  · exact (((hh.modifyLeft rfl _).modifyLeft rfl _).modifyRight hlone _).modifyRight hlone _
  · show (N.memory.given values).Twin T ((vm'.heap.coroutine d.fresh).memory.given values')
    rw [hcoroutine']
    exact hmemory.given hvalues
  · show (vm'.heap.coroutine d.fresh).config = N.config
    rw [hcoroutine', hN]
    exact hs.config
  · exact (Heap.coroutine_modify_self (Heap.holds_modifyCoroutine.mpr hcaller) _).trans
      ((congrArg Coroutine.checkedOut hcoroutine).trans known.out)
  · show (vm.heap.coroutine d.caller).config = d.record.config
    rw [hcoroutine]
  · have hself : (Coroutine.checkOut d.fresh vm'.heap s').heap.coroutine d.fresh
        = Coroutine.checkedOut (vm'.heap.coroutine d.fresh) :=
      Heap.coroutine_modify_self (Heap.holds_modifyCoroutine.mpr hfresh) _
    rw [hcoroutine'] at hself
    exact (congrArg Coroutine.config hself).trans hs.config
  · exact (Heap.coroutine_modify_of_ne hne _).trans
      ((Heap.coroutine_modify_of_ne hne _).trans hs.waits)

/-! ### The function is at work -/

/-- The new coroutine is done with the machine `M`, and the one that waits for it is taken out again
as it was when it called. -/
theorem Known.handed (known : d.Known) (hne : d.caller ≠ d.fresh) {M : Machine σ}
    (hcaller : M.heap.coroutines.Holds d.caller) (hfresh : M.heap.coroutines.Holds d.fresh)
    (hwaits : M.heap.coroutine d.caller = d.waiting) (results : List Value) :
    let vm := readied (returned d.fresh d.config (d.caller :: d.below) (.finished results) M)
    let K := Coroutine.checkOut d.caller vm.heap vm.state
    (vm.heap.coroutine d.caller).state = .suspended ∧ K.memory = d.kept ∧
      K.config = d.record.config ∧ K.heap.coroutine d.caller = d.record ∧
      (K.heap.coroutine d.fresh).state = .stopped := by
  intro vm K
  have hback :
      (returned d.fresh d.config (d.caller :: d.below) (.finished results) M).heap.coroutine
        d.caller = d.waiting := (Heap.coroutine_modify_of_ne hne _).trans hwaits
  have hready : vm.heap.coroutine d.caller = { d.record with
    state := .suspended, memory := d.kept } :=
    (Heap.coroutine_modify_self (Heap.holds_modifyCoroutine.mpr hcaller) _).trans
      (congrArg (fun c => { c with state := Coroutine.resumable c.state }) hback)
  have hstopped : K.heap.coroutine d.fresh
      = { M.heap.coroutine d.fresh with state := .stopped, memory := M.memory } :=
    (Heap.coroutine_modify_of_ne hne.symm _).trans
      ((Heap.coroutine_modify_of_ne hne.symm _).trans (Heap.coroutine_modify_self hfresh _))
  have hheld : vm.heap.coroutines.Holds d.caller :=
    Heap.holds_modifyCoroutine.mpr (Heap.holds_modifyCoroutine.mpr hcaller)
  refine ⟨by rw [hready], congrArg Coroutine.memory hready, ?_, ?_, by rw [hstopped]⟩
  · show (vm.heap.coroutine d.caller).config = d.record.config
    rw [hready]
  · exact (Heap.coroutine_modify_self hheld _).trans
      ((congrArg Coroutine.checkedOut hready).trans known.out)

namespace Inside

variable {l l' : Live σ} {M N M' : Machine σ} {results results' args args' : List Value}

/-- The function is deeper than the coroutine that calls was, and the new coroutine is another
one. -/
theorem deep {sizes : Sizes} (known : d.Known) (inside : d.Inside alike sizes T l l') :
    d.kept.view.frames.length < l.machine.depth ∧ l'.top ≠ d.caller := by
  obtain ⟨N, habreast, htwin⟩ := inside.machines
  refine ⟨habreast.deep.1, ?_⟩
  rw [inside.right.1]
  exact (known.caller_ne_fresh inside.le htwin.heap).symm

section

variable (known : d.Known) (inside : d.Inside alike host.sizes T l l')
  (grows : l.machine.heap.Grows M.heap) (grows' : l'.machine.heap.Grows M'.heap)
include known inside grows grows'

/-- What the heaps know of the two coroutines does not change while they are out. -/
theorem records :
    M.heap.coroutine d.caller = d.record ∧ M'.heap.coroutine d.caller = d.waiting ∧
      (M'.heap.coroutine d.fresh).config = d.record.config := by
  obtain ⟨N, habreast, htwin⟩ := inside.machines
  obtain ⟨-, hcaller', hfresh⟩ := known.holds inside.le htwin.heap
  have hcaller : l.machine.heap.coroutines.Holds d.caller := by
    rw [habreast.heap]
    exact (known.holds inside.le htwin.heap).1
  refine ⟨(grows.coroutine hcaller).trans inside.record,
    (grows'.coroutine hcaller').trans inside.waits, ?_⟩
  rw [grows'.coroutine hfresh]
  exact inside.config'

/-- **Control leaves the function for another coroutine.** -/
theorem switches (incurious : host.Incurious alike (· = d.caller)) (hle : T ≤ U)
    (abreast : ScriptVm.Abreast (d.footing host.sizes) d.frame M N)
    (twin : N.Twin (d.mirror alike U) M') (hconfig : M.config = l.machine.config)
    (hq : U.pairs q q') (hargs : Value.Twins U args args') :
    d.Tandem alike host floor (l.dispose host floor (.switched q args) M)
      (l'.dispose host floor (.switched q' args') M') := by
  obtain ⟨hrecord, hwaits, hconfig'⟩ := inside.records known grows grows'
  obtain ⟨htop, hbelow, hlconfig⟩ := inside.left
  obtain ⟨htop', hbelow', hlconfig'⟩ := inside.right
  have hleU := Likeness.le_trans inside.le hle
  have hheap : M.heap.Twin U (· = d.caller) M'.heap := abreast.heap ▸ twin.heap
  obtain ⟨hcaller, hcaller', hfresh⟩ := known.holds hleU hheap
  have hne := known.caller_ne_fresh hleU hheap
  let vm := returned d.caller d.config (q :: d.caller :: d.below) (.switched q args) M
  let vm' :=
    returned d.fresh d.config (q' :: d.fresh :: d.caller :: d.below) (.switched q' args') M'
  have hcoroutine : vm.heap.coroutine d.caller
      = { d.record with state := .inStack, memory := M.memory } := by
    rw [← hrecord]
    exact Heap.coroutine_modify_self hcaller _
  have hcoroutine' : vm'.heap.coroutine d.fresh
      = { M'.heap.coroutine d.fresh with state := .inStack, memory := M'.memory } :=
    Heap.coroutine_modify_self hfresh _
  have hs : d.Suspended σ host.sizes U vm.heap vm'.heap := by
    refine ⟨⟨M, N, abreast, hconfig.trans inside.config, hcoroutine, ?_⟩, ?_, ?_, ?_⟩
    · rw [hcoroutine']
      exact twin.memory
    · rw [hcoroutine']
    · rw [hcoroutine']
      exact hconfig'
    · rw [← hwaits]
      exact Heap.coroutine_modify_of_ne hne _
  have htwin : vm.Twin (d.mirror alike U) vm' := by
    refine ⟨(hheap.modifyLeft rfl _).modifyRight ?_ _, rfl, ?_⟩
    · exact fun r hr => absurd hr ((hheap.lone _ (known.extra hleU)).2 r)
    · show (d.mirror alike U).states U M.state M'.state
      rw [abreast.state]
      exact twin.state
  unfold Live.dispose
  rw [htop, hbelow, hlconfig, htop', hbelow', hlconfig']
  by_cases heq : q = d.caller
  · subst heq
    obtain rfl : d.caller = q' := (hheap.sharp _ _ _ _ (known.pairs hleU) hq).mp rfl
    exact hs.enter_caller rfl rfl _ _
  · exact hs.enter incurious known hleU htwin rfl rfl rfl hq heq ⟨[], [], rfl, rfl, .nil⟩ hargs

/-- **The function returns**: in the first run its results lie in place of the arguments, and in the
second one the new coroutine hands them over in one more step. -/
theorem returns (hle : T ≤ U) (alike' : Alike (d.footing host.sizes) (.bare results) M N)
    (twin : N.Twin (d.mirror alike U) M') (hconfig : M.config = l.machine.config)
    (hfloor : floor ≤ d.below.length) :
    ∃ k, Live.next host floor { l' with machine := M' } = .live k ∧
      d.Back alike { l with machine := M } k := by
  obtain ⟨hrecord, hwaits, -⟩ := inside.records known grows grows'
  obtain ⟨htop', hbelow', hlconfig'⟩ := inside.right
  have hleU := Likeness.le_trans inside.le hle
  have hheap : M.heap.Twin U (· = d.caller) M'.heap := alike'.heap ▸ twin.heap
  obtain ⟨hcaller, hcaller', hfresh⟩ := known.holds hleU hheap
  have hne := known.caller_ne_fresh hleU hheap
  -- The new coroutine has the results and nothing else on its stacks.
  obtain ⟨results', hview', hresults⟩ :=
    twin.memory.bare (alike'.right.trans (Layer.bare_nil_pile _))
  let M'' := M'.onValues fun values => values.truncate 0
  let vm := readied (returned d.fresh d.config (d.caller :: d.below) (.finished results') M'')
  obtain ⟨hready, hmemory, hkept, hgoesOn, hstopped⟩ :=
    known.handed hne (M := M'') hcaller' hfresh hwaits results'
  have hnext : Live.next host floor { l' with machine := M' } = enter host results' vm := by
    unfold Live.next
    dsimp only
    rw [Machine.step_ground hview']
    simp only [Live.pursue, Live.dispose, htop', hbelow', hlconfig', List.length_cons]
    rw [if_neg (Nat.not_le.mpr (Nat.lt_succ_of_le hfloor))]
  rw [hnext, enter_suspended (show vm.active = d.caller :: d.below from rfl) hready]
  refine ⟨_, rfl, inside.left, ⟨rfl, rfl, rfl⟩,
    ⟨U, results, results', hleU, ⟨?_, ?_, ?_, ?_⟩, alike'.left, ?_, hresults⟩, hstopped⟩
  · -- What the coroutine that calls is, is the same again.
    have hlone (r : Ref .coroutine) (hr : U.pairs r d.fresh) : r = d.caller :=
      absurd hr ((hheap.lone _ (known.extra hleU)).2 r)
    have hcalls (r : Ref .coroutine) (hr : U.pairs r d.caller) : r = d.caller :=
      (hheap.sharp _ _ _ _ hr (known.pairs hleU)).mpr rfl
    refine (((hheap.modifyRight hlone _).modifyRight hcalls _).modifyRight hcalls _).free ?_
    rintro r r' hr - rfl
    obtain rfl : d.caller = r' := (hheap.sharp _ _ _ _ (known.pairs hleU) hr).mp rfl
    show (M.heap.coroutine d.caller).Twin U
      ((Coroutine.checkOut d.caller vm.heap vm.state).heap.coroutine d.caller)
    rw [hrecord, hgoesOn]
    exact known.record.mono hleU.toWithin
  · have hgiven : (d.kept.given results).Twin U (d.kept.given results') :=
      (known.kept.mono hleU.toWithin).given hresults
    refine hgiven.congr (alike'.left.trans (Stacks.view_given _ _).symm) ?_
    show ((Coroutine.checkOut d.caller vm.heap vm.state).memory.given results').view = _
    rw [hmemory]
  · show (Coroutine.checkOut d.caller vm.heap vm.state).config = M.config
    rw [hkept, hconfig, inside.config]
  · show (d.mirror alike U).states U M.state M'.state
    rw [alike'.state]
    exact twin.state
  · show ((Coroutine.checkOut d.caller vm.heap vm.state).memory.given results').view = _
    rw [hmemory, Stacks.view_given]

end

/-- **A step of the function.**  It must not yield. -/
theorem next (known : d.Known) (inside : d.Inside alike host.sizes T l l')
    (hsyscall : ∀ i, host.syscall i = none) (hblind : host.Blind)
    (incurious : host.Incurious alike (· = d.caller)) (hfloor : floor ≤ d.below.length)
    (stays : ∀ vs M, Exec.step host l.machine ≠ .ok (some (.yielded vs)) M) :
    d.Tandem alike host floor (l.next host floor) (l'.next host floor) := by
  obtain ⟨N, habreast, htwin⟩ := inside.machines
  have suits : host.Suits (d.footing host.sizes) := ⟨rfl, hsyscall, .inr hblind⟩
  have hstep := habreast.step suits
  obtain ⟨U, hle, hmirrored⟩ := htwin.step (m := d.mirror alike T) incurious
  have hgrows := Exec.step_grows host l.machine
  have hgrows' := Exec.step_grows host l'.machine
  unfold Live.next
  generalize hx : Exec.step host l.machine = x at hstep hgrows ⊢
  generalize Exec.step host N = y at hstep hmirrored
  generalize Exec.step host l'.machine = z at hmirrored hgrows' ⊢
  cases hstep with
  | limitLeft limit => exact .limitLeft limit
  | limitRight limit =>
    cases hmirrored with
    | error _ _ => exact .limitRight limit
  | @fault f _ _ _ _ =>
    cases hmirrored with
    | error _ _ => exact .failed (.runtime f _ _)
  | goes _ abreast =>
    cases hmirrored with
    | ok twin result =>
      cases result with
      | none =>
        obtain ⟨hrecord, hwaits, hconfig'⟩ := inside.records known hgrows hgrows'
        exact .inside ⟨Likeness.le_trans inside.le hle, ⟨_, abreast, twin⟩, inside.left,
          inside.right, hrecord, (Exec.step_config hx).trans inside.config, hconfig', hwaits⟩
  | returns _ _ alike' =>
    cases hmirrored with
    | ok twin result =>
      cases result with
      | none =>
        obtain ⟨k, hk, hback⟩ := inside.returns known hgrows hgrows' hle alike' twin
          (Exec.step_config hx) hfloor
        exact .back (inside.deep known).2 hk hback
  | @exits e _ _ abreast =>
    cases hmirrored with
    | ok twin result =>
      cases result with
      | some hexit =>
        cases hexit with
        | switched hq hargs =>
          exact inside.switches known hgrows hgrows' incurious hle abreast twin
            (Exec.step_config hx) hq hargs
        | yielded _ => exact absurd hx (stays _ _)
        | finished _ =>
          -- A coroutine with active functions is not done.
          cases Exec.departs_of_step hx with
          | finished idle _ =>
            refine absurd (fun hnil => ?_) idle
            have hdeep := habreast.deep.1
            rw [Machine.depth, Stack.size_eq_length, hnil] at hdeep
            exact Nat.not_lt_zero _ hdeep

end Inside

/-! ### Other coroutines are at work -/

namespace Away

variable {l l' : Live σ} {M M' : Machine σ} {results results' : List Value} {exit exit' : Exit}

theorem suspended_next (known : d.Known) (away : d.Away alike host.sizes T l l')
    (grows : l.machine.heap.Grows M.heap) (grows' : l'.machine.heap.Grows M'.heap) (hle : T ≤ U) :
    d.Suspended σ host.sizes U M.heap M'.heap := by
  obtain ⟨hcaller, hcaller', hfresh⟩ := known.holds away.le away.twin.machine.heap
  exact away.suspended.congr hle (grows.coroutine hcaller) (grows'.coroutine hfresh)
    (grows'.coroutine hcaller')

/-- **A coroutine hands its values to the one below**: to another one, or to that of the function,
which goes on. -/
theorem handsBack (known : d.Known) (away : d.Away alike host.sizes T l l')
    (incurious : host.Incurious alike (· = d.caller)) (hle : T ≤ U)
    (grows : l.machine.heap.Grows M.heap) (grows' : l'.machine.heap.Grows M'.heap)
    (twin : M.Twin (d.mirror alike U) M') (hexit : exit.Twin U exit')
    (hvalues : Value.Twins U results results') :
    d.Tandem alike host floor
      (enter host results (readied (returned l.top l.config l.below exit M)))
      (enter host results' (readied (returned l'.top l'.config l'.below exit' M'))) := by
  have hleU := Likeness.le_trans away.le hle
  have htop := hle.pairs away.twin.top
  have hapart := known.apart hleU twin.heap htop away.twin.free
  have htwin := (twin.returned htop hexit d.config .nil).toTwin
  have hs := (away.suspended_next known grows grows' hle).modify away.twin.free hapart
    (fun c => { c with state := Coroutine.stateAfter exit, memory := M.memory })
    (fun c => { c with state := Coroutine.stateAfter exit', memory := M'.memory })
  obtain ⟨qs, qs', hbelow, hbelow', hqs⟩ := away.above
  rw [away.twin.config, away.config, hbelow, hbelow']
  cases hqs with
  | nil => exact hs.resume known hleU htwin.heap twin.state hvalues
  | @cons q q' qs qs' hq hqs =>
    have hpair := hle.pairs hq.1
    have hsready := hs.modify hq.2 (known.apart hleU htwin.heap hpair hq.2)
      (fun c => { c with state := Coroutine.resumable c.state })
      (fun c => { c with state := Coroutine.resumable c.state })
    exact Suspended.enter incurious known hleU hsready
      ⟨htwin.heap.setResumable hpair, rfl, twin.state⟩ rfl rfl rfl hpair hq.2
      ⟨qs, qs', rfl, rfl, hqs.imp fun _ _ hr => ⟨hle.pairs hr.1, hr.2⟩⟩ hvalues

/-- **A step of another coroutine.** -/
theorem next (known : d.Known) (away : d.Away alike host.sizes T l l')
    (incurious : host.Incurious alike (· = d.caller)) (hfloor : floor ≤ d.below.length) :
    d.Tandem alike host floor (l.next host floor) (l'.next host floor) := by
  obtain ⟨U, hle, hstep⟩ := away.twin.machine.step (m := d.mirror alike T) incurious
  have hgrows := Exec.step_grows host l.machine
  have hgrows' := Exec.step_grows host l'.machine
  have hleU := Likeness.le_trans away.le hle
  have htop := hle.pairs away.twin.top
  obtain ⟨qs, qs', hbelow, hbelow', hqs⟩ := away.above
  -- Below the coroutine at work there are still those of the function.
  have hmore : ¬ l.below.length ≤ floor := by
    simp only [hbelow, List.length_append, List.length_cons]
    omega
  have hmore' : ¬ l'.below.length ≤ floor := by
    simp only [hbelow', List.length_append, List.length_cons]
    omega
  unfold Live.next
  generalize Exec.step host l.machine = x at hstep hgrows ⊢
  generalize Exec.step host l'.machine = y at hstep hgrows' ⊢
  cases hstep with
  | error e twin =>
    cases e with
    | fault f => exact .failed (.runtime f _ _)
    | defect defect => exact .failed (.defect defect)
    | exhausted => exact .failed .exhausted
  | @ok _ _ M M' twin result =>
    have hs := away.suspended_next known hgrows hgrows' hle
    have hqsU := hqs.imp fun _ _ hr => (⟨hle.pairs hr.1, hr.2⟩ : U.pairs _ _ ∧ _)
    cases result with
    | none =>
      exact .away ⟨hleU, ⟨twin, htop, away.twin.free, away.twin.config⟩, away.config,
        ⟨qs, qs', hbelow, hbelow', hqsU⟩, hs⟩
    | some hexit =>
      cases hexit with
      | finished hvalues =>
        simp only [Live.pursue, Live.dispose, if_neg hmore, if_neg hmore']
        exact away.handsBack known incurious hle hgrows hgrows' twin (.finished hvalues) hvalues
      | yielded hvalues =>
        simp only [Live.pursue, Live.dispose, if_neg hmore, if_neg hmore']
        exact away.handsBack known incurious hle hgrows hgrows' twin (.yielded hvalues) hvalues
      | @switched q q' args args' hq hargs =>
        have htwin := (twin.returned htop (.switched hq hargs) d.config .nil).toTwin
        have hsout := hs.modify away.twin.free (known.apart hleU twin.heap htop away.twin.free)
          (fun c => { c with state := .inStack, memory := M.memory })
          (fun c => { c with state := .inStack, memory := M'.memory })
        simp only [Live.pursue, Live.dispose]
        rw [away.twin.config, away.config, hbelow, hbelow']
        by_cases heq : q = d.caller
        · subst heq
          obtain rfl : d.caller = q' := (twin.heap.sharp _ _ _ _ (known.pairs hleU) hq).mp rfl
          exact Suspended.enter_caller hsout rfl rfl _ _
        · exact Suspended.enter incurious known hleU hsout ⟨htwin.heap, rfl,
            twin.state⟩ rfl rfl rfl hq heq
            ⟨l.top :: qs, l'.top :: qs', rfl, rfl, .cons ⟨htop, away.twin.free⟩ hqsU⟩ hargs

end Away

end Detour

end Vm

end ScriptVm
