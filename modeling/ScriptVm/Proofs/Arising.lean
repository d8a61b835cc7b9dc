import ScriptVm.Proofs.Errands
import ScriptVm.Proofs.Mirror.Rounds

/-!
# States that arise

A host begins with a new scheduler and has its errands, one after the other.  On a
heap that arises so, no reference is dangling: it is a twin of itself, with every
coroutine standing for itself (`Vm.Whole`).  The same is true in the middle of a run,
between any two steps (`Vm.Live.Whole`).

The host must not look at which coroutine is which (`Host.Incurious`).  Its own state
may refer to coroutines; `alike` tells which of its states are alike when coroutines
are paired.

Main statements: `Vm.Arises.whole` (between two errands) and `Vm.Live.Arises.whole`
(between two steps).
-/

namespace ScriptVm

variable {σ : Type} {alike : (Ref .coroutine → Ref .coroutine → Prop) → σ → σ → Prop}
  {own : Heap → σ → Prop} {host : Host σ} {vm : Vm σ} {floor : Nat}

/-- If fewer coroutines are set aside, the host tells no twins apart either. -/
theorem Host.Oblivious.fewer {states : Likeness → σ → σ → Prop}
    {S S' : Ref .coroutine → Prop}
    (h : host.Oblivious states S) (hle : ∀ r, S' r → S r) : host.Oblivious states S' := by
  have hmore {T : Likeness} {g g' : Heap} (hg : g.Twin T S' g') : g.Twin T S g' :=
    hg.free fun r _ _ hfree haside => absurd (hle r haside) hfree
  exact {
    mono := h.mono
    pure := fun q _ _ _ _ _ _ _ hheap => h.pure q (hmore hheap)
    effect := fun q _ _ _ _ _ config _ _ _ _ hheap => h.effect q config (hmore hheap)
    opening := fun q _ _ _ _ _ config _ _ hheap => h.opening q config (hmore hheap)
    async := fun q object _ _ _ _ _ _ _ hheap => h.async q object (hmore hheap)
    syscall := fun hslot _ _ _ _ _ _ _ hheap => h.syscall hslot (hmore hheap) }

/-- How machines are looked at that may differ in which coroutine is which, but not in how code is
spelled. -/
def Mirror.renamed (alike : (Ref .coroutine → Ref .coroutine → Prop) → σ → σ → Prop)
    (aside : Ref .coroutine → Prop) (T : Likeness) : Mirror σ where
  like := T
  aside
  states := fun U s s' => U.Exact ∧ alike U.pairs s s'

/-- **The host does not look at which coroutine is which**, nor at what those are that are set
aside, nor at the capacities of stacks and the numbers of buckets. -/
def Host.Incurious (host : Host σ)
    (alike : (Ref .coroutine → Ref .coroutine → Prop) → σ → σ → Prop)
    (aside : Ref .coroutine → Prop) : Prop :=
  host.Oblivious (fun U s s' => U.Exact ∧ alike U.pairs s s') aside

theorem Host.bare_incurious (aside : Ref .coroutine → Prop) :
    Host.bare.Incurious (fun _ _ _ => True) aside where
  mono hle hs := ⟨hle.exact hs.1, trivial⟩
  pure _ _ _ _ _ _ _ _ _ _ _ := .error _
  effect _ _ _ _ _ _ _ _ _ _ _ _ _ _ hs := ⟨.error _, hs⟩
  opening _ _ _ _ _ _ _ _ _ _ _ hs := ⟨rfl, hs⟩
  async _ _ _ _ _ _ _ _ _ _ _ hs := ⟨.error _, hs⟩
  syscall h := nomatch h

/-! ### Between two errands -/

/-- **The schedulers that arise** from the errands of a host.  It may also change its own state, to
one that is `own` to it, given the heap. -/
inductive Vm.Arises (host : Host σ) (own : Heap → σ → Prop) : Vm σ → Prop
  | new (config : Config) {s : σ} (hown : own .empty s) : Arises host own (.new config s)
  | settle {vm : Vm σ} (before : Arises host own vm) {s : σ} (hown : own vm.heap s) :
      Arises host own { vm with state := s }
  | errand {vm : Vm σ} (before : Arises host own vm) {e : Errand} (held : e.Held vm.heap)
      (fuel : Nat) (intact : ∀ d vm', e.run host fuel vm ≠ .error (.defect d) vm') :
      Arises host own (Vm.last (e.run host fuel vm))

/-- The states of a host that are alike to themselves, if all coroutines that are there are paired
with themselves. -/
def Host.Settled (alike : (Ref .coroutine → Ref .coroutine → Prop) → σ → σ → Prop)
    (h : Heap) (s : σ) : Prop :=
  ∀ pairs, (∀ r, h.coroutines.Holds r → pairs r r) → alike pairs s s

/-- Something has been done to the heap. -/
theorem Vm.Arises.deed (before : vm.Arises host own) {d : Deed} (held : d.Held vm.heap)
    {reply : Reply} {h : Heap} (hd : d.apply host.sizes vm.heap = .ok (reply, h)) :
    Vm.Arises host own { vm with heap := h } := by
  have hrun : (Errand.deed d).run host 0 vm = .ok reply { vm with heap := h } := by
    simp only [Errand.run, Vm.bind_apply, Vm.get_apply, hd]
    rfl
  have harises := before.errand (e := .deed d) held 0 (fun e vm' he => by
    rw [hrun] at he
    cases he)
  rw [hrun] at harises
  exact harises

/-- A scheduler with a unit and a coroutine over its first function. -/
def Vm.over (u : CodeUnit) (s : σ) : Vm σ :=
  { Vm.new .standard s with
    heap := { Heap.empty with
      units := ⟨#[u]⟩
      functions := ⟨#[⟨⟨0⟩, 0, none⟩]⟩
      coroutines := ⟨#[.new (.function ⟨0⟩) none .standard]⟩ } }

theorem Vm.arises_over (host : Host σ) {u : CodeUnit} (hu : 0 < u.prototypes.size) {s : σ}
    (hown : own .empty s) : (Vm.over u s).Arises host own := by
  have hnew : (Vm.new Config.standard s).Arises host own := .new .standard hown
  have hload := hnew.deed (d := .load u) trivial rfl
  let h : Heap :=
    { Heap.empty with units := ⟨#[u]⟩, functions := ⟨#[⟨⟨0⟩, 0, none⟩]⟩ }
  have hfunction : (Deed.newFunction ⟨0⟩ 0 none).apply host.sizes (Heap.empty.newUnit u).2
      = .ok (.values [.function ⟨0⟩], h) := by
    have hmade : (Heap.empty.newUnit u).2.newFunction ⟨0⟩ 0 none = .ok (⟨0⟩, h) := if_pos hu
    rw [Deed.apply, hmade]
    rfl
  have hcoroutine : (Deed.newCoroutine (.function ⟨0⟩) none .standard).apply host.sizes h
      = .ok (.values [.coroutine ⟨0⟩], (Vm.over u s).heap) := by
    cases host.sizes <;> rfl
  have hmade := hload.deed (d := .newFunction ⟨0⟩ 0 none) trivial hfunction
  refine hmade.deed (d := .newCoroutine (.function ⟨0⟩) none .standard)
    ⟨fun r hr => ?_, fun r hr => ?_⟩ hcoroutine
  · cases hr
    exact Nat.zero_lt_one
  · cases hr

/-- **A scheduler that is a twin of itself**, with every coroutine standing for itself. -/
def Vm.Whole (alike : (Ref .coroutine → Ref .coroutine → Prop) → σ → σ → Prop)
    (vm : Vm σ) : Prop :=
  ∃ T : Likeness, T.Strict ∧ vm.Abreast (.renamed alike (fun _ => False) T) vm

/-- An errand is a twin of itself. -/
theorem Errand.Twin.refl {T : Likeness} (exact : T.Exact) (e : Errand) : e.Twin T e := by
  cases e with
  | deed d =>
    cases d with
    | load u =>
      exact .deed (.load (.refl (fun x => (exact.1 x x).mpr rfl) u) fun _ _ _ _ => Iff.rfl)
    | _ => exact .deed (.same _ fun u hu => nomatch hu)
  | request q => exact .request q
  | resume r args => exact .resume r args

/-- **No reference is dangling** between two errands. -/
theorem Vm.Arises.whole (incurious : host.Incurious alike fun _ => False)
    (h : vm.Arises host (Host.Settled alike)) : vm.Whole alike := by
  induction h with
  | new config hown =>
    let T :=
      Likeness.unknown (show ∀ x y : Word, y = x → x.Alike y from fun x _ h => h ▸ .refl x)
    have exact : T.Exact := ⟨fun _ _ => Iff.rfl, fun _ _ _ _ => Iff.rfl⟩
    have hstate := hown T.pairs fun r hr => absurd hr (Nat.not_lt_zero _)
    exact ⟨T, ⟨fun _ _ h => h.elim, fun _ => id⟩,
      ⟨.empty fun _ => rfl, rfl, exact, hstate⟩, .nil⟩
  | settle _ hown ih =>
    obtain ⟨T, strict, abreast⟩ := ih
    refine ⟨T, strict, { abreast with state := ⟨abreast.state.1, hown _ fun r hr => ?_⟩ }⟩
    obtain ⟨r', hpair⟩ := abreast.heap.total r hr
    rwa [strict.1 r r' hpair] at hpair
  | @errand vm _ e held fuel _ ih =>
    obtain ⟨T, strict, abreast⟩ := ih
    have hanswers := Errand.answers (m := .renamed alike (fun _ => False) T) incurious (fun _ => id)
      fuel strict abreast held (.refl abreast.state.1 e)
    generalize e.run host fuel vm = x at hanswers
    cases hanswers with
    | ok le abreast' _ => exact ⟨_, le.strict strict, abreast'⟩
    | error le abreast' _ => exact ⟨_, le.strict strict, abreast'⟩

section

/-- What is done to the heap leaves a scheduler in a state that it can get into. -/
theorem Deed.reachable (h : vm.Reachable host) {d : Deed} {reply : Reply} {g : Heap}
    (hd : d.apply host.sizes vm.heap = .ok (reply, g)) :
    Vm.Reachable host { vm with heap := g } := by
  cases d with
  | newFunction u index parent =>
    rw [apply] at hd
    cases hmade : vm.heap.newFunction u index parent with
    | error e =>
      rw [hmade] at hd
      cases hd
    | ok made =>
      rw [hmade] at hd
      cases hd
      exact .arrange h (vm.heap.coroutines_newFunction hmade)
  | newCoroutine entry context config =>
    rw [apply] at hd
    rcases Coroutine.make_cases host.sizes entry context config with hmade | ⟨e, hmade, -⟩
    · rw [hmade] at hd
      cases hd
      exact .make h entry context config
    · rw [hmade] at hd
      cases hd
  | ready r =>
    cases hd
    exact .ready h r
  | load u =>
    cases hd
    exact .arrange h rfl
  | _ =>
    cases hd
    exact .arrange h (by simp)

variable (hsyscall : ∀ i, host.syscall i = none)
include hsyscall

/-- **An errand** leads to a state that a scheduler can get into, unless it reaches the limits of
sizes. -/
theorem Errand.reachable (h : vm.Reachable host) (e : Errand) (fuel : Nat)
    (intact : ∀ d vm', e.run host fuel vm ≠ .error (.defect d) vm') :
    (Vm.last (e.run host fuel vm)).Reachable host := by
  have hends : Vm.Ends host.sizes (·.Reachable host) (e.run host fuel vm) := by
    cases e with
    | deed d =>
      simp only [run, Vm.bind_apply, Vm.get_apply] at intact ⊢
      cases hd : d.apply host.sizes vm.heap with
      | error defect =>
        rw [hd] at intact
        exact absurd rfl (intact defect vm)
      | ok made => exact Deed.reachable h hd
    | request q => exact (h.request hsyscall fuel q).bind fun _ _ h' => h'
    | resume r args => exact (h.resume hsyscall fuel r args).bind fun _ _ h' => h'
  generalize e.run host fuel vm = x at intact hends
  cases x with
  | ok reply vm' => exact hends
  | error failure vm' =>
    cases failure with
    | defect d => exact absurd rfl (intact d vm')
    | _ => exact hends

/-- A scheduler that arises is in a state that it can get into. -/
theorem Vm.Arises.reachable (h : vm.Arises host own) : vm.Reachable host := by
  induction h with
  | new config _ => exact .new config _
  | settle _ _ ih => exact .arrange ih rfl
  | errand _ _ fuel intact ih => exact Errand.reachable hsyscall ih _ fuel intact

end

/-! ### Between two steps -/

namespace Vm.Live

/-- **The live states that arise** in a run that a host starts with some coroutine, above as many
active ones as `floor` says. -/
inductive Arises (host : Host σ)
    (alike : (Ref .coroutine → Ref .coroutine → Prop) → σ → σ → Prop) :
    Nat → Live σ → Prop
  | enter {vm : Vm σ} {r : Ref .coroutine} {args : List Value} {l : Live σ}
      (arises : vm.Arises host (Host.Settled alike)) (held : vm.heap.coroutines.Holds r)
      (given : ∀ v ∈ args, v.Held vm.heap)
      (entered : Vm.enter host args { vm with active := r :: vm.active } = .live l) :
      Arises host alike vm.active.length l
  | next {floor : Nat} {l l' : Live σ} (before : Arises host alike floor l)
      (step : l.next host floor = .live l') : Arises host alike floor l'

/-- **A live state that is a twin of itself.**  The heap knows of its top coroutine that it is
out. -/
structure Whole (alike : (Ref .coroutine → Ref .coroutine → Prop) → σ → σ → Prop)
    (floor : Nat) (l : Live σ) : Prop where
  known : ∃ T : Likeness, T.Strict ∧
    l.machine.Twin (.renamed alike (fun _ => False) T) l.machine ∧
    List.Forall₂ T.pairs (l.top :: l.below) (l.top :: l.below)
  out : Coroutine.checkedOut (l.machine.heap.coroutine l.top) = l.machine.heap.coroutine l.top
  config : l.machine.config = (l.machine.heap.coroutine l.top).config
  floor : floor ≤ l.below.length

variable {l l' : Live σ} {T : Likeness} {values : List Value}

/-- A live state that arises leads to others. -/
theorem Arises.after (h : l.Arises host alike floor) {n : Nat}
    (hn : (Sequel.live l).after host floor n = .live l') : l'.Arises host alike floor := by
  induction n generalizing l with
  | zero =>
    cases hn
    exact h
  | succ n ih =>
    cases hnext : l.next host floor with
    | live m => exact ih (h.next hnext) (by rw [← hnext]; exact hn)
    | ended result =>
      have hended : (Sequel.ended result).after host floor n = .live l' := by
        rw [← hnext]
        exact hn
      rw [Sequel.after_ended] at hended
      cases hended

/-- What comes of a resume after some steps. -/
theorem Arises.of_enter {vm : Vm σ} {r : Ref .coroutine} {args : List Value}
    (arises : vm.Arises host (Host.Settled alike)) (held : vm.heap.coroutines.Holds r)
    (given : ∀ v ∈ args, v.Held vm.heap) {n : Nat}
    (hn : (Vm.enter host args { vm with active := r :: vm.active }).after host vm.active.length n
      = .live l) : l.Arises host alike vm.active.length := by
  cases hentered : Vm.enter host args { vm with active := r :: vm.active } with
  | live first => exact .after (.enter arises held given hentered) (by rw [← hentered, hn])
  | ended result =>
    rw [hentered, Sequel.after_ended] at hn
    cases hn

/-- A coroutine has been resumed. -/
theorem Whole.of_enter (incurious : host.Incurious alike fun _ => False) (strict : T.Strict)
    (abreast : vm.Abreast (.renamed alike (fun _ => False) T) vm)
    (hvalues : Value.Twins T values values) (hfloor : floor < vm.active.length)
    (h : Vm.enter host values vm = .live l) : l.Whole alike floor := by
  obtain ⟨hactive, -, -⟩ := enter_eq_live h
  have hpairs := abreast.active
  rw [hactive] at hpairs hfloor
  obtain ⟨htop, -⟩ := List.forall₂_cons.mp hpairs
  have htwin :=
    Vm.Twin.enter (m := .renamed alike _ T) incurious abreast.toTwin hactive hactive htop id hvalues
  rw [h] at htwin
  obtain ⟨hrecord, hconfig⟩ := enter_top h (abreast.heap.held _ _ htop).1
  cases htwin with
  | live twin _ _ =>
    refine ⟨⟨T, strict, twin.machine, hpairs⟩, ?_, ?_, Nat.le_of_lt_succ hfloor⟩
    · rw [hrecord]
      rfl
    · rw [hrecord]
      exact hconfig

/-- **A step.** -/
theorem Whole.next (incurious : host.Incurious alike fun _ => False) (hl : l.Whole alike floor)
    (h : l.next host floor = .live l') : l'.Whole alike floor := by
  obtain ⟨⟨T, strict, twin, hactive⟩, hout, hconfig, hfloor⟩ := hl
  obtain ⟨htop, hbelow⟩ := List.forall₂_cons.mp hactive
  obtain ⟨U, hle, hstep⟩ := Machine.Twin.step (m := .renamed alike _ T) incurious twin
  have hgrows := Exec.step_grows host l.machine
  unfold Live.next at h
  generalize hx : Exec.step host l.machine = x at hstep h hgrows
  cases hstep with
  | error e _ => cases h
  | @ok _ _ N _ twin' result =>
    cases result with
    | none =>
      cases h
      have hrecord : N.heap.coroutine l.top = l.machine.heap.coroutine l.top :=
        hgrows.coroutine (twin.heap.held _ _ htop).1
      refine ⟨⟨U, hle.strict strict, twin', hactive.imp fun _ _ => hle.pairs⟩, ?_,
        ?_, hfloor⟩
      · show Coroutine.checkedOut (N.heap.coroutine l.top) = N.heap.coroutine l.top
        rw [hrecord, hout]
      · show N.config = (N.heap.coroutine l.top).config
        rw [hrecord, ← hconfig]
        exact Exec.step_config hx
    | @some exit _ hexit =>
      have htop' := hle.pairs htop
      have hbelow' := hbelow.imp fun _ _ => hle.pairs
      -- The next coroutine below goes on, if there is one for this run.
      have hbelow_next {exit : Exit} {results : List Value} (hexit : exit.Twin U exit)
          (hvalues : Value.Twins U results results) (hmore : ¬ l.below.length ≤ floor)
          (h : Vm.enter host results (readied (returned l.top l.config l.below exit N))
            = .live l') :
          l'.Whole alike floor := by
        refine .of_enter incurious (hle.strict strict)
          (twin'.returned htop' hexit l.config hbelow').readied hvalues ?_ h
        rw [readied_active]
        exact Nat.lt_of_not_le hmore
      cases hexit with
      | switched paired hvalues =>
        exact .of_enter incurious (hle.strict strict)
          (twin'.returned htop' (.switched paired hvalues) l.config
            (.cons paired (.cons htop' hbelow')))
          hvalues (Nat.lt_succ_of_le (Nat.le_succ_of_le hfloor)) h
      | finished hvalues =>
        simp only [pursue, dispose] at h
        split at h
        · cases h
        · next hmore => exact hbelow_next (.finished hvalues) hvalues hmore h
      | yielded hvalues =>
        simp only [pursue, dispose] at h
        split at h
        · cases h
        · next hmore => exact hbelow_next (.yielded hvalues) hvalues hmore h

end Vm.Live

/-! ### Sound stacks -/

/-- A failure that is no defect, but for the limits of sizes. -/
def Failure.Proper (sizes : Sizes) : Failure → Prop
  | runtime _ _ => True
  | usage _ => True
  | defect d => sizes.Refuses d
  | exhausted => False

namespace Vm

/-- The stacks of all coroutines are sound, of the one that is out and of the others. -/
structure Live.Sound (l : Live σ) : Prop where
  machine : l.machine.Sound
  heap : l.machine.heap.Sound

/-- What follows is sound. -/
def Sequel.Sound (sizes : Sizes) : Sequel σ → Prop
  | live l => l.Sound
  | ended (.ok _ _) => True
  | ended (.error e _) => e.Proper sizes

theorem sound_of_on {M : Machine σ} {c : Layer} (on : M.On (.bare []) c) (hc : c.Sound) :
    M.Sound := by
  rwa [Machine.Sound, show M.memory.view = c from on.trans (Layer.bare_nil_pile c)]

section

variable (hsyscall : ∀ i, host.syscall i = none)
include hsyscall

/-- A coroutine begins on sound stacks. -/
theorem sound_opening {M : Machine σ} (hM : M.Sound) (state : Lifecycle) (entry : Value)
    (context : Option (Ref .context)) (args : List Value) :
    Fares (.bare []) host.sizes M.heap (fun _ => Layer.Sound)
      (Coroutine.opening host state entry context args M) := by
  have hon {N : Machine σ} {c : Layer} (on : N.On M.memory.view c) :
      N.On (.bare []) (M.memory.view.pile c) :=
    on.trans (Layer.bare_nil_pile _).symm
  unfold Coroutine.opening
  split
  · have hstart := Machine.start_fares hsyscall M entry context args
    generalize Coroutine.start host entry context args M = x at hstart
    cases hstart with
    | ok on grows invoked => exact .ok (hon on) grows (Layer.Sound.invoked hM invoked)
    | fault grows => exact .fault grows
    | limit limit => exact .limit limit
  · exact .ok (hon (Machine.view_pushAll M args)) (.refl _) (Layer.Sound.pushed hM args)

/-- A coroutine is resumed, up to its first step. -/
theorem sound_begin (h : vm.heap.Sound) (r : Ref .coroutine) (args : List Value) :
    Fares (.bare []) host.sizes (Coroutine.checkOut r vm.heap vm.state).heap (fun _ => Layer.Sound)
      (Coroutine.begin host vm r args) := by
  have hM : (Coroutine.checkOut r vm.heap vm.state).Sound := h.coroutine r
  exact sound_opening hsyscall hM _ _ _ args

/-- A coroutine is resumed. -/
theorem sound_enter (h : vm.heap.Sound) (values : List Value) :
    (enter host values vm).Sound host.sizes := by
  unfold enter
  split
  · trivial
  · next top below hactive =>
    split
    · have hbegin := sound_begin hsyscall h top values
      generalize Coroutine.begin host vm top values = x at hbegin
      cases hbegin with
      | ok on grows sound =>
        exact ⟨sound_of_on on sound, (h.checkOut top vm.state).grows grows⟩
      | fault grows => exact trivial
      | limit limit => exact limit
    · trivial

/-- **A step.** -/
theorem Live.Sound.next {l : Live σ} (hl : l.Sound) : (l.next host floor).Sound host.sizes := by
  have hstep := hl.machine.step hsyscall
  unfold Live.next
  generalize Exec.step host l.machine = x at hstep
  cases hstep with
  | fault grows => exact trivial
  | limit limit => exact limit
  | @ok result c M on grows sound =>
    have hM := sound_of_on on sound
    have hreturned (active : List (Ref .coroutine)) (exit : Exit) :
        (returned l.top l.config active exit M).heap.Sound :=
      (hl.heap.grows grows).checkIn l.top _ hM
    have hreadied (exit : Exit) :
        (readied (returned l.top l.config l.below exit M)).heap.Sound := by
      cases l.below with
      | nil => exact hreturned [] exit
      | cons q qs => exact (hreturned (q :: qs) exit).modify q fun _ hc => hc
    cases result with
    | none => exact ⟨hM, hl.heap.grows grows⟩
    | some exit =>
      cases exit with
      | switched q args => exact sound_enter hsyscall (hreturned (q :: l.top :: l.below) _) args
      | finished results =>
        simp only [pursue, dispose]
        split
        · trivial
        · exact sound_enter hsyscall (hreadied _) results
      | yielded results =>
        simp only [pursue, dispose]
        split
        · trivial
        · exact sound_enter hsyscall (hreadied _) results

end

namespace Live

/-- **No reference is dangling** between two steps. -/
theorem Arises.whole {l : Live σ} (incurious : host.Incurious alike fun _ => False)
    (h : l.Arises host alike floor) : l.Whole alike floor := by
  induction h with
  | @enter vm r args l arises held given entered =>
    obtain ⟨T, strict, abreast⟩ := arises.whole incurious
    obtain ⟨r', hr⟩ := abreast.heap.total r held
    rw [strict.1 r r' hr] at hr
    have hactive : Vm.Abreast (.renamed alike (fun _ => False) T)
        { vm with active := r :: vm.active } { vm with active := r :: vm.active } :=
      { abreast with active := .cons hr abreast.active }
    exact .of_enter incurious strict hactive (abreast.heap.values strict given) (Nat.lt_succ_self _)
      entered
  | next _ step ih => exact ih.next incurious step

/-- All stacks are sound between two steps. -/
theorem Arises.sound {l : Live σ} (hsyscall : ∀ i, host.syscall i = none)
    (h : l.Arises host alike floor) : l.Sound := by
  induction h with
  | @enter vm r args l arises held given entered =>
    have hheap : vm.heap.Sound := (arises.reachable hsyscall).sound hsyscall
    have hsound :
        Sequel.Sound host.sizes (Vm.enter host args { vm with active := r :: vm.active }) := by
      refine sound_enter hsyscall ?_ args
      exact hheap
    rw [entered] at hsound
    exact hsound
  | @next floor l l' before step ih =>
    have hsound : (l.next host floor).Sound host.sizes := ih.next hsyscall
    rw [step] at hsound
    exact hsound

end Live

end Vm

end ScriptVm
