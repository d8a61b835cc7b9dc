import ScriptVm.Proofs.Lifecycle

/-!
# The rounds of a run

A run is a row of rounds.  In each of them the top coroutine is resumed, and comes
to one of three things: another coroutine is put on top of it, it is taken away
and the one below goes on, or the run ends.

What the scheduler has before a round is its head.  A run is followed from head to
head, up to the one at which it ends.

Main statements: `Vm.loop_succ` (a run is a row of rounds), `Vm.turns` (what a
round can come to), `Vm.Head.exists_last` (where a run ends), and
`Request.begins` (how a request comes to its run).
-/

namespace ScriptVm

variable {σ α β : Type}

/-! ### One round -/

/-- What a round of the scheduler leads to: another one, or the end of the run. -/
inductive Round
  | again (values : List Value)
  | done (results : List Value)

namespace Vm

/-- **One round**: the top coroutine is resumed, and the next one is chosen. -/
def round (host : Host σ) (floor fuel : Nat) (values : List Value) : Schedule σ Round := do
  match (← get).active with
  | [] => return .done values
  | top :: below =>
    match ← Coroutine.resume host fuel top values with
    | .switched next args =>
      activate next
      return .again args
    | .finished results =>
      retire
      if below.length ≤ floor then
        return .done results
      else
        readyTop
        return .again results
    | .yielded results =>
      retire
      if below.length ≤ floor then
        throw (.usage .yieldFromRoot)
      else
        readyTop
        return .again results

theorem bind_apply (x : Schedule σ α) (f : α → Schedule σ β) (vm : Vm σ) :
    (x >>= f) vm = match x vm with
      | .ok a vm' => f a vm'
      | .error e vm' => .error e vm' := by
  cases h : x vm <;> simp [bind, EStateM.bind, h]

theorem get_apply (vm : Vm σ) : (get : Schedule σ (Vm σ)) vm = .ok vm vm := rfl

/-- The scheduler makes one round after the other. -/
theorem loop_succ (host : Host σ) (floor fuel : Nat) (values : List Value) :
    loop host floor (fuel + 1) values = (do
      match ← round host floor fuel values with
      | .again values => loop host floor fuel values
      | .done results => return results) := by
  rw [loop, round, bind_assoc]
  refine bind_congr fun now => ?_
  cases now.active with
  | nil => rfl
  | cons top below =>
    rw [bind_assoc]
    refine bind_congr fun exit => ?_
    cases exit with
    | switched next args => rfl
    | finished results => by_cases hlast : below.length ≤ floor <;> simp [hlast]
    | yielded results =>
      by_cases hlast : below.length ≤ floor
      · simp only [if_pos hlast, bind_assoc]
        rfl
      · simp [hlast]

/-- **What a round can come to**, with one coroutine on top of others. -/
inductive Turns (host : Host σ) (fuel : Nat) (values : List Value) (vm : Vm σ)
    (top : Ref .coroutine) : List (Ref .coroutine) → EStateM.Result Failure (Vm σ) Round → Prop
  | fails {below : List (Ref .coroutine)} {e : Failure} {vm' : Vm σ}
      (resume : Coroutine.resume host fuel top values vm = .error e vm') :
      Turns host fuel values vm top below (.error e vm')
  /-- Another coroutine comes on top. -/
  | switches {below : List (Ref .coroutine)} {next : Ref .coroutine}
      {args : List Value} {vm' : Vm σ}
      (resume : Coroutine.resume host fuel top values vm = .ok (.switched next args) vm') :
      Turns host fuel values vm top below
        (.ok (.again args) { vm' with active := next :: top :: below })
  /-- The one below gets the values. -/
  | returns {parent : Ref .coroutine} {below : List (Ref .coroutine)} {exit : Exit}
      {results : List Value} {vm' : Vm σ}
      (resume : Coroutine.resume host fuel top values vm = .ok exit vm')
      (gone : exit = .finished results ∨ exit = .yielded results) :
      Turns host fuel values vm top (parent :: below) (.ok (.again results) { vm' with
        heap := Coroutine.setResumable parent vm'.heap
        active := parent :: below })
  | ends {results : List Value} {vm' : Vm σ}
      (resume : Coroutine.resume host fuel top values vm = .ok (.finished results) vm') :
      Turns host fuel values vm top [] (.ok (.done results) { vm' with active := [] })
  | strays {results : List Value} {vm' : Vm σ}
      (resume : Coroutine.resume host fuel top values vm = .ok (.yielded results) vm') :
      Turns host fuel values vm top []
        (.error (.usage .yieldFromRoot) { vm' with active := [] })

/-- A resume leaves the stack of coroutines alone. -/
theorem active_resume (host : Host σ) (fuel : Nat) (r : Ref .coroutine) (args : List Value)
    (vm : Vm σ) : (last (Coroutine.resume host fuel r args vm)).active = vm.active := by
  unfold Coroutine.resume
  dsimp only
  split
  · split <;> rfl
  · rfl

section

variable {host : Host σ} {fuel : Nat} {values : List Value} {vm vm' : Vm σ} {top : Ref .coroutine}
  {below : List (Ref .coroutine)}

theorem round_of_error {e : Failure} (hactive : vm.active = top :: below)
    (hresume : Coroutine.resume host fuel top values vm = .error e vm') :
    round host 0 fuel values vm = .error e vm' := by
  simp only [round, bind_apply, get_apply, hactive, hresume]

theorem round_of_switched {next : Ref .coroutine} {args : List Value}
    (hactive : vm.active = top :: below)
    (hresume : Coroutine.resume host fuel top values vm = .ok (.switched next args) vm') :
    round host 0 fuel values vm = .ok (.again args) { vm' with
      active := next :: top :: below } := by
  have hkeeps := active_resume host fuel top values vm
  rw [hresume, hactive] at hkeeps
  have hkeeps' : vm'.active = top :: below := hkeeps
  simp only [round, bind_apply, get_apply, hactive, hresume]
  rw [← hkeeps']
  rfl

theorem round_of_returned {parent : Ref .coroutine} {exit : Exit} {results : List Value}
    (hactive : vm.active = top :: parent :: below)
    (hresume : Coroutine.resume host fuel top values vm = .ok exit vm')
    (gone : exit = .finished results ∨ exit = .yielded results) :
    round host 0 fuel values vm = .ok (.again results) { vm' with
      heap := Coroutine.setResumable parent vm'.heap
      active := parent :: below } := by
  have hkeeps := active_resume host fuel top values vm
  rw [hresume, hactive] at hkeeps
  obtain ⟨heap, state, config, active⟩ := vm'
  cases hkeeps
  rcases gone with rfl | rfl <;>
    · simp only [round, bind_apply, get_apply, hactive, hresume]
      rfl

theorem turns (hactive : vm.active = top :: below) :
    Turns host fuel values vm top below (round host 0 fuel values vm) := by
  have hkeeps := active_resume host fuel top values vm
  rw [hactive] at hkeeps
  cases hresume : Coroutine.resume host fuel top values vm with
  | error e vm' =>
    rw [round_of_error hactive hresume]
    exact .fails hresume
  | ok exit vm' =>
    obtain ⟨heap, state, config, active⟩ := vm'
    rw [hresume] at hkeeps
    cases hkeeps
    cases exit with
    | switched next args =>
      rw [round_of_switched hactive hresume]
      exact .switches hresume
    | finished results =>
      cases below with
      | nil =>
        simp only [round, bind_apply, get_apply, hactive, hresume]
        exact .ends hresume
      | cons parent below =>
        rw [round_of_returned hactive hresume (.inl rfl)]
        exact .returns hresume (.inl rfl)
    | yielded results =>
      cases below with
      | nil =>
        simp only [round, bind_apply, get_apply, hactive, hresume]
        exact .strays hresume
      | cons parent below =>
        rw [round_of_returned hactive hresume (.inr rfl)]
        exact .returns hresume (.inr rfl)

end

/-! ### The heads of a run -/

/-- The head of a round: what the scheduler has before it resumes its top coroutine. -/
structure Head (σ : Type) where
  fuel : Nat
  /-- The values the top coroutine gets. -/
  values : List Value
  vm : Vm σ

/-- The first head, when a coroutine is put on top. -/
def start (vm : Vm σ) (fuel : Nat) (root : Ref .coroutine) (args : List Value) : Head σ :=
  ⟨fuel, args, { vm with active := root :: vm.active }⟩

namespace Head

/-- One round leads from a head to the next one. -/
def Next (host : Host σ) (a b : Head σ) : Prop :=
  a.fuel = b.fuel + 1 ∧ round host 0 b.fuel a.values a.vm = .ok (.again b.values) b.vm

/-- Any number of rounds. -/
abbrev Leads (host : Host σ) : Head σ → Head σ → Prop :=
  Relation.ReflTransGen (Next host)

/-- What becomes of a run from its head on. -/
def run (host : Host σ) (head : Head σ) : EStateM.Result Failure (Vm σ) (List Value) :=
  loop host 0 head.fuel head.values head.vm

/-- A run that ends in the round at its head. -/
inductive Last (host : Host σ) (head : Head σ) :
    EStateM.Result Failure (Vm σ) (List Value) → Prop
  | done {fuel : Nat} {results : List Value} {vm' : Vm σ} (left : head.fuel = fuel + 1)
      (round : round host 0 fuel head.values head.vm = .ok (.done results) vm') :
      Last host head (.ok results vm')
  | failed {fuel : Nat} {e : Failure} {vm' : Vm σ} (left : head.fuel = fuel + 1)
      (round : round host 0 fuel head.values head.vm = .error e vm') :
      Last host head (.error e vm')
  | exhausted (left : head.fuel = 0) : Last host head (.error .exhausted head.vm)

variable {host : Host σ} {a b : Head σ}

theorem Next.run_eq (h : a.Next host b) : a.run host = b.run host := by
  obtain ⟨hfuel, hround⟩ := h
  rw [run, hfuel, loop_succ, bind_apply, hround]
  rfl

theorem Leads.run_eq (h : a.Leads host b) : a.run host = b.run host := by
  induction h with
  | refl => rfl
  | tail _ next ih => exact ih.trans next.run_eq

/-- Every run ends at some head. -/
theorem exists_last (host : Host σ) (head : Head σ) :
    ∃ last, head.Leads host last ∧ last.Last host (head.run host) := by
  obtain ⟨fuel, values, vm⟩ := head
  induction fuel generalizing values vm with
  | zero => exact ⟨_, .refl, .exhausted rfl⟩
  | succ fuel ih =>
    rw [run, loop_succ, bind_apply]
    cases hround : round host 0 fuel values vm with
    | error e vm' => exact ⟨_, .refl, .failed rfl hround⟩
    | ok r vm' =>
      cases r with
      | done results => exact ⟨_, .refl, .done rfl hround⟩
      | again values' =>
        obtain ⟨last, hleads, hlast⟩ := ih values' vm'
        have hnext : Next host ⟨fuel + 1, values, vm⟩ ⟨fuel, values', vm'⟩ :=
          ⟨rfl, hround⟩
        exact ⟨last, .head hnext hleads, hlast⟩

end Head

/-- After a failure that is an answer, no coroutine is active. -/
def settled : EStateM.Result Failure (Vm σ) α → EStateM.Result Failure (Vm σ) α
  | .error (.runtime f trace) vm => .error (.runtime f trace) { vm with active := [] }
  | .error (.usage e) vm => .error (.usage e) { vm with active := [] }
  | result => result

theorem eq_ok_of_settled {result : EStateM.Result Failure (Vm σ) α} {a : α} {vm : Vm σ}
    (h : settled result = .ok a vm) : result = .ok a vm := by
  cases result with
  | ok b vm' => exact h
  | error e vm' => cases e <;> cases h

theorem eq_error_of_settled {result : EStateM.Result Failure (Vm σ) α} {e : Failure} {vm : Vm σ}
    (h : settled result = .error e vm) (he : e.Answers) :
    ∃ vm', result = .error e vm' ∧ vm = { vm' with active := [] } := by
  cases result with
  | ok b vm' => cases h
  | error e' vm' =>
    cases e' <;> cases h <;> first | exact ⟨_, rfl, rfl⟩ | exact absurd he id

theorem execute_eq (host : Host σ) (fuel : Nat) (root : Ref .coroutine) (args : List Value)
    {vm : Vm σ} (hempty : vm.active = []) :
    execute host fuel root args vm = settled ((vm.start fuel root args).run host) := by
  unfold execute Head.run start
  rw [hempty]
  dsimp only [List.length_nil]
  cases loop host 0 fuel args { vm with active := [root] } with
  | ok values vm' => rfl
  | error e vm' => cases e <;> rfl

/-- A new coroutine is made and runs, unless there is no room for its stacks. -/
theorem executeNew_cases (host : Host σ) (fuel : Nat) (entry : Value)
    (context : Option (Ref .context)) (args : List Value) (vm : Vm σ) :
    executeNew host fuel entry context args vm
        = execute host fuel (vm.heap.newCoroutine (.new entry context vm.config)).1 args
          { vm with heap := (vm.heap.newCoroutine (.new entry context vm.config)).2 } ∨
      ∃ d, executeNew host fuel entry context args vm = .error (.defect d) vm := by
  rcases Coroutine.make_cases host.sizes entry context vm.config with hmake | ⟨d, hmake, -⟩
  · left
    simp only [executeNew, bind_apply, get_apply, hmake]
    rfl
  · right
    refine ⟨d, ?_⟩
    simp only [executeNew, bind_apply, get_apply, hmake]
    rfl

end Vm

/-! ### Requests -/

namespace Request

/-- The heap on which a request begins: the entry of a unit has become a closure, if it can, bound
to the given context or to a new root. -/
def opened : Request → Heap → Heap
  | unit u _ context, h =>
    let place : Ref .context × Heap := match context with
      | some c => (c, h)
      | none => h.newContext none
    match place.2.entryFunction u (some place.1) with
    | .ok (_, h) => h
    | .error _ => place.2
  | _, h => h

/-- The context that the coroutine of a request has of its own. -/
def context? : Request → Option (Ref .context)
  | functionIn _ context _ => some context
  | _ => none

/-- The context that a host gives with a request. -/
def place? : Request → Option (Ref .context)
  | unit _ _ context => context
  | functionIn _ context _ => some context
  | _ => none

/-- **What comes before the coroutine of a request**: nothing, or there is a context, given or new,
and perhaps a closure that is bound to it. -/
theorem opened_cases (request : Request) (h : Heap) :
    request.opened h = h ∨
    ∃ c h₁, (request.place? = some c ∧ h₁ = h ∨ (c, h₁) = h.newContext none) ∧
      (request.opened h = h₁ ∨ ∃ closure : Closure, closure.parent = some c ∧
        request.opened h = { h₁ with functions := (h₁.functions.add closure).2 }) := by
  cases request with
  | unit u args context =>
    have hentry (c : Ref .context) (h : Heap) : (unit u args (some c)).opened h = h ∨
        ∃ closure : Closure, closure.parent = some c ∧ (unit u args (some c)).opened h
          = { h with functions := (h.functions.add closure).2 } := by
      unfold opened
      cases hfound : h.entryFunction u (some c) with
      | error e => exact .inl (by simp only [hfound])
      | ok found =>
        refine .inr ⟨⟨u, (h.unit u).entry, some c⟩, rfl, ?_⟩
        simp only [hfound]
        exact h.entryFunction_eq hfound
    right
    cases context with
    | some c => exact ⟨c, h, .inl ⟨rfl, rfl⟩, hentry c h⟩
    | none => exact ⟨_, _, .inr rfl, hentry (h.newContext none).1 (h.newContext none).2⟩
  | _ => exact .inl rfl

theorem coroutines_opened (request : Request) (h : Heap) :
    (request.opened h).coroutines = h.coroutines := by
  rcases request.opened_cases h with
    heq | ⟨c, h₁, ⟨-, rfl⟩ | hnew, heq | ⟨closure, -, heq⟩⟩ <;> rw [heq]
  all_goals
    cases hnew
    rfl

/-- **How a request begins**: it is refused before anything runs, or a new coroutine is made and
runs. -/
inductive Begins (host : Host σ) (fuel : Nat) (vm : Vm σ) (context : Option (Ref .context)) :
    EStateM.Result Failure (Vm σ) (List Value) → Prop
  | refused (e : Failure) : Begins host fuel vm context (.error e vm)
  | runs (entry : Value) (args : List Value) :
      Begins host fuel vm context (Vm.execute host fuel
        (vm.heap.newCoroutine (.new entry context vm.config)).1 args
        { vm with heap := (vm.heap.newCoroutine (.new entry context vm.config)).2 })

theorem begins_executeNew (host : Host σ) (fuel : Nat) (vm : Vm σ) (entry : Value)
    (context : Option (Ref .context)) (args : List Value) :
    Begins host fuel vm context (Vm.executeNew host fuel entry context args vm) := by
  rcases Vm.executeNew_cases host fuel entry context args vm with hnew | ⟨d, hnew⟩
  · rw [hnew]
    exact .runs entry args
  · rw [hnew]
    exact .refused _

/-- **Every request** begins so. -/
theorem begins (host : Host σ) (fuel : Nat) (vm : Vm σ) (request : Request) :
    Begins host fuel { vm with heap := request.opened vm.heap } request.context?
      (request.run host fuel vm) := by
  cases request with
  | function r args => exact begins_executeNew host fuel vm (.function r) none args
  | functionIn r context args =>
    exact begins_executeNew host fuel vm (.function r) (some context) args
  | call callee args =>
    show Begins host fuel vm none (Vm.call host fuel callee args vm)
    unfold Vm.call
    split
    · exact begins_executeNew host fuel vm callee none args
    · exact .refused _
  | unit u args context =>
    have hentry (c : Ref .context) (vm : Vm σ) :
        Begins host fuel { vm with heap := (unit u args (some c)).opened vm.heap } none
          (Vm.executeUnit host fuel u args (some c) vm) := by
      simp only [Vm.executeUnit, pure_bind, Vm.bind_apply, Vm.get_apply]
      unfold opened
      cases hfound : vm.heap.entryFunction u (some c) with
      | error e =>
        simp only [hfound]
        exact .refused _
      | ok found =>
        obtain ⟨r, h⟩ := found
        simp only [hfound]
        exact begins_executeNew host fuel { vm with heap := h } (.function r) none args
    cases context with
    | some c => exact hentry c vm
    | none =>
      exact hentry (vm.heap.newContext none).1 { vm with heap := (vm.heap.newContext none).2 }

end Request

end ScriptVm
