import ScriptVm.Proofs.Safety

/-!
# What lies below an activation

What a function computes does not depend on what lies under its frame: not on the
values of its callers, nor on their frames, nor on how many there are.  Take two
machines with the same topmost activation, standing on anything, and watch both
until that activation returns.  Whatever there is to see is the same: the
instructions, the heap and the host's state after each of them, what is handed
out, and the results or the fault at the end.

Both machines are at some time **away**, when control has left the coroutine.
Then anything may happen to the heap and to the state of the host, as long as it
is the same on both sides.

Main statements: `Abreast.fetched` (both sides run the same instruction),
`Abreast.watch` (both runs look the same), `activation_locality`.
-/

namespace ScriptVm

variable {σ : Type}

/-- What a step comes to. -/
inductive Passage
  /-- The running activation goes on, or has called another one. -/
  | goes
  /-- It has returned these results. -/
  | returns (results : List Value)
  | exits (e : Exit)
  | stops (s : Stop)
  deriving DecidableEq, Repr

/-- What there is to see of a step: the instruction, what the step comes to, and the heap and the
host's state after it. -/
structure Sight (σ : Type) where
  /-- The opcode, its immediate and the phase; none for a step of an asynchronous call. -/
  instruction : Option (Op × Int64 × Nat)
  passage : Passage
  heap : Heap
  state : σ

/-- What a coroutine finds when it is resumed: the heap and the host's state as others have left
them, and the values it is resumed with. -/
structure Turn (σ : Type) where
  heap : Heap
  state : σ
  values : List Value

namespace Machine

/-- The instruction that the next step runs, or the one that it is in the middle of, with the
phase. -/
def fetched (M : Machine σ) : Option (Op × Int64 × Nat) :=
  match M.memory.frames.last?.map Frame.activity with
  | some (.bytecode r _) =>
    match Exec.fetch r M with
    | .ok next _ => some next
    | .error _ _ => none
  | _ => none

/-- What there is to see of the next step. -/
def sight (host : Host σ) (M : Machine σ) : Sight σ :=
  match Exec.step host M with
  | .ok none N =>
    match M.returning host with
    | none => ⟨M.fetched, .goes, N.heap, N.state⟩
    | some results => ⟨M.fetched, .returns results, N.heap, N.state⟩
  | .ok (some e) N => ⟨M.fetched, .exits e, N.heap, N.state⟩
  | .error s N => ⟨M.fetched, .stops s, N.heap, N.state⟩

/-- The machine of a coroutine that was away, resumed. -/
def resume (N : Machine σ) (turn : Turn σ) : Machine σ :=
  { N with heap := turn.heap, state := turn.state }.onValues fun values =>
    values.pushAll turn.values

/-- The machine after the next step, with the turns that are left.  When control has left the
coroutine, it needs a turn to go on. -/
def next (host : Host σ) (M : Machine σ) (turns : List (Turn σ)) :
    Option (Machine σ × List (Turn σ)) :=
  match Exec.step host M, turns with
  | .ok none N, turns => some (N, turns)
  | .ok (some _) N, turn :: turns => some (N.resume turn, turns)
  | _, _ => none

/-- **Watch a machine** as long as it is deeper than some depth, for some number of steps. -/
def watch (host : Host σ) (depth : Nat) : Nat → List (Turn σ) → Machine σ → List (Sight σ)
  | 0, _, _ => []
  | fuel + 1, turns, M =>
    if M.depth ≤ depth then
      []
    else
      M.sight host :: match M.next host turns with
        | some (N, turns) => N.watch host depth fuel turns
        | none => []

theorem watch_of_lt (host : Host σ) {M : Machine σ} {depth : Nat} (h : depth < M.depth)
    (fuel : Nat) (turns : List (Turn σ)) :
    M.watch host depth (fuel + 1) turns = M.sight host :: match M.next host turns with
      | some (N, turns) => N.watch host depth fuel turns
      | none => [] :=
  if_neg (Nat.not_le.mpr h)

/-- There is nothing to see when the machine is back at the depth. -/
theorem watch_of_le (host : Host σ) {M : Machine σ} {depth : Nat} (h : M.depth ≤ depth)
    (fuel : Nat) (turns : List (Turn σ)) : M.watch host depth fuel turns = [] := by
  cases fuel with
  | zero => rfl
  | succ fuel => exact if_pos h

end Machine

/-- Two runs that look the same, unless one of them reaches the limits of sizes. -/
inductive Sight.Match (sizes : Sizes) : List (Sight σ) → List (Sight σ) → Prop
  | nil : Match sizes [] []
  | cons (sight : Sight σ) {left right : List (Sight σ)} (rest : Match sizes left right) :
      Match sizes (sight :: left) (sight :: right)
  | limitLeft {sight : Sight σ} {d : Defect} {left right : List (Sight σ)}
      (stops : sight.passage = .stops (.defect d)) (limit : sizes.Refuses d) :
      Match sizes (sight :: left) right
  | limitRight {sight : Sight σ} {d : Defect} {left right : List (Sight σ)}
      (stops : sight.passage = .stops (.defect d)) (limit : sizes.Refuses d) :
      Match sizes left (sight :: right)

/-- Without limits, runs that match are the same. -/
theorem Sight.Match.eq {left right : List (Sight σ)} (h : Match .unbounded left right) :
    left = right := by
  induction h with
  | nil => rfl
  | cons sight _ ih => rw [ih]
  | limitLeft _ limit => exact absurd limit (Sizes.not_refuses_unbounded _)
  | limitRight _ limit => exact absurd limit (Sizes.not_refuses_unbounded _)

namespace Abreast

variable {host : Host σ} {t : Footing} {f : Frame} {M N : Machine σ}

/-- The topmost activation, with all that is below it counted to the footing. -/
theorem topmost (h : Abreast t f M N) :
    ∃ q a g, Alike (t.on q) a M N ∧ Layer.Activation g a := by
  obtain ⟨fs, c, alike, tower⟩ := h
  generalize hfs : fs ++ [f] = gs at tower
  cases tower with
  | ground => simp at hfs
  | @call _ g q a lower upper => exact ⟨q, a, g, alike_on.mpr alike, upper⟩

/-- Both sides run the same instruction. -/
theorem fetched (h : Abreast t f M N) : M.fetched = N.fetched := by
  obtain ⟨q, a, g, alike, activation⟩ := h.topmost
  cases activation with
  | @bytecode r context code laid runs =>
    obtain ⟨ip, nextIp, progress, hg⟩ := runs.frames
    have hM := alike.left.last_frame hg
    have hN := alike.right.last_frame hg
    -- Nothing that is fetched depends on the limits of sizes, so they may as well be absent.
    have hfetch := Lockstep.fetch (t := { t.on q with sizes := .unbounded }) (r := r) a M N
      { alike with } runs
    simp only [Machine.fetched, hM, hN, Option.map_some, Layer.liftFrame, code]
    generalize Exec.fetch r M = result at hfetch
    generalize Exec.fetch r N = result' at hfetch
    cases hfetch with
    | ok _ _ same => rw [same.1]
    | fault _ _ => rfl
    | limitLeft limit => exact absurd limit (Sizes.not_refuses_unbounded _)
    | limitRight limit => exact absurd limit (Sizes.not_refuses_unbounded _)
  | async steps laid waits =>
    obtain ⟨call, hg⟩ := waits.frames
    simp [Machine.fetched, alike.left.last_frame hg, alike.right.last_frame hg, Layer.liftFrame]

theorem heap (h : Abreast t f M N) : M.heap = N.heap := by
  obtain ⟨fs, c, alike, -⟩ := h
  exact alike.heap

theorem state (h : Abreast t f M N) : M.state = N.state := by
  obtain ⟨fs, c, alike, -⟩ := h
  exact alike.state

/-- **Two runs in lockstep**: until the activation returns, they look the same. -/
theorem watch (suits : host.Suits t) (h : Abreast t f M N) (fuel : Nat) (turns : List (Turn σ)) :
    Sight.Match t.sizes (M.watch host t.left.frames.length fuel turns)
      (N.watch host t.right.frames.length fuel turns) := by
  -- Each step keeps the two sides abreast, or ends both runs at once.
  induction fuel generalizing M N turns with
  | zero => exact .nil
  | succ fuel ih =>
    obtain ⟨hM, hN⟩ := h.deep
    have hfetched := h.fetched
    have hnext := h.step suits
    rw [Machine.watch_of_lt host hM, Machine.watch_of_lt host hN]
    simp only [Machine.sight, Machine.next, hfetched]
    generalize Exec.step host M = result at hnext
    generalize Exec.step host N = result' at hnext
    cases hnext with
    | goes same abreast =>
      simp only [same, abreast.heap, abreast.state]
      exact .cons _ (ih abreast turns)
    | exits abreast =>
      simp only [abreast.heap, abreast.state]
      cases turns with
      | nil => exact .cons _ .nil
      | cons turn turns => exact .cons _ (ih (abreast.resumed _ _ _) turns)
    | @returns results M' N' result result' alike =>
      have hleft : M'.depth ≤ t.left.frames.length := Nat.le_of_eq alike.left.depth
      have hright : N'.depth ≤ t.right.frames.length := Nat.le_of_eq alike.right.depth
      simp only [result, result', alike.heap, alike.state]
      rw [Machine.watch_of_le host hleft, Machine.watch_of_le host hright]
      exact .cons _ .nil
    | fault heap state =>
      simp only [heap, state]
      exact .cons _ .nil
    | limitLeft limit => exact .limitLeft rfl limit
    | limitRight limit => exact .limitRight rfl limit

end Abreast

/-- The footing of two runs. -/
def Footing.pair (p q : Layer) (sizes : Sizes) : Footing where
  left := p
  right := q
  one := False
  sizes := sizes
  same := False.elim

/-- Sound stacks with a frame are an activation, standing on what lies below. -/
theorem Machine.Sound.standing {M : Machine σ} (h : M.Sound) (hdepth : M.depth ≠ 0) :
    ∃ p a f, M.On p a ∧ Layer.Activation f a := by
  obtain ⟨ground, fs, tower⟩ := h
  generalize hview : M.memory.view = c at tower
  cases tower with
  | ground =>
    have hframes : M.memory.frames.toList = [] := congrArg Layer.frames hview
    rw [Machine.depth, Stack.size_eq_length, hframes] at hdepth
    exact absurd rfl hdepth
  | @call _ f p a lower upper => exact ⟨p, a, f, hview, upper⟩

/-- **What an activation does is independent of what lies below it.**  Take any two machines of one
heap, configuration and host's state with the same topmost activation `a`, the one standing on `p`,
the other on `q`.  For any number of steps and any turns, the two look the same until that
activation returns, unless one of them reaches the limits of sizes.  In every machine that occurs
and has a frame, the topmost activation is one of this kind. -/
theorem activation_locality {host : Host σ} (hsyscall : ∀ i, host.syscall i = none)
    (hblind : host.Blind) :
    (∀ M : Machine σ, M.Occurs host → M.depth ≠ 0 →
      ∃ p a f, M.On p a ∧ Layer.Activation f a) ∧
    ∀ (M N : Machine σ) (p q a : Layer) (f : Frame), Layer.Activation f a → M.On p a →
      N.On q a →
      M.heap = N.heap → M.config = N.config → M.state = N.state →
      ∀ (fuel : Nat) (turns : List (Turn σ)),
        Sight.Match host.sizes (M.watch host p.frames.length fuel turns)
          (N.watch host q.frames.length fuel turns) ∧
        (host.sizes = .unbounded →
          M.watch host p.frames.length fuel turns = N.watch host q.frames.length fuel turns) := by
  refine ⟨fun M hM hdepth => (hM.sound hsyscall).standing hdepth, ?_⟩
  intro M N p q a f activation hM hN hheap hconfig hstate fuel turns
  have suits : host.Suits (.pair p q host.sizes) := ⟨rfl, hsyscall, .inr hblind⟩
  have alike : Alike (.pair p q host.sizes) a M N :=
    ⟨hM, hN, hheap, hconfig, hstate, False.elim⟩
  have hmatch := (Abreast.of_activation alike activation).watch suits fuel turns
  refine ⟨hmatch, fun hsizes => ?_⟩
  rw [show (Footing.pair p q host.sizes).sizes = host.sizes from rfl, hsizes] at hmatch
  exact hmatch.eq

/-- An activation of a closure, called with one argument. -/
def Layer.oneArgument : Layer where
  values := [.int 5]
  frames := [⟨.bytecode ⟨0⟩ ⟨0⟩, 0, 1, 1, 1, 0, 0, 0, 0, none, .none⟩]
  delimiters := []
  marks := []

/-- Two values, the frame of an asynchronous call and a mark. -/
def Layer.waiting : Layer where
  values := [.nil, .int 9]
  frames := [⟨.async ⟨⟨0⟩, 0, [[.nil]]⟩, 0, 1, 1, 1, 0, 0, 0, 0, some 1, .none⟩]
  delimiters := [1]
  marks := [⟨7, 2, 1, 1⟩]

/-- A machine with the given stacks and one closure, which returns the number of its arguments. -/
def Machine.countsArguments (c : Layer) : Machine Unit where
  heap := { Heap.empty with
    units := ⟨#[⟨#[{ (default : Prototype) with code := #[0x57, 0xaa] }], #[], 0⟩]⟩
    functions := ⟨#[⟨⟨0⟩, 0, none⟩]⟩
    contexts := ⟨#[⟨none, .empty, .empty⟩]⟩ }
  memory := ⟨⟨c.values.toArray, 4⟩, ⟨c.frames.toArray, 4⟩, ⟨c.delimiters.toArray, 4⟩,
    ⟨c.marks.toArray, 4⟩⟩
  config := .standard
  state := ()

/-- A closure that counts its arguments, alone on the stacks and above others. -/
theorem activation_locality_counting :
    let host : Host Unit := { Host.bare with sizes := .unbounded }
    let M := Machine.countsArguments .oneArgument
    let N := Machine.countsArguments (Layer.waiting.pile .oneArgument)
    (∀ i, host.syscall i = none) ∧ host.Blind ∧ M.On (.bare []) .oneArgument ∧
    N.On .waiting .oneArgument ∧
    (M.watch host 0 9 []).map Sight.passage = [.goes, .returns [.int 1]] ∧
    M.watch host 0 9 [] = N.watch host 1 9 [] := by
  have hseen : ((Machine.countsArguments .oneArgument).watch { Host.bare with sizes := .unbounded }
      0 9 []).map Sight.passage = [.goes, .returns [.int 1]] := by
    decide +kernel
  intro host M N
  have hblind : host.Blind := ⟨fun _ _ _ _ _ _ _ => rfl, fun _ _ _ _ _ _ => rfl⟩
  have hM : M.On (.bare []) .oneArgument := (Layer.bare_nil_pile _).symm
  have hN : N.On .waiting .oneArgument := rfl
  have activation :
      Layer.Activation ⟨.bytecode ⟨0⟩ ⟨0⟩, 0, 1, 1, 1, 0, 0, 0, 0, none, .none⟩
        .oneArgument := by
    refine .bytecode rfl ⟨rfl, rfl, rfl, rfl, Nat.le_refl _⟩ ⟨⟨0, 0, .none, rfl⟩,
      ?_, ?_, ?_⟩
    · decide
    · intro d hd
      cases hd
    · intro m hm
      cases hm
  have hlocal := (activation_locality (fun _ => rfl) hblind).2 M N _ _ _ _ activation hM hN
  exact ⟨fun _ => rfl, hblind, hM, hN, hseen, (hlocal rfl rfl rfl 9 []).2 rfl⟩

end ScriptVm
