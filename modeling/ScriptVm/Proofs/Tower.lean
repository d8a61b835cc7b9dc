import ScriptVm.Proofs.Evaluation
import ScriptVm.Proofs.Lockstep.Steps

/-!
# Steps on a tower

The stacks of a coroutine are a tower of activations, and only the topmost one
takes part in a step.  So there are few things that a step can do: the topmost
activation goes on, or it has called another one; control leaves the coroutine;
or the activation is gone and its results lie on top of the rest.

An activation is done when all that stands on it is gone, and it has returned as
well.  Until then the activations from it upward are **abreast** on both sides.

Main statements: `Machine.step_spec` (all that a step can do to a tower, whatever
the tower stands on), `Abreast.step` (what a step can do to an activation and all
that stands on it).
-/

namespace ScriptVm

variable {σ α : Type}

/-! ### One run -/

/-- The footing of one run alone. -/
def Footing.single (p : Layer) (sizes : Sizes) : Footing where
  left := p
  right := p
  one := True
  sizes := sizes
  same := fun _ => rfl

theorem Host.Suits.single {host : Host σ} (hsyscall : ∀ i, host.syscall i = none) (p : Layer) :
    host.Suits (.single p host.sizes) :=
  ⟨rfl, hsyscall, .inl trivial⟩

theorem Alike.single {M : Machine σ} {p c : Layer} {sizes : Sizes} (on : M.On p c) :
    Alike (.single p sizes) c M M :=
  ⟨on, on, rfl, rfl, rfl, fun _ => rfl⟩

/-- How a computation can end that began with the heap `start`, on stacks standing on `p`. -/
inductive Fares (p : Layer) (sizes : Sizes) (start : Heap) (post : α → Layer → Prop) :
    EStateM.Result Stop (Machine σ) α → Prop
  | ok {a : α} {c : Layer} {M : Machine σ} (on : M.On p c) (grows : start.Grows M.heap)
      (result : post a c) : Fares p sizes start post (.ok a M)
  | fault {f : Fault} {M : Machine σ} (grows : start.Grows M.heap) :
      Fares p sizes start post (.error (.fault f) M)
  | limit {d : Defect} {M : Machine σ} (limit : sizes.Refuses d) :
      Fares p sizes start post (.error (.defect d) M)

theorem Fares.mono {p : Layer} {sizes : Sizes} {start : Heap} {post post' : α → Layer → Prop}
    {r : EStateM.Result Stop (Machine σ) α} (h : Fares p sizes start post r)
    (himp : ∀ a c, post a c → post' a c) : Fares p sizes start post' r := by
  cases h with
  | ok on grows result => exact .ok on grows (himp _ _ result)
  | fault grows => exact .fault grows
  | limit limit => exact .limit limit

/-- What holds of two runs holds of one. -/
theorem Steady.fares {p c : Layer} {sizes : Sizes} {pre : Layer → Prop} {x : Exec σ α}
    {post : α → Layer → Prop} (h : Steady (.single p sizes) pre x post) {M : Machine σ}
    (on : M.On p c) (hc : pre c) : Fares p sizes M.heap post (x M) := by
  have hagree := h c M M (.single on) hc
  revert hagree
  cases x M with
  | ok a M' =>
    intro hagree
    cases hagree with
    | ok alike grows result => exact .ok alike.left grows result.2
  | error e M' =>
    intro hagree
    cases hagree with
    | fault alike grows => exact .fault grows
    | limitLeft limit => exact .limit limit
    | limitRight limit => exact .limit limit

/-! ### What a step can do -/

/-- The results that the next step returns, if it is a return. -/
def Machine.returning (host : Host σ) (M : Machine σ) : Option (List Value) :=
  match Exec.advance host M with
  | .ok (.returns results) _ => some results
  | _ => none

/-- What a step can do to two machines, whose stacks are one tower of the activations `f :: fs`: on
both sides the topmost activation goes on, has called another one, lets control leave the
coroutine, or returns; both sides end with one fault; or one of them exceeds the limits of sizes. -/
inductive Stepped (host : Host σ) (t : Footing) (ground : List Value) (f : Frame) (fs : List Frame)
    (M N : Machine σ) : EStateM.Result Stop (Machine σ) (Option Exit) →
    EStateM.Result Stop (Machine σ) (Option Exit) → Prop
  | goes {c : Layer} {M' N' : Machine σ} (quiet : M.returning host = none)
      (quiet' : N.returning host = none) (alike : Alike t c M' N')
      (grows : M.heap.Grows M'.heap) (tower : Layer.Tower ground (f :: fs) c) :
      Stepped host t ground f fs M N (.ok none M') (.ok none N')
  | calls {g : Frame} {c : Layer} {M' N' : Machine σ} (quiet : M.returning host = none)
      (quiet' : N.returning host = none) (alike : Alike t c M' N')
      (grows : M.heap.Grows M'.heap) (tower : Layer.Tower ground (g :: f :: fs) c) :
      Stepped host t ground f fs M N (.ok none M') (.ok none N')
  | exits {e : Exit} {c : Layer} {M' N' : Machine σ} (quiet : M.returning host = none)
      (quiet' : N.returning host = none) (alike : Alike t c M' N')
      (grows : M.heap.Grows M'.heap) (tower : Layer.Tower ground (f :: fs) c) :
      Stepped host t ground f fs M N (.ok (some e) M') (.ok (some e) N')
  | returns {results : List Value} {q : Layer} {M' N' : Machine σ}
      (result : M.returning host = some results) (result' : N.returning host = some results)
      (alike : Alike t (q.pile (.bare (shaped f.returnSize results))) M' N')
      (grows : M.heap.Grows M'.heap) (tower : Layer.Tower ground fs q) :
      Stepped host t ground f fs M N (.ok none M') (.ok none N')
  | fault {e : Fault} {c : Layer} {M' N' : Machine σ} (alike : Alike t c M' N')
      (grows : M.heap.Grows M'.heap) :
      Stepped host t ground f fs M N (.error (.fault e) M') (.error (.fault e) N')
  | limitLeft {d : Defect} {M' : Machine σ} {r : EStateM.Result Stop (Machine σ) (Option Exit)}
      (limit : t.sizes.Refuses d) : Stepped host t ground f fs M N (.error (.defect d) M') r
  | limitRight {d : Defect} {N' : Machine σ} {r : EStateM.Result Stop (Machine σ) (Option Exit)}
      (limit : t.sizes.Refuses d) : Stepped host t ground f fs M N r (.error (.defect d) N')

section

variable {host : Host σ} {t : Footing} {p q a c : Layer} {ground : List Value} {f : Frame}
  {fs : List Frame} {M N M' N' : Machine σ}

/-- The return that ends a step. -/
theorem Stepped.of_leave (suits : host.Suits t) {results : List Value}
    (result : M.returning host = some results) (result' : N.returning host = some results)
    (alike : Alike t (q.pile a) M' N') (grows : M.heap.Grows M'.heap)
    (lower : Layer.Tower ground fs q) (upper : Layer.Activation f a) :
    Stepped host t ground f fs M N (Exec.conclude host (.returns results) M')
      (Exec.conclude host (.returns results) N') := by
  have h := (Lockstep.leave (suits.on q) upper results).on (q.pile a) M' N' alike ⟨a, rfl, rfl⟩
  have hconclude (L : Machine σ) : Exec.conclude host (.returns results) L
      = match Exec.leave host results L with
        | .ok _ L' => .ok none L'
        | .error e L' => .error e L' := by
    rw [Exec.conclude, Exec.bind_apply]
    cases Exec.leave host results L <;> rfl
  rw [hconclude M', hconclude N']
  generalize Exec.leave host results M' = r at h
  generalize Exec.leave host results N' = r' at h
  cases h with
  | ok alike' grows' result'' =>
    obtain ⟨b, hb, -, hshaped⟩ := result''
    subst hb hshaped
    exact .returns result result' alike' (grows.trans grows') lower
  | fault alike' grows' => exact .fault alike' (grows.trans grows')
  | limitLeft limit => exact .limitLeft limit
  | limitRight limit => exact .limitRight limit

/-- **All that a step can do to a tower**, on two sides at once. -/
theorem step_tower (suits : host.Suits t) (alike : Alike t c M N)
    (tower : Layer.Tower ground (f :: fs) c) :
    Stepped host t ground f fs M N (Exec.step host M) (Exec.step host N) := by
  cases tower with
  | @call _ _ q a lower upper =>
  have h := (Lockstep.advance (suits.on q)).on (q.pile a) M N alike ⟨a, rfl, upper⟩
  have hstep (L : Machine σ) : Exec.step host L
      = match Exec.advance host L with
        | .ok outcome L' => Exec.conclude host outcome L'
        | .error e L' => .error e L' := by
    rw [Exec.step_eq, Exec.bind_apply]
    cases Exec.advance host L <;> rfl
  have hreturning (L : Machine σ) : L.returning host
      = match Exec.advance host L with
        | .ok (.returns results) _ => some results
        | _ => none := rfl
  have hM := hreturning M
  have hN := hreturning N
  rw [hstep M, hstep N]
  generalize Exec.advance host M = r at h hM
  generalize Exec.advance host N = r' at h hN
  cases h with
  | fault alike' grows => exact .fault alike' grows
  | limitLeft limit => exact .limitLeft limit
  | limitRight limit => exact .limitRight limit
  | @ok outcome _ _ _ _ alike' grows result =>
    obtain ⟨b, hb, rfl, hafter⟩ := result
    subst hb
    cases outcome with
    | goes =>
      cases hafter with
      | stays activation => exact .goes hM hN alike' grows (.call lower activation)
      | @calls g a' b' caller callee =>
        rw [← Layer.pile_assoc] at alike'
        exact .calls hM hN alike' grows (.call (.call lower caller) callee)
    | exits e =>
      cases e with
      | finished vs => exact hafter.elim
      | yielded vs => exact .exits hM hN alike' grows (.call lower hafter)
      | switched r args => exact .exits hM hN alike' grows (.call lower hafter)
    | returns results => exact .of_leave suits hM hN alike' grows lower hafter

/-- **All that a step can do to a tower**, standing on `p`. -/
theorem Machine.step_spec (hsyscall : ∀ i, host.syscall i = none) (on : M.On p c)
    (tower : Layer.Tower ground (f :: fs) c) :
    Stepped host (.single p host.sizes) ground f fs M M (Exec.step host M) (Exec.step host M) :=
  step_tower (.single hsyscall p) (.single on) tower

end

/-! ### An activation and all that stands on it -/

/-- Two machines whose stacks are the same activations above their footing, the lowest of which is
that of `f`. -/
def Abreast (t : Footing) (f : Frame) (M N : Machine σ) : Prop :=
  ∃ fs c, Alike t c M N ∧ Layer.Tower [] (fs ++ [f]) c

/-- What a step can do to an activation and all that stands on it: it is still there on both sides,
also when control leaves the coroutine; it has returned, and its results lie on the footing; both
sides end with one fault; or one of them exceeds the limits of sizes. -/
inductive Abreast.Next (host : Host σ) (t : Footing) (f : Frame) (M N : Machine σ) :
    EStateM.Result Stop (Machine σ) (Option Exit) →
    EStateM.Result Stop (Machine σ) (Option Exit) → Prop
  | goes {M' N' : Machine σ} (same : M.returning host = N.returning host)
      (abreast : Abreast t f M' N') : Next host t f M N (.ok none M') (.ok none N')
  | exits {e : Exit} {M' N' : Machine σ} (abreast : Abreast t f M' N') :
      Next host t f M N (.ok (some e) M') (.ok (some e) N')
  | returns {results : List Value} {M' N' : Machine σ} (result : M.returning host = some results)
      (result' : N.returning host = some results)
      (alike : Alike t (.bare (shaped f.returnSize results)) M' N') :
      Next host t f M N (.ok none M') (.ok none N')
  | fault {e : Fault} {M' N' : Machine σ} (heap : M'.heap = N'.heap)
      (state : M'.state = N'.state) :
      Next host t f M N (.error (.fault e) M') (.error (.fault e) N')
  | limitLeft {d : Defect} {M' : Machine σ} {r : EStateM.Result Stop (Machine σ) (Option Exit)}
      (limit : t.sizes.Refuses d) : Next host t f M N (.error (.defect d) M') r
  | limitRight {d : Defect} {N' : Machine σ} {r : EStateM.Result Stop (Machine σ) (Option Exit)}
      (limit : t.sizes.Refuses d) : Next host t f M N r (.error (.defect d) N')

/-- The number of active functions. -/
def Machine.depth (M : Machine σ) : Nat :=
  M.memory.frames.size

theorem Machine.On.depth {M : Machine σ} {p c : Layer} (on : M.On p c) :
    M.depth = p.frames.length + c.frames.length :=
  on.frames_size

namespace Abreast

variable {host : Host σ} {t : Footing} {f : Frame} {M N : Machine σ}

theorem of_activation {c : Layer} (alike : Alike t c M N) (h : Layer.Activation f c) :
    Abreast t f M N := by
  refine ⟨[], c, alike, ?_⟩
  have tower : Layer.Tower [] [f] ((Layer.bare []).pile c) := .call .ground h
  rwa [Layer.bare_nil_pile] at tower

/-- There are more active functions than below. -/
theorem deep (h : Abreast t f M N) :
    t.left.frames.length < M.depth ∧ t.right.frames.length < N.depth := by
  obtain ⟨fs, c, alike, tower⟩ := h
  have hlength : c.frames.length = fs.length + 1 := by
    rw [tower.length_frames, List.length_append]
    rfl
  rw [alike.left.depth, alike.right.depth]
  omega

/-- While control is away from both coroutines, anything may happen to the heap and the host's
state, and the coroutines may be resumed with some values. -/
theorem resumed (h : Abreast t f M N) (heap : Heap) (state : σ) (values : List Value) :
    Abreast t f ({ M with heap, state }.onValues fun s => s.pushAll values)
      ({ N with heap, state }.onValues fun s => s.pushAll values) := by
  obtain ⟨fs, c, alike, tower⟩ := h
  have hpushed {p : Layer} {L : Machine σ} (on : L.On p c) :
      ({ L with heap, state }.onValues fun s => s.pushAll values).On p (c.pile (.bare values)) := by
    rw [Machine.On, Machine.view_pushAll, ← Layer.pile_assoc]
    exact congrArg (Layer.pile · (.bare values)) on
  refine ⟨fs, c.pile (.bare values), ?_, tower.pushed (by simp) values⟩
  exact ⟨hpushed alike.left, hpushed alike.right, rfl, alike.config, rfl,
    fun ho => by rw [alike.one ho]⟩

/-- What a step does to the topmost activation, told of the lowest one and all that stands on it. -/
theorem Next.of_stepped {fs below : List Frame} {g : Frame} (hg : fs ++ [f] = g :: below)
    {r r' : EStateM.Result Stop (Machine σ) (Option Exit)}
    (h : Stepped host t [] g below M N r r') : Next host t f M N r r' := by
  cases h with
  | goes quiet quiet' alike' _ tower' =>
    rw [← hg] at tower'
    exact .goes (quiet.trans quiet'.symm) ⟨fs, _, alike', tower'⟩
  | @calls g' _ _ _ quiet quiet' alike' _ tower' =>
    rw [← hg] at tower'
    exact .goes (quiet.trans quiet'.symm) ⟨g' :: fs, _, alike', tower'⟩
  | exits _ _ alike' _ tower' =>
    rw [← hg] at tower'
    exact .exits ⟨fs, _, alike', tower'⟩
  | returns result result' alike' _ tower' =>
    -- What has returned is either the lowest activation or one that stands on it.
    cases fs with
    | nil =>
      obtain ⟨rfl, rfl⟩ : f = g ∧ [] = below := by simpa using hg
      rw [tower'.eq_bare, Layer.bare_nil_pile] at alike'
      exact .returns result result' alike'
    | cons g' fs =>
      obtain ⟨-, rfl⟩ : g' = g ∧ fs ++ [f] = below := by simpa using hg
      exact .goes (result.trans result'.symm) ⟨fs, _, alike', tower'.pushed (by simp) _⟩
  | fault alike' _ => exact .fault alike'.heap alike'.state
  | limitLeft limit => exact .limitLeft limit
  | limitRight limit => exact .limitRight limit

/-- The activations of a tower, the topmost one first. -/
theorem exists_top (fs : List Frame) (f : Frame) : ∃ g below, fs ++ [f] = g :: below := by
  cases fs with
  | nil => exact ⟨_, _, rfl⟩
  | cons g fs => exact ⟨_, _, rfl⟩

/-- **A step** keeps an activation and all that stands on it abreast, until it returns. -/
theorem step (suits : host.Suits t) (h : Abreast t f M N) :
    Next host t f M N (Exec.step host M) (Exec.step host N) := by
  obtain ⟨fs, c, alike, tower⟩ := h
  obtain ⟨g, below, hg⟩ := exists_top fs f
  rw [hg] at tower
  exact .of_stepped hg (step_tower suits alike tower)

end Abreast

end ScriptVm
