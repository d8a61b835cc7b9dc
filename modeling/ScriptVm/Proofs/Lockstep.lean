import ScriptVm.Machine.Exec
import ScriptVm.Proofs.Growth
import ScriptVm.Proofs.Layer

/-!
# Two computations in lockstep

A computation of the machine works on its topmost activation, whatever that
stands on.  To say so, two computations are run side by side: the one on a
machine whose stacks are a layer `c` standing on `left`, the other on a machine
whose stacks are the same layer standing on `right`.  `Lockstep` says that both
come to the same end: they go on with matching results and with one layer in
place of `c`, or they stop with one fault.  Neither ever stops with a defect,
except for what the limits of sizes refuse.

What holds of two runs holds of one, by taking it twice: `Footing.one` says that
both sides are the same machine.  Then an effectful function of the host answers
both sides alike even if it looks at the stacks; otherwise it must not look
(`Host.Blind`).

Main statements: `Lockstep.bind` and the other rules of composition, and
`alike_on` (a layer may be counted to what lies below).
-/

namespace ScriptVm

/-- Whether the limits of sizes can be the cause of a defect. -/
def Sizes.Refuses (sizes : Sizes) (d : Defect) : Prop :=
  (∃ a b, sizes.add a b = .error d) ∨ ∃ bytes slots, sizes.reserve bytes slots = .error d

/-- Without limits nothing is refused. -/
theorem Sizes.not_refuses_unbounded (d : Defect) : ¬ unbounded.Refuses d := by
  intro h
  rcases h with ⟨_, _, h⟩ | ⟨_, _, h⟩
  · cases h
  · cases h

/-- No function of the host looks at the stacks of the running coroutine. -/
structure Host.Blind {σ : Type} (host : Host σ) : Prop where
  /-- No effectful function does. -/
  effect : ∀ r heap config (s s' : Stacks) args state,
    host.callEffect r ⟨heap, s, config⟩ args state = host.callEffect r ⟨heap, s',
      config⟩ args state
  /-- No asynchronous function that opens a call does. -/
  opening : ∀ r heap config (s s' : Stacks) state,
    host.openAsync r ⟨heap, s, config⟩ state = host.openAsync r ⟨heap, s', config⟩ state

/-- What two runs stand on. -/
structure Footing where
  /-- What lies below the layer of the first run. -/
  left : Layer
  /-- What lies below the layer of the second run. -/
  right : Layer
  /-- Whether the two runs are one. -/
  one : Prop
  /-- The limits of sizes. -/
  sizes : Sizes
  /-- One run stands on one layer. -/
  same : one → left = right

/-- The footing of a layer that stands on `a`. -/
def Footing.on (t : Footing) (a : Layer) : Footing :=
  { t with
    left := t.left.pile a
    right := t.right.pile a
    same := fun h => by rw [t.same h] }

variable {σ α β γ δ : Type}

/-- The stacks of a machine are the layer `c`, standing on `p`. -/
def Machine.On (M : Machine σ) (p c : Layer) : Prop :=
  M.memory.view = p.pile c

/-- A layer may be counted to what lies below. -/
theorem Machine.on_pile {M : Machine σ} {p a c : Layer} :
    M.On (p.pile a) c ↔ M.On p (a.pile c) := by
  rw [Machine.On, Machine.On, Layer.pile_assoc]

/-- Two machines that differ only in what lies below the layer `c`. -/
structure Alike (t : Footing) (c : Layer) (M N : Machine σ) : Prop where
  left : M.On t.left c
  right : N.On t.right c
  heap : M.heap = N.heap
  config : M.config = N.config
  state : M.state = N.state
  one : t.one → M = N

/-- A layer may be counted to what lies below. -/
theorem alike_on {t : Footing} {a c : Layer} {M N : Machine σ} :
    Alike (t.on a) c M N ↔ Alike t (a.pile c) M N := by
  constructor
  · intro h
    exact { h with left := Machine.on_pile.mp h.left, right := Machine.on_pile.mp h.right }
  · intro h
    exact { h with left := Machine.on_pile.mpr h.left, right := Machine.on_pile.mpr h.right }

/-- The outcomes of two computations that began with the heap `start` match: they have matching
results, or stopped with the same fault, or one of them exceeded the limits of sizes. -/
inductive Agree (t : Footing) (start : Heap) (post : α → β → Layer → Prop) :
    EStateM.Result Stop (Machine σ) α → EStateM.Result Stop (Machine σ) β → Prop
  | ok {a : α} {b : β} {c : Layer} {M N : Machine σ} (alike : Alike t c M N)
      (grows : start.Grows M.heap) (result : post a b c) : Agree t start post (.ok a M) (.ok b N)
  | fault {f : Fault} {c : Layer} {M N : Machine σ} (alike : Alike t c M N)
      (grows : start.Grows M.heap) :
      Agree t start post (.error (.fault f) M) (.error (.fault f) N)
  | limitLeft {d : Defect} {M : Machine σ} {r : EStateM.Result Stop (Machine σ) β}
      (limit : t.sizes.Refuses d) : Agree t start post (.error (.defect d) M) r
  | limitRight {d : Defect} {N : Machine σ} {r : EStateM.Result Stop (Machine σ) α}
      (limit : t.sizes.Refuses d) : Agree t start post r (.error (.defect d) N)

/-- Two computations that come to the same end on any two machines alike above their footing. -/
def Lockstep (t : Footing) (pre : Layer → Prop) (x : Exec σ α) (y : Exec σ β)
    (post : α → β → Layer → Prop) : Prop :=
  ∀ c M N, Alike t c M N → pre c → Agree t M.heap post (x M) (y N)

/-- The postcondition of equal results. -/
def Same (post : α → Layer → Prop) (a b : α) (c : Layer) : Prop :=
  a = b ∧ post a c

/-- A computation that comes to the same end, with the same result, on any two machines alike above
their footing. -/
abbrev Steady (t : Footing) (pre : Layer → Prop) (x : Exec σ α)
    (post : α → Layer → Prop) : Prop :=
  Lockstep t pre x x (Same post)

/-- The postcondition of one position, counted from the bottom of each stack. -/
def Position (t : Footing) (post : Nat → Layer → Prop) (a b : Nat) (c : Layer) : Prop :=
  ∃ i, a = t.left.values.length + i ∧ b = t.right.values.length + i ∧ post i c

/-! ### Rules -/

section

variable {t : Footing} {pre pre' : Layer → Prop} {start start' : Heap}

theorem Agree.mono {post post' : α → β → Layer → Prop}
    {r : EStateM.Result Stop (Machine σ) α} {r' : EStateM.Result Stop (Machine σ) β}
    (h : Agree t start post r r') (hgrows : start'.Grows start)
    (himp : ∀ a b c, post a b c → post' a b c) : Agree t start' post' r r' := by
  cases h with
  | ok alike grows result => exact .ok alike (hgrows.trans grows) (himp _ _ _ result)
  | fault alike grows => exact .fault alike (hgrows.trans grows)
  | limitLeft limit => exact .limitLeft limit
  | limitRight limit => exact .limitRight limit

/-- The rule of consequence. -/
theorem Lockstep.mono {x : Exec σ α} {y : Exec σ β} {post post' : α → β → Layer → Prop}
    (h : Lockstep t pre x y post) (hpre : ∀ c, pre' c → pre c)
    (hpost : ∀ a b c, post a b c → post' a b c) : Lockstep t pre' x y post' :=
  fun c M N alike hc => (h c M N alike (hpre c hc)).mono (.refl _) hpost

/-- Computations one after the other. -/
theorem Lockstep.bind {x : Exec σ α} {y : Exec σ β} {f : α → Exec σ γ}
    {g : β → Exec σ δ}
    {mid : α → β → Layer → Prop} {post : γ → δ → Layer → Prop}
    (hx : Lockstep t pre x y mid) (hf : ∀ a b, Lockstep t (mid a b) (f a) (g b) post) :
    Lockstep t pre (x >>= f) (y >>= g) post := by
  intro c M N alike hc
  have h := hx c M N alike hc
  show Agree t M.heap post (EStateM.bind x f M) (EStateM.bind y g N)
  unfold EStateM.bind
  cases hxM : x M with
  | ok a M' =>
    cases hyN : y N with
    | ok b N' =>
      rw [hxM, hyN] at h
      cases h with
      | ok alike' grows result => exact (hf a b _ _ _ alike' result).mono grows fun _ _ _ h => h
    | error e N' =>
      rw [hxM, hyN] at h
      cases h with
      | limitRight limit => exact .limitRight limit
  | error e M' =>
    cases hyN : y N with
    | ok b N' =>
      rw [hxM, hyN] at h
      cases h with
      | limitLeft limit => exact .limitLeft limit
    | error e' N' =>
      rw [hxM, hyN] at h
      cases h with
      | fault alike' grows => exact .fault alike' grows
      | limitLeft limit => exact .limitLeft limit
      | limitRight limit => exact .limitRight limit

/-- A computation with equal results, and what comes after it. -/
theorem Lockstep.andThen {x y : Exec σ α} {f : α → Exec σ γ} {g : α → Exec σ δ}
    {mid : α → Layer → Prop} {post : γ → δ → Layer → Prop}
    (hx : Lockstep t pre x y (Same mid)) (hf : ∀ a, Lockstep t (mid a) (f a) (g a) post) :
    Lockstep t pre (x >>= f) (y >>= g) post := by
  refine hx.bind ?_
  intro a b c M N alike hc
  obtain ⟨rfl, hmid⟩ := hc
  exact hf a c M N alike hmid

/-- A computation that finds a position, and what comes after it. -/
theorem Lockstep.andAt {x y : Exec σ Nat} {f : Nat → Exec σ γ} {g : Nat → Exec σ δ}
    {mid : Nat → Layer → Prop} {post : γ → δ → Layer → Prop}
    (hx : Lockstep t pre x y (Position t mid))
    (hf : ∀ i, Lockstep t (mid i) (f (t.left.values.length + i)) (g (t.right.values.length + i))
      post) :
    Lockstep t pre (x >>= f) (y >>= g) post := by
  refine hx.bind ?_
  intro _ _ c M N alike hc
  obtain ⟨i, rfl, rfl, hmid⟩ := hc
  exact hf i c M N alike hmid

theorem Lockstep.pure {a : α} {b : β} {post : α → β → Layer → Prop}
    (h : ∀ c, pre c → post a b c) :
    Lockstep (σ := σ) t pre (Pure.pure a) (Pure.pure b) post :=
  fun c _ _ alike hc => .ok alike (.refl _) (h c hc)

/-- A fact that does not depend on the layer. -/
theorem Lockstep.assume {P : Prop} {x : Exec σ α} {y : Exec σ β}
    {post : α → β → Layer → Prop}
    (h : P → Lockstep t pre x y post) : Lockstep t (fun c => P ∧ pre c) x y post :=
  fun c M N alike hc => h hc.1 c M N alike hc.2

theorem Lockstep.fault {f : Fault} {post : α → β → Layer → Prop} :
    Lockstep (σ := σ) t pre (Exec.fault f) (Exec.fault f) post :=
  fun _ _ _ alike _ => .fault alike (.refl _)

/-- A check that is the same on both sides. -/
theorem Lockstep.ofFault {e : Except Fault α} :
    Steady (σ := σ) t pre (Exec.ofFault e) fun a c => e = .ok a ∧ pre c := by
  cases e with
  | ok a => exact .pure fun c hc => ⟨rfl, rfl, hc⟩
  | error f => exact .fault

/-- A reservation; only the limits of sizes can refuse it. -/
theorem Lockstep.reserve {bytes slots : Nat} :
    Steady (σ := σ) t pre (Exec.ofDefect (t.sizes.reserve bytes slots)) fun _ => pre := by
  intro c M N alike hc
  cases h : t.sizes.reserve bytes slots with
  | ok u => exact .ok alike (.refl _) ⟨rfl, hc⟩
  | error d => exact .limitLeft (.inr ⟨bytes, slots, h⟩)

/-- The heap is the same on both sides. -/
theorem Lockstep.heap : Steady (σ := σ) t pre Exec.heap fun _ => pre :=
  fun _ _ _ alike hc => .ok alike (.refl _) ⟨alike.heap, hc⟩

/-- A choice by a condition that both sides judge alike. -/
theorem Lockstep.ite {P Q : Prop} [Decidable P] [Decidable Q] (hiff : P ↔ Q)
    {x x' : Exec σ α} {y y' : Exec σ β} {post : α → β → Layer → Prop}
    (hpos : Q → Lockstep t pre x y post) (hneg : ¬ Q → Lockstep t pre x' y' post) :
    Lockstep t pre (if P then x else x') (if Q then y else y') post := by
  by_cases hQ : Q
  · rw [if_pos (hiff.mpr hQ), if_pos hQ]
    exact hpos hQ
  · rw [if_neg (mt hiff.mp hQ), if_neg hQ]
    exact hneg hQ

end

end ScriptVm
