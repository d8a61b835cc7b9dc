import ScriptVm.Proofs.Mirror.Runs
import ScriptVm.Proofs.Requests

/-!
# Errands

What a host can do with a scheduler is a list of errands: load units, make objects,
read and write them, run functions and resume coroutines.  Whatever it does with one
scheduler, it does with another one that is alike, as long as every coroutine stands
for itself: it hands over the same values on both sides, and they have to be there.

Main statements: `Deed.twin` (what is done to the heap) and `Errand.answers` (all that
a host does).
-/

namespace ScriptVm

variable {σ : Type} {T : Likeness} {h h' : Heap} {v v' : Value} {vs vs' : List Value}

/-! ### Values that are there -/

/-- The closures and coroutines that a value refers to are there. -/
def Value.Held (h : Heap) (v : Value) : Prop :=
  (∀ r, v = .function r → h.functions.Holds r) ∧ ∀ r, v = .coroutine r →
    h.coroutines.Holds r

namespace Heap.Twin

variable {S : Ref .coroutine → Prop}

/-- A value that is held is its own twin, if every coroutine stands for itself. -/
theorem value (hh : h.Twin T S h') (strict : T.Strict) (hv : v.Held h) : v.Twin T v := by
  cases v with
  | coroutine r =>
    obtain ⟨r', hr⟩ := hh.total r (hv.2 r rfl)
    have hsame := strict.1 r r' hr
    subst hsame
    exact .coroutine hr
  | function r => exact .function ((hh.home r _).mpr ⟨hv.1 r rfl, rfl⟩)
  | _ => exact .inert nofun nofun

theorem values (hh : h.Twin T S h') (strict : T.Strict) (hvs : ∀ v ∈ vs, v.Held h) :
    Value.Twins T vs vs := by
  induction vs with
  | nil => exact .nil
  | cons v vs ih =>
    exact .cons (hh.value strict (hvs v List.mem_cons_self))
      (ih fun w hw => hvs w (List.mem_cons_of_mem v hw))

theorem value_held (hh : h.Twin T S h') (hv : v.Twin T v') : v.Held h := by
  cases hv with
  | coroutine paired =>
    refine ⟨nofun, fun r hr => ?_⟩
    cases hr
    exact (hh.held _ _ paired).1
  | plain hv =>
    refine ⟨fun r hr => ?_, fun r hr => absurd hr (hv.ne r)⟩
    obtain ⟨p, hp⟩ := hv.known r hr
    exact ((hh.home r p).mp hp).1

theorem values_held (hh : h.Twin T S h') (hvs : Value.Twins T vs vs') : ∀ v ∈ vs, v.Held h := by
  induction hvs with
  | nil => nofun
  | cons hv _ ih => exact List.forall_mem_cons.mpr ⟨hh.value_held hv, ih⟩

end Heap.Twin

/-! ### Empty heaps -/

/-- Nothing is known of an empty heap. -/
def Likeness.unknown {words : Word → Word → Prop} (alike : ∀ x y, words x y → x.Alike y) :
    Likeness where
  pairs := fun _ _ => False
  extra := fun _ => False
  home := fun _ => none
  beside := fun _ _ a a' => a' = a
  words
  alike

theorem Heap.Twin.empty {S : Ref .coroutine → Prop} {words : Word → Word → Prop}
    {alike : ∀ x y, words x y → x.Alike y} (hwords : ∀ x, words x x) :
    Heap.empty.Twin (.unknown alike) S .empty where
  sharp _ _ _ _ h := h.elim
  units _ := .refl hwords _
  counted := rfl
  functions := rfl
  loaded _ h := absurd h (Nat.not_lt_zero _)
  home _ _ := ⟨nofun, fun h => absurd h.1 (Nat.not_lt_zero _)⟩
  contexts := ⟨rfl, fun _ => .bare none⟩
  tables := ⟨rfl, fun _ => .empty⟩
  vectors := ⟨rfl, fun _ => .nil⟩
  total _ h := absurd h (Nat.not_lt_zero _)
  onto _ h := absurd h (Nat.not_lt_zero _)
  lone _ h := h.elim
  held _ _ h := h.elim
  coroutines _ _ h := h.elim

/-! ### What a host does to a heap -/

/-- What comes of something that a host does. -/
inductive Reply
  | unit (u : Ref .unit)
  | context (c : Ref .context)
  | values (vs : List Value)
  | exit (exit : Exit)

/-- Something that a host does to a heap. -/
inductive Deed
  | load (u : CodeUnit)
  | newContext (parent : Option (Ref .context))
  | newTable
  | newVector (vs : List Value)
  | newFunction (u : Ref .unit) (index : Nat) (parent : Option (Ref .context))
  | newCoroutine (entry : Value) (context : Option (Ref .context)) (config : Config)
  | bind (r : Ref .function) (c : Ref .context)
  | setMetatable (t : Ref .table) (metatable : Option (Ref .table))
  | store (t : Ref .table) (key value : Value)
  | look (t : Ref .table) (key : Value)
  | fill (r : Ref .vector) (vs : List Value)
  | items (r : Ref .vector)
  | create (c : Ref .context) (name : String) (value : Value)
  | write (c : Ref .context) (name : String) (value : Value)
  | read (c : Ref .context) (name : String)
  /-- A coroutine that had switched away may be resumed again. -/
  | ready (r : Ref .coroutine)

/-- What is done, and what comes of it. -/
def Deed.apply (sizes : Sizes) (h : Heap) : Deed → Except Defect (Reply × Heap)
  | load u => .ok (.unit (h.newUnit u).1, (h.newUnit u).2)
  | newContext parent => .ok (.context (h.newContext parent).1, (h.newContext parent).2)
  | newTable => .ok (.values [.table h.newTable.1], h.newTable.2)
  | newVector vs => .ok (.values [.vector (h.newVector vs).1], (h.newVector vs).2)
  | newFunction u index parent =>
    (h.newFunction u index parent).map fun made => (.values [.function made.1], made.2)
  | newCoroutine entry context config =>
    (Coroutine.make sizes entry context config).map fun c =>
      (.values [.coroutine (h.newCoroutine c).1], (h.newCoroutine c).2)
  | bind r c => .ok (.values [], h.bind r c)
  | setMetatable t metatable =>
    .ok (.values [], h.modifyTable t fun table => { table with metatable })
  | store t key value => .ok (.values [], h.writeEntry t key value)
  | look t key => .ok (.values [(h.readEntry t key).getD .nil], h)
  | fill r vs => .ok (.values [], h.modifyVector r fun _ => vs.toArray)
  | items r => .ok (.values (h.vector r).toList, h)
  | create c name value => .ok (.values [], h.createVariable c name value)
  | write c name value => .ok (.values [], h.writeVariable c name value)
  | read c name => .ok (.values [(h.readVariable c name).1], (h.readVariable c name).2)
  | ready r => .ok (.values [], Coroutine.setResumable r h)

/-- The values that a host hands over are there. -/
def Deed.Held (h : Heap) : Deed → Prop
  | newVector vs | fill _ vs => ∀ v ∈ vs, v.Held h
  | newCoroutine entry _ _ => entry.Held h
  | store _ key value => key.Held h ∧ value.Held h
  | look _ key => key.Held h
  | create _ _ value | write _ _ value => value.Held h
  | ready r => h.coroutines.Holds r
  | _ => True

/-- The same is done on both sides, but for how the code of a unit is spelled. -/
inductive Deed.Twin (T : Likeness) : Deed → Deed → Prop
  | load {u u' : CodeUnit} {beside : Nat → Nat → Nat →
      Prop} (spelled : u.Twin beside T.words u')
      (exact : T.Exact → ∀ i a a', beside i a a' ↔ a' = a) : Twin T (.load u) (.load u')
  | same (d : Deed) (other : ∀ u, d ≠ .load u) : Twin T d d

/-- One reply as it is in two heaps. -/
inductive Reply.Twin (T : Likeness) : Reply → Reply → Prop
  | unit (u : Ref .unit) : Twin T (.unit u) (.unit u)
  | context (c : Ref .context) : Twin T (.context c) (.context c)
  | values {vs vs' : List Value} (values : Value.Twins T vs vs') : Twin T (.values vs) (.values vs')
  | exit {exit exit' : Exit} (exits : exit.Twin T exit') : Twin T (.exit exit) (.exit exit')

/-- What is done can be done on both sides or on none, and twins come of it. -/
inductive Deed.Done (T : Likeness) (S : Ref .coroutine → Prop) :
    Except Defect (Reply × Heap) → Except Defect (Reply × Heap) → Prop
  | ok {U : Likeness} {a b : Reply} {g g' : Heap} (le : T ≤ U) (heap : g.Twin U S g')
      (reply : a.Twin U b) : Done T S (.ok (a, g)) (.ok (b, g'))
  | error (d : Defect) : Done T S (.error d) (.error d)

/-- **What a host does to a heap**, it does to both. -/
theorem Deed.twin {S : Ref .coroutine → Prop} {d d' : Deed} (sizes : Sizes) (hh : h.Twin T S h')
    (strict : T.Strict) (held : d.Held h) (hd : d.Twin T d') :
    Done T S (d.apply sizes h) (d'.apply sizes h') := by
  have hle := Likeness.le_refl T
  have hnone : Reply.Twin T (.values []) (.values []) := .values .nil
  cases hd with
  | load hu hexact =>
    obtain ⟨hsame, hle, hheap⟩ := hh.newUnit hu hexact
    rw [apply, apply, hsame]
    exact .ok hle hheap (.unit _)
  | same d hother =>
    cases d with
    | load u => exact absurd rfl (hother u)
    | newContext parent =>
      obtain ⟨hsame, hheap⟩ := hh.newContext parent
      rw [apply, apply, hsame]
      exact .ok hle hheap (.context _)
    | newTable =>
      obtain ⟨hsame, hheap⟩ := hh.newTable
      rw [apply, apply, hsame]
      exact .ok hle hheap (.values (.cons (.table _) .nil))
    | newVector vs =>
      obtain ⟨hsame, hheap⟩ := hh.newVector (hh.values strict held)
      rw [apply, apply, hsame]
      exact .ok hle hheap (.values (.cons (.vector _) .nil))
    | newFunction u index parent =>
      rw [apply, apply]
      rcases hh.newFunction u index parent with
        ⟨e, he, he'⟩ | ⟨r, g, g', hmade, hmade', hle, hheap⟩
      · rw [he, he']
        exact .error e
      · rw [hmade, hmade']
        exact .ok hle hheap (.values (.cons (.function (if_pos rfl)) .nil))
    | newCoroutine entry context config =>
      rw [apply, apply]
      rcases Coroutine.make_cases sizes entry context config with hmade | ⟨e, hmade, -⟩
      · rw [hmade]
        obtain ⟨hle, hheap⟩ :=
          hh.newCoroutine (.new (hh.value strict held) context config)
        exact .ok hle hheap (.values (.cons (.coroutine (.inr ⟨rfl, rfl⟩)) .nil))
      · rw [hmade]
        exact .error e
    | bind r c => exact .ok hle (hh.bind r c) hnone
    | setMetatable t metatable => exact .ok hle (hh.setMetatable t metatable) hnone
    | store t key value =>
      exact .ok hle (hh.writeEntry t (hh.value strict held.1) (hh.value strict held.2)) hnone
    | look t key =>
      exact .ok hle hh (.values (.cons (.getD (hh.readEntry t (hh.value strict held))) .nil))
    | fill r vs =>
      refine .ok hle (hh.modifyVector r ?_) hnone
      simpa using hh.values strict held
    | items r => exact .ok hle hh (.values (hh.vector r))
    | create c name value => exact .ok hle (hh.createVariable c name (hh.value strict held)) hnone
    | write c name value => exact .ok hle (hh.writeVariable c name (hh.value strict held)) hnone
    | read c name =>
      obtain ⟨hv, hheap⟩ := hh.readVariable c name
      exact .ok hle hheap (.values (.cons hv .nil))
    | ready r =>
      obtain ⟨r', hr⟩ := hh.total r held
      have hsame := strict.1 r r' hr
      subst hsame
      exact .ok hle (hh.setResumable hr) hnone

/-! ### Errands -/

/-- What a host does with a scheduler, one thing at a time. -/
inductive Errand
  | deed (d : Deed)
  | request (q : Request)
  /-- A coroutine is resumed without the scheduler. -/
  | resume (r : Ref .coroutine) (args : List Value)

namespace Errand

/-- What comes of an errand. -/
def run (host : Host σ) (fuel : Nat) : Errand → Schedule σ Reply
  | deed d => do
    let made ← Vm.ofDefect (d.apply host.sizes (← get).heap)
    modify fun vm => { vm with heap := made.2 }
    return made.1
  | request q => return .values (← q.run host fuel)
  | resume r args => return .exit (← Coroutine.resume host fuel r args)

/-- The values that a host hands over are there. -/
def Held (h : Heap) : Errand → Prop
  | deed d => d.Held h
  | request (.unit _ args _) => ∀ v ∈ args, v.Held h
  | request (.function r args) | request (.functionIn r _ args) =>
    h.functions.Holds r ∧ ∀ v ∈ args, v.Held h
  | request (.call callee args) => callee.Held h ∧ ∀ v ∈ args, v.Held h
  | resume r args => h.coroutines.Holds r ∧ ∀ v ∈ args, v.Held h

end Errand

/-- Something is made of both answers. -/
theorem Vm.Answers.map {α β γ δ : Type} {m : Mirror σ} {R : Likeness → α → β → Prop}
    {Q : Likeness → γ → δ → Prop} {x : Schedule σ α} {y : Schedule σ β} {vm vm' : Vm σ}
    (h : Vm.Answers m R (x vm) (y vm')) {f : α → γ} {g : β → δ}
    (hf : ∀ U a b, R U a b → Q U (f a) (g b)) :
    Vm.Answers m Q ((x >>= fun a => pure (f a)) vm) ((y >>= fun b => pure (g b)) vm') := by
  rw [Vm.bind_apply, Vm.bind_apply]
  generalize x vm = r at h
  generalize y vm' = r' at h
  cases h with
  | error le abreast failures => exact .error le abreast failures
  | ok le abreast result => exact .ok le abreast (hf _ _ _ result)

namespace Errand

/-- The same is done on both sides, but for how the code of a unit is spelled. -/
inductive Twin (T : Likeness) : Errand → Errand → Prop
  | deed {d d' : Deed} (deeds : d.Twin T d') : Twin T (.deed d) (.deed d')
  | request (q : Request) : Twin T (.request q) (.request q)
  | resume (r : Ref .coroutine) (args : List Value) : Twin T (.resume r args) (.resume r args)

variable {m : Mirror σ} {host : Host σ} {vm vm' : Vm σ} {e e' : Errand}

/-- What is done to the heap. -/
theorem deed_answers {d d' : Deed} (oblivious : host.Oblivious m.states m.aside) (fuel : Nat)
    (strict : m.like.Strict) (hvm : vm.Abreast m vm') (held : d.Held vm.heap)
    (hd : d.Twin m.like d') :
    Vm.Answers m Reply.Twin ((deed d).run host fuel vm) ((deed d').run host fuel vm') := by
  have hdone := Deed.twin host.sizes hvm.heap strict held hd
  simp only [run, Vm.bind_apply, Vm.get_apply]
  generalize d.apply host.sizes vm.heap = x at hdone
  generalize d'.apply host.sizes vm'.heap = y at hdone
  cases hdone with
  | error e => exact .error (Likeness.le_refl _) hvm (.defect e)
  | ok le heap reply => exact .ok le (hvm.mono oblivious le heap) reply

/-- **What a host does**, it does on both sides, and is answered alike. -/
theorem answers (oblivious : host.Oblivious m.states m.aside) (free : ∀ r, ¬ m.aside r)
    (fuel : Nat) (strict : m.like.Strict) (hvm : vm.Abreast m vm') (held : e.Held vm.heap)
    (he : e.Twin m.like e') :
    Vm.Answers m Reply.Twin (e.run host fuel vm) (e'.run host fuel vm') := by
  have hle := Likeness.le_refl m.like
  cases he with
  | deed hd => exact deed_answers oblivious fuel strict hvm held hd
  | request q =>
    have hq : q.Twin m.like q := by
      cases q with
      | unit u args context => exact .unit u (hvm.heap.values strict held) context
      | function r args =>
        exact .function ((hvm.heap.home r _).mpr ⟨held.1, rfl⟩) (hvm.heap.values strict held.2)
      | functionIn r c args =>
        exact .functionIn ((hvm.heap.home r _).mpr ⟨held.1, rfl⟩) c
          (hvm.heap.values strict held.2)
      | call callee args =>
        exact .call (hvm.heap.value strict held.1) (hvm.heap.values strict held.2)
    exact (Schedules.request oblivious free hq fuel m.like hle vm vm' hvm).map fun _ _ _ hvs =>
      .values hvs
  | resume r args =>
    obtain ⟨r', hr⟩ := hvm.heap.total r held.1
    have hsame := strict.1 r r' hr
    subst hsame
    exact (Schedules.resume oblivious free fuel hr (hvm.heap.values strict held.2) m.like hle vm vm'
      hvm).map fun _ _ _ hexit => .exit hexit

end Errand

end ScriptVm
