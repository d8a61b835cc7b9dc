import Mathlib.Data.List.Chain
import ScriptVm.Proofs.Growth

/-!
# Looking up variables

A context remembers which ancestor owns a name, and nothing ever makes it forget.
That is harmless as long as the remembered owner is the nearest one, and so the
question is where new variables may come: in a root, in a context that owns the
name already, and in general wherever no context below has looked past that place
for the name (`Heap.Unsought`).

The contexts are a forest, with parents older than their children.  The nearest
owner is found by a walk up the forest (`nearestOwner_eq`).  A heap that has
forgotten what its contexts remember (`forget`) has the same forest and the same
variables, and that is what a lookup without any memory (`resolve`) works on.

Main statements: `Heap.Recalls.ownerOf` (a lookup finds the nearest owner and does
to the variables what a lookup without memory does), `Heap.Recalls.read_written`
(two lookups meet at the same owner), and `Heap.Recalls.declare_iff` (which
declarations keep remembered owners right).
-/

namespace ScriptVm

/-- A context that remembers nothing. -/
def Context.forget (c : Context) : Context :=
  { c with owners := .empty }

namespace Heap

variable {h h' : Heap} {c d p : Ref .context} {name m : String} {value : Value}

/-! ### Contexts of a heap -/

theorem context_modify_self (hc : h.contexts.Holds c) (f : Context → Context) :
    (h.modifyContext c f).context c = f (h.context c) :=
  Store.get_modify_self _ _ _ hc

theorem context_modify_of_ne (hne : d ≠ c) (f : Context → Context) :
    (h.modifyContext c f).context d = h.context d :=
  Store.get_modify_of_ne _ _ hne

/-- There is nothing to read behind a reference that leads nowhere. -/
theorem context_of_not_holds (hc : ¬ h.contexts.Holds c) : h.context c = default := by
  have hsize : ¬ c.index < h.contexts.cells.size := hc
  simp [context, Store.get, Array.getD, hsize]

/-- Only a context that is there has a parent. -/
theorem holds_of_parent (hp : (h.context c).parent = some p) : h.contexts.Holds c := by
  by_contra hc
  rw [context_of_not_holds hc] at hp
  cases hp

/-- A change that changes no context of the heap. -/
theorem modifyContext_eq_self {f : Context → Context}
    (hf : h.contexts.Holds c → f (h.context c) = h.context c) : h.modifyContext c f = h := by
  have hcells : h.contexts.cells.modify c.index f = h.contexts.cells := by
    apply Array.ext
    · simp
    · intro i hi hi'
      rw [Array.getElem_modify]
      split
      · next heq =>
        subst heq
        have hsame := hf hi'
        simpa [context, Store.get, Array.getD, hi'] using hsame
      · rfl
  simp only [modifyContext, Store.modify, hcells]

/-- What a change leaves alone is read as before, whether the context is there or not. -/
theorem field_modify {α : Type} (g : Context → α) {f : Context → Context}
    (hf : ∀ x, g (f x) = g x)
    (d : Ref .context) : g ((h.modifyContext c f).context d) = g (h.context d) := by
  by_cases hc : h.contexts.Holds c
  · by_cases hne : d = c
    · subst hne
      rw [context_modify_self hc, hf]
    · rw [context_modify_of_ne hne]
  · rw [modifyContext_eq_self fun hheld => absurd hheld hc]

@[simp] theorem parent_createVariable :
    ((h.createVariable c name value).context d).parent = (h.context d).parent :=
  field_modify Context.parent (f := fun x => { x with cells := x.cells.insert name value })
    (fun _ => rfl) d

@[simp] theorem owners_createVariable :
    ((h.createVariable c name value).context d).owners = (h.context d).owners :=
  field_modify Context.owners (f := fun x => { x with cells := x.cells.insert name value })
    (fun _ => rfl) d

@[simp] theorem parent_rememberOwner :
    ((h.rememberOwner c name p).context d).parent = (h.context d).parent :=
  field_modify Context.parent (f := fun x => { x with owners := x.owners.insert name p })
    (fun _ => rfl) d

@[simp] theorem cells_rememberOwner :
    ((h.rememberOwner c name p).context d).cells = (h.context d).cells :=
  field_modify Context.cells (f := fun x => { x with owners := x.owners.insert name p })
    (fun _ => rfl) d

@[simp] theorem holds_createVariable :
    (h.createVariable c name value).contexts.Holds d ↔ h.contexts.Holds d := by
  simp [Store.Holds, createVariable, modifyContext]

@[simp] theorem holds_rememberOwner :
    (h.rememberOwner c name p).contexts.Holds d ↔ h.contexts.Holds d := by
  simp [Store.Holds, rememberOwner, modifyContext]

/-! ### The forest -/

/-- **Parents are older than their children.** -/
def Forest (h : Heap) : Prop :=
  ∀ c p, (h.context c).parent = some p → p.index < c.index

theorem lineage_of_root (hp : (h.context c).parent = none) : h.lineage c = [c] := by
  rw [lineage, hp]

theorem lineage_of_child (hforest : h.Forest) (hp : (h.context c).parent = some p) :
    h.lineage c = c :: h.lineage p := by
  rw [lineage, hp]
  simp only [hforest c p hp, if_true]

/-- Induction from the root of a context down to it. -/
theorem Forest.induction {motive : Ref .context → Prop} (hforest : h.Forest)
    (root : ∀ c, (h.context c).parent = none → motive c)
    (child : ∀ c p, (h.context c).parent = some p → motive p → motive c) (c : Ref .context) :
    motive c := by
  obtain ⟨n⟩ := c
  induction n using Nat.strongRecOn with
  | _ n ih =>
    cases hp : (h.context ⟨n⟩).parent with
    | none => exact root ⟨n⟩ hp
    | some p => exact child ⟨n⟩ p hp (ih p.index (hforest ⟨n⟩ p hp))

theorem lineage_ne_nil (hforest : h.Forest) (c : Ref .context) : h.lineage c ≠ [] := by
  cases hp : (h.context c).parent with
  | none => simp [lineage_of_root hp]
  | some p => simp [lineage_of_child hforest hp]

theorem root_of_root (hp : (h.context c).parent = none) : h.root c = c := by
  simp [root, lineage_of_root hp]

theorem root_of_child (hforest : h.Forest) (hp : (h.context c).parent = some p) :
    h.root c = h.root p := by
  have hne := lineage_ne_nil hforest p
  rw [root, root, lineage_of_child hforest hp, List.getLast?_cons,
    List.getLast?_eq_some_getLast hne]
  rfl

/-- **The nearest owner** is the context itself if it owns the name or has no parent, and the
nearest owner as seen from its parent otherwise. -/
theorem nearestOwner_eq (hforest : h.Forest) (c : Ref .context) (name : String) :
    h.nearestOwner c name = if h.owns c name then c else
      match (h.context c).parent with
      | none => c
      | some p => h.nearestOwner p name := by
  unfold nearestOwner
  cases hp : (h.context c).parent with
  | none =>
    rw [lineage_of_root hp, root_of_root hp]
    by_cases howns : h.owns c name = true <;> simp [howns]
  | some p =>
    rw [lineage_of_child hforest hp, root_of_child hforest hp, List.find?_cons]
    cases h.owns c name <;> rfl

section

variable (hforest : h.Forest)
include hforest

theorem nearestOwner_self (howns : h.owns c name = true) : h.nearestOwner c name = c := by
  rw [nearestOwner_eq hforest, if_pos howns]

theorem nearestOwner_of_root (hp : (h.context c).parent = none) : h.nearestOwner c name = c := by
  rw [nearestOwner_eq hforest, hp]
  simp

theorem nearestOwner_of_child (howns : h.owns c name = false) (hp : (h.context c).parent = some p) :
    h.nearestOwner c name = h.nearestOwner p name := by
  rw [nearestOwner_eq hforest, hp, howns]
  simp

/-- The nearest owner owns the name, or is a root. -/
theorem nearestOwner_owns_or_root (c : Ref .context) (name : String) :
    h.owns (h.nearestOwner c name) name = true ∨
      (h.context (h.nearestOwner c name)).parent = none := by
  induction c using hforest.induction with
  | root c hp =>
    rw [nearestOwner_of_root hforest hp]
    exact .inr hp
  | child c p hp ih =>
    cases howns : h.owns c name with
    | true =>
      rw [nearestOwner_self hforest howns]
      exact .inl howns
    | false => rwa [nearestOwner_of_child hforest howns hp]

theorem index_nearestOwner_le (c : Ref .context) (name : String) :
    (h.nearestOwner c name).index ≤ c.index := by
  induction c using hforest.induction with
  | root c hp => rw [nearestOwner_of_root hforest hp]
  | child c p hp ih =>
    have holder := hforest c p hp
    cases howns : h.owns c name with
    | true => rw [nearestOwner_self hforest howns]
    | false =>
      rw [nearestOwner_of_child hforest howns hp]
      omega

theorem index_root_le (c : Ref .context) : (h.root c).index ≤ c.index := by
  induction c using hforest.induction with
  | root c hp => rw [root_of_root hp]
  | child c p hp ih =>
    have holder := hforest c p hp
    rw [root_of_child hforest hp]
    omega

theorem holds_nearestOwner (hc : h.contexts.Holds c) (name : String) :
    h.contexts.Holds (h.nearestOwner c name) :=
  Nat.lt_of_le_of_lt (index_nearestOwner_le hforest c name) hc

theorem holds_root (hc : h.contexts.Holds c) : h.contexts.Holds (h.root c) :=
  Nat.lt_of_le_of_lt (index_root_le hforest c) hc

/-- **The chain of a context**: it starts there, leads from parent to parent, ends at a context
without one, and comes by no context twice. -/
theorem lineage_chain (c : Ref .context) :
    (h.lineage c).head? = some c ∧
    (h.lineage c).IsChain (fun a b => (h.context a).parent = some b) ∧
    (h.lineage c).getLast? = some (h.root c) ∧
    (h.context (h.root c)).parent = none ∧
    (h.lineage c).Nodup ∧ ∀ d ∈ h.lineage c, d.index ≤ c.index := by
  induction c using hforest.induction with
  | root c hp => simp [lineage_of_root hp, root_of_root hp, hp]
  | child c p hp ih =>
    obtain ⟨hhead, hchain, hlast, hroot, hnodup, hold⟩ := ih
    have holder := hforest c p hp
    rw [lineage_of_child hforest hp, root_of_child hforest hp]
    refine ⟨rfl, ?_, ?_, hroot, ?_, ?_⟩
    · rw [List.isChain_cons]
      refine ⟨fun b hb => ?_, hchain⟩
      rw [hhead] at hb
      cases hb
      exact hp
    · rw [List.getLast?_cons, hlast]
      rfl
    · refine List.nodup_cons.mpr ⟨fun hmem => ?_, hnodup⟩
      have := hold c hmem
      omega
    · intro d hd
      rcases List.mem_cons.mp hd with rfl | hd
      · exact Nat.le_refl _
      · have := hold d hd
        omega

end

/-- The nearest owner is a matter of the contexts up to this one. -/
theorem nearestOwner_congr (hforest : h.Forest) (hforest' : h'.Forest) {name : String}
    {P : Ref .context → Prop} (hP : ∀ c p, P c → (h.context c).parent = some p → P p)
    (hparent : ∀ c, P c → (h'.context c).parent = (h.context c).parent)
    (howns : ∀ c, P c → h'.owns c name = h.owns c name) (hc : P c) :
    h'.nearestOwner c name = h.nearestOwner c name := by
  induction c using hforest.induction with
  | root c hp =>
    rw [nearestOwner_of_root hforest hp, nearestOwner_of_root hforest' ((hparent c hc).trans hp)]
  | child c p hp ih =>
    rw [nearestOwner_eq hforest, nearestOwner_eq hforest', howns c hc, hparent c hc, hp]
    split
    · rfl
    · exact ih (hP c p hc hp)

/-! ### Variables -/

theorem owns_createVariable (hc : h.contexts.Holds c) (d : Ref .context) (m : String) :
    (h.createVariable c name value).owns d m = (h.owns d m || decide (d = c ∧ m = name)) := by
  by_cases hne : d = c
  · subst hne
    simp only [owns, createVariable, context_modify_self hc, Assoc.contains]
    by_cases hm : m = name
    · subst hm
      simp
    · simp [Assoc.get?_insert_of_ne _ _ hm, hm]
  · simp only [owns, createVariable, context_modify_of_ne hne]
    simp [hne]

@[simp] theorem owns_rememberOwner : (h.rememberOwner c name p).owns d m = h.owns d m := by
  simp [owns]

/-- What a context owns it goes on owning. -/
theorem owns_createVariable_of_owns (howns : h.owns d m = true) :
    (h.createVariable c name value).owns d m = true := by
  by_cases hc : h.contexts.Holds c
  · rw [owns_createVariable hc, howns]
    rfl
  · rwa [createVariable, modifyContext_eq_self fun hheld => absurd hheld hc]

theorem owns_of_createVariable (howns : (h.createVariable c name value).owns d m = false) :
    h.owns d m = false := by
  refine Bool.eq_false_iff.mpr fun hd => ?_
  rw [owns_createVariable_of_owns hd] at howns
  cases howns

/-! ### Forgetting -/

/-- The heap in which no context remembers anything. -/
def forget (h : Heap) : Heap :=
  { h with contexts := ⟨h.contexts.cells.map Context.forget⟩ }

theorem context_forget (h : Heap) (c : Ref .context) :
    h.forget.context c = (h.context c).forget := by
  by_cases hc : c.index < h.contexts.cells.size
  · simp [forget, context, Store.get, Array.getD, hc]
  · simp [forget, context, Store.get, Array.getD, hc]
    rfl

theorem forget_modifyContext {f g : Context → Context} (hfg : ∀ x, (f x).forget = g x.forget) :
    (h.modifyContext c f).forget = h.forget.modifyContext c g := by
  simp only [forget, modifyContext, Store.modify]
  congr 2
  apply Array.ext
  · simp
  · intro i hi hi'
    simp only [Array.getElem_map, Array.getElem_modify]
    split
    · exact hfg _
    · rfl

theorem forget_createVariable :
    (h.createVariable c name value).forget = h.forget.createVariable c name value :=
  forget_modifyContext fun _ => rfl

theorem forget_rememberOwner : (h.rememberOwner c name p).forget = h.forget := by
  have hstill : h.forget.modifyContext c id = h.forget := modifyContext_eq_self fun _ => rfl
  rw [← hstill]
  exact forget_modifyContext fun _ => rfl

theorem forget_forget (h : Heap) : h.forget.forget = h.forget := by
  simp [forget, Function.comp_def, Context.forget]

section

variable (heq : h'.forget = h.forget)
include heq

theorem context_of_forget (d : Ref .context) : (h'.context d).forget = (h.context d).forget := by
  rw [← context_forget, ← context_forget, heq]

theorem parent_of_forget (d : Ref .context) : (h'.context d).parent = (h.context d).parent := by
  show (h'.context d).forget.parent = (h.context d).forget.parent
  rw [context_of_forget heq]

theorem cells_of_forget (d : Ref .context) : (h'.context d).cells = (h.context d).cells := by
  show (h'.context d).forget.cells = (h.context d).forget.cells
  rw [context_of_forget heq]

theorem owns_of_forget (d : Ref .context) (m : String) : h'.owns d m = h.owns d m := by
  rw [owns, owns, cells_of_forget heq]

theorem holds_of_forget (d : Ref .context) : h'.contexts.Holds d ↔ h.contexts.Holds d := by
  have hsize := congrArg (fun x => x.contexts.cells.size) heq
  simp only [forget, Array.size_map] at hsize
  simp only [Store.Holds, Store.size, hsize]

theorem Forest.of_forget (hforest : h.Forest) : h'.Forest := by
  intro c p hp
  rw [parent_of_forget heq] at hp
  exact hforest c p hp

theorem nearestOwner_of_forget (hforest : h.Forest) (d : Ref .context) (m : String) :
    h'.nearestOwner d m = h.nearestOwner d m :=
  nearestOwner_congr hforest (.of_forget heq hforest) (P := fun _ => True) (fun _ _ _ _ => trivial)
    (fun d _ => parent_of_forget heq d) (fun d _ => owns_of_forget heq d m) trivial

end

/-! ### Contexts above and below -/

theorem mem_lineage_self (hforest : h.Forest) (c : Ref .context) : c ∈ h.lineage c :=
  List.mem_of_mem_head? (lineage_chain hforest c).1

theorem index_le_of_mem_lineage (hforest : h.Forest) (hd : d ∈ h.lineage c) :
    d.index ≤ c.index :=
  (lineage_chain hforest c).2.2.2.2.2 d hd

/-- The chain of a context is a matter of the parents. -/
theorem lineage_congr (hforest : h.Forest) (hforest' : h'.Forest)
    (hparent : ∀ d, (h'.context d).parent = (h.context d).parent) (c : Ref .context) :
    h'.lineage c = h.lineage c := by
  induction c using hforest.induction with
  | root c hp => rw [lineage_of_root hp, lineage_of_root ((hparent c).trans hp)]
  | child c p hp ih =>
    rw [lineage_of_child hforest hp, lineage_of_child hforest' ((hparent c).trans hp), ih]

/-- A context without children is only above itself. -/
theorem eq_of_mem_lineage (hforest : h.Forest) (hchildless : ∀ d, (h.context d).parent ≠ some c)
    (hc : c ∈ h.lineage d) : d = c := by
  induction d using hforest.induction with
  | root d hp =>
    rw [lineage_of_root hp, List.mem_singleton] at hc
    exact hc.symm
  | child d p hp ih =>
    rw [lineage_of_child hforest hp] at hc
    rcases List.mem_cons.mp hc with heq | hc
    · exact heq.symm
    · rw [ih hc] at hp
      exact absurd hp (hchildless d)

/-- An owner or a root above a context is above the nearest owner as well. -/
theorem mem_lineage_nearestOwner (hforest : h.Forest)
    (hplace : h.owns c name = true ∨ (h.context c).parent = none) (hc : c ∈ h.lineage d) :
    c ∈ h.lineage (h.nearestOwner d name) := by
  induction d using hforest.induction with
  | root d hp => rwa [nearestOwner_of_root hforest hp]
  | child d p hp ih =>
    cases howns : h.owns d name with
    | true => rwa [nearestOwner_self hforest howns]
    | false =>
      rw [nearestOwner_of_child hforest howns hp]
      rw [lineage_of_child hforest hp] at hc
      rcases List.mem_cons.mp hc with rfl | hc
      · rcases hplace with hown | hroot
        · cases hown.symm.trans howns
        · cases hroot.symm.trans hp
      · exact ih hc

theorem Forest.createVariable (hforest : h.Forest) : (h.createVariable c name value).Forest := by
  intro d p hp
  rw [parent_createVariable] at hp
  exact hforest d p hp

theorem lineage_createVariable (hforest : h.Forest) (d : Ref .context) :
    (h.createVariable c name value).lineage d = h.lineage d :=
  lineage_congr hforest hforest.createVariable (fun _ => parent_createVariable) d

/-- **A new variable** does not get in the way of a context, unless it is between that context and
the nearest owner. -/
theorem nearestOwner_createVariable (hforest : h.Forest) (hc : h.contexts.Holds c)
    (hbelow : m = name → c ∈ h.lineage d → c ∈ h.lineage (h.nearestOwner d m)) :
    (h.createVariable c name value).nearestOwner d m = h.nearestOwner d m := by
  have hforest' : (h.createVariable c name value).Forest := hforest.createVariable
  induction d using hforest.induction with
  | root d hp =>
    rw [nearestOwner_of_root hforest hp,
      nearestOwner_of_root hforest' (parent_createVariable.trans hp)]
  | child d p hp ih =>
    cases howns : h.owns d m with
    | true =>
      rw [nearestOwner_self hforest howns,
        nearestOwner_self hforest' (owns_createVariable_of_owns howns)]
    | false =>
      have hup := nearestOwner_of_child hforest howns hp
      -- The nearest owner is older than this context, and so this context is not above it.
      have howns' : (h.createVariable c name value).owns d m = false := by
        rw [owns_createVariable hc, howns, Bool.false_or, decide_eq_false_iff_not]
        rintro ⟨rfl, rfl⟩
        have habove := hbelow rfl (mem_lineage_self hforest d)
        rw [hup] at habove
        have hle := index_le_of_mem_lineage hforest habove
        have hnearest := index_nearestOwner_le hforest p m
        have holder := hforest d p hp
        omega
      rw [hup, nearestOwner_of_child hforest' howns' (parent_createVariable.trans hp)]
      refine ih fun hm hmem => ?_
      rw [← hup]
      refine hbelow hm ?_
      rw [lineage_of_child hforest hp]
      exact List.mem_cons_of_mem _ hmem

/-- Variables of roots, and of contexts that own them already, get in nobody's way. -/
theorem nearestOwner_create (hforest : h.Forest) (hc : h.contexts.Holds c)
    (hplace : h.owns c name = true ∨ (h.context c).parent = none) (d : Ref .context)
    (m : String) : (h.createVariable c name value).nearestOwner d m = h.nearestOwner d m := by
  refine nearestOwner_createVariable hforest hc ?_
  rintro rfl hmem
  exact mem_lineage_nearestOwner hforest hplace hmem

/-! ### Remembered owners -/

/-- **What contexts remember is right**: if a context does not own a name itself and remembers an
owner of it, then that is the nearest one. -/
structure Recalls (h : Heap) : Prop where
  forest : h.Forest
  nearest : ∀ c name o, (h.context c).owners.get? name = some o → h.owns c name = false →
    h.nearestOwner c name = o ∧ h.owns o name = true

/-- **Nobody looks past a context for a name**: no context below it remembers an owner that is
farther up. -/
def Unsought (h : Heap) (c : Ref .context) (name : String) : Prop :=
  ∀ d o, d ≠ c → c ∈ h.lineage d → h.owns d name = false →
    (h.context d).owners.get? name = some o →
    c ∈ h.lineage o

theorem Unsought.createVariable (hforest : h.Forest) (hm : h.Unsought c m) :
    (h.createVariable d name value).Unsought c m := by
  intro e o hne hc howns ho
  rw [lineage_createVariable hforest] at hc ⊢
  rw [owners_createVariable] at ho
  exact hm e o hne hc (owns_of_createVariable howns) ho

theorem unsought_of_childless (hforest : h.Forest)
    (hchildless : ∀ d, (h.context d).parent ≠ some c) (name : String) : h.Unsought c name := by
  intro d o hne hc
  exact absurd (eq_of_mem_lineage hforest hchildless hc) hne

namespace Recalls

variable {o : Ref .context}

theorem unsought (hrecalls : h.Recalls)
    (hplace : h.owns c name = true ∨ (h.context c).parent = none) : h.Unsought c name := by
  intro d o _ hc howns ho
  rw [← (hrecalls.nearest d name o ho howns).1]
  exact mem_lineage_nearestOwner hrecalls.forest hplace hc

/-- **A variable may be made** where nobody looks past. -/
theorem create (hrecalls : h.Recalls) (hc : h.contexts.Holds c) (hunsought : h.Unsought c name) :
    (h.createVariable c name value).Recalls where
  forest := hrecalls.forest.createVariable
  nearest d m o ho howns := by
    rw [owners_createVariable] at ho
    have hbefore := owns_of_createVariable howns
    obtain ⟨hnearest, hown⟩ := hrecalls.nearest d m o ho hbefore
    refine ⟨?_, owns_createVariable_of_owns hown⟩
    rw [nearestOwner_createVariable hrecalls.forest hc, hnearest]
    rintro rfl hmem
    have hne : d ≠ c := by
      rintro rfl
      rw [owns_createVariable hc] at howns
      simp at howns
    rw [hnearest]
    exact hunsought d o hne hmem hbefore ho

/-- The nearest owner may be remembered. -/
theorem remember (hrecalls : h.Recalls) (hnearest : h.nearestOwner c name = o)
    (howns : h.owns o name = true) : (h.rememberOwner c name o).Recalls := by
  have hforget : (h.rememberOwner c name o).forget = h.forget := forget_rememberOwner
  refine ⟨.of_forget hforget hrecalls.forest, fun d m o' ho' hd => ?_⟩
  rw [nearestOwner_of_forget hforget hrecalls.forest, owns_rememberOwner]
  rw [owns_rememberOwner] at hd
  by_cases hc : h.contexts.Holds c
  · by_cases hne : d = c
    · subst hne
      rw [rememberOwner, context_modify_self hc] at ho'
      by_cases hm : m = name
      · subst hm
        rw [Assoc.get?_insert_self] at ho'
        cases ho'
        exact ⟨hnearest, howns⟩
      · rw [Assoc.get?_insert_of_ne _ _ hm] at ho'
        exact hrecalls.nearest d m o' ho' hd
    · rw [rememberOwner, context_modify_of_ne hne] at ho'
      exact hrecalls.nearest d m o' ho' hd
  · rw [rememberOwner, modifyContext_eq_self fun hheld => absurd hheld hc] at ho'
    exact hrecalls.nearest d m o' ho' hd

end Recalls

/-! ### Lookups -/

/-- The heap after a lookup without memory: the nearest owner has the variable, which is new if
nobody owned it. -/
def found (h : Heap) (c : Ref .context) (name : String) : Heap :=
  if h.owns (h.nearestOwner c name) name then h
  else h.createVariable (h.nearestOwner c name) name .nil

/-- **A lookup without memory**: the walk up to the nearest owner, which gets the variable if it
does not have it. -/
def resolve (h : Heap) (c : Ref .context) (name : String) : Ref .context × Heap :=
  if h.owns c name then (c, h)
  else
    match (h.context c).parent with
    | none => (c, h.createVariable c name .nil)
    | some p => if p.index < c.index then h.resolve p name else (c, h.createVariable c name .nil)
termination_by c.index

/-- Such a lookup comes to the nearest owner. -/
theorem resolve_eq (hforest : h.Forest) (c : Ref .context) (name : String) :
    h.resolve c name = (h.nearestOwner c name, h.found c name) := by
  induction c using hforest.induction with
  | root c hp =>
    rw [resolve, hp, Heap.found, nearestOwner_of_root hforest hp]
    split <;> rfl
  | child c p hp ih =>
    cases howns : h.owns c name with
    | true =>
      rw [resolve, if_pos howns, Heap.found, nearestOwner_self hforest howns, if_pos howns]
    | false =>
      rw [resolve, hp, howns, Heap.found, nearestOwner_of_child hforest howns hp]
      simp only [Bool.false_eq_true, if_false, hforest c p hp, if_true]
      exact ih

theorem found_forget (hforest : h.Forest) (c : Ref .context) (name : String) :
    h.forget.found c name = (h.found c name).forget := by
  have hforget : h.forget.forget = h.forget := forget_forget h
  unfold found
  rw [nearestOwner_of_forget hforget hforest, owns_of_forget hforget]
  split
  · rfl
  · exact forget_createVariable.symm

namespace Recalls

theorem found (hrecalls : h.Recalls) (hc : h.contexts.Holds c) (name : String) :
    (h.found c name).Recalls := by
  unfold Heap.found
  split
  · exact hrecalls
  · exact hrecalls.create (holds_nearestOwner hrecalls.forest hc name)
      (hrecalls.unsought (nearestOwner_owns_or_root hrecalls.forest c name))

theorem nearestOwner_found (hrecalls : h.Recalls) (hc : h.contexts.Holds c) (name : String)
    (d : Ref .context) (m : String) : (h.found c name).nearestOwner d m = h.nearestOwner d m := by
  unfold Heap.found
  split
  · rfl
  · have hforest := hrecalls.forest
    exact nearestOwner_create hforest (holds_nearestOwner hforest hc name)
      (nearestOwner_owns_or_root hforest c name) d m

theorem owns_found (hrecalls : h.Recalls) (hc : h.contexts.Holds c) (name : String) :
    (h.found c name).owns (h.nearestOwner c name) name = true := by
  unfold Heap.found
  split
  · assumption
  · rw [owns_createVariable (holds_nearestOwner hrecalls.forest hc name)]
    simp

/-- **A lookup finds the nearest owner**, and has done to the variables what a lookup without memory
does.  What it has remembered is right. -/
theorem ownerOf (hrecalls : h.Recalls) (hc : h.contexts.Holds c) (name : String) :
    (h.ownerOf c name).1 = h.nearestOwner c name ∧
    (h.ownerOf c name).2.forget = (h.found c name).forget ∧ (h.ownerOf c name).2.Recalls := by
  have hforest := hrecalls.forest
  fun_induction Heap.ownerOf h c name with
  | case1 c ctx hcells =>
    have howns : h.owns c name = true := hcells
    have hnearest := nearestOwner_self hforest howns
    refine ⟨hnearest.symm, ?_, hrecalls⟩
    rw [Heap.found, hnearest, if_pos howns]
  | case2 c ctx hcells o ho =>
    obtain ⟨hnearest, howns⟩ := hrecalls.nearest c name o ho (Bool.eq_false_iff.mpr hcells)
    refine ⟨hnearest.symm, ?_, hrecalls⟩
    rw [Heap.found, hnearest, if_pos howns]
  | case3 c ctx hcells ho hp =>
    have howns : ¬ h.owns c name = true := hcells
    have hnearest : h.nearestOwner c name = c := nearestOwner_of_root hforest hp
    refine ⟨hnearest.symm, ?_, hrecalls.create hc (hrecalls.unsought (.inr hp))⟩
    rw [Heap.found, hnearest, if_neg howns]
  | case4 c ctx hcells ho p hp holder o h' hrec ih =>
    have hheld : h.contexts.Holds p := Nat.lt_trans holder hc
    have hup : h.nearestOwner c name = h.nearestOwner p name :=
      nearestOwner_of_child hforest (Bool.eq_false_iff.mpr hcells) hp
    have hfound : h.found c name = h.found p name := by rw [Heap.found, hup, Heap.found]
    rw [hrec] at ih
    obtain ⟨rfl, hforget, hrecalls'⟩ := ih hheld
    have hthere := hrecalls.found hheld name
    refine ⟨hup.symm, ?_, hrecalls'.remember ?_ ?_⟩
    · rw [forget_rememberOwner, hfound]
      exact hforget
    · rw [nearestOwner_of_forget hforget hthere.forest, hrecalls.nearestOwner_found hheld, hup]
    · rw [owns_of_forget hforget]
      exact hrecalls.owns_found hheld name
  | case5 c ctx hcells ho p hp holder => exact absurd (hforest c p hp) holder

end Recalls

/-! ### Reading and writing -/

/-- The value of a variable as seen from a context, found without memory. -/
def readPlain (h : Heap) (c : Ref .context) (name : String) : Value × Heap :=
  let (owner, h) := h.resolve c name
  (((h.context owner).cells.get? name).getD .nil, h)

/-- The heap with a variable written as seen from a context, found without memory. -/
def writePlain (h : Heap) (c : Ref .context) (name : String) (value : Value) : Heap :=
  let (owner, h) := h.resolve c name
  h.createVariable owner name value

/-- The variable of a context under a name; one that is not there is nil. -/
def cell (h : Heap) (c : Ref .context) (name : String) : Value :=
  ((h.context c).cells.get? name).getD .nil

theorem cell_createVariable (hc : h.contexts.Holds c) (d : Ref .context) (m : String) :
    (h.createVariable c name value).cell d m
      = if d = c ∧ m = name then value else h.cell d m := by
  by_cases hne : d = c
  · subst hne
    by_cases hm : m = name
    · subst hm
      simp [Heap.cell, createVariable, context_modify_self hc]
    · simp [Heap.cell, createVariable, context_modify_self hc, Assoc.get?_insert_of_ne _ _ hm, hm]
  · simp [Heap.cell, createVariable, context_modify_of_ne hne, hne]

theorem cell_of_forget (heq : h'.forget = h.forget) (d : Ref .context) (m : String) :
    h'.cell d m = h.cell d m := by
  rw [Heap.cell, Heap.cell, cells_of_forget heq]

namespace Recalls

/-- A lookup makes no variable but one that is nil. -/
theorem cell_found (hrecalls : h.Recalls) (hc : h.contexts.Holds c) (name : String)
    (d : Ref .context) (m : String) : (h.found c name).cell d m = h.cell d m := by
  unfold Heap.found
  split
  · rfl
  · next howns =>
    rw [cell_createVariable (holds_nearestOwner hrecalls.forest hc name)]
    split
    · next heq =>
      obtain ⟨rfl, rfl⟩ := heq
      have hnone : (h.context (h.nearestOwner c m)).cells.get? m = none := by
        simpa [owns, Assoc.contains] using howns
      rw [Heap.cell, hnone]
      rfl
    · rfl

theorem ownerOf_eq_resolve (hrecalls : h.Recalls) (hc : h.contexts.Holds c) (name : String) :
    ((h.ownerOf c name).1, (h.ownerOf c name).2.forget) = h.forget.resolve c name := by
  obtain ⟨howner, hforget, -⟩ := hrecalls.ownerOf hc name
  have hplain : h.forget.Forest := .of_forget (forget_forget h) hrecalls.forest
  rw [resolve_eq hplain, nearestOwner_of_forget (forget_forget h) hrecalls.forest,
    found_forget hrecalls.forest, howner, hforget]

/-- **A read** gives what a read without memory gives. -/
theorem readVariable (hrecalls : h.Recalls) (hc : h.contexts.Holds c) (name : String) :
    ((h.readVariable c name).1, (h.readVariable c name).2.forget) = h.forget.readPlain c name := by
  rw [readPlain, ← hrecalls.ownerOf_eq_resolve hc name]
  refine Prod.ext ?_ rfl
  exact (cell_of_forget (forget_forget _) _ _).symm

/-- **A write** changes what a write without memory changes. -/
theorem writeVariable (hrecalls : h.Recalls) (hc : h.contexts.Holds c) (name : String)
    (value : Value) : (h.writeVariable c name value).forget = h.forget.writePlain c name value := by
  rw [writePlain, ← hrecalls.ownerOf_eq_resolve hc name]
  exact forget_createVariable

/-- What a read gives is the nearest variable. -/
theorem readVariable_fst (hrecalls : h.Recalls) (hc : h.contexts.Holds c) (name : String) :
    (h.readVariable c name).1 = h.cell (h.nearestOwner c name) name := by
  obtain ⟨howner, hforget, -⟩ := hrecalls.ownerOf hc name
  have hread : (h.readVariable c name).1 = (h.ownerOf c name).2.cell (h.ownerOf c name).1 name :=
    rfl
  rw [hread, howner, cell_of_forget hforget, hrecalls.cell_found hc]

/-- After a lookup the nearest owners are the same. -/
theorem nearestOwner_ownerOf (hrecalls : h.Recalls) (hc : h.contexts.Holds c) (name : String)
    (d : Ref .context) (m : String) :
    (h.ownerOf c name).2.nearestOwner d m = h.nearestOwner d m := by
  rw [nearestOwner_of_forget (hrecalls.ownerOf hc name).2.1 (hrecalls.found hc name).forest,
    hrecalls.nearestOwner_found hc]

theorem holds_ownerOf (hrecalls : h.Recalls) (hc : h.contexts.Holds c) (name : String)
    (d : Ref .context) : (h.ownerOf c name).2.contexts.Holds d ↔ h.contexts.Holds d := by
  rw [holds_of_forget (hrecalls.ownerOf hc name).2.1, Heap.found]
  split
  · rfl
  · exact holds_createVariable

/-- The variable that is written is at the nearest owner, which has it. -/
theorem writes (hrecalls : h.Recalls) (hc : h.contexts.Holds c) (name : String) (value : Value) :
    let H := (h.ownerOf c name).2
    H.Recalls ∧ H.contexts.Holds (h.nearestOwner c name) ∧
      H.owns (h.nearestOwner c name) name = true ∧
      h.writeVariable c name value = H.createVariable (h.nearestOwner c name) name value := by
  intro H
  obtain ⟨howner, hforget, hrecalls'⟩ := hrecalls.ownerOf hc name
  refine ⟨hrecalls', ?_, ?_, ?_⟩
  · exact (hrecalls.holds_ownerOf hc name _).mpr (holds_nearestOwner hrecalls.forest hc name)
  · rw [owns_of_forget hforget]
    exact hrecalls.owns_found hc name
  · rw [← howner]
    rfl

/-- After a write too, what is remembered is right, and the nearest owners are the same. -/
theorem written (hrecalls : h.Recalls) (hc : h.contexts.Holds c) (name : String) (value : Value) :
    (h.writeVariable c name value).Recalls ∧
      ∀ d m, (h.writeVariable c name value).nearestOwner d m = h.nearestOwner d m := by
  obtain ⟨hrecalls', hheld, howns, hwrite⟩ := hrecalls.writes hc name value
  rw [hwrite]
  refine ⟨hrecalls'.create hheld (hrecalls'.unsought (.inl howns)), fun d m => ?_⟩
  rw [nearestOwner_create hrecalls'.forest hheld (.inl howns), hrecalls.nearestOwner_ownerOf hc]

/-- **A read after a write** of the same name gives what was written exactly if the two see the same
owner. -/
theorem read_written (hrecalls : h.Recalls) (hc : h.contexts.Holds c) (hd : h.contexts.Holds d)
    (name : String) (value : Value) :
    ((h.writeVariable c name value).readVariable d name).1
      = if h.nearestOwner d name = h.nearestOwner c name then value
        else (h.readVariable d name).1 := by
  obtain ⟨-, hheld, -, hwrite⟩ := hrecalls.writes hc name value
  obtain ⟨hrecalls', hnearest⟩ := hrecalls.written hc name value
  have hd' : (h.writeVariable c name value).contexts.Holds d := by
    rw [hwrite]
    exact holds_createVariable.mpr ((hrecalls.holds_ownerOf hc name d).mpr hd)
  rw [hrecalls'.readVariable_fst hd', hnearest, hwrite, cell_createVariable hheld,
    hrecalls.readVariable_fst hd, cell_of_forget (hrecalls.ownerOf hc name).2.1,
    hrecalls.cell_found hc]
  simp

end Recalls

/-! ### New contexts -/

theorem context_newContext_self (h : Heap) (parent : Option (Ref .context)) :
    (h.newContext parent).2.context (h.newContext parent).1 = ⟨parent, .empty, .empty⟩ :=
  Store.get_add_self _ _

theorem context_newContext_of_ne {parent : Option (Ref .context)}
    (hne : d ≠ (h.newContext parent).1) : (h.newContext parent).2.context d = h.context d := by
  have hindex : d.index ≠ h.contexts.cells.size := fun heq => hne (by cases d; cases heq; rfl)
  simp [context, newContext, Store.get, Store.add, Array.getD_eq_getD_getElem?, Array.getElem?_push,
    hindex]

theorem holds_newContext {parent : Option (Ref .context)} (hd : h.contexts.Holds d) :
    (h.newContext parent).2.contexts.Holds d := by
  have hd' : d.index < h.contexts.cells.size := hd
  simp only [Store.Holds, Store.size, newContext, Store.add, Array.size_push]
  omega

theorem holds_newContext_self (h : Heap) (parent : Option (Ref .context)) :
    (h.newContext parent).2.contexts.Holds (h.newContext parent).1 := by
  simp [Store.Holds, Store.size, newContext, Store.add]

/-- **A new context**, with a parent that is there, changes nothing for the others, and has no
children. -/
theorem Recalls.newContext (hrecalls : h.Recalls) {parent : Option (Ref .context)}
    (hparent : ∀ p, parent = some p → h.contexts.Holds p) :
    (h.newContext parent).2.Recalls ∧
      ∀ d, ((h.newContext parent).2.context d).parent ≠ some (h.newContext parent).1 := by
  let fresh := (h.newContext parent).1
  have hout : ¬ h.contexts.Holds fresh := Nat.lt_irrefl _
  have hself : (h.newContext parent).2.context fresh = ⟨parent, .empty, .empty⟩ :=
    h.context_newContext_self parent
  have hchildless (d : Ref .context) : (h.context d).parent ≠ some fresh := by
    intro hp
    have holder := hrecalls.forest d fresh hp
    exact hout (Nat.lt_trans holder (holds_of_parent hp))
  have hforest' : (h.newContext parent).2.Forest := by
    intro d p hp
    by_cases hne : d = fresh
    · rw [hne, hself] at hp
      rw [hne]
      exact hparent p hp
    · rw [context_newContext_of_ne hne] at hp
      exact hrecalls.forest d p hp
  have howns (d : Ref .context) (m : String) (hne : d ≠ fresh) :
      (h.newContext parent).2.owns d m = h.owns d m := by
    rw [owns, owns, context_newContext_of_ne hne]
  refine ⟨⟨hforest', fun d m o ho hd => ?_⟩, fun d hp => ?_⟩
  · by_cases hne : d = fresh
    · rw [hne, hself] at ho
      cases ho
    · rw [context_newContext_of_ne hne] at ho
      rw [howns d m hne] at hd
      obtain ⟨hnearest, hown⟩ := hrecalls.nearest d m o ho hd
      constructor
      · rw [← hnearest]
        exact nearestOwner_congr hrecalls.forest hforest' (P := (· ≠ fresh))
          (fun d p _ hp heq => hchildless d (heq ▸ hp))
          (fun d hne => by rw [context_newContext_of_ne hne]) (fun d hne => howns d m hne) hne
      · have hthere : o ≠ fresh := by
          intro heq
          rw [heq, owns, context_of_not_holds hout] at hown
          cases hown
        rw [howns o m hthere, hown]
  · by_cases hne : d = fresh
    · rw [hne, hself] at hp
      exact hout (hparent fresh hp)
    · rw [context_newContext_of_ne hne] at hp
      exact hchildless d hp

/-! ### Declarations -/

section

variable (h)

@[simp] theorem parent_declareVariables (c d : Ref .context) (names : List String) :
    ((h.declareVariables c names).context d).parent = (h.context d).parent := by
  unfold declareVariables
  induction names generalizing h with
  | nil => rfl
  | cons name names ih =>
    rw [List.foldl_cons, ih]
    split
    · rfl
    · exact parent_createVariable

@[simp] theorem owners_declareVariables (c d : Ref .context) (names : List String) :
    ((h.declareVariables c names).context d).owners = (h.context d).owners := by
  unfold declareVariables
  induction names generalizing h with
  | nil => rfl
  | cons name names ih =>
    rw [List.foldl_cons, ih]
    split
    · rfl
    · exact owners_createVariable

@[simp] theorem holds_declareVariables (c d : Ref .context) (names : List String) :
    (h.declareVariables c names).contexts.Holds d ↔ h.contexts.Holds d := by
  unfold declareVariables
  induction names generalizing h with
  | nil => rfl
  | cons name names ih =>
    rw [List.foldl_cons, ih]
    split
    · rfl
    · exact holds_createVariable

end

theorem owns_declareVariables (hc : h.contexts.Holds c) (d : Ref .context) (m : String)
    (names : List String) : (h.declareVariables c names).owns d m = true ↔
      h.owns d m = true ∨ (d = c ∧ m ∈ names) := by
  unfold declareVariables
  induction names generalizing h with
  | nil => simp
  | cons name names ih =>
    rw [List.foldl_cons]
    split
    · next howns =>
      rw [ih hc, List.mem_cons]
      grind
    · rw [ih (holds_createVariable.mpr hc), owns_createVariable hc, List.mem_cons]
      grind

namespace Recalls

/-- **Declarations keep what is remembered right** exactly where nobody looks past them. -/
theorem declare_iff (hrecalls : h.Recalls) (hc : h.contexts.Holds c) (names : List String) :
    (h.declareVariables c names).Recalls ↔ ∀ m ∈ names, h.Unsought c m := by
  constructor
  · intro hdeclared m hm d o hne hmem howns ho
    have hforest := hrecalls.forest
    have hlineage := lineage_congr hforest hdeclared.forest (h.parent_declareVariables c · names)
    have howns' : (h.declareVariables c names).owns d m = false := by
      refine Bool.eq_false_iff.mpr fun hd => ?_
      rcases (owns_declareVariables hc d m names).mp hd with hd | ⟨heq, -⟩
      · cases hd.symm.trans howns
      · exact hne heq
    rw [← h.owners_declareVariables c d names] at ho
    rw [← hlineage] at hmem
    rw [← hlineage, ← (hdeclared.nearest d m o ho howns').1]
    have hown := (owns_declareVariables hc c m names).mpr (.inr ⟨rfl, hm⟩)
    exact mem_lineage_nearestOwner hdeclared.forest (.inl hown) hmem
  · intro hunsought
    unfold declareVariables
    induction names generalizing h with
    | nil => exact hrecalls
    | cons name names ih =>
      have hrest : ∀ m ∈ names, h.Unsought c m := fun m hm =>
        hunsought m (List.mem_cons_of_mem _ hm)
      rw [List.foldl_cons]
      split
      · exact ih hrecalls hc hrest
      · exact ih (hrecalls.create hc (hunsought name List.mem_cons_self))
          (holds_createVariable.mpr hc) fun m hm => (hrest m hm).createVariable hrecalls.forest

end Recalls

end Heap

end ScriptVm
