import ScriptVm.Proofs.Lookup

/-!
# What contexts remember, right or wrong

A variable may come to a context after others have looked past that context for it.
What these remember is not the nearest owner any more, but it is not arbitrary
either.  An owner is remembered all the way down: if a context remembers one, then
its parent is that owner or remembers it too (`Heap.Traced`).  Nothing that is
remembered is ever forgotten, no variable ever goes away, and below a context that
owns a name nothing else is remembered anew (`Heap.Evolves`).

So it is decided for good when a variable comes to a context who sees it: those on
whose way to that context nobody remembers another owner (`Heap.Sees`).

Main statements: `Heap.Traced.ownerOf` (a lookup keeps all that),
`Heap.Traced.sees_near` and `Heap.Traced.sees_past` (who sees a variable), and
`Heap.Evolves.near_iff` (that it stays so).
-/

namespace ScriptVm.Heap

variable {h h' h'' : Heap} {c d e p o : Ref .context} {name m : String} {value : Value}

/-- The owner of a name that a context remembers. -/
def remembered (h : Heap) (c : Ref .context) (name : String) : Option (Ref .context) :=
  (h.context c).owners.get? name

@[simp] theorem remembered_createVariable :
    (h.createVariable c name value).remembered d m = h.remembered d m := by
  rw [remembered, remembered, owners_createVariable]

theorem remembered_rememberOwner_self (hc : h.contexts.Holds c) :
    (h.rememberOwner c name o).remembered c name = some o := by
  rw [remembered, rememberOwner, context_modify_self hc]
  exact Assoc.get?_insert_self _ _ _

theorem remembered_rememberOwner_of_ne (hne : d = c → m ≠ name) :
    (h.rememberOwner c name o).remembered d m = h.remembered d m := by
  by_cases hc : h.contexts.Holds c
  · by_cases hd : d = c
    · subst hd
      rw [remembered, remembered, rememberOwner, context_modify_self hc]
      exact Assoc.get?_insert_of_ne _ _ (hne rfl)
    · rw [remembered, remembered, rememberOwner, context_modify_of_ne hd]
  · rw [rememberOwner, modifyContext_eq_self fun hheld => absurd hheld hc]

/-- Only a context that is there remembers anything. -/
theorem holds_of_remembered (ho : h.remembered c name = some o) : h.contexts.Holds c := by
  by_contra hc
  rw [remembered, context_of_not_holds hc] at ho
  cases ho

/-- Only a context that is there owns anything. -/
theorem holds_of_owns (howns : h.owns c name = true) : h.contexts.Holds c := by
  by_contra hc
  rw [owns, context_of_not_holds hc] at howns
  cases howns

/-! ### Remembered all the way down -/

/-- **A remembered owner owns the name, and is the parent or remembered by it.** -/
structure Traced (h : Heap) : Prop where
  forest : h.Forest
  trace : ∀ c name o, h.remembered c name = some o → h.owns o name = true ∧
    ∃ p, (h.context c).parent = some p ∧ (o = p ∨ h.remembered p name = some o)

/-- **What never changes about contexts**: those that are there keep their parents, their variables
and what they remember; and a context whose parent owned a name has come to remember no other
owner. -/
structure Evolves (h h' : Heap) : Prop where
  holds : ∀ d, h.contexts.Holds d → h'.contexts.Holds d
  parent : ∀ d, h.contexts.Holds d → (h'.context d).parent = (h.context d).parent
  owns : ∀ d m, h.owns d m = true → h'.owns d m = true
  remembered : ∀ d m o, h.remembered d m = some o → h'.remembered d m = some o
  anew : ∀ d p m o, (h'.context d).parent = some p → h.owns p m = true →
    h'.remembered d m = some o → o = p ∨ h.remembered d m = some o

namespace Evolves

theorem refl (h : Heap) : h.Evolves h where
  holds _ hd := hd
  parent _ _ := rfl
  owns _ _ howns := howns
  remembered _ _ _ ho := ho
  anew _ _ _ _ _ _ ho := .inr ho

theorem trans (first : h.Evolves h') (second : h'.Evolves h'') : h.Evolves h'' where
  holds d hd := second.holds d (first.holds d hd)
  parent d hd := (second.parent d (first.holds d hd)).trans (first.parent d hd)
  owns d m howns := second.owns d m (first.owns d m howns)
  remembered d m o ho := second.remembered d m o (first.remembered d m o ho)
  anew d p m o hp howns ho := by
    rcases second.anew d p m o hp (first.owns p m howns) ho with heq | ho'
    · exact .inl heq
    · have hparent := second.parent d (holds_of_remembered ho')
      exact first.anew d p m o (hparent.symm.trans hp) howns ho'

/-- The contexts are as they were. -/
theorem of_contexts_eq (heq : h'.contexts = h.contexts) : h.Evolves h' := by
  have hcontext (d : Ref .context) : h'.context d = h.context d := by rw [context, context, heq]
  have howns (d : Ref .context) (m : String) : h'.owns d m = h.owns d m := by
    rw [Heap.owns, Heap.owns, hcontext]
  have hremembered (d : Ref .context) (m : String) : h'.remembered d m = h.remembered d m := by
    rw [Heap.remembered, Heap.remembered, hcontext]
  constructor
  · intro d hd
    rwa [heq]
  · intro d _
    rw [hcontext]
  · intro d m hd
    rwa [howns]
  · intro d m o ho
    rwa [hremembered]
  · intro d p m o _ _ ho
    rw [hremembered] at ho
    exact .inr ho

/-- Nothing but variables has changed. -/
theorem of_variables (hholds : ∀ d, h'.contexts.Holds d ↔ h.contexts.Holds d)
    (hparent : ∀ d, (h'.context d).parent = (h.context d).parent)
    (howners : ∀ d, (h'.context d).owners = (h.context d).owners)
    (howns : ∀ d m, h.owns d m = true → h'.owns d m = true) : h.Evolves h' where
  holds d hd := (hholds d).mpr hd
  parent d _ := hparent d
  owns := howns
  remembered d m o ho := by
    rw [Heap.remembered, howners]
    exact ho
  anew d p m o _ _ ho := by
    rw [Heap.remembered, howners] at ho
    exact .inr ho

theorem createVariable (h : Heap) (c : Ref .context) (name : String) (value : Value) :
    h.Evolves (h.createVariable c name value) :=
  .of_variables (fun _ => holds_createVariable) (fun _ => parent_createVariable)
    (fun _ => owners_createVariable) fun _ _ => owns_createVariable_of_owns

theorem declareVariables (h : Heap) (hc : h.contexts.Holds c) (names : List String) :
    h.Evolves (h.declareVariables c names) :=
  .of_variables (h.holds_declareVariables c · names) (h.parent_declareVariables c · names)
    (h.owners_declareVariables c · names)
    fun d m howns => (owns_declareVariables hc d m names).mpr (.inl howns)

theorem newContext (h : Heap) (parent : Option (Ref .context)) :
    h.Evolves (h.newContext parent).2 := by
  let fresh := (h.newContext parent).1
  have hself : (h.newContext parent).2.context fresh = ⟨parent, .empty, .empty⟩ :=
    h.context_newContext_self parent
  have hold (d : Ref .context) (hd : h.contexts.Holds d) :
      (h.newContext parent).2.context d = h.context d := by
    refine context_newContext_of_ne fun heq => ?_
    rw [heq] at hd
    exact absurd hd (Nat.lt_irrefl _)
  constructor
  · intro d hd
    exact holds_newContext hd
  · intro d hd
    rw [hold d hd]
  · intro d m howns
    rw [Heap.owns, hold d (holds_of_owns howns)]
    exact howns
  · intro d m o ho
    rw [Heap.remembered, hold d (holds_of_remembered ho)]
    exact ho
  · intro d p m o _ _ ho
    right
    by_cases hd : d = fresh
    · rw [Heap.remembered, hd, hself] at ho
      cases ho
    · rw [Heap.remembered, context_newContext_of_ne hd] at ho
      exact ho

/-- A context remembers an owner that it did not remember yet: its parent, if that owned the
name. -/
theorem rememberOwner (hevolves : h.Evolves h') (hp : (h'.context c).parent = some p)
    (hnone : h'.remembered c name = none) (hparent : h.owns p name = true → o = p) :
    h.Evolves (h'.rememberOwner c name o) where
  holds d hd := holds_rememberOwner.mpr (hevolves.holds d hd)
  parent d hd := parent_rememberOwner.trans (hevolves.parent d hd)
  owns d m howns := owns_rememberOwner.trans (hevolves.owns d m howns)
  remembered d m o' ho' := by
    have hbefore := hevolves.remembered d m o' ho'
    rwa [remembered_rememberOwner_of_ne]
    rintro rfl rfl
    cases hnone.symm.trans hbefore
  anew d q m o' hq howns ho' := by
    rw [parent_rememberOwner] at hq
    by_cases hsame : d = c ∧ m = name
    · obtain ⟨rfl, rfl⟩ := hsame
      rw [remembered_rememberOwner_self (holds_of_parent hp)] at ho'
      cases ho'
      cases hp.symm.trans hq
      exact .inl (hparent howns)
    · rw [remembered_rememberOwner_of_ne fun hd hm => hsame ⟨hd, hm⟩] at ho'
      exact hevolves.anew d q m o' hq howns ho'

end Evolves

namespace Traced

theorem of_variables (htraced : h.Traced)
    (hparent : ∀ d, (h'.context d).parent = (h.context d).parent)
    (howners : ∀ d, (h'.context d).owners = (h.context d).owners)
    (howns : ∀ d m, h.owns d m = true → h'.owns d m = true) : h'.Traced where
  forest := by
    intro d p hp
    rw [hparent] at hp
    exact htraced.forest d p hp
  trace d m o ho := by
    simp only [Heap.remembered, howners] at ho
    obtain ⟨hown, p, hp, htrace⟩ := htraced.trace d m o ho
    refine ⟨howns o m hown, p, (hparent d).trans hp, ?_⟩
    simp only [Heap.remembered, howners]
    exact htrace

theorem of_contexts_eq (htraced : h.Traced) (heq : h'.contexts = h.contexts) : h'.Traced := by
  have hcontext (d : Ref .context) : h'.context d = h.context d := by rw [context, context, heq]
  refine htraced.of_variables (fun d => by rw [hcontext]) (fun d => by rw [hcontext]) ?_
  intro d m howns
  rwa [owns, hcontext]

theorem createVariable (htraced : h.Traced) : (h.createVariable c name value).Traced :=
  htraced.of_variables (fun _ => parent_createVariable) (fun _ => owners_createVariable)
    fun _ _ => owns_createVariable_of_owns

theorem declareVariables (htraced : h.Traced) (hc : h.contexts.Holds c) (names : List String) :
    (h.declareVariables c names).Traced :=
  htraced.of_variables (h.parent_declareVariables c · names) (h.owners_declareVariables c · names)
    fun d m howns => (owns_declareVariables hc d m names).mpr (.inl howns)

theorem newContext (htraced : h.Traced) {parent : Option (Ref .context)}
    (hparent : ∀ p, parent = some p → h.contexts.Holds p) : (h.newContext parent).2.Traced := by
  let fresh := (h.newContext parent).1
  have hself : (h.newContext parent).2.context fresh = ⟨parent, .empty, .empty⟩ :=
    h.context_newContext_self parent
  have hevolves := Evolves.newContext h parent
  constructor
  · intro d p hp
    by_cases hd : d = fresh
    · rw [hd, hself] at hp
      rw [hd]
      exact hparent p hp
    · rw [context_newContext_of_ne hd] at hp
      exact htraced.forest d p hp
  · intro d m o ho
    have hd : d ≠ fresh := by
      rintro rfl
      rw [remembered, hself] at ho
      cases ho
    rw [remembered, context_newContext_of_ne hd] at ho
    obtain ⟨hown, p, hp, htrace⟩ := htraced.trace d m o ho
    refine ⟨hevolves.owns o m hown, p, (context_newContext_of_ne hd).symm ▸ hp, ?_⟩
    exact htrace.imp_right (hevolves.remembered p m o)

theorem rememberOwner (htraced : h.Traced) (hp : (h.context c).parent = some p)
    (hnone : h.remembered c name = none) (howns : h.owns o name = true)
    (htrace : o = p ∨ h.remembered p name = some o) : (h.rememberOwner c name o).Traced where
  forest := by
    intro d q hq
    rw [parent_rememberOwner] at hq
    exact htraced.forest d q hq
  trace d m o' ho' := by
    have hkept {q : Ref .context} {o o₁ : Ref .context} (ho : h.remembered q m = some o) :
        (h.rememberOwner c name o₁).remembered q m = some o := by
      rwa [remembered_rememberOwner_of_ne]
      rintro rfl rfl
      cases hnone.symm.trans ho
    rw [owns_rememberOwner, parent_rememberOwner]
    by_cases hsame : d = c ∧ m = name
    · obtain ⟨rfl, rfl⟩ := hsame
      rw [remembered_rememberOwner_self (holds_of_parent hp)] at ho'
      cases ho'
      exact ⟨howns, p, hp, htrace.imp_right hkept⟩
    · rw [remembered_rememberOwner_of_ne fun hd hm => hsame ⟨hd, hm⟩] at ho'
      obtain ⟨hown, q, hq, htrace'⟩ := htraced.trace d m o' ho'
      exact ⟨hown, q, hq, htrace'.imp_right hkept⟩

/-! ### Lookups -/

/-- **What a lookup does**, whatever is remembered. -/
structure Answers (h : Heap) (c : Ref .context) (name : String) (found : Ref .context × Heap) :
    Prop where
  traced : found.2.Traced
  evolves : h.Evolves found.2
  holds : ∀ d, found.2.contexts.Holds d ↔ h.contexts.Holds d
  parent : ∀ d, (found.2.context d).parent = (h.context d).parent
  owns : found.2.owns found.1 name = true
  /-- Nothing is owned anew, unless it is the variable that was looked for. -/
  fresh : ∀ d m, found.2.owns d m = true → h.owns d m = true ∨ (d = found.1 ∧ m = name)
  trace : found.1 = c ∨ found.2.remembered c name = some found.1
  /-- A context that owns the name answers for itself. -/
  self : h.owns c name = true → found.1 = c
  /-- Contexts that are younger are left alone. -/
  younger : ∀ d, c.index < d.index → found.2.context d = h.context d
  /-- New variables are nil. -/
  cells : ∀ d m, found.2.cell d m = h.cell d m

namespace Answers

/-- A context that owns the name, or remembers its owner. -/
theorem found (htraced : h.Traced) {name : String} {o : Ref .context} (hown : h.owns o name = true)
    (htrace : o = c ∨ h.remembered c name = some o) (hself : h.owns c name = true → o = c) :
    Answers h c name (o, h) where
  traced := htraced
  evolves := .refl h
  holds _ := .rfl
  parent _ := rfl
  owns := hown
  fresh _ _ := .inl
  trace := htrace
  self := hself
  younger _ _ := rfl
  cells _ _ := rfl

/-- A root that does not own the name gets the variable. -/
theorem create (htraced : h.Traced) (hc : h.contexts.Holds c) {name : String}
    (hnone : (h.context c).cells.contains name = false) :
    Answers h c name (c, h.createVariable c name .nil) where
  traced := htraced.createVariable
  evolves := .createVariable h c name .nil
  holds _ := holds_createVariable
  parent _ := parent_createVariable
  owns := by
    rw [owns_createVariable hc]
    simp
  fresh d m howns := by
    rw [owns_createVariable hc, Bool.or_eq_true, decide_eq_true_iff] at howns
    exact howns
  trace := .inl rfl
  self _ := rfl
  younger d hd := by
    refine context_modify_of_ne ?_ _
    rintro rfl
    exact Nat.lt_irrefl _ hd
  cells d m := by
    rw [cell_createVariable hc]
    split
    · next heq =>
      obtain ⟨rfl, rfl⟩ := heq
      have hcell : (h.context d).cells.get? m = none := by simpa [Assoc.contains] using hnone
      rw [cell, hcell]
      rfl
    · rfl

/-- What the parent has found is remembered. -/
theorem remember {p o : Ref .context} {name : String} {h' : Heap}
    (hanswers : Answers h p name (o, h'))
    (hc : h.contexts.Holds c) (hp : (h.context c).parent = some p) (holder : p.index < c.index)
    (hcells : ¬ h.owns c name = true) (hnone : h.remembered c name = none) :
    Answers h c name (o, h'.rememberOwner c name o) := by
  have hcontext : h'.context c = h.context c := hanswers.younger c holder
  have hp' : (h'.context c).parent = some p := by rw [hcontext]; exact hp
  have hnone' : h'.remembered c name = none := by rw [remembered, hcontext]; exact hnone
  constructor
  case traced => exact hanswers.traced.rememberOwner hp' hnone' hanswers.owns hanswers.trace
  case evolves => exact hanswers.evolves.rememberOwner hp' hnone' hanswers.self
  case holds => exact fun d => holds_rememberOwner.trans (hanswers.holds d)
  case parent => exact fun d => parent_rememberOwner.trans (hanswers.parent d)
  case owns =>
    rw [owns_rememberOwner]
    exact hanswers.owns
  case fresh =>
    intro d m howns
    rw [owns_rememberOwner] at howns
    exact hanswers.fresh d m howns
  case trace => exact .inr (remembered_rememberOwner_self ((hanswers.holds c).mpr hc))
  case self => exact fun howns => absurd howns hcells
  case younger =>
    intro d hd
    have hne : d ≠ c := by
      rintro rfl
      exact Nat.lt_irrefl _ hd
    exact (context_modify_of_ne hne _).trans (hanswers.younger d (Nat.lt_trans holder hd))
  case cells =>
    intro d m
    rw [cell, cells_rememberOwner]
    exact hanswers.cells d m

end Answers

/-- **A lookup** keeps what is remembered traceable. -/
theorem ownerOf (htraced : h.Traced) (hc : h.contexts.Holds c) (name : String) :
    Answers h c name (h.ownerOf c name) := by
  have hforest := htraced.forest
  fun_induction Heap.ownerOf h c name with
  | case1 c ctx hcells => exact .found htraced hcells (.inl rfl) fun _ => rfl
  | case2 c ctx hcells o ho =>
    exact .found htraced (htraced.trace c name o ho).1 (.inr ho) fun howns => absurd howns hcells
  | case3 c ctx hcells ho hp => exact .create htraced hc (Bool.eq_false_iff.mpr hcells)
  | case4 c ctx hcells ho p hp holder o h' hrec ih =>
    have hanswers := ih (Nat.lt_trans holder hc)
    rw [hrec] at hanswers
    exact hanswers.remember hc hp holder hcells ho
  | case5 c ctx hcells ho p hp holder => exact absurd (hforest c p hp) holder

/-- A write too. -/
theorem writeVariable (htraced : h.Traced) (hc : h.contexts.Holds c) (name : String)
    (value : Value) :
    (h.writeVariable c name value).Traced ∧ h.Evolves (h.writeVariable c name value) := by
  have hanswers := htraced.ownerOf hc name
  have hmade := Evolves.createVariable (h.ownerOf c name).2 (h.ownerOf c name).1 name value
  exact ⟨hanswers.traced.createVariable, hanswers.evolves.trans hmade⟩

end Traced

/-! ### Between two contexts -/

/-- The contexts on the way from a context up to another one, without the upper one. -/
def Between (h : Heap) (d c e : Ref .context) : Prop :=
  e ∈ h.lineage d ∧ c ∈ h.lineage e ∧ e ≠ c

section

variable (hforest : h.Forest)
include hforest

theorem mem_lineage_trans (hde : e ∈ h.lineage d) (hec : c ∈ h.lineage e) :
    c ∈ h.lineage d := by
  induction d using hforest.induction with
  | root d hp =>
    rw [lineage_of_root hp, List.mem_singleton] at hde
    rwa [← hde]
  | child d p hp ih =>
    rw [lineage_of_child hforest hp] at hde ⊢
    rcases List.mem_cons.mp hde with rfl | hde
    · rwa [lineage_of_child hforest hp] at hec
    · exact List.mem_cons_of_mem _ (ih hde)

/-- Two contexts that are above each other are the same. -/
theorem eq_of_mem_lineage_of_mem (hcd : d ∈ h.lineage c) (hdc : c ∈ h.lineage d) : c = d := by
  have hle := index_le_of_mem_lineage hforest hcd
  have hge := index_le_of_mem_lineage hforest hdc
  obtain ⟨i⟩ := c
  obtain ⟨j⟩ := d
  simp only [Ref.mk.injEq]
  simp only at hle hge
  omega

/-- A context below another one has a parent that is so too. -/
theorem parent_of_below (hc : c ∈ h.lineage d) (hne : d ≠ c) :
    ∃ p, (h.context d).parent = some p ∧ c ∈ h.lineage p := by
  cases hp : (h.context d).parent with
  | none =>
    rw [lineage_of_root hp, List.mem_singleton] at hc
    exact absurd hc.symm hne
  | some p =>
    rw [lineage_of_child hforest hp] at hc
    rcases List.mem_cons.mp hc with heq | hc
    · exact absurd heq.symm hne
    · exact ⟨p, rfl, hc⟩

theorem Between.of_parent (hp : (h.context d).parent = some p) (hbetween : h.Between p c e) :
    h.Between d c e := by
  obtain ⟨hmem, hbelow⟩ := hbetween
  refine ⟨?_, hbelow⟩
  rw [lineage_of_child hforest hp]
  exact List.mem_cons_of_mem _ hmem

/-- The last context before the upper one. -/
theorem exists_child (hc : c ∈ h.lineage d) (hne : d ≠ c) :
    ∃ t, h.Between d c t ∧ (h.context t).parent = some c := by
  induction d using hforest.induction with
  | root d hp =>
    rw [lineage_of_root hp, List.mem_singleton] at hc
    exact absurd hc.symm hne
  | child d p hp ih =>
    obtain ⟨q, hq, hup⟩ := parent_of_below hforest hc hne
    cases hp.symm.trans hq
    by_cases heq : p = c
    · subst heq
      exact ⟨d, ⟨mem_lineage_self hforest d, hc, hne⟩, hp⟩
    · obtain ⟨t, hbetween, ht⟩ := ih hup heq
      exact ⟨t, hbetween.of_parent hforest hp, ht⟩

end

/-- **A remembered owner is on the way, or is remembered all along it.** -/
theorem Traced.along (htraced : h.Traced) (he : e ∈ h.lineage d)
    (ho : h.remembered d name = some o) :
    (o ∈ h.lineage d ∧ e ∈ h.lineage o) ∨ h.remembered e name = some o := by
  have hforest := htraced.forest
  induction d using hforest.induction with
  | root d hp =>
    obtain ⟨-, p, hp', -⟩ := htraced.trace d name o ho
    cases hp.symm.trans hp'
  | child d p hp ih =>
    obtain ⟨-, q, hq, htrace⟩ := htraced.trace d name o ho
    cases hp.symm.trans hq
    by_cases hself : e = d
    · subst hself
      exact .inr ho
    rw [lineage_of_child hforest hp] at he ⊢
    have hup : e ∈ h.lineage p := (List.mem_cons.mp he).resolve_left hself
    rcases htrace with rfl | ho'
    · exact .inl ⟨List.mem_cons_of_mem _ (mem_lineage_self hforest o), hup⟩
    · rcases ih hup ho' with ⟨hmem, hbelow⟩ | hthere
      · exact .inl ⟨List.mem_cons_of_mem _ hmem, hbelow⟩
      · exact .inr hthere

/-! ### Who sees a variable -/

/-- **A context sees a variable of another one**: the lookups from there come to it. -/
structure Sees (h : Heap) (d : Ref .context) (name : String) (o : Ref .context) : Prop where
  owner : (h.ownerOf d name).1 = o
  owns : (h.ownerOf d name).2.owns o name = true
  /-- What is read is its value. -/
  read : (h.readVariable d name).1 = h.cell o name
  /-- What is written is its value, and no other variable changes. -/
  write : ∀ value x m, (h.writeVariable d name value).cell x m
    = if x = o ∧ m = name then value else h.cell x m

theorem Traced.sees (htraced : h.Traced) (hd : h.contexts.Holds d)
    (howner : (h.ownerOf d name).1 = o) : h.Sees d name o := by
  have hanswers := htraced.ownerOf hd name
  subst howner
  refine ⟨rfl, hanswers.owns, hanswers.cells _ _, fun value x m => ?_⟩
  have hwrite : h.writeVariable d name value
      = (h.ownerOf d name).2.createVariable (h.ownerOf d name).1 name value := rfl
  rw [hwrite, cell_createVariable (holds_of_owns hanswers.owns), hanswers.cells]

/-- On the way from one context to another one, nobody owns a name. -/
def Clear (h : Heap) (d c : Ref .context) (name : String) : Prop :=
  ∀ e, h.Between d c e → h.owns e name = false

/-- On the way from one context to another one, nobody remembers an owner of a name in a heap,
unless it is that other one. -/
def Near (h₀ h : Heap) (d c : Ref .context) (name : String) : Prop :=
  ∀ e, h.Between d c e → ∀ o, h₀.remembered e name = some o → o = c

theorem Clear.parent (hforest : h.Forest) (hclear : h.Clear d c name)
    (hp : (h.context d).parent = some p) : h.Clear p c name := by
  intro e hbetween
  exact hclear e (hbetween.of_parent hforest hp)

theorem ownerOf_self (howns : h.owns c name = true) : (h.ownerOf c name).1 = c := by
  unfold owns at howns
  unfold ownerOf
  simp [howns]

theorem ownerOf_of_remembered (howns : h.owns d name = false) (ho : h.remembered d name = some o) :
    (h.ownerOf d name).1 = o := by
  unfold owns at howns
  unfold remembered at ho
  unfold ownerOf
  simp [howns, ho]

theorem ownerOf_of_parent (hforest : h.Forest) (howns : h.owns d name = false)
    (hnone : h.remembered d name = none) (hp : (h.context d).parent = some p) :
    (h.ownerOf d name).1 = (h.ownerOf p name).1 := by
  unfold owns at howns
  unfold remembered at hnone
  rw [ownerOf]
  simp [howns, hnone, hp, hforest d p hp]

section

variable (htraced : h.Traced) (hc : c ∈ h.lineage d) (hclear : h.Clear d c name)
include htraced hc hclear

/-- **A variable is seen** from below if nobody on the way remembers another owner. -/
theorem Traced.ownerOf_near (howns : h.owns c name = true) (hnear : h.Near h d c name) :
    (h.ownerOf d name).1 = c := by
  have hforest := htraced.forest
  induction d using hforest.induction with
  | root d hp =>
    rw [lineage_of_root hp, List.mem_singleton] at hc
    rw [← hc]
    exact ownerOf_self howns
  | child d p hp ih =>
    by_cases heq : d = c
    · rw [heq]
      exact ownerOf_self howns
    have hself : h.Between d c d := ⟨mem_lineage_self hforest d, hc, heq⟩
    cases ho : h.remembered d name with
    | some o =>
      rw [ownerOf_of_remembered (hclear d hself) ho]
      exact hnear d hself o ho
    | none =>
      obtain ⟨q, hq, hup⟩ := parent_of_below hforest hc heq
      cases hp.symm.trans hq
      rw [ownerOf_of_parent hforest (hclear d hself) ho hp]
      exact ih hup (hclear.parent hforest hp)
        fun e hbetween => hnear e (hbetween.of_parent hforest hp)

/-- **It is not seen** if somebody on the way remembers another owner. -/
theorem Traced.ownerOf_past (hbetween : h.Between d c e) (ho : h.remembered e name = some o)
    (hne : o ≠ c) : (h.ownerOf d name).1 = o := by
  have hforest := htraced.forest
  obtain ⟨hmem, hbelow, hec⟩ := hbetween
  induction d using hforest.induction with
  | root d hp =>
    rw [lineage_of_root hp, List.mem_singleton] at hc hmem
    exact absurd (hmem.trans hc.symm) hec
  | child d p hp ih =>
    have hdc : d ≠ c := by
      rintro rfl
      exact hec (eq_of_mem_lineage_of_mem hforest hbelow hmem)
    have hself : h.Between d c d := ⟨mem_lineage_self hforest d, hc, hdc⟩
    cases hd : h.remembered d name with
    | some o' =>
      rw [ownerOf_of_remembered (hclear d hself) hd]
      -- An owner further down would be in the way.
      rcases htraced.along hmem hd with ⟨hon, heo⟩ | hthere
      · have hbelow' := mem_lineage_trans hforest heo hbelow
        have hoc : o' ≠ c := by
          rintro rfl
          exact hec (eq_of_mem_lineage_of_mem hforest hbelow heo)
        cases (hclear o' ⟨hon, hbelow', hoc⟩).symm.trans (htraced.trace d name o' hd).1
      · exact Option.some.inj (hthere.symm.trans ho)
    | none =>
      have hed : e ≠ d := by
        rintro rfl
        cases hd.symm.trans ho
      rw [lineage_of_child hforest hp] at hmem
      have hup : e ∈ h.lineage p := (List.mem_cons.mp hmem).resolve_left hed
      rw [ownerOf_of_parent hforest (hclear d hself) hd hp]
      exact ih (mem_lineage_trans hforest hup hbelow) (hclear.parent hforest hp) hup

end

/-! ### It stays so -/

/-- **It is decided for good** when a context comes to own a name who will see its variable:
whatever happens, the contexts on the way come to remember no other owner, and forget none. -/
theorem Evolves.near_iff {h₀ h₁ : Heap} (hevolves : h₁.Evolves h) (htraced : h.Traced)
    (howns : h₁.owns c name = true)
    (hsame : ∀ e, h₁.remembered e name = h₀.remembered e name) (hclear : h.Clear d c name) :
    h.Near h d c name ↔ h₀.Near h d c name := by
  have hforest := htraced.forest
  constructor
  · intro hnear e hbetween o ho
    rw [← hsame] at ho
    exact hnear e hbetween o (hevolves.remembered e name o ho)
  · intro hnear e hbetween o ho
    by_contra hne
    obtain ⟨hmem, hbelow, hec⟩ := hbetween
    obtain ⟨t, ⟨hte, hct, htc⟩, ht⟩ := exists_child hforest hbelow hec
    have hbetween : h.Between d c t := ⟨mem_lineage_trans hforest hmem hte, hct, htc⟩
    rcases htraced.along hte ho with ⟨hoe, hto⟩ | hthere
    · have hoc : o ≠ c := hne
      have hway : h.Between d c o :=
        ⟨mem_lineage_trans hforest hmem hoe, mem_lineage_trans hforest hto hct, hoc⟩
      cases (hclear o hway).symm.trans (htraced.trace e name o ho).1
    · rcases hevolves.anew t c name o ht howns hthere with heq | hbefore
      · exact hne heq
      · rw [hsame] at hbefore
        exact hne (hnear t hbetween o hbefore)

/-- **Two contexts that see the same variable share it**: what is written from one of them is read
from the other one. -/
theorem Traced.shares (htraced : h.Traced) (howns : h.owns c name = true) (hd : h.contexts.Holds d)
    (hsees : (h.ownerOf d name).1 = c) (he : h.contexts.Holds e) (hc : c ∈ h.lineage e)
    (hclear : h.Clear e c name) (hnear : h.Near h e c name) (value : Value) :
    ((h.writeVariable d name value).readVariable e name).1 = value := by
  let h' := h.writeVariable d name value
  have hanswers := htraced.ownerOf hd name
  obtain ⟨htraced', hevolves⟩ := htraced.writeVariable hd name value
  have hparent (x : Ref .context) : (h'.context x).parent = (h.context x).parent :=
    parent_createVariable.trans (hanswers.parent x)
  have hlineage := lineage_congr htraced.forest htraced'.forest hparent
  have hbetween {x y z : Ref .context} (hway : h'.Between x y z) : h.Between x y z := by
    unfold Between at hway
    rwa [hlineage, hlineage] at hway
  have hclear' : h'.Clear e c name := by
    intro x hway
    refine Bool.eq_false_iff.mpr fun hown => ?_
    have hown' : ((h.ownerOf d name).2.createVariable (h.ownerOf d name).1 name value).owns x name
        = true := hown
    have hxc := (hbetween hway).2.2
    rw [hsees, owns_createVariable (hsees ▸ holds_of_owns hanswers.owns)] at hown'
    simp only [hxc, false_and, decide_false, Bool.or_false] at hown'
    rcases hanswers.fresh x name hown' with hold | ⟨heq, -⟩
    · cases hold.symm.trans (hclear x (hbetween hway))
    · exact hxc (heq.trans hsees)
  have hc' : c ∈ h'.lineage e := by rwa [hlineage]
  have hnear' : h'.Near h' e c name := by
    refine (hevolves.near_iff htraced' howns (fun _ => rfl) hclear').mpr ?_
    intro x hway o ho
    exact hnear x (hbetween hway) o ho
  have howner := htraced'.ownerOf_near hc' hclear' (hevolves.owns c name howns) hnear'
  have hread : ((h.writeVariable d name value).readVariable e name).1 = h'.cell c name :=
    (htraced'.sees (hevolves.holds e he) howner).read
  rw [hread, (htraced.sees hd hsees).write value c name]
  simp

end ScriptVm.Heap
