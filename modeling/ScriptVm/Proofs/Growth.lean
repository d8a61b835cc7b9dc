import ScriptVm.Heap.Identity
import ScriptVm.Heap.Scope

/-!
# Growth of the heap

What the instructions do to the heap hardly touches the coroutines on it: the
old ones stay as they are, and new ones come behind them that have never been
resumed.  `Heap.Grows` says so, and every operation of the heap that an
instruction uses has a lemma that leads to it.

Main statements: `Heap.Grows.trans`, and `Heap.Grows.of_coroutines_eq` together
with the equations for the single operations.
-/

namespace ScriptVm.Heap

/-- The coroutines of `h` are still there in `h'`, and any others are new. -/
def Grows (h h' : Heap) : Prop :=
  ∃ made : List Coroutine,
    h'.coroutines.cells.toList = h.coroutines.cells.toList ++ made ∧
    ∀ c ∈ made, ∃ entry config, c = Coroutine.new entry none config

namespace Grows

/-- A heap with the same coroutines has grown by none. -/
theorem of_coroutines_eq {h h' : Heap} (heq : h'.coroutines = h.coroutines) : Grows h h' :=
  ⟨[], by simp [heq], by simp⟩

theorem refl (h : Heap) : Grows h h := of_coroutines_eq rfl

theorem trans {h₁ h₂ h₃ : Heap} (h₁₂ : Grows h₁ h₂) (h₂₃ : Grows h₂ h₃) :
    Grows h₁ h₃ := by
  obtain ⟨made, hcells, hmade⟩ := h₁₂
  obtain ⟨more, hcells', hmore⟩ := h₂₃
  refine ⟨made ++ more, by rw [hcells', hcells, List.append_assoc], ?_⟩
  intro c hc
  rcases List.mem_append.mp hc with hc | hc
  · exact hmade c hc
  · exact hmore c hc

/-- Making a coroutine. -/
theorem newCoroutine (h : Heap) (entry : Value) (config : Config) :
    Grows h (h.newCoroutine (.new entry none config)).2 := by
  refine ⟨[.new entry none config], by simp [Heap.newCoroutine, Store.add], ?_⟩
  intro c hc
  exact ⟨entry, config, List.mem_singleton.mp hc⟩

/-- A coroutine that was there is as it was. -/
theorem coroutine {h h' : Heap} (hgrows : Grows h h') {r : Ref .coroutine}
    (hr : h.coroutines.Holds r) : h'.coroutine r = h.coroutine r := by
  obtain ⟨made, hcells, -⟩ := hgrows
  have hlen : r.index < h.coroutines.cells.toList.length := by
    rw [Array.length_toList]
    exact hr
  simp only [Heap.coroutine, Store.get, Array.getD_eq_getD_getElem?, ← Array.getElem?_toList]
  rw [hcells, List.getElem?_append_left hlen]

end Grows

/-! ### Operations that leave the coroutines alone -/

section

variable (h : Heap)

@[simp] theorem coroutines_newContext (parent : Option (Ref .context)) :
    (h.newContext parent).2.coroutines = h.coroutines := rfl

@[simp] theorem coroutines_newTable : h.newTable.2.coroutines = h.coroutines := rfl

@[simp] theorem coroutines_newVector (values : List Value) :
    (h.newVector values).2.coroutines = h.coroutines := rfl

@[simp] theorem coroutines_modifyTable (r : Ref .table) (f : Table → Table) :
    (h.modifyTable r f).coroutines = h.coroutines := rfl

@[simp] theorem coroutines_modifyVector (r : Ref .vector) (f : Array Value → Array Value) :
    (h.modifyVector r f).coroutines = h.coroutines := rfl

@[simp] theorem coroutines_bind (r : Ref .function) (context : Ref .context) :
    (h.bind r context).coroutines = h.coroutines := rfl

@[simp] theorem coroutines_writeEntry (t : Ref .table) (key value : Value) :
    (h.writeEntry t key value).coroutines = h.coroutines := rfl

@[simp] theorem coroutines_createVariable (c : Ref .context) (name : String) (value : Value) :
    (h.createVariable c name value).coroutines = h.coroutines := rfl

/-- A new closure over a prototype that exists. -/
theorem newFunction_eq {h' : Heap} {unit : Ref .unit} {index : Nat} {parent : Option (Ref .context)}
    {r : Ref .function} (hnew : h.newFunction unit index parent = .ok (r, h')) :
    h' = { h with functions := (h.functions.add ⟨unit, index, parent⟩).2 } := by
  simp only [newFunction] at hnew
  split at hnew
  · cases hnew
    rfl
  · cases hnew

/-- A new closure over the entry of a unit. -/
theorem entryFunction_eq {h' : Heap} {unit : Ref .unit} {parent : Option (Ref .context)}
    {r : Ref .function} (hnew : h.entryFunction unit parent = .ok (r, h')) :
    h' = { h with functions := (h.functions.add ⟨unit, (h.unit unit).entry, parent⟩).2 } := by
  simp only [entryFunction] at hnew
  split at hnew
  · cases hnew
    rfl
  · cases hnew

theorem coroutines_newFunction {h' : Heap} {unit : Ref .unit} {index : Nat}
    {parent : Option (Ref .context)} {r : Ref .function}
    (hnew : h.newFunction unit index parent = .ok (r, h')) : h'.coroutines = h.coroutines := by
  rw [h.newFunction_eq hnew]

theorem coroutines_entryFunction {h' : Heap} {unit : Ref .unit} {parent : Option (Ref .context)}
    {r : Ref .function} (hnew : h.entryFunction unit parent = .ok (r, h')) :
    h'.coroutines = h.coroutines := by
  rw [h.entryFunction_eq hnew]

/-- Declaring variables changes nothing but contexts. -/
theorem declareVariables_eq (c : Ref .context) (names : List String) :
    h.declareVariables c names = { h with contexts := (h.declareVariables c names).contexts } := by
  simp only [declareVariables]
  induction names generalizing h with
  | nil => rfl
  | cons name rest ih =>
    rw [List.foldl_cons]
    split
    · exact ih h
    · exact ih (h.createVariable c name .nil)

/-- Looking a variable up changes nothing but contexts. -/
theorem ownerOf_eq (c : Ref .context) (name : String) :
    (h.ownerOf c name).2 = { h with contexts := (h.ownerOf c name).2.contexts } := by
  fun_induction ownerOf h c name with
  | case1 => rfl
  | case2 => rfl
  | case3 => rfl
  | case4 _ _ _ _ _ _ _ owner h' hrec ih =>
    rw [hrec] at ih
    have hsame : h' = { h with contexts := h'.contexts } := ih
    rw [hsame]
    rfl
  | case5 => rfl

@[simp] theorem coroutines_declareVariables (c : Ref .context) (names : List String) :
    (h.declareVariables c names).coroutines = h.coroutines := by
  rw [declareVariables_eq]

theorem readVariable_eq (c : Ref .context) (name : String) :
    (h.readVariable c name).2 = { h with contexts := (h.readVariable c name).2.contexts } :=
  h.ownerOf_eq c name

theorem writeVariable_eq (c : Ref .context) (name : String) (value : Value) :
    h.writeVariable c name value = { h with
      contexts := (h.writeVariable c name value).contexts } := by
  show (h.ownerOf c name).2.createVariable _ name value = _
  rw [ownerOf_eq]
  rfl

@[simp] theorem coroutines_readVariable (c : Ref .context) (name : String) :
    (h.readVariable c name).2.coroutines = h.coroutines := by
  rw [readVariable_eq]

@[simp] theorem coroutines_writeVariable (c : Ref .context) (name : String) (value : Value) :
    (h.writeVariable c name value).coroutines = h.coroutines := by
  rw [writeVariable_eq]

end

end ScriptVm.Heap
