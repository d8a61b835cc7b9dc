import Mathlib.Data.List.Induction
import ScriptVm.Heap.Identity
import ScriptVm.Proofs.Chains

/-!
# Tables as ordered maps

A table stands for an ordered map: what is stored under a key is found under every
equal key, and the keys are listed in the order in which they came first.  That
needs a comparer of keys that is `Lawful`, and a table that is `Keyed` by it: it is
linked, each entry lies under the hash of its key, and no two entries have equal
keys.  A table may be keyed as far as keys of one sort are concerned, and that is
upheld by insertions of keys of any sort.

The history of a table is the list of what was written.  `lastWritten` and
`firstKeys` say what that list means, without any table.

Main statements: `Table.Keyed.get?_insert`, `Table.Keyed.keys_insert` (what one
insertion does) and `Table.ordered_map` (what all of them come to).
-/

namespace ScriptVm

/-! ### Lawful comparers -/

/-- A comparer whose equality is an equivalence, with one hash for equal keys. -/
structure KeyComparer.Lawful (keys : KeyComparer) : Prop where
  equivalence : Equivalence fun a b => keys.equals a b = true
  hash_eq : ∀ {a b : Value}, keys.equals a b = true → keys.hash a = keys.hash b

namespace KeyComparer.Lawful

variable {keys : KeyComparer} {a b c : Value}

theorem refl (h : keys.Lawful) (a : Value) : keys.equals a a = true :=
  h.equivalence.refl a

theorem symm (h : keys.Lawful) (hab : keys.equals a b = true) : keys.equals b a = true :=
  h.equivalence.symm hab

theorem trans (h : keys.Lawful) (hab : keys.equals a b = true) (hbc : keys.equals b c = true) :
    keys.equals a c = true :=
  h.equivalence.trans hab hbc

end KeyComparer.Lawful

/-- Every key that equals one of this sort is of this sort. -/
def KeyComparer.Respects (keys : KeyComparer) (p : Value → Prop) : Prop :=
  ∀ {a b : Value}, keys.equals a b = true → p a → p b

/-- What raw equality looks at: the closure behind a function, and any other value itself. -/
def Heap.rawKey (h : Heap) : Value → Value ⊕ Closure
  | .function r => .inr (h.function r)
  | v => .inl v

theorem Heap.rawEquals_iff (h : Heap) (x y : Value) :
    h.rawEquals x y = true ↔ h.rawKey x = h.rawKey y := by
  cases x <;> cases y <;> simp [rawEquals, rawKey, sameClosure, Value.sameObject]

/-- **Raw keys are lawful** on every heap. -/
theorem Heap.rawKeys_lawful (h : Heap) : h.rawKeys.Lawful where
  equivalence := by
    have heq : (fun a b => h.rawKeys.equals a b = true) = fun a b => h.rawKey a = h.rawKey b := by
      funext a b
      exact propext (h.rawEquals_iff a b)
    rw [heq]
    exact ⟨fun _ => rfl, Eq.symm, Eq.trans⟩
  hash_eq := h.hash_eq_of_rawEquals

/-! ### What the operations do to the entries -/

namespace Table

section

variable {α : Type} {f : Entry → α}

/-- Linking entries changes nothing but their links. -/
theorem map_entries_relink (hf : ∀ e next, f { e with next } = f e) (t : Table) (id : Nat) :
    (t.relink id).entries.toList.map f = t.entries.toList.map f := by
  cases he : t.entries[id]? with
  | none => simp [relink, he]
  | some e =>
    rw [relink_eq he, Array.toList_setIfInBounds, List.map_set, hf]
    obtain ⟨hid, rfl⟩ := Array.getElem?_eq_some_iff.mp he
    apply List.ext_getElem?
    intro i
    rw [List.getElem?_set]
    split
    · next h =>
      subst h
      simp [hid]
    · rfl

theorem map_entries_resize (hf : ∀ e next, f { e with next } = f e) (t : Table) (count : Nat) :
    (t.resize count).entries.toList.map f = t.entries.toList.map f := by
  have hsteps (ids : List Nat) (t : Table) :
      (ids.foldl relink t).entries.toList.map f = t.entries.toList.map f := by
    induction ids generalizing t with
    | nil => rfl
    | cons id ids ih => rw [List.foldl_cons, ih, map_entries_relink hf]
  exact hsteps _ _

theorem map_entries_append (hf : ∀ e next, f { e with next } = f e) (t : Table) (hash : UInt64)
    (key value : Value) :
    (t.append hash key value).entries.toList.map f
      = t.entries.toList.map f ++ [f { hash, next := none, key, value }] := by
  have hroom : t.makeRoom.entries.toList.map f = t.entries.toList.map f := by
    unfold makeRoom
    split
    · exact map_entries_resize hf _ _
    · rfl
  rw [append_eq_relink, map_entries_relink hf]
  simp [← hroom]

end

/-- The hash each entry was inserted under, with its key. -/
def marks (t : Table) : List (UInt64 × Value) :=
  t.entries.toList.map fun e => (e.hash, e.key)

section

variable (t : Table) (id count : Nat) (hash : UInt64) (key value : Value)

theorem keys_eq_map_toList : t.keys = t.toList.map Prod.fst := by
  simp [keys, toList]

theorem size_eq_length_keys : t.size = t.keys.length := by
  simp [size, keys]

@[simp] theorem keys_resize : (t.resize count).keys = t.keys :=
  map_entries_resize (fun _ _ => rfl) t count

@[simp] theorem keys_append : (t.append hash key value).keys = t.keys ++ [key] :=
  map_entries_append (fun _ _ => rfl) t hash key value

@[simp] theorem marks_resize : (t.resize count).marks = t.marks :=
  map_entries_resize (fun _ _ => rfl) t count

@[simp] theorem marks_append : (t.append hash key value).marks = t.marks ++ [(hash, key)] :=
  map_entries_append (fun _ _ => rfl) t hash key value

theorem mem_toList {k v : Value} :
    (k, v) ∈ t.toList ↔
      ∃ (id : Nat) (e : Entry), t.entries[id]? = some e ∧ e.key = k ∧ e.value = v := by
  rw [List.mem_iff_getElem?]
  simp [toList]

theorem map_entries_setValue {α : Type} {f : Entry → α}
    (hf : ∀ e value, f { e with value } = f e) :
    (t.setValue id value).entries.toList.map f = t.entries.toList.map f := by
  apply List.ext_getElem?
  intro i
  rw [List.getElem?_map, List.getElem?_map, Array.getElem?_toList, Array.getElem?_toList,
    entries_setValue, Option.map_map]
  congr 1
  funext e
  simp only [Function.comp]
  split
  · exact hf e value
  · rfl

@[simp] theorem keys_setValue : (t.setValue id value).keys = t.keys :=
  map_entries_setValue t id value fun _ _ => rfl

@[simp] theorem marks_setValue : (t.setValue id value).marks = t.marks :=
  map_entries_setValue t id value fun _ _ => rfl

end

/-! ### Keyed tables -/

theorem mem_keys_of_entry {t : Table} {id : Nat} {e : Entry} (he : t.entries[id]? = some e) :
    e.key ∈ t.keys := by
  rw [← Array.getElem?_toList] at he
  exact List.mem_map.mpr ⟨e, List.mem_of_getElem? he, rfl⟩

theorem exists_entry_of_mem_keys {t : Table} {k : Value} (hk : k ∈ t.keys) :
    ∃ (id : Nat) (e : Entry), t.entries[id]? = some e ∧ e.key = k := by
  obtain ⟨e, he, rfl⟩ := List.mem_map.mp hk
  obtain ⟨id, hid⟩ := List.mem_iff_getElem?.mp he
  rw [Array.getElem?_toList] at hid
  exact ⟨id, e, hid, rfl⟩

/-- The entry that is found for a key has an equal one. -/
theorem exists_of_find? {keys : KeyComparer} {t : Table} {key : Value} {id : Nat}
    (h : t.find? keys key = some id) :
    ∃ e, t.entries[id]? = some e ∧ keys.equals key e.key = true := by
  have hany := List.find?_some h
  exact (Option.any_eq_true _ _).mp hany

/-- **A table that is keyed by a comparer**, as far as keys of one sort are concerned: it is linked,
each entry lies under the hash of its key, and no two entries have equal keys. -/
structure Keyed (keys : KeyComparer) (p : Value → Prop) (t : Table) : Prop where
  lawful : keys.Lawful
  respects : keys.Respects p
  linked : t.Linked
  hashes : ∀ m ∈ t.marks, p m.2 → m.1 = keys.hash m.2
  distinct : t.keys.Pairwise fun a b => p a → keys.equals a b = false

namespace Keyed

variable {keys : KeyComparer} {p : Value → Prop} {t : Table} {key value : Value} {id : Nat}
    {e : Entry}

theorem hash_eq (h : t.Keyed keys p) (he : t.entries[id]? = some e) (hp : p e.key) :
    e.hash = keys.hash e.key := by
  have hmem : e ∈ t.entries.toList := by
    rw [← Array.getElem?_toList] at he
    exact List.mem_of_getElem? he
  exact h.hashes _ (List.mem_map.mpr ⟨e, hmem, rfl⟩) hp

/-- Entries with equal keys are one entry. -/
theorem eq_of_equals (h : t.Keyed keys p) {i j : Nat} {e' : Entry} (he : t.entries[i]? = some e)
    (he' : t.entries[j]? = some e') (hp : p e.key) (hsame : keys.equals e.key e'.key = true) :
    i = j := by
  obtain ⟨hi, rfl⟩ := Array.getElem?_eq_some_iff.mp he
  obtain ⟨hj, rfl⟩ := Array.getElem?_eq_some_iff.mp he'
  have hpairs := List.pairwise_iff_getElem.mp h.distinct
  simp only [Table.keys, List.length_map, Array.length_toList, List.getElem_map,
    Array.getElem_toList] at hpairs
  rcases Nat.lt_trichotomy i j with hlt | heq | hgt
  · cases hsame.symm.trans (hpairs i j hi hj hlt hp)
  · exact heq
  · cases (h.lawful.symm hsame).symm.trans (hpairs j i hj hi hgt (h.respects hsame hp))

/-- **A key is found** exactly in the entry that has an equal one. -/
theorem find?_eq_some_iff (h : t.Keyed keys p) (hp : p key) :
    t.find? keys key = some id ↔
      ∃ e, t.entries[id]? = some e ∧ keys.equals key e.key = true := by
  refine ⟨exists_of_find?, ?_⟩
  rintro ⟨e, he, hsame⟩
  obtain ⟨hid, -⟩ := Array.getElem?_eq_some_iff.mp he
  have hunder : t.isUnder (keys.hash key) id = true := by
    simp [isUnder_eq he, h.hash_eq he (h.respects hsame hp), h.lawful.hash_eq hsame]
  have hsome : (t.find? keys key).isSome := by
    rw [find?, h.linked.chain_eq, List.find?_isSome]
    exact ⟨id, mem_below.mpr ⟨hid, hunder⟩, (Option.any_eq_true _ _).mpr ⟨e, he, hsame⟩⟩
  obtain ⟨j, hj⟩ := Option.isSome_iff_exists.mp hsome
  obtain ⟨e', he', hsame'⟩ := exists_of_find? hj
  have hone : j = id := h.eq_of_equals he' he (h.respects hsame' hp)
    (h.lawful.trans (h.lawful.symm hsame') hsame)
  rw [hj, hone]

theorem find?_eq_none_iff (h : t.Keyed keys p) (hp : p key) :
    t.find? keys key = none ↔ ∀ k ∈ t.keys, keys.equals key k = false := by
  rw [Option.eq_none_iff_forall_ne_some]
  constructor
  · intro hnone k hk
    obtain ⟨id, e, he, rfl⟩ := exists_entry_of_mem_keys hk
    exact Bool.eq_false_iff.mpr fun hsame =>
      hnone id ((h.find?_eq_some_iff hp).mpr ⟨e, he, hsame⟩)
  · intro hall id hid
    obtain ⟨e, he, hsame⟩ := exists_of_find? hid
    cases hsame.symm.trans (hall e.key (mem_keys_of_entry he))

/-- The place of the entry is the place of its key among the keys. -/
theorem find?_eq_findIdx? (h : t.Keyed keys p) (hp : p key) :
    t.find? keys key = t.keys.findIdx? (keys.equals key) := by
  cases hfind : t.find? keys key with
  | none =>
    rw [eq_comm, List.findIdx?_eq_none_iff]
    exact (h.find?_eq_none_iff hp).mp hfind
  | some id =>
    obtain ⟨e, he, hsame⟩ := exists_of_find? hfind
    obtain ⟨hid, rfl⟩ := Array.getElem?_eq_some_iff.mp he
    rw [eq_comm, List.findIdx?_eq_some_iff_getElem]
    refine ⟨by simpa [Table.keys] using hid, by simpa [Table.keys] using hsame, fun j hj => ?_⟩
    have hj' : j < t.entries.size := by omega
    have hgetj : t.entries[j]? = some t.entries[j] := Array.getElem?_eq_getElem hj'
    simp only [Table.keys, List.getElem_map, Array.getElem_toList]
    intro hsame'
    have hone : j = id := h.eq_of_equals hgetj he (h.respects hsame' hp)
      (h.lawful.trans (h.lawful.symm hsame') hsame)
    omega

/-- **What is read under a key** is the value of the entry with an equal one. -/
theorem get?_eq_some_iff (h : t.Keyed keys p) (hp : p key) :
    t.get? keys key = some value ↔
      ∃ (id : Nat) (e : Entry), t.entries[id]? = some e ∧ keys.equals key e.key = true ∧
        e.value = value := by
  rw [get?, Option.bind_eq_some_iff]
  refine exists_congr fun id => ?_
  rw [h.find?_eq_some_iff hp]
  constructor
  · rintro ⟨⟨e, he, hsame⟩, hvalue⟩
    exact ⟨e, he, hsame, by simpa [he] using hvalue⟩
  · rintro ⟨e, he, hsame, hvalue⟩
    exact ⟨⟨e, he, hsame⟩, by simpa [he] using hvalue⟩

theorem get?_eq_some_iff_mem (h : t.Keyed keys p) (hp : p key) :
    t.get? keys key = some value ↔ ∃ k, (k, value) ∈ t.toList ∧
    keys.equals key k = true := by
  rw [h.get?_eq_some_iff hp]
  constructor
  · rintro ⟨id, e, he, hsame, hvalue⟩
    exact ⟨e.key, t.mem_toList.mpr ⟨id, e, he, rfl, hvalue⟩, hsame⟩
  · rintro ⟨k, hmem, hsame⟩
    obtain ⟨id, e, he, rfl, hvalue⟩ := t.mem_toList.mp hmem
    exact ⟨id, e, he, hsame, hvalue⟩

theorem get?_eq_none_iff (h : t.Keyed keys p) (hp : p key) :
    t.get? keys key = none ↔ ∀ k ∈ t.keys, keys.equals key k = false := by
  rw [← h.find?_eq_none_iff hp, get?, Option.bind_eq_none_iff]
  constructor
  · intro hnone
    refine Option.eq_none_iff_forall_ne_some.mpr fun id hid => ?_
    obtain ⟨e, he, -⟩ := exists_of_find? hid
    simpa [he] using hnone id hid
  · intro hnone id hid
    rw [hnone] at hid
    cases hid

/-- An entry is read under its own key. -/
theorem get?_of_mem (h : t.Keyed keys p) (hp : p key) (hmem : (key, value) ∈ t.toList) :
    t.get? keys key = some value :=
  (h.get?_eq_some_iff_mem hp).mpr ⟨key, hmem, h.lawful.refl key⟩

theorem empty (hkeys : keys.Lawful) (hp : keys.Respects p) : Table.empty.Keyed keys p :=
  ⟨hkeys, hp, linked_empty, nofun, .nil⟩

/-- Another bucket count changes nothing. -/
theorem resize (h : t.Keyed keys p) {count : Nat} (hcount : 0 < count) :
    (t.resize count).Keyed keys p where
  lawful := h.lawful
  respects := h.respects
  linked := t.linked_resize hcount
  hashes := by
    rw [marks_resize]
    exact h.hashes
  distinct := by
    rw [keys_resize]
    exact h.distinct

theorem setValue (h : t.Keyed keys p) (id : Nat) (value : Value) :
    (t.setValue id value).Keyed keys p where
  lawful := h.lawful
  respects := h.respects
  linked := h.linked.setValue id value
  hashes := by
    rw [marks_setValue]
    exact h.hashes
  distinct := by
    rw [keys_setValue]
    exact h.distinct

/-- A key that is not there yet is appended. -/
theorem append (h : t.Keyed keys p) (hnew : p key → ∀ k ∈ t.keys, keys.equals key k = false)
    (value : Value) : (t.append (keys.hash key) key value).Keyed keys p where
  lawful := h.lawful
  respects := h.respects
  linked := h.linked.append _ key value
  hashes m hm hp := by
    rw [marks_append, List.mem_append, List.mem_singleton] at hm
    rcases hm with hm | rfl
    · exact h.hashes m hm hp
    · rfl
  distinct := by
    rw [keys_append, List.pairwise_append]
    refine ⟨h.distinct, List.pairwise_singleton _ _, fun a ha b hb hp => ?_⟩
    rw [List.mem_singleton.mp hb]
    refine Bool.eq_false_iff.mpr fun hsame => ?_
    have hfalse := hnew (h.respects hsame hp) a ha
    rw [h.lawful.symm hsame] at hfalse
    cases hfalse

/-- **What an insertion does**: an entry of an equal key gets the value, or a new entry comes
last. -/
theorem insert_cases (h : t.Keyed keys p) (key value : Value) :
    (∃ id e, t.entries[id]? = some e ∧ keys.equals key e.key = true ∧
        t.insert keys key value = t.setValue id value) ∨
      ((p key → ∀ k ∈ t.keys, keys.equals key k = false) ∧
        t.insert keys key value = t.append (keys.hash key) key value) := by
  cases hfind : t.find? keys key with
  | some id =>
    obtain ⟨e, he, hsame⟩ := exists_of_find? hfind
    exact .inl ⟨id, e, he, hsame, by rw [insert, hfind]; rfl⟩
  | none =>
    exact .inr ⟨fun hp => (h.find?_eq_none_iff hp).mp hfind, by rw [insert, hfind]; rfl⟩

theorem insert (h : t.Keyed keys p) (key value : Value) :
    (t.insert keys key value).Keyed keys p := by
  rcases h.insert_cases key value with ⟨id, e, -, -, heq⟩ | ⟨hnew, heq⟩
  · rw [heq]
    exact h.setValue id value
  · rw [heq]
    exact h.append hnew value

/-- **The keys after an insertion**: a key comes last, unless an equal one is there. -/
theorem keys_insert (h : t.Keyed keys p) (hp : p key) (value : Value) :
    (t.insert keys key value).keys
      = if t.keys.any (keys.equals key) then t.keys else t.keys ++ [key] := by
  rcases h.insert_cases key value with ⟨id, e, he, hsame, heq⟩ | ⟨hnew, heq⟩
  · have hany : t.keys.any (keys.equals key) = true :=
      List.any_eq_true.mpr ⟨e.key, mem_keys_of_entry he, hsame⟩
    rw [heq, keys_setValue, if_pos hany]
  · have hany : ¬ t.keys.any (keys.equals key) = true := by
      rw [List.any_eq_true]
      rintro ⟨k, hk, hsame⟩
      cases hsame.symm.trans (hnew hp k hk)
    rw [heq, keys_append, if_neg hany]

/-- **Reading after an insertion**: the value under every equal key, and what was read before under
all others. -/
theorem get?_insert (h : t.Keyed keys p) {key' : Value} (hp : p key') (key value : Value) :
    (t.insert keys key value).get? keys key'
      = if keys.equals key' key then some value else t.get? keys key' := by
  have hafter := h.insert key value
  rcases h.insert_cases key value with ⟨id, e, he, hfound, heq⟩ | ⟨hnew, heq⟩
  · have hself : (t.insert keys key value).entries[id]? = some { e with value } := by
      rw [heq, entries_setValue, he]
      simp
    by_cases hsame : keys.equals key' key = true
    · rw [if_pos hsame, hafter.get?_eq_some_iff hp]
      exact ⟨id, _, hself, h.lawful.trans hsame hfound, rfl⟩
    · rw [if_neg hsame]
      refine Option.ext fun v => ?_
      rw [hafter.get?_eq_some_iff hp, h.get?_eq_some_iff hp]
      have hnot : ¬ keys.equals key' e.key = true :=
        fun hk => hsame (h.lawful.trans hk (h.lawful.symm hfound))
      refine exists_congr fun i => ?_
      by_cases hi : i = id
      · -- The entry that has changed is not the one asked for.
        subst hi
        simp [hself, he, hnot]
      · rw [heq, entries_setValue]
        simp [hi]
  · by_cases hsame : keys.equals key' key = true
    · rw [if_pos hsame, hafter.get?_eq_some_iff_mem hp, heq, toList_append]
      exact ⟨key, by simp, hsame⟩
    · rw [if_neg hsame]
      refine Option.ext fun v => ?_
      rw [hafter.get?_eq_some_iff_mem hp, h.get?_eq_some_iff_mem hp, heq, toList_append]
      refine exists_congr fun k => and_congr_left fun hk => ?_
      rw [List.mem_append, List.mem_singleton, or_iff_left]
      rintro ⟨⟩
      exact hsame hk

end Keyed

end Table

/-! ### What was written -/

namespace KeyComparer

variable (keys : KeyComparer)

/-- The value last written under a key that equals this one. -/
def lastWritten (writes : List (Value × Value)) (key : Value) : Option Value :=
  (writes.reverse.find? fun w => keys.equals key w.1).map Prod.snd

/-- The keys without those that equal an earlier one. -/
def firstKeys (ks : List Value) : List Value :=
  ks.foldl (fun known k => if known.any (keys.equals k) then known else known ++ [k]) []

@[simp] theorem lastWritten_nil (key : Value) : keys.lastWritten [] key = none := rfl

theorem lastWritten_append (writes : List (Value × Value)) (key value key' : Value) :
    keys.lastWritten (writes ++ [(key, value)]) key'
      = if keys.equals key' key then some value else keys.lastWritten writes key' := by
  simp only [lastWritten, List.reverse_append, List.reverse_singleton, List.singleton_append,
    List.find?_cons]
  cases keys.equals key' key <;> rfl

@[simp] theorem firstKeys_nil : keys.firstKeys [] = [] := rfl

theorem firstKeys_append (ks : List Value) (k : Value) :
    keys.firstKeys (ks ++ [k])
      = if (keys.firstKeys ks).any (keys.equals k) then keys.firstKeys ks
        else keys.firstKeys ks ++ [k] := by
  simp [firstKeys]

end KeyComparer

namespace Table

/-- **The tables with a history of writes**: each write is an insertion, and the table may be moved
to another bucket count at any moment. -/
inductive Stored (keys : KeyComparer) : List (Value × Value) → Table → Prop
  | empty : Stored keys [] empty
  | insert {writes : List (Value × Value)} {t : Table} (before : Stored keys writes t)
      (key value : Value) : Stored keys (writes ++ [(key, value)]) (t.insert keys key value)
  | resize {writes : List (Value × Value)} {t : Table}
      (before : Stored keys writes t) {count : Nat}
      (pos : 0 < count) : Stored keys writes (t.resize count)

/-- The table after some writes, which grows by itself only. -/
def ofWrites (keys : KeyComparer) (writes : List (Value × Value)) : Table :=
  writes.foldl (fun t w => t.insert keys w.1 w.2) empty

@[simp] theorem ofWrites_append (keys : KeyComparer) (writes : List (Value × Value))
    (w : Value × Value) :
    ofWrites keys (writes ++ [w]) = (ofWrites keys writes).insert keys w.1 w.2 := by
  simp [ofWrites]

theorem stored_ofWrites (keys : KeyComparer) (writes : List (Value × Value)) :
    Stored keys writes (ofWrites keys writes) := by
  induction writes using List.reverseRecOn with
  | nil => exact .empty
  | append_singleton writes w ih =>
    rw [ofWrites_append]
    exact .insert ih w.1 w.2

namespace Stored

variable {keys : KeyComparer} {writes : List (Value × Value)} {t : Table}

theorem keyed (h : Stored keys writes t) (hkeys : keys.Lawful) : t.Keyed keys fun _ => True := by
  induction h with
  | empty => exact .empty hkeys fun _ _ => trivial
  | insert before key value ih => exact ih.insert key value
  | resize before pos ih => exact ih.resize pos

theorem keys_eq (h : Stored keys writes t) (hkeys : keys.Lawful) :
    t.keys = keys.firstKeys (writes.map Prod.fst) := by
  induction h with
  | empty => rfl
  | insert before key value ih =>
    rw [(before.keyed hkeys).keys_insert trivial, ih, List.map_append, List.map_singleton,
      KeyComparer.firstKeys_append]
  | resize before pos ih => rw [keys_resize, ih]

/-- What is read is what was written last. -/
theorem get?_eq (h : Stored keys writes t) (hkeys : keys.Lawful) (key : Value) :
    t.get? keys key = keys.lastWritten writes key := by
  induction h with
  | empty =>
    have hnone : Table.empty.get? keys key = none :=
      ((Stored.empty.keyed hkeys).get?_eq_none_iff trivial).mpr nofun
    rw [hnone]
    rfl
  | insert before k value ih =>
    rw [(before.keyed hkeys).get?_insert trivial, ih, KeyComparer.lastWritten_append]
  | @resize writes t before count pos ih =>
    have hkeyed := before.keyed hkeys
    rw [← ih]
    refine Option.ext fun v => ?_
    rw [(hkeyed.resize pos).get?_eq_some_iff_mem trivial, hkeyed.get?_eq_some_iff_mem trivial,
      toList_resize]

end Stored

/-! ### Bucket counts -/

/-- The bucket counts that a table goes through when it grows. -/
def growth : Nat → Nat
  | 0 => firstPrime
  | n + 1 => nextPrime (growth n * 2)

/-- **The bucket count for a number of entries**: the first one of the growth that is not less, or
the last prime. -/
def RoomFor (size count : Nat) : Prop :=
  ∃ n, count = growth n ∧ (∀ m < n, growth m < size) ∧
    (size ≤ growth n ∨ growth n = lastPrime)

theorem le_nextPrime (n : Nat) : n ≤ nextPrime n ∨ nextPrime n = lastPrime := by
  unfold nextPrime
  cases h : primes.find? fun p => n ≤ p with
  | none => exact .inr rfl
  | some p =>
    left
    simpa using List.find?_some h

theorem nextPrime_lastPrime : nextPrime (lastPrime * 2) = lastPrime := by decide +kernel

theorem growth_pos (n : Nat) : 0 < growth n := by
  cases n with
  | zero => decide
  | succ n => exact nextPrime_pos _

theorem growth_stays {n m : Nat} (h : growth n = lastPrime) (hm : n ≤ m) :
    growth m = lastPrime := by
  obtain ⟨k, rfl⟩ := Nat.exists_eq_add_of_le hm
  clear hm
  induction k with
  | zero => exact h
  | succ k ih => rw [← Nat.add_assoc, growth, ih, nextPrime_lastPrime]

theorem roomFor_zero : RoomFor 0 firstPrime :=
  ⟨0, rfl, nofun, .inl (Nat.zero_le _)⟩

/-- One entry more: a full table grows once. -/
theorem RoomFor.succ {size count : Nat} (h : RoomFor size count) :
    RoomFor (size + 1) (if count ≤ size then nextPrime (count * 2) else count) := by
  obtain ⟨n, rfl, hsmaller, henough⟩ := h
  split
  · next hfull =>
    refine ⟨n + 1, rfl, fun m hm => ?_, ?_⟩
    · rcases Nat.lt_succ_iff_lt_or_eq.mp hm with hlt | rfl
      · exact Nat.lt_succ_of_lt (hsmaller m hlt)
      · exact Nat.lt_succ_of_le hfull
    · rcases henough with hle | hlast
      · have hpos := growth_pos n
        rcases le_nextPrime (growth n * 2) with hnext | hnext
        · left
          have : growth (n + 1) = nextPrime (growth n * 2) := rfl
          omega
        · exact .inr hnext
      · exact .inr (growth_stays hlast (Nat.le_succ n))
  · next hroom => exact ⟨n, rfl, fun m hm => Nat.lt_succ_of_lt (hsmaller m hm),
      .inl (by omega)⟩

/-- The bucket count depends on the number of entries only. -/
theorem RoomFor.unique {size count count' : Nat} (h : RoomFor size count)
    (h' : RoomFor size count') : count = count' := by
  obtain ⟨n, rfl, hsmaller, henough⟩ := h
  obtain ⟨n', rfl, hsmaller', henough'⟩ := h'
  rcases Nat.lt_trichotomy n n' with hlt | rfl | hgt
  · have hless := hsmaller' n hlt
    have hlast : growth n = lastPrime := henough.resolve_left (by omega)
    rw [hlast, growth_stays hlast (Nat.le_of_lt hlt)]
  · rfl
  · have hless := hsmaller n' hgt
    have hlast : growth n' = lastPrime := henough'.resolve_left (by omega)
    rw [hlast, growth_stays hlast (Nat.le_of_lt hgt)]

theorem bucketCount_resize (t : Table) (count : Nat) : (t.resize count).bucketCount = count := by
  have hsteps (ids : List Nat) (t : Table) :
      (ids.foldl relink t).buckets.size = t.buckets.size := by
    induction ids generalizing t with
    | nil => rfl
    | cons id ids ih => rw [List.foldl_cons, ih, size_buckets_relink]
  rw [bucketCount, resize, hsteps]
  simp

theorem bucketCount_append (t : Table) (hash : UInt64) (key value : Value) :
    (t.append hash key value).bucketCount
      = if t.bucketCount ≤ t.size then nextPrime (t.bucketCount * 2) else t.bucketCount := by
  have hroom : (t.append hash key value).bucketCount = t.makeRoom.bucketCount := by
    simp [append, bucketCount]
  rw [hroom, makeRoom]
  by_cases hfull : t.buckets.size ≤ t.entries.size
  · rw [if_pos hfull, bucketCount_resize]
    exact (if_pos hfull).symm
  · rw [if_neg hfull]
    exact (if_neg hfull).symm

theorem roomFor_ofWrites {keys : KeyComparer} (hkeys : keys.Lawful)
    (writes : List (Value × Value)) :
    RoomFor (ofWrites keys writes).size (ofWrites keys writes).bucketCount := by
  induction writes using List.reverseRecOn with
  | nil => exact roomFor_zero
  | append_singleton writes w ih =>
    have hkeyed := (stored_ofWrites keys writes).keyed hkeys
    rw [ofWrites_append]
    rcases hkeyed.insert_cases w.1 w.2 with ⟨id, e, -, -, heq⟩ | ⟨-, heq⟩
    · rw [heq, size_eq_length_keys, keys_setValue, ← size_eq_length_keys]
      exact ih
    · rw [heq, size_eq_length_keys, keys_append, bucketCount_append, List.length_append,
        ← size_eq_length_keys]
      exact ih.succ

/-! ### The ordered map -/

/-- **A table is an ordered map**, for every lawful comparer and every history of writes, whenever
it was moved to another bucket count.  What is read is what was written last under an equal key.
The keys are the first ones of their classes, in the order in which they came.  A walk for a hash
ends and comes by the entries of that hash, newest first, and a search finds the place of the key.
If the table grows by itself, its bucket count is the one for its number of entries. -/
theorem ordered_map :
    (∀ h : Heap, h.rawKeys.Lawful) ∧
    ∀ (keys : KeyComparer), keys.Lawful → ∀ (writes : List (Value × Value)) (t : Table),
      Stored keys writes t →
      (∀ key, t.get? keys key = keys.lastWritten writes key) ∧
      t.toList.map Prod.fst = keys.firstKeys (writes.map Prod.fst) ∧
      t.keys = t.toList.map Prod.fst ∧
      (∀ x ∈ t.toList, keys.lastWritten writes x.1 = some x.2) ∧
      t.keys.Pairwise (fun a b => keys.equals a b = false) ∧
      (∀ w ∈ writes, ∃ k ∈ t.keys, keys.equals w.1 k = true) ∧
      t.size = (keys.firstKeys (writes.map Prod.fst)).length ∧
      (∀ hash ids, t.Walks hash none ids ↔
        ids = (List.range t.size).reverse.filter (t.isUnder hash)) ∧
      (∀ key found, t.Finds keys key none found ↔ found = t.keys.findIdx? (keys.equals key)) ∧
      RoomFor t.size (ofWrites keys writes).bucketCount ∧
      (∀ count, RoomFor t.size count → count = (ofWrites keys writes).bucketCount) := by
  refine ⟨Heap.rawKeys_lawful, fun keys hkeys writes t ht => ?_⟩
  have hkeyed := ht.keyed hkeys
  have hsize : t.size = (keys.firstKeys (writes.map Prod.fst)).length := by
    rw [size_eq_length_keys, ht.keys_eq hkeys]
  have hroom : RoomFor t.size (ofWrites keys writes).bucketCount := by
    rw [hsize, ← (stored_ofWrites keys writes).keys_eq hkeys, ← size_eq_length_keys]
    exact roomFor_ofWrites hkeys writes
  have hdistinct : t.keys.Pairwise fun a b => keys.equals a b = false :=
    hkeyed.distinct.imp fun h => h trivial
  refine ⟨ht.get?_eq hkeys, ?_, t.keys_eq_map_toList, fun x hx => ?_, hdistinct, fun w hw => ?_,
    hsize, fun hash ids => ?_, fun key found => ?_, hroom,
    fun count hcount => hcount.unique hroom⟩
  · rw [← t.keys_eq_map_toList]
    exact ht.keys_eq hkeys
  · rw [← ht.get?_eq hkeys]
    exact hkeyed.get?_of_mem trivial hx
  · -- The key of a write is read, so it cannot be missing.
    by_contra hmissing
    have hnone : t.get? keys w.1 = none := by
      rw [hkeyed.get?_eq_none_iff trivial]
      exact fun k hk => Bool.eq_false_iff.mpr fun hsame => hmissing ⟨k, hk, hsame⟩
    rw [ht.get?_eq hkeys, KeyComparer.lastWritten, Option.map_eq_none_iff, List.find?_eq_none]
      at hnone
    exact hnone w (List.mem_reverse.mpr hw) (hkeys.refl w.1)
  · rw [hkeyed.linked.walks_iff, below_eq]
    rfl
  · rw [hkeyed.linked.finds_iff, hkeyed.find?_eq_findIdx? trivial]

/-- Keys that fall into one bucket, two of them with one hash; the table grows at the fourth. -/
theorem ordered_map_colliding :
    let keys := Heap.empty.rawKeys
    let writes : List (Value × Value) := [(.int 0, .int 1), (.float 0, .int 2), (.int 3, .int 3),
      (.int 0, .int 4), (.nil, .int 5)]
    let t := ofWrites keys writes
    keys.Lawful ∧ Stored keys writes t ∧ t.get? keys (.int 0) = some (.int 4) ∧
      t.toList.map Prod.fst = [.int 0, .float 0, .int 3, .nil] ∧ t.Walks 0 none [3, 1, 0] ∧
      RoomFor 4 t.bucketCount ∧ t.bucketCount = 7 := by
  intro keys writes t
  have hkeys : keys.Lawful := ordered_map.1 _
  have ht : Stored keys writes t := stored_ofWrites keys writes
  obtain ⟨hget, hlist, -, -, -, -, hsize, hwalks, -, hroom, -⟩ :=
    ordered_map.2 keys hkeys writes t ht
  have hfirst : keys.firstKeys (writes.map Prod.fst) = [.int 0, .float 0, .int 3, .nil] := by
    decide +kernel
  rw [hfirst] at hlist hsize
  rw [hsize] at hroom
  refine ⟨hkeys, ht, ?_, hlist, (hwalks _ _).mpr ?_, hroom, ?_⟩
  · rw [hget]
    decide +kernel
  · decide +kernel
  · decide +kernel

end Table

end ScriptVm
