import Mathlib.Logic.Relation
import ScriptVm.Proofs.OperatorContract
import ScriptVm.Proofs.OrderedMap
import ScriptVm.Proofs.Requests
import ScriptVm.Proofs.Writes

/-!
# Entries stay

A table keeps every key with the hash it had when it came.  For most keys that is
good for ever.  A function is hashed and compared by its closure, and a closure
changes when it is bound: the entry then lies under a hash that is not its key's
any more, or has a key that another entry has as well.

So it takes two things for what is stored under a key to be read under it: nothing
else is stored under that key, and no key of the table is bound to become that key
or to cease to be it.  For all keys but functions the second cannot happen.

A history of the heap is a chain of **turns**.  A turn is a step of any machine on
that heap, with whatever it stores, or something that the host does.

Main statements: `Heap.Keeps.deals` (what a turn keeps), `Heap.Has.deals` (what it
leaves where it was) and `Heap.entries_stay` (whole histories).
-/

namespace ScriptVm

variable {σ : Type}

/-! ### Tables on another heap -/

/-- A table with the same entries is keyed by another comparer if that agrees with the old one, as
far as the keys that are there and of the new sort are concerned. -/
theorem Table.Keyed.rekeyed {keys keys' : KeyComparer} {p p' : Value → Prop} {t t' : Table}
    (h : t.Keyed keys p) (hlawful : keys'.Lawful) (hrespects : keys'.Respects p')
    (hentries : ∃ metatable, t' = { t with metatable })
    (hsort : ∀ k ∈ t.keys, p' k → p k ∧ keys'.hash k = keys.hash k)
    (hequals : ∀ a ∈ t.keys, ∀ b ∈ t.keys, p' a → keys'.equals a b = true →
      keys.equals a b = true) :
    t'.Keyed keys' p' := by
  obtain ⟨metatable, rfl⟩ := hentries
  refine ⟨hlawful, hrespects, h.linked.congr rfl (fun _ _ => rfl) fun _ _ => rfl, ?_, ?_⟩
  · intro m hm hp
    obtain ⟨e, he, rfl⟩ := List.mem_map.mp hm
    obtain ⟨hold, hhash⟩ := hsort e.key (List.mem_map.mpr ⟨e, he, rfl⟩) hp
    rw [hhash]
    exact h.hashes _ hm hold
  · refine h.distinct.imp_of_mem fun {a b} ha hb hdistinct hp => ?_
    refine Bool.eq_false_iff.mpr fun hsame => ?_
    cases (hequals a ha b hb hp hsame).symm.trans (hdistinct (hsort a ha hp).1)

/-- A write to this table under this key. -/
def Write.Hits (w : Write) (h : Heap) (t : Ref .table) (K : Value ⊕ Closure) : Prop :=
  w.table = t ∧ h.rawKey w.key = K

namespace Heap

variable {h h' : Heap} {t : Ref .table} {K : Value ⊕ Closure} {k v : Value}

/-- The hash is a matter of what raw equality looks at, on whatever heap. -/
theorem rawHash_congr (heq : h'.rawKey k = h.rawKey k) : h'.rawHash k = h.rawHash k := by
  cases k with
  | function r =>
    have hclosure : h'.function r = h.function r := Sum.inr.inj heq
    simp only [rawHash, closureHash, hclosure]
  | bool b => cases b <;> rfl
  | _ => rfl

theorem rawKey_of_functions_eq (heq : h'.functions = h.functions) (v : Value) :
    h'.rawKey v = h.rawKey v := by
  cases v <;> simp [rawKey, function, heq]

theorem rawKeys_of_functions_eq (heq : h'.functions = h.functions) : h'.rawKeys = h.rawKeys := by
  obtain ⟨units, functions, contexts, tables, vectors, coroutines⟩ := h
  obtain ⟨units', functions', contexts', tables', vectors', coroutines'⟩ := h'
  cases heq
  rfl

theorem respects_rawKey (h : Heap) (K : Value ⊕ Closure) :
    h.rawKeys.Respects fun v => h.rawKey v = K := by
  intro a b hsame ha
  rw [← ha]
  exact ((h.rawEquals_iff a b).mp hsame).symm

/-- **A table keeps a key**: it is keyed as far as this one key is concerned. -/
def Keeps (h : Heap) (t : Ref .table) (K : Value ⊕ Closure) : Prop :=
  (h.table t).Keyed h.rawKeys fun v => h.rawKey v = K

/-- **No key of a table becomes or ceases to be this one.** -/
def Spares (t : Ref .table) (K : Value ⊕ Closure) (h h' : Heap) : Prop :=
  ∀ k ∈ (h.table t).keys, h.rawKey k = K ↔ h'.rawKey k = K

/-- A key that is no function is spared by everything. -/
theorem spares_inl (t : Ref .table) (v : Value) (h h' : Heap) : Spares t (.inl v) h h' := by
  intro k _
  cases k <;> simp [rawKey]

theorem table_of_tables_eq (heq : h'.tables = h.tables) (t : Ref .table) :
    h'.table t = h.table t := by
  rw [table, heq]
  rfl

/-- A write is an insertion, if the table is there. -/
theorem table_writeEntry_self (ht : h.tables.Holds t) (k v : Value) :
    (h.writeEntry t k v).table t = (h.table t).insert h.rawKeys k v :=
  table_modify_self ht _

/-- A table after a write: it is the one that was written to, or is as it was. -/
theorem table_writeEntry (h : Heap) (w : Write) (t : Ref .table) :
    (t = w.table ∧ (h.writeEntry w.table w.key w.value).table t
      = (h.table t).insert h.rawKeys w.key w.value) ∨
    (h.writeEntry w.table w.key w.value).table t = h.table t := by
  by_cases hne : t = w.table
  · subst hne
    by_cases ht : h.tables.Holds w.table
    · exact .inl ⟨rfl, table_writeEntry_self ht _ _⟩
    · exact .inr (table_modify_of_not_holds ht _)
  · exact .inr (table_modify_of_ne hne _)

/-- A table has a value under a key. -/
def Has (h : Heap) (t : Ref .table) (K : Value ⊕ Closure) (v : Value) : Prop :=
  ∃ k, (k, v) ∈ (h.table t).toList ∧ h.rawKey k = K

/-! ### What a turn keeps -/

theorem keeps_empty (t : Ref .table) (K : Value ⊕ Closure) : Heap.empty.Keeps t K :=
  .empty (rawKeys_lawful _) (respects_rawKey _ K)

namespace Keeps

/-- Whatever leaves the entries alone and spares the key. -/
theorem spared (hkeeps : h.Keeps t K) (hsame : h.SameEntries h') (hspares : Spares t K h h') :
    h'.Keeps t K := by
  refine Table.Keyed.rekeyed hkeeps (rawKeys_lawful h') (respects_rawKey h' K) (hsame t) ?_ ?_
  · intro k hk hK
    have hold := (hspares k hk).mpr hK
    exact ⟨hold, rawHash_congr (hK.trans hold.symm)⟩
  · intro a ha b hb hK hequal
    have hab := (h'.rawEquals_iff a b).mp hequal
    refine (h.rawEquals_iff a b).mpr ?_
    rw [(hspares a ha).mpr hK, (hspares b hb).mpr (hab.symm.trans hK)]

/-- Whatever stores an entry, in this table or in another one. -/
theorem written (hkeeps : h.Keeps t K) {w : Write} (hdeals : h.Deals (some w) h') :
    h'.Keeps t K := by
  obtain ⟨htables, hfunctions⟩ := hdeals
  unfold Keeps
  rw [rawKeys_of_functions_eq hfunctions, table_of_tables_eq htables]
  simp only [rawKey_of_functions_eq hfunctions]
  rcases table_writeEntry h w t with ⟨-, hinsert⟩ | hsame
  · rw [hinsert]
    exact Table.Keyed.insert hkeeps w.key w.value
  · rw [hsame]
    exact hkeeps

/-- **A turn** keeps a key that it spares. -/
theorem deals {w : Option Write} (hkeeps : h.Keeps t K) (hdeals : h.Deals w h')
    (hspares : Spares t K h h') : h'.Keeps t K := by
  cases w with
  | none => exact hkeeps.spared hdeals hspares
  | some w => exact hkeeps.written hdeals

/-- What is read under a key is what the table has under it. -/
theorem readEntry_iff (hkeeps : h.Keeps t K) (hk : h.rawKey k = K) :
    h.readEntry t k = some v ↔ h.Has t K v := by
  rw [readEntry, Table.Keyed.get?_eq_some_iff_mem hkeeps hk]
  refine exists_congr fun k' => and_congr_right fun _ => ?_
  rw [← hk]
  exact (h.rawEquals_iff k k').trans eq_comm

end Keeps

/-- **A turn** leaves a value where it is, if it spares its key and stores nothing under it. -/
theorem Has.deals {w : Option Write} (hhas : h.Has t K v) (hkeeps : h.Keeps t K)
    (hdeals : h.Deals w h') (hspares : Spares t K h h')
    (hother : ∀ x, w = some x → ¬ x.Hits h t K) : h'.Has t K v := by
  obtain ⟨k, hmem, hk⟩ := hhas
  cases w with
  | none =>
    obtain ⟨metatable, htable⟩ := hdeals t
    refine ⟨k, ?_, (hspares k ?_).mp hk⟩
    · rw [htable]
      exact hmem
    · rw [Table.keys_eq_map_toList]
      exact List.mem_map.mpr ⟨_, hmem, rfl⟩
  | some w =>
    have hkeeps' := hkeeps.written hdeals
    obtain ⟨htables, hfunctions⟩ := hdeals
    have hk' : h'.rawKey k = K := (rawKey_of_functions_eq hfunctions k).trans hk
    rw [← hkeeps'.readEntry_iff hk']
    have hread : h.readEntry t k = some v := (hkeeps.readEntry_iff hk).mpr ⟨k, hmem, hk⟩
    rw [readEntry, rawKeys_of_functions_eq hfunctions, table_of_tables_eq htables]
    rcases table_writeEntry h w t with ⟨rfl, hinsert⟩ | hsame
    · have hne : h.rawKeys.equals k w.key = false := by
        refine Bool.eq_false_iff.mpr fun hequal => hother w rfl ⟨rfl, ?_⟩
        rw [← hk]
        exact ((h.rawEquals_iff k w.key).mp hequal).symm
      rw [hinsert, Table.Keyed.get?_insert hkeeps hk, hne]
      exact hread
    · rw [hsame]
      exact hread

/-- What is stored is there. -/
theorem Has.written {w : Write} (hkeeps : h.Keeps w.table (h.rawKey w.key))
    (ht : h.tables.Holds w.table) (hdeals : h.Deals (some w) h') :
    h'.Has w.table (h.rawKey w.key) w.value := by
  have hkeeps' := hkeeps.written hdeals
  obtain ⟨htables, hfunctions⟩ := hdeals
  have hk' : h'.rawKey w.key = h.rawKey w.key := rawKey_of_functions_eq hfunctions w.key
  rw [← hkeeps'.readEntry_iff hk', readEntry, rawKeys_of_functions_eq hfunctions,
    table_of_tables_eq htables, table_writeEntry_self ht, Table.Keyed.get?_insert hkeeps rfl,
    if_pos ((rawKeys_lawful h).refl w.key)]

/-! ### Histories -/

/-- **What can happen to a heap at once**, marked with what is stored: a step of a machine, or
something that is done from outside, which stores an entry or leaves all entries as they are. -/
inductive Turn (host : Host σ) : Option Write → Heap → Heap → Prop
  | step (M : Machine σ) : Turn host M.writes? M.heap (Exec.last (Exec.step host M)).heap
  | arrange {h h' : Heap} (entries : h.SameEntries h') : Turn host none h h'
  | put (h : Heap) (w : Write) : Turn host (some w) h (h.writeEntry w.table w.key w.value)

theorem Turn.deals {host : Host σ} {w : Option Write} (turn : Turn host w h h') :
    h.Deals w h' := by
  cases turn with
  | step M => exact Exec.step_deals host M
  | arrange entries => exact entries
  | put w => exact ⟨rfl, rfl⟩

/-- Any number of turns of some sort. -/
abbrev Turns (host : Host σ) (allowed : Option Write → Heap → Heap → Prop) :
    Heap → Heap → Prop :=
  Relation.ReflTransGen fun h h' => ∃ w, Turn host w h h' ∧ allowed w h h'

/-- The heaps that any history leads to. -/
abbrev Reached (host : Host σ) (h : Heap) : Prop :=
  Turns host (fun _ _ _ => True) .empty h

/-- No turn touches the key of a table. -/
abbrev Sparing (t : Ref .table) (K : Value ⊕ Closure) (_ : Option Write) :
    Heap → Heap → Prop :=
  Spares t K

/-- No turn touches the key of a table or stores anything under it. -/
def Leaving (t : Ref .table) (K : Value ⊕ Closure) (w : Option Write) (h h' : Heap) : Prop :=
  Spares t K h h' ∧ ∀ x, w = some x → ¬ x.Hits h t K

/-- **A history that spares a key** keeps it. -/
theorem Keeps.turns {host : Host σ} (hkeeps : h.Keeps t K)
    (turns : Turns host (Sparing t K) h h') : h'.Keeps t K := by
  induction turns with
  | refl => exact hkeeps
  | tail _ turn ih =>
    obtain ⟨w, turn, hspares⟩ := turn
    exact ih.deals turn.deals hspares

/-- **A history that leaves a key** leaves the value where it is. -/
theorem Has.turns {host : Host σ} (hhas : h.Has t K v) (hkeeps : h.Keeps t K)
    (turns : Turns host (Leaving t K) h h') : h'.Has t K v ∧ h'.Keeps t K := by
  induction turns with
  | refl => exact ⟨hhas, hkeeps⟩
  | tail _ turn ih =>
    obtain ⟨w, turn, hspares, hother⟩ := turn
    obtain ⟨hhas, hkeeps⟩ := ih
    exact ⟨hhas.deals hkeeps turn.deals hspares hother, hkeeps.deals turn.deals hspares⟩

/-- Every history spares a key that is no function. -/
theorem Reached.sparing {host : Host σ} (hreached : h.Reached host) (t : Ref .table) (v : Value) :
    Turns host (Sparing t (.inl v)) .empty h := by
  induction hreached with
  | refl => exact .refl
  | tail _ turn ih =>
    obtain ⟨w, turn, -⟩ := turn
    exact ih.tail ⟨w, turn, spares_inl t v _ _⟩

/-- **A table serves a key**: an entry under it is read under it, and is the only one. -/
def Serves (h : Heap) (t : Ref .table) (K : Value ⊕ Closure) : Prop :=
  ∀ (i : Nat) (e : Entry), (h.table t).entries[i]? = some e → h.rawKey e.key = K →
    h.readEntry t e.key = some e.value ∧
    ∀ (j : Nat) (e' : Entry), (h.table t).entries[j]? = some e' →
      h.rawEquals e.key e'.key = true → j = i

theorem Keeps.serves (hkeeps : h.Keeps t K) : h.Serves t K := by
  intro i e he hK
  refine ⟨?_, fun j e' he' hequal => ?_⟩
  · have hmem : (e.key, e.value) ∈ (h.table t).toList :=
      (h.table t).mem_toList.mpr ⟨i, e, he, rfl, rfl⟩
    exact (hkeeps.readEntry_iff hK).mpr ⟨e.key, hmem, hK⟩
  · exact (Table.Keyed.eq_of_equals hkeeps he he' hK hequal).symm

/-! ### Runs are histories -/

/-- The heaps that histories lead to, as an invariant of requests. -/
def reaching (host : Host σ) : Vm.Keeping host where
  holds h := h.Reached host
  running M := M.heap.Reached host
  admits _ _ _ := True
  begin {vm r args} _ _ hvm := by
    let M := Coroutine.checkOut r vm.heap vm.state
    have hopening : M.heap.SameEntries (Exec.last (Coroutine.begin host vm r args)).heap :=
      Exec.Upholds.opening (K := (Machine.sameEntries host M.heap).toCallKeeping) _ _ _
        args (.refl _) fun _ _ _ _ _ _ hN => hN.trans (.declareVariables _ _ _)
    have hout : vm.heap.SameEntries M.heap := .of_tables_eq rfl
    exact hvm.tail ⟨none, .arrange (hout.trans hopening), trivial⟩
  step {M} hM := hM.tail ⟨M.writes?, .step M, trivial⟩
  stop _ _ _ _ hM _ := hM.tail ⟨none, .arrange (.of_tables_eq rfl), trivial⟩
  ready _ hh := hh.tail ⟨none, .arrange (.of_tables_eq rfl), trivial⟩

/-- The beginning of a request stores nothing. -/
theorem sameEntries_opened (request : Request) (h : Heap) : h.SameEntries (request.opened h) := by
  refine .of_tables_eq ?_
  rcases request.opened_cases h with
    heq | ⟨c, h₁, ⟨-, rfl⟩ | hnew, heq | ⟨closure, -, heq⟩⟩ <;> rw [heq]
  all_goals
    cases hnew
    rfl

end Heap

/-- **A read without a metamethod** ends with what the table has under the key. -/
theorem Operation.readLocal_table (host : Host σ) {s : Operation σ} {t : Ref .table} {key : Value}
    (hop : s.op = .table .readLocal) (hoperands : s.operands = [.table t, key]) :
    s.Ends host 0 [(s.machine.heap.readEntry t key).getD .nil] s.machine.heap s.machine := by
  obtain ⟨L, hstep, hL⟩ := s.first_phase host
  rw [hoperands] at hL
  have hkey : (Exec.peek 0 : Exec σ Value) L = .ok key L := hL.peek (U := [.table t]) (W := [])
  have hcontainer : (Exec.peek 1 : Exec σ Value) L = .ok (.table t) L :=
    hL.peek (U := []) (W := [key])
  obtain ⟨N, hN, hs⟩ := hL.replaceTop ((s.machine.heap.readEntry t key).getD .nil)
  have hexecute : Exec.step host s.machine = (do
      Exec.readEntry host false
      return none : Exec σ (Option Exit)) L := by
    rw [hstep, hop]
    rfl
  refine ends hexecute ?_ hs
  rw [Exec.readEntry, Exec.bind_of_ok hkey, Exec.bind_of_ok hcontainer,
    Exec.bind_of_ok (Exec.heap_apply L), hL.heap]
  exact hN

namespace Heap

/-- **Entries stay.**  Whatever runs and whatever a host does is a history of turns.  After any of
them, every entry under a key that is no function is read under that key, and no other entry has an
equal one.  The same is true of functions if no key of the table was bound to become or to cease to
be that key.  What a step stores under a key is what a later read gives, whatever has happened in
between, if nothing was stored under that key and the key was spared.  Keys that are no functions
are always spared. -/
theorem entries_stay (host : Host σ) :
    -- runs are histories
    (∀ vm : Vm σ, vm.heap.Reached host →
      (∀ fuel request, (Vm.last (Request.run host fuel request vm)).heap.Reached host) ∧
      (∀ fuel r args, (Vm.last (Coroutine.resume host fuel r args vm)).heap.Reached host) ∧
      (∀ fuel v, (Vm.last (Vm.stringify host fuel v vm)).heap.Reached host) ∧
      (∀ fuel root args head, (vm.start fuel root args).Leads host head →
        head.vm.heap.Reached host) ∧
      ∀ r args M, Coroutine.canResume (vm.heap.coroutine r).state → vm.Runs host r args M →
        M.heap.Reached host) ∧
    -- entries and their keys
    (∀ h : Heap, h.Reached host → ∀ t v, h.Serves t (.inl v)) ∧
    (∀ h t K, Turns host (Sparing t K) .empty h → h.Serves t K) ∧
    (∀ t v h h', Spares t (.inl v) h h') ∧
    -- what is stored and read later
    ∀ (M : Machine σ) w, M.writes? = some w → M.heap.tables.Holds w.table →
      Turns host (Sparing w.table (M.heap.rawKey w.key)) .empty M.heap →
      ∀ h,
        Turns host (Leaving w.table (M.heap.rawKey w.key)) (Exec.last (Exec.step host M)).heap h →
      ∀ k, h.rawKey k = M.heap.rawKey w.key →
        h.readEntry w.table k = some w.value ∧
        ∀ s : Operation σ, s.machine.heap = h → s.op = .table .readLocal →
          s.operands = [.table w.table, k] → s.Ends host 0 [w.value] h s.machine := by
  have hserves {h : Heap} {t K} (turns : Turns host (Sparing t K) .empty h) : h.Keeps t K :=
    (keeps_empty t K).turns turns
  have hmade {h : Heap} {c : Coroutine} (hh : h.Reached host) : (h.newCoroutine c).2.Reached host :=
    hh.tail ⟨none, .arrange (.of_tables_eq rfl), trivial⟩
  refine ⟨fun vm hvm => ⟨?_, ?_, ?_, ?_, ?_⟩, ?_, fun h t K turns => (hserves turns).serves,
    spares_inl, ?_⟩
  · intro fuel request
    have hopened : (request.opened vm.heap).Reached host :=
      hvm.tail ⟨none, .arrange (sameEntries_opened request vm.heap), trivial⟩
    exact (reaching host).request (fun _ _ _ => trivial) vm fuel request hopened fun _ =>
      hmade hopened
  · intro fuel r args
    exact (reaching host).resume hvm fuel args trivial
  · intro fuel v
    exact (reaching host).stringify (fun _ _ _ => trivial) vm fuel v hvm fun _ => hmade hvm
  · intro fuel root args head leads
    have hstart : (vm.start fuel root args).vm.heap.Reached host := hvm
    exact (reaching host).leads_of_admits hstart (fun _ _ _ _ => trivial) leads
  · intro r args M haccepted runs
    exact (reaching host).runs hvm haccepted trivial runs
  · intro h hreached t v
    exact (hserves (hreached.sparing t v)).serves
  · intro M w hw ht turns h later k hk
    have hkeeps := hserves turns
    have hdeals := Exec.step_deals host M
    rw [hw] at hdeals
    obtain ⟨hhas, hkeeps'⟩ := (Has.written hkeeps ht hdeals).turns (hkeeps.written hdeals) later
    have hread := (hkeeps'.readEntry_iff hk).mpr hhas
    refine ⟨hread, fun s hheap hop hoperands => ?_⟩
    subst hheap
    have hends := Operation.readLocal_table host hop hoperands
    rw [hread] at hends
    exact hends

/-- A closure that stores a value under a function and then binds another function. -/
def binding : Heap :=
  { Heap.empty with
    units :=
      ⟨#[⟨#[⟨"storing", #[(Op.table .updateLocal).byte, (Op.control .bind).byte], 0, []⟩,
      ⟨"key", #[], 0, []⟩], #[], 0⟩]⟩
    functions := ⟨#[⟨⟨0⟩, 0, none⟩, ⟨⟨0⟩, 1, none⟩, ⟨⟨0⟩, 1, none⟩]⟩
    contexts := ⟨#[default]⟩
    tables := ⟨#[.empty]⟩ }

end Heap

/-- The closure at its beginning, with the operands of both instructions. -/
def Machine.binding : Machine Unit where
  heap := .binding
  memory := { Stacks.new .standard with
    values := (Stack.withCapacity 4).pushAll
      [.function ⟨2⟩, .int 7, .table ⟨0⟩, .function ⟨1⟩]
    frames := (Stack.withCapacity 4).push
      ⟨.bytecode ⟨0⟩ ⟨0⟩, 0, 0, 0, 0, 0, 0, 0, 0, none, .none⟩ }
  config := .standard
  state := ()

namespace Heap

/-- The key is a function, and an equal one is bound before it is read. -/
theorem entries_stay_binding :
    let M := Machine.binding
    let N := Exec.last (Exec.step .bare M)
    let L := Exec.last (Exec.step .bare N)
    M.writes? = some ⟨⟨0⟩, .function ⟨1⟩, .int 7⟩ ∧ N.writes? = none ∧
      N.heap.rawEquals (.function ⟨1⟩) (.function ⟨2⟩) = true ∧
      L.heap.rawEquals (.function ⟨1⟩) (.function ⟨2⟩) = false ∧
      L.heap.readEntry ⟨0⟩ (.function ⟨1⟩) = some (.int 7) := by
  intro M N L
  have hwrites : M.writes? = some ⟨⟨0⟩, .function ⟨1⟩, .int 7⟩ := by decide +kernel
  have hnone : N.writes? = none := by decide +kernel
  have hfirst :
      Turns .bare (Sparing ⟨0⟩ (M.heap.rawKey (.function ⟨1⟩))) .empty M.heap := by
    have hnew : SameEntries .empty M.heap := (SameEntries.newTable .empty).trans (.of_tables_eq rfl)
    exact .single ⟨none, .arrange hnew, nofun⟩
  have hspares : ∀ k ∈ (N.heap.table ⟨0⟩).keys,
    N.heap.rawKey k = M.heap.rawKey (.function ⟨1⟩) ↔
      L.heap.rawKey k = M.heap.rawKey (.function ⟨1⟩) := by
    decide +kernel
  have hlater :
      Turns .bare (Leaving ⟨0⟩ (M.heap.rawKey (.function ⟨1⟩))) N.heap L.heap := by
    refine .single ⟨N.writes?, .step N, hspares, ?_⟩
    rw [hnone]
    nofun
  have hread := (entries_stay Host.bare).2.2.2.2 M _ hwrites Nat.zero_lt_one hfirst L.heap hlater
    (.function ⟨1⟩) (by decide +kernel)
  exact ⟨hwrites, hnone, by decide +kernel, by decide +kernel, hread.1⟩

/-- A closure that stores a value under a function, binds that function, and reads under it. -/
def rebinding : Heap :=
  { Heap.empty with
    units := ⟨#[⟨#[
      ⟨"rebinding",
        #[(Op.loadFunction .short).byte, .ofNat 1, (Op.storeLocal (.wide .short)).byte, .ofNat 0,
          (Op.loadConstant .newTable).byte, (Op.storeLocal (.wide .short)).byte, .ofNat 1,
          (Op.loadInt (.wide .short)).byte, .ofNat 3, (Op.loadLocal (.wide .short)).byte, .ofNat 1,
          (Op.loadLocal (.wide .short)).byte, .ofNat 0, (Op.table .updateLocal).byte,
          (Op.loadLocal (.wide .short)).byte, .ofNat 0, (Op.control .bind).byte,
          (Op.control .pop).byte, (Op.loadLocal (.wide .short)).byte, .ofNat 1,
          (Op.loadLocal (.wide .short)).byte, .ofNat 0, (Op.table .readLocal).byte,
          (Op.control .ret).byte],
        2, []⟩,
      ⟨"key", #[], 0, []⟩], #[], 0⟩]⟩
    functions := ⟨#[⟨⟨0⟩, 0, none⟩]⟩ }

end Heap

/-- A function that is bound while it is a key is not found any more: its entry is still there, but
is not read under it. -/
theorem Heap.entry_lost_by_binding :
    let vm : Vm Unit := { Vm.new .standard () with heap := .rebinding }
    let result := Request.run .bare 40 (.function ⟨0⟩ []) vm
    Vm.values? result = some [.nil] ∧
      ((Vm.last result).heap.table ⟨0⟩).toList = [(.function ⟨1⟩, .int 3)] ∧
      (Vm.last result).heap.readEntry ⟨0⟩ (.function ⟨1⟩) = none := by
  decide +kernel

end ScriptVm
