import ScriptVm.Table

/-!
# Chains

A table says three times where its entries are: in the order of the entries, in
the bucket heads, and in the links between entries.  The table is *linked* if the
three agree.  The head of a bucket is then the newest entry of that bucket, and
each entry links to the next older one of its bucket.

Both an insertion and a move to another bucket count put one entry after the other
in front of its chain, oldest first.  `LinkedTo.relink` is that step, and all
tables are linked because of it.

A walk along a chain does not look at the ages of the entries.  It is given here as
a relation, in which every walk is finite by itself: `Seeks` is the way to the
next entry of a hash, `Walks` the whole walk, `Finds` the search for a key.  In a
linked table there is exactly one walk for each hash, and it comes by the entries
of that hash, newest first.

Main statements: `Linked.append`, `Linked.resize`, `Linked.chain_eq`,
`Linked.walks_iff` and `Linked.finds_iff`.
-/

namespace ScriptVm.Table

/-! ### Numbers in descending order -/

/-- The numbers below `n` with a property, the largest first. -/
def below (p : Nat → Bool) : Nat → List Nat
  | 0 => []
  | n + 1 => if p n then n :: below p n else below p n

section

variable {p q : Nat → Bool} {n j : Nat}

theorem below_eq (p : Nat → Bool) (n : Nat) : below p n = (List.range n).reverse.filter p := by
  induction n with
  | zero => rfl
  | succ n ih =>
    rw [below, List.range_succ, List.reverse_append, List.reverse_singleton, List.singleton_append,
      List.filter_cons, ih]

theorem mem_below : j ∈ below p n ↔ j < n ∧ p j = true := by
  simp [below_eq]

theorem below_congr (h : ∀ i < n, p i = q i) : below p n = below q n := by
  induction n with
  | zero => rfl
  | succ n ih =>
    rw [below, below, h n (Nat.lt_succ_self n), ih fun i hi => h i (Nat.lt_succ_of_lt hi)]

/-- After its first number, the list goes on as the one below that. -/
theorem below_of_head (h : (below p n).head? = some j) : below p n = j :: below p j := by
  induction n with
  | zero => cases h
  | succ n ih =>
    by_cases hp : p n
    · rw [below, if_pos hp] at h ⊢
      cases h
      rfl
    · rw [below, if_neg hp] at h ⊢
      exact ih h

theorem filter_below (h : ∀ i < n, q i = true → p i = true) :
    (below p n).filter q = below q n := by
  rw [below_eq, below_eq, List.filter_filter]
  refine List.filter_congr fun i hi => ?_
  have hlt : i < n := by simpa using hi
  cases hq : q i with
  | false => rfl
  | true => simpa using h i hlt hq

end

/-! ### Linked tables -/

/-- The hash that an entry was inserted under. -/
def hashAt? (t : Table) (id : Nat) : Option UInt64 :=
  (t.entries[id]?).map Entry.hash

/-- Whether an entry was inserted under this hash. -/
def isUnder (t : Table) (hash : UInt64) (id : Nat) : Bool :=
  (t.hashAt? id).any (· == hash)

/-- Whether an entry belongs to this bucket. -/
def liesIn (t : Table) (bucket id : Nat) : Bool :=
  (t.hashAt? id).any fun hash => t.bucketOf hash == bucket

/-- **The first `n` entries are linked**: bucket heads and links are what the order of the entries
says. -/
structure LinkedTo (n : Nat) (t : Table) : Prop where
  room : 0 < t.buckets.size
  heads : ∀ b < t.buckets.size, t.buckets[b]? = some (below (t.liesIn b) n).head?
  links : ∀ id e, id < n → t.entries[id]? = some e →
    e.next = (below (t.liesIn (t.bucketOf e.hash)) id).head?

/-- All entries are linked. -/
abbrev Linked (t : Table) : Prop :=
  LinkedTo t.entries.size t

section

variable {t u : Table} {n id bucket count : Nat} {hash : UInt64} {e : Entry}

theorem bucketOf_lt (h : 0 < t.buckets.size) : t.bucketOf hash < t.buckets.size :=
  Nat.mod_lt _ h

theorem hashAt?_eq (h : t.entries[id]? = some e) : t.hashAt? id = some e.hash := by
  rw [hashAt?, h]
  rfl

theorem isUnder_eq (h : t.entries[id]? = some e) : t.isUnder hash id = (e.hash == hash) := by
  rw [isUnder, hashAt?_eq h]
  rfl

theorem liesIn_eq (h : t.entries[id]? = some e) :
    t.liesIn bucket id = (t.bucketOf e.hash == bucket) := by
  rw [liesIn, hashAt?_eq h]
  rfl

theorem exists_of_isUnder (h : t.isUnder hash id = true) :
    ∃ e, t.entries[id]? = some e ∧ e.hash = hash := by
  obtain ⟨hash', hget, hsame⟩ := (Option.any_eq_true _ _).mp h
  obtain ⟨e, he, rfl⟩ := Option.map_eq_some_iff.mp hget
  exact ⟨e, he, by simpa using hsame⟩

theorem exists_of_liesIn (h : t.liesIn bucket id = true) :
    ∃ e, t.entries[id]? = some e ∧ t.bucketOf e.hash = bucket := by
  obtain ⟨hash, hget, hsame⟩ := (Option.any_eq_true _ _).mp h
  obtain ⟨e, he, rfl⟩ := Option.map_eq_some_iff.mp hget
  exact ⟨e, he, by simpa using hsame⟩

/-- The entries of a hash are in its bucket. -/
theorem liesIn_of_isUnder (h : t.isUnder hash id = true) :
    t.liesIn (t.bucketOf hash) id = true := by
  obtain ⟨e, he, hsame⟩ := exists_of_isUnder h
  simp [liesIn_eq he, hsame]

theorem liesIn_congr (hsize : u.buckets.size = t.buckets.size)
    (hhash : u.hashAt? id = t.hashAt? id) : u.liesIn bucket id = t.liesIn bucket id := by
  simp only [liesIn, bucketOf, hsize, hhash]

/-- Only the bucket heads and the first `n` entries matter. -/
theorem LinkedTo.congr (h : LinkedTo n t) (hbuckets : u.buckets = t.buckets)
    (hhash : ∀ id < n, u.hashAt? id = t.hashAt? id)
    (hlink : ∀ id < n, u.link? id = t.link? id) : LinkedTo n u := by
  have hsize : u.buckets.size = t.buckets.size := by rw [hbuckets]
  have hlies (b m : Nat) (hm : m ≤ n) : below (u.liesIn b) m = below (t.liesIn b) m :=
    below_congr fun i hi => liesIn_congr hsize (hhash i (Nat.lt_of_lt_of_le hi hm))
  refine ⟨hsize ▸ h.room, fun b hb => ?_, fun id e hid he => ?_⟩
  · rw [hbuckets, hlies b n (Nat.le_refl n)]
    exact h.heads b (hsize ▸ hb)
  · have hhash' : t.hashAt? id = some e.hash := (hhash id hid).symm.trans (hashAt?_eq he)
    obtain ⟨e', he', hsame⟩ := Option.map_eq_some_iff.mp hhash'
    have hnext : e.next = e'.next := by
      have := hlink id hid
      simpa [link?, he, he'] using this
    have hbucket : u.bucketOf e.hash = t.bucketOf e'.hash := by
      rw [bucketOf, bucketOf, hsize, hsame]
    rw [hnext, hbucket, hlies _ id (Nat.le_of_lt hid)]
    exact h.links id e' hid he'

end

/-! ### Linking one more entry -/

section

variable {t : Table} {n id : Nat} {e : Entry}

theorem relink_eq (h : t.entries[id]? = some e) :
    t.relink id = { t with
      entries := t.entries.setIfInBounds id
        { e with next := (t.buckets[t.bucketOf e.hash]?).join }
      buckets := t.buckets.setIfInBounds (t.bucketOf e.hash) (some id) } := by
  rw [relink, h]

@[simp] theorem size_buckets_relink (t : Table) (id : Nat) :
    (t.relink id).buckets.size = t.buckets.size := by
  unfold relink
  split <;> simp

@[simp] theorem size_entries_relink (t : Table) (id : Nat) :
    (t.relink id).entries.size = t.entries.size := by
  unfold relink
  split <;> simp

@[simp] theorem hashAt?_relink (t : Table) (id i : Nat) :
    (t.relink id).hashAt? i = t.hashAt? i := by
  cases he : t.entries[id]? with
  | none => simp [relink, he]
  | some e =>
    rw [relink_eq he, hashAt?, hashAt?, Array.getElem?_setIfInBounds]
    split
    · next hi =>
      subst hi
      obtain ⟨hlt, rfl⟩ := Array.getElem?_eq_some_iff.mp he
      simp [hlt]
    · rfl

@[simp] theorem liesIn_relink (t : Table) (id bucket : Nat) :
    (t.relink id).liesIn bucket = t.liesIn bucket := by
  funext i
  exact liesIn_congr (size_buckets_relink t id) (hashAt?_relink t id i)

theorem entries_relink_of_ne (t : Table) {i : Nat} (hi : i ≠ id) :
    (t.relink id).entries[i]? = t.entries[i]? := by
  unfold relink
  split
  · exact Array.getElem?_setIfInBounds_ne hi.symm
  · rfl

/-- **The next entry is put in front of its chain.** -/
theorem LinkedTo.relink (h : LinkedTo n t) (hn : n < t.entries.size) :
    LinkedTo (n + 1) (t.relink n) := by
  have he : t.entries[n]? = some t.entries[n] := Array.getElem?_eq_getElem hn
  generalize t.entries[n] = e at he
  have hhead := h.heads (t.bucketOf e.hash) (bucketOf_lt h.room)
  refine ⟨by rw [size_buckets_relink]; exact h.room, fun b hb => ?_, fun id e' hid he' => ?_⟩
  · rw [size_buckets_relink] at hb
    rw [liesIn_relink, below, liesIn_eq he, relink_eq he, Array.getElem?_setIfInBounds]
    by_cases hsame : t.bucketOf e.hash = b
    · simp [hsame, hb]
    · simp [hsame, h.heads b hb]
  · rw [liesIn_relink]
    have hbucketOf : (t.relink n).bucketOf e'.hash = t.bucketOf e'.hash := by
      rw [bucketOf, bucketOf, size_buckets_relink]
    rw [hbucketOf]
    by_cases hnew : id = n
    · subst hnew
      rw [relink_eq he, Array.getElem?_setIfInBounds_self_of_lt hn] at he'
      cases he'
      simp [hhead]
    · rw [entries_relink_of_ne t hnew] at he'
      exact h.links id e' (by omega) he'

end

/-! ### The tables that operations make -/

section

variable {t : Table}

theorem linked_empty : Linked empty where
  room := by decide
  heads b hb := by
    have hb' : b < firstPrime := by simpa [empty] using hb
    simp [empty, below, hb']
  links id e hid := by cases hid

/-- **The table is linked after a move to another bucket count**, whatever it was before. -/
theorem linked_resize (t : Table) {count : Nat} (hcount : 0 < count) : (t.resize count).Linked := by
  have hstep (n : Nat) (hn : n ≤ t.entries.size) :
      let u := (List.range n).foldl Table.relink { t with buckets := Array.replicate count none }
      u.entries.size = t.entries.size ∧ LinkedTo n u := by
    induction n with
    | zero =>
      refine ⟨rfl, by simpa using hcount, fun b hb => ?_, fun id e hid => nomatch hid⟩
      have hb' : b < count := by simpa using hb
      simp [below, hb']
    | succ n ih =>
      obtain ⟨hsize, hlinked⟩ := ih (by omega)
      rw [List.range_succ, List.foldl_append]
      refine ⟨by simpa using hsize, hlinked.relink ?_⟩
      rw [hsize]
      omega
  obtain ⟨hsize, hlinked⟩ := hstep t.entries.size (Nat.le_refl _)
  rw [Linked, resize, hsize]
  exact hlinked

theorem Linked.makeRoom (h : t.Linked) : t.makeRoom.Linked := by
  unfold Table.makeRoom
  split
  · exact t.linked_resize (nextPrime_pos _)
  · exact h

/-- An entry is appended, and then put in front of its chain. -/
theorem append_eq_relink (t : Table) (hash : UInt64) (key value : Value) :
    t.append hash key value
      = ({ t.makeRoom with
          entries := t.makeRoom.entries.push { hash, next := none, key, value } } : Table).relink
            t.makeRoom.entries.size := by
  have hlast (es : Array Entry) (e : Entry) : (es.push e)[es.size]? = some e := by simp
  have hset (es : Array Entry) (e e' : Entry) :
      (es.push e).setIfInBounds es.size e' = es.push e' := by
    simp [Array.setIfInBounds, Array.set_push]
  rw [relink_eq (hlast _ _), append, hset]
  rfl

theorem Linked.append (h : t.Linked) (hash : UInt64) (key value : Value) :
    (t.append hash key value).Linked := by
  let u : Table := { t.makeRoom with
    entries := t.makeRoom.entries.push { hash, next := none, key, value } }
  have hsize : u.entries.size = t.makeRoom.entries.size + 1 := by simp [u]
  have hold (id : Nat) (hid : id < t.makeRoom.entries.size) :
      u.entries[id]? = t.makeRoom.entries[id]? := by
    simp [u, Array.getElem?_push, Nat.ne_of_lt hid]
  have hu : LinkedTo t.makeRoom.entries.size u :=
    h.makeRoom.congr rfl (fun id hid => by rw [hashAt?, hashAt?, hold id hid])
      fun id hid => by rw [link?, link?, hold id hid]
  have hlinked := hu.relink (by omega)
  rw [append_eq_relink, Linked, size_entries_relink, hsize]
  exact hlinked

theorem entries_setValue (t : Table) (id i : Nat) (value : Value) :
    (t.setValue id value).entries[i]?
    = (t.entries[i]?).map fun e => if i = id then { e with value } else e := by
  simp only [setValue, Array.getElem?_modify]
  by_cases hi : id = i
  · simp [hi]
  · simp [hi, Ne.symm hi]

theorem Linked.setValue (h : t.Linked) (id : Nat) (value : Value) :
    (t.setValue id value).Linked := by
  have hsize : (t.setValue id value).entries.size = t.entries.size := by simp [Table.setValue]
  rw [Linked, hsize]
  refine LinkedTo.congr h rfl (fun i _ => ?_) fun i _ => ?_
  · rw [hashAt?, hashAt?, entries_setValue, Option.map_map]
    congr 1
    funext e
    simp only [Function.comp]
    split <;> rfl
  · rw [link?, link?, entries_setValue]
    cases t.entries[i]? with
    | none => rfl
    | some e =>
      simp only [Option.map_some, Option.bind_some]
      split <;> rfl

end

/-! ### Walking along a chain -/

/-- **The way to the next entry of a hash**: from a place of the chain on, entries of other hashes
are skipped. -/
inductive Seeks (t : Table) (hash : UInt64) : Option Nat → Option Nat → Prop
  | ends : Seeks t hash none none
  | stops {id : Nat} {e : Entry} (entry : t.entries[id]? = some e) (same : e.hash = hash) :
      Seeks t hash (some id) (some id)
  | skips {id : Nat} {e : Entry} {found : Option Nat} (entry : t.entries[id]? = some e)
      (other : e.hash ≠ hash) (rest : Seeks t hash e.next found) : Seeks t hash (some id) found

/-- The place where the search for the next entry of a hash begins: the head of the bucket, or what
the previous entry links to. -/
def nextPlace (t : Table) (hash : UInt64) : Option Nat → Option Nat
  | none => (t.buckets[t.bucketOf hash]?).join
  | some id => t.link? id

/-- The entry of a hash that comes after another one, or first of all. -/
def NextEntry (t : Table) (hash : UInt64) (prev found : Option Nat) : Prop :=
  t.Seeks hash (t.nextPlace hash prev) found

/-- **A whole walk**: the entries of a hash that come after another one. -/
inductive Walks (t : Table) (hash : UInt64) : Option Nat → List Nat → Prop
  | ends {prev : Option Nat} (next : t.NextEntry hash prev none) : Walks t hash prev []
  | comes {prev : Option Nat} {id : Nat} {ids : List Nat} (next : t.NextEntry hash prev (some id))
      (rest : Walks t hash (some id) ids) : Walks t hash prev (id :: ids)

/-- **The search for a key**, which stops at the first entry with that key. -/
inductive Finds (t : Table) (keys : KeyComparer) (key : Value) : Option Nat → Option Nat → Prop
  | fails {prev : Option Nat} (next : t.NextEntry (keys.hash key) prev none) :
      Finds t keys key prev none
  | hits {prev : Option Nat} {id : Nat} {e : Entry}
      (next : t.NextEntry (keys.hash key) prev (some id)) (entry : t.entries[id]? = some e)
      (same : keys.equals key e.key = true) : Finds t keys key prev (some id)
  | passes {prev found : Option Nat} {id : Nat} {e : Entry}
      (next : t.NextEntry (keys.hash key) prev (some id)) (entry : t.entries[id]? = some e)
      (other : keys.equals key e.key = false) (rest : Finds t keys key (some id) found) :
      Finds t keys key prev found

section

variable {t : Table} {hash : UInt64} {place prev found found' : Option Nat} {ids ids' : List Nat}
  {keys : KeyComparer} {key : Value}

theorem Seeks.unique (h : t.Seeks hash place found) (h' : t.Seeks hash place found') :
    found = found' := by
  induction h with
  | ends =>
    cases h'
    rfl
  | stops entry same =>
    cases h' with
    | stops entry' same' => rfl
    | skips entry' other' rest' =>
      cases entry.symm.trans entry'
      exact absurd same other'
  | skips entry other rest ih =>
    cases h' with
    | stops entry' same' =>
      cases entry.symm.trans entry'
      exact absurd same' other
    | skips entry' other' rest' =>
      cases entry.symm.trans entry'
      exact ih rest'

theorem NextEntry.unique (h : t.NextEntry hash prev found) (h' : t.NextEntry hash prev found') :
    found = found' :=
  Seeks.unique h h'

theorem Walks.unique (h : t.Walks hash prev ids) (h' : t.Walks hash prev ids') : ids = ids' := by
  induction h generalizing ids' with
  | ends next =>
    cases h' with
    | ends next' => rfl
    | comes next' rest' => cases next.unique next'
  | comes next rest ih =>
    cases h' with
    | ends next' => cases next.unique next'
    | comes next' rest' =>
      cases next.unique next'
      rw [ih rest']

theorem Finds.unique (h : t.Finds keys key prev found) (h' : t.Finds keys key prev found') :
    found = found' := by
  induction h with
  | fails next =>
    cases h' with
    | fails next' => rfl
    | hits next' entry' same' => cases next.unique next'
    | passes next' entry' other' rest' => cases next.unique next'
  | hits next entry same =>
    cases h' with
    | fails next' => cases next.unique next'
    | hits next' entry' same' => exact next.unique next'
    | passes next' entry' other' rest' =>
      cases next.unique next'
      cases entry.symm.trans entry'
      cases same.symm.trans other'
  | passes next entry other rest ih =>
    cases h' with
    | fails next' => cases next.unique next'
    | hits next' entry' same' =>
      cases next.unique next'
      cases entry.symm.trans entry'
      cases other.symm.trans same'
    | passes next' entry' other' rest' =>
      cases next.unique next'
      exact ih rest'

/-- A search goes along the walk of its hash. -/
theorem Walks.finds (h : t.Walks (keys.hash key) prev ids)
    (hids : ∀ id ∈ ids, id < t.entries.size) :
    t.Finds keys key prev
      (ids.find? fun id => (t.entries[id]?).any fun e => keys.equals key e.key) := by
  induction h with
  | ends next => exact .fails next
  | @comes prev id ids next rest ih =>
    have hid : id < t.entries.size := hids id List.mem_cons_self
    have he : t.entries[id]? = some t.entries[id] := Array.getElem?_eq_getElem hid
    generalize t.entries[id] = e at he
    have hrest := ih fun i hi => hids i (List.mem_cons_of_mem id hi)
    rw [List.find?_cons, he, Option.any_some]
    cases hsame : keys.equals key e.key with
    | true => exact .hits next he hsame
    | false => exact .passes next he hsame hrest

end

namespace Linked

variable {t : Table} {hash : UInt64} {id n : Nat} {e : Entry}

theorem head_eq (h : t.Linked) :
    (t.buckets[t.bucketOf hash]?).join
      = (below (t.liesIn (t.bucketOf hash)) t.entries.size).head? := by
  rw [h.heads _ (bucketOf_lt h.room)]
  rfl

theorem link_eq (h : t.Linked) (he : t.entries[id]? = some e) :
    t.link? id = (below (t.liesIn (t.bucketOf e.hash)) id).head? := by
  obtain ⟨hlt, -⟩ := Array.getElem?_eq_some_iff.mp he
  rw [link?, he, ← h.links id e hlt he]
  rfl

/-- The links from an entry on lead to all older entries of its bucket. -/
theorem links_eq (h : t.Linked) (he : t.entries[id]? = some e) :
    t.links id = id :: below (t.liesIn (t.bucketOf e.hash)) id := by
  induction id using Nat.strongRecOn generalizing e with
  | _ id ih =>
    rw [links, h.link_eq he]
    cases hhead : (below (t.liesIn (t.bucketOf e.hash)) id).head? with
    | none => rw [List.head?_eq_none_iff.mp hhead]
    | some older =>
      have hbelow := below_of_head hhead
      have hmem : older ∈ below (t.liesIn (t.bucketOf e.hash)) id := by simp [hbelow]
      obtain ⟨hlt, hlies⟩ := mem_below.mp hmem
      obtain ⟨e', he', hbucket⟩ := exists_of_liesIn hlies
      simp only [if_pos hlt, ih older hlt he', hbucket, hbelow]

/-- **The chain of a hash** has all its entries, newest first. -/
theorem chain_eq (h : t.Linked) : t.chain hash = below (t.isUnder hash) t.entries.size := by
  have hhead : (t.buckets[t.bucketOf hash]?).join = _ := h.head_eq
  rw [chain]
  have hfilter : (fun id => (t.entries[id]?).any fun e => e.hash == hash) = t.isUnder hash := by
    funext id
    simp [isUnder, hashAt?, Option.any_map]
  rw [hfilter, ← filter_below fun i _ hi => liesIn_of_isUnder hi]
  cases hbucket : t.buckets[t.bucketOf hash]? with
  | none =>
    rw [hbucket] at hhead
    rw [List.head?_eq_none_iff.mp hhead.symm]
    rfl
  | some newest =>
    rw [hbucket] at hhead
    cases newest with
    | none =>
      rw [List.head?_eq_none_iff.mp hhead.symm]
      rfl
    | some id =>
      have hbelow := below_of_head hhead.symm
      have hmem : id ∈ below (t.liesIn (t.bucketOf hash)) t.entries.size := by simp [hbelow]
      obtain ⟨e, he, hsame⟩ := exists_of_liesIn (mem_below.mp hmem).2
      rw [hbelow, ← hsame]
      exact congrArg _ (h.links_eq he)

/-- From the newest entry of a bucket below a place, the way leads to the newest entry of the hash
below that place. -/
theorem seeks (h : t.Linked) (hn : n ≤ t.entries.size) :
    t.Seeks hash (below (t.liesIn (t.bucketOf hash)) n).head? (below (t.isUnder hash) n).head? := by
  induction n with
  | zero => exact .ends
  | succ n ih =>
    have he : t.entries[n]? = some t.entries[n] := Array.getElem?_eq_getElem hn
    generalize t.entries[n] = e at he
    have hrest := ih (by omega)
    by_cases hsame : e.hash = hash
    · have hunder : t.isUnder hash n = true := by simp [isUnder_eq he, hsame]
      rw [below, below, if_pos hunder, if_pos (liesIn_of_isUnder hunder)]
      exact .stops he hsame
    · have hunder : ¬ t.isUnder hash n = true := by simp [isUnder_eq he, hsame]
      rw [below, below, if_neg hunder]
      by_cases hlies : t.liesIn (t.bucketOf hash) n = true
      · -- An entry of another hash in the same bucket: it is skipped.
        have hbucket : t.bucketOf e.hash = t.bucketOf hash := by simpa [liesIn_eq he] using hlies
        have hnext := h.links n e hn he
        rw [hbucket] at hnext
        rw [← hnext] at hrest
        rw [if_pos hlies]
        exact .skips he hsame hrest
      · rw [if_neg hlies]
        exact hrest

/-- The first entry of a hash is its newest one. -/
theorem nextEntry_none (h : t.Linked) :
    t.NextEntry hash none (below (t.isUnder hash) t.entries.size).head? := by
  rw [NextEntry, nextPlace, h.head_eq]
  exact h.seeks (Nat.le_refl _)

/-- After an entry comes the next older one of its hash. -/
theorem nextEntry_some (h : t.Linked) (hid : t.isUnder hash id = true) :
    t.NextEntry hash (some id) (below (t.isUnder hash) id).head? := by
  obtain ⟨e, he, hsame⟩ := exists_of_isUnder hid
  obtain ⟨hlt, -⟩ := Array.getElem?_eq_some_iff.mp he
  rw [NextEntry, nextPlace, h.link_eq he, hsame]
  exact h.seeks (Nat.le_of_lt hlt)

theorem walks_below (h : t.Linked) {prev : Option Nat} (n : Nat)
    (hnext : t.NextEntry hash prev (below (t.isUnder hash) n).head?) :
    t.Walks hash prev (below (t.isUnder hash) n) := by
  induction n using Nat.strongRecOn generalizing prev with
  | _ n ih =>
    cases hhead : (below (t.isUnder hash) n).head? with
    | none =>
      rw [hhead] at hnext
      rw [List.head?_eq_none_iff.mp hhead]
      exact .ends hnext
    | some id =>
      have hbelow := below_of_head hhead
      have hmem : id ∈ below (t.isUnder hash) n := by simp [hbelow]
      obtain ⟨hlt, hunder⟩ := mem_below.mp hmem
      rw [hhead] at hnext
      rw [hbelow]
      exact .comes hnext (ih id hlt (h.nextEntry_some hunder))

/-- **There is exactly one walk for each hash**, and it comes by the entries of that hash, newest
first. -/
theorem walks_iff (h : t.Linked) {ids : List Nat} :
    t.Walks hash none ids ↔ ids = below (t.isUnder hash) t.entries.size := by
  have hwalks : t.Walks hash none _ := h.walks_below _ h.nextEntry_none
  constructor
  · intro hids
    exact hids.unique hwalks
  · rintro rfl
    exact hwalks

/-- **The search for a key ends**, and finds what the table says. -/
theorem finds_iff (h : t.Linked) {keys : KeyComparer} {key : Value} {found : Option Nat} :
    t.Finds keys key none found ↔ found = t.find? keys key := by
  have hfinds : t.Finds keys key none (t.find? keys key) := by
    rw [find?, h.chain_eq]
    exact (h.walks_below _ h.nextEntry_none).finds fun id hid => (mem_below.mp hid).1
  constructor
  · intro hfound
    exact hfound.unique hfinds
  · rintro rfl
    exact hfinds

end Linked

end ScriptVm.Table
