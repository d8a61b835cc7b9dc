import Mathlib.Data.List.Perm.Subperm
import ScriptVm.Proofs.FileLayout

/-!
# What a reader does

A reader of unit files works on bytes that may come from anywhere.  Its loops run
over sections, texts and functions, with counts and lengths that the file itself
declares.  This file follows it through such a file.

The reader is written down once more, with loops that make no more than a given
number of rounds, and with a **diary**: it notes every slice that it takes, every
subtraction, and how far each section, text and function brings it, all in positions
of the file.  `Tells` says that a diary belongs to a reader: it comes to the same
answer, never for want of rounds, and all that it notes is in order.

Main statement: `ofBinary_ends`.
-/

namespace ScriptVm.CodeUnit.Binary

/-- Something that a reader does, at a position of the file. -/
inductive Event
  /-- Bytes are taken. -/
  | slice (start len : Nat)
  /-- A number is subtracted from another one. -/
  | difference (minuend subtrahend : Nat)
  /-- A section is visited. -/
  | visit (start : Nat)
  /-- A text was read, and the cursor is behind it. -/
  | text (start stop : Nat)
  /-- A function was read, and the cursor is behind it. -/
  | function (start stop : Nat)

namespace Event

/-- The section that is visited. -/
def visited? : Event → Option Nat
  | visit start => some start
  | _ => none

/-- What a reader does inside a section is in order: slices lie within the limit, no difference is
negative, and what was read has moved the cursor by a length field at least. -/
def Sound (limit : Nat) : Event → Prop
  | slice start len => start + len ≤ limit
  | difference minuend subtrahend => subtrahend ≤ minuend
  | visit start => 0 < start ∧ start < limit
  | text start stop | function start stop => start + 4 ≤ stop ∧ stop ≤ limit

/-- What is in order within a part of the bytes is so within all of them. -/
theorem Sound.mono {limit limit' : Nat} {e : Event} (h : e.Sound limit) (hle : limit ≤ limit') :
    e.Sound limit' := by
  cases e with
  | slice start len => exact Nat.le_trans h hle
  | difference a b => exact h
  | visit start => exact ⟨h.1, Nat.lt_of_lt_of_le h.2 hle⟩
  | text start stop | function start stop => exact ⟨h.1, Nat.le_trans h.2 hle⟩

/-- It is in order, and no section is visited. -/
def Inner (limit : Nat) (e : Event) : Prop :=
  e.Sound limit ∧ e.visited? = none

end Event

/-- The sections that were visited, in order. -/
def visits (es : List Event) : List Nat :=
  es.filterMap Event.visited?

theorem visits_append (es es' : List Event) : visits (es ++ es') = visits es ++ visits es' :=
  List.filterMap_append

theorem visits_inner {limit : Nat} {es : List Event} (h : ∀ e ∈ es, e.Inner limit) :
    visits es = [] :=
  List.filterMap_eq_nil_iff.mpr fun e he => (h e he).2

/-! ### Diaries -/

/-- Why a reader stops. -/
inductive Halt
  /-- The file is refused. -/
  | refused (e : UnitFileError)
  /-- A loop has made all its rounds. -/
  | endless

/-- A reader that notes what it does. -/
abbrev Diary := EStateM Halt (List Event)

namespace Diary

variable {α β : Type}

/-- What is noted. -/
def note (e : Event) : Diary Unit :=
  modify (· ++ [e])

/-- The file is refused. -/
def refuse (e : UnitFileError) : Diary α :=
  throw (.refused e)

/-- The slice at the cursor of a run that starts at `base` in the file. -/
def take (base : Nat) (bytes : Bytes) (cursor len : Nat) : Diary (Bytes × Nat) := do
  match Binary.take bytes cursor len with
  | .ok taken =>
    note (.slice (base + cursor) len)
    return taken
  | .error e => refuse e

/-- A difference of two numbers. -/
def subtract (a b : Nat) : Diary Nat := do
  note (.difference a b)
  return a - b

def readWord (base : Nat) (bytes : Bytes) (cursor width : Nat) : Diary (Nat × Nat) := do
  let (word, cursor) ← take base bytes cursor width
  return (Bytes.ofLittle word.toList, cursor)

def readText (base : Nat) (bytes : Bytes) (cursor : Nat) : Diary (String × Nat) := do
  let (len, offset) ← readWord base bytes cursor 4
  let (raw, next) ← take base bytes offset len
  match raw.toString? with
  | some s =>
    note (.text (base + cursor) (base + next))
    return (s, next)
  | none => refuse (.invalidUtf8 offset)

/-- A given number of texts, in as many rounds and one more. -/
def readTexts (base : Nat) (bytes : Bytes) : (rounds count cursor : Nat) →
    Diary (List String × Nat)
  | 0, _, _ => throw .endless
  | _ + 1, 0, cursor => return ([], cursor)
  | rounds + 1, count + 1, cursor => do
    let (s, cursor) ← readText base bytes cursor
    let (rest, cursor) ← readTexts base bytes rounds count cursor
    return (s :: rest, cursor)

def readFunction (base : Nat) (body : Bytes) (rounds start : Nat) :
    Diary (FunctionRecord × Nat) := do
  let (headerSize, cursor) ← readWord base body start 4
  let (size, cursor) ← readWord base body cursor 4
  let (codeLength, cursor) ← readWord base body cursor 4
  let (flags, cursor) ← readWord base body cursor 4
  let (variableCount, cursor) ← readWord base body cursor 4
  let (locals, _) ← readWord base body cursor 4
  let (_, cursor) ← take base body start headerSize
  let (name, cursor) ← readText base body cursor
  let (declared, cursor) ← readTexts base body rounds variableCount cursor
  let (code, cursor) ← take base body cursor codeLength
  if size < (← subtract cursor start) then
    refuse (.malformed start)
  else
    let (_, next) ← take base body start size
    note (.function (base + start) (base + next))
    return (⟨⟨name, code, locals, declared⟩, flags % 2 = 1⟩, next)

/-- The texts of a body, one in each round. -/
def readStrings (base : Nat) (body : Bytes) : (rounds cursor : Nat) → Diary (List String)
  | 0, _ => throw .endless
  | rounds + 1, cursor => do
    if cursor < body.size then
      let (s, next) ← readText base body cursor
      let rest ← readStrings base body rounds next
      return s :: rest
    else return []

/-- The functions of a body, one in each round. -/
def readFunctions (base : Nat) (body : Bytes) (limit : Nat) :
    (rounds cursor : Nat) → Diary (List FunctionRecord)
  | 0, _ => throw .endless
  | rounds + 1, cursor => do
    if cursor < body.size then
      let (r, next) ← readFunction base body limit cursor
      let rest ← readFunctions base body limit rounds next
      return r :: rest
    else return []

def readBody (rounds base : Nat) (u : CodeUnit) (kind : Nat) (body : Bytes) : Diary CodeUnit :=
  if kind = stringSection then do
    let more ← readStrings base body rounds 0
    return { u with strings := u.strings ++ more }
  else if kind = functionSection then do
    let more ← readFunctions base body rounds rounds 0
    return more.foldl addFunction u
  else refuse (.unknownSection kind)

/-- The section at an offset, with what it holds and where the next one is. -/
def readSection (rounds : Nat) (bytes : Bytes) (u : CodeUnit) (start : Nat) :
    Diary (CodeUnit × Nat) := do
  let (headerLength, cursor) ← readWord 0 bytes start 4
  let (sectionLength, cursor) ← readWord 0 bytes cursor 4
  let (next, cursor) ← readWord 0 bytes cursor 4
  let (kind, _) ← readWord 0 bytes cursor 2
  if next ≠ 0 ∧ next ≤ start then
    refuse (.malformed start)
  else
    let (_, bodyStart) ← take 0 bytes start headerLength
    if sectionLength < headerLength then
      refuse (.truncated start)
    else
      let bodyLength ← subtract sectionLength headerLength
      let (body, _) ← take 0 bytes bodyStart bodyLength
      let u ← readBody rounds bodyStart u kind body
      return (u, next)

/-- The sections of a chain, one in each round. -/
def readSections (bytes : Bytes) (limit : Nat) : (rounds : Nat) → CodeUnit → Nat →
    Diary CodeUnit
  | 0, _, _ => throw .endless
  | rounds + 1, u, start => do
    if 0 < start ∧ start < bytes.size then
      note (.visit start)
      let (u, next) ← readSection limit bytes u start
      readSections bytes limit rounds u next
    else return u

/-- The unit that a binary file holds, read with loops of a limited number of rounds. -/
def ofBinary (rounds : Nat) (bytes : Bytes) : Diary CodeUnit := do
  let (start, cursor) ← readWord 0 bytes 0 4
  if start ≠ magic then
    refuse (.badMagic start)
  else
    let (minor, cursor) ← readWord 0 bytes cursor 2
    let (major, cursor) ← readWord 0 bytes cursor 2
    if majorVersion < major ∨ (major = majorVersion ∧ minorVersion < minor) then
      refuse (.unsupportedVersion major minor)
    else
      let (length, cursor) ← readWord 0 bytes cursor 4
      if bytes.size < length then
        refuse (.truncated bytes.size)
      else
        note (.slice 0 length)
        let bytes := bytes.extract 0 length
        let (first, _) ← readWord 0 bytes cursor 4
        readSections bytes rounds rounds ⟨#[], #[], 0⟩ first

/-! ### How far a reader gets -/

theorem take_le {bytes out : Bytes} {cursor len next : Nat}
    (h : Binary.take bytes cursor len = .ok (out, next)) :
    cursor + len ≤ bytes.size ∧ next = cursor + len := by
  obtain ⟨hout, rfl, rfl⟩ := hasAt_of_take h
  exact ⟨by simpa using hout.le_size, rfl⟩

/-- A text that was read lies within the bytes, with its length in front of it. -/
theorem readText_bounds {bytes : Bytes} {cursor next : Nat} {s : String}
    (h : Binary.readText bytes cursor = .ok (s, next)) : cursor + 4 ≤ next ∧
    next ≤ bytes.size := by
  obtain ⟨hs, rfl⟩ := hasAt_of_readText h
  have hle := hs.le_size
  rw [length_text] at hle
  exact ⟨by unfold textSize; omega, hle⟩

/-- A function that was read lies within the bytes, and a text at least belongs to it. -/
theorem readFunction_bounds {bytes : Bytes} {start next : Nat} {r : FunctionRecord}
    (h : Binary.readFunction bytes start = .ok (r, next)) :
    start + 4 ≤ next ∧ next ≤ bytes.size := by
  obtain ⟨f, hf, -, rfl⟩ := FunctionPlace.stands_of_readFunction h
  have hbody := hf.body_le
  rw [FunctionPlace.length_body, FunctionPlace.texts, totalSize_cons, textSize] at hbody
  exact ⟨by omega, hf.size_le⟩

/-! ### One round of a loop -/

theorem readStrings_eq (body : Bytes) (cursor : Nat) :
    Binary.readStrings body cursor =
      if cursor < body.size then do
        let (s, next) ← Binary.readText body cursor
        let rest ← Binary.readStrings body next
        return s :: rest
      else .ok [] := by
  rw [Binary.readStrings]
  congr 1
  split
  · next e he => rw [he]; rfl
  · next s next hs =>
    dsimp only
    rw [hs, ok_bind]
    cases Binary.readStrings body next <;> rfl

theorem readFunctions_eq (body : Bytes) (cursor : Nat) :
    Binary.readFunctions body cursor =
      if cursor < body.size then do
        let (r, next) ← Binary.readFunction body cursor
        let rest ← Binary.readFunctions body next
        return r :: rest
      else .ok [] := by
  rw [Binary.readFunctions]
  congr 1
  split
  · next e he => rw [he]; rfl
  · next r next hr =>
    dsimp only
    rw [hr, ok_bind]
    cases Binary.readFunctions body next <;> rfl

/-- The section at an offset, and what it adds to a unit. -/
def readPart (bytes : Bytes) (u : CodeUnit) (start : Nat) :
    Except UnitFileError (CodeUnit × Nat) := do
  let s ← Binary.readSection bytes start
  let u ← Binary.readBody u s.kind s.body
  return (u, s.next)

theorem readSections_zero (bytes : Bytes) (u : CodeUnit) :
    Binary.readSections bytes u 0 = .ok u := by
  rw [Binary.readSections, if_neg (by omega)]

theorem readSections_eq_part (bytes : Bytes) (u : CodeUnit) (start : Nat) :
    Binary.readSections bytes u start =
      if 0 < start ∧ start < bytes.size then do
        let (u, next) ← readPart bytes u start
        Binary.readSections bytes u next
      else .ok u := by
  rw [Binary.readSections]
  congr 1
  unfold readPart
  split
  · next e he => rw [he]; rfl
  · next s hs =>
    dsimp only
    rw [hs, ok_bind]
    cases Binary.readBody u s.kind s.body with
    | error e => rfl
    | ok u =>
      rw [ok_bind]
      simp only [Pure.pure, Except.pure, ok_bind]
      split
      · next hlast => rw [hlast, readSections_zero]
      · rfl

theorem readPart_next {bytes : Bytes} {u u' : CodeUnit} {start next : Nat}
    (h : readPart bytes u start = .ok (u', next)) : next = 0 ∨ start < next := by
  obtain ⟨s, hs, h⟩ := bind_eq_ok h
  obtain ⟨_, _, h⟩ := bind_eq_ok h
  cases h
  exact readSection_next hs

/-! ### What a diary tells -/

/-- The answer of a reader, with what was noted. -/
def outcome (x : Except UnitFileError α) (log : List Event) :
    EStateM.Result Halt (List Event) α :=
  match x with
  | .ok a => .ok a log
  | .error e => .error (.refused e) log

theorem bind_of_error {d : Diary α} {f : α → Diary β} {e : UnitFileError}
    {log log' : List Event}
    (h : d log = outcome (.error e) log') : (d >>= f) log = outcome (.error e) log' := by
  simp only [Bind.bind, EStateM.bind, h, outcome]

theorem bind_of_ok {d : Diary α} {f : α → Diary β} {a : α} {log log' : List Event}
    (h : d log = outcome (.ok a) log') : (d >>= f) log = f a log' := by
  simp only [Bind.bind, EStateM.bind, h, outcome]

/-- **The diary comes to the same answer as a reader**, and what it notes has a property.  It never
stops for want of rounds. -/
def Tells (Q : List Event → Prop) (d : Diary α) (x : Except UnitFileError α) : Prop :=
  ∀ log, ∃ es, d log = outcome x (log ++ es) ∧ Q es

/-- A property of what is noted that does not depend on what else is in order. -/
structure Opens (P : Event → Prop) (Q : List Event → Prop) : Prop where
  nil : Q []
  append : ∀ {es es' : List Event}, (∀ e ∈ es, P e) → Q es' → Q (es ++ es')

theorem Opens.all (P : Event → Prop) : Opens P fun es => ∀ e ∈ es, P e :=
  ⟨nofun, fun h h' e he => (List.mem_append.mp he).elim (h e) (h' e)⟩

namespace Tells

variable {P : Event → Prop} {Q Q' : List Event → Prop} {d : Diary α}
    {x : Except UnitFileError α}

theorem mono (hd : Tells Q d x) (hQ : ∀ es, Q es → Q' es) : Tells Q' d x := by
  intro log
  obtain ⟨es, hes, h⟩ := hd log
  exact ⟨es, hes, hQ es h⟩

theorem pure (hQ : Opens P Q) (a : α) : Tells Q (Pure.pure a) (.ok a) :=
  fun log => ⟨[], by rw [List.append_nil]; rfl, hQ.nil⟩

theorem refuse (hQ : Opens P Q) (e : UnitFileError) : Tells Q (refuse e : Diary α) (.error e) :=
  fun log => ⟨[], by rw [List.append_nil]; rfl, hQ.nil⟩

/-- One part behind another one in which all is in order. -/
theorem bind {f : α → Diary β} {g : α → Except UnitFileError β} (hQ : Opens P Q)
    (hd : Tells (fun es => ∀ e ∈ es, P e) d x) (hf : ∀ a, x = .ok a → Tells Q (f a) (g a)) :
    Tells Q (d >>= f) (x >>= g) := by
  intro log
  obtain ⟨es, hes, hP⟩ := hd log
  cases x with
  | error e =>
    refine ⟨es ++ [], ?_, hQ.append hP hQ.nil⟩
    rw [List.append_nil]
    exact bind_of_error hes
  | ok a =>
    obtain ⟨es', hes', hP'⟩ := hf a rfl (log ++ es)
    refine ⟨es ++ es', ?_, hQ.append hP hP'⟩
    rw [bind_of_ok hes, hes', List.append_assoc]
    rfl

/-- Something is noted on the way. -/
theorem noted {e : Event} (hQ : Opens P Q) (he : P e) (hd : Tells Q d x) :
    Tells Q (note e >>= fun _ => d) x := by
  intro log
  obtain ⟨es, hes, hP⟩ := hd (log ++ [e])
  refine ⟨[e] ++ es, ?_, hQ.append (by simpa using he) hP⟩
  rw [← List.append_assoc]
  exact hes

end Tells

/-! ### The parts of a file -/

variable {limit base rounds cursor : Nat} {bytes : Bytes}

/-- All that is noted is in order, and no section is visited. -/
abbrev Quiet (limit : Nat) (es : List Event) : Prop :=
  ∀ e ∈ es, e.Inner limit

theorem quiet (limit : Nat) : Opens (Event.Inner limit) (Quiet limit) :=
  .all _

theorem inner_difference {a b : Nat} (h : b ≤ a) : Event.Inner limit (.difference a b) :=
  ⟨h, rfl⟩

theorem tells_take (hbase : base + bytes.size ≤ limit) (cursor len : Nat) :
    Tells (Quiet limit) (take base bytes cursor len) (Binary.take bytes cursor len) := by
  unfold take
  cases h : Binary.take bytes cursor len with
  | error e => exact .refuse (quiet _) e
  | ok taken =>
    have hle := (take_le h).1
    exact .noted (quiet _) ⟨by show base + cursor + len ≤ limit; omega,
      rfl⟩ (.pure (quiet _) taken)

theorem tells_readWord (hbase : base + bytes.size ≤ limit) (cursor width : Nat) :
    Tells (Quiet limit) (readWord base bytes cursor width)
      (Binary.readWord bytes cursor width) :=
  .bind (quiet _) (tells_take hbase cursor width) fun _ _ => .pure (quiet _) _

theorem tells_readText (hbase : base + bytes.size ≤ limit) (cursor : Nat) :
    Tells (Quiet limit) (readText base bytes cursor) (Binary.readText bytes cursor) := by
  refine .bind (quiet _) (tells_readWord hbase cursor 4) ?_
  rintro ⟨len, offset⟩ hlen
  refine .bind (quiet _) (tells_take hbase offset len) ?_
  rintro ⟨raw, next⟩ hraw
  have h1 := readWord_eq_ok hlen
  obtain ⟨h2, h3⟩ := take_le hraw
  dsimp only
  cases raw.toString? with
  | none => exact .refuse (quiet _) _
  | some s => exact .noted (quiet _) ⟨⟨by omega, by omega⟩, rfl⟩ (.pure (quiet _) _)

/-- A round for every byte behind the cursor suffices, however many texts are asked for. -/
theorem tells_readTexts (hbase : base + bytes.size ≤ limit) (count : Nat)
    (hcursor : cursor ≤ bytes.size) (hrounds : bytes.size < cursor + rounds) :
    Tells (Quiet limit) (readTexts base bytes rounds count cursor)
      (Binary.readTexts bytes count cursor) := by
  induction rounds generalizing count cursor with
  | zero => omega
  | succ rounds ih =>
    cases count with
    | zero => exact .pure (quiet _) _
    | succ count =>
      refine .bind (quiet _) (tells_readText hbase cursor) ?_
      rintro ⟨s, next⟩ hs
      obtain ⟨hlt, hle⟩ := readText_bounds hs
      exact .bind (quiet _) (ih count hle (by omega)) fun _ _ => .pure (quiet _) _

theorem tells_readFunction (hbase : base + bytes.size ≤ limit) (start : Nat)
    (hrounds : bytes.size < rounds) :
    Tells (Quiet limit) (readFunction base bytes rounds start)
      (Binary.readFunction bytes start) := by
  refine .bind (quiet _) (tells_readWord hbase start 4) ?_
  rintro ⟨headerSize, _⟩ -
  refine .bind (quiet _) (tells_readWord hbase _ 4) ?_
  rintro ⟨size, _⟩ -
  refine .bind (quiet _) (tells_readWord hbase _ 4) ?_
  rintro ⟨codeLength, _⟩ -
  refine .bind (quiet _) (tells_readWord hbase _ 4) ?_
  rintro ⟨flags, _⟩ -
  refine .bind (quiet _) (tells_readWord hbase _ 4) ?_
  rintro ⟨variableCount, _⟩ -
  refine .bind (quiet _) (tells_readWord hbase _ 4) ?_
  rintro ⟨locals, _⟩ -
  refine .bind (quiet _) (tells_take hbase start headerSize) ?_
  rintro ⟨header, cursor⟩ hheader
  have h1 := (take_le hheader).2
  refine .bind (quiet _) (tells_readText hbase cursor) ?_
  rintro ⟨name, cursor'⟩ hname
  obtain ⟨h2, h3⟩ := readText_bounds hname
  refine .bind (quiet _) (tells_readTexts hbase variableCount h3 (by omega)) ?_
  rintro ⟨declared, behind⟩ hdeclared
  have h4 := readTexts_le hdeclared
  refine .bind (quiet _) (tells_take hbase behind codeLength) ?_
  rintro ⟨code, stop⟩ hcode
  have h5 := (take_le hcode).2
  refine .noted (quiet _) (inner_difference (by omega)) ?_
  by_cases hsize : size < stop - start
  · simp only [if_pos hsize]
    exact .refuse (quiet _) _
  · simp only [if_neg hsize]
    refine .bind (quiet _) (tells_take hbase start size) ?_
    rintro ⟨whole, next⟩ hwhole
    obtain ⟨h6, h7⟩ := take_le hwhole
    exact .noted (quiet _) ⟨⟨by omega, by omega⟩, rfl⟩ (.pure (quiet _) _)

theorem tells_readStrings (hbase : base + bytes.size ≤ limit) (hcursor : cursor ≤ bytes.size)
    (hrounds : bytes.size < cursor + rounds) :
    Tells (Quiet limit) (readStrings base bytes rounds cursor)
      (Binary.readStrings bytes cursor) := by
  induction rounds generalizing cursor with
  | zero => omega
  | succ rounds ih =>
    rw [readStrings, readStrings_eq]
    by_cases hlt : cursor < bytes.size
    · rw [if_pos hlt, if_pos hlt]
      refine .bind (quiet _) (tells_readText hbase cursor) ?_
      rintro ⟨s, next⟩ hs
      obtain ⟨hadvance, hle⟩ := readText_bounds hs
      exact .bind (quiet _) (ih hle (by omega)) fun _ _ => .pure (quiet _) _
    · rw [if_neg hlt, if_neg hlt]
      exact .pure (quiet _) []

theorem tells_readFunctions {most : Nat} (hbase : base + bytes.size ≤ limit)
    (hmost : bytes.size < most) (hcursor : cursor ≤ bytes.size)
    (hrounds : bytes.size < cursor + rounds) :
    Tells (Quiet limit) (readFunctions base bytes most rounds cursor)
      (Binary.readFunctions bytes cursor) := by
  induction rounds generalizing cursor with
  | zero => omega
  | succ rounds ih =>
    rw [readFunctions, readFunctions_eq]
    by_cases hlt : cursor < bytes.size
    · rw [if_pos hlt, if_pos hlt]
      refine .bind (quiet _) (tells_readFunction hbase cursor hmost) ?_
      rintro ⟨r, next⟩ hr
      obtain ⟨hadvance, hle⟩ := readFunction_bounds hr
      exact .bind (quiet _) (ih hle (by omega)) fun _ _ => .pure (quiet _) _
    · rw [if_neg hlt, if_neg hlt]
      exact .pure (quiet _) []

theorem tells_readBody (hbase : base + bytes.size ≤ limit) (hrounds : bytes.size < rounds)
    (u : CodeUnit) (kind : Nat) :
    Tells (Quiet limit) (readBody rounds base u kind bytes) (Binary.readBody u kind bytes) := by
  unfold readBody Binary.readBody
  by_cases hstrings : kind = stringSection
  · rw [if_pos hstrings, if_pos hstrings]
    exact .bind (quiet _) (tells_readStrings hbase (Nat.zero_le _) (by omega)) fun _ _ =>
      .pure (quiet _) _
  · rw [if_neg hstrings, if_neg hstrings]
    by_cases hfunctions : kind = functionSection
    · rw [if_pos hfunctions, if_pos hfunctions]
      exact .bind (quiet _) (tells_readFunctions hbase hrounds (Nat.zero_le _) (by omega))
        fun _ _ => .pure (quiet _) _
    · rw [if_neg hfunctions, if_neg hfunctions]
      exact .refuse (quiet _) _

theorem tells_readSection (hrounds : bytes.size < rounds) (u : CodeUnit) (start : Nat) :
    Tells (Quiet bytes.size) (readSection rounds bytes u start) (readPart bytes u start) := by
  have hbase : 0 + bytes.size ≤ bytes.size := Nat.le_of_eq (Nat.zero_add _)
  unfold readSection readPart Binary.readSection
  simp only [bind_assoc]
  refine .bind (quiet _) (tells_readWord hbase start 4) ?_
  rintro ⟨headerLength, _⟩ -
  refine .bind (quiet _) (tells_readWord hbase _ 4) ?_
  rintro ⟨sectionLength, _⟩ -
  refine .bind (quiet _) (tells_readWord hbase _ 4) ?_
  rintro ⟨next, _⟩ -
  refine .bind (quiet _) (tells_readWord hbase _ 2) ?_
  rintro ⟨kind, _⟩ -
  by_cases hnext : next ≠ 0 ∧ next ≤ start
  · simp only [if_pos hnext]
    exact .refuse (quiet _) _
  simp only [if_neg hnext, bind_assoc]
  refine .bind (quiet _) (tells_take hbase start headerLength) ?_
  rintro ⟨header, bodyStart⟩ hheader
  by_cases hlength : sectionLength < headerLength
  · simp only [if_pos hlength]
    exact .refuse (quiet _) _
  simp only [if_neg hlength, bind_assoc]
  refine .noted (quiet _) (inner_difference (by omega)) ?_
  refine .bind (quiet _) (tells_take hbase bodyStart _) ?_
  rintro ⟨body, behind⟩ hbody
  obtain ⟨hle, -⟩ := take_le hbody
  have hsize := (hasAt_of_take hbody).2.1
  dsimp only
  exact .bind (quiet _) (tells_readBody (by omega) (by omega) u kind) fun _ _ => .pure (quiet _) _

/-- What a reader notes on a chain of sections: it visits one behind the other. -/
structure Visits (bytes : Bytes) (start : Nat) (es : List Event) : Prop where
  sound : ∀ e ∈ es, e.Sound bytes.size
  forward : (visits es).Pairwise (· < ·)
  inside : ∀ v ∈ visits es, 0 < start ∧ start ≤ v ∧ v < bytes.size

theorem Visits.nil (bytes : Bytes) (start : Nat) : Visits bytes start [] :=
  ⟨nofun, .nil, nofun⟩

/-- One more section in front of a chain that goes on behind it. -/
theorem Visits.cons {start next : Nat} {es es' : List Event}
    (hstart : 0 < start ∧ start < bytes.size)
    (hes : ∀ e ∈ es, e.Inner bytes.size) (hnext : next = 0 ∨ start < next)
    (h : Visits bytes next es') : Visits bytes start (.visit start :: (es ++ es')) := by
  have hvisits : visits (.visit start :: (es ++ es')) = start :: visits es' := by
    show start :: visits (es ++ es') = _
    rw [visits_append, visits_inner hes, List.nil_append]
  have hbehind : ∀ v ∈ visits es', start < v ∧ v < bytes.size := by
    intro v hv
    obtain ⟨hpos, hle, hlt⟩ := h.inside v hv
    omega
  refine ⟨?_, ?_, ?_⟩
  · refine List.forall_mem_cons.mpr ⟨hstart, fun e he => ?_⟩
    exact (List.mem_append.mp he).elim (fun he => (hes e he).1) (h.sound e)
  · rw [hvisits]
    exact .cons (fun v hv => (hbehind v hv).1) h.forward
  · rw [hvisits]
    refine List.forall_mem_cons.mpr ⟨⟨hstart.1, Nat.le_refl _, hstart.2⟩, fun v hv => ?_⟩
    obtain ⟨hlt, hsize⟩ := hbehind v hv
    exact ⟨hstart.1, Nat.le_of_lt hlt, hsize⟩

/-- Every byte is the start of one section at most. -/
theorem Visits.length_le {start : Nat} {es : List Event} (h : Visits bytes start es) :
    (visits es).length ≤ bytes.size := by
  have hsub : visits es ⊆ List.range bytes.size := fun v hv =>
    List.mem_range.mpr (h.inside v hv).2.2
  have hnodup : (visits es).Nodup := h.forward.imp Nat.ne_of_lt
  simpa using (List.Nodup.subperm hnodup hsub).length_le

/-- The chain is read to its end: every section is behind the one before. -/
theorem tells_readSections {most : Nat} (hmost : bytes.size < most) (u : CodeUnit) (start : Nat)
    (hsome : 0 < rounds) (hrounds : start = 0 ∨ bytes.size < start + rounds) :
    Tells (Visits bytes start) (readSections bytes most rounds u start)
      (Binary.readSections bytes u start) := by
  intro log
  induction rounds generalizing u start log with
  | zero => omega
  | succ rounds ih =>
    rw [readSections, readSections_eq_part]
    by_cases hinside : 0 < start ∧ start < bytes.size
    · rw [if_pos hinside, if_pos hinside]
      obtain ⟨es, hes, hinner⟩ := tells_readSection hmost u start (log ++ [.visit start])
      have hnote : note (.visit start) log = outcome (.ok ()) (log ++ [.visit start]) := rfl
      rw [bind_of_ok hnote]
      cases hpart : readPart bytes u start with
      | error e =>
        rw [hpart] at hes
        refine ⟨.visit start :: (es ++ []), ?_, .cons hinside hinner (.inl rfl) (.nil bytes 0)⟩
        rw [bind_of_error hes, List.append_nil, List.append_assoc]
        rfl
      | ok part =>
        obtain ⟨u', next⟩ := part
        rw [hpart] at hes
        have hnext := readPart_next hpart
        obtain ⟨es', hes', hvisits⟩ :=
          ih u' next (by omega) (by omega) (log ++ [.visit start] ++ es)
        refine ⟨.visit start :: (es ++ es'), ?_, .cons hinside hinner hnext hvisits⟩
        rw [bind_of_ok hes]
        dsimp only
        rw [hes', List.append_assoc, List.append_assoc]
        rfl
    · rw [if_neg hinside, if_neg hinside]
      exact ⟨[], by rw [List.append_nil]; rfl, .nil bytes start⟩

/-- What a reader notes on a whole file. -/
structure Ends (bytes : Bytes) (es : List Event) : Prop where
  /-- All is in order. -/
  sound : ∀ e ∈ es, e.Sound bytes.size
  /-- Every section is behind the one before. -/
  forward : (visits es).Pairwise (· < ·)
  /-- The sections lie within the declared length, if it can be read and the file has it. -/
  declared : visits es ≠ [] → ∃ length, Binary.readWord bytes 8 4 = .ok (length, 12) ∧
    length ≤ bytes.size ∧ (visits es).length ≤ length

theorem ends (bytes : Bytes) : Opens (Event.Inner bytes.size) (Ends bytes) where
  nil := ⟨nofun, .nil, fun h => (h rfl).elim⟩
  append := by
    intro es es' hes h
    have hvisits : visits (es ++ es') = visits es' := by
      rw [visits_append, visits_inner hes, List.nil_append]
    refine ⟨fun e he => ?_, hvisits ▸ h.forward, hvisits ▸ h.declared⟩
    exact (List.mem_append.mp he).elim (fun he => (hes e he).1) (h.sound e)

theorem Visits.ends {bytes : Bytes} {length start : Nat} {es : List Event}
    (hlength : Binary.readWord bytes 8 4 = .ok (length, 12)) (hle : length ≤ bytes.size)
    (h : Visits (bytes.extract 0 length) start es) : Ends bytes es := by
  have hsize : (bytes.extract 0 length).size = length := by simp [hle]
  refine ⟨fun e he => Event.Sound.mono (h.sound e he) (Nat.le_trans (Nat.le_of_eq hsize) hle),
    h.forward, fun _ => ?_⟩
  exact ⟨length, hlength, hle, hsize ▸ h.length_le⟩

theorem tells_ofBinary {bytes : Bytes} (hrounds : bytes.size < rounds) :
    Tells (Ends bytes) (ofBinary rounds bytes) (CodeUnit.ofBinary bytes) := by
  have hbase : 0 + bytes.size ≤ bytes.size := Nat.le_of_eq (Nat.zero_add _)
  refine .bind (ends bytes) (tells_readWord hbase 0 4) ?_
  rintro ⟨start, c1⟩ h1
  obtain rfl := readWord_eq_ok h1
  by_cases hmagic : start ≠ magic
  · simp only [if_pos hmagic]
    exact .refuse (ends bytes) _
  simp only [if_neg hmagic]
  refine .bind (ends bytes) (tells_readWord hbase _ 2) ?_
  rintro ⟨minor, c2⟩ h2
  obtain rfl := readWord_eq_ok h2
  refine .bind (ends bytes) (tells_readWord hbase _ 2) ?_
  rintro ⟨major, c3⟩ h3
  obtain rfl := readWord_eq_ok h3
  dsimp only
  split
  · exact .refuse (ends bytes) _
  refine .bind (ends bytes) (tells_readWord hbase _ 4) ?_
  rintro ⟨length, c4⟩ h4
  obtain rfl := readWord_eq_ok h4
  dsimp only
  split
  · exact .refuse (ends bytes) _
  next hlength =>
  have hsize : (bytes.extract 0 length).size = length := by simp; omega
  refine .noted (ends bytes) ⟨by show 0 + length ≤ bytes.size; omega, rfl⟩ ?_
  refine .bind (ends bytes) (tells_readWord (by omega) _ 4) ?_
  rintro ⟨first, c5⟩ -
  exact (tells_readSections (by omega) _ first (by omega) (by omega)).mono fun es h =>
    h.ends h4 (Nat.le_of_not_lt hlength)

end Diary

/-- **Reading ends on every input.**  A reader whose loops make one round more than the input has
bytes (or any greater number) comes to the answer of `ofBinary`, which is a unit or an error, and
what it does on the way is in order: every slice lies within the input, no difference is negative,
every text and every function moves the cursor by four bytes at least, and the sections are visited
one behind the other, so that there are no more of them than the declared length of the file has
bytes. -/
theorem ofBinary_ends (bytes : Bytes) (extra : Nat) :
    ∃ es, Diary.ofBinary (bytes.size + 1 + extra) bytes [] = Diary.outcome (ofBinary bytes) es ∧
      (∀ e ∈ es, e.Sound bytes.size) ∧ (visits es).Pairwise (· < ·) ∧
      (visits es).length ≤ bytes.size ∧
      ∀ length next, readWord bytes 8 4 = .ok (length, next) →
        (visits es).length ≤ length := by
  have hrounds : bytes.size < bytes.size + 1 + extra := by omega
  obtain ⟨es, hes, hends⟩ := Diary.tells_ofBinary hrounds []
  refine ⟨es, hes, hends.sound, hends.forward, ?_, fun length next hlength => ?_⟩
  · by_cases hnone : visits es = []
    · simp [hnone]
    · obtain ⟨length, -, hle, hvisits⟩ := hends.declared hnone
      omega
  · by_cases hnone : visits es = []
    · simp [hnone]
    · obtain ⟨length', hlength', -, hvisits⟩ := hends.declared hnone
      rw [hlength] at hlength'
      cases hlength'
      exact hvisits

end ScriptVm.CodeUnit.Binary
