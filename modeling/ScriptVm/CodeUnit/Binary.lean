import ScriptVm.CodeUnit
import ScriptVm.Fault

/-!
# Units as binary files

All numbers are little-endian words of four bytes, unless two are said.  A text
is its length in bytes and then its UTF-8 form.

```text
file header     magic | minor version (2) | major version (2) | file length | first section
section header  header length | section length | next offset | kind (2) | reserved (2)
string section  text*
function section, one function after the other
  header        header size | function size | code length | flags
                | variable count | local variable count
  body          name | variable name* | code
```

The lengths of a section and of a function include their headers.  A next
offset of 0 ends the chain of sections.  The entry function carries flag bit 0;
a unit without a flagged function is entered at 0.

A reader works on a run of bytes with a cursor.  The body of a section is a run
of its own, so offsets in error messages count from the start of the body there.

Main statements: `readText_lt` and `readFunction_lt` (a text or a function that
was read moves the cursor forward), which make the loops over a body end.
-/

namespace ScriptVm.CodeUnit

namespace Binary

/-- The first four bytes of every binary unit, as a number. -/
def magic : Nat := 0x44614c47

/-- The newest version that can be read: major, then minor. -/
def majorVersion : Nat := 1

/-- The minor version that is written. -/
def minorVersion : Nat := 0

/-- The size of the file header. -/
def fileHeaderSize : Nat := 16

/-- The size of a section header. -/
def sectionHeaderSize : Nat := 16

/-- The size of a function header. -/
def functionHeaderSize : Nat := 24

/-- The kind of a section that holds functions. -/
def functionSection : Nat := 1

/-- The kind of a section that holds strings. -/
def stringSection : Nat := 2

/-! ### Writing -/

/-- A word of four bytes. -/
def dword (n : Nat) : List UInt8 :=
  Bytes.toLittle 4 n

/-- A word of two bytes. -/
def half (n : Nat) : List UInt8 :=
  Bytes.toLittle 2 n

/-- A text with its length in front. -/
def text (s : String) : List UInt8 :=
  dword s.utf8ByteSize ++ (Bytes.ofString s).toList

/-- A section header in front of a body of the given length. -/
def sectionHeader (body next kind : Nat) : List UInt8 :=
  dword sectionHeaderSize ++ dword (sectionHeaderSize + body) ++ dword next ++ half kind ++ half 0

/-- The size of a text with its length in front. -/
def textSize (s : String) : Nat :=
  4 + s.utf8ByteSize

/-- The size of all elements of a list. -/
def totalSize {α : Type} (size : α → Nat) : List α → Nat
  | [] => 0
  | a :: rest => size a + totalSize size rest

@[simp] theorem totalSize_nil {α : Type} (size : α → Nat) : totalSize size [] = 0 := rfl

@[simp] theorem totalSize_cons {α : Type} (size : α → Nat) (a : α) (rest : List α) :
    totalSize size (a :: rest) = size a + totalSize size rest := rfl

/-- The size of a function with its header. -/
def functionSize (p : Prototype) : Nat :=
  functionHeaderSize + textSize p.name + totalSize textSize p.declared + p.code.size

/-- One function. -/
def function (p : Prototype) (isEntry : Bool) : List UInt8 :=
  dword functionHeaderSize ++ dword (functionSize p) ++ dword p.code.size
    ++ dword (if isEntry then 1 else 0) ++ dword p.declared.length ++ dword p.locals
    ++ text p.name ++ p.declared.flatMap text ++ p.code.toList

/-- The body of the string section. -/
def stringTable (u : CodeUnit) : List UInt8 :=
  u.strings.toList.flatMap text

/-- The size of the body of the string section. -/
def stringTableSize (u : CodeUnit) : Nat :=
  totalSize textSize u.strings.toList

/-- The body of the function section. -/
def functionTable (u : CodeUnit) : List UInt8 :=
  u.prototypes.toList.zipIdx.flatMap fun (p, i) => function p (i == u.entry)

/-- The size of the body of the function section. -/
def functionTableSize (u : CodeUnit) : Nat :=
  totalSize functionSize u.prototypes.toList

/-- Where the function section starts. -/
def functionStart (u : CodeUnit) : Nat :=
  fileHeaderSize + sectionHeaderSize + stringTableSize u

/-- The size of the whole file. -/
def fileSize (u : CodeUnit) : Nat :=
  functionStart u + sectionHeaderSize + functionTableSize u

end Binary

open Binary in
/-- The binary form of a unit: the strings first, then the functions.  All sizes are known before
the first byte is written. -/
def toBinary (u : CodeUnit) : Bytes :=
  (dword magic ++ half minorVersion ++ half majorVersion ++ dword (fileSize u)
    ++ dword fileHeaderSize
    ++ sectionHeader (stringTableSize u) (functionStart u) stringSection ++ stringTable u
    ++ sectionHeader (functionTableSize u) 0 functionSection ++ functionTable u).toArray

namespace Binary

/-! ### Reading -/

/-- The `len` bytes at the cursor, and the cursor behind them. -/
def take (bytes : Bytes) (cursor len : Nat) : Except UnitFileError (Bytes × Nat) :=
  match bytes.slice? cursor len with
  | some taken => .ok (taken, cursor + len)
  | none => .error (.truncated cursor)

/-- The word of `width` bytes at the cursor. -/
def readWord (bytes : Bytes) (cursor width : Nat) : Except UnitFileError (Nat × Nat) := do
  let (word, cursor) ← take bytes cursor width
  return (Bytes.ofLittle word.toList, cursor)

/-- The text at the cursor. -/
def readText (bytes : Bytes) (cursor : Nat) : Except UnitFileError (String × Nat) := do
  let (len, offset) ← readWord bytes cursor 4
  let (raw, cursor) ← take bytes offset len
  match raw.toString? with
  | some s => return (s, cursor)
  | none => .error (.invalidUtf8 offset)

/-- A given number of texts from the cursor on. -/
def readTexts (bytes : Bytes) : (count cursor : Nat) → Except UnitFileError (List String × Nat)
  | 0, cursor => .ok ([], cursor)
  | count + 1, cursor => do
    let (s, cursor) ← readText bytes cursor
    let (rest, cursor) ← readTexts bytes count cursor
    return (s :: rest, cursor)

/-- A function as it stands in a file. -/
structure FunctionRecord where
  /-- The function. -/
  prototype : Prototype
  /-- Whether it carries the entry flag. -/
  isEntry : Bool

/-- The function that starts at `start`, and the cursor behind it. -/
def readFunction (body : Bytes) (start : Nat) : Except UnitFileError (FunctionRecord × Nat) := do
  let (headerSize, cursor) ← readWord body start 4
  let (size, cursor) ← readWord body cursor 4
  let (codeLength, cursor) ← readWord body cursor 4
  let (flags, cursor) ← readWord body cursor 4
  let (variableCount, cursor) ← readWord body cursor 4
  let (locals, _) ← readWord body cursor 4
  -- Later versions may have longer headers.
  let (_, cursor) ← take body start headerSize
  let (name, cursor) ← readText body cursor
  let (declared, cursor) ← readTexts body variableCount cursor
  let (code, cursor) ← take body cursor codeLength
  if size < cursor - start then
    .error (.malformed start)
  else
    let (_, next) ← take body start size
    return (⟨⟨name, code, locals, declared⟩, flags % 2 = 1⟩, next)

theorem take_eq_ok {bytes out : Bytes} {cursor len next : Nat}
    (h : take bytes cursor len = .ok (out, next)) :
    bytes.slice? cursor len = some out ∧ next = cursor + len := by
  unfold take at h
  split at h
  · next heq =>
    cases h
    exact ⟨heq, rfl⟩
  · cases h

/-- The first part of a sequence of reads that succeeded has succeeded. -/
theorem bind_eq_ok {ε α β : Type} {x : Except ε α} {f : α → Except ε β} {b : β}
    (h : (x >>= f) = .ok b) : ∃ a, x = .ok a ∧ f a = .ok b := by
  cases x with
  | error e => cases h
  | ok a => exact ⟨a, rfl, h⟩

theorem readWord_eq_ok {bytes : Bytes} {cursor width n next : Nat}
    (h : readWord bytes cursor width = .ok (n, next)) : next = cursor + width := by
  obtain ⟨⟨word, c⟩, hw, h⟩ := bind_eq_ok h
  cases h
  exact (take_eq_ok hw).2

/-- A text that was read moves the cursor forward. -/
theorem readText_lt {bytes : Bytes} {cursor next : Nat} {s : String}
    (h : readText bytes cursor = .ok (s, next)) : cursor < next := by
  obtain ⟨⟨len, offset⟩, hlen, h⟩ := bind_eq_ok h
  obtain ⟨⟨raw, c⟩, hraw, h⟩ := bind_eq_ok h
  have h1 := readWord_eq_ok hlen
  have h2 := (take_eq_ok hraw).2
  simp only at h
  split at h
  · cases h
    omega
  · cases h

theorem readTexts_le {bytes : Bytes} {count cursor next : Nat} {out : List String}
    (h : readTexts bytes count cursor = .ok (out, next)) : cursor ≤ next := by
  induction count generalizing cursor out with
  | zero =>
    cases h
    exact Nat.le_refl _
  | succ count ih =>
    obtain ⟨⟨s, c⟩, hs, h⟩ := bind_eq_ok h
    obtain ⟨⟨rest, c'⟩, hrest, h⟩ := bind_eq_ok h
    cases h
    exact Nat.le_trans (Nat.le_of_lt (readText_lt hs)) (ih hrest)

/-- A function that was read moves the cursor forward. -/
theorem readFunction_lt {body : Bytes} {start next : Nat} {r : FunctionRecord}
    (h : readFunction body start = .ok (r, next)) : start < next := by
  obtain ⟨⟨headerSize, c1⟩, _, h⟩ := bind_eq_ok h
  obtain ⟨⟨size, c2⟩, _, h⟩ := bind_eq_ok h
  obtain ⟨⟨codeLength, c3⟩, _, h⟩ := bind_eq_ok h
  obtain ⟨⟨flags, c4⟩, _, h⟩ := bind_eq_ok h
  obtain ⟨⟨variableCount, c5⟩, _, h⟩ := bind_eq_ok h
  obtain ⟨⟨locals, c6⟩, _, h⟩ := bind_eq_ok h
  obtain ⟨⟨header, c7⟩, hheader, h⟩ := bind_eq_ok h
  obtain ⟨⟨name, c8⟩, hname, h⟩ := bind_eq_ok h
  obtain ⟨⟨declared, c9⟩, hvars, h⟩ := bind_eq_ok h
  obtain ⟨⟨code, c10⟩, hcode, h⟩ := bind_eq_ok h
  have h7 := (take_eq_ok hheader).2
  have h8 := readText_lt hname
  have h9 := readTexts_le hvars
  have h10 := (take_eq_ok hcode).2
  simp only at h
  split at h
  · cases h
  · obtain ⟨⟨whole, c11⟩, hwhole, h⟩ := bind_eq_ok h
    have h11 := (take_eq_ok hwhole).2
    cases h
    omega

/-- The texts from the cursor to the end of a string section's body. -/
def readStrings (body : Bytes) (cursor : Nat) : Except UnitFileError (List String) :=
  if cursor < body.size then
    match h : readText body cursor with
    | .error e => .error e
    | .ok (s, next) =>
      have := readText_lt h
      match readStrings body next with
      | .error e => .error e
      | .ok rest => .ok (s :: rest)
  else .ok []
termination_by body.size - cursor

/-- The functions from the cursor to the end of a function section's body. -/
def readFunctions (body : Bytes) (cursor : Nat) : Except UnitFileError (List FunctionRecord) :=
  if cursor < body.size then
    match h : readFunction body cursor with
    | .error e => .error e
    | .ok (r, next) =>
      have := readFunction_lt h
      match readFunctions body next with
      | .error e => .error e
      | .ok rest => .ok (r :: rest)
  else .ok []
termination_by body.size - cursor

/-- The unit with one more function. -/
def addFunction (u : CodeUnit) (r : FunctionRecord) : CodeUnit :=
  { u with
    prototypes := u.prototypes.push r.prototype
    entry := if r.isEntry then u.prototypes.size else u.entry }

/-- The unit with the contents of a section of the given kind. -/
def readBody (u : CodeUnit) (kind : Nat) (body : Bytes) : Except UnitFileError CodeUnit :=
  if kind = stringSection then do
    let more ← readStrings body 0
    return { u with strings := u.strings ++ more }
  else if kind = functionSection then do
    let more ← readFunctions body 0
    return more.foldl addFunction u
  else .error (.unknownSection kind)

/-- A section's place in the chain, its kind and its contents. -/
structure Section where
  /-- The offset of the next section; 0 ends the chain. -/
  next : Nat
  /-- What the section holds. -/
  kind : Nat
  /-- The bytes behind the header. -/
  body : Bytes

/-- The section at an offset.  A chain that does not move forward is malformed. -/
def readSection (bytes : Bytes) (start : Nat) : Except UnitFileError Section := do
  let (headerLength, cursor) ← readWord bytes start 4
  let (sectionLength, cursor) ← readWord bytes cursor 4
  let (next, cursor) ← readWord bytes cursor 4
  let (kind, _) ← readWord bytes cursor 2
  if next ≠ 0 ∧ next ≤ start then
    .error (.malformed start)
  else
    let (_, bodyStart) ← take bytes start headerLength
    if sectionLength < headerLength then
      .error (.truncated start)
    else
      let (body, _) ← take bytes bodyStart (sectionLength - headerLength)
      return ⟨next, kind, body⟩

/-- The chain of sections moves forward. -/
theorem readSection_next {bytes : Bytes} {start : Nat} {s : Section}
    (h : readSection bytes start = .ok s) : s.next = 0 ∨ start < s.next := by
  obtain ⟨⟨headerLength, c1⟩, _, h⟩ := bind_eq_ok h
  obtain ⟨⟨sectionLength, c2⟩, _, h⟩ := bind_eq_ok h
  obtain ⟨⟨next, c3⟩, _, h⟩ := bind_eq_ok h
  obtain ⟨⟨kind, c4⟩, _, h⟩ := bind_eq_ok h
  simp only at h
  split at h
  · cases h
  · next hnext =>
    obtain ⟨⟨header, bodyStart⟩, _, h⟩ := bind_eq_ok h
    simp only at h
    split at h
    · cases h
    · obtain ⟨⟨body, c5⟩, _, h⟩ := bind_eq_ok h
      cases h
      simp only
      omega

/-- The unit with the contents of the sections of the chain that starts at an offset. -/
def readSections (bytes : Bytes) (u : CodeUnit) (start : Nat) : Except UnitFileError CodeUnit :=
  if 0 < start ∧ start < bytes.size then
    match h : readSection bytes start with
    | .error e => .error e
    | .ok s =>
      have := readSection_next h
      match readBody u s.kind s.body with
      | .error e => .error e
      | .ok u => if s.next = 0 then .ok u else readSections bytes u s.next
  else .ok u
termination_by bytes.size - start

end Binary

open Binary in
/-- Whether bytes start like a binary unit. -/
def isBinary (bytes : Bytes) : Bool :=
  match readWord bytes 0 4 with
  | .ok (n, _) => n = magic
  | .error _ => false

open Binary in
/-- The unit that a binary file holds.  Only the declared length of the file counts. -/
def ofBinary (bytes : Bytes) : Except UnitFileError CodeUnit := do
  let (start, cursor) ← readWord bytes 0 4
  if start ≠ magic then
    .error (.badMagic start)
  else
    let (minor, cursor) ← readWord bytes cursor 2
    let (major, cursor) ← readWord bytes cursor 2
    if majorVersion < major ∨ (major = majorVersion ∧ minorVersion < minor) then
      .error (.unsupportedVersion major minor)
    else
      let (length, cursor) ← readWord bytes cursor 4
      if bytes.size < length then
        .error (.truncated bytes.size)
      else
        let bytes := bytes.extract 0 length
        let (first, _) ← readWord bytes cursor 4
        readSections bytes ⟨#[], #[], 0⟩ first

end ScriptVm.CodeUnit
