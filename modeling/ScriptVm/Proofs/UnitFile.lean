import ScriptVm.CodeUnit.Binary

/-!
# Units, written and read back

A unit that is written as a binary file is read back as the very same unit.  A
reader works at a position of the file, so what it needs to know is which bytes
stand there: `Bytes.HasAt`.  A run that was written piece by piece stands there
piece by piece, and each reader finds what the writer of the same name has put.

All sizes are written before the bytes they measure.  They are words of four
bytes, and no size in a file is greater than the file, so one bound is enough.

Main statements: `length_function` and `size_toBinary` (the sizes written are
the sizes used), `CodeUnit.binary_round_trip`.
-/

namespace ScriptVm

namespace Bytes

/-- These bytes stand at a position. -/
def HasAt (bytes : Bytes) (cursor : Nat) (part : List UInt8) : Prop :=
  ∃ before after, bytes.toList = before ++ part ++ after ∧ before.length = cursor

namespace HasAt

variable {bytes : Bytes} {cursor : Nat} {p q : List UInt8}

theorem all (p : List UInt8) : HasAt p.toArray 0 p :=
  ⟨[], [], by simp, rfl⟩

/-- What was written piece by piece. -/
theorem append (h : bytes.HasAt cursor (p ++ q)) :
    bytes.HasAt cursor p ∧ bytes.HasAt (cursor + p.length) q := by
  obtain ⟨before, after, hbytes, rfl⟩ := h
  refine ⟨⟨before, q ++ after, ?_, rfl⟩, before ++ p, after, ?_, ?_⟩
  · simp [hbytes]
  · simp [hbytes]
  · simp

theorem le_size (h : bytes.HasAt cursor p) : cursor + p.length ≤ bytes.size := by
  obtain ⟨before, after, hbytes, rfl⟩ := h
  rw [← Array.length_toList, hbytes]
  simp

theorem slice? (h : bytes.HasAt cursor p) : bytes.slice? cursor p.length = some p.toArray := by
  have hsize := h.le_size
  obtain ⟨before, after, hbytes, rfl⟩ := h
  rw [Bytes.slice?, if_pos hsize]
  congr 1
  apply Array.toList_inj.mp
  simp [hbytes]

theorem iff_drop :
    bytes.HasAt cursor p ↔ cursor ≤ bytes.size ∧ p <+: bytes.toList.drop cursor := by
  constructor
  · rintro ⟨before, after, hbytes, rfl⟩
    refine ⟨?_, after, ?_⟩
    · rw [← Array.length_toList, hbytes]
      simp
    · simp [hbytes]
  · rintro ⟨hle, after, hafter⟩
    refine ⟨bytes.toList.take cursor, after, ?_, ?_⟩
    · rw [List.append_assoc, hafter, List.take_append_drop]
    · rw [List.length_take, Array.length_toList, Nat.min_eq_left hle]

theorem of_slice? {word : Bytes} {len : Nat} (h : bytes.slice? cursor len = some word) :
    bytes.HasAt cursor word.toList := by
  unfold Bytes.slice? at h
  split at h
  · cases h
    rw [iff_drop, Array.toList_extract, List.extract_eq_take_drop]
    exact ⟨by omega, List.take_prefix _ _⟩
  · cases h

/-- Pieces that stand one behind the other. -/
theorem concat (hp : bytes.HasAt cursor p) (hq : bytes.HasAt (cursor + p.length) q) :
    bytes.HasAt cursor (p ++ q) := by
  rw [iff_drop] at hp hq ⊢
  obtain ⟨hle, rest, hrest⟩ := hp
  have hdrop : bytes.toList.drop (cursor + p.length) = rest := by
    rw [← List.drop_drop, ← hrest, List.drop_left]
  rw [hdrop] at hq
  refine ⟨hle, ?_⟩
  rw [← hrest]
  exact (List.prefix_append_right_inj p).mpr hq.2

end HasAt

@[simp] theorem size_ofString (s : String) : (ofString s).size = s.utf8ByteSize := rfl

/-- A text is read back from its bytes. -/
theorem toString?_ofString (s : String) : toString? (ofString s) = some s :=
  dif_pos s.isValidUTF8

end Bytes

namespace CodeUnit

namespace Binary

/-! ### Sizes -/

@[simp] theorem length_dword (n : Nat) : (dword n).length = 4 :=
  Bytes.length_toLittle 4 n

@[simp] theorem length_half (n : Nat) : (half n).length = 2 :=
  Bytes.length_toLittle 2 n

@[simp] theorem length_text (s : String) : (text s).length = textSize s := by
  simp [text, textSize]

@[simp] theorem length_texts (ss : List String) :
    (ss.flatMap text).length = totalSize textSize ss := by
  induction ss with
  | nil => rfl
  | cons s ss ih => rw [List.flatMap_cons, List.length_append, length_text, ih, totalSize_cons]

@[simp] theorem length_function (p : Prototype) (isEntry : Bool) :
    (function p isEntry).length = functionSize p := by
  simp [function, functionSize, functionHeaderSize, -List.length_flatMap]
  omega

@[simp] theorem length_sectionHeader (body next kind : Nat) :
    (sectionHeader body next kind).length = sectionHeaderSize := by
  simp [sectionHeader, sectionHeaderSize]

@[simp] theorem length_stringTable (u : CodeUnit) : (stringTable u).length = stringTableSize u := by
  rw [stringTable, length_texts, stringTableSize]

/-- The functions of a unit as they stand in its file. -/
def records (u : CodeUnit) : List FunctionRecord :=
  u.prototypes.toList.zipIdx.map fun (p, i) => ⟨p, i == u.entry⟩

theorem functionTable_eq (u : CodeUnit) :
    functionTable u = (records u).flatMap fun r => function r.prototype r.isEntry := by
  simp [functionTable, records, List.flatMap_map]

theorem map_prototype_records (u : CodeUnit) :
    (records u).map FunctionRecord.prototype = u.prototypes.toList := by
  simp only [records, List.map_map]
  exact List.zipIdx_map_fst 0 _

@[simp] theorem length_functions (rs : List FunctionRecord) :
    (rs.flatMap fun r => function r.prototype r.isEntry).length
      = totalSize functionSize (rs.map FunctionRecord.prototype) := by
  induction rs with
  | nil => rfl
  | cons r rs ih =>
    rw [List.flatMap_cons, List.length_append, length_function, ih, List.map_cons, totalSize_cons]

@[simp] theorem length_functionTable (u : CodeUnit) :
    (functionTable u).length = functionTableSize u := by
  rw [functionTable_eq, length_functions, map_prototype_records, functionTableSize]

/-- **The size that is written is the size of the file.** -/
theorem size_toBinary (u : CodeUnit) : u.toBinary.size = fileSize u := by
  simp [toBinary, fileSize, functionStart, fileHeaderSize]
  omega

/-! ### Words, texts and functions -/

theorem ok_bind {ε α β : Type} (a : α) (f : α → Except ε β) : (Except.ok a >>= f) = f a :=
  rfl

section

variable {bytes : Bytes} {cursor : Nat}

theorem take_of_hasAt {part : List UInt8} (h : bytes.HasAt cursor part) {len : Nat}
    (hlen : part.length = len) : take bytes cursor len = .ok (part.toArray, cursor + len) := by
  subst hlen
  rw [take, h.slice?]

theorem readWord_of_hasAt {width n : Nat} (h : bytes.HasAt cursor (Bytes.toLittle width n))
    (hn : n < Bytes.span width) : readWord bytes cursor width = .ok (n, cursor + width) := by
  rw [readWord, take_of_hasAt h (Bytes.length_toLittle width n), ok_bind]
  show Except.ok (Bytes.ofLittle (Bytes.toLittle width n), cursor + width) = _
  rw [Bytes.ofLittle_toLittle, Nat.mod_eq_of_lt hn]

theorem readWord_of_hasAt_dword {n : Nat} (h : bytes.HasAt cursor (dword n))
    (hn : n < UInt32.size) : readWord bytes cursor 4 = .ok (n, cursor + 4) :=
  readWord_of_hasAt h hn

variable (hbytes : bytes.size < UInt32.size)
include hbytes

theorem readText_of_hasAt {s : String} (h : bytes.HasAt cursor (text s)) :
    readText bytes cursor = .ok (s, cursor + textSize s) := by
  obtain ⟨hlen, hraw⟩ := h.append
  rw [length_dword] at hraw
  have hsize := hraw.le_size
  rw [Array.length_toList, Bytes.size_ofString] at hsize
  rw [readText, readWord_of_hasAt_dword hlen (by omega), ok_bind]
  dsimp only
  rw [take_of_hasAt hraw (by simp), ok_bind]
  dsimp only
  rw [Bytes.toString?_ofString, Nat.add_assoc]
  rfl

theorem readTexts_of_hasAt {ss : List String} (h : bytes.HasAt cursor (ss.flatMap text)) :
    readTexts bytes ss.length cursor = .ok (ss, cursor + totalSize textSize ss) := by
  induction ss generalizing cursor with
  | nil => rfl
  | cons s ss ih =>
    obtain ⟨hs, hrest⟩ := h.append
    rw [length_text] at hrest
    rw [List.length_cons, readTexts, readText_of_hasAt hbytes hs, ok_bind]
    dsimp only
    rw [ih hrest, ok_bind]
    simp [Nat.add_assoc, pure, Except.pure]

omit hbytes in
/-- A text takes at least a byte. -/
theorem length_le_textSizes (ss : List String) : ss.length ≤ totalSize textSize ss := by
  induction ss with
  | nil => exact Nat.le_refl _
  | cons s ss ih =>
    simp only [List.length_cons, totalSize_cons, textSize]
    omega

/-- **A function is read back**, with its flag, and the cursor is behind it. -/
theorem readFunction_of_hasAt {p : Prototype} {isEntry : Bool} (hlocals : p.locals < UInt32.size)
    (h : bytes.HasAt cursor (function p isEntry)) :
    readFunction bytes cursor = .ok (⟨p, isEntry⟩, cursor + functionSize p) := by
  have hwhole := take_of_hasAt h (length_function p isEntry)
  have hsize := h.le_size
  rw [length_function] at hsize
  obtain ⟨h, hcode⟩ := h.append
  obtain ⟨h, hdeclared⟩ := h.append
  obtain ⟨hheader, hname⟩ := h.append
  obtain ⟨h, hlocal⟩ := hheader.append
  obtain ⟨h, hcount⟩ := h.append
  obtain ⟨h, hflags⟩ := h.append
  obtain ⟨h, hcodeLength⟩ := h.append
  obtain ⟨hheaderSize, hfunctionSize⟩ := h.append
  have hskip : take bytes cursor functionHeaderSize = .ok (_, cursor + 24) :=
    take_of_hasAt hheader (by simp [functionHeaderSize])
  simp only [List.length_append, length_dword, length_text, length_texts, Nat.reduceAdd,
    Nat.add_assoc] at hcode hdeclared hname hlocal hcount hflags hcodeLength hfunctionSize
  -- No size of a part is greater than that of the whole.
  have hparts : p.declared.length + p.code.size ≤ functionSize p := by
    have hcounts := length_le_textSizes p.declared
    simp only [functionSize]
    omega
  have hflag : (if isEntry then 1 else 0) < UInt32.size := by
    split <;> decide
  have hread : ¬ functionSize p < cursor + (24 + (textSize p.name
      + (totalSize textSize p.declared + p.code.size))) - cursor := by
    simp only [functionSize, functionHeaderSize]
    omega
  simp only [readFunction, ok_bind, Nat.add_assoc, Nat.reduceAdd,
    readWord_of_hasAt_dword hheaderSize (by decide),
    readWord_of_hasAt_dword hfunctionSize (show functionSize p < UInt32.size by omega),
    readWord_of_hasAt_dword hcodeLength (show p.code.size < UInt32.size by omega),
    readWord_of_hasAt_dword hflags hflag,
    readWord_of_hasAt_dword hcount (show p.declared.length < UInt32.size by omega),
    readWord_of_hasAt_dword hlocal hlocals, hskip, readText_of_hasAt hbytes hname,
    readTexts_of_hasAt hbytes hdeclared, take_of_hasAt hcode (Array.length_toList ..),
    if_neg hread, hwhole]
  cases isEntry <;> rfl

/-- The texts of a whole body are read back. -/
theorem readStrings_of_hasAt {ss : List String} (h : bytes.HasAt cursor (ss.flatMap text))
    (hend : cursor + totalSize textSize ss = bytes.size) : readStrings bytes cursor = .ok ss := by
  induction ss generalizing cursor with
  | nil =>
    rw [readStrings, if_neg]
    simp at hend
    omega
  | cons s ss ih =>
    obtain ⟨hs, hrest⟩ := h.append
    rw [length_text] at hrest
    have hread := readText_of_hasAt hbytes hs
    have hrests := ih hrest (by simpa [Nat.add_assoc] using hend)
    rw [readStrings, if_pos]
    · split
      · next e he => cases hread.symm.trans he
      · next s' next hs' =>
        cases hread.symm.trans hs'
        rw [hrests]
    · simp [textSize] at hend
      omega

/-- The functions of a whole body are read back. -/
theorem readFunctions_of_hasAt {rs : List FunctionRecord}
    (hlocals : ∀ r ∈ rs, r.prototype.locals < UInt32.size)
    (h : bytes.HasAt cursor (rs.flatMap fun r => function r.prototype r.isEntry))
    (hend : cursor + totalSize functionSize (rs.map FunctionRecord.prototype) = bytes.size) :
    readFunctions bytes cursor = .ok rs := by
  induction rs generalizing cursor with
  | nil =>
    rw [readFunctions, if_neg]
    simp at hend
    omega
  | cons r rs ih =>
    obtain ⟨hr, hrest⟩ := h.append
    rw [length_function] at hrest
    have hread := readFunction_of_hasAt hbytes (hlocals r (by simp)) hr
    have hrests := ih (fun r' hr' => hlocals r' (by simp [hr'])) hrest
      (by simpa [Nat.add_assoc] using hend)
    rw [readFunctions, if_pos]
    · split
      · next e he => cases hread.symm.trans he
      · next r' next hr' =>
        cases hread.symm.trans hr'
        rw [hrests]
    · simp [functionSize, functionHeaderSize] at hend
      omega

/-- **A section is read back**: its place in the chain, its kind and its body. -/
theorem readSection_of_hasAt {body : List UInt8} {next kind : Nat}
    (hnext : next = 0 ∨ cursor < next) (hchain : next < UInt32.size) (hkind : kind < UInt16.size)
    (h : bytes.HasAt cursor (sectionHeader body.length next kind ++ body)) :
    readSection bytes cursor = .ok ⟨next, kind, body.toArray⟩ := by
  have hsize := h.le_size
  obtain ⟨hheader, hbody⟩ := h.append
  obtain ⟨h, -⟩ := hheader.append
  obtain ⟨h, hhalf⟩ := h.append
  obtain ⟨h, hword⟩ := h.append
  obtain ⟨hheaderLength, hlength⟩ := h.append
  have hskip := take_of_hasAt hheader (length_sectionHeader body.length next kind)
  simp only [List.length_append, length_dword, length_sectionHeader, Nat.reduceAdd] at *
  have hforward : ¬ (next ≠ 0 ∧ next ≤ cursor) := by omega
  have hlonger : ¬ sectionHeaderSize + body.length < sectionHeaderSize := by omega
  have htake : take bytes (cursor + sectionHeaderSize)
      (sectionHeaderSize + body.length - sectionHeaderSize) = _ :=
    take_of_hasAt hbody (by omega)
  simp only [readSection, ok_bind, Nat.add_assoc, Nat.reduceAdd,
    readWord_of_hasAt_dword hheaderLength (by decide),
    readWord_of_hasAt_dword hlength (show sectionHeaderSize + body.length < UInt32.size by omega),
    readWord_of_hasAt_dword hword hchain, readWord_of_hasAt hhalf hkind, if_neg hforward, hskip,
    if_neg hlonger, htake]
  rfl

end

/-! ### Units -/

/-- The functions of a file are counted as they come; the last that is flagged is the entry. -/
theorem foldl_addFunction (entry : Nat) (ps : List Prototype) (done : Array Prototype)
    (strings : Array String) (e : Nat) :
    ((ps.zipIdx done.size).map fun (p, i) => (⟨p, i == entry⟩ : FunctionRecord)).foldl
      addFunction ⟨done, strings, e⟩
      = ⟨done ++ ps.toArray, strings,
          if done.size ≤ entry ∧ entry < done.size + ps.length then entry else e⟩ := by
  induction ps generalizing done e with
  | nil =>
    have hnone : ¬ (done.size ≤ entry ∧ entry < done.size) := by omega
    simp [hnone]
  | cons p ps ih =>
    have h := ih (done.push p) (if done.size == entry then done.size else e)
    rw [Array.size_push] at h
    simp only [List.zipIdx_cons, List.map_cons, List.foldl_cons, addFunction]
    rw [h]
    congr 1
    · simp
    · simp only [List.length_cons]
      grind

/-- One section of the chain. -/
theorem readSections_eq {bytes : Bytes} {u u' : CodeUnit} {start : Nat} {s : Section}
    (hstart : 0 < start ∧ start < bytes.size) (hsection : readSection bytes start = .ok s)
    (hbody : readBody u s.kind s.body = .ok u') :
    readSections bytes u start
      = if s.next = 0 then .ok u' else readSections bytes u' s.next := by
  rw [readSections, if_pos hstart]
  split
  · next e he => cases hsection.symm.trans he
  · next s' hs' =>
    cases hsection.symm.trans hs'
    simp only [hbody]

end Binary

open Binary

/-- The entry is one of the functions, or the first place when there are none. -/
def Entered (u : CodeUnit) : Prop :=
  u.entry < u.prototypes.size ∨ (u.prototypes = #[] ∧ u.entry = 0)

/-- The unit with an entry that is one of the functions: the first, if its own is none of them. -/
def entered (u : CodeUnit) : CodeUnit :=
  { u with entry := if u.entry < u.prototypes.size then u.entry else 0 }

theorem Entered.entered_eq {u : CodeUnit} (h : u.Entered) : u.entered = u := by
  obtain ⟨prototypes, strings, entry⟩ := u
  rcases h with hlt | ⟨hnone, hzero⟩
  · simp only at hlt
    simp [entered, hlt]
  · simp_all [entered]

theorem foldl_records (u : CodeUnit) :
    (records u).foldl addFunction ⟨#[], u.strings, 0⟩ = u.entered := by
  refine (foldl_addFunction u.entry u.prototypes.toList #[] u.strings 0).trans ?_
  simp [entered]

/-- The two sections of a file. -/
theorem readSections_toBinary {u : CodeUnit}
    (hlocals : ∀ p ∈ u.prototypes, p.locals < UInt32.size) {bytes : Bytes}
    (hbytes : bytes.size < UInt32.size)
    (hstrings : bytes.HasAt fileHeaderSize
      (sectionHeader (stringTableSize u) (functionStart u) stringSection ++ stringTable u))
    (hfunctions : bytes.HasAt (functionStart u)
      (sectionHeader (functionTableSize u) 0 functionSection ++ functionTable u)) :
    readSections bytes ⟨#[], #[], 0⟩ fileHeaderSize = .ok u.entered := by
  have hsizeS := hstrings.le_size
  have hsizeF := hfunctions.le_size
  rw [← length_stringTable] at hstrings
  rw [← length_functionTable] at hfunctions
  simp only [List.length_append, length_sectionHeader, length_stringTable, length_functionTable]
    at hsizeS hsizeF
  have hstart : fileHeaderSize < functionStart u := by
    simp only [functionStart, sectionHeaderSize]
    omega
  have hheader : sectionHeaderSize = 16 := rfl
  have hfile : fileHeaderSize = 16 := rfl
  have hreadS : readBody ⟨#[], #[], 0⟩ stringSection (stringTable u).toArray
      = .ok ⟨#[], u.strings, 0⟩ := by
    have h : readStrings (stringTable u).toArray 0 = .ok u.strings.toList :=
      readStrings_of_hasAt (by simp; omega) (.all _) (by simp [stringTableSize])
    rw [readBody, if_pos rfl, h, ok_bind]
    simp [pure, Except.pure]
  have hreadF : readBody ⟨#[], u.strings, 0⟩ functionSection (functionTable u).toArray
      = .ok u.entered := by
    have hall : ∀ r ∈ records u, r.prototype.locals < UInt32.size := by
      intro r hr
      have hmem : r.prototype ∈ (records u).map FunctionRecord.prototype := List.mem_map_of_mem hr
      rw [map_prototype_records] at hmem
      exact hlocals _ (by simpa using hmem)
    have h : readFunctions (functionTable u).toArray 0 = .ok (records u) := by
      refine readFunctions_of_hasAt (by simp; omega) hall ?_ ?_
      · rw [functionTable_eq]
        exact .all _
      · simp [map_prototype_records, functionTableSize]
    rw [readBody, if_neg (by decide), if_pos rfl, h, ok_bind, foldl_records]
    rfl
  rw [readSections_eq (by omega)
    (readSection_of_hasAt hbytes (.inr hstart) (by omega) (by decide) hstrings) hreadS]
  dsimp only
  rw [if_neg (by omega), readSections_eq (by omega)
    (readSection_of_hasAt hbytes (.inl rfl) (by decide) (by decide) hfunctions) hreadF]
  rfl

/-- **What a binary form is read back as**, whatever the entry is.  The length that the file
declares is its length in bytes, and the file is recognised. -/
theorem ofBinary_toBinary (u : CodeUnit) (hlocals : ∀ p ∈ u.prototypes, p.locals < UInt32.size)
    (hsize : u.toBinary.size < UInt32.size) :
    ofBinary u.toBinary = .ok u.entered ∧
      readWord u.toBinary 8 4 = .ok (u.toBinary.size, 12) ∧ isBinary u.toBinary = true := by
  have h : u.toBinary.HasAt 0 (dword magic ++ half minorVersion ++ half majorVersion
      ++ dword (fileSize u) ++ dword fileHeaderSize
      ++ (sectionHeader (stringTableSize u) (functionStart u) stringSection ++ stringTable u)
      ++ (sectionHeader (functionTableSize u) 0 functionSection ++ functionTable u)) := by
    have h := Bytes.HasAt.all u.toBinary.toList
    simpa [toBinary] using h
  obtain ⟨h, hfunctions⟩ := h.append
  obtain ⟨h, hstrings⟩ := h.append
  obtain ⟨h, hfirst⟩ := h.append
  obtain ⟨h, hlength⟩ := h.append
  obtain ⟨h, hmajor⟩ := h.append
  obtain ⟨hmagic, hminor⟩ := h.append
  simp only [List.length_append, length_dword, length_half, length_sectionHeader,
    length_stringTable, Nat.reduceAdd, Nat.zero_add]
    at hfunctions hstrings hfirst hlength hmajor hminor
  rw [← size_toBinary] at hlength
  have hwhole : u.toBinary.extract 0 u.toBinary.size = u.toBinary := Array.extract_size
  have hreadMagic := readWord_of_hasAt_dword hmagic (by decide)
  have hreadLength := readWord_of_hasAt_dword hlength hsize
  refine ⟨?_, hreadLength, ?_⟩
  · have hstart : 16 + (sectionHeaderSize + stringTableSize u) = functionStart u := by
      simp only [functionStart, fileHeaderSize]
      omega
    rw [hstart] at hfunctions
    simp only [ofBinary, ok_bind, hreadMagic, Nat.zero_add, Nat.reduceAdd,
      readWord_of_hasAt hminor (show minorVersion < Bytes.span 2 by decide),
      readWord_of_hasAt hmajor (show majorVersion < Bytes.span 2 by decide), hreadLength, hwhole,
      readWord_of_hasAt_dword hfirst (by decide), ne_eq, not_true_eq_false, Nat.lt_irrefl,
      and_false, or_self, if_false]
    exact readSections_toBinary hlocals hsize hstrings hfunctions
  · simp [isBinary, hreadMagic]

/-- **A unit is read back from its binary form**, the very same: its functions in order, its strings
in order, its entry.  The length that the file declares is its length in bytes, and the file is
recognised. -/
theorem binary_round_trip (u : CodeUnit) (hentry : u.Entered)
    (hlocals : ∀ p ∈ u.prototypes, p.locals < UInt32.size)
    (hsize : u.toBinary.size < UInt32.size) :
    ofBinary u.toBinary = .ok u ∧
      readWord u.toBinary 8 4 = .ok (u.toBinary.size, 12) ∧ isBinary u.toBinary = true := by
  have h := ofBinary_toBinary u hlocals hsize
  rwa [hentry.entered_eq] at h

/-- Two functions, one of them without a name and without code, and strings that are empty, that
occur twice and that are not ASCII. -/
theorem binary_round_trip_twins :
    let u : CodeUnit :=
      ⟨#[⟨"", #[], 0, []⟩, ⟨"größe", #[0x50, 0x00], 4294967295, ["x", "", "x"]⟩],
        #["ß", "", "ß", "日本"], 1⟩
    u.Entered ∧ (∀ p ∈ u.prototypes, p.locals < UInt32.size) ∧
      u.toBinary.size < UInt32.size ∧
      ofBinary u.toBinary = .ok u ∧
      readWord u.toBinary 8 4 = .ok (u.toBinary.size, 12) ∧ isBinary u.toBinary = true := by
  intro u
  have hentry : u.Entered := .inl (by decide)
  have hlocals : ∀ p ∈ u.prototypes, p.locals < UInt32.size := by decide
  have hsize : u.toBinary.size < UInt32.size := by
    rw [size_toBinary]
    decide
  exact ⟨hentry, hlocals, hsize, binary_round_trip u hentry hlocals hsize⟩

end CodeUnit

end ScriptVm
