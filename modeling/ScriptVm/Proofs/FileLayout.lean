import ScriptVm.Proofs.Compilation

/-!
# The layout of a unit file

What a reader of binary files takes for a unit.  A file is read as a file header, a
chain of sections and the contents of these: texts, or functions one behind the
other.  `FileLayout` says where each of them stands and what its header says, and
`FileLayout.Stands` is all that the reader looks at: a file is accepted exactly if
it has such a layout, and the layout says which unit comes out.

A section lies within the length that the file declares, and a function's name,
variables and code lie behind its header and within its own size.  What the reader
does not look at is how long a header has to be, and where a section may start.
`FileLayout.Documented` asks for that: headers at least as long as the fields that
are read from them, and sections that lie behind the file header and overlap no
other.  Then no byte is read twice.  Without it one can be.

Main statements: `CodeUnit.ofBinary_canonical` (a unit that was read is read back
from its own binary form, whatever it was read from), `CodeUnit.ofBinary_layout`
(which files are accepted, what lies where, and when no byte is read twice).
-/

namespace ScriptVm

namespace Bytes

/-- What stands in a slice stands in the whole run, and does not reach beyond the slice. -/
theorem hasAt_slice {bytes body : Bytes} {start len cursor : Nat} {p : List UInt8}
    (hslice : bytes.slice? start len = some body) :
    body.HasAt cursor p ↔ bytes.HasAt (start + cursor) p ∧ cursor + p.length ≤ len := by
  have hsize := size_of_slice? hslice
  obtain ⟨before, after, hbytes, rfl⟩ := HasAt.of_slice? hslice
  constructor
  · intro h
    refine ⟨?_, hsize ▸ h.le_size⟩
    obtain ⟨first, last, hbody, rfl⟩ := h
    exact ⟨before ++ first, last ++ after, by simp [hbytes, hbody], by simp⟩
  · rintro ⟨h, hle⟩
    rw [← hsize, ← Array.length_toList] at hle
    have hdrop : bytes.toList.drop (before.length + cursor) = body.toList.drop cursor ++ after := by
      rw [hbytes, ← List.drop_drop, List.append_assoc, List.drop_left,
        List.drop_append_of_le_length (by omega)]
    rw [HasAt.iff_drop, hdrop] at h
    refine HasAt.iff_drop.mpr ⟨by rw [← Array.length_toList]; omega, ?_⟩
    exact List.prefix_of_prefix_length_le h.2 (List.prefix_append _ _)
      (by rw [List.length_drop]; omega)

/-- The bytes of a text are those it was read from. -/
theorem ofString_of_toString? {bytes : Bytes} {s : String} (h : bytes.toString? = some s) :
    ofString s = bytes := by
  unfold toString? String.fromUTF8? at h
  split at h
  · cases h
    rfl
  · cases h

end Bytes

namespace CodeUnit

open Binary

/-! ### Units that were read -/

/-- **A unit that was read is read back from its own binary form**, whatever the file was like that
it was read from.  Its entry is one of its functions, or 0 if it has none. -/
theorem ofBinary_canonical {bytes : Bytes} {u : CodeUnit} (h : ofBinary bytes = .ok u) :
    u.Entered ∧ (u.toBinary.size < UInt32.size → ofBinary u.toBinary = .ok u) := by
  have hfits := fits_of_ofBinary h
  refine ⟨hfits.entry, fun hsize => ?_⟩
  obtain ⟨hread, -, -⟩ := binary_round_trip u hfits.entry hfits.locals hsize
  exact hread

/-- A file of an older version that is not as it would be written: gaps between the sections and
bytes behind them, two sections of either kind, a longer header, a function with bytes behind its
code, and two functions with entry flags, one of them with other flags as well. -/
def crooked : Bytes :=
  (dword magic ++ half 7 ++ half 0 ++ dword 154 ++ dword 18
    ++ [0xff, 0xff]
    ++ dword 18 ++ dword 49 ++ dword 68 ++ half functionSection ++ half 5 ++ [0xff, 0xff]
    ++ dword 24 ++ dword 31 ++ dword 1 ++ dword 3 ++ dword 0 ++ dword 9 ++ text "" ++ [0xaa, 9, 9]
    ++ [0xff]
    ++ dword 16 ++ dword 21 ++ dword 89 ++ half stringSection ++ half 0 ++ text "x"
    ++ dword 16 ++ dword 45 ++ dword 134 ++ half functionSection ++ half 0
    ++ dword 24 ++ dword 29 ++ dword 1 ++ dword 1 ++ dword 0 ++ dword 0 ++ text "" ++ [0x50]
    ++ dword 16 ++ dword 20 ++ dword 0 ++ half stringSection ++ half 0 ++ text ""
    ++ [0xff]).toArray

theorem ofBinary_crooked :
    ofBinary crooked = .ok ⟨#[⟨"", #[0xaa], 9, []⟩, ⟨"", #[0x50], 0, []⟩],
      #["x", ""], 1⟩ := by
  have hread : (ofBinary crooked).toOption
      = some ⟨#[⟨"", #[0xaa], 9, []⟩, ⟨"", #[0x50], 0, []⟩], #["x", ""], 1⟩ := by
    decide +kernel
  exact ok_of_toOption hread

/-- The unit of that file has another binary form, and is read back from that one too. -/
theorem ofBinary_canonical_crooked :
    let u : CodeUnit := ⟨#[⟨"", #[0xaa], 9, []⟩, ⟨"", #[0x50], 0, []⟩], #["x", ""], 1⟩
    ofBinary crooked = .ok u ∧ u.toBinary ≠ crooked ∧ u.Entered ∧
      u.toBinary.size < UInt32.size ∧ ofBinary u.toBinary = .ok u := by
  intro u
  obtain ⟨hentry, hread⟩ := ofBinary_canonical ofBinary_crooked
  have hsize : u.toBinary.size < UInt32.size := by
    rw [size_toBinary]
    decide
  have hother : u.toBinary ≠ crooked := by decide +kernel
  exact ⟨ofBinary_crooked, hother, hentry, hsize, hread hsize⟩

namespace Binary

/-! ### Fields -/

/-- Where a field stands in a file. -/
structure Field where
  /-- Its first byte. -/
  start : Nat
  /-- How many bytes it has. -/
  length : Nat
  deriving DecidableEq

namespace Field

/-- The position behind a field. -/
def stop (f : Field) : Nat :=
  f.start + f.length

/-- A byte belongs to a field. -/
def Covers (f : Field) (i : Nat) : Prop :=
  f.start ≤ i ∧ i < f.stop

/-- No byte belongs to both fields. -/
def Apart (f g : Field) : Prop :=
  ∀ i, f.Covers i → ¬ g.Covers i

theorem apart_of_stop_le {f g : Field} (h : f.stop ≤ g.start) : f.Apart g := by
  intro i hf hg
  have := hf.2
  have := hg.1
  omega

/-- Fields of the given lengths, one behind the other. -/
def run : (start : Nat) → (lengths : List Nat) → List Field
  | _, [] => []
  | start, n :: lengths => ⟨start, n⟩ :: run (start + n) lengths

/-- Fields in the order of their bytes, from one position on and up to another. -/
def Packed : (start : Nat) → List Field → (stop : Nat) → Prop
  | start, [], stop => start ≤ stop
  | start, f :: fs, stop => start ≤ f.start ∧ Packed f.stop fs stop

namespace Packed

variable {a b c d : Nat} {fs gs : List Field}

theorem run (start : Nat) (lengths : List Nat) :
    Packed start (run start lengths) (start + totalSize id lengths) := by
  induction lengths generalizing start with
  | nil => exact Nat.le_refl _
  | cons n lengths ih =>
    refine ⟨Nat.le_refl _, ?_⟩
    rw [totalSize_cons, ← Nat.add_assoc]
    exact ih (start + n)

/-- Free room before and behind the fields. -/
theorem widen (h : Packed b fs c) (hab : a ≤ b) (hcd : c ≤ d) : Packed a fs d := by
  induction fs generalizing a b with
  | nil => exact Nat.le_trans hab (Nat.le_trans h hcd)
  | cons f fs ih => exact ⟨Nat.le_trans hab h.1, ih h.2 (Nat.le_refl _)⟩

theorem append (hf : Packed a fs b) (hg : Packed b gs c) : Packed a (fs ++ gs) c := by
  induction fs generalizing a with
  | nil => exact hg.widen hf (Nat.le_refl _)
  | cons f fs ih => exact ⟨hf.1, ih hf.2⟩

theorem start_le (h : Packed a fs b) : ∀ f ∈ fs, a ≤ f.start := by
  induction fs generalizing a with
  | nil => simp
  | cons f fs ih =>
    intro g hg
    rcases List.mem_cons.mp hg with rfl | hg
    · exact h.1
    · exact Nat.le_trans h.1 (Nat.le_trans (Nat.le_add_right ..) (ih h.2 g hg))

/-- **Fields in the order of their bytes are apart.** -/
theorem apart (h : Packed a fs b) : fs.Pairwise Apart := by
  induction fs generalizing a with
  | nil => exact .nil
  | cons f fs ih =>
    exact .cons (fun g hg => apart_of_stop_le (h.2.start_le g hg)) (ih h.2)

end Packed

end Field

/-! ### What was read stands in the file -/

section

variable {bytes : Bytes} {cursor next : Nat}

theorem hasAt_of_take {out : Bytes} {len : Nat} (h : take bytes cursor len = .ok (out, next)) :
    bytes.HasAt cursor out.toList ∧ out.size = len ∧ next = cursor + len := by
  obtain ⟨hslice, hnext⟩ := take_eq_ok h
  exact ⟨.of_slice? hslice, Bytes.size_of_slice? hslice, hnext⟩

theorem hasAt_of_readWord {width n : Nat} (h : readWord bytes cursor width = .ok (n, next)) :
    bytes.HasAt cursor (Bytes.toLittle width n) ∧ n < Bytes.span width ∧
    next = cursor + width := by
  obtain ⟨⟨word, c⟩, htake, h⟩ := bind_eq_ok h
  obtain ⟨hword, hsize, hnext⟩ := hasAt_of_take htake
  cases h
  rw [← Array.length_toList] at hsize
  have hback := Bytes.toLittle_ofLittle word.toList
  have hlt := Bytes.ofLittle_lt word.toList
  rw [hsize] at hback hlt
  refine ⟨?_, hlt, hnext⟩
  rwa [hback]

theorem hasAt_of_readText {s : String} (h : readText bytes cursor = .ok (s, next)) :
    bytes.HasAt cursor (text s) ∧ next = cursor + textSize s := by
  obtain ⟨⟨len, offset⟩, hlen, h⟩ := bind_eq_ok h
  obtain ⟨⟨raw, c⟩, hraw, h⟩ := bind_eq_ok h
  obtain ⟨hword, -, rfl⟩ := hasAt_of_readWord hlen
  obtain ⟨hbytes, hsize, rfl⟩ := hasAt_of_take hraw
  simp only at h
  split at h
  · next s' hs =>
    cases h
    obtain rfl := Bytes.ofString_of_toString? hs
    rw [Bytes.size_ofString] at hsize
    subst hsize
    exact ⟨hword.concat (by rwa [Bytes.length_toLittle]), Nat.add_assoc ..⟩
  · cases h

theorem hasAt_of_readTexts {count : Nat} {ss : List String}
    (h : readTexts bytes count cursor = .ok (ss, next)) (hcursor : cursor ≤ bytes.size) :
    ss.length = count ∧ bytes.HasAt cursor (ss.flatMap text) ∧
      next = cursor + totalSize textSize ss := by
  induction count generalizing cursor ss with
  | zero =>
    cases h
    exact ⟨rfl, Bytes.HasAt.iff_drop.mpr ⟨hcursor, List.nil_prefix⟩, rfl⟩
  | succ count ih =>
    obtain ⟨⟨s, c⟩, hs, h⟩ := bind_eq_ok h
    obtain ⟨⟨rest, c'⟩, hrest, h⟩ := bind_eq_ok h
    cases h
    obtain ⟨htext, rfl⟩ := hasAt_of_readText hs
    obtain ⟨hlength, htexts, rfl⟩ := ih hrest (by simpa using htext.le_size)
    refine ⟨by rw [List.length_cons, hlength], ?_, by rw [totalSize_cons, Nat.add_assoc]⟩
    exact htext.concat (by rwa [length_text])

end

/-! ### Functions -/

/-- The lengths of the fields of texts. -/
def textLengths (ss : List String) : List Nat :=
  ss.flatMap fun s => [4, s.utf8ByteSize]

theorem size_textLengths (ss : List String) (rest : List Nat) :
    totalSize id (textLengths ss ++ rest) = totalSize textSize ss + totalSize id rest := by
  induction ss with
  | nil => exact (Nat.zero_add _).symm
  | cons s ss ih =>
    calc totalSize id (textLengths (s :: ss) ++ rest)
        = 4 + (s.utf8ByteSize + totalSize id (textLengths ss ++ rest)) := rfl
      _ = totalSize textSize (s :: ss) + totalSize id rest := by
        rw [ih, totalSize_cons, textSize]
        omega

/-- A function as it stands in a file. -/
structure FunctionPlace where
  /-- The length of its header. -/
  headerSize : Nat
  /-- Its length with the header. -/
  size : Nat
  /-- Its flags. -/
  flags : Nat
  /-- What is read from it. -/
  prototype : Prototype

namespace FunctionPlace

/-- The function with its flag. -/
def record (f : FunctionPlace) : FunctionRecord :=
  ⟨f.prototype, f.flags % 2 = 1⟩

/-- The fields of the header. -/
def header (f : FunctionPlace) : List UInt8 :=
  dword f.headerSize ++ dword f.size ++ dword f.prototype.code.size ++ dword f.flags
    ++ dword f.prototype.declared.length ++ dword f.prototype.locals

/-- The texts behind the header: the name and the variables. -/
def texts (f : FunctionPlace) : List String :=
  f.prototype.name :: f.prototype.declared

/-- What is behind the header. -/
def body (f : FunctionPlace) : List UInt8 :=
  f.texts.flatMap text ++ f.prototype.code.toList

/-- The fields of a function that starts at a position. -/
def fields (start : Nat) (f : FunctionPlace) : List Field :=
  Field.run start (List.replicate 6 4)
    ++ Field.run (start + f.headerSize) (textLengths f.texts ++ [f.prototype.code.size])

/-- **A function stands at a position**, and nothing of it lies behind a second one.  Its header is
as long as it says, and its size holds all that is behind the header. -/
structure Stands (bytes : Bytes) (start stop : Nat) (f : FunctionPlace) : Prop where
  header : bytes.HasAt start f.header
  header_le : start + functionHeaderSize ≤ stop
  body : bytes.HasAt (start + f.headerSize) f.body
  body_le : f.headerSize + f.body.length ≤ f.size
  size_le : start + f.size ≤ stop
  flags_lt : f.flags < UInt32.size
  locals_lt : f.prototype.locals < UInt32.size

@[simp] theorem length_header (f : FunctionPlace) : f.header.length = functionHeaderSize := by
  simp [header, functionHeaderSize]

theorem length_body (f : FunctionPlace) :
    f.body.length = totalSize textSize f.texts + f.prototype.code.size := by
  rw [body, List.length_append, length_texts, Array.length_toList]

/-- Functions one behind the other, from one position to another. -/
def Tile (bytes : Bytes) : (start : Nat) → List FunctionPlace → (stop : Nat) → Prop
  | start, [], stop => start = stop
  | start, f :: fs, stop => f.Stands bytes start stop ∧ Tile bytes (start + f.size) fs stop

/-- The fields of functions one behind the other. -/
def tileFields : (start : Nat) → List FunctionPlace → List Field
  | _, [] => []
  | start, f :: fs => f.fields start ++ tileFields (start + f.size) fs

section

variable {bytes body : Bytes} {start stop cursor next : Nat} {f : FunctionPlace}
  {fs : List FunctionPlace}

theorem Stands.size_pos (h : f.Stands bytes start stop) : 0 < f.size := by
  have hle := h.body_le
  rw [length_body] at hle
  simp only [texts, totalSize_cons, textSize] at hle
  omega

/-- A function that was read stands where it was read. -/
theorem stands_of_readFunction {r : FunctionRecord}
    (h : readFunction bytes start = .ok (r, next)) :
    ∃ f : FunctionPlace, f.Stands bytes start bytes.size ∧ f.record = r ∧
      next = start + f.size := by
  obtain ⟨⟨headerSize, c1⟩, hheaderSize, h⟩ := bind_eq_ok h
  obtain ⟨⟨size, c2⟩, hsize, h⟩ := bind_eq_ok h
  obtain ⟨⟨codeLength, c3⟩, hcodeLength, h⟩ := bind_eq_ok h
  obtain ⟨⟨flags, c4⟩, hflags, h⟩ := bind_eq_ok h
  obtain ⟨⟨variableCount, c5⟩, hvariableCount, h⟩ := bind_eq_ok h
  obtain ⟨⟨locals, c6⟩, hlocals, h⟩ := bind_eq_ok h
  obtain ⟨⟨header, c7⟩, hheader, h⟩ := bind_eq_ok h
  obtain ⟨⟨name, c8⟩, hname, h⟩ := bind_eq_ok h
  obtain ⟨⟨declared, c9⟩, hdeclared, h⟩ := bind_eq_ok h
  obtain ⟨⟨code, c10⟩, hcode, h⟩ := bind_eq_ok h
  obtain ⟨w1, -, rfl⟩ := hasAt_of_readWord hheaderSize
  obtain ⟨w2, -, rfl⟩ := hasAt_of_readWord hsize
  obtain ⟨w3, -, rfl⟩ := hasAt_of_readWord hcodeLength
  obtain ⟨w4, flags_lt, rfl⟩ := hasAt_of_readWord hflags
  obtain ⟨w5, -, rfl⟩ := hasAt_of_readWord hvariableCount
  obtain ⟨w6, locals_lt, rfl⟩ := hasAt_of_readWord hlocals
  obtain ⟨-, -, rfl⟩ := hasAt_of_take hheader
  obtain ⟨nameAt, rfl⟩ := hasAt_of_readText hname
  obtain ⟨rfl, declaredAt, rfl⟩ := hasAt_of_readTexts hdeclared (by simpa using nameAt.le_size)
  obtain ⟨codeAt, rfl, rfl⟩ := hasAt_of_take hcode
  simp only at h
  split at h
  · cases h
  · next hholds =>
    obtain ⟨⟨whole, c11⟩, hwhole, h⟩ := bind_eq_ok h
    cases h
    obtain ⟨wholeAt, rfl, rfl⟩ := hasAt_of_take hwhole
    let f : FunctionPlace := ⟨headerSize, whole.size, flags, name, code, locals, declared⟩
    have headerAt : bytes.HasAt start f.header := by
      refine ((((w1.concat ?_).concat ?_).concat ?_).concat ?_).concat ?_
      all_goals simpa [dword, Nat.add_assoc]
    have bodyAt : bytes.HasAt (start + headerSize) f.body := by
      refine Bytes.HasAt.concat (p := f.texts.flatMap text) (nameAt.concat ?_) ?_
      · rwa [length_text]
      · rwa [length_texts, texts, totalSize_cons, ← Nat.add_assoc]
    refine ⟨f, ⟨headerAt, ?_, bodyAt, ?_, ?_, flags_lt, locals_lt⟩, rfl, rfl⟩
    · simpa using headerAt.le_size
    · rw [length_body, texts, totalSize_cons]
      simp only [f]
      omega
    · simpa using wholeAt.le_size

/-- A function is read where it stands. -/
theorem readFunction_of_stands (hbytes : bytes.size < UInt32.size)
    (h : f.Stands bytes start bytes.size) :
    readFunction bytes start = .ok (f.record, start + f.size) := by
  obtain ⟨prefixAt, w6⟩ := h.header.append
  obtain ⟨prefixAt, w5⟩ := prefixAt.append
  obtain ⟨prefixAt, w4⟩ := prefixAt.append
  obtain ⟨prefixAt, w3⟩ := prefixAt.append
  obtain ⟨w1, w2⟩ := prefixAt.append
  obtain ⟨textsAt, codeAt⟩ := h.body.append
  obtain ⟨nameAt, declaredAt⟩ := textsAt.append
  simp only [List.length_append, length_dword, length_text, length_texts, Nat.reduceAdd,
    texts, totalSize_cons, ← Nat.add_assoc] at w2 w3 w4 w5 w6 codeAt declaredAt
  have hle := h.size_le
  have hbody := h.body_le
  rw [length_body, texts, totalSize_cons] at hbody
  have hcount := length_le_textSizes f.prototype.declared
  have hheader := h.header_le
  have htake {len : Nat} (hlen : start + len ≤ bytes.size) :
      take bytes start len = .ok (bytes.extract start (start + len), start + len) := by
    rw [take, Bytes.slice?, if_pos hlen]
  have hread : ¬ f.size < start + f.headerSize + textSize f.prototype.name
      + totalSize textSize f.prototype.declared + f.prototype.code.size - start := by omega
  simp only [readFunction, ok_bind, Nat.add_assoc, Nat.reduceAdd,
    readWord_of_hasAt_dword w1 (show f.headerSize < UInt32.size by omega),
    readWord_of_hasAt_dword w2 (show f.size < UInt32.size by omega),
    readWord_of_hasAt_dword w3 (show f.prototype.code.size < UInt32.size by omega),
    readWord_of_hasAt_dword w4 h.flags_lt,
    readWord_of_hasAt_dword w5 (show f.prototype.declared.length < UInt32.size by omega),
    readWord_of_hasAt_dword w6 h.locals_lt,
    htake (show start + f.headerSize ≤ bytes.size by omega)]
  simp only [readText_of_hasAt hbytes nameAt, readTexts_of_hasAt hbytes declaredAt, ok_bind,
    take_of_hasAt codeAt (Array.length_toList ..), if_neg hread, htake hle]
  rfl

/-- Where functions stand, seen from a slice. -/
theorem stands_slice {len : Nat} (hslice : bytes.slice? start len = some body) :
    f.Stands body cursor len ↔ f.Stands bytes (start + cursor) (start + len) := by
  constructor
  · rintro ⟨h1, h2, h3, h4, h5, h6, h7⟩
    rw [Bytes.hasAt_slice hslice] at h1 h3
    refine ⟨h1.1, by omega, ?_, h4, by omega, h6, h7⟩
    rw [Nat.add_assoc]
    exact h3.1
  · rintro ⟨h1, h2, h3, h4, h5, h6, h7⟩
    rw [Nat.add_assoc] at h3
    have hheader := f.length_header
    refine ⟨(Bytes.hasAt_slice hslice).mpr ⟨h1, by omega⟩, by omega,
      (Bytes.hasAt_slice hslice).mpr ⟨h3, by omega⟩, h4, by omega, h6, h7⟩

theorem tile_slice {len : Nat} (hslice : bytes.slice? start len = some body) :
    Tile body cursor fs len ↔ Tile bytes (start + cursor) fs (start + len) := by
  induction fs generalizing cursor with
  | nil =>
    simp only [Tile]
    omega
  | cons f fs ih => rw [Tile, Tile, stands_slice hslice, ih, Nat.add_assoc]

theorem tile_of_readFunctions {rs : List FunctionRecord} (hcursor : cursor ≤ bytes.size)
    (h : readFunctions bytes cursor = .ok rs) :
    ∃ fs, Tile bytes cursor fs bytes.size ∧ fs.map record = rs := by
  fun_induction readFunctions bytes cursor generalizing rs with
  | case1 cursor inside e hread => cases h
  | case2 cursor inside r next hread forward e hrest ih => cases h
  | case3 cursor inside r next hread forward rest hrest ih =>
    cases h
    obtain ⟨f, stands, rfl, rfl⟩ := stands_of_readFunction hread
    obtain ⟨fs, tile, rfl⟩ := ih stands.size_le hrest
    exact ⟨f :: fs, ⟨stands, tile⟩, rfl⟩
  | case4 cursor outside =>
    cases h
    exact ⟨[], by simp only [Tile]; omega, rfl⟩

theorem readFunctions_of_tile (hbytes : bytes.size < UInt32.size)
    (h : Tile bytes cursor fs bytes.size) : readFunctions bytes cursor = .ok (fs.map record) := by
  induction fs generalizing cursor with
  | nil =>
    rw [Tile] at h
    rw [readFunctions, if_neg (by omega)]
    rfl
  | cons f fs ih =>
    obtain ⟨stands, tile⟩ := h
    have hread := readFunction_of_stands hbytes stands
    have hpos := stands.size_pos
    have hle := stands.size_le
    rw [readFunctions, if_pos (by omega)]
    split
    · next e he => cases hread.symm.trans he
    · next r next hr =>
      cases hread.symm.trans hr
      rw [ih tile]
      rfl

end

/-- The fields of a function whose header is long enough lie in its own range, in order. -/
theorem Stands.packed {bytes : Bytes} {start stop : Nat} {f : FunctionPlace}
    (h : f.Stands bytes start stop) (hheader : functionHeaderSize ≤ f.headerSize) :
    Field.Packed start (f.fields start) (start + f.size) := by
  have hle := h.body_le
  rw [length_body] at hle
  refine .append ((Field.Packed.run ..).widen (Nat.le_refl _) ?_)
    ((Field.Packed.run ..).widen (Nat.le_refl _) ?_)
  · exact Nat.add_le_add_left hheader _
  · rw [size_textLengths, totalSize_cons, totalSize_nil, id]
    omega

theorem Tile.packed {bytes : Bytes} {start stop : Nat} {fs : List FunctionPlace}
    (h : Tile bytes start fs stop) (hheaders : ∀ f ∈ fs, functionHeaderSize ≤ f.headerSize) :
    Field.Packed start (tileFields start fs) stop := by
  induction fs generalizing start with
  | nil => exact Nat.le_of_eq h
  | cons f fs ih =>
    exact (h.1.packed (hheaders f (by simp))).append
      (ih h.2 fun g hg => hheaders g (by simp [hg]))

end FunctionPlace

/-! ### Sections -/

/-- What a section holds. -/
inductive Contents where
  /-- Texts. -/
  | strings (ss : List String)
  /-- Functions. -/
  | functions (fs : List FunctionPlace)

namespace Contents

/-- The number of the kind. -/
def kind : Contents → Nat
  | strings _ => stringSection
  | functions _ => functionSection

/-- The contents fill all from one position to another. -/
def Fill (bytes : Bytes) (start stop : Nat) : Contents → Prop
  | strings ss => bytes.HasAt start (ss.flatMap text) ∧ start + totalSize textSize ss = stop
  | functions fs => FunctionPlace.Tile bytes start fs stop

/-- The unit with these contents as well. -/
def addTo (u : CodeUnit) : Contents → CodeUnit
  | strings ss => { u with strings := u.strings ++ ss }
  | functions fs => (fs.map FunctionPlace.record).foldl addFunction u

/-- The fields of the contents. -/
def fields (start : Nat) : Contents → List Field
  | strings ss => Field.run start (textLengths ss)
  | functions fs => FunctionPlace.tileFields start fs

/-- The functions have headers that are long enough. -/
def Documented : Contents → Prop
  | strings _ => True
  | functions fs => ∀ f ∈ fs, functionHeaderSize ≤ f.headerSize

variable {bytes body : Bytes} {start : Nat} {u u' : CodeUnit} {c : Contents}

theorem fill_slice {len : Nat} (hslice : bytes.slice? start len = some body) :
    c.Fill body 0 len ↔ c.Fill bytes start (start + len) := by
  cases c with
  | strings ss =>
    simp only [Fill, Bytes.hasAt_slice hslice, length_texts, Nat.add_zero]
    constructor
    · rintro ⟨⟨h, -⟩, heq⟩
      exact ⟨h, by omega⟩
    · rintro ⟨h, heq⟩
      exact ⟨⟨h, by omega⟩, by omega⟩
  | functions fs => exact FunctionPlace.tile_slice hslice

theorem texts_of_readStrings {cursor : Nat} {ss : List String} (hcursor : cursor ≤ body.size)
    (h : readStrings body cursor = .ok ss) : (strings ss).Fill body cursor body.size := by
  fun_induction readStrings body cursor generalizing ss with
  | case1 cursor inside e hread => cases h
  | case2 cursor inside s next hread forward e hrest ih => cases h
  | case3 cursor inside s next hread forward rest hrest ih =>
    cases h
    obtain ⟨textAt, rfl⟩ := hasAt_of_readText hread
    obtain ⟨restAt, heq⟩ := ih (by simpa using textAt.le_size) hrest
    refine ⟨textAt.concat (by rwa [length_text]), ?_⟩
    rw [totalSize_cons, ← Nat.add_assoc, heq]
  | case4 cursor outside =>
    cases h
    refine ⟨Bytes.HasAt.iff_drop.mpr ⟨hcursor, List.nil_prefix⟩, ?_⟩
    rw [totalSize_nil]
    omega

/-- What was read fills the body of its section. -/
theorem fill_of_readBody {kind : Nat} (h : readBody u kind body = .ok u') :
    ∃ c : Contents, c.kind = kind ∧ c.Fill body 0 body.size ∧ c.addTo u = u' := by
  unfold readBody at h
  split at h
  · next hkind =>
    obtain ⟨ss, hread, h⟩ := bind_eq_ok h
    cases h
    exact ⟨strings ss, hkind.symm, texts_of_readStrings (Nat.zero_le _) hread, rfl⟩
  · split at h
    · next hkind =>
      obtain ⟨rs, hread, h⟩ := bind_eq_ok h
      cases h
      obtain ⟨fs, tile, rfl⟩ := FunctionPlace.tile_of_readFunctions (Nat.zero_le _) hread
      exact ⟨functions fs, hkind.symm, tile, rfl⟩
    · cases h

/-- What fills the body of a section is read. -/
theorem readBody_of_fill (hbytes : body.size < UInt32.size) (h : c.Fill body 0 body.size) :
    readBody u c.kind body = .ok (c.addTo u) := by
  cases c with
  | strings ss =>
    rw [kind, readBody, if_pos rfl, readStrings_of_hasAt hbytes h.1 h.2]
    rfl
  | functions fs =>
    rw [kind, readBody, if_neg (by decide), if_pos rfl,
      FunctionPlace.readFunctions_of_tile hbytes h]
    rfl

theorem Fill.packed {stop : Nat} (h : c.Fill bytes start stop) (hc : c.Documented) :
    Field.Packed start (c.fields start) stop := by
  cases c with
  | strings ss =>
    obtain ⟨-, rfl⟩ := h
    have hrun := Field.Packed.run start (textLengths ss ++ [])
    rw [size_textLengths, totalSize_nil, List.append_nil] at hrun
    exact hrun
  | functions fs => exact FunctionPlace.Tile.packed h hc

end Contents

/-- A section as it stands in a file. -/
structure SectionPlace where
  /-- Where it starts. -/
  start : Nat
  /-- The length of its header. -/
  headerLength : Nat
  /-- Its length with the header. -/
  length : Nat
  /-- Where the next section starts; 0 ends the chain. -/
  next : Nat
  /-- What it holds. -/
  contents : Contents

namespace SectionPlace

/-- The position behind a section. -/
def stop (s : SectionPlace) : Nat :=
  s.start + s.length

/-- The fields that are read from the header. -/
def header (s : SectionPlace) : List UInt8 :=
  dword s.headerLength ++ dword s.length ++ dword s.next ++ half s.contents.kind

/-- **A section stands in a file**: within the file, its contents between its header and its end,
and in front of the next one. -/
structure Stands (bytes : Bytes) (s : SectionPlace) : Prop where
  header : bytes.HasAt s.start s.header
  headerLength_le : s.headerLength ≤ s.length
  stop_le : s.stop ≤ bytes.size
  contents : s.contents.Fill bytes (s.start + s.headerLength) s.stop
  forward : s.next = 0 ∨ s.start < s.next
  next_lt : s.next < UInt32.size

/-- The fields of a section. -/
def fields (s : SectionPlace) : List Field :=
  Field.run s.start [4, 4, 4, 2] ++ s.contents.fields (s.start + s.headerLength)

/-- A chain of sections from an offset on. -/
def Chain (bytes : Bytes) : (start : Nat) → List SectionPlace → Prop
  | start, [] => ¬ (0 < start ∧ start < bytes.size)
  | start, s :: ss => 0 < start ∧ s.start = start ∧ s.Stands bytes ∧ Chain bytes s.next ss

/-- The headers of a section and of its functions are at least as long as what is read from them. -/
structure Documented (s : SectionPlace) : Prop where
  header : sectionHeaderSize ≤ s.headerLength
  contents : s.contents.Documented

@[simp] theorem length_header (s : SectionPlace) : s.header.length = 14 := by
  simp [header]

section

variable {bytes : Bytes} {start : Nat} {u u' : CodeUnit} {s : SectionPlace}
  {ss : List SectionPlace}

/-- A section that was read stands where it was read. -/
theorem stands_of_readSection {read : Section} (h : readSection bytes start = .ok read)
    (hbody : readBody u read.kind read.body = .ok u') :
    ∃ s : SectionPlace, s.start = start ∧ s.next = read.next ∧ s.Stands bytes ∧
      s.contents.addTo u = u' := by
  have forward := readSection_next h
  obtain ⟨⟨headerLength, c1⟩, hheaderLength, h⟩ := bind_eq_ok h
  obtain ⟨⟨length, c2⟩, hlength, h⟩ := bind_eq_ok h
  obtain ⟨⟨next, c3⟩, hnext, h⟩ := bind_eq_ok h
  obtain ⟨⟨kind, c4⟩, hkind, h⟩ := bind_eq_ok h
  obtain ⟨w1, -, rfl⟩ := hasAt_of_readWord hheaderLength
  obtain ⟨w2, -, rfl⟩ := hasAt_of_readWord hlength
  obtain ⟨w3, next_lt, rfl⟩ := hasAt_of_readWord hnext
  obtain ⟨w4, -, rfl⟩ := hasAt_of_readWord hkind
  simp only at h
  split at h
  · cases h
  · obtain ⟨⟨header, bodyStart⟩, hheader, h⟩ := bind_eq_ok h
    obtain ⟨-, -, rfl⟩ := hasAt_of_take hheader
    simp only at h
    split at h
    · cases h
    · next hle =>
      obtain ⟨⟨body, c5⟩, htake, h⟩ := bind_eq_ok h
      cases h
      obtain ⟨bodyAt, hsize, -⟩ := hasAt_of_take htake
      obtain ⟨hslice, -⟩ := take_eq_ok htake
      obtain ⟨contents, rfl, fill, rfl⟩ := Contents.fill_of_readBody hbody
      have hstop : start + headerLength + (length - headerLength) = start + length := by omega
      rw [hsize, Contents.fill_slice hslice, hstop] at fill
      have headerAt : bytes.HasAt start
          (dword headerLength ++ dword length ++ dword next ++ half contents.kind) := by
        refine ((w1.concat ?_).concat ?_).concat ?_
        all_goals simpa [dword, Nat.add_assoc]
      refine ⟨⟨start, headerLength, length, next, contents⟩, rfl, rfl,
        ⟨headerAt, by simpa using hle, ?_, fill, forward, next_lt⟩, rfl⟩
      have hend := bodyAt.le_size
      rwa [Array.length_toList, hsize, hstop] at hend

/-- A section is read where it stands. -/
theorem readSection_of_stands (hbytes : bytes.size < UInt32.size) (h : s.Stands bytes) :
    ∃ body, readSection bytes s.start = .ok ⟨s.next, s.contents.kind, body⟩ ∧
      readBody u s.contents.kind body = .ok (s.contents.addTo u) := by
  obtain ⟨prefixAt, w4⟩ := h.header.append
  obtain ⟨prefixAt, w3⟩ := prefixAt.append
  obtain ⟨w1, w2⟩ := prefixAt.append
  simp only [List.length_append, length_dword, Nat.reduceAdd] at w2 w3 w4
  have hle := h.headerLength_le
  have hstop := h.stop_le
  have hforward := h.forward
  rw [stop] at hstop
  obtain ⟨header, hheader⟩ : ∃ header, bytes.slice? s.start s.headerLength = some header :=
    ⟨_, if_pos (by omega)⟩
  obtain ⟨body, hbody⟩ : ∃ body,
      bytes.slice? (s.start + s.headerLength) (s.length - s.headerLength) = some body :=
    ⟨_, if_pos (by omega)⟩
  have hsize := Bytes.size_of_slice? hbody
  have hkind : s.contents.kind < Bytes.span 2 := by
    cases s.contents with
    | strings => exact (by decide : stringSection < 65536)
    | functions => exact (by decide : functionSection < 65536)
  refine ⟨body, ?_, Contents.readBody_of_fill (by omega) ?_⟩
  · simp only [readSection, ok_bind, Nat.add_assoc, Nat.reduceAdd,
      readWord_of_hasAt_dword w1 (show s.headerLength < UInt32.size by omega),
      readWord_of_hasAt_dword w2 (show s.length < UInt32.size by omega),
      readWord_of_hasAt_dword w3 h.next_lt, readWord_of_hasAt w4 hkind,
      if_neg (show ¬ (s.next ≠ 0 ∧ s.next ≤ s.start) by omega), take, hheader, hbody,
      if_neg (Nat.not_lt.mpr hle)]
    rfl
  · have hend : s.start + s.headerLength + (s.length - s.headerLength) = s.stop := by
      rw [stop]
      omega
    rw [hsize, Contents.fill_slice hbody, hend]
    exact h.contents

/-- What a chain of sections adds to a unit. -/
def addAll (u : CodeUnit) (ss : List SectionPlace) : CodeUnit :=
  ss.foldl (fun u s => s.contents.addTo u) u

theorem chain_of_readSections (h : readSections bytes u start = .ok u') :
    ∃ ss, Chain bytes start ss ∧ addAll u ss = u' := by
  fun_induction readSections bytes u start with
  | case1 u start inside e hread => cases h
  | case2 u start inside read hread forward e hbody => cases h
  | case3 u start inside read hread forward u₁ hbody hlast =>
    cases h
    obtain ⟨s, rfl, hnext, stands, rfl⟩ := stands_of_readSection hread hbody
    refine ⟨[s], ⟨inside.1, rfl, stands, ?_⟩, rfl⟩
    rw [hnext, hlast]
    exact fun inside => Nat.lt_irrefl 0 inside.1
  | case4 u start inside read hread forward u₁ hbody hmore ih =>
    obtain ⟨s, rfl, hnext, stands, rfl⟩ := stands_of_readSection hread hbody
    obtain ⟨ss, chain, rfl⟩ := ih h
    exact ⟨s :: ss, ⟨inside.1, rfl, stands, hnext ▸ chain⟩, rfl⟩
  | case5 u start outside =>
    cases h
    exact ⟨[], outside, rfl⟩

theorem readSections_of_chain (hbytes : bytes.size < UInt32.size) (h : Chain bytes start ss) :
    readSections bytes u start = .ok (addAll u ss) := by
  induction ss generalizing u start with
  | nil =>
    rw [readSections, if_neg h]
    rfl
  | cons s ss ih =>
    obtain ⟨pos, rfl, stands, chain⟩ := h
    obtain ⟨body, hread, hbody⟩ := readSection_of_stands (u := u) hbytes stands
    have hinside := stands.header.le_size
    rw [length_header] at hinside
    rw [readSections_eq ⟨pos, by omega⟩ hread hbody]
    split
    · next hlast =>
      -- Behind the last section the chain has no other.
      have hrest := ih chain (u := s.contents.addTo u)
      simp only at hlast
      rw [readSections, if_neg (by omega)] at hrest
      exact hrest
    · exact ih chain

theorem Stands.packed (h : s.Stands bytes) (hs : s.Documented) :
    Field.Packed s.start s.fields s.stop := by
  refine .append ((Field.Packed.run ..).widen (Nat.le_refl _) ?_) (h.contents.packed hs.contents)
  have hheader := hs.header
  simp only [sectionHeaderSize] at hheader
  simp
  omega

theorem Chain.stands (h : Chain bytes start ss) : ∀ t ∈ ss, t.Stands bytes := by
  induction ss generalizing start with
  | nil => simp
  | cons s ss ih => exact List.forall_mem_cons.mpr ⟨h.2.2.1, ih h.2.2.2⟩

/-- A chain only moves forward. -/
theorem Chain.start_le (h : Chain bytes start ss) : ∀ t ∈ ss, 0 < start ∧
    start ≤ t.start := by
  induction ss generalizing start with
  | nil => simp
  | cons s ss ih =>
    obtain ⟨pos, rfl, stands, chain⟩ := h
    intro t ht
    rcases List.mem_cons.mp ht with rfl | ht
    · exact ⟨pos, Nat.le_refl _⟩
    · have hnext := ih chain t ht
      have hforward := stands.forward
      omega

/-- **Sections that do not overlap stand one behind the other**, and so do their fields. -/
theorem Chain.packed (h : Chain bytes start ss) (hss : ∀ s ∈ ss, s.Documented)
    (hapart : ss.Pairwise fun s t => Field.Apart ⟨s.start, s.length⟩ ⟨t.start, t.length⟩)
    {low : Nat} (hlow : ∀ s ∈ ss, low ≤ s.start) (hsize : low ≤ bytes.size) :
    Field.Packed low (ss.flatMap fields) bytes.size := by
  induction ss generalizing start low with
  | nil => exact hsize
  | cons s ss ih =>
    obtain ⟨pos, rfl, stands, chain⟩ := h
    obtain ⟨hs, hss⟩ := List.forall_mem_cons.mp hss
    rw [List.pairwise_cons] at hapart
    -- A section that starts later and overlaps this one would have its first byte in it.
    have hbehind : ∀ t ∈ ss, s.stop ≤ t.start := by
      intro t ht
      have hafter := chain.start_le t ht
      have hforward := stands.forward
      have hlength := (hss t ht).header
      have hle := (chain.stands t ht).headerLength_le
      have hcovers := hapart.1 t ht t.start
      simp only [Field.Covers, Field.stop, stop, sectionHeaderSize] at *
      omega
    exact ((stands.packed hs).widen (hlow s (by simp)) (Nat.le_refl _)).append
      (ih chain hss hapart.2 hbehind stands.stop_le)

end

end SectionPlace

end Binary

open Binary

/-- How a file is divided. -/
structure FileLayout where
  /-- The version: its second number. -/
  minor : Nat
  /-- The version: its first number. -/
  major : Nat
  /-- The length that the file declares. -/
  length : Nat
  /-- Where the first section starts. -/
  first : Nat
  /-- The sections in the order of the chain. -/
  sections : List SectionPlace

namespace FileLayout

/-- The file header. -/
def header (l : FileLayout) : List UInt8 :=
  dword magic ++ half l.minor ++ half l.major ++ dword l.length ++ dword l.first

/-- **A file has a layout.**  The sections lie within the length that it declares. -/
structure Stands (bytes : Bytes) (l : FileLayout) : Prop where
  header : bytes.HasAt 0 l.header
  header_le : fileHeaderSize ≤ l.length
  length_le : l.length ≤ bytes.size
  sections : SectionPlace.Chain (bytes.extract 0 l.length) l.first l.sections
  version : ¬ (majorVersion < l.major ∨ (l.major = majorVersion ∧ minorVersion < l.minor))
  minor_lt : l.minor < UInt16.size
  major_lt : l.major < UInt16.size
  length_lt : l.length < UInt32.size
  first_lt : l.first < UInt32.size

/-- The unit that a file of this layout holds. -/
def unit (l : FileLayout) : CodeUnit :=
  SectionPlace.addAll ⟨#[], #[], 0⟩ l.sections

/-- All fields that are read from a file of this layout. -/
def fields (l : FileLayout) : List Field :=
  Field.run 0 [4, 2, 2, 4, 4] ++ l.sections.flatMap SectionPlace.fields

/-- Every header is as long as the fields that are read from it, and the sections lie behind the
file header and do not overlap. -/
structure Documented (l : FileLayout) : Prop where
  sections : ∀ s ∈ l.sections, s.Documented ∧ fileHeaderSize ≤ s.start
  apart : l.sections.Pairwise fun s t => Field.Apart ⟨s.start, s.length⟩ ⟨t.start, t.length⟩

variable {bytes : Bytes} {l : FileLayout}

/-- **A file is accepted if it has a layout.** -/
theorem ofBinary_of_stands (h : l.Stands bytes) : ofBinary bytes = .ok l.unit := by
  obtain ⟨prefixAt, hfirst⟩ := h.header.append
  obtain ⟨prefixAt, hlength⟩ := prefixAt.append
  obtain ⟨prefixAt, hmajor⟩ := prefixAt.append
  obtain ⟨hmagic, hminor⟩ := prefixAt.append
  simp only [List.length_append, length_dword, length_half, Nat.reduceAdd, Nat.zero_add]
    at hfirst hlength hmajor hminor
  have hdeclared : bytes.slice? 0 l.length = some (bytes.extract 0 l.length) := by
    rw [Bytes.slice?, if_pos (by simpa using h.length_le), Nat.zero_add]
  have hfirst : Bytes.HasAt (bytes.extract 0 l.length) 12 (dword l.first) :=
    (Bytes.hasAt_slice hdeclared).mpr ⟨by simpa using hfirst, h.header_le⟩
  have hsize := Bytes.size_of_slice? hdeclared
  have hlt := h.length_lt
  simp only [ofBinary, ok_bind, Nat.zero_add, Nat.reduceAdd,
    readWord_of_hasAt_dword hmagic (by decide), readWord_of_hasAt hminor h.minor_lt,
    readWord_of_hasAt hmajor h.major_lt, readWord_of_hasAt_dword hlength h.length_lt,
    readWord_of_hasAt_dword hfirst h.first_lt, ne_eq, not_true_eq_false, if_false,
    if_neg h.version, if_neg (Nat.not_lt.mpr h.length_le)]
  exact SectionPlace.readSections_of_chain (by omega) h.sections

/-- **A file that was accepted has a layout.** -/
theorem stands_of_ofBinary {u : CodeUnit} (h : ofBinary bytes = .ok u) :
    ∃ l : FileLayout, l.Stands bytes ∧ l.unit = u := by
  obtain ⟨⟨start, c1⟩, hmagic, h⟩ := bind_eq_ok h
  obtain ⟨w1, -, rfl⟩ := hasAt_of_readWord hmagic
  simp only at h
  split at h
  · cases h
  · next hstart =>
    obtain rfl := Decidable.not_not.mp hstart
    obtain ⟨⟨minor, c2⟩, hminor, h⟩ := bind_eq_ok h
    obtain ⟨⟨major, c3⟩, hmajor, h⟩ := bind_eq_ok h
    obtain ⟨w2, minor_lt, rfl⟩ := hasAt_of_readWord hminor
    obtain ⟨w3, major_lt, rfl⟩ := hasAt_of_readWord hmajor
    simp only at h
    split at h
    · cases h
    · next version =>
      obtain ⟨⟨length, c4⟩, hlength, h⟩ := bind_eq_ok h
      obtain ⟨w4, length_lt, rfl⟩ := hasAt_of_readWord hlength
      simp only at h
      split at h
      · cases h
      · next hle =>
        have length_le : length ≤ bytes.size := Nat.not_lt.mp hle
        have hdeclared : bytes.slice? 0 length = some (bytes.extract 0 length) := by
          rw [Bytes.slice?, if_pos (by simpa using length_le), Nat.zero_add]
        obtain ⟨⟨first, c5⟩, hfirst, h⟩ := bind_eq_ok h
        obtain ⟨w5, first_lt, rfl⟩ := hasAt_of_readWord hfirst
        obtain ⟨w5, hend⟩ := (Bytes.hasAt_slice hdeclared).mp w5
        obtain ⟨sections, chain, rfl⟩ := SectionPlace.chain_of_readSections h
        have headerAt : bytes.HasAt 0 (dword magic ++ half minor ++ half major ++ dword length
            ++ dword first) := by
          refine (((w1.concat ?_).concat ?_).concat ?_).concat ?_
          all_goals simpa [dword, half]
        exact ⟨⟨minor, major, length, first, sections⟩,
          ⟨headerAt, hend, length_le, chain, version, minor_lt, major_lt, length_lt,
            first_lt⟩, rfl⟩

/-- **In a file of the documented layout no byte is read twice.** -/
theorem Stands.apart (h : l.Stands bytes) (hl : l.Documented) : l.fields.Pairwise Field.Apart := by
  have hsize : (bytes.extract 0 l.length).size = l.length := by
    simp [h.length_le]
  have hheader : Field.Packed 0 (Field.run 0 [4, 2, 2, 4, 4]) fileHeaderSize := .run ..
  have hsections := h.sections.packed (fun s hs => (hl.sections s hs).1) hl.apart
    (fun s hs => (hl.sections s hs).2) (hsize.symm ▸ h.header_le)
  exact (hheader.append hsections).apart

end FileLayout

/-- **Which files are accepted.**  Those that have a layout, and the layout says which unit comes
out.  The sections lie within the declared length, and what belongs to a function lies behind its
header and within its size.  If the headers are as long as documented and no section overlaps
another part of the file, then no byte is read as two fields. -/
theorem ofBinary_layout (bytes : Bytes) :
    (∀ u, ofBinary bytes = .ok u ↔ ∃ l : FileLayout, l.Stands bytes ∧ l.unit = u) ∧
    ∀ l : FileLayout, l.Stands bytes → l.Documented → l.fields.Pairwise Field.Apart := by
  refine ⟨fun u => ⟨FileLayout.stands_of_ofBinary, ?_⟩, fun l => FileLayout.Stands.apart⟩
  rintro ⟨l, stands, rfl⟩
  exact FileLayout.ofBinary_of_stands stands

/-- A file whose one section has a header of eight bytes, so that the offset of the next section and
the kind stand in its contents as well. -/
def doubled : Bytes :=
  (dword magic ++ half minorVersion ++ half majorVersion ++ dword 34 ++ dword 16
    ++ dword 8 ++ dword 18 ++ dword 0 ++ half stringSection ++ half 0 ++ [97, 98]).toArray

/-- **A byte can be read twice.**  That file is accepted, and in whatever layout it is seen, it has
a section with a header shorter than what is read from it, and two fields share a byte. -/
theorem ofBinary_doubled :
    ofBinary doubled = .ok ⟨#[], #["", "ab"], 0⟩ ∧
    ∀ l : FileLayout, l.Stands doubled →
      (∃ s ∈ l.sections, s.headerLength < sectionHeaderSize) ∧
      ¬ l.fields.Pairwise Field.Apart := by
  have hread : (ofBinary doubled).toOption = some ⟨#[], #["", "ab"], 0⟩ := by decide +kernel
  refine ⟨ok_of_toOption hread, fun l stands => ?_⟩
  have hword {cursor n m : Nat} (hn : n < UInt32.size) (h : Bytes.HasAt doubled cursor (dword n))
      (hread : (readWord doubled cursor 4).toOption.map Prod.fst = some m) : n = m := by
    rw [readWord_of_hasAt_dword h hn] at hread
    exact Option.some.inj hread
  have hsize : doubled.size = 34 := by decide +kernel
  obtain ⟨prefixAt, hfirst⟩ := stands.header.append
  obtain ⟨-, hlength⟩ := prefixAt.append
  simp only [List.length_append, length_dword, length_half] at hfirst hlength
  have hlength : l.length = 34 := hword stands.length_lt hlength (by decide +kernel)
  have hfirst : l.first = 16 := hword stands.first_lt hfirst (by decide +kernel)
  have hdeclared : doubled.extract 0 l.length = doubled := by
    rw [hlength, ← hsize, Array.extract_size]
  have chain := stands.sections
  rw [hdeclared, hfirst] at chain
  cases hsections : l.sections with
  | nil =>
    rw [hsections] at chain
    exact absurd ⟨by decide, by omega⟩ chain
  | cons s ss =>
    rw [hsections] at chain
    obtain ⟨-, hstart, standing, -⟩ := chain
    obtain ⟨prefixAt, -⟩ := standing.header.append
    obtain ⟨prefixAt, -⟩ := prefixAt.append
    obtain ⟨hheader, hlength⟩ := prefixAt.append
    have hle := standing.headerLength_le
    have hstop := standing.stop_le
    have hsmall : (34 : Nat) < UInt32.size := by decide
    rw [SectionPlace.stop, hsize] at hstop
    rw [hstart] at hheader hlength hstop
    rw [length_dword] at hlength
    have hheader : s.headerLength = 8 := hword (by omega) hheader (by decide +kernel)
    have hlength : s.length = 18 := hword (by omega) hlength (by decide +kernel)
    have fill := standing.contents
    rw [SectionPlace.stop, hstart, hheader, hlength] at fill
    refine ⟨⟨s, by simp, by rw [hheader]; decide⟩, fun hapart => ?_⟩
    -- The offset of the next section, and the length of the first text.
    have htwice : (Field.run 16 [4, 4, 4, 2] ++ s.contents.fields 24).Pairwise Field.Apart := by
      rw [FileLayout.fields, hsections, List.flatMap_cons, SectionPlace.fields, hstart, hheader,
        List.pairwise_append] at hapart
      exact (List.pairwise_append.mp hapart.2.1).1
    have hsame : ⟨24, 4⟩ ∈ s.contents.fields 24 := by
      cases hcontents : s.contents with
      | strings ts =>
        rw [hcontents] at fill
        cases ts with
        | nil => exact absurd fill.2 (by decide)
        | cons t ts => exact List.mem_cons_self
      | functions fs =>
        rw [hcontents] at fill
        cases fs with
        | nil => exact absurd fill (by simp [Contents.Fill, FunctionPlace.Tile])
        | cons f fs => exact absurd fill.1.header_le (by decide)
    exact (List.pairwise_append.mp htwice).2.2 ⟨24, 4⟩ (by simp [Field.run]) ⟨24,
      4⟩ hsame 24 ⟨by decide, by decide⟩ ⟨by decide, by decide⟩

end CodeUnit

end ScriptVm
