import ScriptVm.Proofs.FileLayout

/-!
# The declared length of a unit file

A unit file declares its own length.  What lies behind it counts for nothing: a file
that is cut there, or that goes on, has the same layout as the file that was accepted
(`FileLayout.Stands.agree`), and so holds the same unit.  A file that is cut before it
is truncated.  Up to there the two are read alike, and the first word that is not
complete, or the length itself, is missed.

A file that was written holds the unit that the binary form can say, which is not
always the one that it was written from (`CodeUnit.ofBinary_declared_length_other_unit`).

Main statements: `CodeUnit.ofBinary_declared_length`.
-/

namespace ScriptVm

namespace Bytes

variable {bytes bytes' : Bytes} {n cursor : Nat} {p : List UInt8}

/-- What stands in the part up to `n`. -/
theorem hasAt_extract (hn : n ≤ bytes.size) :
    Bytes.HasAt (bytes.extract 0 n) cursor p ↔ bytes.HasAt cursor p ∧
    cursor + p.length ≤ n := by
  have hslice : bytes.slice? 0 n = some (bytes.extract 0 n) := by
    rw [Bytes.slice?, if_pos (by omega), Nat.zero_add]
  rw [hasAt_slice hslice, Nat.zero_add]

/-- Two runs agree up to `n`. -/
structure AgreeTo (n : Nat) (bytes bytes' : Bytes) : Prop where
  left : n ≤ bytes.size
  right : n ≤ bytes'.size
  same : bytes.extract 0 n = bytes'.extract 0 n

theorem AgreeTo.hasAt (h : AgreeTo n bytes bytes') (hat : bytes.HasAt cursor p)
    (hle : cursor + p.length ≤ n) : bytes'.HasAt cursor p := by
  have hpart : Bytes.HasAt (bytes.extract 0 n) cursor p := (hasAt_extract h.left).mpr ⟨hat, hle⟩
  rw [h.same] at hpart
  exact ((hasAt_extract h.right).mp hpart).1

/-- A run that is cut behind `n`. -/
theorem agreeTo_extract {m : Nat} (hn : n ≤ bytes.size) (hm : n ≤ m) :
    AgreeTo n bytes (bytes.extract 0 m) :=
  ⟨hn, by simp; omega, by rw [Array.extract_extract]; congr 1; omega⟩

/-- A run that goes on. -/
theorem agreeTo_append (hn : n ≤ bytes.size) (rest : Bytes) : AgreeTo n bytes (bytes ++ rest) :=
  ⟨hn, by simp; omega, by rw [Array.extract_append]; simp; omega⟩

end Bytes

namespace CodeUnit

open Binary

/-! ### Behind the declared length -/

/-- **Only the declared length counts**: a layout of a file is one of every file that agrees with it
up to there. -/
theorem FileLayout.Stands.agree {bytes bytes' : Bytes} {l : FileLayout} (h : l.Stands bytes)
    (hagree : Bytes.AgreeTo l.length bytes bytes') : l.Stands bytes' where
  header := hagree.hasAt h.header (by
    have hle := h.header_le
    simp only [FileLayout.header, fileHeaderSize, List.length_append, length_dword, length_half]
      at hle ⊢
    omega)
  header_le := h.header_le
  length_le := hagree.right
  sections := hagree.same ▸ h.sections
  version := h.version
  minor_lt := h.minor_lt
  major_lt := h.major_lt
  length_lt := h.length_lt
  first_lt := h.first_lt

/-! ### Before the declared length -/

/-- A slice of a file that is cut is the slice of the file, or it is truncated. -/
theorem Binary.take_extract {bytes : Bytes} {n : Nat} (hn : n ≤ bytes.size) (cursor len : Nat) :
    take (bytes.extract 0 n) cursor len =
      if cursor + len ≤ n then take bytes cursor len else .error (.truncated cursor) := by
  have hsize : (bytes.extract 0 n).size = n := by simp [hn]
  unfold take Bytes.slice?
  rw [hsize]
  by_cases hle : cursor + len ≤ n
  · have hpart : (bytes.extract 0 n).extract cursor (cursor + len)
        = bytes.extract cursor (cursor + len) := by
      rw [Array.extract_extract, Nat.zero_add, Nat.zero_add, Nat.min_eq_left hle]
    rw [if_pos hle, if_pos hle, if_pos (by omega), hpart]
  · rw [if_neg hle, if_neg hle]

theorem Binary.readWord_extract {bytes : Bytes} {n : Nat} (hn : n ≤ bytes.size)
    (cursor width : Nat) :
    readWord (bytes.extract 0 n) cursor width =
      if cursor + width ≤ n then readWord bytes cursor width else .error (.truncated cursor) := by
  unfold readWord
  rw [take_extract hn]
  split <;> rfl

/-- The words of the file header, up to the length. -/
theorem FileLayout.Stands.reads {bytes : Bytes} {l : FileLayout} (h : l.Stands bytes) :
    readWord bytes 0 4 = .ok (magic, 4) ∧ readWord bytes 4 2 = .ok (l.minor, 6) ∧
      readWord bytes 6 2 = .ok (l.major, 8) ∧ readWord bytes 8 4 = .ok (l.length, 12) := by
  obtain ⟨prefixAt, -⟩ := h.header.append
  obtain ⟨prefixAt, hlength⟩ := prefixAt.append
  obtain ⟨prefixAt, hmajor⟩ := prefixAt.append
  obtain ⟨hmagic, hminor⟩ := prefixAt.append
  simp only [List.length_append, length_dword, length_half, Nat.reduceAdd, Nat.zero_add]
    at hlength hmajor hminor
  exact ⟨readWord_of_hasAt_dword hmagic (by decide), readWord_of_hasAt hminor h.minor_lt,
    readWord_of_hasAt hmajor h.major_lt, readWord_of_hasAt_dword hlength h.length_lt⟩

/-- **A file that is cut before its declared length is truncated.**  A word of the file header is
missed, or the length itself is. -/
theorem FileLayout.Stands.cut {bytes : Bytes} {l : FileLayout} (h : l.Stands bytes) {n : Nat}
    (hn : n < l.length) :
    ∃ offset ≤ n, ofBinary (bytes.extract 0 n) = .error (.truncated offset) := by
  obtain ⟨hmagic, hminor, hmajor, hlength⟩ := h.reads
  have hle : n ≤ bytes.size := Nat.le_trans (Nat.le_of_lt hn) h.length_le
  have hsize : (bytes.extract 0 n).size = n := by simp [hle]
  have hread := readWord_extract hle
  by_cases h4 : 4 ≤ n
  · have hmagic : readWord (bytes.extract 0 n) 0 4 = .ok (magic, 4) := by
      rw [hread, if_pos (by omega), hmagic]
    simp only [ofBinary, hmagic, ok_bind, ne_eq, not_true_eq_false, if_false]
    by_cases h6 : 6 ≤ n
    · have hminor : readWord (bytes.extract 0 n) 4 2 = .ok (l.minor, 6) := by
        rw [hread, if_pos (by omega), hminor]
      simp only [hminor, ok_bind]
      by_cases h8 : 8 ≤ n
      · have hmajor : readWord (bytes.extract 0 n) 6 2 = .ok (l.major, 8) := by
          rw [hread, if_pos (by omega), hmajor]
        simp only [hmajor, ok_bind, if_neg h.version]
        by_cases h12 : 12 ≤ n
        · have hlength : readWord (bytes.extract 0 n) 8 4 = .ok (l.length, 12) := by
            rw [hread, if_pos (by omega), hlength]
          simp only [hlength, ok_bind]
          rw [hsize, if_pos hn]
          exact ⟨n, Nat.le_refl n, rfl⟩
        · rw [hread, if_neg (by omega)]
          exact ⟨8, h8, rfl⟩
      · rw [hread, if_neg (by omega)]
        exact ⟨6, h6, rfl⟩
    · rw [hread, if_neg (by omega)]
      exact ⟨4, h4, rfl⟩
  · rw [ofBinary, hread, if_neg (by omega)]
    exact ⟨0, Nat.zero_le n, rfl⟩

/-! ### Units as they are written -/

/-- **What a file says is read, wherever it stops.** -/
structure Declared (bytes : Bytes) (length : Nat) (u : CodeUnit) : Prop where
  /-- The length stands in the header and in the file. -/
  stands : readWord bytes 8 4 = .ok (length, 12) ∧ length ≤ bytes.size
  /-- The file is truncated if it is cut before. -/
  cut : ∀ n < length, ∃ offset ≤ n, ofBinary (bytes.extract 0 n) = .error (.truncated offset)
  /-- It holds the same unit if it is cut behind. -/
  shortened : ∀ n, length ≤ n → ofBinary (bytes.extract 0 n) = .ok u
  /-- It holds the same unit if more bytes come. -/
  continued : ∀ rest, ofBinary (bytes ++ rest) = .ok u

theorem declared_of_ofBinary {bytes : Bytes} {u : CodeUnit} (h : ofBinary bytes = .ok u) :
    ∃ length, Declared bytes length u := by
  obtain ⟨l, stands, rfl⟩ := FileLayout.stands_of_ofBinary h
  refine ⟨l.length, ⟨stands.reads.2.2.2, stands.length_le⟩, fun n hn => stands.cut hn,
    fun n hn => ?_, fun rest => ?_⟩
  · exact FileLayout.ofBinary_of_stands (stands.agree (Bytes.agreeTo_extract stands.length_le hn))
  · exact FileLayout.ofBinary_of_stands (stands.agree (Bytes.agreeTo_append stands.length_le rest))

/-- A written file has the length that it declares. -/
theorem declared_toBinary {u : CodeUnit} (hsize : u.toBinary.size < UInt32.size) :
    Declared u.toBinary u.toBinary.size u.narrowed := by
  obtain ⟨hread, hlength, -⟩ := ofBinary_narrowed u hsize
  obtain ⟨length, h⟩ := declared_of_ofBinary hread
  have hsame := h.stands.1
  rw [hlength] at hsame
  cases hsame
  exact h

/-- **Only the declared length of a file counts.**  Every file that is accepted declares its length;
if it is cut before, it is truncated, and if it is cut behind or goes on, it holds the same unit.
A file that was written declares all its bytes, so it is truncated wherever it is cut, and with any
bytes behind it holds the unit that it was written from (with an entry and counts as the binary form
can say them, which is that very unit exactly if it fits). -/
theorem ofBinary_declared_length {bytes : Bytes} {u : CodeUnit} (h : ofBinary bytes = .ok u)
    {v : CodeUnit} (hsize : v.toBinary.size < UInt32.size) :
    (∃ length, Declared bytes length u) ∧ Declared v.toBinary v.toBinary.size v.narrowed ∧
      (v.narrowed = v ↔ v.Fits) :=
  ⟨declared_of_ofBinary h, declared_toBinary hsize, narrowed_eq_iff⟩

/-- A crooked file of 155 bytes that declares 154, and a unit that does not fit: it is read back
with another entry from its binary form, whatever comes behind. -/
theorem ofBinary_declared_length_crooked :
    let u : CodeUnit := ⟨#[⟨"", #[0xaa], 9, []⟩, ⟨"", #[0x50], 0, []⟩], #["x", ""], 1⟩
    let v : CodeUnit := ⟨#[⟨"main", #[0x50], 0, []⟩], #[], 9⟩
    ofBinary crooked = .ok u ∧ crooked.size = 155 ∧ v.toBinary.size < UInt32.size ∧
      (∃ length, Declared crooked length u) ∧ Declared v.toBinary v.toBinary.size v.narrowed ∧
      (v.narrowed = v ↔ v.Fits) ∧ v.narrowed ≠ v := by
  intro u v
  have hsize : v.toBinary.size < UInt32.size := by
    rw [size_toBinary]
    decide
  obtain ⟨hdeclared, hwritten, hfits⟩ := ofBinary_declared_length ofBinary_crooked hsize
  have hother : v.narrowed ≠ v := by
    rw [ne_eq, hfits]
    exact fun fits => absurd fits.entry (by unfold Entered; decide)
  exact ⟨ofBinary_crooked, by decide +kernel, hsize, hdeclared, hwritten, hfits, hother⟩

/-- Two units that are written in a few bytes and read back as other ones, whatever comes behind:
the first has one function and the entry 9, the second more local variables than a word can
count. -/
theorem ofBinary_declared_length_other_unit :
    let main : Prototype := ⟨"main", #[0x36, 7, 0xaa], 0, []⟩
    let straying : CodeUnit := ⟨#[main], #[], 9⟩
    let vast : CodeUnit := ⟨#[{ main with locals := 4294967297 }], #[], 0⟩
    (straying.toBinary.size < UInt32.size ∧
      ∀ rest, ofBinary (straying.toBinary ++ rest) = .ok { straying with entry := 0 }) ∧
    vast.toBinary.size < UInt32.size ∧
      ∀ rest, ofBinary (vast.toBinary ++ rest)
        = .ok { vast with prototypes := #[{ main with locals := 1 }] } := by
  intro main straying vast
  have hstraying : straying.toBinary.size < UInt32.size := by
    rw [size_toBinary]
    decide
  have hvast : vast.toBinary.size < UInt32.size := by
    rw [size_toBinary]
    decide
  have hentry : straying.narrowed = { straying with entry := 0 } := by decide +kernel
  have hlocals : vast.narrowed = { vast with prototypes := #[{ main with locals := 1 }] } := by
    decide +kernel
  rw [← hentry, ← hlocals]
  exact ⟨⟨hstraying, (declared_toBinary hstraying).continued⟩, hvast,
    (declared_toBinary hvast).continued⟩

end CodeUnit

end ScriptVm
