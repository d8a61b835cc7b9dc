/-!
# Little-endian words

Code and unit files are sequences of bytes that hold numbers with the least
significant byte first.  This file has the two directions of that encoding on
natural numbers, and the two's-complement reading of a word of a given width, and
the reading of bytes as text.

Main statements: `ofLittle_toLittle` (a written word reads back as its value
modulo the width) and `toLittle_ofLittle` (a read word is written back as the
very same bytes).
-/

namespace ScriptVm

/-- A run of bytes. -/
abbrev Bytes := Array UInt8

namespace Bytes

/-- The `width` low bytes of `n`, least significant first. -/
def toLittle : (width : Nat) → (n : Nat) → List UInt8
  | 0, _ => []
  | width + 1, n => UInt8.ofNat n :: toLittle width (n / 256)

/-- The number whose bytes are given, least significant first. -/
def ofLittle : List UInt8 → Nat
  | [] => 0
  | b :: rest => b.toNat + 256 * ofLittle rest

/-- How many numbers a word of `width` bytes can hold. -/
def span : (width : Nat) → Nat
  | 0 => 1
  | width + 1 => 256 * span width

/-- The `len` bytes from `start` on, if the run has them all. -/
def slice? (bytes : Bytes) (start len : Nat) : Option Bytes :=
  if start + len ≤ bytes.size then some (bytes.extract start (start + len)) else none

/-- The bytes of a text in UTF-8. -/
def ofString (s : String) : Bytes :=
  s.toUTF8.data

/-- The text whose UTF-8 form is given, if it is one. -/
def toString? (bytes : Bytes) : Option String :=
  String.fromUTF8? ⟨bytes⟩

/-- The character that a run of bytes starts with, and how many bytes it takes. -/
def firstChar? (bytes : List UInt8) : Option (Char × Nat) :=
  [1, 2, 3, 4].findSome? fun n =>
    match (toString? (bytes.take n).toArray).map String.toList with
    | some [c] => some (c, n)
    | _ => none

/-- The characters of a run of bytes, of which the first `skip` have been read; a byte that belongs
to no character is marked. -/
def chars (mark : Char) (skip : Nat) : List UInt8 → List Char
  | [] => []
  | b :: rest =>
    match skip with
    | skip + 1 => chars mark skip rest
    | 0 =>
      match firstChar? (b :: rest) with
      | some (c, n) => c :: chars mark (n - 1) rest
      | none => mark :: chars mark 0 rest

@[simp] theorem length_toLittle (width n : Nat) : (toLittle width n).length = width := by
  induction width generalizing n with
  | zero => rfl
  | succ width ih => simp [toLittle, ih]

/-- Reading a written word gives the number modulo the width. -/
theorem ofLittle_toLittle (width n : Nat) :
    ofLittle (toLittle width n) = n % span width := by
  induction width generalizing n with
  | zero => simp [toLittle, ofLittle, span, Nat.mod_one]
  | succ width ih =>
    rw [toLittle, ofLittle, ih, span, Nat.mod_mul]
    simp

theorem ofLittle_lt (bs : List UInt8) : ofLittle bs < span bs.length := by
  induction bs with
  | nil => simp [ofLittle, span]
  | cons b rest ih =>
    have hb := b.toNat_lt
    simp only [ofLittle, List.length_cons, span]
    omega

/-- Writing a read word gives the very same bytes. -/
theorem toLittle_ofLittle (bs : List UInt8) : toLittle bs.length (ofLittle bs) = bs := by
  induction bs with
  | nil => rfl
  | cons b rest ih =>
    have hb := b.toNat_lt
    have hdiv : (b.toNat + 256 * ofLittle rest) / 256 = ofLittle rest := by omega
    simp only [List.length_cons, ofLittle, toLittle, hdiv, ih]
    congr 1
    apply UInt8.toNat_inj.mp
    simp

@[simp] theorem size_of_slice? {bytes out : Bytes} {start len : Nat}
    (h : bytes.slice? start len = some out) : out.size = len := by
  unfold slice? at h
  split at h
  · cases h
    simp
    omega
  · cases h

end Bytes

end ScriptVm
