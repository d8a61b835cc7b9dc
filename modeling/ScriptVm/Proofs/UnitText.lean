import ScriptVm.Proofs.FileLayout
import ScriptVm.Proofs.JsonText

/-!
# Units written as JSON are read back

The text of a unit is read as the same unit, whatever its names and strings are and
whatever its code is.  The one thing that a unit can say and a reader refuses is a size
that is none of the machine (`Sized`).

A file that holds the text is told apart from a binary one by its first byte.

Main statement: `CodeUnit.json_round_trip`.
-/

namespace ScriptVm

open Json

/-! ### Lists and members -/

/-- A list whose items are read back is read back. -/
theorem Json.list?_map {α : Type} {read : Json → Option α} {write : α → Json}
    {items : List α} (h : ∀ x ∈ items, read (write x) = some x) :
    (Json.array (items.map write)).list? read = some items := by
  rw [list?]
  induction items with
  | nil => rfl
  | cons x items ih =>
    have hx := h x (List.mem_cons_self ..)
    have hrest := ih fun y hy => h y (List.mem_cons_of_mem _ hy)
    simp [hx, hrest]

theorem Json.text?_ofString (s : String) : (Json.ofString s).text? = some s :=
  unescape?_escape s

theorem Json.natBelow?_ofNat {bound n : Nat} (h : n < bound) :
    (Json.ofNat n).natBelow? bound = some n := by
  simp [natBelow?, ofNat, natural?_toDigits, h]

theorem Json.size?_ofNat {n : Nat} (h : n < UInt64.size) : (Json.ofNat n).size? = some n :=
  natBelow?_ofNat h

theorem Json.byte?_ofNat (b : UInt8) : (Json.ofNat b.toNat).byte? = some b := by
  rw [byte?, natBelow?_ofNat b.toNat_lt]
  simp

/-- The names of members that are written are read back. -/
theorem Json.named?_escape (members : List (String × Json)) :
    named? (members.map fun (name, x) => (escape name, x)) = some members := by
  rw [named?]
  induction members with
  | nil => rfl
  | cons m members ih => simp [unescape?_escape, ih]

/-- A list whose items are written is written. -/
theorem Json.written_list {α : Type} {write : α → Json} {items : List α}
    (h : ∀ x ∈ items, Written (write x)) : Written (.array (items.map write)) := by
  refine .array fun y hy => ?_
  obtain ⟨x, hx, rfl⟩ := List.mem_map.mp hy
  exact h x hx

/-- Members whose documents are written make an object that is written. -/
theorem Json.written_record (members : List (String × Json)) (h : ∀ m ∈ members, Written m.2) :
    Written (.object (members.map fun (name, x) => (escape name, x))) := by
  refine .object (fun m hm => ?_) fun m hm => ?_
  all_goals obtain ⟨⟨name, x⟩, hx, rfl⟩ := List.mem_map.mp hm
  · exact ⟨name, rfl⟩
  · exact h (name, x) hx

/-! ### Prototypes -/

namespace Prototype

theorem ofJson?_toJson {p : Prototype} (h : p.locals < UInt64.size) :
    ofJson? p.toJson = some p := by
  have hnames := named?_escape [("name", .ofString p.name),
    ("code", .array (p.code.toList.map fun b => .ofNat b.toNat)),
    ("local_variable_size", .ofNat p.locals),
    ("variables_in_context", .array (p.declared.map .ofString))]
  have hcode : (Json.array (p.code.toList.map fun b => .ofNat b.toNat)).list? byte?
      = some p.code.toList := list?_map fun b _ => byte?_ofNat b
  have hdeclared : (Json.array (p.declared.map .ofString)).list? text? = some p.declared :=
    list?_map fun s _ => text?_ofString s
  simp only [List.map_cons, List.map_nil] at hnames
  simp [toJson, ofJson?, hnames, required?, member?, ofMembers?, text?_ofString, hcode,
    size?_ofNat h, hdeclared]

theorem written_toJson (p : Prototype) : Written p.toJson :=
  written_record [
    ("name", .ofString p.name),
    ("code", .array (p.code.toList.map fun b : UInt8 => .ofNat b.toNat)),
    ("local_variable_size", .ofNat p.locals),
    ("variables_in_context", .array (p.declared.map .ofString))] (by
    simp only [List.mem_cons, List.not_mem_nil, or_false]
    rintro x (rfl | rfl | rfl | rfl)
    · exact .text p.name
    · exact written_list fun b _ => .natural b.toNat
    · exact .natural p.locals
    · exact written_list fun s _ => .text s)

end Prototype

namespace CodeUnit

/-- Every size is one of the machine. -/
structure Sized (u : CodeUnit) : Prop where
  locals : ∀ p ∈ u.prototypes, p.locals < UInt64.size
  entry : u.entry < UInt64.size

theorem ofJson?_toJson {u : CodeUnit} (h : u.Sized) : ofJson? u.toJson = some u := by
  have hnames := named?_escape [
    ("prototypes", .array (u.prototypes.toList.map Prototype.toJson)),
    ("strings", .array (u.strings.toList.map .ofString)),
    ("entry", .ofNat u.entry)]
  have hprototypes : (Json.array (u.prototypes.toList.map Prototype.toJson)).list? Prototype.ofJson?
      = some u.prototypes.toList :=
    list?_map fun p hp => Prototype.ofJson?_toJson (h.locals p (Array.mem_toList_iff.mp hp))
  have hstrings : (Json.array (u.strings.toList.map .ofString)).list? text?
      = some u.strings.toList := list?_map fun s _ => text?_ofString s
  simp only [List.map_cons, List.map_nil] at hnames
  simp [toJson, ofJson?, hnames, required?, member?, ofMembers?, hprototypes, hstrings,
    size?_ofNat h.entry]

theorem written_toJson (u : CodeUnit) : Written u.toJson :=
  written_record [
    ("prototypes", .array (u.prototypes.toList.map Prototype.toJson)),
    ("strings", .array (u.strings.toList.map .ofString)),
    ("entry", .ofNat u.entry)] (by
    simp only [List.mem_cons, List.not_mem_nil, or_false]
    rintro x (rfl | rfl | rfl)
    · exact written_list fun p _ => p.written_toJson
    · exact written_list fun s _ => .text s
    · exact .natural u.entry)

/-! ### Files -/

/-- A binary file starts with the first letter of its magic number. -/
theorem first_of_isBinary {bytes : Bytes} (h : isBinary bytes = true) :
    bytes.toList.head? = some 0x47 := by
  unfold isBinary at h
  split at h
  · next n next hword =>
    have hmagic : n = Binary.magic := by simpa using h
    obtain ⟨⟨before, after, hbytes, hbefore⟩, -⟩ := Binary.hasAt_of_readWord hword
    rw [List.length_eq_zero_iff.mp hbefore, hmagic] at hbytes
    rw [hbytes]
    rfl
  · cases h

/-- A text whose first character is a brace has its byte in front. -/
theorem head_ofString_brace (tail : List Char) :
    (Bytes.ofString (String.ofList ('{' :: tail))).toList.head? = some 0x7b := by
  rw [Bytes.ofString, String.toUTF8, String.toByteArray_ofList]
  have hbrace : String.utf8EncodeChar '{' = [0x7b] :=
    String.utf8EncodeChar_eq_singleton (by decide)
  simp [List.utf8Encode, hbrace]

/-- The text of a unit is not taken for a binary file: it starts with a brace. -/
theorem isBinary_toJsonText (u : CodeUnit) : isBinary (Bytes.ofString u.toJsonText) = false := by
  refine Bool.eq_false_iff.mpr fun hbinary => ?_
  have hletter := first_of_isBinary hbinary
  rw [toJsonText, toJson, print, List.cons_append, List.cons_append, head_ofString_brace] at hletter
  exact absurd hletter (by decide)

theorem ofJsonText?_toJsonText {u : CodeUnit} (sized : u.Sized) :
    ofJsonText? u.toJsonText = some u := by
  rw [ofJsonText?, toJsonText, parse?_print u.written_toJson]
  exact ofJson?_toJson sized

theorem load_toJsonText {u : CodeUnit} (sized : u.Sized) :
    load (Bytes.ofString u.toJsonText) = .ok u := by
  rw [load, if_neg (by simp [isBinary_toJsonText]), ofJsonBytes?, Bytes.toString?_ofString]
  simp only [ofJsonText?_toJsonText sized]

/-- **Round trip.** The JSON text of a unit is read as the unit, and so is a file that holds it. -/
theorem json_round_trip (u : CodeUnit) (sized : u.Sized) :
    ofJsonText? u.toJsonText = some u ∧ load (Bytes.ofString u.toJsonText) = .ok u :=
  ⟨ofJsonText?_toJsonText sized, load_toJsonText sized⟩

/-- A unit with the largest sizes, and with a quote, a backslash, control characters and characters
beyond ASCII in its texts. -/
def awkward : CodeUnit where
  prototypes := #[⟨"\"\\\x00\n\x1f", #[0, 255], 0xffffffffffffffff, ["é", "\x7f"]⟩]
  strings := #["", "\t😀\r\x08\x0c/"]
  entry := 0xffffffffffffffff

theorem json_round_trip_awkward :
    awkward.Sized ∧ load (Bytes.ofString awkward.toJsonText) = .ok awkward := by
  have hsized : awkward.Sized := ⟨by simp [awkward, UInt64.size], by decide⟩
  exact ⟨hsized, (json_round_trip awkward hsized).2⟩

end CodeUnit

end ScriptVm
