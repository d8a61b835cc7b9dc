import ScriptVm.Json.Parser

/-!
# What is written as JSON is read back

A document made of natural numbers and texts is printed and read again.  Three things
have to be undone: the digits of a number, the escapes of a text, and the nesting of
arrays and objects.

A number says nowhere where it ends, so it is read back if what follows it does not go
on with it (`Stops`); inside a document that is a comma or a closing bracket.

Main statement: `Json.parse?_print`.
-/

namespace ScriptVm

namespace Json

/-! ### Numbers -/

/-- What follows a number does not go on with it. -/
def Stops (rest : List Char) : Prop :=
  ∀ c ∈ rest.head?, c.isDigit = false ∧ c ≠ '.' ∧ c ≠ 'e' ∧ c ≠ 'E'

theorem stops_nil : Stops [] := nofun

theorem stops_cons {c : Char} (h : c.isDigit = false ∧ c ≠ '.' ∧ c ≠ 'e' ∧ c ≠ 'E')
    (rest : List Char) : Stops (c :: rest) := by
  intro d hd
  obtain rfl : c = d := Option.some.inj hd
  exact h

theorem ofDigits_toDigits (n : Nat) : ofDigits (Nat.toDigits 10 n) = n := by
  rw [ofDigits, ← Nat.ofDigitChars_eq_foldl]
  exact Nat.ofDigitChars_ten_toDigits

theorem isDigit_of_mem_toDigits {n : Nat} {c : Char} (h : c ∈ Nat.toDigits 10 n) :
    c.isDigit = true :=
  Nat.isDigit_of_mem_toDigits (by omega) (by omega) h

/-- The digits of a number stand for the number. -/
theorem natural?_toDigits (n : Nat) : natural? (Nat.toDigits 10 n) = some n := by
  have hall : (Nat.toDigits 10 n).all Char.isDigit = true :=
    List.all_eq_true.mpr fun c hc => isDigit_of_mem_toDigits hc
  rw [natural?, if_pos ⟨Nat.toDigits_ne_nil, hall⟩, ofDigits_toDigits]

/-- No number but zero starts with a zero. -/
theorem head_toDigits {n : Nat} (hn : n ≠ 0) : (Nat.toDigits 10 n).head? ≠ some '0' := by
  induction n using Nat.strongRecOn with
  | ind n ih =>
    rcases Nat.lt_or_ge n 10 with hlt | hge
    · rw [Nat.toDigits_of_lt_base hlt]
      simpa using hn
    · have htens := ih (n / 10) (by omega) (by omega)
      rw [Nat.toDigits_of_base_le (by omega) hge, List.head?_append]
      cases hhead : (Nat.toDigits 10 (n / 10)).head? with
      | none => exact absurd (List.head?_eq_none_iff.mp hhead) Nat.toDigits_ne_nil
      | some c => simpa [hhead] using htens

/-- Digits are read up to what does not go on with them. -/
theorem digits?_append {digits rest : List Char} (hne : digits ≠ [])
    (hall : ∀ c ∈ digits, c.isDigit = true) (h : Stops rest) :
    digits? (digits ++ rest) = some (digits, rest) := by
  have htake : rest.takeWhile Char.isDigit = [] := by
    cases rest with
    | nil => rfl
    | cons c rest => simp [(h c rfl).1]
  have hdrop : rest.dropWhile Char.isDigit = rest := by
    cases rest with
    | nil => rfl
    | cons c rest => simp [(h c rfl).1]
  simp [digits?, List.takeWhile_append_of_pos hall, List.dropWhile_append_of_pos hall, htake, hdrop,
    hne]

/-- A number is read from its digits. -/
theorem numberLiteral?_toDigits (n : Nat) {rest : List Char} (h : Stops rest) :
    numberLiteral? (Nat.toDigits 10 n ++ rest) = some (Nat.toDigits 10 n, rest) := by
  have hfraction : fraction? rest = some ([], rest) := by
    cases rest with
    | nil => rfl
    | cons c rest => simp [fraction?, (h c rfl).2.1]
  have hexponent : exponent? rest = some ([], rest) := by
    cases rest with
    | nil => rfl
    | cons c rest => simp [exponent?, (h c rfl).2.2]
  obtain ⟨d, tail, hdigits⟩ :=
    List.exists_cons_of_ne_nil (Nat.toDigits_ne_nil (n := n) (b := 10))
  have hd : d.isDigit = true := isDigit_of_mem_toDigits (n := n) (by simp [hdigits])
  have hwhole : whole? (Nat.toDigits 10 n ++ rest) = some (Nat.toDigits 10 n, rest) := by
    by_cases hn : n = 0
    · subst hn
      rfl
    · have hzero : d ≠ '0' := by
        intro hd
        exact head_toDigits hn (by rw [hdigits, hd]; rfl)
      have hread := digits?_append Nat.toDigits_ne_nil (fun c => isDigit_of_mem_toDigits (n := n)) h
      rw [← hread, hdigits]
      simp [whole?, hzero]
  have hsign : d ≠ '-' := by
    rintro rfl
    exact absurd hd (by decide)
  have hunsigned : unsigned? (Nat.toDigits 10 n ++ rest) = some (Nat.toDigits 10 n, rest) := by
    simp [unsigned?, hwhole, hfraction, hexponent]
  rw [← hunsigned, hdigits]
  simp [numberLiteral?, hsign]

/-! ### Texts -/

/-- A unit of four hexadecimal digits, as a control character is written. -/
theorem hexUnit?_hexChar {n : Nat} (h : n < 0x20) :
    hexUnit? '0' '0' (hexChar (n / 16)) (hexChar (n % 16)) = some n := by
  revert n
  decide

/-- How a character is written: by an escape of one letter, by its unit, or as it is. -/
theorem escapeChar_cases (c : Char) :
    (∃ e, escapeChar c = ['\\', e] ∧ escaped? e = some c ∧ e ≠ 'u') ∨
    (∃ a b, escapeChar c = ['\\', 'u', '0', '0', a, b] ∧ hexUnit? '0' '0' a b = some c.toNat ∧
      c.toNat < 0x20) ∨
    (escapeChar c = [c] ∧ c ≠ '"' ∧ c ≠ '\\' ∧ 0x20 ≤ c.toNat) := by
  by_cases hletter : c ∈ ['"', '\\', '\x08', '\t', '\n', '\x0c', '\r']
  · left
    simp only [List.mem_cons, List.not_mem_nil, or_false] at hletter
    rcases hletter with rfl | rfl | rfl | rfl | rfl | rfl | rfl
    all_goals exact ⟨_, rfl, rfl, by decide⟩
  · right
    simp only [List.mem_cons, List.not_mem_nil, or_false, not_or] at hletter
    obtain ⟨hquote, hslash, hb, ht, hn, hf, hr⟩ := hletter
    rw [escapeChar, if_neg hquote, if_neg hslash, if_neg hb, if_neg ht, if_neg hn, if_neg hf,
      if_neg hr]
    by_cases hcontrol : c.toNat < 0x20
    · rw [if_pos hcontrol]
      exact .inl ⟨_, _, rfl, hexUnit?_hexChar hcontrol, hcontrol⟩
    · rw [if_neg hcontrol]
      exact .inr ⟨rfl, hquote, hslash, by omega⟩

/-- What is written for a character is read as part of a lexeme. -/
theorem stringLexeme?_escapeChar (c : Char) (rest : List Char) :
    stringLexeme? (escapeChar c ++ rest)
      = (stringLexeme? rest).map fun (lexeme, rest) => (escapeChar c ++ lexeme, rest) := by
  rcases escapeChar_cases c with ⟨e, hc, he, hu⟩ | ⟨a, b, hc, hunit, -⟩ |
    ⟨hc, hquote, hslash, hge⟩
  · rw [hc]
    cases hread : stringLexeme? rest <;> simp [stringLexeme?, he, hu, hread]
  · rw [hc]
    cases hread : stringLexeme? rest <;> simp [stringLexeme?, hunit, hread]
  · rw [hc]
    cases hread : stringLexeme? rest <;>
      simp [stringLexeme?, hslash, Nat.not_lt.mpr hge, hread]

/-- The lexeme of a text is read up to the closing quote. -/
theorem stringLexeme?_escape (s : String) (rest : List Char) :
    stringLexeme? (escape s ++ '"' :: rest) = some (escape s, rest) := by
  rw [escape]
  induction s.toList with
  | nil => rfl
  | cons c cs ih =>
    rw [List.flatMap_cons, List.append_assoc, stringLexeme?_escapeChar, ih]
    rfl

/-- The piece stands for the character. -/
def Piece.Spells (p : Piece) (c : Char) : Prop :=
  p = .char c ∨ (p = .unit c.toNat ∧ c.toNat < 0x20)

/-- What is written for a character is one piece, which stands for it. -/
theorem pieces?_escapeChar (c : Char) :
    ∃ p : Piece, p.Spells c ∧
      ∀ rest, pieces? (escapeChar c ++ rest) = (pieces? rest).map (p :: ·) := by
  rcases escapeChar_cases c with ⟨e, hc, he, hu⟩ | ⟨a, b, hc, hunit, hlt⟩ |
    ⟨hc, -, hslash, hge⟩
  · refine ⟨.char c, .inl rfl, fun rest => ?_⟩
    rw [hc]
    cases hread : pieces? rest <;> simp [pieces?, he, hu, hread]
  · refine ⟨.unit c.toNat, .inr ⟨rfl, hlt⟩, fun rest => ?_⟩
    rw [hc]
    cases hread : pieces? rest <;> simp [pieces?, hunit, hread]
  · have hnul : c ≠ undecodable := by
      rintro rfl
      exact absurd hge (by decide)
    refine ⟨.char c, .inl rfl, fun rest => ?_⟩
    rw [hc]
    cases hread : pieces? rest <;> simp [pieces?, hslash, hnul, hread]

/-- A piece that stands for a character is joined as this character, whatever follows: a control
character is no half of a surrogate pair. -/
theorem joinPieces_cons {p : Piece} {c : Char} (h : p.Spells c) (rest : List Piece) :
    joinPieces (p :: rest) = (joinPieces rest).map (c :: ·) := by
  rcases h with rfl | ⟨rfl, hlt⟩
  · cases hjoin : joinPieces rest <;> simp [joinPieces, hjoin]
  · have hhigh : isHigh c.toNat = false := by
      simp only [isHigh, Bool.and_eq_false_iff, decide_eq_false_iff_not]
      omega
    have hlow : isLow c.toNat = false := by
      simp only [isLow, Bool.and_eq_false_iff, decide_eq_false_iff_not]
      omega
    match rest with
    | [] => simp [joinPieces, hhigh, hlow]
    | .unit lo :: rest =>
      cases hjoin : joinPieces (.unit lo :: rest) <;> simp [joinPieces, hhigh, hlow, hjoin]
    | .char d :: rest =>
      cases hjoin : joinPieces rest <;> simp [joinPieces, hhigh, hlow, hjoin]

/-- The lexeme of a text stands for the text. -/
theorem unescape?_escape (s : String) : unescape? (escape s) = some s := by
  have hlist : ∀ cs : List Char, ∃ ps, pieces? (cs.flatMap escapeChar) = some ps ∧
      joinPieces ps = some cs := by
    intro cs
    induction cs with
    | nil => exact ⟨[], rfl, rfl⟩
    | cons c cs ih =>
      obtain ⟨ps, hps, hjoin⟩ := ih
      obtain ⟨p, hp, hread⟩ := pieces?_escapeChar c
      refine ⟨p :: ps, ?_, ?_⟩
      · rw [List.flatMap_cons, hread, hps]
        rfl
      · rw [joinPieces_cons hp, hjoin]
        rfl
  obtain ⟨ps, hps, hjoin⟩ := hlist s.toList
  simp [unescape?, escape, hps, hjoin]

/-- A lexeme that is written holds no byte that belongs to no character. -/
theorem undecodable_not_mem_escape (s : String) : undecodable ∉ escape s := by
  rw [escape, List.mem_flatMap]
  rintro ⟨c, -, hmem⟩
  rcases escapeChar_cases c with ⟨e, hc, he, -⟩ | ⟨a, b, hc, hunit, -⟩ | ⟨hc, -, -, hge⟩
  · rw [hc] at hmem
    have hnul : undecodable = e := by simpa [undecodable] using hmem
    rw [← hnul] at he
    exact absurd he (by simp [escaped?, undecodable])
  · have hnone : hexDigit? undecodable = none := by decide
    rw [hc] at hmem
    have hnul : undecodable = a ∨ undecodable = b := by simpa [undecodable] using hmem
    rcases hnul with rfl | rfl <;> simp [hexUnit?, hnone] at hunit
  · rw [hc] at hmem
    have hnul : undecodable = c := by simpa using hmem
    rw [← hnul] at hge
    exact absurd hge (by decide)

/-! ### Documents -/

/-- A document of natural numbers and texts, as it is written. -/
inductive Written : Json → Prop
  | null : Written .null
  | bool (b : Bool) : Written (.bool b)
  | natural (n : Nat) : Written (.ofNat n)
  | text (s : String) : Written (.ofString s)
  | array {items : List Json} (written : ∀ x ∈ items, Written x) : Written (.array items)
  | object {members : List (List Char × Json)} (names : ∀ m ∈ members, ∃ name,
      m.1 = escape name)
      (written : ∀ m ∈ members, Written m.2) : Written (.object members)

/-- What is written starts with a character that is no blank and closes no array. -/
theorem Written.exists_head {x : Json} (h : Written x) :
    ∃ c tail, print x = c :: tail ∧ isBlank c = false ∧ c ≠ ']' := by
  cases h with
  | null => exact ⟨_, _, rfl, by decide, by decide⟩
  | bool b => cases b <;> exact ⟨_, _, rfl, by decide, by decide⟩
  | natural n =>
    obtain ⟨d, tail, hdigits⟩ :=
      List.exists_cons_of_ne_nil (Nat.toDigits_ne_nil (n := n) (b := 10))
    have hd : d.isDigit = true := isDigit_of_mem_toDigits (n := n) (by simp [hdigits])
    refine ⟨d, tail, hdigits, ?_, ?_⟩
    · refine Bool.eq_false_iff.mpr fun hblank => ?_
      simp only [isBlank, Bool.or_eq_true, decide_eq_true_eq] at hblank
      rcases hblank with ((rfl | rfl) | rfl) | rfl <;> exact absurd hd (by decide)
    · rintro rfl
      exact absurd hd (by decide)
  | text s => exact ⟨_, _, rfl, by decide, by decide⟩
  | @array items written => cases items <;> exact ⟨_, _, rfl, by decide, by decide⟩
  | @object members names written => cases members <;> exact ⟨_, _, rfl, by decide, by decide⟩

/-- A document is read off the front of a text, with as many calls as it has characters. -/
def Reads (x : Json) : Prop :=
  ∀ (fuel : Nat) (rest : List Char), (print x).length ≤ fuel → Stops rest →
    value? fuel (print x ++ rest) = some (x, rest)

theorem skipBlanks_cons {c : Char} (h : isBlank c = false) (rest : List Char) :
    skipBlanks (c :: rest) = c :: rest := by
  simp [skipBlanks, h]

theorem Written.skipBlanks {x : Json} (h : Written x) (rest : List Char) :
    Json.skipBlanks (print x ++ rest) = print x ++ rest := by
  obtain ⟨c, tail, hprint, hblank, -⟩ := h.exists_head
  rw [hprint, List.cons_append, skipBlanks_cons hblank]

/-- Behind an item comes a comma or the bracket. -/
theorem stops_printItems (items : List Json) (rest : List Char) :
    Stops (printItems items ++ rest) := by
  cases items with
  | nil => exact stops_cons (by decide) _
  | cons x items => exact stops_cons (by decide) _

/-- Behind a member comes a comma or the brace. -/
theorem stops_printMembers (members : List (List Char × Json)) (rest : List Char) :
    Stops (printMembers members ++ rest) := by
  cases members with
  | nil => exact stops_cons (by decide) _
  | cons m members => exact stops_cons (by decide) _

/-- The items of an array are read up to its closing bracket. -/
theorem items?_print (x : Json) (items : List Json) (written : ∀ y ∈ x :: items, Written y)
    (reads : ∀ y ∈ x :: items, Reads y) (fuel : Nat) (rest : List Char)
    (hfuel : (print x ++ printItems items).length ≤ fuel) :
    items? fuel (print x ++ printItems items ++ rest) = some (x :: items, rest) := by
  induction items generalizing x fuel with
  | nil =>
    simp only [printItems, List.length_append, List.length_cons, List.length_nil] at hfuel
    obtain ⟨fuel, rfl⟩ : ∃ k, fuel = k + 1 := ⟨fuel - 1, by omega⟩
    have hx := reads x (List.mem_cons_self ..) fuel _ (by omega) (stops_printItems [] rest)
    rw [List.append_assoc, items?, hx]
    rfl
  | cons y items ih =>
    simp only [printItems, List.length_append, List.length_cons] at hfuel ih
    obtain ⟨fuel, rfl⟩ : ∃ k, fuel = k + 1 := ⟨fuel - 1, by omega⟩
    have hx :=
      reads x (List.mem_cons_self ..) fuel _ (by omega) (stops_printItems (y :: items) rest)
    have hrest := ih y (fun z hz => written z (List.mem_cons_of_mem _ hz))
      (fun z hz => reads z (List.mem_cons_of_mem _ hz)) fuel (by omega)
    have hy := (written y (by simp)).skipBlanks (printItems items ++ rest)
    rw [List.append_assoc] at hrest
    rw [List.append_assoc, items?, hx]
    simp [printItems, skipBlanks_cons, isBlank, hy, hrest]

/-- The members of an object are read up to its closing brace. -/
theorem members?_print (name : List Char) (x : Json) (members : List (List Char × Json))
    (names : ∀ m ∈ (name, x) :: members, ∃ s, m.1 = escape s)
    (written : ∀ m ∈ (name, x) :: members, Written m.2)
    (reads : ∀ m ∈ (name, x) :: members, Reads m.2) (fuel : Nat) (rest : List Char)
    (hfuel : (quote name ++ ':' :: print x ++ printMembers members).length ≤ fuel) :
    members? fuel (quote name ++ ':' :: print x ++ printMembers members ++ rest)
      = some ((name, x) :: members, rest) := by
  obtain ⟨text, rfl⟩ : ∃ s, name = escape s := names (name, x) (List.mem_cons_self ..)
  have hname := stringLexeme?_escape text
  have hvalue (tail : List Char) :=
    (written (escape text, x) (List.mem_cons_self ..)).skipBlanks tail
  induction members generalizing text x fuel with
  | nil =>
    simp only [quote, printMembers, List.length_append, List.length_cons, List.length_nil] at hfuel
    obtain ⟨fuel, rfl⟩ : ∃ k, fuel = k + 1 := ⟨fuel - 1, by omega⟩
    have hx := reads (escape text, x) (List.mem_cons_self ..) fuel _ (by dsimp only; omega)
      (stops_printMembers [] rest)
    simp [printMembers] at hx
    simp [printMembers, quote, members?, hname, skipBlanks_cons, isBlank, hvalue, hx]
  | cons m members ih =>
    obtain ⟨next, y⟩ := m
    simp only [quote, printMembers, List.length_append, List.length_cons, List.length_nil]
      at hfuel ih
    obtain ⟨fuel, rfl⟩ : ∃ k, fuel = k + 1 := ⟨fuel - 1, by omega⟩
    have hx := reads (escape text, x) (List.mem_cons_self ..) fuel _ (by dsimp only; omega)
      (stops_printMembers ((next, y) :: members) rest)
    obtain ⟨other, rfl⟩ : ∃ s, next = escape s := names (next, y) (by simp)
    have hrest := ih y fuel other (fun z hz => names z (List.mem_cons_of_mem _ hz))
      (fun z hz => written z (List.mem_cons_of_mem _ hz))
      (fun z hz => reads z (List.mem_cons_of_mem _ hz)) (by omega) (stringLexeme?_escape other)
      (fun tail => (written (escape other, y) (by simp)).skipBlanks tail)
    simp [printMembers, quote] at hx hrest
    simp [printMembers, quote, members?, hname, skipBlanks_cons, isBlank, hvalue, hx, hrest]

/-- A document is read if it is with one call at hand. -/
theorem Written.reads_of_succ {x : Json} (written : Written x)
    (h : ∀ (fuel : Nat) (rest : List Char), (print x).length ≤ fuel + 1 → Stops rest →
      value? (fuel + 1) (print x ++ rest) = some (x, rest)) : Reads x := by
  intro fuel rest hfuel hstops
  obtain ⟨c, tail, hprint, -⟩ := written.exists_head
  have hpos : 0 < (print x).length := by simp [hprint]
  obtain ⟨fuel, rfl⟩ : ∃ k, fuel = k + 1 := ⟨fuel - 1, by omega⟩
  exact h fuel rest hfuel hstops

/-- A digit opens a number and nothing else. -/
theorem value?_digit {c : Char} (hc : c.isDigit = true) (fuel : Nat) (rest : List Char) :
    value? (fuel + 1) (c :: rest)
      = (numberLiteral? (c :: rest)).map fun (literal, rest) => (.number literal, rest) := by
  -- each other kind of document has a letter, a quote or a bracket in front
  rw [value?]
  all_goals
    intros
    rename_i heq
    obtain ⟨rfl, -⟩ := List.cons.inj heq
    exact absurd hc (by decide)

/-- An array with something in it is its items. -/
theorem value?_bracket {c : Char} (hblank : isBlank c = false) (hc : c ≠ ']') (fuel : Nat)
    (rest : List Char) :
    value? (fuel + 1) ('[' :: c :: rest)
      = (items? fuel (c :: rest)).map fun (items, rest) => (.array items, rest) := by
  rw [value?, skipBlanks_cons hblank]
  split
  · next heq =>
    obtain ⟨rfl, -⟩ := List.cons.inj heq
    exact absurd rfl hc
  · rfl

/-- An object with something in it is its members. -/
theorem value?_brace (fuel : Nat) (rest : List Char) :
    value? (fuel + 1) ('{' :: '"' :: rest)
      = (members? fuel ('"' :: rest)).map fun (members, rest) => (.object members, rest) :=
  rfl

/-- What is written is read back. -/
theorem Written.reads {x : Json} (h : Written x) : Reads x := by
  induction h with
  | null => exact Written.null.reads_of_succ fun fuel rest hfuel hstops => rfl
  | bool b => exact (Written.bool b).reads_of_succ fun fuel rest hfuel hstops => by cases b <;> rfl
  | natural n =>
    refine (Written.natural n).reads_of_succ fun fuel rest hfuel hstops => ?_
    obtain ⟨d, tail, hdigits⟩ :=
      List.exists_cons_of_ne_nil (Nat.toDigits_ne_nil (n := n) (b := 10))
    have hd : d.isDigit = true := isDigit_of_mem_toDigits (n := n) (by simp [hdigits])
    have hread := numberLiteral?_toDigits n hstops
    rw [ofNat, print]
    rw [hdigits, List.cons_append] at hread ⊢
    rw [value?_digit hd, hread]
    rfl
  | text s =>
    refine (Written.text s).reads_of_succ fun fuel rest hfuel hstops => ?_
    simp [ofString, print, quote, value?, stringLexeme?_escape]
  | @array items written reads =>
    refine (Written.array written).reads_of_succ fun fuel rest hfuel hstops => ?_
    cases items with
    | nil => rfl
    | cons y items =>
      obtain ⟨c, tail, hprint, hblank, hc⟩ := (written y (List.mem_cons_self ..)).exists_head
      have hitems := items?_print y items written reads fuel rest (by
        simp only [print, List.cons_append, List.length_cons] at hfuel
        omega)
      rw [print, List.cons_append, List.cons_append]
      rw [hprint, List.cons_append, List.cons_append] at hitems ⊢
      rw [value?_bracket hblank hc, hitems]
      rfl
  | @object members names written reads =>
    refine (Written.object names written).reads_of_succ fun fuel rest hfuel hstops => ?_
    cases members with
    | nil => rfl
    | cons m members =>
      obtain ⟨name, y⟩ := m
      have hmembers := members?_print name y members names written reads fuel rest (by
        simp only [print, List.cons_append, List.length_cons] at hfuel
        omega)
      rw [print, List.cons_append, List.cons_append, List.cons_append]
      rw [quote, List.cons_append, List.cons_append, List.cons_append, List.cons_append]
        at hmembers ⊢
      rw [value?_brace, hmembers]
      rfl

theorem undecodable_not_mem_quote (s : String) : undecodable ∉ quote (escape s) := by
  have hs := undecodable_not_mem_escape s
  have hquote : undecodable ≠ '"' := by decide
  simp [quote, hs, hquote]

theorem undecodable_not_mem_printItems {items : List Json}
    (h : ∀ y ∈ items, undecodable ∉ print y) : undecodable ∉ printItems items := by
  induction items with
  | nil => decide
  | cons y items ih =>
    have hy := h y (List.mem_cons_self ..)
    have hrest := ih fun z hz => h z (List.mem_cons_of_mem _ hz)
    have hcomma : undecodable ≠ ',' := by decide
    simp [printItems, hy, hrest, hcomma]

theorem undecodable_not_mem_printMembers {members : List (List Char × Json)}
    (names : ∀ m ∈ members, ∃ name, m.1 = escape name)
    (h : ∀ m ∈ members, undecodable ∉ print m.2) : undecodable ∉ printMembers members := by
  induction members with
  | nil => decide
  | cons m members ih =>
    obtain ⟨name, y⟩ := m
    obtain ⟨text, rfl⟩ : ∃ s, name = escape s := names (name, y) (List.mem_cons_self ..)
    have hname := undecodable_not_mem_quote text
    have hy := h (escape text, y) (List.mem_cons_self ..)
    have hrest := ih (fun z hz => names z (List.mem_cons_of_mem _ hz))
      fun z hz => h z (List.mem_cons_of_mem _ hz)
    have hcomma : undecodable ≠ ',' := by decide
    have hcolon : undecodable ≠ ':' := by decide
    simp [printMembers, hname, hy, hrest, hcomma, hcolon]

/-- Nothing that is written is a byte that belongs to no character. -/
theorem Written.undecodable_not_mem {x : Json} (h : Written x) : undecodable ∉ print x := by
  induction h with
  | null => decide
  | bool b => cases b <;> decide
  | natural n =>
    intro hmem
    exact absurd (isDigit_of_mem_toDigits hmem) (by decide)
  | text s => exact undecodable_not_mem_quote s
  | @array items written clean =>
    cases items with
    | nil => decide
    | cons y items =>
      -- the text differs from the one behind a comma in its first character only
      have htail := undecodable_not_mem_printItems clean
      rw [printItems, List.cons_append, List.mem_cons, not_or] at htail
      rw [print, List.cons_append, List.mem_cons, not_or]
      exact ⟨by decide, htail.2⟩
  | @object members names written clean =>
    cases members with
    | nil => decide
    | cons m members =>
      obtain ⟨name, y⟩ := m
      have htail := undecodable_not_mem_printMembers names clean
      rw [printMembers, List.cons_append, List.cons_append, List.mem_cons, not_or] at htail
      rw [print, List.cons_append, List.cons_append, List.mem_cons, not_or]
      exact ⟨by decide, htail.2⟩

/-- **Round trip.** A document of natural numbers and texts is what its text is parsed as. -/
theorem parse?_print {x : Json} (h : Written x) : parse? (String.ofList (print x)) = some x := by
  have hskip := h.skipBlanks []
  have hread := h.reads (2 * (print x).length + 2) [] (by omega) stops_nil
  rw [List.append_nil] at hskip hread
  rw [parse?, String.toList_ofList, if_neg h.undecodable_not_mem, document?, hskip]
  simp [hread, Json.skipBlanks]

end Json

end ScriptVm
