import ScriptVm.Text.CharSet

/-!
# White space

The characters that separate words, of any script.
-/

namespace ScriptVm.Text

/-- The characters that are white space. -/
def white : CharSet where
  changes := [
    0x9, 0xe, 0x20, 0x21, 0x85, 0x86, 0xa0, 0xa1, 0x1680, 0x1681, 0x2000, 0x200b, 0x2028, 0x202a,
    0x202f, 0x2030, 0x205f, 0x2060, 0x3000, 0x3001]

/-- Whether a character is white space. -/
def isWhite (c : Char) : Bool :=
  white.contains c

/-- A text without white space at its start. -/
def trimStart (cs : List Char) : List Char :=
  cs.dropWhile isWhite

/-- A text without white space at its end. -/
def trimEnd (cs : List Char) : List Char :=
  (cs.reverse.dropWhile isWhite).reverse

/-- A text without white space at either end. -/
def trim (cs : List Char) : List Char :=
  trimEnd (trimStart cs)

end ScriptVm.Text
