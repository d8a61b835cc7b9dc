import ScriptVm.Text.Combining
import ScriptVm.Text.Printable

/-!
# Texts between quotes

Two ways to show a text between double quotes.  `quoteAscii` keeps to printable
ASCII and also escapes the single quote; `quotePlain` escapes only what would be
unreadable: characters that are not printable, and those that would melt into the
character before them.
-/

namespace ScriptVm.Text

/-- An escape that names a character by its code point. -/
def codePoint (c : Char) : List Char :=
  ['\\', 'u', '{'] ++ Nat.toDigits 16 c.toNat ++ ['}']

/-- A character in printable ASCII. -/
def asciiChar (c : Char) : List Char :=
  if c = '\t' then ['\\', 't']
  else if c = '\r' then ['\\', 'r']
  else if c = '\n' then ['\\', 'n']
  else if c = '\'' then ['\\', '\'']
  else if c = '"' then ['\\', '"']
  else if c = '\\' then ['\\', '\\']
  else if 0x20 ≤ c.toNat ∧ c.toNat ≤ 0x7e then [c]
  else codePoint c

/-- A character, escaped if it would be unreadable. -/
def plainChar (c : Char) : List Char :=
  if c = '\x00' then ['\\', '0']
  else if c = '\t' then ['\\', 't']
  else if c = '\r' then ['\\', 'r']
  else if c = '\n' then ['\\', 'n']
  else if c = '"' then ['\\', '"']
  else if c = '\\' then ['\\', '\\']
  else if isPrintable c && !isCombining c then [c]
  else codePoint c

/-- A text between quotes, in printable ASCII only. -/
def quoteAscii (s : String) : String :=
  String.ofList ('"' :: s.toList.flatMap asciiChar ++ ['"'])

/-- A text between quotes, with unreadable characters escaped. -/
def quotePlain (s : String) : String :=
  String.ofList ('"' :: s.toList.flatMap plainChar ++ ['"'])

end ScriptVm.Text
