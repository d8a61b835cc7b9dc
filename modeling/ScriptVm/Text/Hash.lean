import ScriptVm.Bytes

/-!
# The hash of a text

Texts are hashed with SipHash-1-3 under the zero key: the state of four words is
mixed once for each word of the message and three times at the end.  The message
is the UTF-8 form of the text and a byte `0xff`, which no text contains.
-/

namespace ScriptVm.Text

/-- The state of the hash. -/
structure SipState where
  /-- First word. -/
  v0 : UInt64
  /-- Second word. -/
  v1 : UInt64
  /-- Third word. -/
  v2 : UInt64
  /-- Fourth word. -/
  v3 : UInt64

namespace SipState

/-- The state before the message, under the zero key. -/
def start : SipState :=
  ⟨0x736f6d6570736575, 0x646f72616e646f6d, 0x6c7967656e657261, 0x7465646279746573⟩

/-- A word with its bits rotated to the left. -/
def rotate (x : UInt64) (n : UInt64) : UInt64 :=
  (x <<< n) ||| (x >>> (64 - n))

/-- One round of mixing. -/
def mix (s : SipState) : SipState :=
  let v0 := s.v0 + s.v1
  let v2 := s.v2 + s.v3
  let v1 := rotate s.v1 13 ^^^ v0
  let v3 := rotate s.v3 16 ^^^ v2
  let v0 := rotate v0 32
  let v2 := v2 + v1
  let v0 := v0 + v3
  let v1 := rotate v1 17 ^^^ v2
  let v3 := rotate v3 21 ^^^ v0
  let v2 := rotate v2 32
  ⟨v0, v1, v2, v3⟩

/-- The state after one word of the message. -/
def absorb (s : SipState) (word : UInt64) : SipState :=
  let s := { s with v3 := s.v3 ^^^ word }.mix
  { s with v0 := s.v0 ^^^ word }

/-- The hash of the message absorbed. -/
def finish (s : SipState) : UInt64 :=
  let s := { s with v2 := s.v2 ^^^ 0xff }.mix.mix.mix
  s.v0 ^^^ s.v1 ^^^ s.v2 ^^^ s.v3

end SipState

/-- The state after the whole words of a message of `length` bytes, and after the last word, which
holds the bytes left over and the length. -/
def absorbAll (length : Nat) (s : SipState) : List UInt8 → SipState
  | b0 :: b1 :: b2 :: b3 :: b4 :: b5 :: b6 :: b7 :: rest =>
    absorbAll length
      (s.absorb (UInt64.ofNat (Bytes.ofLittle [b0, b1, b2, b3, b4, b5, b6, b7]))) rest
  | rest => s.absorb (UInt64.ofNat (Bytes.ofLittle rest + length % 256 * 0x100000000000000))

/-- The hash of a message. -/
def sipHash (message : List UInt8) : UInt64 :=
  (absorbAll message.length SipState.start message).finish

/-- The hash of a text. -/
def hash (s : String) : UInt64 :=
  sipHash ((Bytes.ofString s).toList ++ [0xff])

end ScriptVm.Text
