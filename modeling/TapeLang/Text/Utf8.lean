/-!
# UTF-8 octets of a text, and a text of any octets

`Utf8.encode` gives the octets of a string. `Utf8.decode` goes back and never refuses: what is
not UTF-8 becomes U+FFFD, one for every maximal part of a broken sequence, and the octet that
broke it is looked at again as the start of something new. A leading byte order mark is not part
of the text.

## Construction

Decoding is a machine fed one octet at a time. `Utf8.Pending` is what it remembers inside a
sequence: the bits collected, how many octets are to come, and the range that the next one must
be in. Only the first continuation octet is ever narrowed below `80`–`BF`; that is how overlong
forms, surrogates and numbers past U+10FFFF are refused at the earliest octet. `Utf8.Decoder`
adds the text so far, so that decoding is a left fold and respects `++`: `Decoder.feed_append`.
-/

namespace TapeLang

namespace Utf8

/-! ## Encoding -/

/-- The UTF-8 octets of a string. -/
def encode (text : String) : List UInt8 :=
  text.toList.flatMap String.utf8EncodeChar

@[simp] theorem encode_append (s t : String) : encode (s ++ t) = encode s ++ encode t := by
  simp [encode]

/-! ## Decoding -/

/-- The character that stands for octets which are not UTF-8. -/
def replacement : Char := '\uFFFD'

/-- A sequence that has begun and is not complete. -/
structure Pending where
  /-- The bits collected so far. -/
  bits : Nat
  /-- How many octets follow after the next one. -/
  further : Nat
  /-- The least octet that may come next. -/
  least : UInt8
  /-- The greatest octet that may come next. -/
  greatest : UInt8
deriving DecidableEq, Repr

/-- What a first octet is. -/
inductive Lead where
  /-- A character of its own. -/
  | whole (c : Char)
  /-- The beginning of a longer sequence. -/
  | opens (p : Pending)
  /-- No beginning of anything. -/
  | broken
deriving DecidableEq, Repr

/-- Classifies a first octet. `C0`, `C1` could only begin overlong forms and `F5` upwards only
numbers past U+10FFFF. -/
def lead (b : UInt8) : Lead :=
  if b < 0x80 then .whole (Char.ofUInt8 b)
  else if b < 0xC2 then .broken
  else if b < 0xE0 then .opens ⟨b.toNat - 0xC0, 0, 0x80, 0xBF⟩
  else if b < 0xF0 then
    .opens ⟨b.toNat - 0xE0, 1, if b = 0xE0 then 0xA0 else 0x80, if b = 0xED then 0x9F else 0xBF⟩
  else if b < 0xF5 then
    .opens ⟨b.toNat - 0xF0, 2, if b = 0xF0 then 0x90 else 0x80, if b = 0xF4 then 0x8F else 0xBF⟩
  else .broken

/-- A decoder in the middle of its work. -/
structure Decoder where
  /-- The text that is complete. -/
  text : String := ""
  /-- The sequence under way, if one is. -/
  pending : Option Pending := none
deriving DecidableEq, Repr

namespace Decoder

/-- Takes an octet with no sequence under way. -/
def start (text : String) (b : UInt8) : Decoder :=
  match lead b with
  | .whole c => ⟨text.push c, none⟩
  | .opens p => ⟨text, some p⟩
  | .broken => ⟨text.push replacement, none⟩

/-- Takes one octet. An octet out of range closes the sequence under way with a replacement and
then starts afresh. -/
def step (d : Decoder) (b : UInt8) : Decoder :=
  match d with
  | ⟨text, none⟩ => start text b
  | ⟨text, some p⟩ =>
    if p.least ≤ b ∧ b ≤ p.greatest then
      let bits := p.bits * 64 + (b.toNat - 0x80)
      match p.further with
      | 0 => ⟨text.push (Char.ofNat bits), none⟩
      | further + 1 => ⟨text, some ⟨bits, further, 0x80, 0xBF⟩⟩
    else start (text.push replacement) b

/-- Takes octets one after another. -/
def feed (d : Decoder) (bytes : List UInt8) : Decoder :=
  bytes.foldl step d

/-- Ends the input. A sequence under way is cut short and counts as broken. -/
def finish : Decoder → String
  | ⟨text, none⟩ => text
  | ⟨text, some _⟩ => text.push replacement

@[simp] theorem feed_nil (d : Decoder) : d.feed [] = d := rfl

@[simp] theorem feed_cons (d : Decoder) (b : UInt8) (bytes : List UInt8) :
    d.feed (b :: bytes) = (d.step b).feed bytes := rfl

/-- Feeding is compositional. -/
theorem feed_append (d : Decoder) (a b : List UInt8) :
    d.feed (a ++ b) = (d.feed a).feed b :=
  List.foldl_append

end Decoder

/-- The octets without one byte order mark at their start. -/
def dropMark : List UInt8 → List UInt8
  | 0xEF :: 0xBB :: 0xBF :: rest => rest
  | bytes => bytes

/-- The text of any octets, mark and all. -/
def decodeAll (bytes : List UInt8) : String :=
  (Decoder.feed {} bytes).finish

/-- The text of any octets, without a byte order mark at their start. -/
def decode (bytes : List UInt8) : String :=
  decodeAll (dropMark bytes)

end Utf8

end TapeLang
