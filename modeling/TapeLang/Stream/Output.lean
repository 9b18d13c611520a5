import TapeLang.Stream
import TapeLang.SystemError
import TapeLang.Text.Utf8

/-!
# Outputs

The kinds of output a program can be run on.

* `Output.Discard` takes everything and keeps nothing.
* `Output.Buffer` keeps what it takes in memory, each integer as its low eight bits, and can be
  asked for its octets and for their text.
* `Output.Descriptor` appends octets to a file, if the descriptor allows writing at all.
* `Output.Script` fails where it is told to: at calls of given numbers, and at every call once it
  has taken a given number of values. It keeps values as they are and counts all calls.

`Output` is any one of them.
-/

namespace TapeLang

namespace Output

/-- An output that keeps nothing. -/
structure Discard where
deriving DecidableEq, Repr

instance : Sink Discard where
  write s _ := (.accepted, s)

/-- Octets in memory. -/
structure Buffer where
  /-- What has been written, in order. -/
  written : Array Int := #[]
deriving DecidableEq, Repr

namespace Buffer

/-- Keeps an integer modulo 256. -/
def write (b : Buffer) (v : Int) : Delivery × Buffer :=
  (.accepted, { b with written := b.written.push (v % 256) })

/-- The octets written, in order. -/
def octets (b : Buffer) : List UInt8 :=
  b.written.toList.map UInt8.ofInt

/-- The text that the octets written make. -/
def text (b : Buffer) : String :=
  Utf8.decode b.octets

instance : Sink Buffer := ⟨write⟩

end Buffer

/-- A file opened for writing, or at least opened. -/
structure Descriptor where
  /-- The octets of the file. -/
  file : Array UInt8 := #[]
  /-- Whether the descriptor allows writing. -/
  writable : Bool := true
deriving DecidableEq, Repr

namespace Descriptor

/-- Appends the octet that an integer is modulo 256. -/
def write (d : Descriptor) (v : Int) : Delivery × Descriptor :=
  if d.writable then (.accepted, { d with file := d.file.push (UInt8.ofInt v) })
  else (.failed SystemError.unwritable.cause, d)

/-- The octets of the file, in order. -/
def octets (d : Descriptor) : List UInt8 :=
  d.file.toList

instance : Sink Descriptor := ⟨write⟩

end Descriptor

/-- An output that fails where it is told to. -/
structure Script where
  /-- Calls that fail, by number from zero on, and what they fail with. -/
  failing : List (Nat × Failure) := []
  /-- How many values are taken before every call fails, and with what. -/
  limit : Option (Nat × Failure) := none
  /-- The values taken, in order. -/
  taken : Array Int := #[]
  /-- How many calls there were, failing ones included. -/
  calls : Nat := 0

namespace Script

/-- What the next call fails with, if it fails. A call listed by number comes first. -/
def refusal (s : Script) : Option Failure :=
  match s.failing.find? (·.1 = s.calls) with
  | some (_, failure) => some failure
  | none =>
    match s.limit with
    | some (n, failure) => if n ≤ s.taken.size then some failure else none
    | none => none

/-- Takes a value, or fails; the call is counted either way. -/
def write (s : Script) (v : Int) : Delivery × Script :=
  match s.refusal with
  | some failure => (.failed failure, { s with calls := s.calls + 1 })
  | none => (.accepted, { s with taken := s.taken.push v, calls := s.calls + 1 })

instance : Sink Script := ⟨write⟩

end Script

end Output

/-- An output of any kind. -/
inductive Output where
  /-- An output that keeps nothing. -/
  | discard
  /-- Octets in memory. -/
  | buffer (b : Output.Buffer)
  /-- A file. -/
  | descriptor (d : Output.Descriptor)
  /-- An output that fails where it is told to. -/
  | script (s : Output.Script)

/-- Writes to an output of any kind. -/
def Output.write : Output → Int → Delivery × Output
  | .discard, _ => (.accepted, .discard)
  | .buffer b, v => let (d, b) := b.write v; (d, .buffer b)
  | .descriptor f, v => let (d, f) := f.write v; (d, .descriptor f)
  | .script s, v => let (d, s) := s.write v; (d, .script s)

instance : Sink Output := ⟨Output.write⟩

end TapeLang
