import TapeLang.Stream
import TapeLang.SystemError

/-!
# Inputs

The kinds of input a program can be run on.

* `Input.Closed` has nothing to read.
* `Input.Buffer` reads a sequence of integers held in memory, each as its low eight bits.
* `Input.Descriptor` reads a file octet by octet, if the descriptor allows reading at all.
* `Input.Script` gives answers laid down beforehand, failures among them, and hands integers on
  as they are.

`Input` is any one of them. The buffer keeps its data and a position in it, the descriptor what
is left of its file; that they answer alike is a fact about them and not how they are made.
-/

namespace TapeLang

namespace Input

/-- An input with nothing to read. -/
structure Closed where
deriving DecidableEq, Repr

instance : Source Closed where
  read s := (.ended, s)

/-- Integers in memory. -/
structure Buffer where
  /-- All of the data. -/
  data : Array Int
  /-- How much of it has been read. -/
  position : Nat := 0
deriving DecidableEq, Repr

/-- Reads the next integer, modulo 256. -/
def Buffer.read (b : Buffer) : Reading × Buffer :=
  match b.data[b.position]? with
  | some v => (.value (v % 256), { b with position := b.position + 1 })
  | none => (.ended, b)

instance : Source Buffer := ⟨Buffer.read⟩

/-- A file opened for reading, or at least opened. -/
structure Descriptor where
  /-- The octets from the present offset to the end of the file. -/
  rest : List UInt8
  /-- Whether the descriptor allows reading. -/
  readable : Bool := true
deriving DecidableEq, Repr

/-- Reads one octet. -/
def Descriptor.read (d : Descriptor) : Reading × Descriptor :=
  if d.readable then
    match d.rest with
    | b :: rest => (.value b.toNat, { d with rest })
    | [] => (.ended, d)
  else (.failed SystemError.unreadable.cause, d)

instance : Source Descriptor := ⟨Descriptor.read⟩

/-- Answers laid down beforehand. -/
structure Script where
  /-- The answers still to be given. -/
  answers : List Reading

/-- Gives the next answer, and the end of the input once all have been given. -/
def Script.read : Script → Reading × Script
  | ⟨r :: rest⟩ => (r, ⟨rest⟩)
  | ⟨[]⟩ => (.ended, ⟨[]⟩)

instance : Source Script := ⟨Script.read⟩

end Input

/-- An input of any kind. -/
inductive Input where
  /-- Nothing to read. -/
  | closed
  /-- Integers in memory. -/
  | buffer (b : Input.Buffer)
  /-- A file. -/
  | descriptor (d : Input.Descriptor)
  /-- Answers laid down beforehand. -/
  | script (s : Input.Script)

/-- Reads from an input of any kind. -/
def Input.read : Input → Reading × Input
  | .closed => (.ended, .closed)
  | .buffer b => let (r, b) := b.read; (r, .buffer b)
  | .descriptor d => let (r, d) := d.read; (r, .descriptor d)
  | .script s => let (r, s) := s.read; (r, .script s)

instance : Source Input := ⟨Input.read⟩

end TapeLang
