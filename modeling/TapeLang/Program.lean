import TapeLang.Instr
import TapeLang.Text.Utf8

/-!
# Programs and their texts

A program is a list of instructions. It is read from octets by keeping those that stand for an
instruction and dropping the rest, `Program.ofBytes`; brackets are not looked at here, so every
text is a program. A string is read through its UTF-8 octets, `Program.ofText`.

`Program.render` writes a program down again, one character per instruction.
-/

namespace TapeLang

/-- A program: instructions in the order in which they stand. -/
abbrev Program := List Instr

namespace Program

/-- The program that a sequence of octets spells, one instruction with a count of one for each
octet that is a symbol. -/
def ofBytes (bytes : List UInt8) : Program :=
  bytes.filterMap Instr.ofByte?

/-- The program that a string spells. -/
def ofText (text : String) : Program :=
  ofBytes (Utf8.encode text)

/-- The text of a program, one character per instruction. Counts are not shown, so this gives
the program back exactly when every count is one. -/
def render (p : Program) : String :=
  String.ofList (p.map Instr.symbol)

/-! ## Reading piece by piece -/

@[simp] theorem ofBytes_nil : ofBytes [] = [] := rfl

@[simp] theorem ofBytes_append (a b : List UInt8) :
    ofBytes (a ++ b) = ofBytes a ++ ofBytes b :=
  List.filterMap_append

@[simp] theorem ofText_append (s t : String) : ofText (s ++ t) = ofText s ++ ofText t := by
  simp [ofText]

end Program

end TapeLang
