/-!
# Instructions and their symbols

A program works on a tape of byte cells under a movable head. Its eight instructions fall into
two families, and the division is the one that matters everywhere else.

* `Counted` instructions move the head or change the cell under it. They carry a count, an
  integer of any size and sign, so that a run of equal ones can be held as one.
* `Plain` instructions open and close a loop or pass one byte in or out. They carry nothing, and
  nothing is ever merged with them.

In a program text every instruction is one character, its `Instr.symbol`; a symbol stands for one
repetition. `Instr.ofSymbol?` reads a character, `Instr.ofByte?` an octet. Reading takes back
what writing put down: `Instr.ofSymbol?_symbol_once` for counted kinds, `Instr.ofSymbol?_symbol_plain`
for plain ones.
-/

namespace TapeLang

/-- The instructions that carry a count. -/
inductive Counted where
  /-- Move the head towards the start of the tape. -/
  | left
  /-- Move the head towards the end of the tape. -/
  | right
  /-- Raise the cell under the head. -/
  | add
  /-- Lower the cell under the head. -/
  | sub
deriving DecidableEq, Repr

/-- The instructions that stand for themselves alone. -/
inductive Plain where
  /-- Enter a loop, or pass over it. -/
  | openLoop
  /-- Repeat a loop, or leave it. -/
  | closeLoop
  /-- Write the cell under the head. -/
  | output
  /-- Read into the cell under the head. -/
  | input
deriving DecidableEq, Repr

/-- One instruction of a program. -/
inductive Instr where
  /-- A counted instruction, `count` times over. -/
  | counted (kind : Counted) (count : Int)
  /-- A plain instruction. -/
  | plain (kind : Plain)
deriving DecidableEq, Repr

/-- The kind that undoes a counted kind. -/
def Counted.inverse : Counted → Counted
  | .left => .right
  | .right => .left
  | .add => .sub
  | .sub => .add

@[simp] theorem Counted.inverse_inverse (k : Counted) : k.inverse.inverse = k := by
  cases k <;> rfl

theorem Counted.inverse_ne (k : Counted) : k.inverse ≠ k := by
  cases k <;> decide

/-- The character that a counted kind is written with. -/
def Counted.symbol : Counted → Char
  | .left => '<'
  | .right => '>'
  | .add => '+'
  | .sub => '-'

/-- The character that a plain kind is written with. -/
def Plain.symbol : Plain → Char
  | .openLoop => '['
  | .closeLoop => ']'
  | .output => '.'
  | .input => ','

namespace Instr

/-- One repetition of a counted kind, which is what a single symbol means. -/
def once (kind : Counted) : Instr := .counted kind 1

/-- Whether the instruction carries a count. -/
def isCounted : Instr → Bool
  | .counted .. => true
  | .plain _ => false

/-- The character that an instruction is written with. The count has no place in a program
text, so this inverts reading only for a count of one. -/
def symbol : Instr → Char
  | .counted kind _ => kind.symbol
  | .plain kind => kind.symbol

/-- The instruction that a character of a program text stands for. All other characters are
comment. -/
def ofSymbol? : Char → Option Instr
  | '<' => some (once .left)
  | '>' => some (once .right)
  | '+' => some (once .add)
  | '-' => some (once .sub)
  | '[' => some (.plain .openLoop)
  | ']' => some (.plain .closeLoop)
  | '.' => some (.plain .output)
  | ',' => some (.plain .input)
  | _ => none

/-- The instruction that an octet of a program stands for. The symbols are all below 128, where
an octet and the character of the same number are one thing in UTF-8. -/
def ofByte? (b : UInt8) : Option Instr :=
  ofSymbol? (Char.ofUInt8 b)

@[simp] theorem ofSymbol?_symbol_once (k : Counted) :
    ofSymbol? (once k).symbol = some (once k) := by
  cases k <;> rfl

@[simp] theorem ofSymbol?_symbol_plain (k : Plain) :
    ofSymbol? (plain k).symbol = some (plain k) := by
  cases k <;> rfl

end Instr

end TapeLang
