import TapeLang.Count

/-!
# The tape

A tape is a row of `Tape.length` cells of eight bits and a head over one of them. A move stops at
the end of the tape that it goes to, and a change of the cell under the head is taken modulo 256.
Both are given by counts, integers of any size, and are sums of numbers (`Count.sum`) before they
are brought back to the tape or to eight bits.

Nothing stops a move by a negative count, which goes the other way: the head may be off the tape
after it. Programs with such moves are condensed like all others, but they are not meant to be run.
There is no cell off the tape; that zero is read there and nothing is put anywhere is a mere
convention. Moves that go the way they say keep the head on the tape, `Tape.OnTape`, but this is a
fact about tapes that are reached from the blank one and not part of the type; neither is the number
of cells, which every operation keeps.
-/

namespace TapeLang

/-- A row of cells and the place of the head. -/
structure Tape where
  /-- The cells, from the start of the tape on. -/
  cells : Array UInt8
  /-- The place of the head: the index of the cell under it. -/
  head : Int
deriving DecidableEq

namespace Tape

/-- How many cells a tape has. -/
def length : Nat := 30000

/-- The tape at the beginning: zeros, and the head at the start. -/
def blank : Tape := ⟨Array.replicate length 0, 0⟩

/-- The head is over a cell of a tape of full length. -/
def OnTape (t : Tape) : Prop :=
  0 ≤ t.head ∧ t.head < length

/-- The cell under the head. -/
def current (t : Tape) : UInt8 :=
  if 0 ≤ t.head then t.cells.getD t.head.toNat 0 else 0

/-- Moves the head towards the start of the tape, as far as there is tape. -/
def moveLeft (t : Tape) (count : Int) : Tape :=
  { t with head := max (Count.sum t.head (-count)) 0 }

/-- Moves the head towards the end of the tape, as far as there is tape. -/
def moveRight (t : Tape) (count : Int) : Tape :=
  { t with head := min (Count.sum t.head count) (length - 1) }

/-- Puts a value into the cell under the head. -/
def put (t : Tape) (value : UInt8) : Tape :=
  if 0 ≤ t.head then { t with cells := t.cells.setIfInBounds t.head.toNat value } else t

/-- Changes the cell under the head by a signed amount, modulo 256. -/
def add (t : Tape) (amount : Int) : Tape :=
  t.put (UInt8.ofInt (Count.sum t.current.toNat amount))

/-- Reads a boundary of a stretch of cells: a negative one counts from the end of the tape, and
one off the tape is brought to its nearer end. -/
def boundary (t : Tape) (i : Int) : Nat :=
  let size : Int := t.cells.size
  (min (if i < 0 then size + i else i) size).toNat

/-- The cells from one boundary up to, but without, another. -/
def slice (t : Tape) (start stop : Int) : List UInt8 :=
  (t.cells.extract (t.boundary start) (t.boundary stop)).toList

/-! ## What the operations change -/

@[simp] theorem cells_moveLeft (t : Tape) (n : Int) : (t.moveLeft n).cells = t.cells := rfl

@[simp] theorem cells_moveRight (t : Tape) (n : Int) : (t.moveRight n).cells = t.cells := rfl

@[simp] theorem head_put (t : Tape) (v : UInt8) : (t.put v).head = t.head := by
  unfold put
  split <;> rfl

@[simp] theorem head_add (t : Tape) (n : Int) : (t.add n).head = t.head :=
  head_put t _

@[simp] theorem size_cells_put (t : Tape) (v : UInt8) :
    (t.put v).cells.size = t.cells.size := by
  unfold put
  split <;> simp

@[simp] theorem size_cells_add (t : Tape) (n : Int) :
    (t.add n).cells.size = t.cells.size :=
  size_cells_put t _

theorem current_put (t : Tape) (v : UInt8) (h : t.OnTape) (hsize : t.cells.size = length) :
    (t.put v).current = v := by
  obtain ⟨hlo, hhi⟩ := h
  have hcell : t.head.toNat < t.cells.size := by omega
  simp [current, put, hlo, hcell]

end Tape

end TapeLang
