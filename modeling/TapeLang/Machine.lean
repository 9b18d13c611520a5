import TapeLang.Program.Brackets
import TapeLang.Tape

/-!
# The machine

A machine is a tape, the index of the next instruction and the loops that are being run, as the
indices of their opening brackets with the innermost one first. It knows nothing of streams.
`Machine.demand` tells what it needs in order to go on, and each demand has the one operation
that meets it:

* `halted`: the program is over, nothing more happens;
* `stray`: a closing bracket is next and no loop is being run, the machine cannot go on;
* `compute`: the next instruction concerns the machine alone, `Machine.compute` carries it out;
* `read`: `Machine.receive` takes the octet that was read;
* `write b`: the octet `b` is to be written, `Machine.sent` goes on once that is done.

A demand that is not met leaves the machine as it is, so it can be met later. That a failing
stream neither skips an instruction nor does half of one rests on this alone.

Brackets are matched while the machine runs. An opening bracket over a nonzero cell is put on the
list of loops; over zero the whole loop is passed over. A closing bracket over a nonzero cell goes
back behind the opening one, which stays on the list; over zero the loop is done and leaves it.
-/

namespace TapeLang

/-- A running program, the program itself apart. -/
structure Machine where
  /-- The tape. -/
  tape : Tape := Tape.blank
  /-- The index of the next instruction. -/
  pc : Nat := 0
  /-- The indices of the opening brackets of the loops being run, the innermost first. -/
  loops : List Nat := []
deriving DecidableEq

/-- What a machine needs in order to go on. -/
inductive Demand where
  /-- Nothing, ever again. -/
  | halted
  /-- What cannot be given: a loop for a closing bracket to close. -/
  | stray
  /-- Nothing from outside. -/
  | compute
  /-- An octet to be read. -/
  | read
  /-- The octet to be written. -/
  | write (b : UInt8)
deriving DecidableEq, Repr

/-- What a counted instruction does to a tape. -/
def Counted.act (kind : Counted) (count : Int) (t : Tape) : Tape :=
  match kind with
  | .left => t.moveLeft count
  | .right => t.moveRight count
  | .add => t.add count
  | .sub => t.add (-count)

@[simp] theorem Counted.size_cells_act (kind : Counted) (count : Int) (t : Tape) :
    (kind.act count t).cells.size = t.cells.size := by
  cases kind <;> simp [act]

namespace Machine

/-- What the machine needs in order to go on. -/
def demand (code : Array Instr) (m : Machine) : Demand :=
  match code[m.pc]? with
  | none => .halted
  | some (.counted ..) => .compute
  | some (.plain .openLoop) => .compute
  | some (.plain .closeLoop) => if m.loops.isEmpty then .stray else .compute
  | some (.plain .output) => .write m.tape.current
  | some (.plain .input) => .read

/-- Goes on to the next instruction, once the octet under the head has been written. -/
def sent (m : Machine) : Machine :=
  { m with pc := m.pc + 1 }

/-- Puts an octet into the cell under the head and goes on. -/
def receive (m : Machine) (b : UInt8) : Machine :=
  { m with tape := m.tape.put b, pc := m.pc + 1 }

/-- Carries out an instruction that concerns the machine alone. Where there is none, nothing is
done; `demand` does not ask for it there. -/
def compute (code : Array Instr) (m : Machine) : Machine :=
  match code[m.pc]? with
  | some (.counted kind count) => { m with tape := kind.act count m.tape, pc := m.pc + 1 }
  | some (.plain .openLoop) =>
    if m.tape.current = 0 then { m with pc := Program.partner code m.pc + 1 }
    else { m with pc := m.pc + 1, loops := m.pc :: m.loops }
  | some (.plain .closeLoop) =>
    match m.loops with
    | [] => m
    | start :: outer =>
      if m.tape.current = 0 then { m with pc := m.pc + 1, loops := outer }
      else { m with pc := start + 1 }
  | _ => m

/-! ## When a demand arises -/

variable {code : Array Instr} {m : Machine}

theorem demand_eq_halted_iff : m.demand code = .halted ↔ code.size ≤ m.pc := by
  rw [← Array.getElem?_eq_none_iff]
  by_cases hl : m.loops = [] <;> unfold demand <;> split <;> simp_all

theorem demand_eq_stray_iff :
    m.demand code = .stray ↔ code[m.pc]? = some (.plain .closeLoop) ∧ m.loops = [] := by
  unfold demand
  split <;> simp_all

theorem demand_eq_read_iff : m.demand code = .read ↔ code[m.pc]? = some (.plain .input) := by
  by_cases hl : m.loops = [] <;> unfold demand <;> split <;> simp_all

theorem demand_eq_write_iff {b : UInt8} :
    m.demand code = .write b ↔
      code[m.pc]? = some (.plain .output) ∧ m.tape.current = b := by
  by_cases hl : m.loops = [] <;> unfold demand <;> split <;> simp_all

/-! ## What carrying out an instruction does -/

theorem compute_counted {kind : Counted} {count : Int}
    (h : code[m.pc]? = some (.counted kind count)) :
    m.compute code = { m with tape := kind.act count m.tape, pc := m.pc + 1 } := by
  simp [compute, h]

/-- A loop over a zero cell is passed over. -/
theorem compute_openLoop_of_zero (h : code[m.pc]? = some (.plain .openLoop))
    (hz : m.tape.current = 0) :
    m.compute code = { m with pc := Program.partner code m.pc + 1 } := by
  simp [compute, h, hz]

/-- A loop over a nonzero cell is entered. -/
theorem compute_openLoop_of_ne (h : code[m.pc]? = some (.plain .openLoop))
    (hz : m.tape.current ≠ 0) :
    m.compute code = { m with pc := m.pc + 1, loops := m.pc :: m.loops } := by
  simp [compute, h, hz]

/-- A loop whose cell has become zero is left. -/
theorem compute_closeLoop_of_zero {start : Nat} {outer : List Nat}
    (h : code[m.pc]? = some (.plain .closeLoop)) (hl : m.loops = start :: outer)
    (hz : m.tape.current = 0) :
    m.compute code = { m with pc := m.pc + 1, loops := outer } := by
  simp [compute, h, hl, hz]

/-- A loop whose cell is not zero is run again from behind its opening bracket. -/
theorem compute_closeLoop_of_ne {start : Nat} {outer : List Nat}
    (h : code[m.pc]? = some (.plain .closeLoop)) (hl : m.loops = start :: outer)
    (hz : m.tape.current ≠ 0) :
    m.compute code = { m with pc := start + 1 } := by
  simp [compute, h, hl, hz]

end Machine

end TapeLang
