import TapeLang.Execution
import TapeLang.Program.Condense
import TapeLang.Stream.Input
import TapeLang.Stream.Output

/-!
# Sessions

A session is a program that has been loaded and the machine that runs it. Nothing is reset
between runs: each goes on from where the last one ended, on whatever streams it is given. After
a fault the instruction that failed is tried again, and after the end of the program a run does
nothing.

A session is made of a program as it stands, `Session.ofProgram`, or of the octets of one, which
are condensed first unless that is declined, `Session.load`.
-/

namespace TapeLang

/-- A loaded program and its machine. -/
structure Session where
  /-- The program that runs. -/
  code : Array Instr
  /-- The machine that runs it. -/
  machine : Machine := {}

namespace Session

/-- A fresh session of a program as it stands. -/
def ofProgram (p : Program) : Session :=
  { code := p.toArray }

/-- A fresh session of the program that a sequence of octets spells. -/
def load (bytes : List UInt8) (condense : Bool) : Session :=
  let p := Program.ofBytes bytes
  ofProgram (if condense then p.condense else p)

/-- The result of a run that ended. -/
structure Run (ι ω : Type) where
  /-- How it ended. -/
  outcome : Outcome
  /-- The session after it. -/
  session : Session
  /-- The input after it. -/
  input : ι
  /-- The output after it. -/
  output : ω

/-- Runs the program from where it is, for `fuel` steps at most. There is no result if it has not
ended after them. -/
def run {ι ω : Type} [Source ι] [Sink ω] (s : Session) (fuel : Nat) (input : ι) (output : ω) :
    Option (Run ι ω) :=
  match Config.run s.code fuel ⟨s.machine, input, output⟩ with
  | .going _ => none
  | .ended outcome c => some ⟨outcome, ⟨s.code, c.machine⟩, c.input, c.output⟩

/-- Runs the program with nothing to read and nobody to read what it writes. -/
def runAlone (s : Session) (fuel : Nat) : Option (Run Input.Closed Output.Discard) :=
  s.run fuel {} {}

/-- The tape as it is. -/
def tape (s : Session) : Tape :=
  s.machine.tape

/-- The program that runs. -/
def program (s : Session) : Program :=
  s.code.toList

@[simp] theorem program_ofProgram (p : Program) : (ofProgram p).program = p := rfl

end Session

end TapeLang
