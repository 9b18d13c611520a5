import TapeLang.Machine
import TapeLang.Stream

/-!
# Running a program on streams

A configuration is a machine with an input and an output. One step looks at what the machine
demands and meets it, `Config.step`; a run takes steps until one of them ends it, `Config.run`.

A run ends because the program is over, because of a `Fault`, or because a stream has failed with
something that no fault is made of. Each time the last configuration is kept, streams included, and
a run can start from it again. A program may also run for ever, so
a run is given a number of steps to take at most, and one that has not ended after them says so:
`Progress.going` is never confused with an end. More steps than needed change nothing,
`Config.run_of_le`.
-/

namespace TapeLang

/-- A machine in its surroundings. -/
structure Config (ι ω : Type) where
  /-- The machine. -/
  machine : Machine
  /-- What it reads from. -/
  input : ι
  /-- What it writes to. -/
  output : ω

/-- How a run ends. -/
inductive Outcome where
  /-- The program is over. -/
  | finished
  /-- Something went wrong. -/
  | faulted (f : Fault)
  /-- A stream has failed with something that cannot be put into words. -/
  | undescribed

/-- How a run ends when a stream has failed: with a fault, which `fault` makes, if there are words
for what the stream failed with. -/
def Outcome.ofFailure (fault : Cause → Fault) : Failure → Outcome
  | .cause c => .faulted (fault c)
  | .obscure _ _ => .undescribed

namespace Outcome

variable {fault : Cause → Fault} {failure : Failure}

@[simp] theorem ofFailure_ne_finished : ofFailure fault failure ≠ .finished := by
  cases failure <;> simp [ofFailure]

theorem ofFailure_eq_faulted_iff {f : Fault} :
    ofFailure fault failure = .faulted f ↔ ∃ c, failure = .cause c ∧ fault c = f := by
  cases failure <;> simp [ofFailure]

theorem ofFailure_ne_stray {i : Int} (h : ∀ c, fault c ≠ .stray i) :
    ofFailure fault failure ≠ .faulted (.stray i) := by
  rw [Ne, ofFailure_eq_faulted_iff]
  exact fun ⟨c, _, hc⟩ => h c hc

end Outcome

/-- How far a run has come. -/
inductive Progress (ι ω : Type) where
  /-- It goes on from here. -/
  | going (c : Config ι ω)
  /-- It has ended. -/
  | ended (o : Outcome) (c : Config ι ω)

namespace Config

variable {ι ω : Type} [Source ι] [Sink ω]

/-- Takes one step. A stream that fails is kept in the state in which it failed; the machine then
stays where it is. -/
def step (code : Array Instr) (c : Config ι ω) : Progress ι ω :=
  match c.machine.demand code with
  | .halted => .ended .finished c
  | .stray => .ended (.faulted (.stray c.machine.pc)) c
  | .compute => .going { c with machine := c.machine.compute code }
  | .read =>
    let (reading, input) := Source.read c.input
    match reading.octet with
    | .ok b => .going { c with machine := c.machine.receive b, input }
    | .error failure => .ended (.ofFailure .read failure) { c with input }
  | .write b =>
    match Sink.write c.output b.toNat with
    | (.accepted, output) => .going { c with machine := c.machine.sent, output }
    | (.failed failure, output) => .ended (.ofFailure .write failure) { c with output }

/-- Takes steps until the run ends, `fuel` of them at most. -/
def run (code : Array Instr) : Nat → Config ι ω → Progress ι ω
  | 0, c => .going c
  | fuel + 1, c =>
    match c.step code with
    | .going c => run code fuel c
    | .ended o c => .ended o c

/-! ## A step for each demand -/

variable {code : Array Instr} {c : Config ι ω}

theorem step_of_halted (h : c.machine.demand code = .halted) :
    c.step code = .ended .finished c := by
  simp [step, h]

theorem step_of_stray (h : c.machine.demand code = .stray) :
    c.step code = .ended (.faulted (.stray c.machine.pc)) c := by
  simp [step, h]

theorem step_of_compute (h : c.machine.demand code = .compute) :
    c.step code = .going { c with machine := c.machine.compute code } := by
  simp [step, h]

theorem step_of_read {b : UInt8} (h : c.machine.demand code = .read)
    (hb : (Source.read c.input).1.octet = .ok b) :
    c.step code =
      .going { c with machine := c.machine.receive b, input := (Source.read c.input).2 } := by
  simp [step, h, hb]

/-- A reading that fails ends the run and leaves the machine as it was. -/
theorem step_of_read_failed {failure : Failure} (h : c.machine.demand code = .read)
    (hb : (Source.read c.input).1.octet = .error failure) :
    c.step code =
      .ended (.ofFailure .read failure) { c with input := (Source.read c.input).2 } := by
  simp [step, h, hb]

theorem step_of_write {b : UInt8} {output : ω} (h : c.machine.demand code = .write b)
    (hw : Sink.write c.output b.toNat = (.accepted, output)) :
    c.step code = .going { c with machine := c.machine.sent, output } := by
  simp [step, h, hw]

/-- A delivery that fails ends the run and leaves the machine as it was. -/
theorem step_of_write_failed {b : UInt8} {failure : Failure} {output : ω}
    (h : c.machine.demand code = .write b)
    (hw : Sink.write c.output b.toNat = (.failed failure, output)) :
    c.step code = .ended (.ofFailure .write failure) { c with output } := by
  simp [step, h, hw]

/-! ## Steps and runs -/

@[simp] theorem run_zero (code : Array Instr) (c : Config ι ω) : c.run code 0 = .going c := rfl

theorem run_succ (code : Array Instr) (fuel : Nat) (c : Config ι ω) :
    c.run code (fuel + 1) =
      match c.step code with
      | .going c => c.run code fuel
      | .ended o c => .ended o c := rfl

/-- A run that has not ended yet is continued by the steps that are left. -/
theorem run_add (code : Array Instr) (m n : Nat) (c : Config ι ω) :
    c.run code (m + n) =
      match c.run code m with
      | .going c => c.run code n
      | .ended o c => .ended o c := by
  induction m generalizing c with
  | zero => simp
  | succ m ih =>
    rw [Nat.succ_add, run_succ, run_succ]
    cases c.step code with
    | going c => exact ih c
    | ended o c => rfl

/-- More steps than a run needs do not change how it ends. -/
theorem run_of_le {m n : Nat} {d : Config ι ω} {o : Outcome}
    (h : c.run code m = .ended o d) (hmn : m ≤ n) : c.run code n = .ended o d := by
  obtain ⟨k, rfl⟩ := Nat.exists_eq_add_of_le hmn
  rw [run_add, h]

end Config

end TapeLang
