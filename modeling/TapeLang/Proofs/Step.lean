import Mathlib.Tactic.Common
import TapeLang.Execution

/-!
# What one step can do

The rules of the machine, one for each thing that can become of it, as a relation between a
machine and the next: `Machine.Next`. A rule names the instruction that is carried out and all it
depends on, so an invariant is checked by going through seven cases, and nothing about demands,
streams or answers is needed for it.

A machine that needs nothing from outside goes on by itself; `Machine.Computes` are the machines it
comes to in this way.

What a step of a run can be is said once: `Config.going_cases` lists the steps that do not end the
run, `Config.ended_cases` those that do. A step of the first kind follows one of the rules
(`Config.next_of_step`); one of the second leaves the machine alone (`Config.machine_of_ended`),
whatever went wrong.
-/

namespace TapeLang

/-- From `m` the machine can get to another in one step that does not end the run. -/
inductive Machine.Next (code : Array Instr) (m : Machine) : Machine → Prop where
  /-- A counted instruction acts on the tape. -/
  | counted {kind : Counted} {count : Int} (h : code[m.pc]? = some (.counted kind count)) :
      Next code m { m with tape := kind.act count m.tape, pc := m.pc + 1 }
  /-- A loop over a zero cell is passed over. -/
  | skip (h : code[m.pc]? = some (.plain .openLoop)) (hz : m.tape.current = 0) :
      Next code m { m with pc := Program.partner code m.pc + 1 }
  /-- A loop over a nonzero cell is entered. -/
  | enter (h : code[m.pc]? = some (.plain .openLoop)) (hz : m.tape.current ≠ 0) :
      Next code m { m with pc := m.pc + 1, loops := m.pc :: m.loops }
  /-- A loop whose cell has become zero is left. -/
  | leave {start : Nat} {outer : List Nat} (h : code[m.pc]? = some (.plain .closeLoop))
      (hl : m.loops = start :: outer) (hz : m.tape.current = 0) :
      Next code m { m with pc := m.pc + 1, loops := outer }
  /-- A loop whose cell is not zero is run again. -/
  | again {start : Nat} {outer : List Nat} (h : code[m.pc]? = some (.plain .closeLoop))
      (hl : m.loops = start :: outer) (hz : m.tape.current ≠ 0) :
      Next code m { m with pc := start + 1 }
  /-- An octet is read. -/
  | receive (h : code[m.pc]? = some (.plain .input)) (b : UInt8) : Next code m (m.receive b)
  /-- An octet is written. -/
  | sent (h : code[m.pc]? = some (.plain .output)) : Next code m m.sent

/-- Computing follows a rule. -/
lemma Machine.next_compute {code : Array Instr} {m : Machine} (h : m.demand code = .compute) :
    m.Next code (m.compute code) := by
  unfold demand at h
  split at h
  case h_1 => cases h
  case h_2 kind count hi =>
    rw [compute_counted hi]
    exact .counted hi
  case h_3 hi =>
    by_cases hz : m.tape.current = 0
    · rw [compute_openLoop_of_zero hi hz]
      exact .skip hi hz
    · rw [compute_openLoop_of_ne hi hz]
      exact .enter hi hz
  case h_4 hi =>
    cases hl : m.loops with
    | nil => simp [hl] at h
    | cons start outer =>
      by_cases hz : m.tape.current = 0
      · rw [compute_closeLoop_of_zero hi hl hz]
        exact .leave hi hl hz
      · rw [compute_closeLoop_of_ne hi hl hz]
        exact .again hi hl hz
  case h_5 => cases h
  case h_6 => cases h

/-! ### The demands of instructions that concern the machine alone -/

lemma Machine.demand_of_counted {code : Array Instr} {m : Machine} {kind : Counted} {count : Int}
    (h : code[m.pc]? = some (.counted kind count)) : m.demand code = .compute := by
  simp [demand, h]

lemma Machine.demand_of_openLoop {code : Array Instr} {m : Machine}
    (h : code[m.pc]? = some (.plain .openLoop)) : m.demand code = .compute := by
  simp [demand, h]

lemma Machine.demand_of_closeLoop {code : Array Instr} {m : Machine}
    (h : code[m.pc]? = some (.plain .closeLoop)) (hl : m.loops ≠ []) :
    m.demand code = .compute := by
  simp [demand, h, hl]

/-! ## Computing on -/

/-- From `m` the machine comes to another by computing alone, without a call on any stream. -/
inductive Machine.Computes (code : Array Instr) : Machine → Machine → Prop where
  | refl (m : Machine) : Computes code m m
  | step {m n : Machine} (h : m.demand code = .compute) (hn : Computes code (m.compute code) n) :
      Computes code m n

namespace Machine.Computes

variable {code : Array Instr} {l m n : Machine}

lemma trans (h : Computes code l m) (h' : Computes code m n) : Computes code l n := by
  induction h with
  | refl m => exact h'
  | step hd _ ih => exact .step hd (ih h')

lemma counted {kind : Counted} {count : Int} (h : code[m.pc]? = some (.counted kind count))
    (hn : Computes code { m with tape := kind.act count m.tape, pc := m.pc + 1 } n) :
    Computes code m n :=
  .step (demand_of_counted h) (by rwa [compute_counted h])

lemma skip (h : code[m.pc]? = some (.plain .openLoop)) (hz : m.tape.current = 0)
    (hn : Computes code { m with pc := Program.partner code m.pc + 1 } n) :
    Computes code m n :=
  .step (demand_of_openLoop h) (by rwa [compute_openLoop_of_zero h hz])

lemma enter (h : code[m.pc]? = some (.plain .openLoop)) (hz : m.tape.current ≠ 0)
    (hn : Computes code { m with pc := m.pc + 1, loops := m.pc :: m.loops } n) :
    Computes code m n :=
  .step (demand_of_openLoop h) (by rwa [compute_openLoop_of_ne h hz])

lemma leave {start : Nat} {outer : List Nat} (h : code[m.pc]? = some (.plain .closeLoop))
    (hl : m.loops = start :: outer) (hz : m.tape.current = 0)
    (hn : Computes code { m with pc := m.pc + 1, loops := outer } n) : Computes code m n :=
  .step (demand_of_closeLoop h (by simp [hl])) (by rwa [compute_closeLoop_of_zero h hl hz])

lemma again {start : Nat} {outer : List Nat} (h : code[m.pc]? = some (.plain .closeLoop))
    (hl : m.loops = start :: outer) (hz : m.tape.current ≠ 0)
    (hn : Computes code { m with pc := start + 1 } n) : Computes code m n :=
  .step (demand_of_closeLoop h (by simp [hl])) (by rwa [compute_closeLoop_of_ne h hl hz])

end Machine.Computes

/-! ## A step of a run -/

namespace Config

variable {ι ω : Type} [Source ι] [Sink ω] {code : Array Instr} {c d : Config ι ω} {o : Outcome}

/-- A step that does not end the run meets what the machine demands. -/
theorem going_cases (h : c.step code = .going d) :
    (c.machine.demand code = .compute ∧ d = { c with machine := c.machine.compute code }) ∨
    (∃ b, c.machine.demand code = .read ∧ (Source.read c.input).1.octet = .ok b ∧
      d = { c with machine := c.machine.receive b, input := (Source.read c.input).2 }) ∨
    ∃ b output, c.machine.demand code = .write b ∧
      Sink.write c.output b.toNat = (.accepted, output) ∧
      d = { c with machine := c.machine.sent, output } := by
  cases hd : c.machine.demand code with
  | halted =>
    rw [step_of_halted hd] at h
    cases h
  | stray =>
    rw [step_of_stray hd] at h
    cases h
  | compute =>
    rw [step_of_compute hd] at h
    cases h
    exact .inl ⟨rfl, rfl⟩
  | read =>
    cases hb : (Source.read c.input).1.octet with
    | ok b =>
      rw [step_of_read hd hb] at h
      cases h
      exact .inr (.inl ⟨b, rfl, rfl, rfl⟩)
    | error failure =>
      rw [step_of_read_failed hd hb] at h
      cases h
  | write b =>
    rcases hw : Sink.write c.output b.toNat with ⟨answer, output⟩
    cases answer with
    | accepted =>
      rw [step_of_write hd hw] at h
      cases h
      exact .inr (.inr ⟨b, output, rfl, hw, rfl⟩)
    | failed failure =>
      rw [step_of_write_failed hd hw] at h
      cases h

/-- A step that does not end the run follows a rule of the machine. -/
theorem next_of_step (h : c.step code = .going d) : c.machine.Next code d.machine := by
  rcases going_cases h with ⟨hd, rfl⟩ | ⟨b, hd, -, rfl⟩ | ⟨b, output, hd, -, rfl⟩
  · exact Machine.next_compute hd
  · exact .receive (Machine.demand_eq_read_iff.mp hd) b
  · exact .sent (Machine.demand_eq_write_iff.mp hd).1

/-- A step that ends the run does so for what the machine demands. -/
theorem ended_cases (h : c.step code = .ended o d) :
    (o = .finished ∧ c.machine.demand code = .halted ∧ d = c) ∨
    (o = .faulted (.stray c.machine.pc) ∧ c.machine.demand code = .stray ∧ d = c) ∨
    (∃ failure, o = .ofFailure .read failure ∧ c.machine.demand code = .read ∧
      (Source.read c.input).1.octet = .error failure ∧
      d = { c with input := (Source.read c.input).2 }) ∨
    ∃ failure b, o = .ofFailure .write failure ∧ c.machine.demand code = .write b ∧
      (Sink.write c.output b.toNat).1 = .failed failure ∧
      d = { c with output := (Sink.write c.output b.toNat).2 } := by
  cases hd : c.machine.demand code with
  | halted =>
    rw [step_of_halted hd] at h
    cases h
    exact .inl ⟨rfl, rfl, rfl⟩
  | stray =>
    rw [step_of_stray hd] at h
    cases h
    exact .inr (.inl ⟨rfl, rfl, rfl⟩)
  | compute =>
    rw [step_of_compute hd] at h
    cases h
  | read =>
    cases hb : (Source.read c.input).1.octet with
    | ok b =>
      rw [step_of_read hd hb] at h
      cases h
    | error failure =>
      rw [step_of_read_failed hd hb] at h
      cases h
      exact .inr (.inr (.inl ⟨failure, rfl, rfl, rfl, rfl⟩))
  | write b =>
    rcases hw : Sink.write c.output b.toNat with ⟨answer, output⟩
    cases answer with
    | accepted =>
      rw [step_of_write hd hw] at h
      cases h
    | failed failure =>
      rw [step_of_write_failed hd hw] at h
      cases h
      exact .inr (.inr (.inr ⟨failure, b, rfl, rfl, by rw [hw], by rw [hw]⟩))

/-- A step that ends the run leaves the machine as it was. -/
theorem machine_of_ended (h : c.step code = .ended o d) : d.machine = c.machine := by
  rcases ended_cases h with ⟨_, _, rfl⟩ | ⟨_, _, rfl⟩ | ⟨_, _, _, _, rfl⟩ | ⟨_, _, _, _, _, rfl⟩ <;>
    rfl

/-- Behind the last instruction of a program the run is over. -/
lemma step_of_length_le {p : Program} (h : p.length ≤ c.machine.pc) :
    c.step p.toArray = .ended .finished c :=
  step_of_halted (Machine.demand_eq_halted_iff.mpr (by rwa [List.size_toArray]))

end Config

end TapeLang
