import TapeLang.Proofs.Step
import TapeLang.Proofs.Trace

/-!
# What decides a step

A machine knows nothing of the streams it runs on but what they reply to its demand: nothing at all
if it demands nothing of them, an octet or a failure if it reads, whether the value was taken if it
writes. That is the `Config.reply`, and together with the machine it decides the step
(`Config.step_eq_of_reply`), so two runs on different streams, which may even be of different kinds,
go on in the same way as long as they are given the same replies.

The streams themselves are changed by being used and in no other way: `Config.input_step`,
`Config.output_step`.
-/

namespace TapeLang

/-- What the streams reply to the demand of a machine, as far as the machine can tell. -/
inductive Reply where
  /-- They are not asked. -/
  | none
  /-- The octet that was read, or what the reading failed with. -/
  | octet (r : Except Failure UInt8)
  /-- The value that was handed over, and what became of it. -/
  | delivery (value : Int) (answer : Delivery)

namespace Progress

variable {ι ω : Type}

/-- How the run has ended, if it has. -/
def outcome? : Progress ι ω → Option Outcome
  | .going _ => none
  | .ended o _ => some o

/-- Where the run has come to. -/
def config : Progress ι ω → Config ι ω
  | .going c => c
  | .ended _ c => c

@[simp] lemma outcome?_going (c : Config ι ω) : (going c).outcome? = none := rfl

@[simp] lemma outcome?_ended (o : Outcome) (c : Config ι ω) :
    (ended o c).outcome? = some o := rfl

@[simp] lemma config_going (c : Config ι ω) : (going c).config = c := rfl

@[simp] lemma config_ended (o : Outcome) (c : Config ι ω) : (ended o c).config = c := rfl

end Progress

namespace Config

variable {ι ω κ χ : Type} [Source ι] [Sink ω] [Source κ] [Sink χ] {code : Array Instr}
  {c : Config ι ω} {d : Config κ χ} {b : UInt8}

/-- The reply to what the machine demands. -/
def reply (code : Array Instr) (c : Config ι ω) : Reply :=
  match c.machine.demand code with
  | .read => .octet (Source.read c.input).1.octet
  | .write b => .delivery b.toNat (Sink.write c.output b.toNat).1
  | _ => .none

lemma reply_of_read (h : c.machine.demand code = .read) :
    c.reply code = .octet (Source.read c.input).1.octet := by
  simp [reply, h]

lemma reply_of_write (h : c.machine.demand code = .write b) :
    c.reply code = .delivery b.toNat (Sink.write c.output b.toNat).1 := by
  simp [reply, h]

/-! ## The same replies -/

/-- **A step is decided by the machine and the reply.** If these are the same in two runs, then so is
the machine that they come to, and whether and how they end. -/
theorem step_eq_of_reply (hm : d.machine = c.machine) (hr : d.reply code = c.reply code) :
    (d.step code).outcome? = (c.step code).outcome? ∧
      (d.step code).config.machine = (c.step code).config.machine := by
  have hd : d.machine.demand code = c.machine.demand code := by rw [hm]
  cases h : c.machine.demand code with
  | halted =>
    rw [step_of_halted h, step_of_halted (hd.trans h)]
    exact ⟨rfl, hm⟩
  | stray =>
    rw [step_of_stray h, step_of_stray (hd.trans h), hm]
    exact ⟨rfl, hm⟩
  | compute =>
    rw [step_of_compute h, step_of_compute (hd.trans h), hm]
    exact ⟨rfl, rfl⟩
  | read =>
    rw [reply_of_read h, reply_of_read (hd.trans h), Reply.octet.injEq] at hr
    cases hb : (Source.read c.input).1.octet with
    | ok b =>
      rw [step_of_read h hb, step_of_read (hd.trans h) (hr.trans hb), hm]
      exact ⟨rfl, rfl⟩
    | error cause =>
      rw [step_of_read_failed h hb, step_of_read_failed (hd.trans h) (hr.trans hb)]
      exact ⟨rfl, hm⟩
  | write b =>
    rw [reply_of_write h, reply_of_write (hd.trans h), Reply.delivery.injEq] at hr
    obtain ⟨-, hanswer⟩ := hr
    rcases hw : Sink.write c.output b.toNat with ⟨answer, output⟩
    rcases hw' : Sink.write d.output b.toNat with ⟨answer', output'⟩
    rw [hw, hw'] at hanswer
    obtain rfl : answer' = answer := hanswer
    cases answer' with
    | accepted =>
      rw [step_of_write h hw, step_of_write (hd.trans h) hw', hm]
      exact ⟨rfl, rfl⟩
    | failed cause =>
      rw [step_of_write_failed h hw, step_of_write_failed (hd.trans h) hw']
      exact ⟨rfl, hm⟩

/-! ## What a step does to the streams -/

/-- The input is changed by being read from. -/
lemma input_step (code : Array Instr) (c : Config ι ω) :
    (c.step code).config.input =
      match c.machine.demand code with
      | .read => (Source.read c.input).2
      | _ => c.input := by
  cases hs : c.step code with
  | going c' =>
    rcases going_cases hs with ⟨hd, rfl⟩ | ⟨b, hd, -, rfl⟩ | ⟨b, output, hd, -, rfl⟩ <;> simp [hd]
  | ended o c' =>
    rcases ended_cases hs with ⟨-, hd, rfl⟩ | ⟨-, hd, rfl⟩ | ⟨cause, -, hd, -, rfl⟩ |
      ⟨cause, b, -, hd, -, rfl⟩ <;> simp [hd]

/-- The output is changed by being written to. -/
lemma output_step (code : Array Instr) (c : Config ι ω) :
    (c.step code).config.output =
      match c.machine.demand code with
      | .write b => (Sink.write c.output b.toNat).2
      | _ => c.output := by
  cases hs : c.step code with
  | going c' =>
    rcases going_cases hs with ⟨hd, rfl⟩ | ⟨b, hd, -, rfl⟩ | ⟨b, output, hd, hw, rfl⟩ <;> simp [hd]
    rw [hw]
  | ended o c' =>
    rcases ended_cases hs with ⟨-, hd, rfl⟩ | ⟨-, hd, rfl⟩ | ⟨cause, -, hd, -, rfl⟩ |
      ⟨cause, b, -, hd, -, rfl⟩ <;> simp [hd]

end Config

end TapeLang
