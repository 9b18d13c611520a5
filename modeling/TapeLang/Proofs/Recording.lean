import TapeLang.Proofs.History

/-!
# Streams that keep a record

A stream may keep a record of the calls that are made on it. The program that is run does not notice
(`Config.run_recorded`), and the two records of a run are what `Config.trace` says of the input and of
the output. So a statement about traces is one about what streams see, whoever runs the program on them;
and code that hands streams on without showing their calls can be given streams that tell.
-/

namespace TapeLang

/-- A stream with a record of the calls on it. -/
structure Recorded (σ : Type) where
  /-- The stream. -/
  stream : σ
  /-- The calls so far, in order. -/
  record : List Event := []

instance {ι : Type} [Source ι] : Source (Recorded ι) where
  read i :=
    let (answer, stream) := Source.read i.stream
    (answer, ⟨stream, i.record ++ [.read answer]⟩)

instance {ω : Type} [Sink ω] : Sink (Recorded ω) where
  write o v :=
    let (answer, stream) := Sink.write o.stream v
    (answer, ⟨stream, o.record ++ [.write v answer]⟩)

lemma Recorded.write_eq {ω : Type} [Sink ω] (o : ω) (record : List Event) (v : Int) :
    Sink.write (⟨o, record⟩ : Recorded ω) v =
      ((Sink.write o v).1, ⟨(Sink.write o v).2, record ++ [.write v (Sink.write o v).1]⟩) := rfl

namespace Event

/-- It is a call on the input. -/
def isRead : Event → Bool
  | .read _ => true
  | .write .. => false

/-- It is a call on the output. -/
def isWrite : Event → Bool
  | .read _ => false
  | .write .. => true

end Event

variable {ι ω : Type}

/-- The configuration on streams that have the calls `events` on record. -/
def Config.recorded (events : List Event) (c : Config ι ω) : Config (Recorded ι) (Recorded ω) :=
  ⟨c.machine, ⟨c.input, events.filter Event.isRead⟩, ⟨c.output, events.filter Event.isWrite⟩⟩

/-- The progress of a run on streams that have the calls `events` on record. -/
def Progress.recorded (events : List Event) : Progress ι ω → Progress (Recorded ι) (Recorded ω)
  | .going c => .going (c.recorded events)
  | .ended o c => .ended o (c.recorded events)

namespace Config

lemma recorded_append_read (events : List Event) (answer : Reading) (c : Config ι ω) :
    c.recorded (events ++ [.read answer]) =
      ⟨c.machine, ⟨c.input, events.filter Event.isRead ++ [.read answer]⟩,
        ⟨c.output, events.filter Event.isWrite⟩⟩ := by
  simp [recorded, Event.isRead, Event.isWrite]

lemma recorded_append_write (events : List Event) (v : Int) (answer : Delivery) (c : Config ι ω) :
    c.recorded (events ++ [.write v answer]) =
      ⟨c.machine, ⟨c.input, events.filter Event.isRead⟩,
        ⟨c.output, events.filter Event.isWrite ++ [.write v answer]⟩⟩ := by
  simp [recorded, Event.isRead, Event.isWrite]

variable [Source ι] [Sink ω]

/-- A step puts its calls on record and is the same step otherwise. -/
theorem step_recorded (code : Array Instr) (c : Config ι ω) (events : List Event) :
    (c.recorded events).step code = (c.step code).recorded (events ++ c.calls code) := by
  cases hdemand : c.machine.demand code with
  | halted =>
    have hdemand' : (c.recorded events).machine.demand code = .halted := hdemand
    rw [step_of_halted hdemand, step_of_halted hdemand', calls_of_halted hdemand, List.append_nil]
    rfl
  | stray =>
    have hdemand' : (c.recorded events).machine.demand code = .stray := hdemand
    rw [step_of_stray hdemand, step_of_stray hdemand', calls_of_stray hdemand, List.append_nil]
    rfl
  | compute =>
    have hdemand' : (c.recorded events).machine.demand code = .compute := hdemand
    rw [step_of_compute hdemand, step_of_compute hdemand', calls_of_compute hdemand,
      List.append_nil]
    rfl
  | read =>
    have hdemand' : (c.recorded events).machine.demand code = .read := hdemand
    rw [calls_of_read hdemand]
    cases hoctet : (Source.read c.input).1.octet with
    | ok b =>
      rw [step_of_read hdemand hoctet, step_of_read hdemand' hoctet, Progress.recorded,
        recorded_append_read]
      rfl
    | error cause =>
      rw [step_of_read_failed hdemand hoctet, step_of_read_failed hdemand' hoctet,
        Progress.recorded, recorded_append_read]
      rfl
  | write b =>
    have hdemand' : (c.recorded events).machine.demand code = .write b := hdemand
    rw [calls_of_write hdemand]
    rcases hw : Sink.write c.output b.toNat with ⟨answer, output⟩
    have hw' : Sink.write (c.recorded events).output b.toNat =
        (answer, ⟨output, events.filter Event.isWrite ++ [.write b.toNat answer]⟩) := by
      show Sink.write (⟨c.output, _⟩ : Recorded ω) b.toNat = _
      rw [Recorded.write_eq, hw]
    cases answer with
    | accepted =>
      rw [step_of_write hdemand hw, step_of_write hdemand' hw', Progress.recorded,
        recorded_append_write]
      rfl
    | failed cause =>
      rw [step_of_write_failed hdemand hw, step_of_write_failed hdemand' hw', Progress.recorded,
        recorded_append_write]
      rfl

/-- **What is on record after a run are the calls of the run**, and the run is the same as on streams
that keep no record. -/
theorem run_recorded (code : Array Instr) (fuel : Nat) (c : Config ι ω) (events : List Event) :
    (c.recorded events).run code fuel =
      (c.run code fuel).recorded (events ++ c.trace code fuel) := by
  induction fuel generalizing c events with
  | zero =>
    rw [trace_zero, List.append_nil]
    rfl
  | succ fuel ih =>
    have hstep := step_recorded code c events
    cases hs : c.step code with
    | going d =>
      rw [hs] at hstep
      rw [run_succ_of_going hs, run_succ_of_going hstep, trace_succ_of_going hs, ih,
        List.append_assoc]
    | ended o d =>
      rw [hs] at hstep
      rw [run_succ_of_ended hs, run_succ_of_ended hstep, trace_succ_of_ended hs]
      rfl

end Config

end TapeLang
