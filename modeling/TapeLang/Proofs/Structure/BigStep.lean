import TapeLang.Proofs.Structure.Block
import TapeLang.Proofs.Trace

/-!
# Structured loops

What a block means, without an index of the next instruction and without a list of loops. A block
is carried out from left to right, and a loop carries out its whole body again and again as long as
the cell under the head is not zero, which is looked at before each round.

`Block.Exec b w events o w'` says that the block `b`, begun in the world `w`, stops as `o` in the
world `w'` and has made the calls `events` on its streams by then. It stops when it has been carried
out, or else at the first call that fails, as the failure says. A block that goes on for ever has no
such derivation.
-/

namespace TapeLang

/-- A tape between an input and an output. -/
structure World (ι ω : Type) where
  tape : Tape
  input : ι
  output : ω

variable {ι ω : Type} [Source ι] [Sink ω]

/-- What a simple instruction does: `i.Acts w events o w'` is `Block.Exec` for `i` alone. -/
inductive Simple.Acts : Simple → World ι ω → List Event → Outcome → World ι ω → Prop where
  | counted (kind : Counted) (count : Int) (w : World ι ω) :
      Acts (.counted kind count) w [] .finished { w with tape := kind.act count w.tape }
  | written {w : World ι ω} {output : ω}
      (h : Sink.write w.output w.tape.current.toNat = (.accepted, output)) :
      Acts .output w [.write w.tape.current.toNat .accepted] .finished { w with output }
  | unwritten {w : World ι ω} {output : ω} {failure : Failure}
      (h : Sink.write w.output w.tape.current.toNat = (.failed failure, output)) :
      Acts .output w [.write w.tape.current.toNat (.failed failure)] (.ofFailure .write failure)
        { w with output }
  | received {w : World ι ω} {answer : Reading} {input : ι} {b : UInt8}
      (h : Source.read w.input = (answer, input)) (hb : answer.octet = .ok b) :
      Acts .input w [.read answer] .finished { w with tape := w.tape.put b, input }
  | unreceived {w : World ι ω} {answer : Reading} {input : ι} {failure : Failure}
      (h : Source.read w.input = (answer, input)) (hb : answer.octet = .error failure) :
      Acts .input w [.read answer] (.ofFailure .read failure) { w with input }

/-- The block is carried out from left to right, and each loop in it as long as the cell under the
head is not zero. -/
inductive Block.Exec : Block → World ι ω → List Event → Outcome → World ι ω → Prop where
  | nil (w : World ι ω) : Exec .nil w [] .finished w
  | simple {i : Simple} {rest : Block} {w w' w'' : World ι ω} {events events' : List Event}
      {o : Outcome} (hi : i.Acts w events .finished w') (hrest : Exec rest w' events' o w'') :
      Exec (.simple i rest) w (events ++ events') o w''
  | simpleFails {i : Simple} {rest : Block} {w w' : World ι ω} {events : List Event} {o : Outcome}
      (hi : i.Acts w events o w') (ho : o ≠ .finished) : Exec (.simple i rest) w events o w'
  | loopDone {body rest : Block} {w w' : World ι ω} {events : List Event} {o : Outcome}
      (hz : w.tape.current = 0) (hrest : Exec rest w events o w') :
      Exec (.loop body rest) w events o w'
  | loopAgain {body rest : Block} {w w' w'' : World ι ω} {events events' : List Event} {o : Outcome}
      (hz : w.tape.current ≠ 0) (hbody : Exec body w events .finished w')
      (hloop : Exec (.loop body rest) w' events' o w'') :
      Exec (.loop body rest) w (events ++ events') o w''
  | loopFails {body rest : Block} {w w' : World ι ω} {events : List Event} {o : Outcome}
      (hz : w.tape.current ≠ 0) (hbody : Exec body w events o w') (ho : o ≠ .finished) :
      Exec (.loop body rest) w events o w'

/-! ## What can become of it -/

/-- A simple instruction never goes on for ever. -/
lemma Simple.exists_acts (i : Simple) (w : World ι ω) :
    ∃ events o w', i.Acts w events o w' := by
  cases i with
  | counted kind count => exact ⟨_, _, _, .counted kind count w⟩
  | output =>
    rcases hw : Sink.write w.output w.tape.current.toNat with ⟨answer, output⟩
    cases answer with
    | accepted => exact ⟨_, _, _, .written hw⟩
    | failed failure => exact ⟨_, _, _, .unwritten hw⟩
  | input =>
    rcases hr : Source.read w.input with ⟨answer, input⟩
    cases hb : answer.octet with
    | ok b => exact ⟨_, _, _, .received hr hb⟩
    | error failure => exact ⟨_, _, _, .unreceived hr hb⟩

/-- A simple instruction cannot be stray. -/
lemma Simple.Acts.ne_stray {i : Simple} {w w' : World ι ω} {events : List Event} {o : Outcome}
    (h : i.Acts w events o w') (k : Int) : o ≠ .faulted (.stray k) := by
  cases h with
  | counted kind count => simp
  | written h => simp
  | unwritten h => exact Outcome.ofFailure_ne_stray (by simp)
  | received h hb => simp
  | unreceived h hb => exact Outcome.ofFailure_ne_stray (by simp)

/-- Nothing in a block can be stray. -/
theorem Block.Exec.ne_stray {b : Block} {w w' : World ι ω} {events : List Event} {o : Outcome}
    (h : b.Exec w events o w') (k : Int) : o ≠ .faulted (.stray k) := by
  induction h with
  | nil w => simp
  | simple _ _ ih => exact ih
  | simpleFails hi _ => exact hi.ne_stray k
  | loopDone _ _ ih => exact ih
  | loopAgain _ _ _ _ ih => exact ih
  | loopFails _ _ _ ih => exact ih

end TapeLang
