import Mathlib.Logic.Function.Basic
import TapeLang.Proofs.History
import TapeLang.Proofs.Replies

/-!
# Chronicles

A chronicle is all that there is to see of a session, one thing after the other: the machine between
any two instructions, each reading and each delivery, and how each run call ends. The run calls of a
session are all on one input, which the next call takes up where the last has left it, and each on one
of several outputs, which are told by numbers and live as long as the session does.

What is seen of a reading is that the input is asked and what octet comes of it. The answer itself is
not seen: whether the input had ended or gave a zero makes no difference to anyone but the input.

`Session.chronicle` counts steps through all run calls, so it is there for a call that does not end as
well. A call that ends is in it with everything that `Session.Ends` says of it
(`Session.chronicle_of_ends`).
-/

namespace TapeLang

/-- An output of any kind. -/
structure Outlet where
  /-- The kind of the output. -/
  Out : Type
  /-- How it is written to. -/
  [sink : Sink Out]
  /-- The output. -/
  output : Out

attribute [instance] Outlet.sink

/-! ## Chronicles -/

/-- Something that can be seen in a session. -/
inductive Sight where
  /-- The machine between two instructions. -/
  | machine (m : Machine)
  /-- The input is asked for a value. -/
  | asked
  /-- An octet comes from the input, or the reading fails. -/
  | answered (r : Except Failure UInt8)
  /-- The output is handed a value and takes it or fails. -/
  | handed (value : Int) (answer : Delivery)
  /-- A run call ends. -/
  | ended (o : Outcome)

/-- What can be seen of a reply. -/
def Reply.sights : Reply → List Sight
  | .none => []
  | .octet r => [.asked, .answered r]
  | .delivery value answer => [.handed value answer]

/-- What can be seen of a call on a stream. -/
def Event.sights : Event → List Sight
  | .read answer => [.asked, .answered answer.octet]
  | .write value answer => [.handed value answer]

lemma Config.sights_reply {ι ω : Type} [Source ι] [Sink ω] (code : Array Instr)
    (c : Config ι ω) : (c.reply code).sights = (c.calls code).flatMap Event.sights := by
  unfold reply calls
  cases c.machine.demand code <;> rfl

namespace Sight

/-- Whether it is the machine that is seen, and not something that it does. -/
def isMachine : Sight → Bool
  | .machine _ => true
  | _ => false

/-- Calls are something that a machine does. -/
lemma filter_machine_cons (m : Machine) (events : List Event) :
    (machine m :: events.flatMap Event.sights).filter (!·.isMachine) =
      events.flatMap Event.sights := by
  rw [List.filter_cons_of_neg (by simp [isMachine]), List.filter_eq_self]
  intro x hx
  obtain ⟨event, -, hevent⟩ := List.mem_flatMap.mp hx
  cases event with
  | read answer =>
    rcases List.mem_cons.mp hevent with rfl | hlast
    · rfl
    · obtain rfl := List.mem_singleton.mp hlast
      rfl
  | write value answer =>
    obtain rfl := List.mem_singleton.mp hevent
    rfl

end Sight

namespace Session

variable {ι ω : Type} [Source ι] [Sink ω]

/-- The machine of a session on an input and an output. -/
def on (s : Session) (input : ι) (a : Outlet) : Config ι a.Out :=
  ⟨s.machine, input, a.output⟩

/-- All that can be seen of a session in its first steps. Its run calls are on the input and on those
of the outputs that a list names; when one has ended the next one begins. -/
def chronicle : Nat → Session → ι → (Nat → Outlet) → List Nat → List Sight
  | fuel + 1, s, input, outs, n :: calls =>
    let c := s.on input (outs n)
    let p := c.step s.code
    .machine s.machine :: (c.reply s.code).sights ++ (p.outcome?.map Sight.ended).toList ++
      chronicle fuel ⟨s.code, p.config.machine⟩ p.config.input
        (Function.update outs n { outs n with output := p.config.output })
        (if p.outcome?.isSome then calls else n :: calls)
  | _, s, _, _, _ => [.machine s.machine]

/-! ## A run call in the chronicle -/

variable {outs : Nat → Outlet} {s : Session} {i : ι} {n fuel : Nat} {calls : List Nat}
  {code : Array Instr} {c d : Config ι ω} {o : Outcome} {events : List Event}

lemma chronicle_of_going (hs : c.step code = .going d) (hout : outs n = ⟨ω, c.output⟩) :
    chronicle (fuel + 1) ⟨code, c.machine⟩ c.input outs (n :: calls) =
      .machine c.machine :: (c.calls code).flatMap Event.sights ++
        chronicle fuel ⟨code, d.machine⟩ d.input (Function.update outs n ⟨ω, d.output⟩)
          (n :: calls) := by
  rw [chronicle]
  generalize outs n = a at hout
  subst hout
  obtain ⟨machine, input, output⟩ := c
  simp [on, hs, Config.sights_reply]

lemma chronicle_of_ended (hs : c.step code = .ended o d) (hout : outs n = ⟨ω, c.output⟩) :
    chronicle (fuel + 1) ⟨code, c.machine⟩ c.input outs (n :: calls) =
      .machine c.machine :: (c.calls code).flatMap Event.sights ++ .ended o ::
        chronicle fuel ⟨code, d.machine⟩ d.input (Function.update outs n ⟨ω, d.output⟩) calls := by
  rw [chronicle]
  generalize outs n = a at hout
  subst hout
  obtain ⟨machine, input, output⟩ := c
  simp [on, hs, Config.sights_reply]

/-- A run that ends is in the chronicle, with all its calls. -/
lemma exists_chronicle_of_ends (h : c.Ends code events o d) (hout : outs n = ⟨ω, c.output⟩)
    (calls : List Nat) :
    ∃ steps seen, seen.filter (!·.isMachine) = events.flatMap Event.sights ∧
      ∀ fuel, chronicle (steps + fuel) ⟨code, c.machine⟩ c.input outs (n :: calls) =
        seen ++ .ended o ::
          chronicle fuel ⟨code, d.machine⟩ d.input (Function.update outs n ⟨ω, d.output⟩) calls := by
  induction h generalizing outs with
  | @last c d o hs =>
    refine ⟨1, .machine c.machine :: (c.calls code).flatMap Event.sights, ?_, fun fuel => ?_⟩
    · exact Sight.filter_machine_cons _ _
    · rw [Nat.add_comm, chronicle_of_ended hs hout]
  | @step c d e o events hs _ ih =>
    obtain ⟨steps, seen, hseen, hchronicle⟩ := ih (Function.update_self n ⟨ω, d.output⟩ outs)
    refine ⟨steps + 1, .machine c.machine :: (c.calls code).flatMap Event.sights ++ seen, ?_,
      fun fuel => ?_⟩
    · rw [List.filter_append, Sight.filter_machine_cons, hseen, List.flatMap_append]
    · rw [Nat.add_right_comm, chronicle_of_going hs hout, hchronicle, Function.update_idem,
        List.append_assoc]

/-- **A run call that ends is in the chronicle** with all the calls that it makes and with its ending,
and behind it comes the chronicle of the session and the streams that it leaves. -/
theorem chronicle_of_ends {r : Run ι ω} {output : ω}
    (h : s.Ends ⟨ι, ω, i, output⟩ events r) (hout : outs n = ⟨ω, output⟩) (calls : List Nat) :
    ∃ steps seen, seen.filter (!·.isMachine) = events.flatMap Event.sights ∧
      ∀ fuel, s.chronicle (steps + fuel) i outs (n :: calls) =
        seen ++ .ended r.outcome ::
          r.session.chronicle fuel r.input (Function.update outs n ⟨ω, r.output⟩) calls := by
  obtain ⟨hend, hcode⟩ := ends_iff.mp h
  have hsession : r.session = ⟨s.code, r.config.machine⟩ := by
    rw [← hcode]
    rfl
  rw [hsession]
  exact exists_chronicle_of_ends hend hout calls

end Session

end TapeLang
