import TapeLang.Fault

/-!
# What a stream is

The machine knows its surroundings through two classes. A `Source` is anything that can be read
from, a `Sink` anything that can be written to; both are states, and using one gives its answer
together with the state it is left in.

* A reading is a value, the end of the input, or a failure. The end is not final: what a source
  answers next is its own affair. A value is any integer; the machine takes its low eight bits
  and reads the end as zero, which is `Reading.octet`.
* A delivery is accepted or fails.

A stream that fails does so with a `Failure`, and it may well work again afterwards.
-/

namespace TapeLang

/-- The answer of a source. -/
inductive Reading where
  /-- A value. -/
  | value (v : Int)
  /-- No value: the input has ended. -/
  | ended
  /-- The source failed. -/
  | failed (failure : Failure)

/-- The octet that a reading puts into a cell, or what it failed with. -/
def Reading.octet : Reading → Except Failure UInt8
  | .value v => .ok (UInt8.ofInt v)
  | .ended => .ok 0
  | .failed failure => .error failure

@[simp] theorem Reading.octet_value (v : Int) :
    (Reading.value v).octet = .ok (UInt8.ofInt v) := rfl

@[simp] theorem Reading.octet_ended : Reading.ended.octet = .ok 0 := rfl

@[simp] theorem Reading.octet_failed (f : Failure) : (Reading.failed f).octet = .error f := rfl

theorem Reading.eq_failed_of_octet {r : Reading} {failure : Failure} (h : r.octet = .error failure) :
    r = .failed failure := by
  cases r with
  | value v => cases h
  | ended => cases h
  | failed failure' =>
    cases h
    rfl

/-- The answer of a sink. -/
inductive Delivery where
  /-- The value was taken. -/
  | accepted
  /-- The sink failed and took nothing. -/
  | failed (failure : Failure)

/-- Something that can be read from. -/
class Source (ι : Type) where
  /-- Asks for the next value. -/
  read : ι → Reading × ι

/-- Something that can be written to. -/
class Sink (ω : Type) where
  /-- Hands over a value. -/
  write : ω → Int → Delivery × ω

end TapeLang
