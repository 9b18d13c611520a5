/-!
# Counts and their sums

A count is an integer, but it is held as a number with a significand of 53 bits. Up to
`Count.limit` every integer is such a number. Beyond it they lie apart, and a sum that falls
between two of them is rounded to the nearer one, or to the even one if it is in the middle:
`Count.sum`. So sums of large counts are not what adding up integers gives, and they do not
follow its laws; `2 ^ 53` and one make `2 ^ 53` again.

What is too large for every number is rounded to `Count.infinity`, and nothing that is added to it
changes it. That is no integer any more, and an integer that is no number stands for it. No count
that a program is written with is infinite, so a sum never has two of them of different signs.
-/

namespace TapeLang

namespace Count

/-- Up to this size every integer is a number. -/
def limit : Nat := 1 <<< 53

/-- What is larger than every number; all of them are below this power of two. -/
def infinity : Nat := 1 <<< 1024

/-- How often `unit` goes into `n`, to the nearest whole, which is the even one in the middle
between two. -/
def nearest (n unit : Nat) : Nat :=
  let quotient := n / unit
  let rest := n % unit
  if 2 * rest < unit ∨ 2 * rest = unit ∧ quotient % 2 = 0 then quotient else quotient + 1

/-- The distance between the numbers around one of size `n`, which has to be beyond the limit:
what the last of the 53 bits counts. -/
def spacing (n : Nat) : Nat :=
  1 <<< (n.log2 - 52)

/-- The number nearest to an integer. -/
def round (n : Int) : Int :=
  if n.natAbs ≤ limit then n
  else n.sign * (min (nearest n.natAbs (spacing n.natAbs) * spacing n.natAbs) infinity : Nat)

/-- The number nearest to `m / n`, with how many of its bits are behind the point: all that it has
room for if the quotient is small, none if it is beyond the limit. -/
def quotient (m n : Nat) : Nat × Nat :=
  if limit * n ≤ m then
    let unit := spacing (m / n)
    (nearest m (unit * n) * unit, 0)
  else
    let bits := 53 + n.log2 - m.log2
    let bits := if m <<< bits < limit * n then bits else bits - 1
    (nearest (m <<< bits) n, bits)

/-- The sum of two numbers. -/
def sum (m n : Int) : Int :=
  if infinity ≤ m.natAbs then m
  else if infinity ≤ n.natAbs then n
  else round (m + n)

/-- The sum of the two numbers is what adding up integers gives. -/
structure Exact (m n : Int) : Prop where
  finite : (m + n).natAbs < infinity
  sum_eq : sum m n = m + n

instance (m n : Int) : Decidable (Exact m n) :=
  decidable_of_iff ((m + n).natAbs < infinity ∧ sum m n = m + n)
    ⟨fun h => ⟨h.1, h.2⟩, fun h => ⟨h.finite, h.sum_eq⟩⟩

example : sum limit 1 = limit ∧ sum limit 3 = limit + 4 := by
  decide

end Count

end TapeLang
