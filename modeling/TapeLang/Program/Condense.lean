import TapeLang.Count
import TapeLang.Program

/-!
# Condensing a program

Neighbouring counted instructions often say in two words what can be said in one or in none.

* Two of one kind are fused: the counts add up.
* Two of opposite kinds with equal counts cancel.
* Everything else stays apart. Plain instructions in particular meet nothing, so nothing is ever
  merged across a loop boundary or a byte of input or output.

`Instr.meet` decides which of the three holds for two neighbours. `Program.condense` goes once
through a program from left to right and keeps what it has as a stack, the last instruction on
top. Each instruction settles on the stack: a fused one is held against the next instruction
below, since it may now fuse or cancel with that, so every neighbourhood that a change makes
is looked at again and a single pass is enough.

Counts are only summed and compared here, as the numbers that they are (`Count.sum`); what a count
means for a cell of eight bits is the business of the tape.
-/

namespace TapeLang

/-- What becomes of two neighbouring instructions. -/
inductive Meeting where
  /-- One instruction takes the place of both. -/
  | fused (i : Instr)
  /-- Both go. -/
  | cancelled
  /-- Both stay. -/
  | apart
deriving DecidableEq, Repr

/-- Decides what becomes of `a` with `b` right behind it. -/
def Instr.meet : Instr → Instr → Meeting
  | .counted k m, .counted l n =>
    if k = l then .fused (.counted k (Count.sum m n))
    else if k.inverse = l ∧ m = n then .cancelled
    else .apart
  | _, _ => .apart

@[simp] theorem Instr.meet_plain_left (k : Plain) (i : Instr) :
    (Instr.plain k).meet i = .apart := rfl

@[simp] theorem Instr.meet_plain_right (i : Instr) (k : Plain) :
    i.meet (.plain k) = .apart := by
  cases i <;> rfl

namespace Program

/-- Lays an instruction on a stack of instructions whose head is the last one written. -/
def settle : Program → Instr → Program
  | [], i => [i]
  | top :: below, i =>
    match top.meet i with
    | .fused j => settle below j
    | .cancelled => below
    | .apart => i :: top :: below

/-- The program with no two neighbours left that fuse or cancel. -/
def condense (p : Program) : Program :=
  (p.foldl settle []).reverse

/-! ## Settling, read off -/

@[simp] theorem settle_nil (i : Instr) : settle [] i = [i] := rfl

theorem settle_of_fused {top i j : Instr} {below : Program} (h : top.meet i = .fused j) :
    settle (top :: below) i = settle below j := by
  simp [settle, h]

theorem settle_of_cancelled {top i : Instr} {below : Program} (h : top.meet i = .cancelled) :
    settle (top :: below) i = below := by
  simp [settle, h]

theorem settle_of_apart {top i : Instr} {below : Program} (h : top.meet i = .apart) :
    settle (top :: below) i = i :: top :: below := by
  simp [settle, h]

@[simp] theorem settle_plain (stack : Program) (k : Plain) :
    settle stack (.plain k) = .plain k :: stack := by
  cases stack <;> simp [settle]

@[simp] theorem condense_nil : condense [] = [] := rfl

end Program

end TapeLang
