import TapeLang.Proofs.Condense.NormalForm
import TapeLang.Proofs.Condense.Stretches

/-!
# Condensing a program in pieces

A program that is condensed in one pass can be condensed in pieces, in two ways.

* At a plain instruction it can be cut. Nothing settles below a plain instruction, however much
  cancels above it, so what stands before it and what stands behind it are condensed each by itself
  (`Program.condense_append_plain`).
* Anywhere at all it can be condensed up to there first. A condensed program settles instruction by
  instruction on the very stack it was read off (`Program.foldl_settle_reverse`), so what comes behind
  it finds nothing changed (`Program.condense_condense_append`). Nothing is left to be condensed a
  second time in particular.

The second law is one of the left only. Where an instruction could be fused with its neighbour on the
left or cancel with that on the right, condensing what stands on the right first makes a difference.
-/

namespace TapeLang

namespace Program

/-- **Plain instructions are barriers.** What stands before one and what stands behind it are condensed
independently of each other, whatever their counts and their brackets are. -/
theorem condense_append_plain (p q : Program) (k : Plain) :
    condense (p ++ .plain k :: q) = condense p ++ .plain k :: condense q := by
  calc condense (p ++ .plain k :: q)
      = (q.foldl settle [] ++ .plain k :: p.foldl settle []).reverse := by
        rw [condense, foldl_settle_plain]
    _ = condense p ++ .plain k :: condense q := by
        rw [List.reverse_append, List.reverse_cons, List.append_assoc, List.singleton_append,
          condense, condense]

/-- A stack no two neighbours of which fuse or cancel is rebuilt from its instructions: each finds the
one below it on top and stays apart from it. -/
lemma foldl_settle_reverse {stack : Program}
    (h : stack.IsChain fun b a => a.meet b = .apart) : stack.reverse.foldl settle [] = stack := by
  induction stack with
  | nil => rfl
  | cons top below ih =>
    rw [List.reverse_cons, List.foldl_append, ih h.tail, List.foldl_cons, List.foldl_nil]
    cases below with
    | nil => exact settle_nil top
    | cons next rest => exact settle_of_apart h.rel

/-- The pass over a condensed program ends with the stack that it was read off. -/
lemma foldl_settle_condense (p : Program) : p.condense.foldl settle [] = p.foldl settle [] :=
  foldl_settle_reverse (foldl_settle_isChain .nil p)

/-- **Condensing goes on from what has been condensed.** It makes no difference to a program if its
beginning is condensed before the whole is. A program that has been condensed stays as it is. -/
theorem condense_condense_append (p q : Program) :
    condense (p ++ q) = condense (condense p ++ q) ∧ condense (condense p) = condense p := by
  refine ⟨?_, ?_⟩
  · rw [condense, condense, List.foldl_append, List.foldl_append, foldl_settle_condense]
  · rw [condense, foldl_settle_condense, ← condense]

/-- Condensing the end first is another matter. -/
example : condense [.counted .add 1, .counted .add 2, .counted .sub 2] ≠
    condense ([.counted .add 1] ++ condense [.counted .add 2, .counted .sub 2]) := by
  decide

end Program

end TapeLang
