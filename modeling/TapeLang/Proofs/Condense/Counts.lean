import TapeLang.Proofs.Condense.NormalForm
import TapeLang.Proofs.TapeLaws

/-!
# The counts of programs that were read

A count is an integer of any sign, and the machine has an answer to every one. A program that comes
from a text has counts of one (`Program.allOnce_ofBytes`), and condensing only ever adds counts up. So
whatever a kind and its count have in common that adding up does not change, the instructions of a
condensed program have as well (`Program.forall_counted_condense`). The counts of a program that was
read, condensed or not, are therefore at least one (`Program.positive_ofBytes`,
`Program.Positive.condense`), and its moves go the way they say (`Program.MovesNonneg`).
-/

namespace TapeLang

namespace Program

/-- The moves of the program go in the direction that their kind says. -/
def MovesNonneg (p : Program) : Prop :=
  ∀ count : Int, (.counted .left count ∈ p ∨ .counted .right count ∈ p) → 0 ≤ count

lemma MovesNonneg.forward {p : Program} {kind : Counted} {count : Int} (h : p.MovesNonneg)
    (hmem : .counted kind count ∈ p) : kind.Forward count := by
  rintro (rfl | rfl)
  · exact h count (.inl hmem)
  · exact h count (.inr hmem)

/-- All counts of the program are at least one. -/
def Positive (p : Program) : Prop :=
  ∀ kind count, .counted kind count ∈ p → 1 ≤ count

/-- All counts of the program are one, as they are if it was read and nothing was done to it. -/
def AllOnce (p : Program) : Prop :=
  ∀ kind count, .counted kind count ∈ p → count = 1

variable {p q : Program}

lemma Positive.movesNonneg (h : p.Positive) : p.MovesNonneg := by
  rintro count (hmem | hmem)
  · exact Int.le_of_lt (h .left count hmem)
  · exact Int.le_of_lt (h .right count hmem)

lemma Positive.cons_iff {k : Counted} {n : Int} :
    Positive (.counted k n :: p) ↔ 1 ≤ n ∧ p.Positive := by
  constructor
  · intro h
    exact ⟨h k n (List.mem_cons_self ..), fun kind count hmem => h kind count (.tail _ hmem)⟩
  · rintro ⟨hn, h⟩ kind count hmem
    rcases List.mem_cons.mp hmem with heq | hmem
    · cases heq
      exact hn
    · exact h kind count hmem

lemma AllOnce.positive (h : p.AllOnce) : p.Positive :=
  fun kind count hmem => Int.le_of_eq (h kind count hmem).symm

lemma allOnce_ofBytes (bytes : List UInt8) : (ofBytes bytes).AllOnce := by
  intro kind count h
  obtain ⟨b, -, hb⟩ := List.mem_filterMap.mp h
  unfold Instr.ofByte? Instr.ofSymbol? at hb
  split at hb <;> cases hb <;> rfl

lemma positive_ofBytes (bytes : List UInt8) : (ofBytes bytes).Positive :=
  (allOnce_ofBytes bytes).positive

/-! ## What condensing leaves of the counts -/

variable {C : Counted → Int → Prop}

/-- A rule makes a new instruction only by fusing, which adds up two counts of one kind. -/
lemma Rewrites.forall_counted (h : p.Rewrites q) (hC : ∀ k m n, C k m → C k n → C k (Count.sum m n))
    (hp : ∀ kind count, .counted kind count ∈ p → C kind count) (kind : Counted) (count : Int)
    (hmem : .counted kind count ∈ q) : C kind count := by
  obtain @⟨a, b, c, hc, before, behind⟩ := h
  rw [List.mem_append, List.mem_append] at hmem
  rcases hmem with (hbefore | hnew) | hbehind
  · exact hp kind count (by simp [hbefore])
  · cases hc with
    | fuse k m n =>
      cases List.mem_singleton.mp hnew
      exact hC kind m n (hp kind m (by simp)) (hp kind n (by simp))
    | cancel k n => cases hnew
  · exact hp kind count (by simp [hbehind])

lemma forall_counted_of_rewrites (h : Relation.ReflTransGen Rewrites p q)
    (hC : ∀ k m n, C k m → C k n → C k (Count.sum m n))
    (hp : ∀ kind count, .counted kind count ∈ p → C kind count) :
    ∀ kind count, .counted kind count ∈ q → C kind count := by
  induction h with
  | refl => exact hp
  | tail _ hstep ih => exact hstep.forall_counted hC ih

/-- What adding up does not change holds of a condensed program if it held before. -/
lemma forall_counted_condense (hC : ∀ k m n, C k m → C k n → C k (Count.sum m n))
    (hp : ∀ kind count, .counted kind count ∈ p → C kind count) :
    ∀ kind count, .counted kind count ∈ p.condense → C kind count :=
  forall_counted_of_rewrites (rewrites_condense p) hC hp

lemma Positive.of_rewrites (hp : p.Positive) (h : Relation.ReflTransGen Rewrites p q) :
    q.Positive :=
  forall_counted_of_rewrites h (fun _ _ _ hm hn => Count.sum_pos hm hn) hp

lemma Positive.condense (hp : p.Positive) : p.condense.Positive :=
  hp.of_rewrites (rewrites_condense p)

end Program

end TapeLang
