import Mathlib.Data.List.Chain
import Mathlib.Logic.Relation
import TapeLang.Program.Condense

/-!
# Condensing as rewriting

Fusing and cancelling are rules for two neighbours, and nothing in them says where in a program to
apply them or in which order. The order matters: of `+`, `+`, `-` the first two may be fused or the
last two may cancel, and neither result can be brought to the other. So a condensed program cannot
be known by being the only one that the rules lead to.

What can be said of it is that it is one of them. `Program.Rewrites` is one application of a rule
anywhere in a program, `Program.Normal` says that no rule applies. A stack that has settled is
normal, because an instruction that changes is held against what is below it
(`Program.settle_isChain`), and each step of the settling is an application of a rule
(`Program.settle_rewrites`). A rule makes a program shorter, which settles all questions of length.
Nothing is asked of the counts, whose sums may be rounded: rounding changes what a fused
instruction does, but not that it takes the place of the two.
-/

namespace TapeLang

/-- The rules: what may take the place of two neighbours. -/
inductive Instr.Reduces : Instr → Instr → Program → Prop where
  /-- Two of one kind become one with the sum of the counts. -/
  | fuse (k : Counted) (m n : Int) :
      Reduces (.counted k m) (.counted k n) [.counted k (Count.sum m n)]
  /-- Two of opposite kinds with the same count go. -/
  | cancel (k : Counted) (n : Int) : Reduces (.counted k n) (.counted k.inverse n) []

namespace Program

/-- One application of a rule to two neighbours, wherever they stand. -/
inductive Rewrites : Program → Program → Prop where
  | within {a b : Instr} {c : Program} (h : a.Reduces b c) (before behind : Program) :
      Rewrites (before ++ a :: b :: behind) (before ++ c ++ behind)

/-- No rule applies to any two neighbours. -/
def Normal (p : Program) : Prop :=
  ∀ q, ¬ p.Rewrites q

end Program

/-! ## The rules and the meeting of two neighbours -/

namespace Instr

variable {a b c : Instr}

lemma reduces_of_fused (h : a.meet b = .fused c) : a.Reduces b [c] := by
  unfold meet at h
  split at h
  · split at h
    · subst_vars
      cases h
      exact .fuse _ _ _
    · split at h <;> cases h
  · cases h

lemma reduces_of_cancelled (h : a.meet b = .cancelled) : a.Reduces b [] := by
  unfold meet at h
  split at h
  · split at h
    · cases h
    · split at h
      · rename_i hinv
        obtain ⟨rfl, rfl⟩ := hinv
        exact .cancel _ _
      · cases h
  · cases h

/-- Two neighbours stay apart exactly if no rule applies to them. -/
lemma meet_eq_apart_iff : a.meet b = .apart ↔ ∀ c, ¬ a.Reduces b c := by
  constructor
  · rintro h c (⟨k, m, n⟩ | ⟨k, n⟩)
    · simp [meet] at h
    · simp [meet, (Counted.inverse_ne k).symm] at h
  · intro h
    cases hmeet : a.meet b with
    | fused c => exact absurd (reduces_of_fused hmeet) (h _)
    | cancelled => exact absurd (reduces_of_cancelled hmeet) (h _)
    | apart => rfl

end Instr

namespace Program

variable {p q : Program}

/-- A program is normal if all neighbours stay apart. -/
lemma normal_iff_isChain : p.Normal ↔ p.IsChain fun a b => a.meet b = .apart := by
  rw [List.isChain_iff_forall_rel_of_append_cons_cons]
  constructor
  · intro h a b before behind hp
    refine Instr.meet_eq_apart_iff.mpr fun c hc => ?_
    rw [hp] at h
    exact h _ (.within hc before behind)
  · rintro h _ ⟨hc, before, behind⟩
    exact Instr.meet_eq_apart_iff.mp (h rfl) _ hc

/-! ## Rules make a program shorter -/

lemma Rewrites.length_lt (h : p.Rewrites q) : q.length < p.length := by
  obtain @⟨a, b, c, hc, before, behind⟩ := h
  have hone : c.length ≤ 1 := by
    cases hc with
    | fuse k m n => exact Nat.le_refl 1
    | cancel k n => exact Nat.zero_le 1
  simp only [List.length_append, List.length_cons]
  omega

lemma length_le_of_rewrites (h : Relation.ReflTransGen Rewrites p q) : q.length ≤ p.length := by
  induction h with
  | refl => exact Nat.le_refl _
  | tail _ hstep ih => exact hstep.length_lt.le.trans ih

/-- A program that has kept its length has not been rewritten. -/
lemma eq_of_rewrites_of_length (h : Relation.ReflTransGen Rewrites p q)
    (hlen : q.length = p.length) : q = p := by
  rcases h.cases_head with rfl | ⟨r, hstep, hrest⟩
  · rfl
  · have hlt := (length_le_of_rewrites hrest).trans_lt hstep.length_lt
    exact absurd hlen hlt.ne

/-- A normal program cannot be rewritten. -/
lemma Normal.eq_of_rewrites (hp : p.Normal) (h : Relation.ReflTransGen Rewrites p q) : q = p := by
  rcases h.cases_head with rfl | ⟨r, hstep, -⟩
  · rfl
  · exact absurd hstep (hp r)

/-! ## What settling does -/

/-- An instruction settles on a stack by applications of rules. The stack is read from its bottom
on, and `behind` is what has not been looked at. -/
lemma settle_rewrites (stack : Program) (i : Instr) (behind : Program) :
    Relation.ReflTransGen Rewrites (stack.reverse ++ i :: behind)
      ((settle stack i).reverse ++ behind) := by
  induction stack generalizing i with
  | nil => exact .refl
  | cons top below ih =>
    rw [List.reverse_cons, List.append_assoc, List.singleton_append]
    cases hmeet : top.meet i with
    | fused j =>
      have hstep := Rewrites.within (Instr.reduces_of_fused hmeet) below.reverse behind
      rw [List.append_assoc, List.singleton_append] at hstep
      rw [settle_of_fused hmeet]
      exact .head hstep (ih j)
    | cancelled =>
      have hstep := Rewrites.within (Instr.reduces_of_cancelled hmeet) below.reverse behind
      rw [List.append_nil] at hstep
      rw [settle_of_cancelled hmeet]
      exact .single hstep
    | apart =>
      rw [settle_of_apart hmeet, List.reverse_cons, List.reverse_cons, List.append_assoc,
        List.append_assoc]
      exact .refl

lemma foldl_settle_rewrites (stack p : Program) :
    Relation.ReflTransGen Rewrites (stack.reverse ++ p) (p.foldl settle stack).reverse := by
  induction p generalizing stack with
  | nil =>
    rw [List.append_nil]
    exact .refl
  | cons i p ih => exact (settle_rewrites stack i p).trans (ih (settle stack i))

/-- On a stack no two neighbours of which fuse or cancel, an instruction settles to such a stack:
where it fuses with the top, the result is held against what was below the top. -/
lemma settle_isChain {stack : Program}
    (h : stack.IsChain fun b a => a.meet b = .apart) (i : Instr) :
    (settle stack i).IsChain fun b a => a.meet b = .apart := by
  induction stack generalizing i with
  | nil => exact .singleton i
  | cons top below ih =>
    cases hmeet : top.meet i with
    | fused j =>
      rw [settle_of_fused hmeet]
      exact ih h.tail j
    | cancelled =>
      rw [settle_of_cancelled hmeet]
      exact h.tail
    | apart =>
      rw [settle_of_apart hmeet]
      exact .cons_cons hmeet h

lemma foldl_settle_isChain {stack : Program}
    (h : stack.IsChain fun b a => a.meet b = .apart) (p : Program) :
    (p.foldl settle stack).IsChain fun b a => a.meet b = .apart := by
  induction p generalizing stack with
  | nil => exact h
  | cons i p ih => exact ih (settle_isChain h i)

lemma rewrites_condense (p : Program) : Relation.ReflTransGen Rewrites p p.condense :=
  foldl_settle_rewrites [] p

lemma normal_condense (p : Program) : p.condense.Normal :=
  normal_iff_isChain.mpr (List.isChain_reverse.mpr (foldl_settle_isChain .nil p))

/-- **A condensed program is a normal form** of the program it was made from. The rules lead to it,
and none applies to it. It is never longer, and it is as long only if it is the same program, which
is the case only if no rule applied in the first place. -/
theorem condense_normal_form (p : Program) :
    Relation.ReflTransGen Rewrites p p.condense ∧ p.condense.Normal ∧
      p.condense.length ≤ p.length ∧
      (p.condense.length = p.length ↔ p.condense = p) ∧ (p.condense = p ↔ p.Normal) := by
  have hrewrites := rewrites_condense p
  refine ⟨hrewrites, normal_condense p, length_le_of_rewrites hrewrites, ?_, ?_⟩
  · exact ⟨eq_of_rewrites_of_length hrewrites, congrArg List.length⟩
  · constructor
    · intro h
      rw [← h]
      exact normal_condense p
    · exact fun h => h.eq_of_rewrites hrewrites

/-- Where the rules lead to more than one program, the two on the left are fused first. -/
example : condense [.counted .add 1, .counted .add 1, .counted .sub 1] =
      [.counted .add 2, .counted .sub 1] ∧
    Rewrites [.counted .add 1, .counted .add 1, .counted .sub 1] [.counted .add 1] :=
  ⟨rfl, .within (.cancel .add 1) [.counted .add 1] []⟩

end Program

end TapeLang
