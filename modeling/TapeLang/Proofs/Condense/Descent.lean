import TapeLang.Proofs.Condense.Effect

/-!
# Condensed programs that were read

The rules do not say what may stand beside an instruction of the opposite kind, only that it may not
have the same count. Of `+1`, `-2`, `+1` nothing is fused and nothing cancels, and yet they amount to
nothing. No program that was read is condensed to this. Its counts are one, they are added to what
has settled one at a time, and an instruction that has grown to the count of the opposite one below it
cancels at that moment. So it never grows beyond it, and of two neighbours of opposite kinds the second
has the smaller count (`Instr.Outlasts`, `Program.Descending.settle_once`). This is so for programs of
any length; a count that has grown to `Count.limit` stays there.

This is why the first instruction of a stretch on one axis decides where it leads. Each one behind it
takes back a part of what stands before it and never all, so the stretch amounts to a single
instruction of the kind of its first, with a count that is not zero
(`Stretch.exists_effect_of_outlasts`). A stretch that amounts to nothing is therefore condensed to
nothing: `Program.condense_descends`. For this the program must not be longer than `Count.limit`, or
more repetitions of one kind than can be counted would be condensed to as many as can, and those cancel
with as many of the opposite kind. No text is that long.
-/

namespace TapeLang

/-- The second instruction, behind the first, is not of its kind, and of the opposite kind only with a
smaller count. -/
def Instr.Outlasts : Instr → Instr → Prop
  | .counted k m, .counted l n => k ≠ l ∧ (k.inverse = l → n < m)
  | _, _ => True

namespace Program

/-- A stack, its top first, on which each instruction is outlasted by the one below it. -/
structure Descending (stack : Program) : Prop where
  positive : stack.Positive
  within : ∀ kind (count : Int), .counted kind count ∈ stack → count ≤ Count.limit
  chain : stack.IsChain fun b a => a.Outlasts b

variable {stack below : Program} {i : Instr} {k : Counted} {n : Int}

/-! ## Settling on a descending stack -/

lemma Descending.of_cons (h : Descending (i :: below)) : below.Descending where
  positive kind count hmem := h.positive kind count (.tail _ hmem)
  within kind count hmem := h.within kind count (.tail _ hmem)
  chain := h.chain.tail

/-- An instruction that the top of the stack outlasts may stand on it. -/
lemma Descending.cons (h : stack.Descending) (hn : 1 ≤ n) (hlimit : n ≤ Count.limit)
    (hchain : (Instr.counted k n :: stack).IsChain fun b a => a.Outlasts b) :
    Descending (.counted k n :: stack) where
  positive := Positive.cons_iff.mpr ⟨hn, h.positive⟩
  within := by
    intro kind count hmem
    rcases List.mem_cons.mp hmem with heq | hmem
    · cases heq
      exact hlimit
    · exact h.within kind count hmem
  chain := hchain

/-- An instruction cancels or stays on a stack whose top is not of its kind, and of the opposite kind
only with a count that it does not exceed. -/
lemma Descending.settle (h : stack.Descending) (hn : 1 ≤ n) (hlimit : n ≤ Count.limit)
    (hkind : ∀ m, stack.head? ≠ some (.counted k m))
    (hinverse : ∀ m, stack.head? = some (.counted k.inverse m) → n ≤ m) :
    (settle stack (.counted k n)).Descending := by
  cases stack with
  | nil => exact h.cons hn hlimit (.singleton _)
  | cons top below =>
    cases hmeet : top.meet (.counted k n) with
    | fused j =>
      cases Instr.reduces_of_fused hmeet with
      | fuse _ m _ => exact absurd rfl (hkind m)
    | cancelled =>
      rw [settle_of_cancelled hmeet]
      exact h.of_cons
    | apart =>
      rw [settle_of_apart hmeet]
      refine h.cons hn hlimit (.cons_cons ?_ h.chain)
      cases top with
      | plain l => trivial
      | counted l m =>
        refine ⟨?_, ?_⟩
        · rintro rfl
          exact hkind m rfl
        · rintro rfl
          have hle : n ≤ m := hinverse m (by rw [Counted.inverse_inverse, List.head?_cons])
          have hne : m ≠ n := by
            rintro rfl
            exact Instr.meet_eq_apart_iff.mp hmeet _ (.cancel l m)
          omega

/-- One repetition more is never too much: what it makes of an instruction of its kind is at most what
the opposite one below that has. -/
lemma Descending.settle_once (h : stack.Descending) (k : Counted) :
    (Program.settle stack (.once k)).Descending := by
  by_cases hkind : ∃ m, stack.head? = some (.counted k m)
  · obtain ⟨m, hhead⟩ := hkind
    obtain ⟨below, rfl⟩ := List.head?_eq_some_iff.mp hhead
    obtain ⟨hm, -⟩ := Positive.cons_iff.mp h.positive
    have hlimit : m ≤ Count.limit := h.within k m (List.mem_cons_self ..)
    have hsum : Count.sum m 1 = min (m + 1) Count.limit := Count.sum_one hm hlimit
    have hmeet : (Instr.counted k m).meet (.once k) = .fused (.counted k (Count.sum m 1)) := by
      rw [Instr.once, Instr.meet, if_pos rfl]
    -- what is below does not fuse with the sum, and is no less if it cancels with it
    have hbelow : ∀ {l n}, below.head? = some (.counted l n) → l ≠ k ∧ (l.inverse = k → m < n) := by
      intro l n hl
      obtain ⟨rest, rfl⟩ := List.head?_eq_some_iff.mp hl
      exact h.chain.rel
    rw [settle_of_fused hmeet, hsum]
    refine h.of_cons.settle (by omega) (by omega) ?_ ?_
    · intro n hl
      exact (hbelow hl).1 rfl
    · intro n hl
      have hlt := (hbelow hl).2 k.inverse_inverse
      omega
  · refine h.settle (Int.le_refl 1) (by decide) (not_exists.mp hkind) ?_
    intro m hhead
    obtain ⟨below, rfl⟩ := List.head?_eq_some_iff.mp hhead
    exact (Positive.cons_iff.mp h.positive).1

lemma Descending.settle_plain (h : stack.Descending) (k : Plain) :
    Descending (.plain k :: stack) := by
  refine ⟨?_, ?_, ?_⟩
  · intro kind count hmem
    refine h.positive kind count ?_
    simpa using hmem
  · intro kind count hmem
    refine h.within kind count ?_
    simpa using hmem
  · cases stack with
    | nil => exact .singleton _
    | cons top below => exact .cons_cons (by cases top <;> trivial) h.chain

lemma descending_nil : Descending [] where
  positive := fun _ _ hmem => nomatch hmem
  within := fun _ _ hmem => nomatch hmem
  chain := .nil

lemma Descending.foldl_settle {p : Program} (hp : p.AllOnce) (h : stack.Descending) :
    (p.foldl Program.settle stack).Descending := by
  induction p generalizing stack with
  | nil => exact h
  | cons i p ih =>
    have hrest : AllOnce p := fun kind count hmem => hp kind count (.tail _ hmem)
    refine ih hrest ?_
    cases i with
    | plain k =>
      rw [Program.settle_plain]
      exact h.settle_plain k
    | counted k n =>
      obtain rfl : n = 1 := hp k n (List.mem_cons_self ..)
      exact h.settle_once k

/-- In a condensed program that was read each instruction outlasts the one behind it. -/
lemma isChain_outlasts_condense {p : Program} (hp : p.AllOnce) :
    p.condense.IsChain Instr.Outlasts :=
  List.isChain_reverse.mpr (descending_nil.foldl_settle hp).chain

end Program

/-! ## What a stretch of such a program amounts to -/

namespace Stretch

/-- All instructions of the stretch are of one kind or of the opposite one. -/
def OnAxis (k : Counted) (b : Stretch) : Prop :=
  ∀ x ∈ b, x.1 = k ∨ x.1 = k.inverse

instance (k : Counted) (b : Stretch) : Decidable (b.OnAxis k) :=
  inferInstanceAs (Decidable (∀ x ∈ b, _ ∨ _))

variable {k l : Counted} {b : Stretch} {count : Int}

/-- An axis may be named by any instruction on it. -/
lemma OnAxis.of_eq_or_eq (h : b.OnAxis k) (hl : l = k ∨ l = k.inverse) : b.OnAxis l := by
  intro x hx
  rcases hl with rfl | rfl
  · exact h x hx
  · rw [Counted.inverse_inverse]
    exact (h x hx).symm

/-- Condensing makes no instructions of other kinds. -/
lemma OnAxis.condense (h : b.OnAxis k) : b.condense.OnAxis k := by
  have hkinds : ∀ kind count, .counted kind count ∈ Program.condense b.instrs →
      kind = k ∨ kind = k.inverse := by
    refine Program.forall_counted_condense (fun _ _ _ hm _ => hm) ?_
    intro kind count hmem
    exact h (kind, count) (mem_instrs_iff.mp hmem)
  rintro ⟨kind, count⟩ hx
  refine hkinds kind count ?_
  rw [condense_instrs]
  exact mem_instrs_iff.mpr hx

/-- A stretch on one axis each instruction of which outlasts the next amounts to its first instruction
with a count that is less by what the others take back of it. -/
lemma exists_effect_of_outlasts (hpos : (instrs ((k, count) :: b)).Positive)
    (hchain : (instrs ((k, count) :: b)).IsChain Instr.Outlasts) (haxis : b.OnAxis k) :
    ∃ net : Int, 0 < net ∧ net ≤ count ∧ effect ((k, count) :: b) = k.effect net := by
  induction b generalizing k count with
  | nil =>
    have hcount := (Program.Positive.cons_iff.mp hpos).1
    exact ⟨count, hcount, Int.le_refl _, mul_one _⟩
  | cons x b ih =>
    obtain ⟨l, n⟩ := x
    obtain ⟨hne, hlt⟩ : k ≠ l ∧ (k.inverse = l → n < count) := hchain.rel
    obtain ⟨hl, hb⟩ := List.forall_mem_cons.mp haxis
    obtain rfl : l = k.inverse := hl.resolve_left (Ne.symm hne)
    obtain ⟨net, hnet, hle, heffect⟩ :=
      ih (Program.Positive.cons_iff.mp hpos).2 hchain.tail (OnAxis.of_eq_or_eq hb hl)
    have hn := hlt rfl
    refine ⟨count - net, by omega, by omega, ?_⟩
    rw [effect_cons, heffect, Counted.effect_inverse, Counted.effect_mul_effect, Int.sub_eq_add_neg]

/-- A stretch on one axis with counts of one is condensed to nothing if it amounts to nothing: if an
instruction were left of it, it would amount to one. -/
lemma condense_eq_nil_iff (hb : b.instrs.AllOnce) (hlength : b.instrs.length ≤ Count.limit)
    (haxis : b.OnAxis k) : b.condense = [] ↔ b.effect = 1 := by
  have hpos := hb.positive.condense
  have hchain := Program.isChain_outlasts_condense hb
  have haxis' := haxis.condense
  rw [condense_instrs] at hpos hchain
  rw [← effect_condense (Program.unrounded_of_weight_le (hb.weight_le.trans hlength))]
  cases hleft : b.condense with
  | nil => exact iff_of_true rfl rfl
  | cons x rest =>
    obtain ⟨l, n⟩ := x
    rw [hleft] at hpos hchain haxis'
    obtain ⟨hl, hrest⟩ := List.forall_mem_cons.mp haxis'
    obtain ⟨net, hnet, -, heffect⟩ :=
      exists_effect_of_outlasts hpos hchain (OnAxis.of_eq_or_eq hrest hl)
    refine iff_of_false (List.cons_ne_nil _ _) ?_
    rw [heffect, Counted.effect_eq_one_iff]
    omega

end Stretch

namespace Program

open Instr

variable {p : Program} {k : Counted}

/-- Single instructions on one axis are a stretch, which amounts to what there are more of the one kind
than of the other. -/
lemma exists_stretch_of_once (h : ∀ i ∈ p, i = once k ∨ i = once k.inverse) :
    ∃ b : Stretch, p = b.instrs ∧ b.OnAxis k ∧
      b.effect = k.effect (p.count (once k) - p.count (once k.inverse)) := by
  induction p with
  | nil => exact ⟨[], rfl, fun _ hx => (nomatch hx), k.effect_zero.symm⟩
  | cons i p ih =>
    obtain ⟨hi, hp⟩ := List.forall_mem_cons.mp h
    obtain ⟨b, rfl, hb, heffect⟩ := ih hp
    have hne : once k ≠ once k.inverse := by
      intro heq
      exact k.inverse_ne (Instr.counted.inj heq).1.symm
    rcases hi with rfl | rfl
    · refine ⟨(k, 1) :: b, rfl, List.forall_mem_cons.mpr ⟨.inl rfl, hb⟩, ?_⟩
      rw [Stretch.effect_cons, heffect, Counted.effect_mul_effect, List.count_cons_self,
        List.count_cons_of_ne hne]
      congr 1
      omega
    · refine ⟨(k.inverse, 1) :: b, rfl, List.forall_mem_cons.mpr ⟨.inr rfl, hb⟩, ?_⟩
      rw [Stretch.effect_cons, heffect, Counted.effect_inverse, Counted.effect_mul_effect,
        List.count_cons_self, List.count_cons_of_ne hne.symm]
      congr 1
      omega

/-- **In a condensed program that was read, opposite neighbours decrease.** Its counts are at least one,
and of two neighbours of opposite kinds the first has the greater count. So wherever changes of the cell
stand side by side, or moves do, they amount to one instruction of the kind of the first of them, with a
positive count: the net change, or the net move, is not zero and goes the way of the first. And single
instructions of two opposite kinds are condensed to nothing if and only if there are as many of the one
kind as of the other. This last is said of programs of up to `Count.limit` instructions, since counting
one by one comes no further than that; no text is longer. -/
theorem condense_descends :
    (∀ bytes, (ofBytes bytes).AllOnce) ∧ (∀ text, (ofText text).AllOnce) ∧
    ∀ p : Program, p.AllOnce →
      p.condense.Positive ∧
      (∀ k m n, [.counted k m, .counted k.inverse n] <:+: p.condense → n < m) ∧
      (∀ k count (b : Stretch), Stretch.instrs ((k, count) :: b) <:+: p.condense → b.OnAxis k →
        ∃ net : Int, 0 < net ∧ Stretch.effect ((k, count) :: b) = k.effect net) ∧
      ∀ k, (∀ i ∈ p, i = once k ∨ i = once k.inverse) → p.length ≤ Count.limit →
        (p.condense = [] ↔ p.count (once k) = p.count (once k.inverse)) := by
  refine ⟨allOnce_ofBytes, fun text => allOnce_ofBytes _, fun p hp => ?_⟩
  have hpos := hp.positive.condense
  have hchain := isChain_outlasts_condense hp
  refine ⟨hpos, ?_, ?_, ?_⟩
  · intro k m n hpair
    have hpair' := List.IsChain.infix hchain hpair
    exact hpair'.rel.2 rfl
  · intro k count b hb haxis
    have hpos' : Positive (Stretch.instrs ((k, count) :: b)) :=
      fun kind count hmem => hpos kind count (hb.subset hmem)
    have hchain' := List.IsChain.infix hchain hb
    obtain ⟨net, hnet, -, heffect⟩ := Stretch.exists_effect_of_outlasts hpos' hchain' haxis
    exact ⟨net, hnet, heffect⟩
  · intro k haxis hlength
    obtain ⟨b, rfl, hb, heffect⟩ := exists_stretch_of_once haxis
    have hnil : Program.condense b.instrs = [] ↔ b.condense = [] := by
      rw [Stretch.condense_instrs, Stretch.instrs, List.map_eq_nil_iff]
    rw [hnil, Stretch.condense_eq_nil_iff hp hlength hb, heffect, Counted.effect_eq_one_iff]
    omega

/-- A program of which a change by one remains, and one of which nothing remains. -/
theorem condense_descends_remainder :
    let p : Program := [once .add, once .add, once .sub, once .right, once .sub, once .add, once .left]
    let q : Program := [once .right, once .left, once .left, once .right]
    p.AllOnce ∧ p.condense = [.counted .add 2, .counted .sub 1] ∧ p.condense.Positive ∧
      (1 : Int) < 2 ∧
      (∃ net : Int, 0 < net ∧ Stretch.effect [(.add, 2), (.sub, 1)] = Counted.add.effect net) ∧
      (∀ i ∈ q, i = once .right ∨ i = once .left) ∧ q.condense = [] := by
  intro p q
  have hp : p.AllOnce := allOnce_ofBytes [43, 43, 45, 62, 45, 43, 60]
  have hq : q.AllOnce := allOnce_ofBytes [62, 60, 60, 62]
  have hcondense : p.condense = [.counted .add 2, .counted .sub 1] := rfl
  obtain ⟨hpos, hpair, hnet, -⟩ := condense_descends.2.2 p hp
  obtain ⟨-, -, -, hempty⟩ := condense_descends.2.2 q hq
  have hlt : (1 : Int) < 2 := hpair .add 2 1 (List.infix_refl _)
  have hkinds : ∀ i ∈ q, i = once .right ∨ i = once .left := by decide
  exact ⟨hp, hcondense, hpos, hlt, hnet .add 2 [(.sub, 1)] (List.infix_refl _) (by decide), hkinds,
    (hempty .right hkinds (by decide)).mpr (by decide)⟩

/-- Counts that have not come one at a time need not decrease, and may amount to nothing. -/
example : condense [.counted .add 1, .counted .sub 2, .counted .add 1] =
    [.counted .add 1, .counted .sub 2, .counted .add 1] := by
  decide

end Program

end TapeLang
