import TapeLang.Proofs.Bisimulation
import TapeLang.Proofs.Stretch

/-!
# Aligned programs

Two programs are aligned if they have the same plain instructions in the same order and differ only
in the stretches of counted ones between them, which are related one by one.

Aligned programs have the same loops. The places of the one and of the other correspond
(`Program.Places`), and the forward scan leads from corresponding places to corresponding places
(`Program.Aligned.closeIn`). Two machines on them are in step if they are at corresponding places,
with the same tape and with lists of loops that correspond (`Machine.InStep`). If related stretches
do the same to a tape, machines that are in step come level, and the programs cannot be told apart
(`Machine.inStep_bisimulation`).
-/

namespace TapeLang

namespace Program

/-- The same plain instructions, with related stretches before, between and behind them. -/
inductive Aligned (E : Stretch → Stretch → Prop) : Program → Program → Prop where
  | last {b b' : Stretch} (h : E b b') : Aligned E b.instrs b'.instrs
  | plain {b b' : Stretch} {p q : Program} (h : E b b') (k : Plain) (hrest : Aligned E p q) :
      Aligned E (b.instrs ++ .plain k :: p) (b'.instrs ++ .plain k :: q)

/-- How many closing brackets stand before `n`. -/
def closesBefore (p : Program) (n : Nat) : Nat :=
  (p.take n).count (.plain .closeLoop)

/-- A closing bracket stands in the one program at `i`, in the other at `j`, and has the same number
among the closing brackets. -/
def SameClose (p q : Program) (i j : Nat) : Prop :=
  p[i]? = some (.plain .closeLoop) ∧ q[j]? = some (.plain .closeLoop) ∧
    p.closesBefore i = q.closesBefore j

/-- What follows `i` in the one program is aligned with what follows `j` in the other, and as many
closing brackets stand before. -/
structure Places (E : Stretch → Stretch → Prop) (p q : Program) (i j : Nat) : Prop where
  aligned : Aligned E (p.drop i) (q.drop j)
  closes : p.closesBefore i = q.closesBefore j

variable {E : Stretch → Stretch → Prop} {p q : Program} {b b' : Stretch} {i j i' j' n : Nat}

/-! ## Closing brackets before a place -/

lemma closesBefore_add (p : Program) (m n : Nat) :
    p.closesBefore (m + n) = p.closesBefore m + closesBefore (p.drop m) n := by
  rw [closesBefore, List.take_add, List.count_append]
  rfl

lemma closesBefore_stretch (b : Stretch) (q : Program) :
    closesBefore (b.instrs ++ q) b.length = 0 := by
  rw [closesBefore, ← b.length_instrs, List.take_left, b.count_closeLoop]

lemma closesBefore_one {x : Instr} (h : p[0]? = some x) :
    p.closesBefore 1 = if x = .plain .closeLoop then 1 else 0 := by
  cases p with
  | nil => cases h
  | cons y p =>
    obtain rfl : y = x := by simpa using h
    rw [closesBefore, List.take_succ_cons, List.take_zero, List.count_cons, List.count_nil,
      Nat.zero_add]
    simp

/-! ## Corresponding places -/

lemma Aligned.places_zero (h : Aligned E p q) : Places E p q 0 0 :=
  ⟨h, rfl⟩

/-- Corresponding places may be counted from corresponding places. -/
lemma Places.add (h : Places E p q i j) (h' : Places E (p.drop i) (q.drop j) i' j') :
    Places E p q (i + i') (j + j') where
  aligned := by
    have hrest := h'.aligned
    rwa [List.drop_drop, List.drop_drop] at hrest
  closes := by
    rw [closesBefore_add, closesBefore_add, h.closes, h'.closes]

lemma places_end (hnil : E [] []) (b b' : Stretch) :
    Places E b.instrs b'.instrs b.length b'.length where
  aligned := by
    have hend : Aligned E (Stretch.instrs []) (Stretch.instrs []) := .last hnil
    rwa [List.drop_eq_nil_of_le b.length_instrs.le, List.drop_eq_nil_of_le b'.length_instrs.le]
  closes := by
    have hb := closesBefore_stretch b []
    have hb' := closesBefore_stretch b' []
    rw [List.append_nil] at hb hb'
    rw [hb, hb']

/-- The plain instructions behind related stretches correspond. -/
lemma Aligned.places_plain (h : Aligned E p q) (hnil : E [] []) (k : Plain) (b b' : Stretch) :
    Places E (b.instrs ++ .plain k :: p) (b'.instrs ++ .plain k :: q) b.length b'.length where
  aligned := by
    rw [b.drop_instrs_append, b'.drop_instrs_append]
    exact .plain hnil k h
  closes := by
    rw [closesBefore_stretch, closesBefore_stretch]

/-- What follows the same plain instruction corresponds. -/
lemma Aligned.places_one (h : Aligned E p q) (k : Plain) :
    Places E (.plain k :: p) (.plain k :: q) 1 1 where
  aligned := h
  closes := by
    rw [closesBefore_one (x := .plain k) rfl, closesBefore_one (x := .plain k) rfl]

lemma Aligned.places_succ (h : Aligned E p q) (hnil : E [] []) (k : Plain) (b b' : Stretch) :
    Places E (b.instrs ++ .plain k :: p) (b'.instrs ++ .plain k :: q) (b.length + 1)
      (b'.length + 1) := by
  refine (h.places_plain hnil k b b').add ?_
  rw [b.drop_instrs_append, b'.drop_instrs_append]
  exact h.places_one k

/-- The ends of aligned programs correspond. -/
lemma Aligned.places_length (h : Aligned E p q) (hnil : E [] []) :
    Places E p q p.length q.length := by
  induction h with
  | @last b b' h =>
    rw [b.length_instrs, b'.length_instrs]
    exact places_end hnil b b'
  | @plain b b' p q h k hrest ih =>
    have hsucc := hrest.places_succ hnil k b b'
    have hlength : ∀ (b : Stretch) (p : Program),
        (b.instrs ++ .plain k :: p).length = b.length + 1 + p.length := by
      intro b p
      rw [List.length_append, List.length_cons, b.length_instrs]
      omega
    rw [hlength, hlength]
    refine hsucc.add ?_
    rwa [b.drop_succ_instrs_append, b'.drop_succ_instrs_append]

/-- The scan does the same in aligned programs: it finds nothing in both, or leads behind closing
brackets that correspond. -/
theorem Aligned.closeIn (h : Aligned E p q) (hnil : E [] []) (depth : Nat) :
    (Program.closeIn p depth = none ∧ Program.closeIn q depth = none) ∨
      ∃ j j', Program.closeIn p depth = some j ∧ Program.closeIn q depth = some j' ∧
        Places E p q (j + 1) (j' + 1) := by
  induction h generalizing depth with
  | @last b b' h =>
    have hb := b.closeIn_instrs_append [] depth
    have hb' := b'.closeIn_instrs_append [] depth
    rw [List.append_nil] at hb hb'
    exact .inl ⟨hb, hb'⟩
  | @plain b b' p q h k hrest ih =>
    rw [b.closeIn_instrs_append, b'.closeIn_instrs_append]
    have hsucc := hrest.places_succ hnil k b b'
    rcases closeIn_cons (.plain k) depth with hend | ⟨depth', hgo⟩
    · rw [hend, hend]
      exact .inr ⟨_, _, rfl, rfl, hsucc⟩
    · rw [hgo, hgo]
      rcases ih depth' with ⟨hp, hq⟩ | ⟨j, j', hp, hq, hplaces⟩
      · rw [hp, hq]
        exact .inl ⟨rfl, rfl⟩
      · rw [hp, hq]
        refine .inr ⟨_, _, rfl, rfl, ?_⟩
        show Places E _ _ (b.length + (j + 1) + 1) (b'.length + (j' + 1) + 1)
        have hlength : ∀ l j : Nat, l + (j + 1) + 1 = l + 1 + (j + 1) := by omega
        rw [hlength, hlength]
        refine hsucc.add ?_
        rwa [b.drop_succ_instrs_append, b'.drop_succ_instrs_append]

/-- Where a loop is passed over in both, it leads to corresponding places. -/
lemma Places.partner (hnil : E [] []) {i j : Nat} (hp : p[i]? = some (.plain .openLoop))
    (hq : q[j]? = some (.plain .openLoop)) (h : Places E p q (i + 1) (j + 1)) :
    Places E p q (Program.partner p.toArray i + 1) (Program.partner q.toArray j + 1) := by
  rcases h.aligned.closeIn hnil 0 with ⟨hpn, hqn⟩ | ⟨k, k', hpk, hqk, hplaces⟩
  · have hi := lt_length hp
    have hj := lt_length hq
    have hend := h.add (h.aligned.places_length hnil)
    rw [List.length_drop, List.length_drop, Nat.add_sub_cancel' hi, Nat.add_sub_cancel' hj] at hend
    rwa [partner_of_closeIn_eq_none hpn, partner_of_closeIn_eq_none hqn,
      Nat.sub_add_cancel (by omega), Nat.sub_add_cancel (by omega)]
  · rw [partner_of_closeIn_eq_some hpk, partner_of_closeIn_eq_some hqk]
    exact h.add hplaces

lemma Aligned.cases (h : Aligned E p q) : ∃ b b', E b b' ∧ (p = b.instrs ∧ q = b'.instrs ∨
    ∃ k p' q', p = b.instrs ++ .plain k :: p' ∧ q = b'.instrs ++ .plain k :: q' ∧
      Aligned E p' q') := by
  cases h with
  | @last b b' h => exact ⟨b, b', h, .inl ⟨rfl, rfl⟩⟩
  | @plain b b' p q h k hrest => exact ⟨b, b', h, .inr ⟨k, p, q, rfl, rfl, hrest⟩⟩

end Program

namespace Machine

open Program

/-- Two machines at corresponding places, with the same tape and corresponding loops. -/
structure InStep (E : Stretch → Stretch → Prop) (p q : Program) (m n : Machine) : Prop where
  tape : m.tape = n.tape
  places : Places E p q m.pc n.pc
  loops : List.Forall₂ (fun i j => Places E p q (i + 1) (j + 1)) m.loops n.loops

variable {E : Stretch → Stretch → Prop} {p q : Program} {m n : Machine}

lemma inStep_fresh (h : Aligned E p q) : InStep E p q {} {} where
  tape := rfl
  places := h.places_zero
  loops := .nil

/-! ## At a plain instruction -/

/-- Machines in step demand the same at the same plain instruction. -/
lemma InStep.demand_eq (h : InStep E p q m n) {k : Plain} (hp : p[m.pc]? = some (.plain k))
    (hq : q[n.pc]? = some (.plain k)) : m.demand p.toArray = n.demand q.toArray := by
  have hloops : m.loops.isEmpty = n.loops.isEmpty := by
    rw [Bool.eq_iff_iff, List.isEmpty_iff_length_eq_zero, List.isEmpty_iff_length_eq_zero,
      h.loops.length_eq]
  unfold demand
  rw [List.getElem?_toArray, List.getElem?_toArray, hp, hq]
  cases k with
  | openLoop => rfl
  | closeLoop => simp only [hloops]
  | output => simp only [h.tape]
  | input => rfl

/-- Machines that are in step stay so over a bracket. -/
lemma InStep.compute (h : InStep E p q m n) (hnil : E [] []) {k : Plain}
    (hp : p[m.pc]? = some (.plain k)) (hq : q[n.pc]? = some (.plain k))
    (hnext : Places E p q (m.pc + 1) (n.pc + 1)) (hd : m.demand p.toArray = .compute) :
    InStep E p q (m.compute p.toArray) (n.compute q.toArray) := by
  have hp' : p.toArray[m.pc]? = some (.plain k) := by rwa [List.getElem?_toArray]
  have hq' : q.toArray[n.pc]? = some (.plain k) := by rwa [List.getElem?_toArray]
  cases k with
  | output => simp [demand, hp] at hd
  | input => simp [demand, hp] at hd
  | openLoop =>
    by_cases hz : m.tape.current = 0
    · rw [compute_openLoop_of_zero hp' hz, compute_openLoop_of_zero hq' (by rwa [← h.tape])]
      exact ⟨h.tape, .partner hnil hp hq hnext, h.loops⟩
    · rw [compute_openLoop_of_ne hp' hz, compute_openLoop_of_ne hq' (by rwa [← h.tape])]
      exact ⟨h.tape, hnext, .cons hnext h.loops⟩
  | closeLoop =>
    obtain ⟨tape, -, loops⟩ := h
    obtain ⟨t, i, l⟩ := m
    obtain ⟨t', j, l'⟩ := n
    obtain rfl : t = t' := tape
    cases loops with
    | nil => simp [demand, hp] at hd
    | cons hstart houter =>
      by_cases hz : t.current = 0
      · rw [compute_closeLoop_of_zero hp' rfl hz, compute_closeLoop_of_zero hq' rfl hz]
        exact ⟨rfl, hnext, houter⟩
      · rw [compute_closeLoop_of_ne hp' rfl hz, compute_closeLoop_of_ne hq' rfl hz]
        exact ⟨rfl, hstart, .cons hstart houter⟩

/-- Machines that are in step at the same plain instruction are level. -/
lemma InStep.level_plain (h : InStep E p q m n) (hnil : E [] []) {k : Plain}
    (hp : p[m.pc]? = some (.plain k)) (hq : q[n.pc]? = some (.plain k))
    (hnext : Places E p q (m.pc + 1) (n.pc + 1)) :
    Level p.toArray q.toArray (SameClose p q) (InStep E p q) m n where
  rel := h
  tape := h.tape
  demand := h.demand_eq hp hq
  stray hd := by
    have hq' := h.demand_eq hp hq
    rw [hd, eq_comm, demand_eq_stray_iff, List.getElem?_toArray] at hq'
    rw [demand_eq_stray_iff, List.getElem?_toArray] at hd
    exact ⟨hd.1, hq'.1, h.places.closes⟩
  compute := h.compute hnil hp hq hnext
  receive _ v := ⟨by rw [receive, receive, h.tape], hnext, h.loops⟩
  sent _ _ := ⟨h.tape, hnext, h.loops⟩

/-- Machines that are in step at the ends of their programs are level. -/
lemma InStep.level_end (h : InStep E p q m n) (hp : p.length ≤ m.pc) (hq : q.length ≤ n.pc) :
    Level p.toArray q.toArray (SameClose p q) (InStep E p q) m n := by
  have hm : m.demand p.toArray = .halted := demand_eq_halted_iff.mpr (by simpa using hp)
  have hn : n.demand q.toArray = .halted := demand_eq_halted_iff.mpr (by simpa using hq)
  exact
    { rel := h
      tape := h.tape
      demand := hm.trans hn.symm
      stray := fun hd => by cases hm.symm.trans hd
      compute := fun hd => by cases hm.symm.trans hd
      receive := fun hd => by cases hm.symm.trans hd
      sent := fun v hd => by cases hm.symm.trans hd }

/-! ## Through the stretches -/

/-- **Machines that are in step come level**, if related stretches do the same to a tape that allows
both of them. -/
theorem inStep_bisimulation {G G' : Counted → Int → Tape → Prop} (hnil : E [] [])
    (hE : ∀ b b' t, E b b' → b.Allows G t → b'.Allows G' t → b'.act t = b.act t) :
    Bisimulation p.toArray q.toArray (Allowed p G) (Allowed q G') (SameClose p q)
      (InStep E p q) := by
  intro m n h hG hG'
  -- whatever stands behind the stretches, the machines go through them and are in step there
  have hgo : ∀ {b b' : Stretch} {p' q' : Program}, E b b' → p.drop m.pc = b.instrs ++ p' →
      q.drop n.pc = b'.instrs ++ q' →
      Places E p q (m.pc + b.length) (n.pc + b'.length) →
      InStep E p q { m with tape := b.act m.tape, pc := m.pc + b.length }
        { n with tape := b'.act n.tape, pc := n.pc + b'.length } := by
    intro b b' p' q' hb hp hq hplaces
    have hallows' := allows_of_computes hq hG'
    rw [← h.tape] at hallows'
    have htape := hE b b' m.tape hb (allows_of_computes hp hG) hallows'
    refine ⟨?_, hplaces, h.loops⟩
    show b.act m.tape = b'.act n.tape
    rw [← h.tape, htape]
  obtain ⟨b, b', hb, ⟨hp, hq⟩ | ⟨k, p', q', hp, hq, hrest⟩⟩ := h.places.aligned.cases
  · have hends := places_end hnil b b'
    rw [← hp, ← hq] at hends
    rw [← List.append_nil b.instrs] at hp
    rw [← List.append_nil b'.instrs] at hq
    have hstep := hgo hb hp hq (h.places.add hends)
    refine ⟨_, _, computes_stretch hp, computes_stretch hq, hstep.level_end ?_ ?_⟩
    · have hlength := congrArg List.length hp
      rw [List.length_drop, List.append_nil, b.length_instrs] at hlength
      show p.length ≤ m.pc + b.length
      omega
    · have hlength := congrArg List.length hq
      rw [List.length_drop, List.append_nil, b'.length_instrs] at hlength
      show q.length ≤ n.pc + b'.length
      omega
  · have hplain := hrest.places_plain hnil k b b'
    have hsucc := hrest.places_succ hnil k b b'
    rw [← hp, ← hq] at hplain hsucc
    have hstep := hgo hb hp hq (h.places.add hplain)
    have hpk : p[m.pc + b.length]? = some (.plain k) := by
      rw [← List.getElem?_drop, hp, b.getElem?_instrs_append]
    have hqk : q[n.pc + b'.length]? = some (.plain k) := by
      rw [← List.getElem?_drop, hq, b'.getElem?_instrs_append]
    exact ⟨_, _, computes_stretch hp, computes_stretch hq,
      hstep.level_plain hnil hpk hqk (h.places.add hsucc)⟩

end Machine

end TapeLang
