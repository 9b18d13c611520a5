import Mathlib.Tactic.IntervalCases
import TapeLang.Proofs.Alignment
import TapeLang.Proofs.Bounds
import TapeLang.Proofs.Condense.Stretches

/-!
# Condensed programs do the same

A condensed program is aligned with the one it was made from, stretch by stretch
(`Program.aligned_condense`), and condensing is right for a stretch in which no move is stopped at an
end of the tape and no sum is rounded. So a program and its condensed form cannot be told apart as long
as the head of the former is never stopped and nothing is rounded, whatever its brackets are and however
its streams behave: `Session.condense_alike`.

At the ends of the tape the two do differ. Two moves that cancel leave the head where it is, but a
head that is stopped on its way is brought somewhere else by them. And they differ where a sum is rounded,
since they do not form the same sums (`Session.condense_alike_not_rounded`). Sums are those of two counts,
formed while the program is condensed, and those of a cell and a count, formed by the machine; none of them
is rounded if all counts together are not too close to the limit (`Session.nothingRounded_of_weight_le`).
-/

namespace TapeLang

/-- `b'` is what `b` is condensed to, and does the same to a tape that `G` allows `b`, if the machine
rounds nothing in either. -/
def Stretch.CondensesTo (G : Counted → Int → Tape → Prop) (b b' : Stretch) : Prop :=
  b' = b.condense ∧ ∀ t : Tape, b.Allows G t → b.Allows Counted.Exact t →
    b'.Allows Counted.Exact t → b'.act t = b.act t

namespace Program

/-- A program and its condensed form have the same plain instructions, with condensed stretches
between them. -/
theorem aligned_condense {E : Stretch → Stretch → Prop} (p : Program)
    (h : ∀ b ∈ p.stretches, E b b.condense) : Aligned E p p.condense := by
  induction p using stretch_induction with
  | last b =>
    rw [b.condense_instrs]
    exact .last (h b (by simp [stretches_instrs]))
  | plain b k q ih =>
    rw [stretches_instrs_append, List.forall_mem_cons] at h
    rw [condense_instrs_append]
    exact .plain h.1 k (ih h.2)

end Program

namespace Machine

/-- The head is not stopped by the next instruction: a move to the left goes at most as far as the
head has come, one to the right at most to the last cell. -/
def Unstopped (p : Program) (m : Machine) : Prop :=
  (∀ count, p[m.pc]? = some (.counted .left count) → count ≤ m.tape.head) ∧
    ∀ count, p[m.pc]? = some (.counted .right count) → m.tape.head + count < Tape.length

variable {p : Program} {m : Machine}

/-- With counts that are not negative a move that is not stopped stays on the tape. -/
lemma Unstopped.allowed (h : m.Unstopped p) (hp : p.MovesNonneg) (hm : m.tape.OnTape) :
    m.Allowed p Counted.Fits := by
  intro kind count hi
  have hforward := hp.forward (List.mem_of_getElem? hi)
  refine ⟨hm, ?_⟩
  cases kind with
  | left => exact ⟨hforward (.inl rfl), h.1 count hi⟩
  | right => exact ⟨hforward (.inr rfl), h.2 count hi⟩
  | add => trivial
  | sub => trivial

end Machine

namespace Session

/-- No sum is rounded: none that is formed while the program is condensed, and none that the machine
forms in these run calls, on the program or on its condensed form. -/
structure NothingRounded (p : Program) (calls : List Streams) : Prop where
  condensing : p.Unrounded
  running : ∀ m, (ofProgram p).Passes calls m → m.Unrounded p
  condensed : ∀ m, (ofProgram p.condense).Passes calls m → m.Unrounded p.condense

/-- **Nothing is rounded if the counts are small,** which they are in every program that was read from a
text of fewer octets than the limit has. -/
theorem nothingRounded_of_weight_le {p : Program} (h : p.weight + 255 ≤ Count.limit)
    (calls : List Streams) : NothingRounded p calls := by
  have hweight : p.weight ≤ Count.limit := Nat.le_of_add_right_le h
  have hcondense := Program.weight_condense_le hweight
  refine ⟨Program.unrounded_of_weight_le hweight, fun m _ => ?_, fun m _ => ?_⟩
  · refine Machine.unrounded_of_le (fun kind count hmem => ?_) m
    exact (Nat.add_le_add_right (Program.natAbs_le_weight hmem) 255).trans h
  · refine Machine.unrounded_of_le (fun kind count hmem => ?_) m
    have hcount := Program.natAbs_le_weight hmem
    omega

/-- A program and its condensed form cannot be told apart if condensing is right for all its stretches. -/
lemma alike_condense {G : Counted → Int → Tape → Prop} {p : Program} {calls : List Streams}
    (hp : NothingRounded p calls) (hact : ∀ b ∈ p.stretches, b.CondensesTo G b.condense)
    (hcalls : ∀ m, (ofProgram p).Passes calls m → m.Allowed p G) :
    Alike (p.SameClose p.condense) (ofProgram p) (ofProgram p.condense) calls := by
  have hB : Machine.Bisimulation p.toArray p.condense.toArray
      (Machine.Allowed p fun kind count t => G kind count t ∧ kind.Exact count t)
      (Machine.Allowed p.condense Counted.Exact) (p.SameClose p.condense)
      (Machine.InStep (Stretch.CondensesTo G) p p.condense) := by
    refine Machine.inStep_bisimulation ⟨rfl, fun _ _ _ _ => rfl⟩ ?_
    rintro b _ t ⟨rfl, hb⟩ hallows hexact'
    refine hb t (hallows.imp ?_) (hallows.imp ?_) hexact'
    · exact fun _ _ _ _ h => h.1
    · exact fun _ _ _ _ h => h.2
  have hstep := Machine.inStep_fresh (p.aligned_condense hact)
  refine alike_of_bisimulation hB rfl rfl hstep ?_ hp.condensed
  exact fun m hm kind count hi => ⟨hcalls m hm kind count hi, hp.running m hm kind count hi⟩

/-- **A condensed program does the same** as long as no move of the program is stopped at an end of
the tape and nothing is rounded. For any run calls on any streams, failing ones included, the two make
the same calls, end on the same occasions and in the same way, and leave the same tape and the same
streams; a bracket that is stray in the one is stray in the other with the same number among the closing
brackets. The counts of moves must not be negative, and those of a program that was read never are.
Nothing is rounded if the counts together are not too close to the limit. -/
theorem condense_alike :
    (∀ bytes, (Program.ofBytes bytes).MovesNonneg) ∧
    (∀ (p : Program) (calls : List Streams), p.weight + 255 ≤ Count.limit →
      NothingRounded p calls) ∧
    ∀ p : Program, p.MovesNonneg → ∀ calls : List Streams, NothingRounded p calls →
      (∀ m, (ofProgram p).Passes calls m → m.Unstopped p) →
      Alike (p.SameClose p.condense) (ofProgram p) (ofProgram p.condense) calls := by
  refine ⟨fun bytes => (Program.positive_ofBytes bytes).movesNonneg,
    fun p calls h => nothingRounded_of_weight_le h calls, fun p hmoves calls hp hcalls => ?_⟩
  refine alike_condense (G := Counted.Fits) hp (fun b hb => ⟨rfl, fun t hfits hexact hexact' => ?_⟩)
    fun m hm => (hcalls m hm).allowed hmoves (inBounds_of_passes hmoves hm).head
  exact Stretch.condense_act Counted.Fits.forward Counted.lawful_fits
    (hp.condensing.of_mem_stretches hb) hfits hexact hexact'

/-- A loop that moves away and back in each of as many rounds as the input says. -/
private def rounds : Program :=
  [.plain .input, .plain .openLoop, .counted .right 1, .counted .left 1, .counted .sub 1,
    .plain .closeLoop]

/-- The only loop begins at 1, and the head is away from the start between the two moves alone. -/
private lemma place_of_passes_rounds {calls : List Streams} {m : Machine}
    (h : (ofProgram rounds).Passes calls m) :
    m.tape.head = (if m.pc = 3 then 1 else 0) ∧ ∀ i ∈ m.loops, i = 1 := by
  refine h.induction
    (I := fun m => m.tape.head = (if m.pc = 3 then 1 else 0) ∧ ∀ i ∈ m.loops, i = 1)
    ⟨rfl, fun i hi => nomatch hi⟩ ?_
  rintro ⟨t, pc, loops⟩ n - ⟨hhead, hloops⟩ hn
  have hpartner : Program.partner rounds.toArray 1 = 5 :=
    Program.partner_of_closeIn_eq_some (i := 1) (j := 3) rfl
  have hlt : ∀ {x : Instr}, rounds.toArray[pc]? = some x → pc < 6 := by
    intro x hx
    rw [List.getElem?_toArray] at hx
    exact Program.lt_length hx
  cases hn with
  | @counted kind count hi =>
    have hpc := hlt hi
    refine ⟨?_, hloops⟩
    interval_cases pc <;> cases hi
    · show min (Count.sum t.head 1) (Tape.length - 1) = 1
      rw [show t.head = 0 from hhead]
      decide
    · show max (Count.sum t.head (-1)) 0 = 0
      rw [show t.head = 1 from hhead]
      decide
    · exact (Tape.head_add t (-1)).trans hhead
  | skip hi hz =>
    have hpc := hlt hi
    interval_cases pc <;> cases hi
    refine ⟨?_, hloops⟩
    show t.head = if Program.partner rounds.toArray 1 + 1 = 3 then 1 else 0
    rw [hpartner]
    exact hhead
  | enter hi hz =>
    have hpc := hlt hi
    interval_cases pc <;> cases hi
    exact ⟨hhead, List.forall_mem_cons.mpr ⟨rfl, hloops⟩⟩
  | @leave start outer hi hl hz =>
    have hpc := hlt hi
    obtain rfl : loops = start :: outer := hl
    interval_cases pc <;> cases hi
    exact ⟨hhead, (List.forall_mem_cons.mp hloops).2⟩
  | @again start outer hi hl hz =>
    have hpc := hlt hi
    obtain rfl : loops = start :: outer := hl
    obtain rfl : start = 1 := (List.forall_mem_cons.mp hloops).1
    interval_cases pc <;> cases hi
    exact ⟨hhead, hloops⟩
  | receive hi b =>
    have hpc := hlt hi
    interval_cases pc <;> cases hi
    exact ⟨(Tape.head_put t b).trans hhead, hloops⟩
  | sent hi =>
    have hpc := hlt hi
    interval_cases pc <;> cases hi

/-- Two runs of a loop that moves away and back in each round, the second on what the first has left
of its input: the moves cancel, and the head is never stopped. -/
theorem condense_alike_rounds :
    let c : List Reading → Streams := fun answers =>
      { In := Input.Script, Out := Output.Discard, input := ⟨answers⟩, output := {} }
    rounds.condense = [.plain .input, .plain .openLoop, .counted .sub 1, .plain .closeLoop] ∧
      rounds.MovesNonneg ∧ NothingRounded rounds [c [.value 3], c []] ∧
      (∀ m, (ofProgram rounds).Passes [c [.value 3], c []] m → m.Unstopped rounds) ∧
      Alike (rounds.SameClose rounds.condense) (ofProgram rounds) (ofProgram rounds.condense)
        [c [.value 3], c []] := by
  intro c
  have hmoves : rounds.MovesNonneg := by
    intro count h
    have hone : count = 1 := by simpa [rounds] using h
    omega
  have hunstopped : ∀ m, (ofProgram rounds).Passes [c [.value 3], c []] m →
      m.Unstopped rounds := by
    rintro ⟨t, pc, loops⟩ hm
    obtain ⟨hhead, -⟩ := place_of_passes_rounds hm
    constructor
    · intro count hi
      have hpc : pc < 6 := Program.lt_length hi
      interval_cases pc <;> cases hi
      show (1 : Int) ≤ t.head
      rw [show t.head = 1 from hhead]
    · intro count hi
      have hpc : pc < 6 := Program.lt_length hi
      interval_cases pc <;> cases hi
      show t.head + 1 < Tape.length
      rw [show t.head = 0 from hhead]
      decide
  obtain ⟨-, hsmall, halike⟩ := condense_alike
  have hrounded : NothingRounded rounds [c [.value 3], c []] := hsmall rounds _ (by decide)
  exact ⟨by decide, hmoves, hrounded, hunstopped, halike rounds hmoves _ hrounded hunstopped⟩

/-- A program that writes the cell under the head after a stretch can be told from its condensed form if
the stretch and what it is condensed to leave different cells there. -/
lemma not_alike_condense_output {b : Stretch}
    (h : (b.act Tape.blank).current ≠ (b.condense.act Tape.blank).current) :
    let p : Program := b.instrs ++ [Instr.plain .output]
    ¬ Alike (p.SameClose p.condense) (ofProgram p) (ofProgram p.condense) [.silent] := by
  intro p halike
  have hends : ∀ b : Stretch, ∃ r, (ofProgram (b.instrs ++ [Instr.plain .output])).Ends .silent
      [.write (b.act Tape.blank).current.toNat .accepted] r := by
    intro b
    let code := (b.instrs ++ [Instr.plain .output]).toArray
    let behind : Machine := ⟨b.act Tape.blank, 0 + b.length, []⟩
    have hcomputes : Machine.Computes code {} behind := Machine.computes_stretch rfl
    have hi : code[behind.pc]? = some (.plain .output) := by
      rw [List.getElem?_toArray]
      show (b.instrs ++ [Instr.plain .output])[0 + b.length]? = _
      rw [Nat.zero_add, b.getElem?_instrs_append]
    have hdemand : behind.demand code = .write (b.act Tape.blank).current :=
      Machine.demand_eq_write_iff.mpr ⟨hi, rfl⟩
    have hhalted : behind.sent.demand code = .halted := by
      refine Machine.demand_eq_halted_iff.mpr ?_
      show (b.instrs ++ [Instr.plain .output]).toArray.size ≤ 0 + b.length + 1
      rw [List.size_toArray, List.length_append, b.length_instrs, Nat.zero_add]
      exact Nat.le_refl _
    let c : Config Input.Closed Output.Discard := ⟨behind, {}, {}⟩
    have hwrite : c.Ends code [.write (b.act Tape.blank).current.toNat .accepted] .finished
        ⟨behind.sent, {}, {}⟩ :=
      (Config.Reaches.of_step (Config.step_of_write hdemand rfl)
        (Config.calls_of_write hdemand)).ends
        (.of_step (Config.step_of_halted hhalted) (Config.calls_of_halted hhalted))
    have hend := (Config.Reaches.of_computes hcomputes _ _).ends hwrite
    rw [List.nil_append] at hend
    exact ⟨_, ends_of_config (s := ofProgram (b.instrs ++ [Instr.plain .output])) (c := .silent) hend⟩
  have hcondense : p.condense = b.condense.instrs ++ [Instr.plain .output] :=
    Program.condense_instrs_append b .output []
  obtain ⟨r, hr⟩ := hends b
  obtain ⟨r', hr'⟩ := hends b.condense
  rw [hcondense] at halike
  obtain ⟨hevents, -⟩ := halike.2.2 _ r _ r' hr hr'
  refine h (UInt8.toNat_inj.mp ?_)
  have hvalue := (Event.write.inj (List.singleton_inj.mp hevents)).1
  exact Int.ofNat_inj.mp hvalue

/-- **Where a sum is rounded, a condensed program does something else,** though no move is stopped: there
is none. The two counts are fused to one, which is a multiple of 256. -/
theorem condense_alike_not_rounded :
    let p : Program := [.counted .add (2 ^ 53 - 1), .counted .add 2, .plain .output]
    p.MovesNonneg ∧ (∀ m, (ofProgram p).Passes [.silent] m → m.Unstopped p) ∧
      ¬ Alike (p.SameClose p.condense) (ofProgram p) (ofProgram p.condense) [.silent] := by
  intro p
  have hnone : ∀ count, .counted .left count ∉ p ∧ .counted .right count ∉ p := by
    intro count
    simp [p]
  refine ⟨?_, fun m _ => ⟨fun count hi => ?_, fun count hi => ?_⟩, ?_⟩
  · rintro count (hmem | hmem)
    · exact absurd hmem (hnone count).1
    · exact absurd hmem (hnone count).2
  · exact absurd (List.mem_of_getElem? hi) (hnone count).1
  · exact absurd (List.mem_of_getElem? hi) (hnone count).2
  · refine not_alike_condense_output (b := [(.add, 2 ^ 53 - 1), (.add, 2)]) ?_
    have hcondense : Stretch.condense [(.add, 2 ^ 53 - 1), (.add, 2)] = [(.add, 2 ^ 53)] := by decide
    have hraw : (Stretch.act [(.add, 2 ^ 53 - 1), (.add, 2)] Tape.blank).current = 1 :=
      Tape.current_add_add_blank _ _
    have hfused : (Stretch.act [(.add, 2 ^ 53)] Tape.blank).current = 0 :=
      Tape.current_add_blank _
    rw [hcondense, hraw, hfused]
    decide

end Session

/-- A head that is stopped on its way is not brought back, though the two moves cancel. -/
example : Program.condense [.counted .left 1, .counted .right 1] = [] ∧
    (Counted.right.act 1 (Counted.left.act 1 Tape.blank)).head ≠ Tape.blank.head := by
  decide

end TapeLang
