import TapeLang.Proofs.Brackets.Scan
import TapeLang.Proofs.Step
import TapeLang.Stream.Input
import TapeLang.Stream.Output

/-!
# Where a loop ends

The end of a loop can be said without a scan: it is a closing bracket, and what stands between it and
the opening one is balanced (`Program.EndsLoop`). Of the rest of the program nothing is asked.

The forward scan stops at the first bracket that is stray in what stands behind the opening one, and
what stands before the first stray bracket is balanced. So it stops where the loop ends and nowhere
else (`Program.endsLoop_iff`). That the matching from left to right pairs the same two brackets is
known of the scan already.

A loop that ends nowhere is passed over to the last instruction. That may be a closing bracket too, and
may even end another loop, so the place alone does not tell whether a partner was found.
`Program.partner_ends_loop` treats the two cases apart.
-/

namespace TapeLang

namespace Program

/-- The closing bracket at `m` ends the loop that is opened at `i`: between the two every bracket has
its partner. -/
def EndsLoop (p : Program) (i m : Nat) : Prop :=
  i < m ∧ p[m]? = some (.plain .closeLoop) ∧ Balanced (p.extract (i + 1) m)

instance (p : Program) (i m : Nat) : Decidable (p.EndsLoop i m) :=
  inferInstanceAs (Decidable (_ ∧ _ ∧ _))

variable {p q : Program} {i j m : Nat}

/-! ## What the scan finds -/

/-- The scan ends at a closing bracket that has a balanced program before it. -/
theorem closeIn_eq_some_iff_balanced :
    closeIn q 0 = some j ↔ q[j]? = some (.plain .closeLoop) ∧ Balanced (q.take j) := by
  have hscan : closeIn q 0 = some j ↔ q.Stray j ∧ ∀ k < j, ¬ q.Stray k := by
    simpa using closeIn_eq_some_iff (p := q) (n := 0) (j := j) rfl
  rw [hscan, Stray, and_assoc]
  exact and_congr_right fun hc => (balanced_take_iff (lt_length hc).le).symm

/-- The scan finds where a loop ends. -/
theorem endsLoop_iff :
    p.EndsLoop i m ↔ ∃ j, i + 1 + j = m ∧ closeIn (p.drop (i + 1)) 0 = some j := by
  simp only [closeIn_eq_some_iff_balanced, List.getElem?_drop]
  constructor
  · rintro ⟨hlt, hc, hbalanced⟩
    have hm : i + 1 + (m - (i + 1)) = m := by omega
    exact ⟨m - (i + 1), hm, by rwa [hm], hbalanced⟩
  · rintro ⟨j, rfl, hc, hbalanced⟩
    refine ⟨by omega, hc, ?_⟩
    rwa [List.extract_eq_take_drop, Nat.add_sub_cancel_left]

lemma EndsLoop.partner_eq (h : p.EndsLoop i m) : partner p.toArray i = m := by
  obtain ⟨j, rfl, hj⟩ := endsLoop_iff.mp h
  exact partner_of_closeIn_eq_some hj

lemma EndsLoop.mate?_eq (h : p.EndsLoop i m) (ho : p[i]? = some (.plain .openLoop)) :
    mate? p m = some i := by
  obtain ⟨j, rfl, hj⟩ := endsLoop_iff.mp h
  exact mate?_of_closeIn_eq_some ho hj

/-- The scan finds nothing where a loop ends nowhere. -/
lemma closeIn_eq_none_of_forall (h : ∀ m, ¬ p.EndsLoop i m) :
    closeIn (p.drop (i + 1)) 0 = none :=
  Option.eq_none_iff_forall_ne_some.mpr fun j hj => h _ (endsLoop_iff.mpr ⟨j, rfl, hj⟩)

end Program

/-- A loop over a zero cell is passed over in one step. -/
lemma Config.step_skip {ι ω : Type} [Source ι] [Sink ω] {p : Program} {c : Config ι ω}
    (ho : p[c.machine.pc]? = some (.plain .openLoop)) (hz : c.machine.tape.current = 0) :
    c.step p.toArray = .going
      { c with machine := { c.machine with pc := Program.partner p.toArray c.machine.pc + 1 } } := by
  rw [← List.getElem?_toArray] at ho
  rw [step_of_compute (Machine.demand_of_openLoop ho), Machine.compute_openLoop_of_zero ho hz]

namespace Program

/-- **The scan finds the partner of an opening bracket**, in every program. If the loop ends at `m`, it
ends nowhere else, the partner is `m`, and the matching from left to right pairs the two brackets. If
it ends nowhere, the partner is the last instruction, the matching pairs the bracket with none, and a
machine that passes over the loop comes to the end of the program, where its run is over. In either
case the partner is in the program and not before the bracket. -/
theorem partner_ends_loop {p : Program} {i : Nat} (ho : p[i]? = some (.plain .openLoop)) :
    (∀ m, p.EndsLoop i m →
      (∀ k, p.EndsLoop i k → k = m) ∧ partner p.toArray i = m ∧ p.mate? m = some i) ∧
    ((∀ m, ¬ p.EndsLoop i m) →
      partner p.toArray i = p.length - 1 ∧ (∀ k, p.mate? k ≠ some i) ∧
      ∀ {ι ω : Type} [Source ι] [Sink ω] (c : Config ι ω), c.machine.pc = i →
        c.machine.tape.current = 0 →
        let d : Config ι ω := { c with machine := { c.machine with pc := p.length } }
        c.step p.toArray = .going d ∧ d.step p.toArray = .ended .finished d) ∧
    i ≤ partner p.toArray i ∧ partner p.toArray i < p.length := by
  have hlt := lt_length ho
  refine ⟨fun m hm => ⟨fun k hk => ?_, hm.partner_eq, hm.mate?_eq ho⟩, fun hforall => ?_, ?_⟩
  · -- the scan has one result
    rw [← hk.partner_eq, hm.partner_eq]
  · have hnone := closeIn_eq_none_of_forall hforall
    have hpartner := partner_of_closeIn_eq_none hnone
    refine ⟨hpartner, mate?_ne_of_closeIn_eq_none ho hnone, ?_⟩
    rintro ι ω _ _ c rfl hz d
    have hbehind : partner p.toArray c.machine.pc + 1 = p.length := by omega
    exact ⟨by rw [Config.step_skip ho hz, hbehind], Config.step_of_length_le le_rfl⟩
  · rw [← List.size_toArray] at hlt ⊢
    exact partner_mem_range hlt

/-- A loop inside one that ends nowhere. Both have the same partner, which ends the inner loop and is
merely the last instruction to the outer one. -/
theorem partner_ends_loop_shared :
    let p : Program := [.plain .openLoop, .plain .openLoop, .plain .output, .plain .closeLoop]
    let c : Config Input.Closed Output.Discard := ⟨{}, {}, {}⟩
    (p[1]? = some (.plain .openLoop) ∧ p.EndsLoop 1 3 ∧
      partner p.toArray 1 = 3 ∧ p.mate? 3 = some 1) ∧
    (p[0]? = some (.plain .openLoop) ∧ (∀ m, ¬ p.EndsLoop 0 m) ∧
      partner p.toArray 0 = 3 ∧ (∀ k, p.mate? k ≠ some 0) ∧
      c.step p.toArray = .going ⟨{ pc := 4 }, {}, {}⟩) := by
  intro p c
  have hinner : p.EndsLoop 1 3 := by decide
  have houter : ∀ m, ¬ p.EndsLoop 0 m := by
    intro m hm
    have hlt : m < 4 := lt_length hm.2.1
    have hnone : ∀ k < 4, ¬ p.EndsLoop 0 k := by decide
    exact hnone m hlt hm
  have hblank : c.machine.tape.current = 0 := by
    simp [c, Tape.current, Tape.blank, Tape.length]
  obtain ⟨-, hpartner, hmate⟩ := (partner_ends_loop (p := p) (i := 1) rfl).1 3 hinner
  obtain ⟨hlast, hnomate, hstep⟩ := (partner_ends_loop (p := p) (i := 0) rfl).2.1 houter
  exact ⟨⟨rfl, hinner, hpartner, hmate⟩, rfl, houter, hlast, hnomate, (hstep c rfl hblank).1⟩

end Program

end TapeLang
