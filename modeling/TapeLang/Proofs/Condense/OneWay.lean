import TapeLang.Proofs.Condense.Faithful

/-!
# Condensing at the ends of the tape

Two moves that cancel are what makes a condensed program differ where the head is stopped. In a
stretch that moves in one direction only no two moves cancel, and the others are fused, which is
right even for a head that is stopped. So condensing is right for such a stretch over every tape
(`Stretch.condense_act_of_oneWay`), also where changes of a cell cancel between its moves, as long as
nothing is rounded. A program of such stretches cannot be told from its condensed form:
`Session.condense_alike_of_oneWay`. Nothing is asked of its runs but that the sums they form are not
rounded; where one is, the two do differ (`Session.condense_alike_of_oneWay_not_rounded`).
-/

namespace TapeLang

/-- The instruction is none that moves `back`, and if it is a move, it goes the way it says. -/
def Counted.Avoids (back kind : Counted) (count : Int) : Prop :=
  kind ≠ back ∧ kind.Forward count

/-- Where nothing moves back, fusing and cancelling are right on the whole tape. -/
theorem Counted.lawful_avoids {back : Counted} (hback : back = .left ∨ back = .right) :
    Counted.Lawful actExactly fun kind count t => t.OnTape ∧ back.Avoids kind count where
  fuse := by
    rintro k m n t ⟨ht, hk, hm⟩ ⟨-, -, hn⟩
    refine ⟨⟨ht, hk, fun hmove => Int.add_nonneg (hm hmove) (hn hmove)⟩, ?_⟩
    cases k with
    | left => exact (actExactly_actExactly_of_move (.inl rfl) (hn (.inl rfl)) m t).symm
    | right => exact (actExactly_actExactly_of_move (.inr rfl) (hn (.inr rfl)) m t).symm
    | add => exact (actExactly_actExactly_of_change (.inl rfl) m n t).symm
    | sub => exact (actExactly_actExactly_of_change (.inr rfl) m n t).symm
  cancel := by
    rintro k n t ⟨-, hk, -⟩ ⟨-, hinv, -⟩
    -- one of two moves that cancel would be a move back
    cases k with
    | left => rcases hback with rfl | rfl <;> simp [inverse] at hk hinv
    | right => rcases hback with rfl | rfl <;> simp [inverse] at hk hinv
    | add => exact inverse_actExactly_of_change (.inl rfl) n t
    | sub => exact inverse_actExactly_of_change (.inr rfl) n t

namespace Stretch

/-- There are not both moves to the left and moves to the right in the stretch. -/
def OneWay (b : Stretch) : Prop :=
  ¬ (.left ∈ b.map Prod.fst ∧ .right ∈ b.map Prod.fst)

instance (b : Stretch) : Decidable b.OneWay :=
  inferInstanceAs (Decidable (¬ (_ ∧ _)))

variable {b : Stretch} {t : Tape}

lemma OneWay.exists_avoids (h : b.OneWay)
    (hmoves : ∀ kind count, (kind, count) ∈ b → kind.Forward count) :
    ∃ back, (back = .left ∨ back = .right) ∧
      ∀ kind count, (kind, count) ∈ b → Counted.Avoids back kind count := by
  have habsent : ∀ back, back ∉ b.map Prod.fst →
      ∀ kind count, (kind, count) ∈ b → Counted.Avoids back kind count := by
    rintro back hback kind count hx
    refine ⟨?_, hmoves kind count hx⟩
    rintro rfl
    exact hback (List.mem_map_of_mem hx)
  by_cases hleft : .left ∈ b.map Prod.fst
  · have hright : .right ∉ b.map Prod.fst := fun hright => h ⟨hleft, hright⟩
    exact ⟨.right, .inr rfl, habsent _ hright⟩
  · exact ⟨.left, .inl rfl, habsent _ hleft⟩

/-- A stretch in one direction and its condensed form do the same to every tape. -/
theorem condense_act_of_oneWay (h : b.OneWay)
    (hmoves : ∀ kind count, (kind, count) ∈ b → kind.Forward count)
    (hsums : Program.Unrounded b.instrs) :
    b.CondensesTo (fun _ _ t => t.OnTape) b.condense := by
  refine ⟨rfl, fun t ht hexact hexact' => ?_⟩
  obtain ⟨back, hback, havoids⟩ := h.exists_avoids hmoves
  refine condense_act (fun h => ⟨h.1, h.2.2⟩) (Counted.lawful_avoids hback) hsums ?_ hexact hexact'
  exact ht.imp fun kind count t hx hon => ⟨hon, havoids kind count hx⟩

end Stretch

/-- Each stretch of counted instructions moves in one direction at most. -/
def Program.OneWay (p : Program) : Prop :=
  ∀ b ∈ p.stretches, b.OneWay

instance (p : Program) : Decidable p.OneWay :=
  inferInstanceAs (Decidable (∀ b ∈ p.stretches, b.OneWay))

namespace Session

/-- **A condensed program does the same wherever the head is stopped** if no stretch of the program
moves both ways, no count of a move is negative and nothing is rounded. For any run calls on any streams,
failing ones included, the two make the same calls, end on the same occasions and in the same way, and
leave the same tape and the same streams; a bracket that is stray in the one is stray in the other with
the same number among the closing brackets. Nothing is rounded if the counts together are not too close to
the limit. -/
theorem condense_alike_of_oneWay :
    (∀ (p : Program) (calls : List Streams), p.weight + 255 ≤ Count.limit →
      NothingRounded p calls) ∧
    ∀ p : Program, p.MovesNonneg → p.OneWay → ∀ calls : List Streams, NothingRounded p calls →
      Alike (p.SameClose p.condense) (ofProgram p) (ofProgram p.condense) calls := by
  refine ⟨fun p calls h => nothingRounded_of_weight_le h calls, fun p hmoves hway calls hp => ?_⟩
  refine alike_condense hp (fun b hb => ?_) fun m hm _ _ _ => (inBounds_of_passes hmoves hm).head
  refine Stretch.condense_act_of_oneWay (hway b hb) ?_ (hp.condensing.of_mem_stretches hb)
  exact fun kind count hx => hmoves.forward (Program.mem_of_mem_stretches hb hx)

/-- Moves that are stopped at the start of the tape and, in a second stretch, at its end, with
changes of a cell that cancel between them; the program ends at a stray bracket, so that the second
run call fails there as the first does. -/
theorem condense_alike_of_oneWay_stopped :
    let p : Program :=
      [.counted .left 3, .counted .add 1, .counted .sub 1, .counted .left 4, .plain .input,
        .counted .right 20000, .counted .right 20000, .plain .output, .plain .closeLoop]
    let c : Streams :=
      { In := Input.Script, Out := Output.Discard, input := ⟨[.value 7]⟩, output := {} }
    p.condense = [.counted .left 7, .plain .input, .counted .right 40000, .plain .output,
        .plain .closeLoop] ∧
      p.MovesNonneg ∧ p.OneWay ∧ NothingRounded p [c, .silent] ∧
      Alike (p.SameClose p.condense) (ofProgram p) (ofProgram p.condense) [c, .silent] := by
  intro p c
  have hmoves : p.MovesNonneg := by
    intro count h
    have hcount : (count = 3 ∨ count = 4) ∨ count = 20000 := by simpa [p] using h
    omega
  have hway : p.OneWay := by decide
  obtain ⟨hsmall, halike⟩ := condense_alike_of_oneWay
  have hrounded : NothingRounded p [c, .silent] := hsmall p _ (by decide)
  exact ⟨by decide, hmoves, hway, hrounded, halike p hmoves hway _ hrounded⟩

/-- **Where a sum is rounded, a condensed program does something else,** though it does not move at all. -/
theorem condense_alike_of_oneWay_not_rounded :
    let p : Program := [.counted .sub (2 ^ 53 - 1), .counted .sub 2, .plain .output]
    p.MovesNonneg ∧ p.OneWay ∧
      ¬ Alike (p.SameClose p.condense) (ofProgram p) (ofProgram p.condense) [.silent] := by
  intro p
  have hmoves : p.MovesNonneg := by
    intro count h
    simp [p] at h
  refine ⟨hmoves, by decide, not_alike_condense_output (b := [(.sub, 2 ^ 53 - 1), (.sub, 2)]) ?_⟩
  have hcondense : Stretch.condense [(.sub, 2 ^ 53 - 1), (.sub, 2)] = [(.sub, 2 ^ 53)] := by decide
  have hraw : (Stretch.act [(.sub, 2 ^ 53 - 1), (.sub, 2)] Tape.blank).current = 255 :=
    Tape.current_add_add_blank _ _
  have hfused : (Stretch.act [(.sub, 2 ^ 53)] Tape.blank).current = 0 :=
    Tape.current_add_blank _
  rw [hcondense, hraw, hfused]
  decide

end Session

end TapeLang
