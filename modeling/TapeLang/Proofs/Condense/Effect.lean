import Mathlib.Algebra.BigOperators.Group.List.Basic
import Mathlib.Logic.Function.Basic
import TapeLang.Proofs.Condense.Stretches

/-!
# What a stretch amounts to

On a tape that has no ends and whose cells hold integers nothing is stopped and nothing wraps around.
There a stretch of counted instructions amounts to two things, its `Effect`: how far it moves the head
in all, and by how much it changes each cell in all. Cells are told by their distance from where the
head was in the beginning.

Effects are multiplied by carrying out the one behind the other, and this is where the distances
matter: what the second changes at a distance is at another distance from where the first began. With
that they form a monoid, and a stretch is the product of its instructions (`Stretch.effect`,
`Stretch.actOpen_eq`).

The rules for two neighbours are equations between such products, whatever the counts are, as long as
counts are added up exactly (`Counted.lawful_effect`). So condensing keeps the effect of every stretch in
which no sum is rounded, and it leaves plain instructions alone: `Program.condense_keeps_effects`. A sum
that is rounded is lost to the effect (`Program.condense_keeps_effects_not_rounded`). On the tape that the
machine has, keeping the effect is not enough for the two to do the same, since a head may be stopped on
its way.
-/

namespace TapeLang

/-! ## Effects -/

/-- The effect of counted instructions on a tape without ends that holds integers. -/
@[ext] structure Effect where
  /-- How far the head is moved, to the right if this is positive. -/
  shift : Int
  /-- How much is added to the cell at a distance from where the head was. -/
  change : Int → Int

namespace Effect

/-- No effect. -/
instance : One Effect := ⟨⟨0, fun _ => 0⟩⟩

/-- One effect and another behind it, which begins where the first has moved the head. -/
instance : Mul Effect :=
  ⟨fun e f => ⟨e.shift + f.shift, fun x => e.change x + f.change (x - e.shift)⟩⟩

@[simp] lemma shift_one : (1 : Effect).shift = 0 := rfl

@[simp] lemma change_one (x : Int) : (1 : Effect).change x = 0 := rfl

@[simp] lemma shift_mul (e f : Effect) : (e * f).shift = e.shift + f.shift := rfl

@[simp] lemma change_mul (e f : Effect) (x : Int) :
    (e * f).change x = e.change x + f.change (x - e.shift) := rfl

instance : Monoid Effect where
  mul_assoc e f g := by
    ext x
    · exact Int.add_assoc ..
    · simp [Int.add_assoc, Int.sub_sub]
  one_mul e := by
    ext x
    · exact Int.zero_add _
    · simp
  mul_one e := by
    ext x
    · exact Int.add_zero _
    · simp

end Effect

/-- A move of the head. -/
def Effect.move (d : Int) : Effect :=
  ⟨d, fun _ => 0⟩

/-- A change of the cell under the head. -/
def Effect.here (n : Int) : Effect :=
  ⟨0, fun x => if x = 0 then n else 0⟩

lemma Effect.move_mul_move (d e : Int) : move d * move e = move (d + e) := rfl

lemma Effect.here_mul_here (m n : Int) : here m * here n = here (m + n) := by
  ext x
  · rfl
  · rw [change_mul]
    by_cases hx : x = 0 <;> simp [here, hx]

@[simp] lemma Effect.move_zero : move 0 = 1 := rfl

@[simp] lemma Effect.here_zero : here 0 = 1 := by
  ext x <;> simp [here]

/-- What a counted instruction amounts to. -/
def Counted.effect (kind : Counted) (count : Int) : Effect :=
  match kind with
  | .left => .move (-count)
  | .right => .move count
  | .add => .here count
  | .sub => .here (-count)

/-- What a stretch amounts to. -/
def Stretch.effect (b : Stretch) : Effect :=
  (b.map fun x => x.1.effect x.2).prod

lemma Stretch.effect_cons (kind : Counted) (count : Int) (b : Stretch) :
    effect ((kind, count) :: b) = kind.effect count * effect b := rfl

/-- Two instructions of one kind amount to one with both counts. -/
lemma Counted.effect_mul_effect (kind : Counted) (m n : Int) :
    kind.effect m * kind.effect n = kind.effect (m + n) := by
  cases kind with
  | left => rw [effect, effect, effect, Effect.move_mul_move, Int.neg_add]
  | right => exact Effect.move_mul_move m n
  | add => exact Effect.here_mul_here m n
  | sub => rw [effect, effect, effect, Effect.here_mul_here, Int.neg_add]

/-- The opposite kind amounts to the same with the opposite count. -/
lemma Counted.effect_inverse (k : Counted) (n : Int) : k.inverse.effect n = k.effect (-n) := by
  cases k with
  | left => rw [inverse, effect, effect, Int.neg_neg]
  | right => rfl
  | add => rfl
  | sub => rw [inverse, effect, effect, Int.neg_neg]

lemma Counted.effect_zero (k : Counted) : k.effect 0 = 1 := by
  cases k with
  | left => exact Effect.move_zero
  | right => exact Effect.move_zero
  | add => exact Effect.here_zero
  | sub => exact Effect.here_zero

/-- Only a count of zero amounts to nothing. -/
lemma Counted.effect_eq_one_iff {k : Counted} {n : Int} : k.effect n = 1 ↔ n = 0 := by
  constructor
  · intro h
    have hshift := congrArg Effect.shift h
    have hchange := congrFun (congrArg Effect.change h) 0
    cases k with
    | left => exact Int.neg_eq_zero.mp hshift
    | right => exact hshift
    | add => exact hchange
    | sub => exact Int.neg_eq_zero.mp hchange
  · rintro rfl
    exact k.effect_zero

/-- Two instructions of opposite kinds with one count amount to nothing. -/
lemma Counted.effect_mul_effect_inverse (kind : Counted) (n : Int) :
    kind.effect n * kind.inverse.effect n = 1 := by
  rw [effect_inverse, effect_mul_effect, Int.add_right_neg, effect_zero]

/-- Fusing and cancelling keep effects, whatever stands before. -/
theorem Counted.lawful_effect :
    Counted.Lawful (fun kind count e => e * kind.effect count) (fun _ _ _ => True) where
  fuse := by
    intro k m n e _ _
    exact ⟨trivial, by rw [mul_assoc, effect_mul_effect]⟩
  cancel := by
    intro k n e _ _
    rw [mul_assoc, effect_mul_effect_inverse, mul_one]

lemma Stretch.actAs_effect (b : Stretch) (e : Effect) :
    b.actAs (fun kind count e => e * kind.effect count) e = e * b.effect := by
  induction b generalizing e with
  | nil => exact (mul_one e).symm
  | cons x b ih =>
    obtain ⟨kind, count⟩ := x
    rw [actAs_cons, ih, effect_cons, mul_assoc]

/-- **Condensing keeps what a stretch amounts to,** if no sum is rounded. -/
theorem Stretch.effect_condense {b : Stretch} (h : Program.Unrounded b.instrs) :
    b.condense.effect = b.effect := by
  have hact := (condense_spec Counted.lawful_effect h (allowsAs_of_forall (by simp) b 1)).2
  rwa [actAs_effect, actAs_effect, one_mul, one_mul] at hact

/-! ## The tape without ends -/

/-- A tape without ends, whose cells hold integers. -/
@[ext] structure OpenTape where
  /-- The cells. -/
  cells : Int → Int
  /-- The place of the head. -/
  head : Int

/-- What a counted instruction does to a tape without ends. -/
def Counted.actOpen (kind : Counted) (count : Int) (t : OpenTape) : OpenTape :=
  match kind with
  | .left => { t with head := t.head - count }
  | .right => { t with head := t.head + count }
  | .add => { t with cells := Function.update t.cells t.head (t.cells t.head + count) }
  | .sub => { t with cells := Function.update t.cells t.head (t.cells t.head - count) }

/-- What a stretch does to a tape without ends. -/
def Stretch.actOpen (b : Stretch) (t : OpenTape) : OpenTape :=
  b.actAs Counted.actOpen t

/-- The tape after an effect. -/
def Effect.apply (e : Effect) (t : OpenTape) : OpenTape where
  cells := fun y => t.cells y + e.change (y - t.head)
  head := t.head + e.shift

@[simp] lemma Effect.apply_one (t : OpenTape) : Effect.apply 1 t = t := by
  ext y <;> simp [apply]

lemma Effect.apply_mul (e f : Effect) (t : OpenTape) : (e * f).apply t = f.apply (e.apply t) := by
  ext y <;> simp [apply, Int.add_assoc, Int.sub_sub]

lemma Effect.apply_here (n : Int) (t : OpenTape) : (here n).apply t =
    { t with cells := Function.update t.cells t.head (t.cells t.head + n) } := by
  ext y
  · by_cases hy : y = t.head
    · simp [apply, here, hy]
    · simp [apply, here, hy, Int.sub_eq_zero]
  · simp [apply, here]

/-- An instruction does to a tape without ends what it amounts to. -/
lemma Counted.actOpen_eq (kind : Counted) (count : Int) (t : OpenTape) :
    kind.actOpen count t = (kind.effect count).apply t := by
  cases kind with
  | left => simp [actOpen, effect, Effect.apply, Effect.move, Int.sub_eq_add_neg]
  | right => simp [actOpen, effect, Effect.apply, Effect.move]
  | add => exact (Effect.apply_here count t).symm
  | sub => exact (Effect.apply_here (-count) t).symm

/-- **A stretch does to a tape without ends what it amounts to.** -/
theorem Stretch.actOpen_eq (b : Stretch) (t : OpenTape) : b.actOpen t = b.effect.apply t := by
  induction b generalizing t with
  | nil => exact (Effect.apply_one t).symm
  | cons x b ih =>
    obtain ⟨kind, count⟩ := x
    rw [effect_cons, Effect.apply_mul, ← Counted.actOpen_eq, ← ih]
    rfl

/-! ## The effects of a program -/

namespace Program

/-- The plain instructions of a program in order. -/
def plains : Program → List Plain
  | [] => []
  | .plain k :: p => k :: plains p
  | .counted .. :: p => plains p

/-- What the stretches of a program amount to, in order. -/
def effects (p : Program) : List Effect :=
  p.stretches.map Stretch.effect

@[simp] lemma plains_counted (kind : Counted) (count : Int) (p : Program) :
    plains (.counted kind count :: p) = plains p := rfl

@[simp] lemma plains_plain (k : Plain) (p : Program) : plains (.plain k :: p) = k :: plains p := rfl

lemma plains_instrs_append (b : Stretch) (p : Program) : plains (b.instrs ++ p) = plains p := by
  induction b with
  | nil => rfl
  | cons x b ih => exact ih

/-- Condensing leaves plain instructions alone. -/
lemma plains_condense (p : Program) : p.condense.plains = p.plains := by
  induction p using stretch_induction with
  | last b =>
    have hb := plains_instrs_append b []
    have hb' := plains_instrs_append b.condense []
    rw [List.append_nil] at hb hb'
    rw [b.condense_instrs, hb, hb']
  | plain b k q ih =>
    rw [condense_instrs_append, plains_instrs_append, plains_instrs_append, plains_plain, plains_plain,
      ih]

lemma effects_condense {p : Program} (h : p.Unrounded) : p.condense.effects = p.effects := by
  rw [effects, effects, stretches_condense, List.map_map]
  exact List.map_congr_left fun b hb => Stretch.effect_condense (h.of_mem_stretches hb)

/-- **Condensing keeps the effect of every stretch** if no sum that it forms is rounded, whatever the
counts are otherwise; none is if all counts together are within the limit. The plain instructions stay
what they are in any case. Between any two of them, before the first and behind the last, the head is
moved as far as before and each cell is changed by as much, as integers. So each stretch does the same to
every tape without ends. -/
theorem condense_keeps_effects (p : Program) :
    p.condense.plains = p.plains ∧
      (p.weight ≤ Count.limit → p.Unrounded) ∧
      (p.Unrounded → p.condense.effects = p.effects ∧
        p.condense.stretches.map Stretch.actOpen = p.stretches.map Stretch.actOpen) := by
  refine ⟨plains_condense p, unrounded_of_weight_le, fun h => ⟨effects_condense h, ?_⟩⟩
  have hact : Stretch.actOpen = Effect.apply ∘ Stretch.effect := by
    funext b t
    exact b.actOpen_eq t
  rw [hact, ← List.map_map, ← List.map_map]
  exact congrArg (List.map Effect.apply) (effects_condense h)

/-- Two counts that are fused to the limit and cancel with what stands before them, between two moves
that cancel then. -/
theorem condense_keeps_effects_limit :
    let p : Program := [.counted .right 7, .counted .add (2 ^ 53), .counted .sub (2 ^ 53 - 3),
      .counted .sub 3, .counted .left 7, .plain .output, .counted .add 0, .counted .right (-(2 ^ 80))]
    p.condense = [.plain .output, .counted .add 0, .counted .right (-(2 ^ 80))] ∧ p.Unrounded ∧
      p.condense.plains = p.plains ∧ p.condense.effects = p.effects := by
  intro p
  have hp : p.Unrounded := by decide
  obtain ⟨hplains, -, hkept⟩ := condense_keeps_effects p
  exact ⟨by decide, hp, hplains, (hkept hp).1⟩

/-- **A rounded sum is lost to the effect.** -/
theorem condense_keeps_effects_not_rounded :
    let p : Program := [.counted .add (2 ^ 53 - 1), .counted .add 2]
    p.condense = [.counted .add (2 ^ 53)] ∧
      ¬ (p.condense.plains = p.plains ∧ p.condense.effects = p.effects) := by
  intro p
  refine ⟨by decide, ?_⟩
  rintro ⟨-, h⟩
  have hchange := congrArg (List.map fun e => e.change 0) h
  revert hchange
  decide

end Program

end TapeLang
