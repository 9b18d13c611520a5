import Mathlib.Tactic.Common
import TapeLang.Machine
import TapeLang.Proofs.Rounding

/-!
# Laws of the tape

What a counted instruction does is a sum of two numbers that is then brought back to the tape or to
eight bits. Sums of numbers may be rounded and follow no law, so the laws are those of
`Counted.actExactly`, which adds up integers. An instruction does the same where its sum is not rounded
(`Counted.Exact`), if the head is on the tape and a move goes the way it says: `Counted.act_eq`.

Changes of one cell add up, whatever they are, because they are taken modulo 256, and for the same
reason amounts that are equal modulo 256 make the same change. Moves do not add up: a head that is
stopped at an end of the tape has lost the rest of its way. They do if they go in the same direction,
stopped or not: a head that is stopped once is stopped where it would have been stopped in the end. A
move back undoes a move that is not stopped. How far a move would lead beyond the tape makes no
difference (`Counted.actExactly_min`).
-/

namespace TapeLang

/-! ## Integers as octets -/

namespace Octet

lemma toNat_ofInt (v : Int) : ((UInt8.ofInt v).toNat : Int) = v % 256 := by
  rw [UInt8.ofInt, UInt8.toNat_ofNat']
  omega

lemma ofInt_toNat (b : UInt8) : UInt8.ofInt b.toNat = b := by
  refine UInt8.toNat_inj.mp ?_
  have hb := toNat_ofInt b.toNat
  have hlt := b.toNat_lt
  omega

lemma ofInt_emod (v : Int) : UInt8.ofInt (v % 256) = UInt8.ofInt v := by
  refine UInt8.toNat_inj.mp ?_
  have hv := toNat_ofInt v
  have hmod := toNat_ofInt (v % 256)
  omega

end Octet

namespace Tape

variable {t : Tape}

/-! ## The blank tape -/

lemma onTape_blank : blank.OnTape :=
  ⟨Int.le_refl 0, by decide⟩

lemma size_cells_blank : blank.cells.size = length :=
  Array.size_replicate

@[simp] lemma current_blank : blank.current = 0 := by
  simp [current, blank, length]

lemma current_put_blank (v : UInt8) : (blank.put v).current = v :=
  current_put blank v onTape_blank size_cells_blank

lemma current_add (ht : t.OnTape) (hsize : t.cells.size = length) (n : Int) :
    (t.add n).current = UInt8.ofInt (Count.sum t.current.toNat n) :=
  current_put t _ ht hsize

lemma current_add_blank (n : Int) : (blank.add n).current = UInt8.ofInt (Count.sum 0 n) := by
  rw [current_add onTape_blank size_cells_blank, current_blank]
  rfl

/-- The cell under the head after two changes of the blank tape. -/
lemma current_add_add_blank (m n : Int) :
    ((blank.add m).add n).current =
      UInt8.ofInt (Count.sum (UInt8.ofInt (Count.sum 0 m)).toNat n) := by
  have ht : (blank.add m).OnTape := by
    rw [OnTape, head_add]
    exact onTape_blank
  rw [current_add ht ((size_cells_add blank m).trans size_cells_blank), current_add_blank]

/-! ## Changes of the cell under the head -/

/-- Where the head is off the tape nothing is put. -/
lemma put_of_off (h : ¬ (0 ≤ t.head ∧ t.head.toNat < t.cells.size)) (v : UInt8) : t.put v = t := by
  unfold put
  split
  · rename_i hlo
    have hhi : t.cells.size ≤ t.head.toNat := Nat.le_of_not_lt fun hlt => h ⟨hlo, hlt⟩
    rw [Array.setIfInBounds_eq_of_size_le hhi]
  · rfl

lemma current_put_of_on (h : 0 ≤ t.head ∧ t.head.toNat < t.cells.size) (v : UInt8) :
    (t.put v).current = v := by
  simp [current, put, h]

lemma put_put (t : Tape) (v w : UInt8) : (t.put v).put w = t.put w := by
  by_cases h : 0 ≤ t.head
  · simp [put, h]
  · simp [put, h]

lemma put_current (t : Tape) : t.put t.current = t := by
  by_cases h : 0 ≤ t.head ∧ t.head.toNat < t.cells.size
  · obtain ⟨cells, head⟩ := t
    obtain ⟨hlo, hhi⟩ := h
    have hcell : cells.setIfInBounds head.toNat (cells.getD head.toNat 0) = cells := by
      apply Array.ext
      · simp
      · intro i hi hi'
        rw [Array.getElem_setIfInBounds]
        split
        · subst_vars
          simp
        · rfl
    simp only [put, current, if_pos hlo, hcell]
  · exact put_of_off h _

/-- Changes the cell under the head by an octet. -/
def change (t : Tape) (b : UInt8) : Tape :=
  t.put (t.current + b)

@[simp] lemma head_change (t : Tape) (b : UInt8) : (t.change b).head = t.head :=
  head_put t _

lemma change_change (t : Tape) (a b : UInt8) : (t.change a).change b = t.change (a + b) := by
  by_cases h : 0 ≤ t.head ∧ t.head.toNat < t.cells.size
  · rw [change, change, current_put_of_on h, put_put, UInt8.add_assoc, change]
  · simp only [change, put_of_off h]

@[simp] lemma change_zero (t : Tape) : t.change 0 = t := by
  rw [change, UInt8.add_zero, put_current]

/-- A sum that is not rounded is one of octets. -/
lemma add_eq_change {n : Int} (h : Count.Exact t.current.toNat n) :
    t.add n = t.change (UInt8.ofInt n) := by
  rw [add, h.sum_eq, UInt8.ofInt_add, Octet.ofInt_toNat, change]

/-! ## Moves -/

lemma head_moveLeft (ht : t.OnTape) {n : Int} (hn : 0 ≤ n) :
    (t.moveLeft n).head = max (t.head - n) 0 := by
  obtain ⟨hlo, hhi⟩ := ht
  have hlimit : length ≤ Count.limit := by decide
  exact Count.max_sum_zero hlo (by omega) (by omega)

lemma head_moveRight (ht : t.OnTape) {n : Int} (hn : 0 ≤ n) :
    (t.moveRight n).head = min (t.head + n) (length - 1) :=
  Count.min_sum ht.1 hn (by decide)

end Tape

/-! ## Counted instructions -/

/-- The instruction is no move against its own direction. -/
def Counted.Forward (kind : Counted) (count : Int) : Prop :=
  kind = .left ∨ kind = .right → 0 ≤ count

/-- The sum of a cell and a count that the instruction makes, if it makes one, is not rounded. -/
def Counted.Exact (kind : Counted) (count : Int) (t : Tape) : Prop :=
  match kind with
  | .left => True
  | .right => True
  | .add => Count.Exact t.current.toNat count
  | .sub => Count.Exact t.current.toNat (-count)

/-- What a counted instruction does to a tape if nothing is rounded. -/
def Counted.actExactly (kind : Counted) (count : Int) (t : Tape) : Tape :=
  match kind with
  | .left => { t with head := max (t.head - count) 0 }
  | .right => { t with head := min (t.head + count) (Tape.length - 1) }
  | .add => t.change (UInt8.ofInt count)
  | .sub => t.change (UInt8.ofInt (-count))

namespace Counted

variable {kind : Counted} {count m n : Int} {t : Tape}

/-- **Where nothing is rounded, integers are added up.** -/
theorem act_eq (ht : t.OnTape) (hcount : kind.Forward count) (h : kind.Exact count t) :
    kind.act count t = kind.actExactly count t := by
  cases kind with
  | left =>
    have hhead := Tape.head_moveLeft ht (hcount (.inl rfl))
    rw [act, actExactly, ← hhead]
    rfl
  | right =>
    have hhead := Tape.head_moveRight ht (hcount (.inr rfl))
    rw [act, actExactly, ← hhead]
    rfl
  | add => exact Tape.add_eq_change h
  | sub => exact Tape.add_eq_change h

/-- A sum that stays within the limit for every cell is not rounded. -/
lemma exact_of_le (h : count.natAbs + 255 ≤ Count.limit) (kind : Counted) (t : Tape) :
    kind.Exact count t := by
  have hcell := t.current.toNat_lt
  cases kind with
  | left => trivial
  | right => trivial
  | add => exact Count.exact_of_le (by omega) (by omega) (by omega)
  | sub => exact Count.exact_of_le (by omega) (by omega) (by omega)

/-- A counted instruction keeps the head on the tape, unless it is a move against its own
direction. -/
lemma onTape_act (ht : t.OnTape) (hcount : kind.Forward count) : (kind.act count t).OnTape := by
  obtain ⟨hlo, hhi⟩ := id ht
  rw [Tape.length] at hhi
  cases kind with
  | left =>
    have hn : 0 ≤ count := hcount (.inl rfl)
    rw [act, Tape.OnTape, Tape.head_moveLeft ht hn, Tape.length]
    omega
  | right =>
    have hn : 0 ≤ count := hcount (.inr rfl)
    rw [act, Tape.OnTape, Tape.head_moveRight ht hn, Tape.length]
    omega
  | add =>
    rw [act, Tape.OnTape, Tape.head_add]
    exact ht
  | sub =>
    rw [act, Tape.OnTape, Tape.head_add]
    exact ht

/-! ### What they do if nothing is rounded -/

/-- Two changes of one kind are one change by both amounts. -/
lemma actExactly_actExactly_of_change (h : kind = .add ∨ kind = .sub) (m n : Int) (t : Tape) :
    kind.actExactly n (kind.actExactly m t) = kind.actExactly (m + n) t := by
  rcases h with rfl | rfl
  · rw [actExactly, actExactly, actExactly, Tape.change_change, UInt8.ofInt_add]
  · rw [actExactly, actExactly, actExactly, Tape.change_change, Int.neg_add, UInt8.ofInt_add]

/-- Two moves in one direction are one move by both ways. -/
lemma actExactly_actExactly_of_move (h : kind = .left ∨ kind = .right) (hn : 0 ≤ n) (m : Int)
    (t : Tape) : kind.actExactly n (kind.actExactly m t) = kind.actExactly (m + n) t := by
  rcases h with rfl | rfl
  · have hhead : max (max (t.head - m) 0 - n) 0 = max (t.head - (m + n)) 0 := by omega
    rw [actExactly, actExactly, actExactly, hhead]
  · have hhead : min (min (t.head + m) (Tape.length - 1) + n) (Tape.length - 1) =
        min (t.head + (m + n)) (Tape.length - 1) := by omega
    rw [actExactly, actExactly, actExactly, hhead]

/-- What is the same modulo 256 makes the same change. -/
lemma actExactly_eq_of_emod_eq (h : kind = .add ∨ kind = .sub) (hmod : m % 256 = n % 256)
    (t : Tape) : kind.actExactly m t = kind.actExactly n t := by
  rcases h with rfl | rfl
  · rw [actExactly, actExactly, ← Octet.ofInt_emod, hmod, Octet.ofInt_emod]
  · have hneg : (-m) % 256 = (-n) % 256 := by omega
    rw [actExactly, actExactly, ← Octet.ofInt_emod, hneg, Octet.ofInt_emod]

/-- A move through the whole tape is as good as one that is longer. -/
lemma actExactly_min (h : kind = .left ∨ kind = .right) (ht : t.OnTape) (n : Int) :
    kind.actExactly (min n (Tape.length - 1)) t = kind.actExactly n t := by
  obtain ⟨hlo, hhi⟩ := ht
  rcases h with rfl | rfl
  · have hhead : max (t.head - min n (Tape.length - 1)) 0 = max (t.head - n) 0 := by omega
    rw [actExactly, actExactly, hhead]
  · have hhead : min (t.head + min n (Tape.length - 1)) (Tape.length - 1) =
        min (t.head + n) (Tape.length - 1) := by omega
    rw [actExactly, actExactly, hhead]

/-- A change in one direction is one in the other by the opposite amount. -/
lemma inverse_actExactly_neg (h : kind = .add ∨ kind = .sub) (n : Int) (t : Tape) :
    kind.inverse.actExactly (-n) t = kind.actExactly n t := by
  rcases h with rfl | rfl
  · rw [inverse, actExactly, actExactly, Int.neg_neg]
  · rfl

/-- A change is undone by the opposite change. -/
lemma inverse_actExactly_of_change (h : kind = .add ∨ kind = .sub) (n : Int) (t : Tape) :
    kind.inverse.actExactly n (kind.actExactly n t) = t := by
  have hzero : UInt8.ofInt (n + -n) = 0 := by
    rw [Int.add_right_neg]
    rfl
  rcases h with rfl | rfl
  · rw [inverse, actExactly, actExactly, Tape.change_change, ← UInt8.ofInt_add, hzero,
      Tape.change_zero]
  · rw [inverse, actExactly, actExactly, Tape.change_change, ← UInt8.ofInt_add, Int.add_comm, hzero,
      Tape.change_zero]

end Counted

end TapeLang
