import Mathlib.Algebra.Ring.Nat
import TapeLang.Count

/-!
# Rounded sums

A sum within the limit is exact (`Count.exact_of_le`). Beyond it, what is rounded is off by half the
distance between two numbers at most (`Count.two_mul_natAbs_round_sub_le`), keeps its sign
(`Count.sign_round`) and does not come back within the limit (`Count.limit_le_round`).

That is all the proofs about sums need. A sum that is cut off at the edge of the tape may be rounded
without any difference (`Count.max_sum_zero`, `Count.min_sum`), and counting one by one comes to a
halt at the limit (`Count.sum_one`).
-/

namespace TapeLang

namespace Count

variable {m n : Int}

lemma limit_eq : limit = 2 ^ 53 :=
  Nat.one_shiftLeft 53

lemma spacing_eq (n : Nat) : spacing n = 2 ^ (n.log2 - 52) :=
  Nat.one_shiftLeft _

lemma limit_lt_infinity : limit < infinity := by
  decide

/-! ## Within the limit -/

lemma sum_of_finite (hm : m.natAbs < infinity) (hn : n.natAbs < infinity) :
    sum m n = round (m + n) := by
  rw [sum, if_neg (Nat.not_le_of_lt hm), if_neg (Nat.not_le_of_lt hn)]

lemma exact_of_le (hm : m.natAbs ≤ limit) (hn : n.natAbs ≤ limit) (h : (m + n).natAbs ≤ limit) :
    Exact m n := by
  have hlimit := limit_lt_infinity
  refine ⟨Nat.lt_of_le_of_lt h hlimit, ?_⟩
  rw [sum_of_finite (Nat.lt_of_le_of_lt hm hlimit) (Nat.lt_of_le_of_lt hn hlimit), round, if_pos h]

/-! ## Beyond the limit -/

lemma spacing_pos (n : Nat) : 0 < spacing n := by
  rw [spacing_eq]
  exact Nat.two_pow_pos _

/-- The nearest multiple is off by half a unit at most. -/
lemma nearest_mul_bounds {unit : Nat} (h : 0 < unit) (n : Nat) :
    2 * n ≤ 2 * (nearest n unit * unit) + unit ∧ 2 * (nearest n unit * unit) ≤ 2 * n + unit := by
  have hdiv := Nat.div_add_mod' n unit
  have hrest := Nat.mod_lt n h
  simp only [nearest]
  split
  · omega
  · rw [Nat.add_one_mul (n / unit)]
    omega

/-- A rounded integer that is not infinite is off by half the distance between numbers at most. -/
theorem two_mul_natAbs_round_sub_le (h : (round n).natAbs < infinity) :
    2 * (round n - n).natAbs ≤ spacing n.natAbs := by
  by_cases hin : n.natAbs ≤ limit
  · simp [round, hin]
  have hne : n ≠ 0 := by
    rintro rfl
    exact hin (Nat.zero_le _)
  have hbounds := nearest_mul_bounds (spacing_pos n.natAbs) n.natAbs
  have hsign : n.sign = 1 ∨ n.sign = -1 := by
    rcases Int.lt_or_gt_of_ne hne with hn | hn
    · exact .inr (Int.sign_eq_neg_one_of_neg hn)
    · exact .inl (Int.sign_eq_one_of_pos hn)
  have hn := n.sign_mul_natAbs
  rw [round, if_neg hin] at h ⊢
  rcases hsign with hs | hs <;> rw [hs] at hn h ⊢ <;> omega

lemma div_le_nearest (n unit : Nat) : n / unit ≤ nearest n unit := by
  simp only [nearest]
  split <;> omega

lemma limit_le_nearest_mul {n : Nat} (h : limit < n) :
    limit ≤ nearest n (spacing n) * spacing n := by
  have hn : n ≠ 0 := Nat.ne_of_gt (Nat.zero_lt_of_lt h)
  have hlog : 53 ≤ n.log2 := (Nat.le_log2 hn).mpr (Nat.le_of_lt (limit_eq ▸ h))
  -- the power of two below `n` has 53 bits in units of the spacing
  have hsplit : 2 ^ n.log2 = 2 ^ 52 * spacing n := by
    rw [spacing_eq, ← Nat.pow_add]
    congr 1
    omega
  have hquotient : 2 ^ 52 ≤ n / spacing n := by
    rw [Nat.le_div_iff_mul_le (spacing_pos n), ← hsplit]
    exact Nat.log2_self_le hn
  calc limit = 2 ^ 53 := limit_eq
    _ ≤ 2 ^ n.log2 := Nat.pow_le_pow_right (by decide) hlog
    _ = 2 ^ 52 * spacing n := hsplit
    _ ≤ nearest n (spacing n) * spacing n :=
      Nat.mul_le_mul_right _ (Nat.le_trans hquotient (div_le_nearest n _))

lemma limit_le_min_infinity {n : Nat} (h : limit < n) :
    limit ≤ min (nearest n (spacing n) * spacing n) infinity :=
  Nat.le_min.mpr ⟨limit_le_nearest_mul h, Nat.le_of_lt limit_lt_infinity⟩

/-- What is not within the limit is not brought back there. -/
lemma limit_le_round (h : limit < n.natAbs) : limit ≤ (round n).natAbs := by
  have hn : n ≠ 0 := by
    rintro rfl
    exact absurd h (by decide)
  rw [round, if_neg (Nat.not_le_of_lt h), Int.natAbs_mul, Int.natAbs_sign_of_ne_zero hn, Nat.one_mul]
  exact limit_le_min_infinity h

lemma sign_round (n : Int) : (round n).sign = n.sign := by
  unfold round
  split
  · rfl
  · rename_i h
    have hlimit : 0 < limit := by decide
    have hpos := Nat.lt_of_lt_of_le hlimit (limit_le_min_infinity (Nat.lt_of_not_le h))
    rw [Int.sign_mul, Int.sign_sign, Int.sign_natCast_of_ne_zero (Nat.ne_of_gt hpos), Int.mul_one]

lemma round_pos (h : 0 < n) : 0 < round n := by
  rw [← Int.sign_eq_one_iff_pos, sign_round, Int.sign_eq_one_iff_pos]
  exact h

lemma round_neg (h : n < 0) : round n < 0 := by
  rw [← Int.sign_eq_neg_one_iff_neg, sign_round, Int.sign_eq_neg_one_iff_neg]
  exact h

lemma sum_cases (m n : Int) :
    infinity ≤ m.natAbs ∧ sum m n = m ∨ infinity ≤ n.natAbs ∧ sum m n = n ∨
      sum m n = round (m + n) := by
  unfold sum
  split
  · rename_i hm
    exact .inl ⟨hm, rfl⟩
  · split
    · rename_i hn
      exact .inr (.inl ⟨hn, rfl⟩)
    · exact .inr (.inr rfl)

lemma sum_pos (hm : 0 < m) (hn : 0 < n) : 0 < sum m n := by
  have hround := round_pos (Int.add_pos hm hn)
  obtain ⟨-, h⟩ | ⟨-, h⟩ | h := sum_cases m n <;> omega

/-! ## Sums that are cut off

Where a sum is brought below or above a bound that is within the limit, it makes no difference
that it is rounded. -/

lemma max_sum_zero (hm : 0 ≤ m) (hlimit : m ≤ limit) (hn : n ≤ 0) :
    max (sum m n) 0 = max (m + n) 0 := by
  rcases Nat.lt_or_ge limit n.natAbs with hout | hin
  · have hinfinity := limit_lt_infinity
    have hround : round (m + n) < 0 := round_neg (by omega)
    have hneg : sum m n < 0 := by
      obtain ⟨h, -⟩ | ⟨-, h⟩ | h := sum_cases m n <;> omega
    omega
  · rw [(exact_of_le (by omega) hin (by omega)).sum_eq]

lemma min_sum {bound : Int} (hm : 0 ≤ m) (hn : 0 ≤ n) (hbound : bound ≤ limit) :
    min (sum m n) bound = min (m + n) bound := by
  rcases Nat.lt_or_ge limit (m + n).natAbs with hout | hin
  · have hinfinity := limit_lt_infinity
    have hround := limit_le_round hout
    have hpos : 0 < round (m + n) := round_pos (by omega)
    have hlarge : limit ≤ sum m n := by
      obtain ⟨h, hsum⟩ | ⟨h, hsum⟩ | h := sum_cases m n <;> omega
    omega
  · rw [(exact_of_le (by omega) (by omega) hin).sum_eq]

/-! ## Counting up -/

/-- Counting one by one goes as far as the limit and stays there. -/
lemma sum_one (h : 0 < m) (hm : m ≤ limit) : sum m 1 = min (m + 1) limit := by
  rcases Int.lt_or_eq_of_le hm with hlt | rfl
  · rw [(exact_of_le (by omega) (by decide) (by omega)).sum_eq]
    omega
  · decide

end Count

end TapeLang
