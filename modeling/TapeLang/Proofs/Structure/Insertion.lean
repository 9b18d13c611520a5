import TapeLang.Proofs.Bisimulation
import TapeLang.Proofs.Structure.Block

/-!
# A balanced piece inside a program

If a balanced piece is put into a program, between a front of `k` instructions and the rest, all that
stands in the rest is found later by the length of the piece, and the front is where it was
(`Program.moved`). The scan for a bracket passes over the piece, so it leads from a moved place to a
moved place (`Program.closeIn_insert`, `Program.partner_moved`).

A machine on the smaller program is taken to the larger one by moving its index and its loops
(`Machine.moved`), and the two demand the same (`Machine.demand_moved`). They go on alike with one
exception. A machine that comes to the end of the front is in the smaller program already where the
rest begins, and in the larger one in front of the piece. `Machine.Arrives` says of two machines that
they are moved or at this seam. What becomes of a machine in front of the piece is a matter of the
piece, and not decided here.
-/

namespace TapeLang

namespace Program

variable {p q front piece : Program} {i j k n depth : Nat} {x : Instr}

/-! ## The scan in a longer program -/

/-- A bracket that is found is found in a longer program as well. -/
lemma closeIn_append_of_some (h : closeIn p depth = some j) (q : Program) :
    closeIn (p ++ q) depth = some j := by
  induction p generalizing depth j with
  | nil => cases h
  | cons x p ih =>
    rw [List.cons_append]
    rcases closeIn_cons x depth with hend | ⟨depth', hgo⟩
    · rw [hend] at h
      rw [hend, h]
    · rw [hgo] at h
      obtain ⟨j', hj', rfl⟩ := Option.map_eq_some_iff.mp h
      rw [hgo, ih hj']
      rfl

/-- The scan passes over a balanced program. -/
lemma Balanced.closeIn_append (h : piece.Balanced) (q : Program) (depth : Nat) :
    closeIn (piece ++ q) depth = (closeIn q depth).map (piece.length + ·) := by
  obtain ⟨b, rfl⟩ := (balanced_iff_exists_flatten piece).mp h
  exact closeIn_flatten b q depth

/-! ## Moved places -/

/-- Where the place `i` is found once a piece of `n` instructions has been put in behind the first
`k`. -/
def moved (k n i : Nat) : Nat :=
  if i < k then i else i + n

lemma moved_of_lt (h : i < k) (n : Nat) : moved k n i = i :=
  if_pos h

lemma moved_of_le (h : k ≤ i) (n : Nat) : moved k n i = i + n :=
  if_neg (Nat.not_lt.mpr h)

@[simp] lemma moved_zero (n i : Nat) : moved 0 n i = i + n := rfl

lemma moved_add (h : i ≤ k) (n j : Nat) : moved k n (i + j) = i + moved (k - i) n j := by
  unfold moved
  split_ifs <;> omega

lemma moved_succ (h : i + 1 ≠ k) (n : Nat) : moved k n (i + 1) = moved k n i + 1 := by
  unfold moved
  split_ifs <;> omega

/-- The instructions are the same at moved places. -/
lemma getElem?_moved (front piece rest : Program) (i : Nat) :
    (front ++ (piece ++ rest))[moved front.length piece.length i]? = (front ++ rest)[i]? := by
  rcases Nat.lt_or_ge i front.length with hi | hi
  · rw [moved_of_lt hi, List.getElem?_append_left hi, List.getElem?_append_left hi]
  · have hpiece : i + piece.length - front.length - piece.length = i - front.length := by omega
    rw [moved_of_le hi, List.getElem?_append_right (by omega),
      List.getElem?_append_right (by omega), List.getElem?_append_right hi, hpiece]

/-- The scan finds the moved place of what it would find without the piece. -/
theorem closeIn_insert (h : piece.Balanced) (front rest : Program) (depth : Nat) :
    closeIn (front ++ (piece ++ rest)) depth =
      (closeIn (front ++ rest) depth).map (moved front.length piece.length) := by
  induction front generalizing depth with
  | nil =>
    rw [List.nil_append, List.nil_append, h.closeIn_append]
    congr 1
    funext j
    exact Nat.add_comm piece.length j
  | cons x front ih =>
    rw [List.cons_append, List.cons_append]
    rcases closeIn_cons x depth with hend | ⟨depth', hgo⟩
    · rw [hend, hend, Option.map_some, moved_of_lt (by simp)]
    · rw [hgo, hgo, ih, Option.map_map, Option.map_map]
      congr 1
      funext j
      show moved front.length piece.length j + 1 = moved (front.length + 1) piece.length (j + 1)
      unfold moved
      split_ifs <;> omega

/-- A place of the smaller program and the one of the larger program that corresponds to it: a moved
place, or the one where the piece is put in. -/
def Meets (k n i j : Nat) : Prop :=
  j = moved k n i ∨ i = k ∧ j = k

/-- What comes next corresponds. -/
lemma meets_succ (k n i : Nat) : Meets k n (i + 1) (moved k n i + 1) := by
  by_cases h : i + 1 = k
  · exact .inr ⟨h, by rw [moved_of_lt (by omega), h]⟩
  · exact .inl (moved_succ h n).symm

/-- Behind a place and behind its moved place the scan finds places that correspond. -/
lemma closeIn_drop_moved (h : piece.Balanced) (front rest : Program) (i depth : Nat) :
    ∃ f : Nat → Nat,
      (∀ j, moved front.length piece.length i + 1 + f j =
        moved front.length piece.length (i + 1 + j)) ∧
      closeIn ((front ++ (piece ++ rest)).drop (moved front.length piece.length i + 1)) depth =
        (closeIn ((front ++ rest).drop (i + 1)) depth).map f := by
  rcases Nat.lt_or_ge i front.length with hi | hi
  · -- the piece lies ahead
    refine ⟨moved (front.length - (i + 1)) piece.length, fun j => ?_, ?_⟩
    · rw [moved_of_lt hi, moved_add hi]
    · rw [moved_of_lt hi, List.drop_append_of_le_length hi, List.drop_append_of_le_length hi,
        closeIn_insert h, List.length_drop]
  · -- the same instructions are ahead
    refine ⟨id, fun j => ?_, ?_⟩
    · rw [moved_of_le hi, moved_of_le (by omega), id]
      omega
    · obtain ⟨d, hd⟩ : ∃ d, i + 1 = front.length + d := Nat.exists_eq_add_of_le (by omega)
      have hbehind : i + piece.length + 1 = front.length + (piece.length + d) := by omega
      rw [moved_of_le hi, hbehind, hd, List.drop_length_add_append, List.drop_length_add_append,
        List.drop_length_add_append, Option.map_id, id]

/-- Where a loop is passed over, it leads to places that correspond. -/
lemma partner_moved (h : piece.Balanced) {front rest : Program}
    (ho : (front ++ rest)[i]? = some (.plain .openLoop)) :
    Meets front.length piece.length (partner (front ++ rest).toArray i + 1)
      (partner (front ++ (piece ++ rest)).toArray (moved front.length piece.length i) + 1) := by
  obtain ⟨f, hf, hscan⟩ := closeIn_drop_moved h front rest i 0
  cases hj : closeIn ((front ++ rest).drop (i + 1)) 0 with
  | some j =>
    rw [hj, Option.map_some] at hscan
    rw [partner_of_closeIn_eq_some hj, partner_of_closeIn_eq_some hscan, hf]
    exact meets_succ _ _ _
  | none =>
    rw [hj, Option.map_none] at hscan
    have hlt := lt_length ho
    have hlarge : (front ++ (piece ++ rest)).length = (front ++ rest).length + piece.length := by
      simp only [List.length_append]
      omega
    have hfront : front.length ≤ (front ++ rest).length := by simp
    rw [partner_of_closeIn_eq_none hj, partner_of_closeIn_eq_none hscan, hlarge,
      Nat.sub_add_cancel (by omega), Nat.sub_add_cancel (by omega)]
    exact .inl (moved_of_le hfront _).symm

end Program

namespace Machine

open Program

variable {front piece rest : Program} {k n : Nat} {l m : Machine}

/-- The machine on the larger program that does what `m` does on the smaller one. -/
def moved (k n : Nat) (m : Machine) : Machine where
  tape := m.tape
  pc := Program.moved k n m.pc
  loops := m.loops.map (Program.moved k n)

/-- The machine `l` is `m` on the larger program, or would be if it did not stand in front of the
piece. -/
def Arrives (k n : Nat) (m l : Machine) : Prop :=
  ∃ pc, Meets k n m.pc pc ∧ l = { m.moved k n with pc }

@[simp] lemma tape_moved (k n : Nat) (m : Machine) : (m.moved k n).tape = m.tape := rfl

@[simp] lemma pc_moved (k n : Nat) (m : Machine) : (m.moved k n).pc = Program.moved k n m.pc := rfl

@[simp] lemma loops_moved (k n : Nat) (m : Machine) :
    (m.moved k n).loops = m.loops.map (Program.moved k n) := rfl

lemma loops_moved_cons {start : Nat} {outer : List Nat} (h : m.loops = start :: outer) :
    (m.moved k n).loops = Program.moved k n start :: outer.map (Program.moved k n) := by
  rw [loops_moved, h, List.map_cons]

lemma arrives_moved (k n : Nat) (m : Machine) : Arrives k n m (m.moved k n) :=
  ⟨_, .inl rfl, rfl⟩

/-- Two machines that correspond are moved, unless they are at the seam. -/
lemma Arrives.eq_moved (h : Arrives k n m l) (hm : m.pc ≠ k) : l = m.moved k n := by
  obtain ⟨pc, rfl | ⟨hk, -⟩, rfl⟩ := h
  · rfl
  · exact absurd hk hm

/-- A step that leads to a place leads behind another. -/
lemma Next.pc_pos {code : Array Instr} (h : m.Next code l) : 0 < l.pc := by
  cases h <;> exact Nat.succ_pos _

/-- A moved machine demands what the machine demands. -/
lemma demand_moved (front piece rest : Program) (m : Machine) :
    (m.moved front.length piece.length).demand (front ++ (piece ++ rest)).toArray =
      m.demand (front ++ rest).toArray := by
  unfold demand
  rw [List.getElem?_toArray, List.getElem?_toArray, pc_moved, getElem?_moved, tape_moved,
    loops_moved, List.isEmpty_map]

/-- A moved machine computes what the machine computes, up to the seam. -/
theorem arrives_compute (hpiece : piece.Balanced) (hd : m.demand (front ++ rest).toArray = .compute) :
    Arrives front.length piece.length (m.compute (front ++ rest).toArray)
      ((m.moved front.length piece.length).compute (front ++ (piece ++ rest)).toArray) := by
  have hmoved : ∀ {x : Instr}, (front ++ rest).toArray[m.pc]? = some x →
      (front ++ (piece ++ rest)).toArray[(m.moved front.length piece.length).pc]? = some x := by
    intro x hx
    rw [List.getElem?_toArray] at hx ⊢
    rwa [pc_moved, getElem?_moved]
  have hn := next_compute hd
  generalize m.compute (front ++ rest).toArray = m' at hn ⊢
  cases hn with
  | counted hi =>
    rw [compute_counted (hmoved hi)]
    exact ⟨_, meets_succ _ _ _, rfl⟩
  | skip hi hz =>
    rw [compute_openLoop_of_zero (hmoved hi) hz]
    rw [List.getElem?_toArray] at hi
    exact ⟨_, partner_moved hpiece hi, rfl⟩
  | enter hi hz =>
    rw [compute_openLoop_of_ne (hmoved hi) hz]
    exact ⟨_, meets_succ _ _ _, rfl⟩
  | leave hi hl hz =>
    rw [compute_closeLoop_of_zero (hmoved hi) (loops_moved_cons hl) hz]
    exact ⟨_, meets_succ _ _ _, rfl⟩
  | again hi hl hz =>
    rw [compute_closeLoop_of_ne (hmoved hi) (loops_moved_cons hl) hz]
    exact ⟨_, meets_succ _ _ _, rfl⟩
  | receive hi b =>
    cases hd.symm.trans (demand_eq_read_iff.mpr hi)
  | sent hi =>
    cases hd.symm.trans (demand_eq_write_iff.mpr ⟨hi, rfl⟩)

/-- **A moved machine is level with the machine**, whatever relation there is between two machines that
correspond behind an instruction. -/
theorem level_moved (front rest : Program) (hpiece : piece.Balanced) {R : Machine → Machine → Prop}
    (hself : R m (m.moved front.length piece.length))
    (hR : ∀ m' l, Arrives front.length piece.length m' l → 0 < m'.pc → R m' l) :
    Level (front ++ rest).toArray (front ++ (piece ++ rest)).toArray
      (fun i j => j = Program.moved front.length piece.length i) R m
      (m.moved front.length piece.length) where
  rel := hself
  tape := rfl
  demand := (demand_moved front piece rest m).symm
  stray _ := rfl
  compute hd := hR _ _ (arrives_compute hpiece hd) (next_compute hd).pc_pos
  receive _ v := hR (m.receive v) _ ⟨_, meets_succ _ _ _, rfl⟩ (Nat.succ_pos _)
  sent _ _ := hR m.sent _ ⟨_, meets_succ _ _ _, rfl⟩ (Nat.succ_pos _)

end Machine

end TapeLang
