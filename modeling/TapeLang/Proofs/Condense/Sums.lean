import TapeLang.Proofs.Condense.Counts

/-!
# The sums that condensing forms

Where condensing fuses two instructions it adds up their counts, and the sum may be rounded. Then the
fused instruction does not do what the two did. `Program.sums` are all the sums that are formed while a
program is condensed, in their order and as pairs of counts, those of instructions included that do not
stay. `Program.Unrounded` says that none of them is rounded, and this is what condensing has to be given
in order to keep what a program does.

It can be read off the program: no sum has more than all counts together (`Program.weight`), so if these
are within the limit nothing is rounded (`Program.unrounded_of_weight_le`).
-/

namespace TapeLang

/-- The count of an instruction in size. -/
def Instr.weight : Instr → Nat
  | .counted _ count => count.natAbs
  | .plain _ => 0

namespace Program

/-- The sums that are formed while an instruction settles on a stack. -/
def sumsOn : Program → Instr → List (Int × Int)
  | .counted k m :: below, .counted l n =>
    if k = l then (m, n) :: sumsOn below (.counted k (Count.sum m n)) else []
  | _, _ => []

/-- The sums that are formed while a program settles on a stack, instruction by instruction. -/
def sumsFrom : Program → Program → List (Int × Int)
  | _, [] => []
  | stack, i :: p => sumsOn stack i ++ sumsFrom (settle stack i) p

/-- The sums that are formed while a program is condensed. -/
def sums (p : Program) : List (Int × Int) :=
  sumsFrom [] p

/-- No sum that is formed while the program is condensed is rounded. -/
def Unrounded (p : Program) : Prop :=
  ∀ x ∈ p.sums, Count.Exact x.1 x.2

instance (p : Program) : Decidable p.Unrounded :=
  inferInstanceAs (Decidable (∀ x ∈ p.sums, Count.Exact x.1 x.2))

variable {p stack below : Program} {top i j : Instr}

/-! ## Sums and meetings -/

/-- A sum is formed where two instructions are fused. -/
lemma sumsOn_of_fused (h : top.meet i = .fused j) (below : Program) :
    ∃ k m n, top = .counted k m ∧ i = .counted k n ∧ j = .counted k (Count.sum m n) ∧
      sumsOn (top :: below) i = (m, n) :: sumsOn below j := by
  cases Instr.reduces_of_fused h with
  | fuse k m n => exact ⟨k, m, n, rfl, rfl, rfl, by rw [sumsOn, if_pos rfl]⟩

lemma sumsOn_of_not_fused (h : ∀ j, top.meet i ≠ .fused j) : sumsOn (top :: below) i = [] := by
  cases top with
  | plain k => rfl
  | counted k m =>
    cases i with
    | plain l => rfl
    | counted l n =>
      have hne : k ≠ l := by
        rintro rfl
        exact h _ (by rw [Instr.meet, if_pos rfl])
      rw [sumsOn, if_neg hne]

/-! ## All counts together -/

/-- The counts of a program together, in size. -/
def weight (p : Program) : Nat :=
  (p.map Instr.weight).sum

@[simp] lemma weight_nil : weight [] = 0 := rfl

@[simp] lemma weight_cons (i : Instr) (p : Program) : weight (i :: p) = i.weight + weight p :=
  List.sum_cons

/-- What settles on a stack adds no more to it than its count, and no sum exceeds all of them. -/
lemma exact_sumsOn (stack : Program) (i : Instr) (h : stack.weight + i.weight ≤ Count.limit) :
    (∀ x ∈ sumsOn stack i, Count.Exact x.1 x.2) ∧
      (settle stack i).weight ≤ stack.weight + i.weight := by
  induction stack generalizing i with
  | nil => exact ⟨fun x hx => (nomatch hx), by simp⟩
  | cons top below ih =>
    rw [weight_cons] at h ⊢
    cases hmeet : top.meet i with
    | fused j =>
      obtain ⟨k, m, n, rfl, rfl, rfl, hsums⟩ := sumsOn_of_fused hmeet below
      rw [Instr.weight, Instr.weight] at h ⊢
      have hexact : Count.Exact m n := Count.exact_of_le (by omega) (by omega) (by omega)
      have hfused : (Instr.counted k (Count.sum m n)).weight ≤ m.natAbs + n.natAbs := by
        rw [Instr.weight, hexact.sum_eq]
        exact Int.natAbs_add_le m n
      obtain ⟨hbelow, hweight⟩ := ih (.counted k (Count.sum m n)) (by omega)
      rw [hsums, settle_of_fused hmeet]
      exact ⟨List.forall_mem_cons.mpr ⟨hexact, hbelow⟩, by omega⟩
    | cancelled =>
      rw [settle_of_cancelled hmeet, sumsOn_of_not_fused (by simp [hmeet])]
      exact ⟨fun x hx => (nomatch hx), by omega⟩
    | apart =>
      rw [settle_of_apart hmeet, sumsOn_of_not_fused (by simp [hmeet]), weight_cons, weight_cons]
      exact ⟨fun x hx => (nomatch hx), by omega⟩

lemma exact_sumsFrom (p stack : Program) (h : stack.weight + p.weight ≤ Count.limit) :
    ∀ x ∈ sumsFrom stack p, Count.Exact x.1 x.2 := by
  induction p generalizing stack with
  | nil => exact fun x hx => nomatch hx
  | cons i p ih =>
    rw [weight_cons] at h
    obtain ⟨hi, hweight⟩ := exact_sumsOn stack i (by omega)
    exact List.forall_mem_append.mpr ⟨hi, ih (settle stack i) (by omega)⟩

lemma weight_foldl_settle (p stack : Program) (h : stack.weight + p.weight ≤ Count.limit) :
    (p.foldl settle stack).weight ≤ stack.weight + p.weight := by
  induction p generalizing stack with
  | nil => exact Nat.le_add_right _ _
  | cons i p ih =>
    rw [weight_cons] at h ⊢
    have hi := (exact_sumsOn stack i (by omega)).2
    exact (ih (settle stack i) (by omega)).trans (by omega)

/-- Condensing leaves no more counts than there are. -/
lemma weight_condense_le (h : p.weight ≤ Count.limit) : p.condense.weight ≤ p.weight := by
  have hfold := weight_foldl_settle p [] (by simpa using h)
  rw [weight_nil, Nat.zero_add] at hfold
  rwa [condense, weight, List.map_reverse, List.sum_reverse]

lemma natAbs_le_weight {kind : Counted} {count : Int} (h : .counted kind count ∈ p) :
    count.natAbs ≤ p.weight := by
  induction p with
  | nil => cases h
  | cons i p ih =>
    rw [weight_cons]
    rcases List.mem_cons.mp h with rfl | h
    · exact Nat.le_add_right _ _
    · exact (ih h).trans (Nat.le_add_left _ _)

/-- **Nothing is rounded if all counts together are within the limit.** -/
theorem unrounded_of_weight_le (h : p.weight ≤ Count.limit) : p.Unrounded :=
  exact_sumsFrom p [] (by simpa using h)

lemma AllOnce.weight_le (hp : p.AllOnce) : p.weight ≤ p.length := by
  induction p with
  | nil => exact Nat.le_refl 0
  | cons i p ih =>
    have hrest := ih fun kind count hmem => hp kind count (.tail _ hmem)
    have hi : i.weight ≤ 1 := by
      cases i with
      | plain k => exact Nat.zero_le 1
      | counted k n =>
        obtain rfl : n = 1 := hp k n (List.mem_cons_self ..)
        exact Nat.le_refl 1
    rw [weight_cons, List.length_cons]
    omega

end Program

end TapeLang
