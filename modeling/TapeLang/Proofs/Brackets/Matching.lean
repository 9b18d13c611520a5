import Mathlib.Data.List.Sort
import TapeLang.Program

/-!
# Matching brackets from left to right

The ordinary way to match the brackets of a program reads it from left to right and keeps the
opening brackets that are still to be closed; a closing bracket belongs to the innermost of them.
It is stated here for programs of any kind, balanced or not, and knows nothing of how the machine
finds its way.

* `Program.pending p n` are the opening brackets before `n` that are still open there.
* `Program.mate? p k` is the opening bracket that the closing bracket at `k` closes.
* `Program.Stray p k` says that at `k` a closing bracket has nothing to close.
* `Program.Balanced p` says that there is nothing stray, and in the end nothing open.

`Program.unclosed p n` says the same as `pending` without a stack: the opening brackets before `n`
that no closing bracket before `n` closes, in ascending order. That the two agree is
`Program.reverse_pending`.
-/

namespace TapeLang

namespace Program

/-- The indices of the opening brackets before `n` that are still open there, the innermost
first. -/
def pending (p : Program) : Nat → List Nat
  | 0 => []
  | n + 1 =>
    match p[n]? with
    | some (.plain .openLoop) => n :: pending p n
    | some (.plain .closeLoop) => (pending p n).tail
    | _ => pending p n

/-- The index of the opening bracket that is closed at `k`. -/
def mate? (p : Program) (k : Nat) : Option Nat :=
  if p[k]? = some (.plain .closeLoop) then (pending p k).head? else none

/-- The instruction at `k` is a closing bracket, and all opening brackets before it are closed
already. -/
def Stray (p : Program) (k : Nat) : Prop :=
  p[k]? = some (.plain .closeLoop) ∧ pending p k = []

instance (p : Program) (k : Nat) : Decidable (p.Stray k) :=
  inferInstanceAs (Decidable (_ ∧ _))

/-- Every bracket has its partner. -/
def Balanced (p : Program) : Prop :=
  pending p p.length = [] ∧ ∀ k, ¬ p.Stray k

/-- The indices of the opening brackets before `n` that are not closed before `n`, in ascending
order. -/
def unclosed (p : Program) (n : Nat) : List Nat :=
  (List.range n).filter fun i =>
    p[i]? = some (.plain .openLoop) ∧ ∀ k < n, mate? p k ≠ some i

variable {p : Program} {n k i : Nat}

/-! ## One instruction further -/

@[simp] lemma pending_zero (p : Program) : pending p 0 = [] := rfl

lemma pending_succ_of_openLoop (h : p[n]? = some (.plain .openLoop)) :
    pending p (n + 1) = n :: pending p n := by
  simp [pending, h]

lemma pending_succ_of_closeLoop (h : p[n]? = some (.plain .closeLoop)) :
    pending p (n + 1) = (pending p n).tail := by
  simp [pending, h]

lemma pending_succ_of_ne (ho : p[n]? ≠ some (.plain .openLoop))
    (hc : p[n]? ≠ some (.plain .closeLoop)) : pending p (n + 1) = pending p n := by
  rw [pending]
  split
  · exact absurd ‹_› ho
  · exact absurd ‹_› hc
  · rfl

/-- Behind the end of the program nothing changes. -/
lemma pending_of_length_le (h : p.length ≤ n) : pending p n = pending p p.length := by
  induction n, h using Nat.le_induction with
  | base => rfl
  | succ n hn ih =>
    have hnone : p[n]? = none := List.getElem?_eq_none hn
    rw [pending_succ_of_ne (by simp [hnone]) (by simp [hnone]), ih]

lemma lt_length {x : Instr} (h : p[i]? = some x) : i < p.length :=
  (List.getElem?_eq_some_iff.mp h).1

lemma Stray.lt_length (h : p.Stray k) : k < p.length :=
  Program.lt_length h.1

instance (p : Program) : Decidable p.Balanced :=
  decidable_of_iff (pending p p.length = [] ∧ ∀ k < p.length, ¬ p.Stray k) <| by
    constructor
    · rintro ⟨hend, hstray⟩
      exact ⟨hend, fun k hk => hstray k hk.lt_length hk⟩
    · rintro ⟨hend, hstray⟩
      exact ⟨hend, fun k _ => hstray k⟩

/-! ## What is pending -/

/-- Each pending bracket is an opening one, and below it lies what was pending when it was
opened. -/
lemma pending_eq_cons {S : List Nat} (h : pending p n = i :: S) :
    i < n ∧ p[i]? = some (.plain .openLoop) ∧ S = pending p i := by
  induction n using Nat.strong_induction_on generalizing i S with
  | h n ih =>
    cases n with
    | zero => cases h
    | succ n =>
      by_cases ho : p[n]? = some (.plain .openLoop)
      · rw [pending_succ_of_openLoop ho] at h
        cases h
        exact ⟨Nat.lt_succ_self _, ho, rfl⟩
      by_cases hc : p[n]? = some (.plain .closeLoop)
      · rw [pending_succ_of_closeLoop hc] at h
        cases hp : pending p n with
        | nil => simp [hp] at h
        | cons x T =>
          -- the bracket closed at `n` lies on top, so what is left was pending at `x` already
          obtain ⟨hx, -, rfl⟩ := ih n (Nat.lt_succ_self n) hp
          rw [hp, List.tail_cons] at h
          obtain ⟨hi, hopen, hS⟩ := ih x (by omega) h
          exact ⟨by omega, hopen, hS⟩
      · rw [pending_succ_of_ne ho hc] at h
        obtain ⟨hi, hopen, hS⟩ := ih n (Nat.lt_succ_self n) h
        exact ⟨by omega, hopen, hS⟩

lemma mem_pending (h : i ∈ pending p n) : i < n ∧ p[i]? = some (.plain .openLoop) := by
  induction n using Nat.strong_induction_on with
  | h n ih =>
    cases hp : pending p n with
    | nil => simp [hp] at h
    | cons x S =>
      obtain ⟨hx, hopen, rfl⟩ := pending_eq_cons hp
      rw [hp, List.mem_cons] at h
      rcases h with rfl | h
      · exact ⟨hx, hopen⟩
      · obtain ⟨hi, hio⟩ := ih x hx h
        exact ⟨by omega, hio⟩

/-- Inner brackets come behind outer ones. -/
lemma pairwise_pending (p : Program) (n : Nat) : (pending p n).Pairwise (· > ·) := by
  induction n using Nat.strong_induction_on with
  | h n ih =>
    cases hp : pending p n with
    | nil => exact .nil
    | cons x S =>
      obtain ⟨hx, -, rfl⟩ := pending_eq_cons hp
      exact .cons (fun i hi => (mem_pending hi).1) (ih x hx)

/-! ## Mates -/

lemma mate?_of_ne (h : p[k]? ≠ some (.plain .closeLoop)) : mate? p k = none := by
  simp [mate?, h]

lemma mate?_of_closeLoop (h : p[k]? = some (.plain .closeLoop)) :
    mate? p k = (pending p k).head? := by
  simp [mate?, h]

/-- A bracket is closed behind the place where it is opened. -/
lemma lt_of_mate? (h : mate? p k = some i) : i < k ∧ p[i]? = some (.plain .openLoop) := by
  by_cases hc : p[k]? = some (.plain .closeLoop)
  · rw [mate?_of_closeLoop hc] at h
    exact mem_pending (List.mem_of_mem_head? h)
  · rw [mate?_of_ne hc] at h
    cases h

lemma mem_pending_iff :
    i ∈ pending p n ↔
      i < n ∧ p[i]? = some (.plain .openLoop) ∧ ∀ k < n, mate? p k ≠ some i := by
  induction n with
  | zero => simp
  | succ n ih =>
    have hsplit : (∀ k < n + 1, mate? p k ≠ some i) ↔
        (∀ k < n, mate? p k ≠ some i) ∧ mate? p n ≠ some i := by
      simp only [Nat.lt_succ_iff_lt_or_eq, forall_eq_or_imp, or_comm, and_comm]
    rw [hsplit]
    by_cases ho : p[n]? = some (.plain .openLoop)
    · rw [pending_succ_of_openLoop ho, List.mem_cons, ih, mate?_of_ne (by simp [ho])]
      constructor
      · rintro (rfl | ⟨hi, hopen, hk⟩)
        · exact ⟨by omega, ho, fun k hk h => by have := (lt_of_mate? h).1; omega, by simp⟩
        · exact ⟨by omega, hopen, hk, by simp⟩
      · rintro ⟨hi, hopen, hk, -⟩
        rcases Nat.lt_succ_iff_lt_or_eq.mp hi with hi | rfl
        · exact .inr ⟨hi, hopen, hk⟩
        · exact .inl rfl
    by_cases hc : p[n]? = some (.plain .closeLoop)
    · rw [pending_succ_of_closeLoop hc, mate?_of_closeLoop hc]
      have hne : ∀ {x}, p[x]? = some (.plain .openLoop) → x < n + 1 → x < n := by
        intro x hx hlt
        rcases Nat.lt_succ_iff_lt_or_eq.mp hlt with hlt | rfl
        · exact hlt
        · simp [hc] at hx
      cases hp : pending p n with
      | nil =>
        rw [hp] at ih
        constructor
        · intro h
          cases h
        · rintro ⟨hi, hopen, hk, -⟩
          exact absurd (ih.mpr ⟨hne hopen hi, hopen, hk⟩) (by simp)
      | cons x S =>
        rw [hp] at ih
        have hsorted := pairwise_pending p n
        rw [hp, List.pairwise_cons] at hsorted
        have hx : x ∉ S := fun hS => lt_irrefl x (hsorted.1 x hS)
        rw [List.tail_cons, List.head?_cons]
        constructor
        · intro hi
          obtain ⟨hlt, hopen, hk⟩ := ih.mp (List.mem_cons_of_mem x hi)
          exact ⟨by omega, hopen, hk, fun h => hx (by rwa [Option.some.inj h])⟩
        · rintro ⟨hi, hopen, hk, hmate⟩
          rcases List.mem_cons.mp (ih.mpr ⟨hne hopen hi, hopen, hk⟩) with rfl | h
          · exact absurd rfl hmate
          · exact h
    · rw [pending_succ_of_ne ho hc, ih, mate?_of_ne hc]
      constructor
      · rintro ⟨hi, hopen, hk⟩
        exact ⟨by omega, hopen, hk, by simp⟩
      · rintro ⟨hi, hopen, hk, -⟩
        refine ⟨?_, hopen, hk⟩
        rcases Nat.lt_succ_iff_lt_or_eq.mp hi with hi | rfl
        · exact hi
        · exact absurd hopen ho

/-- The stack of the matching, bottom first, is the list of the unclosed brackets. -/
theorem reverse_pending (p : Program) (n : Nat) : (pending p n).reverse = unclosed p n := by
  have hpending : (pending p n).reverse.Pairwise (· < ·) :=
    List.pairwise_reverse.mpr (pairwise_pending p n)
  have hunclosed : (unclosed p n).Pairwise (· < ·) :=
    List.pairwise_lt_range.filter _
  refine hpending.eq_of_mem_iff hunclosed fun {i} => ?_
  rw [List.mem_reverse, mem_pending_iff, unclosed, List.mem_filter, List.mem_range]
  simp

/-! ## The beginning of a program -/

/-- What is pending at a place does not depend on what stands behind it. -/
lemma pending_take (h : k ≤ n) : pending (p.take n) k = pending p k := by
  induction k with
  | zero => rfl
  | succ k ih =>
    rw [pending, pending, List.getElem?_take_of_lt h, ih (Nat.le_of_succ_le h)]

lemma stray_take_iff : Stray (p.take n) k ↔ k < n ∧ p.Stray k := by
  rcases Nat.lt_or_ge k n with hk | hk
  · rw [Stray, Stray, List.getElem?_take_of_lt hk, pending_take hk.le]
    exact (and_iff_right hk).symm
  · constructor
    · intro h
      exact absurd (h.lt_length.trans_le (List.length_take_le n p)) (Nat.not_lt.mpr hk)
    · rintro ⟨hlt, -⟩
      exact absurd hlt (Nat.not_lt.mpr hk)

/-- The beginning of a program is balanced if nothing is pending at its end and nothing in it is
stray. -/
lemma balanced_take_iff (hn : n ≤ p.length) :
    Balanced (p.take n) ↔ pending p n = [] ∧ ∀ k < n, ¬ p.Stray k := by
  rw [Balanced, List.length_take_of_le hn, pending_take le_rfl]
  simp only [stray_take_iff, not_and]

end Program

end TapeLang
