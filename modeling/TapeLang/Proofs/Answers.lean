import Mathlib.Tactic.Common
import TapeLang.Stream.Input
import TapeLang.Stream.Output

/-!
# Streams known by their answers

A stream is a state, but what it does to a run is in its answers alone. For an input these are a
sequence, `Source.answers`; for an output they may depend on what it is handed, `Sink.answers`.

Some of the answers may be failures. `FailsAtMost k` says of an input or an output that `k` of them
are at most, wherever they stand. An input is mended by one that gives the same answers with the
failures taken out, `Source.Mends`; an output is mended by any that never fails, which is one with
`FailsAtMost 0`. Answers that are laid down beforehand are mended by leaving out the failures
(`Input.Script.mends`).

An output may also take a number of values and then fail, as a pipe does whose reader goes away; that is
`Sink.StopsAfter`.
-/

namespace TapeLang

/-- The answer is no failure. -/
def Reading.succeeds : Reading → Bool
  | .failed _ => false
  | _ => true

/-- The value was taken. -/
def Delivery.succeeds : Delivery → Bool
  | .accepted => true
  | .failed _ => false

lemma Reading.succeeds_of_octet {r : Reading} {b : UInt8} (h : r.octet = .ok b) :
    r.succeeds = true := by
  cases r with
  | value v => rfl
  | ended => rfl
  | failed failure => cases h

/-! ## Inputs -/

namespace Source

variable {ι κ : Type} [Source ι] [Source κ] {i : ι} {i' : κ} {k : Nat} {failure : Failure}

/-- The answers to the next `n` readings. -/
def answers : Nat → ι → List Reading
  | 0, _ => []
  | n + 1, i => (read i).1 :: answers n (read i).2

/-- Of all readings to come `k` fail at most. -/
def FailsAtMost (k : Nat) (i : ι) : Prop :=
  ∀ n, (answers n i).countP (!·.succeeds) ≤ k

/-- What `i` answers, failures taken out, `i'` answers. -/
def Mends (i' : κ) (i : ι) : Prop :=
  ∀ n, ∃ m, (answers n i).filter Reading.succeeds = answers m i'

@[simp] lemma answers_zero (i : ι) : answers 0 i = [] := rfl

lemma answers_succ (n : Nat) (i : ι) :
    answers (n + 1) i = (read i).1 :: answers n (read i).2 := rfl

lemma FailsAtMost.next (h : FailsAtMost k i) : FailsAtMost k (read i).2 := by
  intro n
  have hn := h (n + 1)
  rw [answers_succ, List.countP_cons] at hn
  exact Nat.le_of_add_right_le hn

/-- A failure is one of those that are allowed. -/
lemma FailsAtMost.next_of_failed (h : FailsAtMost k i) (hr : (read i).1 = .failed failure) :
    ∃ j, k = j + 1 ∧ FailsAtMost j (read i).2 := by
  have hcount : ∀ n, (answers n (read i).2).countP (!·.succeeds) + 1 ≤ k := by
    intro n
    have hn := h (n + 1)
    rwa [answers_succ, List.countP_cons_of_pos (by rw [hr]; rfl)] at hn
  obtain ⟨j, rfl⟩ := Nat.exists_eq_add_of_le' (Nat.le_of_add_left_le (hcount 0))
  exact ⟨j, rfl, fun n => Nat.le_of_succ_le_succ (hcount n)⟩

/-- An input that never fails gives an octet. -/
lemma FailsAtMost.exists_octet (h : FailsAtMost 0 i) :
    ∃ b, (read i).1.octet = .ok b := by
  cases hr : (read i).1 with
  | value v => exact ⟨_, rfl⟩
  | ended => exact ⟨_, rfl⟩
  | failed failure =>
    obtain ⟨j, hj, -⟩ := h.next_of_failed hr
    cases hj

/-- A failure is not there where it is mended. -/
lemma Mends.of_failed (h : Mends i' i) (hr : (read i).1 = .failed failure) :
    Mends i' (read i).2 := by
  intro n
  obtain ⟨m, hm⟩ := h (n + 1)
  rw [answers_succ, List.filter_cons_of_neg (by rw [hr]; simp [Reading.succeeds])] at hm
  exact ⟨m, hm⟩

/-- Any other answer is the same there. -/
lemma Mends.of_succeeds (h : Mends i' i) (hr : (read i).1.succeeds = true) :
    (read i').1 = (read i).1 ∧ Mends (read i').2 (read i).2 := by
  have hnext : ∀ n, ∃ m, (read i).1 = (read i').1 ∧
      (answers n (read i).2).filter Reading.succeeds = answers m (read i').2 := by
    intro n
    obtain ⟨m, hm⟩ := h (n + 1)
    rw [answers_succ, List.filter_cons_of_pos hr] at hm
    cases m with
    | zero => cases hm
    | succ m =>
      rw [answers_succ, List.cons.injEq] at hm
      exact ⟨m, hm⟩
  obtain ⟨-, heq, -⟩ := hnext 0
  refine ⟨heq.symm, fun n => ?_⟩
  obtain ⟨m, -, hm⟩ := hnext n
  exact ⟨m, hm⟩

end Source

/-! ## Outputs -/

namespace Sink

variable {ω : Type} [Sink ω] {o : ω} {k n : Nat} {failure : Failure}

/-- The answers to the values of a list, handed over one after the other. -/
def answers : List Int → ω → List Delivery
  | [], _ => []
  | v :: vs, o => (write o v).1 :: answers vs (write o v).2

/-- The output once the values of a list have been handed over, one after the other. -/
def after (vs : List Int) (o : ω) : ω :=
  vs.foldl (fun o v => (write o v).2) o

/-- Whatever is handed over, `k` deliveries fail at most. -/
def FailsAtMost (k : Nat) (o : ω) : Prop :=
  ∀ vs, (answers vs o).countP (!·.succeeds) ≤ k

@[simp] lemma answers_nil (o : ω) : answers [] o = [] := rfl

lemma answers_cons (v : Int) (vs : List Int) (o : ω) :
    answers (v :: vs) o = (write o v).1 :: answers vs (write o v).2 := rfl

@[simp] lemma after_nil (o : ω) : after [] o = o := rfl

@[simp] lemma after_cons (v : Int) (vs : List Int) (o : ω) :
    after (v :: vs) o = after vs (write o v).2 := rfl

lemma FailsAtMost.next (h : FailsAtMost k o) (v : Int) : FailsAtMost k (write o v).2 := by
  intro vs
  have hvs := h (v :: vs)
  rw [answers_cons, List.countP_cons] at hvs
  exact Nat.le_of_add_right_le hvs

/-- A failure is one of those that are allowed. -/
lemma FailsAtMost.next_of_failed {v : Int} (h : FailsAtMost k o)
    (hw : (write o v).1 = .failed failure) : ∃ j, k = j + 1 ∧ FailsAtMost j (write o v).2 := by
  have hcount : ∀ vs, (answers vs (write o v).2).countP (!·.succeeds) + 1 ≤ k := by
    intro vs
    have hvs := h (v :: vs)
    rwa [answers_cons, List.countP_cons_of_pos (by rw [hw]; rfl)] at hvs
  obtain ⟨j, rfl⟩ := Nat.exists_eq_add_of_le' (Nat.le_of_add_left_le (hcount []))
  exact ⟨j, rfl, fun vs => Nat.le_of_succ_le_succ (hcount vs)⟩

/-- An output that never fails takes every value. -/
lemma FailsAtMost.accepted (h : FailsAtMost 0 o) (v : Int) : (write o v).1 = .accepted := by
  cases hw : (write o v).1 with
  | accepted => rfl
  | failed failure =>
    obtain ⟨j, hj, -⟩ := h.next_of_failed hw
    cases hj

/-- Whatever it is handed, the output takes `n` values, and the next delivery fails. -/
def StopsAfter (n : Nat) (failure : Failure) (o : ω) : Prop :=
  ∀ vs v, vs.length = n →
    answers (vs ++ [v]) o = List.replicate n .accepted ++ [.failed failure]

lemma StopsAfter.failed (h : StopsAfter 0 failure o) (v : Int) : (write o v).1 = .failed failure :=
  (List.cons.inj (h [] v rfl)).1

lemma StopsAfter.next (h : StopsAfter (n + 1) failure o) (v : Int) :
    (write o v).1 = .accepted ∧ StopsAfter n failure (write o v).2 := by
  have hnext : ∀ vs w, vs.length = n → (write o v).1 = .accepted ∧
      answers (vs ++ [w]) (write o v).2 = List.replicate n .accepted ++ [.failed failure] := by
    intro vs w hvs
    have hcons := h (v :: vs) w (congrArg (· + 1) hvs)
    rwa [List.cons_append, answers_cons, List.replicate_succ, List.cons_append,
      List.cons.injEq] at hcons
  refine ⟨?_, fun vs w hvs => (hnext vs w hvs).2⟩
  exact (hnext (List.replicate n 0) 0 List.length_replicate).1

end Sink

/-! ## Answers laid down beforehand -/

namespace Input.Script

/-- Failures laid down are the only ones. -/
theorem failsAtMost (answers : List Reading) :
    Source.FailsAtMost (answers.countP (!·.succeeds)) (⟨answers⟩ : Script) := by
  intro n
  induction n generalizing answers with
  | zero => exact Nat.zero_le _
  | succ n ih =>
    rw [Source.answers_succ, List.countP_cons]
    cases answers with
    | nil => exact ih []
    | cons r rest =>
      rw [List.countP_cons]
      exact Nat.add_le_add_right (ih rest) _

/-- Answers are mended by leaving out the failures. -/
theorem mends (answers : List Reading) :
    Source.Mends (⟨answers.filter Reading.succeeds⟩ : Script) (⟨answers⟩ : Script) := by
  intro n
  induction n generalizing answers with
  | zero => exact ⟨0, rfl⟩
  | succ n ih =>
    cases answers with
    | nil =>
      obtain ⟨m, hm⟩ := ih []
      exact ⟨m + 1, congrArg (Reading.ended :: ·) hm⟩
    | cons r rest =>
      have hread : Source.read (⟨r :: rest⟩ : Script) = (r, ⟨rest⟩) := rfl
      obtain ⟨m, hm⟩ := ih rest
      rw [Source.answers_succ, hread]
      by_cases hr : r.succeeds = true
      · rw [List.filter_cons_of_pos hr, List.filter_cons_of_pos hr]
        exact ⟨m + 1, congrArg (r :: ·) hm⟩
      · rw [List.filter_cons_of_neg hr, List.filter_cons_of_neg hr]
        exact ⟨m, hm⟩

end Input.Script

namespace Output.Script

/-- The calls to come that are to fail are the next one, if it is, and those behind it. -/
private lemma countP_calls (failing : List (Nat × Failure)) (n : Nat) :
    failing.countP (n ≤ ·.1) = failing.countP (n + 1 ≤ ·.1) + failing.countP (·.1 = n) := by
  induction failing with
  | nil => rfl
  | cons x rest ih =>
    simp only [List.countP_cons, ih, decide_eq_true_eq]
    split_ifs <;> omega

/-- Calls that are to fail by their numbers fail once each. -/
theorem failsAtMost (s : Script) (h : s.limit = none) :
    Sink.FailsAtMost (s.failing.countP (s.calls ≤ ·.1)) s := by
  intro vs
  induction vs generalizing s with
  | nil => exact Nat.zero_le _
  | cons v vs ih =>
    rw [Sink.answers_cons, List.countP_cons, countP_calls]
    cases hr : s.refusal with
    | none =>
      have hw : Sink.write s v =
          (.accepted, { s with taken := s.taken.push v, calls := s.calls + 1 }) := by
        show Script.write s v = _
        rw [Script.write, hr]
      have hrest := ih { s with taken := s.taken.push v, calls := s.calls + 1 } h
      rw [hw]
      exact Nat.le_trans hrest (Nat.le_add_right _ _)
    | some failure =>
      have hw : Sink.write s v = (.failed failure, { s with calls := s.calls + 1 }) := by
        show Script.write s v = _
        rw [Script.write, hr]
      have hpos : 0 < s.failing.countP (·.1 = s.calls) := by
        unfold refusal at hr
        rw [h] at hr
        split at hr
        · rename_i hfind
          have hcall := List.find?_some hfind
          exact List.countP_pos_iff.mpr ⟨_, List.mem_of_find?_eq_some hfind, hcall⟩
        · cases hr
      have hrest := ih { s with calls := s.calls + 1 } h
      rw [hw]
      exact Nat.add_le_add hrest hpos

/-- A limit is kept to. -/
lemma stopsAfter {s : Script} {n : Nat} {failure : Failure} (hfailing : s.failing = [])
    (hlimit : s.limit = some (s.taken.size + n, failure)) : Sink.StopsAfter n failure s := by
  induction n generalizing s with
  | zero =>
    intro vs v hvs
    obtain rfl := List.length_eq_zero_iff.mp hvs
    have hw : (s.write v).1 = .failed failure := by simp [write, refusal, hfailing, hlimit]
    exact congrArg ([·]) hw
  | succ n ih =>
    intro vs v hvs
    obtain ⟨w, vs, rfl⟩ := List.exists_cons_of_length_eq_add_one hvs
    have hw : s.write w =
        (.accepted, { s with taken := s.taken.push w, calls := s.calls + 1 }) := by
      have hroom : ¬ s.taken.size + (n + 1) ≤ s.taken.size := by omega
      simp [write, refusal, hfailing, hlimit, hroom]
    have hrest : Sink.StopsAfter n failure (s.write w).2 := by
      rw [hw]
      refine ih hfailing ?_
      rw [hlimit, Array.size_push, Nat.add_right_comm]
      rfl
    have hfirst : (Sink.write s w).1 = .accepted := congrArg Prod.fst hw
    rw [List.cons_append, Sink.answers_cons, hfirst, List.replicate_succ, List.cons_append]
    exact congrArg (_ :: ·) (hrest vs v (Nat.succ.inj hvs))

end Output.Script

/-- An output that keeps nothing takes everything. -/
lemma Output.Discard.failsAtMost (o : Discard) : Sink.FailsAtMost 0 o := by
  intro vs
  induction vs with
  | nil => exact Nat.le_refl 0
  | cons v vs ih => exact ih

end TapeLang
