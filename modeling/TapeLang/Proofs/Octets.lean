import TapeLang.Proofs.Answers
import TapeLang.Proofs.Chronicle

/-!
# What can be seen of an input

A machine takes an octet from its input, so it cannot tell an input that has ended from one that gives
zeros, nor an integer from another that is equal to it modulo 256. And it takes an octet only when it
reads. Inputs the first `k` answers of which come to the same octets (`Source.AgreeFor`) can therefore
not be told apart before the reading number `k + 1`, and until then everything else in the chronicle of
a session is the same as well: `Session.chronicle_decided_by_octets`.

The proof is one induction on the number of steps. What is carried along is that the inputs still agree
for the readings that are left, and that the outputs agree for ever; where no reading is left the next
one is where the chronicles are cut.
-/

namespace TapeLang

/-! ## Streams that agree -/

namespace Source

variable {ι κ : Type} [Source ι] [Source κ] {i : ι} {i' : κ} {k : Nat}

/-- The first `k` answers come to the same octets, and fail with the same causes. -/
def AgreeFor (k : Nat) (i : ι) (i' : κ) : Prop :=
  (answers k i).map Reading.octet = (answers k i').map Reading.octet

/-- The input gives these answers and has ended then. -/
def Gives (given : List Reading) (i : ι) : Prop :=
  ∀ n, answers (given.length + n) i = given ++ List.replicate n .ended

lemma AgreeFor.next (h : AgreeFor (k + 1) i i') :
    (read i).1.octet = (read i').1.octet ∧ AgreeFor k (read i).2 (read i').2 := by
  rw [AgreeFor, answers_succ, answers_succ, List.map_cons, List.map_cons, List.cons.injEq] at h
  exact h

lemma answers_take {m n : Nat} (h : m ≤ n) (i : ι) : (answers n i).take m = answers m i := by
  induction m generalizing n i with
  | zero => rfl
  | succ m ih =>
    obtain ⟨n, rfl⟩ := Nat.exists_eq_add_of_le' (Nat.lt_of_lt_of_le m.succ_pos h)
    rw [answers_succ, answers_succ, List.take_succ_cons, ih (Nat.le_of_succ_le_succ h)]

lemma AgreeFor.of_le {m : Nat} (h : AgreeFor k i i') (hm : m ≤ k) : AgreeFor m i i' := by
  rw [AgreeFor, ← answers_take hm, ← answers_take hm, List.map_take, List.map_take]
  exact congrArg (List.take m) h

/-- An end of the input that is given as an answer is the same as one that is not. -/
lemma Gives.agreeFor {given : List Reading} {m : Nat} (h : Gives given i)
    (h' : Gives (given ++ List.replicate m .ended) i') (k : Nat) : AgreeFor k i i' := by
  have hanswers : answers (given.length + (m + k)) i = answers (given.length + (m + k)) i' := by
    have hlength : given.length + (m + k) =
        (given ++ List.replicate m Reading.ended).length + k := by
      rw [List.length_append, List.length_replicate, Nat.add_assoc]
    rw [h (m + k), hlength, h' k, List.append_assoc, List.replicate_append_replicate]
  exact AgreeFor.of_le (congrArg (List.map Reading.octet) hanswers) (by omega)

end Source

namespace Input.Buffer

/-- A reading comes to the next integer modulo 256, and to zero where there is none. -/
lemma octet_read (b : Buffer) :
    (Source.read b).1.octet = .ok (UInt8.ofInt (b.data.getD b.position 0)) := by
  show b.read.1.octet = _
  unfold Buffer.read
  cases h : b.data[b.position]? with
  | none =>
    rw [Array.getD_eq_getD_getElem?, h]
    rfl
  | some v => simp [Array.getD_eq_getD_getElem?, h, UInt8.ofInt]

/-- What comes after a reading came one later before it. -/
lemma getD_read (b : Buffer) (j : Nat) :
    (Source.read b).2.data.getD ((Source.read b).2.position + j) 0 =
      b.data.getD (b.position + (j + 1)) 0 := by
  show b.read.2.data.getD (b.read.2.position + j) 0 = _
  unfold Buffer.read
  cases h : b.data[b.position]? with
  | none =>
    have hsize := Array.getElem?_eq_none_iff.mp h
    have hout : ∀ i, b.data.size ≤ i → b.data.getD i 0 = 0 := by
      intro i hi
      rw [Array.getD_eq_getD_getElem?, Array.getElem?_eq_none hi]
      rfl
    show b.data.getD (b.position + j) 0 = _
    rw [hout _ (by omega), hout _ (by omega)]
  | some v =>
    show b.data.getD (b.position + 1 + j) 0 = _
    rw [Nat.add_assoc, Nat.add_comm 1 j]

/-- Buffers agree if the same integers come from them, where zeros come after the last. -/
lemma agreeFor {b b' : Buffer}
    (h : ∀ j, b.data.getD (b.position + j) 0 = b'.data.getD (b'.position + j) 0) (k : Nat) :
    Source.AgreeFor k b b' := by
  induction k generalizing b b' with
  | zero => rfl
  | succ k ih =>
    have hnext : Source.AgreeFor k (Source.read b).2 (Source.read b').2 :=
      ih fun j => by rw [getD_read, getD_read, h]
    have hfirst : b.data.getD b.position 0 = b'.data.getD b'.position 0 := h 0
    rw [Source.AgreeFor, Source.answers_succ, Source.answers_succ, List.map_cons, List.map_cons,
      octet_read, octet_read, hfirst]
    exact congrArg _ hnext

/-- Zeros at the end of a buffer make no difference. -/
lemma agreeFor_zeros (data : Array Int) (m k : Nat) :
    Source.AgreeFor k (⟨data, 0⟩ : Buffer) (⟨data ++ Array.replicate m 0, 0⟩ : Buffer) := by
  refine agreeFor (fun j => ?_) k
  rw [Array.getD_eq_getD_getElem?, Array.getD_eq_getD_getElem?, Array.getElem?_append]
  split
  · rfl
  · rename_i hj
    rw [Array.getElem?_eq_none (Nat.le_of_not_lt hj), Array.getElem?_replicate]
    split <;> rfl

end Input.Buffer

/-- Answers laid down beforehand are given, and nothing else. -/
lemma Input.Script.gives (given : List Reading) : Source.Gives given (⟨given⟩ : Input.Script) := by
  intro n
  induction given with
  | nil =>
    rw [List.length_nil, Nat.zero_add, List.nil_append]
    induction n with
    | zero => rfl
    | succ n ih =>
      rw [Source.answers_succ, List.replicate_succ]
      exact congrArg (Reading.ended :: ·) ih
  | cons r given ih =>
    rw [List.length_cons, Nat.add_right_comm, Source.answers_succ, List.cons_append]
    exact congrArg (r :: ·) ih

/-- Whatever the two outputs are handed, they answer the same. -/
def Outlet.Agrees (a b : Outlet) : Prop :=
  ∀ vs, Sink.answers vs a.output = Sink.answers vs b.output

lemma Outlet.Agrees.next {a b : Outlet} (h : a.Agrees b) (v : Int) :
    (Sink.write a.output v).1 = (Sink.write b.output v).1 ∧
      Agrees { a with output := (Sink.write a.output v).2 }
        { b with output := (Sink.write b.output v).2 } := by
  have hnext : ∀ vs, (Sink.write a.output v).1 = (Sink.write b.output v).1 ∧
      Sink.answers vs (Sink.write a.output v).2 = Sink.answers vs (Sink.write b.output v).2 := by
    intro vs
    have hvs := h (v :: vs)
    rwa [Sink.answers_cons, Sink.answers_cons, List.cons.injEq] at hvs
  exact ⟨(hnext []).1, fun vs => (hnext vs).2⟩

/-! ## Cutting a chronicle -/

/-- What can be seen before the answer to the reading number `k + 1`. -/
def Sight.upTo : Nat → List Sight → List Sight
  | _, [] => []
  | 0, .answered _ :: _ => []
  | k + 1, .answered r :: l => .answered r :: upTo k l
  | k, x :: l => x :: upTo k l

/-- How many readings a reply answers. -/
def Reply.readings : Reply → Nat
  | .octet _ => 1
  | _ => 0

namespace Sight

lemma upTo_machine (k : Nat) (m : Machine) (l : List Sight) :
    upTo k (.machine m :: l) = .machine m :: upTo k l := by
  cases k <;> rfl

lemma upTo_of_length_le {k : Nat} {l : List Sight} (h : l.length ≤ k) : upTo k l = l := by
  induction l generalizing k with
  | nil => cases k <;> rfl
  | cons x l ih =>
    obtain ⟨k, rfl⟩ := Nat.exists_eq_add_of_le' (Nat.lt_of_lt_of_le l.length.succ_pos h)
    have hk : l.length ≤ k := Nat.le_of_succ_le_succ h
    cases x with
    | answered r => exact congrArg (_ :: ·) (ih hk)
    | machine m => exact congrArg (_ :: ·) (ih (Nat.le_succ_of_le hk))
    | asked => exact congrArg (_ :: ·) (ih (Nat.le_succ_of_le hk))
    | handed value answer => exact congrArg (_ :: ·) (ih (Nat.le_succ_of_le hk))
    | ended o => exact congrArg (_ :: ·) (ih (Nat.le_succ_of_le hk))

lemma eq_of_upTo_eq {l l' : List Sight} (h : ∀ k, upTo k l = upTo k l') : l = l' := by
  have hmax := h (max l.length l'.length)
  rwa [upTo_of_length_le (Nat.le_max_left ..), upTo_of_length_le (Nat.le_max_right ..)] at hmax

lemma upTo_reply (r : Reply) (k : Nat) (l : List Sight) :
    upTo (r.readings + k) (r.sights ++ l) = r.sights ++ upTo k l := by
  cases r with
  | none =>
    show upTo (0 + k) l = upTo k l
    rw [Nat.zero_add]
  | octet r =>
    rw [Nat.add_comm]
    rfl
  | delivery value answer =>
    show upTo (0 + k) (.handed value answer :: l) = .handed value answer :: upTo k l
    rw [Nat.zero_add]
    cases k <;> rfl

lemma upTo_ending (o : Option Outcome) (k : Nat) (l : List Sight) :
    upTo k ((o.map ended).toList ++ l) = (o.map ended).toList ++ upTo k l := by
  cases o with
  | none => rfl
  | some o => cases k <;> rfl

end Sight

namespace Session

variable {ι κ : Type} [Source ι] [Source κ] {outs outs' : Nat → Outlet} {s : Session} {i : ι} {i' : κ}
  {k fuel : Nat} {calls : List Nat}

/-! ## One step of two sessions on inputs that agree -/

/-- Unless it is the reading for which nothing is known, the streams reply the same to one session as
to the other, and the inputs agree for the readings that are left. -/
lemma reply_eq_or (hin : Source.AgreeFor k i i') {a a' : Outlet} (hout : a.Agrees a') :
    k = 0 ∧ s.machine.demand s.code = .read ∨
      ∃ j, k = ((s.on i a).reply s.code).readings + j ∧
        (s.on i' a').reply s.code = (s.on i a).reply s.code ∧
        Source.AgreeFor j ((s.on i a).step s.code).config.input
          ((s.on i' a').step s.code).config.input := by
  rw [Config.input_step, Config.input_step, Config.reply, Config.reply]
  simp only [on]
  cases hd : s.machine.demand s.code with
  | halted => exact .inr ⟨k, (Nat.zero_add k).symm, rfl, hin⟩
  | stray => exact .inr ⟨k, (Nat.zero_add k).symm, rfl, hin⟩
  | compute => exact .inr ⟨k, (Nat.zero_add k).symm, rfl, hin⟩
  | read =>
    cases k with
    | zero => exact .inl ⟨rfl, rfl⟩
    | succ j =>
      obtain ⟨hoctet, hnext⟩ := hin.next
      exact .inr ⟨j, Nat.add_comm j 1, congrArg Reply.octet hoctet.symm, hnext⟩
  | write b =>
    obtain ⟨hanswer, -⟩ := hout.next b.toNat
    exact .inr ⟨k, (Nat.zero_add k).symm, congrArg (Reply.delivery _) hanswer.symm, hin⟩

/-- Outputs that agree still do so after a step. -/
lemma agrees_step (s : Session) (i : ι) (i' : κ) {a a' : Outlet} (hout : a.Agrees a') :
    Outlet.Agrees { a with output := ((s.on i a).step s.code).config.output }
      { a' with output := ((s.on i' a').step s.code).config.output } := by
  rw [Config.output_step, Config.output_step]
  simp only [on]
  cases hd : s.machine.demand s.code with
  | write b => exact (hout.next b.toNat).2
  | halted => exact hout
  | stray => exact hout
  | compute => exact hout
  | read => exact hout

lemma agrees_update (hout : ∀ n, (outs n).Agrees (outs' n)) {a a' : Outlet} (h : a.Agrees a')
    (n : Nat) : ∀ j, (Function.update outs n a j).Agrees (Function.update outs' n a' j) := by
  intro j
  by_cases hj : j = n
  · subst hj
    rwa [Function.update_self, Function.update_self]
  · rw [Function.update_of_ne hj, Function.update_of_ne hj]
    exact hout j

/-! ## Whole chronicles -/

/-- Before the answer to the reading number `k + 1` the chronicles are the same. -/
lemma chronicle_upTo_eq (hin : Source.AgreeFor k i i') (hout : ∀ n, (outs n).Agrees (outs' n)) :
    Sight.upTo k (s.chronicle fuel i outs calls) =
      Sight.upTo k (s.chronicle fuel i' outs' calls) := by
  induction fuel generalizing s i i' outs outs' k calls with
  | zero => rfl
  | succ fuel ih =>
    cases calls with
    | nil => rfl
    | cons n calls =>
      rw [chronicle, chronicle, List.append_assoc, List.append_assoc, List.cons_append,
        List.cons_append, Sight.upTo_machine, Sight.upTo_machine]
      rcases reply_eq_or (s := s) hin (hout n) with ⟨rfl, hread⟩ | ⟨j, rfl, hreply, hnext⟩
      · -- the chronicles are cut at this reading
        have hdemand : (s.on i (outs n)).machine.demand s.code = .read := hread
        have hdemand' : (s.on i' (outs' n)).machine.demand s.code = .read := hread
        rw [Config.reply_of_read hdemand, Config.reply_of_read hdemand']
        rfl
      · have hsame : (s.on i' (outs' n)).machine = (s.on i (outs n)).machine := rfl
        obtain ⟨houtcome, hmachine⟩ := Config.step_eq_of_reply hsame hreply
        have houts := agrees_update hout (agrees_step s i i' (hout n)) n
        rw [hreply, Sight.upTo_reply, Sight.upTo_reply, houtcome, hmachine, Sight.upTo_ending,
          Sight.upTo_ending, ih hnext houts]

/-- On inputs that agree for ever the chronicles are the same throughout. -/
lemma chronicle_eq (hin : ∀ k, Source.AgreeFor k i i') (hout : ∀ n, (outs n).Agrees (outs' n)) :
    s.chronicle fuel i outs calls = s.chronicle fuel i' outs' calls :=
  Sight.eq_of_upTo_eq fun k => chronicle_upTo_eq (hin k) hout

/-- **An input is seen only through octets, and only when it is read.** Let the first `k` answers of
two inputs come to the same octets, where the end of the input comes to zero, and let them fail with
the same causes; the outputs may be different ones too as long as they answer the same. Then two
sessions of the same run calls, one on each input, have the same chronicle before the answer to the
reading number `k + 1`: the machine between any two instructions, what is written, and how each run
call ends.

So zeros behind the data of a buffer make no difference at any time, nor do ends of the input behind
the answers of an input of any kind. -/
theorem chronicle_decided_by_octets (s : Session) :
    (∀ {ι κ : Type} [Source ι] [Source κ] (k : Nat) (i : ι) (i' : κ) (outs outs' : Nat → Outlet),
      Source.AgreeFor k i i' → (∀ n, (outs n).Agrees (outs' n)) → ∀ calls fuel,
        Sight.upTo k (s.chronicle fuel i outs calls) =
          Sight.upTo k (s.chronicle fuel i' outs' calls)) ∧
    (∀ (data : Array Int) (m : Nat) (outs outs' : Nat → Outlet),
      (∀ n, (outs n).Agrees (outs' n)) → ∀ calls fuel,
        s.chronicle fuel (⟨data, 0⟩ : Input.Buffer) outs calls =
          s.chronicle fuel (⟨data ++ Array.replicate m 0, 0⟩ : Input.Buffer) outs' calls) ∧
    ∀ {ι κ : Type} [Source ι] [Source κ] (given : List Reading) (m : Nat) (i : ι) (i' : κ)
      (outs outs' : Nat → Outlet), Source.Gives given i →
      Source.Gives (given ++ List.replicate m .ended) i' → (∀ n, (outs n).Agrees (outs' n)) →
      ∀ calls fuel, s.chronicle fuel i outs calls = s.chronicle fuel i' outs' calls := by
  refine ⟨?_, ?_, ?_⟩
  · intro ι κ _ _ k i i' outs outs' hin hout calls fuel
    exact chronicle_upTo_eq hin hout
  · intro data m outs outs' hout calls fuel
    exact chronicle_eq (Input.Buffer.agreeFor_zeros data m) hout
  · intro ι κ _ _ given m i i' outs outs' hgives hgives' hout calls fuel
    exact chronicle_eq (hgives.agreeFor hgives') hout

/-- Integers that are equal modulo 256 and a failure, which ends the first of two run calls, and then
answers that differ; an empty buffer and one of zeros; and a single answer with and without ends of the
input behind it. -/
theorem chronicle_decided_by_octets_resumed :
    let s := ofProgram [.plain .input, .plain .output, .plain .input, .plain .output]
    let i : Input.Script := ⟨[.value 321, .failed Cause.nothing, .value 7]⟩
    let i' : Input.Script := ⟨[.value (-191), .failed Cause.nothing, .ended]⟩
    let outs : Nat → Outlet := fun _ => ⟨Output.Buffer, {}⟩
    (Source.AgreeFor 2 i i' ∧ ¬ Source.AgreeFor 3 i i' ∧
      Sight.upTo 2 (s.chronicle 9 i outs [0, 0]) = Sight.upTo 2 (s.chronicle 9 i' outs [0, 0])) ∧
    s.chronicle 9 (⟨#[], 0⟩ : Input.Buffer) outs [0] =
      s.chronicle 9 (⟨#[0, 0], 0⟩ : Input.Buffer) outs [0] ∧
    Source.Gives [.value 5] (⟨[.value 5]⟩ : Input.Script) ∧
      Source.Gives [.value 5, .ended] (⟨[.value 5, .ended]⟩ : Input.Script) ∧
      s.chronicle 9 (⟨[.value 5]⟩ : Input.Script) outs [0] =
        s.chronicle 9 (⟨[.value 5, .ended]⟩ : Input.Script) outs [0] := by
  intro s i i' outs
  have hin : Source.AgreeFor 2 i i' := rfl
  have hout : ∀ n, (outs n).Agrees (outs n) := fun _ _ => rfl
  have hgives := Input.Script.gives [.value 5]
  have hgives' := Input.Script.gives [.value 5, .ended]
  obtain ⟨hagree, hbuffer, hpadded⟩ := chronicle_decided_by_octets s
  refine ⟨⟨hin, ?_, hagree 2 i i' outs outs hin hout [0, 0] 9⟩, hbuffer #[] 2 outs outs hout [0] 9,
    hgives, hgives', hpadded [.value 5] 1 _ _ outs outs hgives hgives' hout [0] 9⟩
  intro h
  have hlast := congrArg (·[2]?) h
  cases hlast

end Session

end TapeLang
