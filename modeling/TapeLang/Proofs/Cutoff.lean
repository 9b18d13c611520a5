import TapeLang.Proofs.Resumption

/-!
# Outputs that stop taking

What a program does on an output that takes a number of values and then fails is what it does on one
that takes everything, up to the first delivery that fails; there the run ends, and nothing behind it
is carried out.

The two runs go along with each other as long as the limited output still takes values
(`Config.CutOff`). A step is the same in both, or it ends both, or it is the delivery that fails
(`Config.CutOff.StepCase`), and the same three things can have become of the two runs after any number
of steps (`Config.CutOff.RunCase`). The comparison is made step by step because the run on the other
output need not end; all that is said in `Session.cut_at_limit` is read off it.
-/

namespace TapeLang

/-! ## Values that are handed over and values that are taken -/

namespace Event

/-- The value that a call hands to the output. -/
def handed? : Event → Option Int
  | .write value _ => some value
  | .read _ => none

/-- The value that the output takes in a call. -/
def taken? : Event → Option Int
  | .write value .accepted => some value
  | _ => none

/-- The values that are handed to the output, in order. -/
def handed (events : List Event) : List Int :=
  events.filterMap handed?

/-- The values that the output takes, in order. -/
def taken (events : List Event) : List Int :=
  events.filterMap taken?

lemma handed_append (a b : List Event) : handed (a ++ b) = handed a ++ handed b :=
  List.filterMap_append

lemma taken_append (a b : List Event) : taken (a ++ b) = taken a ++ taken b :=
  List.filterMap_append

/-- The output takes all that it is handed, and of `n` values that it may take `m` are left. -/
structure Within (n m : Nat) (events : List Event) : Prop where
  all : taken events = handed events
  left : (handed events).length + m = n

variable {n m k : Nat} {a b : List Event}

lemma Within.nil (n : Nat) : Within n n [] :=
  ⟨rfl, Nat.zero_add n⟩

lemma Within.append (ha : Within n k a) (hb : Within k m b) : Within n m (a ++ b) where
  all := by rw [taken_append, handed_append, ha.all, hb.all]
  left := by rw [handed_append, List.length_append, Nat.add_assoc, hb.left, ha.left]

lemma Within.length_le (h : Within n m a) : (handed a).length ≤ n :=
  Nat.le.intro h.left

end Event

/-! ## Two runs that go along with each other -/

namespace Config

variable {ι ω χ : Type} [Source ι] [Sink ω] [Sink χ] {code : Array Instr} {n fuel : Nat}
  {failure : Failure} {c c' : Config ι ω} {d d' : Config ι χ} {o : Outcome} {events : List Event}

/-- The configurations are the same but for their outputs. That of `c` takes `n` more values before it
fails, and nothing else fails. -/
structure CutOff (n : Nat) (failure : Failure) (c : Config ι ω) (d : Config ι χ) : Prop where
  machine : d.machine = c.machine
  input : d.input = c.input
  sound : Source.FailsAtMost 0 c.input
  limited : Sink.StopsAfter n failure c.output
  unlimited : Sink.FailsAtMost 0 d.output

/-- What the next step of the two runs can be. -/
inductive CutOff.StepCase (code : Array Instr) (n : Nat) (failure : Failure) (c : Config ι ω)
    (d : Config ι χ) : Prop where
  /-- Both go on with the same step. -/
  | onward {m : Nat} {c' : Config ι ω} {d' : Config ι χ} (hc : c.step code = .going c')
      (hd : d.step code = .going d') (hcalls : d.calls code = c.calls code)
      (hwithin : Event.Within n m (c.calls code)) (hnext : CutOff m failure c' d')
  /-- Both end, and no stream is to blame. -/
  | ended {o : Outcome} (ho : o.isCut = false) (hc : c.step code = .ended o c)
      (hd : d.step code = .ended o d) (hcalls : c.calls code = []) (hcalls' : d.calls code = [])
  /-- The output of the one takes nothing any more. -/
  | cut {v : Int} {c' : Config ι ω} {d' : Config ι χ} (hn : n = 0)
      (hc : c.step code = .ended (.ofFailure .write failure) c') (hinput : c'.input = c.input)
      (hrefused : c.machine.Refused code (.write v (.failed failure)) (.ofFailure .write failure))
      (hcalls : c.calls code = [.write v (.failed failure)])
      (hd : d.step code = .going d') (hcalls' : d.calls code = [.write v .accepted])

/-- Where a value is handed over, it depends on what the limited output still takes. -/
lemma CutOff.step_write {b : UInt8} (h : CutOff n failure c d)
    (hdemand : c.machine.demand code = .write b) : CutOff.StepCase code n failure c d := by
  obtain ⟨hmachine, hinput, hsound, hlimited, hunlimited⟩ := h
  have hdemand' : d.machine.demand code = .write b := by rwa [hmachine]
  have hw' : Sink.write d.output b.toNat = (.accepted, (Sink.write d.output b.toNat).2) := by
    rw [← hunlimited.accepted b.toNat]
  have hcalls' : d.calls code = [.write b.toNat .accepted] := by
    rw [calls_of_write hdemand', hw']
  cases n with
  | zero =>
    have hw : Sink.write c.output b.toNat = (.failed failure, (Sink.write c.output b.toNat).2) := by
      rw [← hlimited.failed b.toNat]
    obtain ⟨hi, rfl⟩ := Machine.demand_eq_write_iff.mp hdemand
    refine .cut rfl (step_of_write_failed hdemand hw) rfl (.write hi failure) ?_
      (step_of_write hdemand' hw') hcalls'
    rw [calls_of_write hdemand, hw]
  | succ m =>
    obtain ⟨haccepted, hlimited'⟩ := hlimited.next b.toNat
    have hw : Sink.write c.output b.toNat = (.accepted, (Sink.write c.output b.toNat).2) := by
      rw [← haccepted]
    have hcalls : c.calls code = [.write b.toNat .accepted] := by
      rw [calls_of_write hdemand, hw]
    refine .onward (step_of_write hdemand hw) (step_of_write hdemand' hw')
      (hcalls'.trans hcalls.symm) ?_
      ⟨by rw [hmachine], hinput, hsound, hlimited', hunlimited.next b.toNat⟩
    rw [hcalls]
    exact ⟨rfl, Nat.add_comm 1 m⟩

/-- A step is the same in both runs, or it ends both, or it is the delivery that fails. -/
theorem CutOff.step_cases (h : CutOff n failure c d) (code : Array Instr) :
    CutOff.StepCase code n failure c d := by
  obtain ⟨hmachine, hinput, hsound, hlimited, hunlimited⟩ := id h
  have hsame : d.machine.demand code = c.machine.demand code := by rw [hmachine]
  cases hdemand : c.machine.demand code with
  | halted =>
    have hdemand' := hsame.trans hdemand
    exact .ended rfl (step_of_halted hdemand) (step_of_halted hdemand') (calls_of_halted hdemand)
      (calls_of_halted hdemand')
  | stray =>
    have hdemand' := hsame.trans hdemand
    refine .ended rfl (step_of_stray hdemand) ?_ (calls_of_stray hdemand) (calls_of_stray hdemand')
    rw [step_of_stray hdemand', hmachine]
  | compute =>
    have hdemand' := hsame.trans hdemand
    refine .onward (step_of_compute hdemand) (step_of_compute hdemand') ?_ ?_
      ⟨by rw [hmachine], hinput, hsound, hlimited, hunlimited⟩
    · rw [calls_of_compute hdemand, calls_of_compute hdemand']
    · rw [calls_of_compute hdemand]
      exact .nil n
  | read =>
    have hdemand' := hsame.trans hdemand
    obtain ⟨b, hb⟩ := hsound.exists_octet
    have hb' : (Source.read d.input).1.octet = .ok b := by rwa [hinput]
    refine .onward (step_of_read hdemand hb) (step_of_read hdemand' hb') ?_ ?_
      ⟨by rw [hmachine], by rw [hinput], hsound.next, hlimited, hunlimited⟩
    · rw [calls_of_read hdemand, calls_of_read hdemand', hinput]
    · rw [calls_of_read hdemand]
      exact ⟨rfl, Nat.zero_add n⟩
  | write b => exact h.step_write hdemand

/-- What can have become of the two runs after some steps. -/
inductive CutOff.RunCase (code : Array Instr) (n fuel : Nat) (failure : Failure) (c : Config ι ω)
    (d : Config ι χ) : Prop where
  /-- Both go on, with the same calls up to here. -/
  | going {m : Nat} {c' : Config ι ω} {d' : Config ι χ} (hc : c.run code fuel = .going c')
      (hd : d.run code fuel = .going d') (htrace : d.trace code fuel = c.trace code fuel)
      (hwithin : Event.Within n m (c.trace code fuel)) (hnext : CutOff m failure c' d')
  /-- Both have ended in the same way, with the same calls. -/
  | ended {m : Nat} {o : Outcome} {c' : Config ι ω} {d' : Config ι χ} (ho : o.isCut = false)
      (hc : c.run code fuel = .ended o c') (hd : d.run code fuel = .ended o d')
      (htrace : d.trace code fuel = c.trace code fuel)
      (hwithin : Event.Within n m (c.trace code fuel)) (hlast : CutOff m failure c' d')
  /-- The one has ended at a delivery that the other has made. -/
  | cut {v : Int} {before : List Event} {c' : Config ι ω} {e : Config ι χ}
      (hc : c.run code fuel = .ended (.ofFailure .write failure) c')
      (htrace : c.trace code fuel = before ++ [.write v (.failed failure)])
      (hwithin : Event.Within n 0 before) (he : d.Reaches code before e)
      (hrefused : e.machine.Refused code (.write v (.failed failure)) (.ofFailure .write failure))
      (hmachine : c'.machine = e.machine) (hinput : c'.input = e.input)
      (he' : ∃ e', d.Reaches code (before ++ [.write v .accepted]) e')
      (hmore : ∃ later, d.trace code fuel = before ++ .write v .accepted :: later)

/-- A step that both take comes before what becomes of the two runs behind it. -/
lemma CutOff.RunCase.of_onward {m : Nat} (hc : c.step code = .going c')
    (hd : d.step code = .going d') (hcalls : d.calls code = c.calls code)
    (hwithin : Event.Within n m (c.calls code)) (h : CutOff.RunCase code m fuel failure c' d') :
    CutOff.RunCase code n (fuel + 1) failure c d := by
  have hctrace := trace_succ_of_going hc fuel
  have hdtrace := trace_succ_of_going hd fuel
  rw [hcalls] at hdtrace
  cases h with
  | going hc₁ hd₁ htrace hwithin₁ hnext =>
    refine .going ((run_succ_of_going hc fuel).trans hc₁) ((run_succ_of_going hd fuel).trans hd₁)
      ?_ ?_ hnext
    · rw [hctrace, hdtrace, htrace]
    · rw [hctrace]
      exact hwithin.append hwithin₁
  | ended ho hc₁ hd₁ htrace hwithin₁ hlast =>
    refine .ended ho ((run_succ_of_going hc fuel).trans hc₁)
      ((run_succ_of_going hd fuel).trans hd₁) ?_ ?_ hlast
    · rw [hctrace, hdtrace, htrace]
    · rw [hctrace]
      exact hwithin.append hwithin₁
  | cut hc₁ htrace hwithin₁ he hrefused hmachine hinput he' hmore =>
    obtain ⟨e', he'⟩ := he'
    obtain ⟨later, hlater⟩ := hmore
    refine .cut ((run_succ_of_going hc fuel).trans hc₁) ?_ (hwithin.append hwithin₁) ?_ hrefused
      hmachine hinput ⟨e', ?_⟩ ⟨later, ?_⟩
    · rw [hctrace, htrace, List.append_assoc]
    · rw [← hcalls]
      exact .step hd he
    · rw [← hcalls, List.append_assoc]
      exact .step hd he'
    · rw [hdtrace, hlater, List.append_assoc]

/-- After any number of steps both runs go on, or both have ended, or the one has been cut. -/
theorem CutOff.run_cases (h : CutOff n failure c d) (code : Array Instr) (fuel : Nat) :
    CutOff.RunCase code n fuel failure c d := by
  induction fuel generalizing n c d with
  | zero => exact .going rfl rfl rfl (.nil n) h
  | succ fuel ih =>
    cases h.step_cases code with
    | onward hc hd hcalls hwithin hnext => exact .of_onward hc hd hcalls hwithin (ih hnext)
    | ended ho hc hd hcalls hcalls' =>
      refine .ended ho (run_succ_of_ended hc fuel) (run_succ_of_ended hd fuel) ?_ ?_ h
      · rw [trace_succ_of_ended hc, trace_succ_of_ended hd, hcalls, hcalls']
      · rw [trace_succ_of_ended hc, hcalls]
        exact .nil n
    | @cut v c' d' hn hc hinput hrefused hcalls hd hcalls' =>
      subst hn
      rw [← h.machine] at hrefused
      refine .cut (run_succ_of_ended hc fuel) ?_ (.nil 0) (.refl d) hrefused
        ((machine_of_ended hc).trans h.machine.symm) (hinput.trans h.input.symm)
        ⟨d', .of_step hd hcalls'⟩ ⟨d'.trace code fuel, ?_⟩
      · rw [trace_succ_of_ended hc, hcalls]
        rfl
      · rw [trace_succ_of_going hd, hcalls']
        rfl

/-! ## What follows for whole runs -/

/-- The limited output takes the first values that the other is handed. -/
lemma CutOff.taken_trace (h : CutOff n failure c d) (code : Array Instr) (fuel : Nat) :
    Event.taken (c.trace code fuel) = (Event.handed (d.trace code fuel)).take n := by
  cases h.run_cases code fuel with
  | going _ _ htrace hwithin _ =>
    rw [htrace, hwithin.all, List.take_of_length_le hwithin.length_le]
  | ended _ _ _ htrace hwithin _ =>
    rw [htrace, hwithin.all, List.take_of_length_le hwithin.length_le]
  | @cut v before _ _ _ htrace hwithin _ _ _ _ _ hmore =>
    obtain ⟨later, hlater⟩ := hmore
    have hrefused : Event.taken [.write v (.failed failure)] = [] := rfl
    rw [htrace, hlater, Event.taken_append, Event.handed_append, hwithin.all, hrefused,
      List.append_nil]
    exact (List.take_left' hwithin.left).symm

/-- A run that is cut has ended where the other makes one delivery more than the output takes. -/
lemma CutOff.cut (h : CutOff n failure c d) (hc : c.Ends code events (.ofFailure .write failure) c') :
    ∃ before v e, events = before ++ [.write v (.failed failure)] ∧
      (Event.handed before).length = n ∧ d.Reaches code before e ∧
      (∃ e', d.Reaches code (before ++ [.write v .accepted]) e') ∧
      e.machine.Refused code (.write v (.failed failure)) (.ofFailure .write failure) ∧
      c'.machine = e.machine ∧ c'.input = e.input := by
  obtain ⟨fuel, hrun, rfl⟩ := ends_iff_run.mp hc
  cases h.run_cases code fuel with
  | going hgoing _ _ _ _ => cases hrun.symm.trans hgoing
  | ended ho hended _ _ _ _ =>
    cases hrun.symm.trans hended
    simp at ho
  | @cut v before _ e hended htrace hwithin he hrefused hmachine hinput he' _ =>
    cases hrun.symm.trans hended
    exact ⟨before, v, e, htrace, hwithin.left, he, he', hrefused, hmachine, hinput⟩

/-- A run is cut if the other hands over more than the output takes. -/
lemma CutOff.exists_cut (h : CutOff n failure c d)
    (hn : n < (Event.handed (d.trace code fuel)).length) :
    ∃ events c', c.Ends code events (.ofFailure .write failure) c' := by
  cases h.run_cases code fuel with
  | going _ _ htrace hwithin _ =>
    rw [htrace] at hn
    exact (Nat.not_lt_of_le hwithin.length_le hn).elim
  | ended _ _ _ htrace hwithin _ =>
    rw [htrace] at hn
    exact (Nat.not_lt_of_le hwithin.length_le hn).elim
  | cut hended _ _ _ _ _ _ _ _ => exact ⟨_, _, ends_iff_run.mpr ⟨fuel, hended, rfl⟩⟩

/-- As long as the other run hands over no more than the output takes, the runs are the same. -/
lemma CutOff.run_eq (h : CutOff n failure c d)
    (hn : (Event.handed (d.trace code fuel)).length ≤ n) :
    d.trace code fuel = c.trace code fuel ∧ ∀ o m i,
      (∃ c', c.run code fuel = .ended o c' ∧ c'.machine = m ∧ c'.input = i) ↔
        ∃ d', d.run code fuel = .ended o d' ∧ d'.machine = m ∧ d'.input = i := by
  cases h.run_cases code fuel with
  | going hc hd htrace _ _ =>
    refine ⟨htrace, fun o m i => ?_⟩
    rw [hc, hd]
    constructor
    · rintro ⟨c', hc', -⟩
      cases hc'
    · rintro ⟨d', hd', -⟩
      cases hd'
  | ended _ hc hd htrace _ hlast =>
    refine ⟨htrace, fun o m i => ?_⟩
    rw [hc, hd]
    constructor
    · rintro ⟨c', hc', rfl, rfl⟩
      cases hc'
      exact ⟨_, rfl, hlast.machine, hlast.input⟩
    · rintro ⟨d', hd', rfl, rfl⟩
      cases hd'
      exact ⟨_, rfl, hlast.machine.symm, hlast.input.symm⟩
  | cut _ _ hwithin _ _ _ _ _ hmore =>
    obtain ⟨later, hlater⟩ := hmore
    have hmany : n < (Event.handed (d.trace code fuel)).length := by
      rw [hlater, Event.handed_append, List.length_append, ← hwithin.left]
      exact Nat.lt_add_of_pos_right (Nat.succ_pos _)
    exact (Nat.not_lt_of_le hn hmany).elim

end Config

namespace Session

/-- **An output that stops taking cuts a run at the value that it does not take.** Compare a run of a
session on an output that takes `n` values and then fails with one on an output that never fails, on
the same input, which never fails either.

After any number of steps the limited output has taken the first `n` of the values that the other has
been handed. The limited run ends with a failing delivery if and only if the other makes more than `n`
of them, whether that one ends or not: with a fault, unless there are no words for what the delivery
fails with. It ends then at the instruction that makes delivery number
`n + 1`, on the machine and the input that the other run has just before, with the same calls until
there. Otherwise the two runs make the same calls, and if one of them ends so does the other, in the
same way and with the same session and input left behind. -/
theorem cut_at_limit {ι ω χ : Type} [Source ι] [Sink ω] [Sink χ] (s : Session) (input : ι)
    (limited : ω) (unlimited : χ) {n : Nat} {failure : Failure} (hin : Source.FailsAtMost 0 input)
    (hlimited : Sink.StopsAfter n failure limited) (hunlimited : Sink.FailsAtMost 0 unlimited) :
    let c : Streams := ⟨ι, ω, input, limited⟩
    let c' : Streams := ⟨ι, χ, input, unlimited⟩
    (∀ fuel, Event.taken ((s.start c).trace s.code fuel) =
      (Event.handed ((s.start c').trace s.code fuel)).take n) ∧
    ((∃ events r, s.Ends c events r ∧ r.outcome = .ofFailure .write failure) ↔
      ∃ events, s.Makes c' events ∧ n < (Event.handed events).length) ∧
    (∀ events r, s.Ends c events r → r.outcome = .ofFailure .write failure →
      ∃ before v e, events = before ++ [.write v (.failed failure)] ∧
        (Event.handed before).length = n ∧ (s.start c').Reaches s.code before e ∧
        s.Makes c' (before ++ [.write v .accepted]) ∧
        e.machine.Refused s.code (.write v (.failed failure)) (.ofFailure .write failure) ∧
        r.session.machine = e.machine ∧ r.input = e.input) ∧
    ((∀ events, s.Makes c' events → (Event.handed events).length ≤ n) →
      (∀ events, s.Makes c events ↔ s.Makes c' events) ∧
      ∀ events o t i,
        (∃ r, s.Ends c events r ∧ r.outcome = o ∧ r.session = t ∧ r.input = i) ↔
          ∃ r, s.Ends c' events r ∧ r.outcome = o ∧ r.session = t ∧ r.input = i) := by
  intro c c'
  have h : (s.start c).CutOff n failure (s.start c') := ⟨rfl, rfl, hin, hlimited, hunlimited⟩
  refine ⟨h.taken_trace s.code, ⟨?_, ?_⟩, ?_, ?_⟩
  · rintro ⟨events, r, hend, ho⟩
    obtain ⟨hrun, -⟩ := ends_iff.mp hend
    rw [ho] at hrun
    obtain ⟨before, v, e, -, hcount, -, ⟨e', he'⟩, -⟩ := h.cut hrun
    refine ⟨_, makes_iff.mpr (.inl ⟨e', he'⟩), ?_⟩
    rw [Event.handed_append, List.length_append, hcount]
    exact Nat.lt_succ_self n
  · rintro ⟨events, ⟨fuel, rfl⟩, hmore⟩
    obtain ⟨events, d, hd⟩ := h.exists_cut hmore
    exact ⟨events, _, ends_of_config hd, rfl⟩
  · intro events r hend ho
    obtain ⟨hrun, -⟩ := ends_iff.mp hend
    rw [ho] at hrun
    obtain ⟨before, v, e, hevents, hcount, he, he', hrefused, hmachine, hinput⟩ := h.cut hrun
    exact ⟨before, v, e, hevents, hcount, he, makes_iff.mpr (.inl he'), hrefused, hmachine, hinput⟩
  · intro hfew
    have hsame := fun fuel => h.run_eq (hfew _ ⟨fuel, rfl⟩)
    refine ⟨fun events => ?_, fun events o t i => ?_⟩
    · exact exists_congr fun fuel => by rw [(hsame fuel).1]
    · rw [exists_ends_iff, exists_ends_iff]
      exact exists_congr fun fuel => by rw [(hsame fuel).1, (hsame fuel).2]

/-- A program that begins with `+[` enters the loop. -/
private lemma computes_inside {code : Array Instr} (h0 : code[0]? = some (.counted .add 1))
    (h1 : code[1]? = some (.plain .openLoop)) :
    Machine.Computes code {} ⟨Tape.blank.add 1, 2, [1]⟩ := by
  have hraised : (Tape.blank.add 1).current ≠ 0 := by
    rw [Tape.current_add_blank]
    decide
  exact .counted h0 (.enter h1 hraised (.refl _))

/-- A program that writes for ever ends at the third delivery if its output takes two values, without a
fault if there are no words for what the delivery fails with. -/
theorem cut_at_limit_forever :
    let s := ofProgram [.counted .add 1, .plain .openLoop, .plain .output, .plain .closeLoop]
    let failure : Failure := .obscure (.record [(Datum.wording, .null)]) rfl
    let input : Input.Script := ⟨[]⟩
    let limited : Output.Script := { limit := some (2, failure) }
    let unlimited : Output.Discard := {}
    let c : Streams := ⟨Input.Script, Output.Script, input, limited⟩
    let c' : Streams := ⟨Input.Script, Output.Discard, input, unlimited⟩
    Source.FailsAtMost 0 input ∧ Sink.StopsAfter 2 failure limited ∧ Sink.FailsAtMost 0 unlimited ∧
      (∀ events r, ¬ s.Ends c' events r) ∧
      ∃ events r before v e, s.Ends c events r ∧ r.outcome = .undescribed ∧
        events = before ++ [.write v (.failed failure)] ∧ (Event.handed before).length = 2 ∧
        (s.start c').Reaches s.code before e ∧
        e.machine.Refused s.code (.write v (.failed failure)) .undescribed ∧
        r.session.machine = e.machine := by
  intro s failure input limited unlimited c c'
  have hin : Source.FailsAtMost 0 input := Input.Script.failsAtMost []
  have hlimited : Sink.StopsAfter 2 failure limited := Output.Script.stopsAfter rfl rfl
  have hunlimited : Sink.FailsAtMost 0 unlimited := Output.Discard.failsAtMost unlimited
  -- the machine inside the loop, which comes back to it with every delivery
  let inside : Config Input.Script Output.Discard := ⟨⟨Tape.blank.add 1, 2, [1]⟩, input, unlimited⟩
  have hcell : inside.machine.tape.current = 1 := Tape.current_add_blank 1
  have hnonzero : inside.machine.tape.current ≠ 0 := by
    rw [hcell]
    decide
  have hdemand : inside.machine.demand s.code = .write 1 :=
    Machine.demand_eq_write_iff.mpr ⟨rfl, hcell⟩
  have henter : (s.start c').Reaches s.code [] inside :=
    .of_computes (computes_inside rfl rfl) input unlimited
  have hwrite : inside.Reaches s.code [.write 1 .accepted] ⟨inside.machine.sent, input, unlimited⟩ :=
    .of_step (Config.step_of_write hdemand rfl) (Config.calls_of_write hdemand)
  have hagain : inside.machine.sent.Computes s.code inside.machine :=
    .again rfl rfl hnonzero (.refl _)
  have hround : inside.Reaches s.code [.write 1 .accepted] inside :=
    hwrite.trans (.of_computes hagain input unlimited)
  have hforever : ∀ events o d, ¬ inside.Ends s.code events o d := by
    intro events
    induction events with
    | nil =>
      intro o d hend
      obtain ⟨rest, hrest, -⟩ := hround.ends_of_ends hend
      cases hrest
    | cons event events ih =>
      intro o d hend
      obtain ⟨rest, hrest, hend'⟩ := hround.ends_of_ends hend
      cases hrest
      exact ih o d hend'
  have hthree := henter.trans (hround.trans (hround.trans hround))
  obtain ⟨-, hiff, hcut, -⟩ := cut_at_limit s input limited unlimited hin hlimited hunlimited
  obtain ⟨events, r, hend, ho⟩ :=
    hiff.mpr ⟨_, makes_iff.mpr (.inl ⟨inside, hthree⟩), Nat.lt_succ_self 2⟩
  obtain ⟨before, v, e, hevents, hcount, he, -, hrefused, hmachine, -⟩ := hcut events r hend ho
  refine ⟨hin, hlimited, hunlimited, fun events r hend => ?_,
    events, r, before, v, e, hend, ho, hevents, hcount, he, hrefused, hmachine⟩
  obtain ⟨rest, -, hrest⟩ := henter.ends_of_ends (ends_iff.mp hend).1
  exact hforever rest _ _ hrest

end Session

end TapeLang
