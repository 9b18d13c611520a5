import TapeLang.Proofs.Answers
import TapeLang.Proofs.History
import TapeLang.Proofs.TapeLaws

/-!
# Going on after a failure

A stream that fails ends a run call, but nothing is lost by it: the machine stays where it is, and
the next run call asks for the same again. So a caller who runs a session again after each failure,
on the streams as they were left, gets what one run call would have given on streams that do not
fail at all.

`Session.CutShort` is the caller's loop up to some point, run calls each of which a failing stream
has cut short. The run on mended streams goes along with it (`Config.Mends`). A step that succeeds
is the same step in both (`Config.Mends.step_going`), and a step that fails is made in the one run
and not in the other, which waits (`Config.Mends.step_cut`). The calls of the loop, failures taken
out, are the calls of the other run. Every round uses up a failure, so if there are finitely many
the loop comes to a run call that is not cut short, and that one decides: `Session.resumed_alike`.
-/

namespace TapeLang

/-- The call did not fail. -/
def Event.succeeds : Event → Bool
  | .read answer => answer.succeeds
  | .write _ answer => answer.succeeds

/-- A stream has failed, and that ended the run. -/
def Outcome.isCut : Outcome → Bool
  | .finished => false
  | .faulted f => f.cause?.isSome
  | .undescribed => true

@[simp] lemma Outcome.isCut_ofFailure_read (failure : Failure) :
    (ofFailure .read failure).isCut = true := by
  cases failure <;> rfl

@[simp] lemma Outcome.isCut_ofFailure_write (failure : Failure) :
    (ofFailure .write failure).isCut = true := by
  cases failure <;> rfl

/-- The next instruction of the machine makes a call that fails, and the run ends as that says: the
fault has what the stream failed with for its cause, whatever that is, unless there are no words for
it. -/
inductive Machine.Refused (code : Array Instr) (m : Machine) : Event → Outcome → Prop where
  | read (h : code[m.pc]? = some (.plain .input)) (failure : Failure) :
      Refused code m (.read (.failed failure)) (.ofFailure .read failure)
  | write (h : code[m.pc]? = some (.plain .output)) (failure : Failure) :
      Refused code m (.write m.tape.current.toNat (.failed failure)) (.ofFailure .write failure)

lemma Machine.Refused.succeeds_eq_false {code : Array Instr} {m : Machine} {event : Event}
    {o : Outcome} (h : m.Refused code event o) : event.succeeds = false := by
  cases h with
  | read => rfl
  | write => rfl

namespace Config

variable {ι ω κ χ : Type} [Source ι] [Sink ω] [Source κ] [Sink χ] {code : Array Instr}
  {c c' : Config ι ω} {d d' : Config κ χ} {o : Outcome} {events : List Event} {k : Nat}

/-! ## A run that is cut short -/

/-- A step that a stream cuts short is a call that fails, and only the stream is changed by it. -/
theorem cut_cases (h : c.step code = .ended o c') (ho : o.isCut = true) :
    (∃ failure, o = .ofFailure .read failure ∧ c.machine.demand code = .read ∧
      (Source.read c.input).1 = .failed failure ∧
      c' = { c with input := (Source.read c.input).2 }) ∨
    ∃ failure b, o = .ofFailure .write failure ∧ c.machine.demand code = .write b ∧
      (Sink.write c.output b.toNat).1 = .failed failure ∧
      c' = { c with output := (Sink.write c.output b.toNat).2 } := by
  rcases ended_cases h with ⟨rfl, -⟩ | ⟨rfl, -⟩ | ⟨failure, rfl, hd, hb, hc⟩ | hwrite
  · cases ho
  · cases ho
  · exact .inl ⟨failure, rfl, hd, Reading.eq_failed_of_octet hb, hc⟩
  · exact .inr hwrite

/-- It is one call, and the run ends as that says. -/
lemma refused_of_cut (h : c.step code = .ended o c') (ho : o.isCut = true) :
    ∃ event, c.calls code = [event] ∧ c.machine.Refused code event o := by
  rcases cut_cases h ho with ⟨failure, rfl, hd, hr, -⟩ | ⟨failure, b, rfl, hd, hw, -⟩
  · refine ⟨.read (.failed failure), ?_, .read (Machine.demand_eq_read_iff.mp hd) failure⟩
    rw [calls_of_read hd, hr]
  · obtain ⟨hi, rfl⟩ := Machine.demand_eq_write_iff.mp hd
    refine ⟨.write c.machine.tape.current.toNat (.failed failure), ?_, .write hi failure⟩
    rw [calls_of_write hd, hw]

/-- Of all calls on the two streams `k` fail at most. -/
def FailsAtMost (k : Nat) (c : Config ι ω) : Prop :=
  ∃ m n, m + n = k ∧ Source.FailsAtMost m c.input ∧ Sink.FailsAtMost n c.output

lemma FailsAtMost.step_going (h : c.FailsAtMost k) (hs : c.step code = .going c') :
    c'.FailsAtMost k := by
  obtain ⟨m, n, hk, hin, hout⟩ := h
  rcases going_cases hs with ⟨-, rfl⟩ | ⟨b, -, -, rfl⟩ | ⟨b, output, -, hw, rfl⟩
  · exact ⟨m, n, hk, hin, hout⟩
  · exact ⟨m, n, hk, hin.next, hout⟩
  · refine ⟨m, n, hk, hin, ?_⟩
    have hnext := hout.next b.toNat
    rwa [hw] at hnext

/-- A step that fails is one of those that are allowed. -/
lemma FailsAtMost.step_cut (h : c.FailsAtMost k) (hs : c.step code = .ended o c')
    (ho : o.isCut = true) : ∃ j, k = j + 1 ∧ c'.FailsAtMost j := by
  obtain ⟨m, n, rfl, hin, hout⟩ := h
  rcases cut_cases hs ho with ⟨failure, -, -, hr, rfl⟩ | ⟨failure, b, -, -, hw, rfl⟩
  · obtain ⟨j, rfl, hj⟩ := hin.next_of_failed hr
    exact ⟨j + n, Nat.add_right_comm j 1 n, j, n, rfl, hj, hout⟩
  · obtain ⟨j, rfl, hj⟩ := hout.next_of_failed hw
    exact ⟨m + j, rfl, m, j, rfl, hin, hj⟩

lemma FailsAtMost.reaches (h : c.FailsAtMost k) (hc : c.Reaches code events c') :
    c'.FailsAtMost k := by
  induction hc with
  | refl c => exact h
  | step hs _ ih => exact ih (h.step_going hs)

lemma FailsAtMost.cut (h : c.FailsAtMost k) (hc : c.Ends code events o c')
    (ho : o.isCut = true) : ∃ j, k = j + 1 ∧ c'.FailsAtMost j := by
  obtain ⟨e, before, he, hl, -⟩ := hc.exists_last
  exact (h.reaches he).step_cut hl ho

/-! ## The run on mended streams -/

/-- The machines are the same, and the streams of the one configuration are those of the other
without their failures. -/
structure Mends (d : Config κ χ) (c : Config ι ω) : Prop where
  machine : d.machine = c.machine
  input : Source.Mends d.input c.input
  output : Sink.FailsAtMost 0 d.output

/-- A step that goes on is the same step in both. -/
lemma Mends.step_going (h : d.Mends c) (hs : c.step code = .going c') :
    ∃ d', d.step code = .going d' ∧ d'.Mends c' ∧ d.calls code = c.calls code ∧
      ∀ event ∈ c.calls code, event.succeeds = true := by
  obtain ⟨hmachine, hin, hout⟩ := h
  rcases going_cases hs with ⟨hd, rfl⟩ | ⟨b, hd, hb, rfl⟩ | ⟨b, output, hd, hw, rfl⟩
  · have hd' : d.machine.demand code = .compute := by rwa [hmachine]
    refine ⟨_, step_of_compute hd', ⟨by rw [hmachine], hin, hout⟩, ?_⟩
    rw [calls_of_compute hd, calls_of_compute hd']
    exact ⟨rfl, fun event hevent => nomatch hevent⟩
  · have hd' : d.machine.demand code = .read := by rwa [hmachine]
    have hsucceeds := Reading.succeeds_of_octet hb
    obtain ⟨hread, hnext⟩ := hin.of_succeeds hsucceeds
    have hb' : (Source.read d.input).1.octet = .ok b := by rwa [hread]
    refine ⟨_, step_of_read hd' hb', ⟨by rw [hmachine], hnext, hout⟩, ?_⟩
    rw [calls_of_read hd, calls_of_read hd', hread]
    exact ⟨rfl, List.forall_mem_singleton.mpr hsucceeds⟩
  · have hd' : d.machine.demand code = .write b := by rwa [hmachine]
    have haccepted := hout.accepted b.toNat
    have hw' : Sink.write d.output b.toNat = (.accepted, (Sink.write d.output b.toNat).2) := by
      rw [← haccepted]
    refine ⟨_, step_of_write hd' hw', ⟨by rw [hmachine], hin, hout.next b.toNat⟩, ?_⟩
    rw [calls_of_write hd, calls_of_write hd', haccepted, hw]
    exact ⟨rfl, List.forall_mem_singleton.mpr rfl⟩

/-- A step that a stream cuts short is not made on mended streams. -/
lemma Mends.step_cut (h : d.Mends c) (hs : c.step code = .ended o c')
    (ho : o.isCut = true) : d.Mends c' := by
  obtain ⟨hmachine, hin, hout⟩ := h
  rcases cut_cases hs ho with ⟨failure, -, -, hr, rfl⟩ | ⟨failure, b, -, -, -, rfl⟩
  · exact ⟨hmachine, hin.of_failed hr, hout⟩
  · exact ⟨hmachine, hin, hout⟩

/-- A step that ends the run otherwise ends it in both, without a call. -/
lemma Mends.step_ended (h : d.Mends c) (hs : c.step code = .ended o c') (ho : o.isCut = false) :
    d.step code = .ended o d ∧ d.Mends c' ∧ d.calls code = [] ∧ c.calls code = [] := by
  obtain ⟨hmachine, hin, hout⟩ := h
  rcases ended_cases hs with ⟨rfl, hd, rfl⟩ | ⟨rfl, hd, rfl⟩ | ⟨failure, rfl, -⟩ |
    ⟨failure, b, rfl, -⟩
  · have hd' : d.machine.demand code = .halted := by rwa [hmachine]
    exact ⟨step_of_halted hd', ⟨hmachine, hin, hout⟩, calls_of_halted hd', calls_of_halted hd⟩
  · have hd' : d.machine.demand code = .stray := by rwa [hmachine]
    refine ⟨?_, ⟨hmachine, hin, hout⟩, calls_of_stray hd', calls_of_stray hd⟩
    rw [step_of_stray hd', hmachine]
  · simp at ho
  · simp at ho

/-- What a run comes to, the run on mended streams comes to with the same calls. -/
lemma Mends.reaches (h : d.Mends c) (hc : c.Reaches code events c') :
    ∃ d', d.Reaches code events d' ∧ d'.Mends c' ∧
      ∀ event ∈ events, event.succeeds = true := by
  induction hc generalizing d with
  | refl c => exact ⟨d, .refl d, h, fun event hevent => nomatch hevent⟩
  | step hs _ ih =>
    obtain ⟨d₁, hs', hmends, hcalls, hsucceed⟩ := h.step_going hs
    obtain ⟨d', hd', hmends', hsucceed'⟩ := ih hmends
    refine ⟨d', ?_, hmends', List.forall_mem_append.mpr ⟨hsucceed, hsucceed'⟩⟩
    rw [← hcalls]
    exact .step hs' hd'

/-- Where a run is cut short, the run on mended streams comes to with the calls that succeeded, and
there it stands before the instruction whose call has failed. -/
lemma Mends.cut (h : d.Mends c) (hc : c.Ends code events o c') (ho : o.isCut = true) :
    ∃ d' event, d.Reaches code (events.filter Event.succeeds) d' ∧ d'.Mends c' ∧
      events = events.filter Event.succeeds ++ [event] ∧ d'.machine.Refused code event o := by
  obtain ⟨e, before, he, hl, rfl⟩ := hc.exists_last
  obtain ⟨d', hd', hmends, hsucceed⟩ := h.reaches he
  obtain ⟨event, hcalls, hrefused⟩ := refused_of_cut hl ho
  have hfilter : (before ++ e.calls code).filter Event.succeeds = before := by
    rw [List.filter_append, List.filter_eq_self.mpr hsucceed, hcalls,
      List.filter_cons_of_neg (by simp [hrefused.succeeds_eq_false]), List.filter_nil,
      List.append_nil]
  rw [← hmends.machine] at hrefused
  rw [hfilter, hcalls]
  exact ⟨d', event, hd', hmends.step_cut hl ho, rfl, hrefused⟩

/-- A run that is not cut short ends in the same way on mended streams. -/
lemma Mends.ends (h : d.Mends c) (hc : c.Ends code events o c') (ho : o.isCut = false) :
    ∃ d', d.Ends code events o d' ∧ d'.Mends c' ∧ ∀ event ∈ events, event.succeeds = true := by
  obtain ⟨e, before, he, hl, rfl⟩ := hc.exists_last
  obtain ⟨d', hd', hmends, hsucceed⟩ := h.reaches he
  obtain ⟨hl', hmends', hcalls', hcalls⟩ := hmends.step_ended hl ho
  have hend := hd'.ends (.last hl')
  rw [hcalls', List.append_nil] at hend
  rw [hcalls, List.append_nil]
  exact ⟨d', hend, hmends', hsucceed⟩

/-- A run that ends on mended streams is cut short or ends in the same way. -/
lemma Mends.ends_or_cut (h : d.Mends c) (hd : d.Ends code events o d') :
    (∃ c', c.Ends code events o c') ∨
      ∃ events' o' c', c.Ends code events' o' c' ∧ o'.isCut = true := by
  -- along the run on mended streams; the other run takes the same step or is cut short by it
  induction hd generalizing c with
  | @last d d' o hl =>
    cases hs : c.step code with
    | going c₁ =>
      obtain ⟨d₁, hs', -⟩ := h.step_going hs
      cases hl.symm.trans hs'
    | ended o' c' =>
      cases ho : o'.isCut with
      | true => exact .inr ⟨_, o', c', .last hs, ho⟩
      | false =>
        obtain ⟨hl', -, hcalls', hcalls⟩ := h.step_ended hs ho
        cases hl.symm.trans hl'
        rw [hcalls', ← hcalls]
        exact .inl ⟨c', .last hs⟩
  | @step d d₁ e o events hstep _ ih =>
    cases hs : c.step code with
    | going c₁ =>
      obtain ⟨d₂, hs', hmends, hcalls, -⟩ := h.step_going hs
      obtain rfl := Progress.going.inj (hstep.symm.trans hs')
      rw [hcalls]
      rcases ih hmends with ⟨c', hc'⟩ | ⟨events', o', c', hc', ho'⟩
      · exact .inl ⟨c', .step hs hc'⟩
      · exact .inr ⟨_, o', c', .step hs hc', ho'⟩
    | ended o' c' =>
      cases ho : o'.isCut with
      | true => exact .inr ⟨_, o', c', .last hs, ho⟩
      | false =>
        obtain ⟨hl', -⟩ := h.step_ended hs ho
        cases hstep.symm.trans hl'

end Config

/-! ## The caller's loop -/

/-- The streams as a run call has left them. -/
def Streams.left (c : Streams) (r : Session.Run c.In c.Out) : Streams :=
  { c with input := r.input, output := r.output }

namespace Session

/-- Run calls on the same streams, each of which a failing stream has cut short, with all the calls
that they make, and the session and the streams that they leave. -/
inductive CutShort : Session → Streams → List Event → Session → Streams → Prop where
  /-- No run call yet. -/
  | refl (s : Session) (c : Streams) : CutShort s c [] s c
  /-- One run call and those after it. -/
  | again {s t : Session} {c d : Streams} {events later : List Event} {r : Run c.In c.Out}
      (h : s.Ends c events r) (hcut : r.outcome.isCut = true)
      (hlater : CutShort r.session (c.left r) later t d) : CutShort s c (events ++ later) t d

variable {s t : Session} {c c' d : Streams} {events before : List Event} {r : Run c.In c.Out}
  {k : Nat}

/-- The loop comes to a run call that is not cut short. -/
lemma exists_cutShort (h : (s.start c).FailsAtMost k) :
    ∃ before t d, s.CutShort c before t d ∧
      ∀ events r, t.Ends d events r → r.outcome.isCut = false := by
  induction k using Nat.strongRecOn generalizing s c with
  | ind k ih =>
    -- a run call that is cut short uses up one of the failures that are left
    by_cases hcut : ∃ events r, s.Ends c events r ∧ r.outcome.isCut = true
    · obtain ⟨events, r, hend, ho⟩ := hcut
      obtain ⟨j, rfl, hj⟩ := h.cut (ends_iff.mp hend).1 ho
      obtain ⟨before, t, d, hloop, hlast⟩ :=
        ih j (Nat.lt_succ_self j) (s := r.session) (c := c.left r) hj
      exact ⟨events ++ before, t, d, .again hend ho hloop, hlast⟩
    · refine ⟨[], s, c, .refl s c, fun events r hend => ?_⟩
      exact eq_false_of_ne_true fun ho => hcut ⟨events, r, hend, ho⟩

/-- The run on mended streams goes along with the loop. -/
lemma CutShort.mends {κ χ : Type} [Source κ] [Sink χ] {e : Config κ χ}
    (h : s.CutShort c before t d) (he : e.Mends (s.start c)) :
    t.code = s.code ∧ ∃ e', e.Reaches s.code (before.filter Event.succeeds) e' ∧
      e'.Mends (t.start d) := by
  induction h generalizing e with
  | refl s c => exact ⟨rfl, e, .refl e, he⟩
  | @again s t c d events later r hend ho _ ih =>
    obtain ⟨e₁, -, hreach, hmends, -⟩ := he.cut (ends_iff.mp hend).1 ho
    have hmends' : e₁.Mends (r.session.start (c.left r)) := hmends
    obtain ⟨hcode, e', hreach', hmends''⟩ := ih hmends'
    rw [hend.code_eq] at hcode hreach'
    rw [List.filter_append]
    exact ⟨hcode, e', hreach.trans hreach', hmends''⟩

/-- A run call that no stream cuts short ends as the run on mended streams does. -/
lemma ends_iff_of_mends {κ χ : Type} [Source κ] [Sink χ] {e : Config κ χ} {code : Array Instr}
    (hcode : t.code = code) (h : e.Mends (t.start d))
    (hlast : ∀ events r, t.Ends d events r → r.outcome.isCut = false) (o : Outcome) (u : Session) :
    (∃ r, t.Ends d events r ∧ r.outcome = o ∧ r.session = u) ↔
      ∃ e', e.Ends code events o e' ∧ u = ⟨code, e'.machine⟩ := by
  subst hcode
  constructor
  · rintro ⟨r, hend, rfl, rfl⟩
    obtain ⟨e', he', hmends, -⟩ := h.ends (ends_iff.mp hend).1 (hlast events r hend)
    have hmachine : e'.machine = r.session.machine := hmends.machine
    refine ⟨e', he', ?_⟩
    rw [hmachine, ← hend.code_eq]
  · rintro ⟨e', he', rfl⟩
    rcases h.ends_or_cut he' with ⟨d', hd'⟩ | ⟨events', o', d', hd', ho'⟩
    · have hend := ends_of_config hd'
      obtain ⟨e'', he'', hmends, -⟩ := h.ends hd' (hlast _ _ hend)
      obtain ⟨-, -, rfl⟩ := he''.unique he'
      refine ⟨_, hend, rfl, ?_⟩
      rw [hmends.machine]
    · have hnone := hlast _ _ (ends_of_config hd')
      cases ho'.symm.trans hnone

/-- **A failure costs nothing but another run call.** Let the streams of `c` fail finitely often,
wherever the failures stand, and let those of `c'` be the same without failures. A caller who runs
the session on the streams of `c`, and again after each failure, comes to a run call that no stream
cuts short. It ends if and only if one run call on the streams of `c'` ends, and then in the same
way, with the same session left behind, and the calls made by then are the same calls with the same
answers, failures taken out.

Whenever a stream does cut a run call short, its last call and no other has failed. The machine that
is left is a machine of the run on the streams of `c'`, which has made the same calls otherwise, and
is about to carry out the instruction that makes the failing call. The run has ended with a fault that
has for its cause the very thing that the stream failed with, or without one if there are no words for
that; and it goes on after it in either case. -/
theorem resumed_alike (s : Session) (c c' : Streams) {m n : Nat}
    (hin : Source.FailsAtMost m c.input) (hout : Sink.FailsAtMost n c.output)
    (hin' : Source.Mends c'.input c.input) (hout' : Sink.FailsAtMost 0 c'.output) :
    (∃ before t d, s.CutShort c before t d ∧
      (∀ events r, t.Ends d events r → r.outcome.isCut = false) ∧
      ∀ all o u, (∃ events, (before ++ events).filter Event.succeeds = all ∧
          ∃ r, t.Ends d events r ∧ r.outcome = o ∧ r.session = u) ↔
        ∃ r, s.Ends c' all r ∧ r.outcome = o ∧ r.session = u) ∧
    ∀ before t d events r, s.CutShort c before t d → t.Ends d events r →
      r.outcome.isCut = true →
      ∃ made last e, events = made ++ [last] ∧ (∀ event ∈ made, event.succeeds = true) ∧
        (s.start c').Reaches s.code ((before ++ events).filter Event.succeeds) e ∧
        r.session.machine = e.machine ∧ e.machine.Refused s.code last r.outcome := by
  have hmends : (s.start c').Mends (s.start c) := ⟨rfl, hin', hout'⟩
  constructor
  · obtain ⟨before, t, d, hloop, hlast⟩ := exists_cutShort (s := s) (c := c) ⟨m, n, rfl, hin, hout⟩
    obtain ⟨hcode, e, hreach, hmends'⟩ := hloop.mends hmends
    refine ⟨before, t, d, hloop, hlast, fun all o u => ⟨?_, ?_⟩⟩
    · rintro ⟨events, rfl, r, hend, hr⟩
      obtain ⟨-, -, -, hsucceed⟩ := hmends'.ends (ends_iff.mp hend).1 (hlast events r hend)
      obtain ⟨e', he', rfl⟩ := (ends_iff_of_mends hcode hmends' hlast o u).mp ⟨r, hend, hr⟩
      rw [List.filter_append, List.filter_eq_self.mpr hsucceed]
      exact ⟨_, ends_of_config (hreach.ends he'), rfl, rfl⟩
    · rintro ⟨r, hend, rfl, rfl⟩
      obtain ⟨hend', hcode'⟩ := ends_iff.mp hend
      obtain ⟨rest, rfl, hrest⟩ := hreach.ends_of_ends hend'
      have hsession : r.session = ⟨s.code, r.config.machine⟩ := by
        rw [← hcode']
        rfl
      obtain ⟨r', hr', ho⟩ := (ends_iff_of_mends hcode hmends' hlast _ _).mpr ⟨_, hrest, hsession⟩
      obtain ⟨-, -, -, hsucceed⟩ := hmends'.ends (ends_iff.mp hr').1 (hlast rest r' hr')
      refine ⟨rest, ?_, r', hr', ho⟩
      rw [List.filter_append, List.filter_eq_self.mpr hsucceed]
  · intro before t d events r hloop hend ho
    obtain ⟨hcode, e, hreach, hmends'⟩ := hloop.mends hmends
    obtain ⟨hend', -⟩ := ends_iff.mp hend
    rw [hcode] at hend'
    obtain ⟨e', event, hreach', hmends'', hevents, hrefused⟩ := hmends'.cut hend' ho
    refine ⟨events.filter Event.succeeds, event, e', hevents, ?_, ?_, ?_, hrefused⟩
    · exact fun event hevent => (List.mem_filter.mp hevent).2
    · rw [List.filter_append]
      exact hreach.trans hreach'
    · exact hmends''.machine.symm

/-- A reading that fails with a record that cannot be put into words, and later a delivery that fails
with a fault of another run: two run calls are cut short, the first of them without a fault, and the
third ends as the one run call does that meets no failures. -/
theorem resumed_alike_twice :
    let p : Program := [.plain .input, .plain .output]
    let failure : Failure := .obscure (.record [(Datum.wording, .null)]) rfl
    let cause : Cause := .fault (.stray 3)
    let c : Streams :=
      { In := Input.Script, Out := Output.Script, input := ⟨[.failed failure, .value 65]⟩,
        output := { failing := [(0, cause)] } }
    let c' : Streams :=
      { In := Input.Script, Out := Output.Script, input := ⟨[.value 65]⟩, output := {} }
    let all : List Event := [.read (.value 65), .write 65 .accepted]
    let u : Session := ⟨p.toArray, ⟨Tape.blank.put 65, 2, []⟩⟩
    Source.FailsAtMost 1 c.input ∧ Sink.FailsAtMost 1 c.output ∧
      Source.Mends c'.input c.input ∧ Sink.FailsAtMost 0 c'.output ∧
      (∃ before t d, (ofProgram p).CutShort c before t d ∧
        ∃ events, (before ++ events).filter Event.succeeds = all ∧
          ∃ r, t.Ends d events r ∧ r.outcome = .finished ∧ r.session = u) ∧
      ∃ r, (ofProgram p).Ends c [.read (.failed failure)] r ∧ r.outcome = .undescribed ∧
        ∃ made last e, [.read (.failed failure)] = made ++ [last] ∧
          (∀ event ∈ made, event.succeeds = true) ∧
          ((ofProgram p).start c').Reaches p.toArray [] e ∧ r.session.machine = e.machine ∧
          e.machine.Refused p.toArray last .undescribed := by
  intro p failure cause c c' all u
  have hin : Source.FailsAtMost 1 c.input := Input.Script.failsAtMost [.failed failure, .value 65]
  have hout : Sink.FailsAtMost 1 c.output :=
    Output.Script.failsAtMost { failing := [(0, cause)] } rfl
  have hin' : Source.Mends c'.input c.input := Input.Script.mends [.failed failure, .value 65]
  have hout' : Sink.FailsAtMost 0 c'.output := Output.Script.failsAtMost {} rfl
  obtain ⟨⟨before, t, d, hloop, -, hiff⟩, hcut⟩ :=
    resumed_alike (ofProgram p) c c' hin hout hin' hout'
  refine ⟨hin, hout, hin', hout', ⟨before, t, d, hloop, ?_⟩, ?_⟩
  · have hcell : (Tape.blank.put 65).current = 65 := Tape.current_put_blank 65
    have hread : ((ofProgram p).start c').Reaches p.toArray [.read (.value 65)]
        ⟨⟨Tape.blank.put 65, 1, []⟩, ⟨[]⟩, {}⟩ :=
      .of_step (Config.step_of_read rfl rfl) (Config.calls_of_read rfl)
    have hdemand : Machine.demand p.toArray ⟨Tape.blank.put 65, 1, []⟩ = .write 65 :=
      Machine.demand_eq_write_iff.mpr ⟨rfl, hcell⟩
    have hwrite := Config.Reaches.of_step
      (c := (⟨⟨Tape.blank.put 65, 1, []⟩, ⟨[]⟩, {}⟩ : Config Input.Script Output.Script))
      (Config.step_of_write hdemand rfl) (Config.calls_of_write hdemand)
    have hend := (hread.trans hwrite).ends
      (.of_step (Config.step_of_halted rfl) (Config.calls_of_halted rfl))
    exact (hiff all .finished u).mpr ⟨_, ends_of_config hend, rfl, rfl⟩
  · have hend : (ofProgram p).Ends c [.read (.failed failure)] _ :=
      ends_of_config (.of_step (Config.step_of_read_failed rfl rfl) (Config.calls_of_read rfl))
    exact ⟨_, hend, rfl, hcut [] (ofProgram p) c _ _ (.refl _ _) hend rfl⟩

end Session

end TapeLang
