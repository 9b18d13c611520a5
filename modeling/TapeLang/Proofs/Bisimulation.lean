import TapeLang.Proofs.History

/-!
# Programs that cannot be told apart

Two programs may compute in different ways and still be the same to everyone who sees only their
streams, their endings and their tapes. To show this, the machines of the two are related, and it is
shown that related machines can be brought level: each computes on by itself to a place where both
demand the same, over the same tape, and once the demand is met they are related again
(`Machine.Level`, `Machine.Bisimulation`). How many instructions each carries out in between is its
own affair.

What is asked of the machines may depend on how they came about. A bisimulation therefore has a
condition for each side, and speaks only of machines that can compute nothing but what meets it.
With a condition for both sides the notion is symmetric (`Machine.Bisimulation.symm`), and one
induction along a run does for both directions.

`Session.Alike` says what it is that cannot be told apart, for all run calls of a session, and
`Session.alike_of_bisimulation` that a bisimulation is enough.
-/

namespace TapeLang

/-- Two endings are the same, where the index of a stray bracket in the one program stands for its
index in the other. -/
inductive Outcome.Matches (Q : Nat → Nat → Prop) : Outcome → Outcome → Prop where
  | finished : Matches Q .finished .finished
  | read (cause : Cause) : Matches Q (.faulted (.read cause)) (.faulted (.read cause))
  | write (cause : Cause) : Matches Q (.faulted (.write cause)) (.faulted (.write cause))
  | stray {i j : Nat} (h : Q i j) : Matches Q (.faulted (.stray i)) (.faulted (.stray j))
  | undescribed : Matches Q .undescribed .undescribed

/-- A stream that has failed ends two runs in the same way. -/
lemma Outcome.matches_ofFailure {Q : Nat → Nat → Prop} {fault : Cause → Fault}
    (h : ∀ c, Matches Q (.faulted (fault c)) (.faulted (fault c))) (failure : Failure) :
    (ofFailure fault failure).Matches Q (ofFailure fault failure) := by
  cases failure with
  | cause c => exact h c
  | obscure d h => exact .undescribed

lemma Outcome.Matches.symm {Q : Nat → Nat → Prop} {o o' : Outcome} (h : o.Matches Q o') :
    o'.Matches (flip Q) o := by
  cases h with
  | finished => exact .finished
  | read cause => exact .read cause
  | write cause => exact .write cause
  | stray hQ => exact .stray hQ
  | undescribed => exact .undescribed

namespace Machine

/-- Related machines that demand the same over the same tape, and stay related when that is met. -/
structure Level (a b : Array Instr) (Q : Nat → Nat → Prop) (R : Machine → Machine → Prop)
    (m n : Machine) : Prop where
  rel : R m n
  tape : m.tape = n.tape
  demand : m.demand a = n.demand b
  stray : m.demand a = .stray → Q m.pc n.pc
  compute : m.demand a = .compute → R (m.compute a) (n.compute b)
  receive : m.demand a = .read → ∀ v, R (m.receive v) (n.receive v)
  sent : ∀ v, m.demand a = .write v → R m.sent n.sent

/-- Related machines come level, if all that they compute on the way meets the condition of their
side. -/
def Bisimulation (a b : Array Instr) (P P' : Machine → Prop) (Q : Nat → Nat → Prop)
    (R : Machine → Machine → Prop) : Prop :=
  ∀ m n, R m n → (∀ m', m.Computes a m' → P m') → (∀ n', n.Computes b n' → P' n') →
    ∃ m' n', m.Computes a m' ∧ n.Computes b n' ∧ Level a b Q R m' n'

variable {a b : Array Instr} {P P' : Machine → Prop} {Q : Nat → Nat → Prop}
  {R : Machine → Machine → Prop} {m n : Machine}

lemma Level.symm (h : Level a b Q R m n) : Level b a (flip Q) (flip R) n m where
  rel := h.rel
  tape := h.tape.symm
  demand := h.demand.symm
  stray hd := h.stray (h.demand.trans hd)
  compute hd := h.compute (h.demand.trans hd)
  receive hd := h.receive (h.demand.trans hd)
  sent v hd := h.sent v (h.demand.trans hd)

theorem Bisimulation.symm (h : Bisimulation a b P P' Q R) :
    Bisimulation b a P' P (flip Q) (flip R) := by
  intro n m hR hP' hP
  obtain ⟨m', n', hm, hn, hlevel⟩ := h m n hR hP hP'
  exact ⟨n', m', hn, hm, hlevel.symm⟩

/-! ## A step from level machines -/

variable {ι ω : Type} [Source ι] [Sink ω] {input : ι} {output : ω} {c : Config ι ω} {o : Outcome}

lemma Level.calls_eq (h : Level a b Q R m n) (input : ι) (output : ω) :
    (⟨n, input, output⟩ : Config ι ω).calls b = (⟨m, input, output⟩ : Config ι ω).calls a := by
  unfold Config.calls
  rw [← h.demand]

/-- If one of two level machines goes on, so does the other, and in the same way. -/
lemma Level.step_going (h : Level a b Q R m n)
    (hs : (⟨m, input, output⟩ : Config ι ω).step a = .going c) :
    ∃ n', (⟨n, input, output⟩ : Config ι ω).step b = .going ⟨n', c.input, c.output⟩ ∧
      R c.machine n' := by
  rcases Config.going_cases hs with ⟨hd, rfl⟩ | ⟨v, hd, hv, rfl⟩ | ⟨v, output', hd, hw, rfl⟩
  · exact ⟨_, Config.step_of_compute (h.demand.symm.trans hd), h.compute hd⟩
  · exact ⟨_, Config.step_of_read (h.demand.symm.trans hd) hv, h.receive hd v⟩
  · exact ⟨_, Config.step_of_write (h.demand.symm.trans hd) hw, h.sent v hd⟩

/-- If one of two level machines stops, so does the other, and in the same way. -/
lemma Level.step_ended (h : Level a b Q R m n)
    (hs : (⟨m, input, output⟩ : Config ι ω).step a = .ended o c) :
    c.machine = m ∧ ∃ o', o.Matches Q o' ∧
      (⟨n, input, output⟩ : Config ι ω).step b = .ended o' ⟨n, c.input, c.output⟩ := by
  refine ⟨Config.machine_of_ended hs, ?_⟩
  rcases Config.ended_cases hs with ⟨rfl, hd, rfl⟩ | ⟨rfl, hd, rfl⟩ | ⟨failure, rfl, hd, hb, rfl⟩ |
    ⟨failure, v, rfl, hd, hw, rfl⟩
  · exact ⟨_, .finished, Config.step_of_halted (h.demand.symm.trans hd)⟩
  · exact ⟨_, .stray (h.stray hd), Config.step_of_stray (h.demand.symm.trans hd)⟩
  · exact ⟨_, Outcome.matches_ofFailure .read failure, Config.step_of_read_failed (h.demand.symm.trans hd) hb⟩
  · refine ⟨_, Outcome.matches_ofFailure .write failure,
      Config.step_of_write_failed (h.demand.symm.trans hd) ?_⟩
    show Sink.write output v.toNat = (_, (Sink.write output v.toNat).2)
    rw [← hw]

end Machine

/-! ## Along a run -/

namespace Config

variable {ι ω : Type} [Source ι] [Sink ω] {a b : Array Instr} {P P' : Machine → Prop}
  {Q : Nat → Nat → Prop} {R : Machine → Machine → Prop} {c c' d : Config ι ω} {o : Outcome}
  {events : List Event}

/-- All machines of a run from `c` meet a condition. -/
def Safe (code : Array Instr) (P : Machine → Prop) (c : Config ι ω) : Prop :=
  ∀ events d, c.Reaches code events d → P d.machine

lemma Safe.reaches (h : c.Safe a P) (hd : c.Reaches a events d) : d.Safe a P := by
  intro events' e he
  exact h _ e (hd.trans he)

lemma Safe.computes (h : c.Safe a P) {m : Machine} (hm : c.machine.Computes a m) : P m :=
  h [] _ (Reaches.of_computes hm c.input c.output)

/-- The machines of two runs on the same streams are on the way to being level. -/
structure Near (a b : Array Instr) (P P' : Machine → Prop) (Q : Nat → Nat → Prop)
    (R : Machine → Machine → Prop) (c d : Config ι ω) : Prop where
  input : c.input = d.input
  output : c.output = d.output
  safe : c.Safe a P
  safe' : d.Safe b P'
  meet : ∃ m n, c.machine.Computes a m ∧ d.machine.Computes b n ∧ Machine.Level a b Q R m n

lemma near_of_rel (hB : Machine.Bisimulation a b P P' Q R) (hR : R c.machine d.machine)
    (hi : c.input = d.input) (ho : c.output = d.output) (hP : c.Safe a P) (hP' : d.Safe b P') :
    Near a b P P' Q R c d :=
  ⟨hi, ho, hP, hP', hB _ _ hR (fun _ hm => hP.computes hm) fun _ hn => hP'.computes hn⟩

lemma Near.symm (h : Near a b P P' Q R c d) : Near b a P' P (flip Q) (flip R) d c := by
  obtain ⟨m, n, hm, hn, hlevel⟩ := h.meet
  exact ⟨h.input.symm, h.output.symm, h.safe', h.safe, n, m, hn, hm, hlevel.symm⟩

/-- A step of the one run is made good by some steps of the other. -/
lemma Near.step (hB : Machine.Bisimulation a b P P' Q R) (h : Near a b P P' Q R c d)
    (hs : c.step a = .going c') :
    ∃ d', d.Reaches b (c.calls a) d' ∧ Near a b P P' Q R c' d' := by
  obtain ⟨hi, ho, hP, hP', m, n, hm, hn, hlevel⟩ := h
  have hsafe : c'.Safe a P := hP.reaches (.one hs)
  obtain ⟨machine, input, output⟩ := c
  obtain ⟨machine', input', output'⟩ := d
  obtain rfl : input = input' := hi
  obtain rfl : output = output' := ho
  cases hm with
  | refl =>
    -- the one is level already, so the other is brought there and takes the same step
    obtain ⟨n', hstep, hR⟩ := hlevel.step_going hs
    have hreach := (Reaches.of_computes hn input output).trans (.one hstep)
    rw [List.nil_append, hlevel.calls_eq] at hreach
    exact ⟨_, hreach, near_of_rel hB hR rfl rfl hsafe (hP'.reaches hreach)⟩
  | step hd hm =>
    have hdemand : (⟨machine, input, output⟩ : Config ι ω).machine.demand a = .compute := hd
    rw [step_of_compute hdemand] at hs
    cases hs
    rw [calls_of_compute hdemand]
    exact ⟨_, .refl _, rfl, rfl, hsafe, hP', m, n, hm, hn, hlevel⟩

/-- What two runs that end alike leave. -/
structure SameEnd (Q : Nat → Nat → Prop) (R : Machine → Machine → Prop) (o o' : Outcome)
    (c d : Config ι ω) : Prop where
  outcome : o.Matches Q o'
  tape : c.machine.tape = d.machine.tape
  input : c.input = d.input
  output : c.output = d.output
  rel : R c.machine d.machine

/-- If the next step of the one run is its last, the other ends too. -/
lemma Near.last (h : Near a b P P' Q R c d) (hs : c.step a = .ended o c') :
    ∃ o' d', d.Ends b (c.calls a) o' d' ∧ SameEnd Q R o o' c' d' := by
  obtain ⟨hi, ho, -, -, m, n, hm, hn, hlevel⟩ := h
  obtain ⟨machine, input, output⟩ := c
  obtain ⟨machine', input', output'⟩ := d
  obtain rfl : input = input' := hi
  obtain rfl : output = output' := ho
  cases hm with
  | refl =>
    obtain ⟨hmachine, o', hmatch, hstep⟩ := hlevel.step_ended hs
    have hend := (Reaches.of_computes hn input output).ends (.last hstep)
    rw [List.nil_append, hlevel.calls_eq] at hend
    refine ⟨o', _, hend, hmatch, ?_, rfl, rfl, ?_⟩
    · rw [hmachine]
      exact hlevel.tape
    · rw [hmachine]
      exact hlevel.rel
  | step hd _ =>
    have hdemand : (⟨machine, input, output⟩ : Config ι ω).machine.demand a = .compute := hd
    rw [step_of_compute hdemand] at hs
    cases hs

/-- What the one run comes to, the other comes to with the same calls. -/
theorem Near.reaches (hB : Machine.Bisimulation a b P P' Q R) (h : Near a b P P' Q R c d)
    (hc : c.Reaches a events c') : ∃ d', d.Reaches b events d' := by
  induction hc generalizing d with
  | refl c => exact ⟨d, .refl d⟩
  | step hs _ ih =>
    obtain ⟨d₁, hd₁, hnear⟩ := h.step hB hs
    obtain ⟨d', hd'⟩ := ih hnear
    exact ⟨d', hd₁.trans hd'⟩

/-- If the one run ends, so does the other, with the same calls and in the same way. -/
theorem Near.ends (hB : Machine.Bisimulation a b P P' Q R) (h : Near a b P P' Q R c d)
    (hc : c.Ends a events o c') :
    ∃ o' d', d.Ends b events o' d' ∧ SameEnd Q R o o' c' d' := by
  induction hc generalizing d with
  | last hs => exact h.last hs
  | step hs _ ih =>
    obtain ⟨d₁, hd₁, hnear⟩ := h.step hB hs
    obtain ⟨o', d', hd', hsame⟩ := ih hnear
    exact ⟨o', d', hd₁.ends hd', hsame⟩

/-- The calls that the one run has made at some time, the other has made at some time. -/
lemma Near.exists_trace (hB : Machine.Bisimulation a b P P' Q R) (h : Near a b P P' Q R c d)
    (hc : ∃ fuel, c.trace a fuel = events) : ∃ fuel, d.trace b fuel = events := by
  rw [exists_trace_eq_iff] at hc ⊢
  rcases hc with ⟨c', hc'⟩ | ⟨o, c', hc'⟩
  · exact .inl (h.reaches hB hc')
  · obtain ⟨o', d', hd', -⟩ := h.ends hB hc'
    exact .inr ⟨o', d', hd'⟩

end Config

/-! ## Along a session -/

namespace Session

/-- Two sessions cannot be told apart by a list of run calls. In each of them the two make the same
calls on the streams, whether it ends or not, and if it ends for one it ends for the other, in the
same way and with the same tape and streams, and what comes after it cannot be told apart either. -/
def Alike (Q : Nat → Nat → Prop) : Session → Session → List Streams → Prop
  | _, _, [] => True
  | s, t, c :: calls =>
    (∀ events, s.Makes c events ↔ t.Makes c events) ∧
    ((∃ events r, s.Ends c events r) ↔ ∃ events r, t.Ends c events r) ∧
    ∀ events r events' r', s.Ends c events r → t.Ends c events' r' →
      events = events' ∧ r.outcome.Matches Q r'.outcome ∧ r.session.tape = r'.session.tape ∧
        r.input = r'.input ∧ r.output = r'.output ∧ Alike Q r.session r'.session calls

variable {a b : Array Instr} {P P' : Machine → Prop} {Q : Nat → Nat → Prop}
  {R : Machine → Machine → Prop} {s t : Session} {c : Streams} {calls : List Streams}
  {events : List Event}

lemma Makes.of_near (hB : Machine.Bisimulation a b P P' Q R) (hs : s.code = a) (ht : t.code = b)
    (h : Config.Near a b P P' Q R (s.start c) (t.start c)) (hm : s.Makes c events) :
    t.Makes c events := by
  rw [Makes, hs] at hm
  rw [Makes, ht]
  exact h.exists_trace hB hm

lemma Ends.of_near (hB : Machine.Bisimulation a b P P' Q R) (hs : s.code = a) (ht : t.code = b)
    (h : Config.Near a b P P' Q R (s.start c) (t.start c)) {r : Run c.In c.Out}
    (hr : s.Ends c events r) :
    ∃ r', t.Ends c events r' ∧ Config.SameEnd Q R r.outcome r'.outcome r.config r'.config := by
  obtain ⟨hend, -⟩ := ends_iff.mp hr
  rw [hs] at hend
  obtain ⟨o', d', hd', hsame⟩ := h.ends hB hend
  rw [← ht] at hd'
  exact ⟨_, ends_of_config hd', hsame⟩

/-- Sessions of related machines cannot be told apart, if all states they pass meet the conditions
of the bisimulation. -/
theorem alike_of_bisimulation (hB : Machine.Bisimulation a b P P' Q R) (hs : s.code = a)
    (ht : t.code = b) (hR : R s.machine t.machine) (hP : ∀ m, s.Passes calls m → P m)
    (hP' : ∀ n, t.Passes calls n → P' n) : Alike Q s t calls := by
  induction calls generalizing s t with
  | nil => trivial
  | cons c calls ih =>
    have hsafe : (s.start c).Safe a P := by
      intro events d hd
      rw [← hs] at hd
      exact hP _ (passes_cons_iff.mpr (.inl ⟨events, d, hd, rfl⟩))
    have hsafe' : (t.start c).Safe b P' := by
      intro events d hd
      rw [← ht] at hd
      exact hP' _ (passes_cons_iff.mpr (.inl ⟨events, d, hd, rfl⟩))
    have hnear : Config.Near a b P P' Q R (s.start c) (t.start c) :=
      Config.near_of_rel hB hR rfl rfl hsafe hsafe'
    refine ⟨fun events => ⟨.of_near hB hs ht hnear, .of_near hB.symm ht hs hnear.symm⟩, ?_, ?_⟩
    · constructor
      · rintro ⟨events, r, hr⟩
        obtain ⟨r', hr', -⟩ := hr.of_near hB hs ht hnear
        exact ⟨events, r', hr'⟩
      · rintro ⟨events, r, hr⟩
        obtain ⟨r', hr', -⟩ := hr.of_near hB.symm ht hs hnear.symm
        exact ⟨events, r', hr'⟩
    · intro events r events' r' hr hr'
      obtain ⟨r'', hr'', hsame⟩ := hr.of_near hB hs ht hnear
      obtain ⟨rfl, rfl⟩ := hr''.eq hr'
      refine ⟨rfl, hsame.outcome, hsame.tape, hsame.input, hsame.output, ?_⟩
      refine ih (hr.code_eq.trans hs) (hr'.code_eq.trans ht) hsame.rel ?_ ?_
      · exact fun m hm => hP m (.inr ⟨events, r, hr, hm⟩)
      · exact fun n hn => hP' n (.inr ⟨events, _, hr', hn⟩)

end Session

end TapeLang
