import TapeLang.Proofs.Step
import TapeLang.Proofs.Trace
import TapeLang.Session

/-!
# The history of a session

A session is run again and again, each time on streams of the caller's choice. Here such a history
is a list of `Streams`, one for each run call, in the state in which the call is given them; streams
that are used twice stand in the list twice, the second time in the state the first call left them
in.

* `Session.Ends` says how one run call ends and which calls it makes on its streams,
  `Session.Makes` which it has made so far, whether it ends or not.
* `Session.After` is the session after a list of run calls that all ended.
* `Session.Passes` are the machines between two instructions, in any of the run calls: the states
  that a statement about every reachable state is about.

What holds of the fresh machine and is kept by every rule of `Machine.Next` holds of all states
that are passed (`Session.Passes.induction`).
-/

namespace TapeLang

/-- An input and an output, of any kind, as a run call is given them. -/
structure Streams where
  /-- The kind of the input. -/
  In : Type
  /-- The kind of the output. -/
  Out : Type
  /-- How the input is read. -/
  [source : Source In]
  /-- How the output is written. -/
  [sink : Sink Out]
  /-- The input. -/
  input : In
  /-- The output. -/
  output : Out

attribute [instance] Streams.source Streams.sink

/-- Nothing to read, and nobody to read what is written. -/
def Streams.silent : Streams where
  In := Input.Closed
  Out := Output.Discard
  input := {}
  output := {}

namespace Session

/-- The configuration in which a run begins. -/
def start (s : Session) (c : Streams) : Config c.In c.Out :=
  ⟨s.machine, c.input, c.output⟩

/-- A run call ends with the result `r` and makes the calls `events`. -/
def Ends (s : Session) (c : Streams) (events : List Event) (r : Run c.In c.Out) : Prop :=
  ∃ fuel, s.run fuel c.input c.output = some r ∧ (s.start c).trace s.code fuel = events

/-- At some time of a run call, which need not end, the calls made so far are `events`. -/
def Makes (s : Session) (c : Streams) (events : List Event) : Prop :=
  ∃ fuel, (s.start c).trace s.code fuel = events

/-- The run calls of a list end, one after the other, and leave the session `t`. -/
def After (s : Session) : List Streams → Session → Prop
  | [], t => t = s
  | c :: calls, t => ∃ events r, s.Ends c events r ∧ r.session.After calls t

/-- In one of the run calls the machine is `m` between two instructions. -/
def Passes (s : Session) : List Streams → Machine → Prop
  | [], _ => False
  | c :: calls, m =>
    (∃ fuel d, (s.start c).run s.code fuel = .going d ∧ d.machine = m) ∨
      ∃ events r, s.Ends c events r ∧ r.session.Passes calls m

variable {s t : Session} {c : Streams} {events : List Event} {r : Run c.In c.Out}
  {calls : List Streams} {m : Machine}

@[simp] lemma code_ofProgram (p : Program) : (ofProgram p).code = p.toArray := rfl

@[simp] lemma machine_ofProgram (p : Program) : (ofProgram p).machine = {} := rfl

@[simp] lemma machine_start (s : Session) (c : Streams) : (s.start c).machine = s.machine := rfl

/-! ## A run call as a run -/

/-- The configuration that a run leaves. -/
def Run.config {ι ω : Type} (r : Run ι ω) : Config ι ω :=
  ⟨r.session.machine, r.input, r.output⟩

lemma run_eq_some_iff {fuel : Nat} :
    s.run fuel c.input c.output = some r ↔
      (s.start c).run s.code fuel = .ended r.outcome r.config ∧ r.session.code = s.code := by
  unfold Session.run
  constructor
  · intro h
    cases hd : (s.start c).run s.code fuel with
    | going d =>
      rw [start] at hd
      rw [hd] at h
      cases h
    | ended o d =>
      rw [start] at hd
      rw [hd] at h
      cases h
      exact ⟨rfl, rfl⟩
  · rintro ⟨hend, hcode⟩
    obtain ⟨outcome, ⟨code, machine⟩, input, output⟩ := r
    rw [start] at hend
    rw [hend]
    cases hcode
    rfl

theorem ends_iff :
    s.Ends c events r ↔
      (s.start c).Ends s.code events r.outcome r.config ∧ r.session.code = s.code := by
  rw [Config.ends_iff_run]
  constructor
  · rintro ⟨fuel, hrun, htrace⟩
    obtain ⟨hend, hcode⟩ := run_eq_some_iff.mp hrun
    exact ⟨⟨fuel, hend, htrace⟩, hcode⟩
  · rintro ⟨⟨fuel, hend, htrace⟩, hcode⟩
    exact ⟨fuel, run_eq_some_iff.mpr ⟨hend, hcode⟩, htrace⟩

lemma Ends.code_eq (h : s.Ends c events r) : r.session.code = s.code :=
  (ends_iff.mp h).2

/-- A run that ends is a run call that ends. -/
lemma ends_of_config {o : Outcome} {d : Config c.In c.Out}
    (h : (s.start c).Ends s.code events o d) :
    s.Ends c events ⟨o, ⟨s.code, d.machine⟩, d.input, d.output⟩ :=
  ends_iff.mpr ⟨h, rfl⟩

/-- How a run call ends and what it leaves apart from its output, by the number of its steps. -/
lemma exists_ends_iff {o : Outcome} {i : c.In} :
    (∃ r, s.Ends c events r ∧ r.outcome = o ∧ r.session = t ∧ r.input = i) ↔
      ∃ fuel, (s.start c).trace s.code fuel = events ∧ t.code = s.code ∧
        ∃ d, (s.start c).run s.code fuel = .ended o d ∧ d.machine = t.machine ∧ d.input = i := by
  constructor
  · rintro ⟨r, ⟨fuel, hrun, htrace⟩, rfl, rfl, rfl⟩
    obtain ⟨hend, hcode⟩ := run_eq_some_iff.mp hrun
    exact ⟨fuel, htrace, hcode, r.config, hend, rfl, rfl⟩
  · rintro ⟨fuel, htrace, hcode, d, hend, hmachine, rfl⟩
    have hrun : s.run fuel c.input c.output = some ⟨o, t, d.input, d.output⟩ := by
      refine run_eq_some_iff.mpr ⟨?_, hcode⟩
      rw [hend, Run.config, ← hmachine]
    exact ⟨_, ⟨fuel, hrun, htrace⟩, rfl, rfl, rfl⟩

/-- A run call ends in one way only. -/
theorem Ends.eq {events' : List Event} {r' : Run c.In c.Out} (h : s.Ends c events r)
    (h' : s.Ends c events' r') : events = events' ∧ r = r' := by
  obtain ⟨hend, hcode⟩ := ends_iff.mp h
  obtain ⟨hend', hcode'⟩ := ends_iff.mp h'
  obtain ⟨rfl, ho, hd⟩ := hend.unique hend'
  obtain ⟨outcome, ⟨code, machine⟩, input, output⟩ := r
  obtain ⟨outcome', ⟨code', machine'⟩, input', output'⟩ := r'
  cases ho
  cases hd
  cases hcode.trans hcode'.symm
  exact ⟨rfl, rfl⟩

theorem makes_iff :
    s.Makes c events ↔
      (∃ d, (s.start c).Reaches s.code events d) ∨
        ∃ o d, (s.start c).Ends s.code events o d :=
  Config.exists_trace_eq_iff

/-- A run call on a machine that cannot go on ends at once and leaves all as it was. -/
lemma ends_of_stray (h : s.machine.demand s.code = .stray) (c : Streams) :
    s.Ends c [] ⟨.faulted (.stray s.machine.pc), s, c.input, c.output⟩ := by
  refine ends_iff.mpr ⟨?_, rfl⟩
  have hstart : (s.start c).machine.demand s.code = .stray := h
  exact .of_step (Config.step_of_stray hstart) (Config.calls_of_stray hstart)

/-! ## The states of a history -/

lemma After.code_eq (h : s.After calls t) : t.code = s.code := by
  induction calls generalizing s with
  | nil =>
    cases h
    rfl
  | cons c calls ih =>
    obtain ⟨events, r, hend, hafter⟩ := h
    rw [ih hafter, hend.code_eq]

/-- A session that cannot go on stays as it is. -/
lemma After.eq_of_stray (h : s.After calls t) (hs : s.machine.demand s.code = .stray) : t = s := by
  induction calls with
  | nil => exact h
  | cons c calls ih =>
    obtain ⟨events, r, hend, hafter⟩ := h
    obtain ⟨-, rfl⟩ := hend.eq (ends_of_stray hs c)
    exact ih hafter

lemma passes_cons_iff :
    s.Passes (c :: calls) m ↔
      (∃ events d, (s.start c).Reaches s.code events d ∧ d.machine = m) ∨
        ∃ events r, s.Ends c events r ∧ r.session.Passes calls m := by
  have hiff : (∃ fuel d, (s.start c).run s.code fuel = .going d ∧ d.machine = m) ↔
      ∃ events d, (s.start c).Reaches s.code events d ∧ d.machine = m := by
    simp only [Config.reaches_iff_run]
    constructor
    · rintro ⟨fuel, d, hrun, rfl⟩
      exact ⟨_, d, ⟨fuel, hrun, rfl⟩, rfl⟩
    · rintro ⟨events, d, ⟨fuel, hrun, -⟩, rfl⟩
      exact ⟨fuel, d, hrun, rfl⟩
  rw [← hiff]
  rfl

/-- What a run call reaches after some others, the session passes. -/
lemma After.passes {d : Config c.In c.Out} (h : s.After calls t)
    (hd : (t.start c).Reaches t.code events d) : s.Passes (calls ++ [c]) d.machine := by
  induction calls generalizing s with
  | nil =>
    cases h
    exact passes_cons_iff.mpr (.inl ⟨events, d, hd, rfl⟩)
  | cons c' calls ih =>
    obtain ⟨events', r', hend, hafter⟩ := h
    exact .inr ⟨events', r', hend, ih hafter⟩

/-- A run call that ends after some others ends with a step from a state that the session passes,
and leaves the machine of that state. -/
lemma After.exists_last (h : s.After calls t) (hr : t.Ends c events r) :
    ∃ (d : Config c.In c.Out) (before : List Event), s.Passes (calls ++ [c]) d.machine ∧
      d.step t.code = .ended r.outcome r.config ∧ events = before ++ d.calls t.code ∧
      r.session.machine = d.machine := by
  obtain ⟨d, before, hd, hl, hevents⟩ := (ends_iff.mp hr).1.exists_last
  exact ⟨d, before, h.passes hd, hl, hevents, Config.machine_of_ended hl⟩

/-- Between run calls the machine is the one the session began with or one that it has passed. -/
lemma After.eq_or_passes (h : s.After calls t) :
    t.machine = s.machine ∨ s.Passes calls t.machine := by
  induction calls generalizing s with
  | nil =>
    cases h
    exact .inl rfl
  | cons c calls ih =>
    obtain ⟨events, r, hend, hafter⟩ := h
    right
    rcases ih hafter with heq | hpasses
    · obtain ⟨d, before, hd, hl, -⟩ := (ends_iff.mp hend).1.exists_last
      have hmachine : r.session.machine = d.machine := Config.machine_of_ended hl
      rw [heq, hmachine]
      exact passes_cons_iff.mpr (.inl ⟨before, d, hd, rfl⟩)
    · exact .inr ⟨events, r, hend, hpasses⟩

/-- What the first machine of a run has, and every rule keeps, all machines of the run have. For a
rule the machine it starts from may be taken to be one of the run. -/
lemma machine_induction {code : Array Instr} {I : Machine → Prop} {d e : Config c.In c.Out}
    (h : d.Reaches code events e) (h0 : I d.machine)
    (hstep : ∀ {before a n}, d.Reaches code before a → I a.machine →
      a.machine.Next code n → I n) : I e.machine := by
  induction h with
  | refl d => exact h0
  | step hs _ ih =>
    refine ih (hstep (.refl _) h0 (Config.next_of_step hs)) ?_
    intro before a n ha hI hn
    exact hstep (.step hs ha) hI hn

/-- What the first machine of a session has, and every rule keeps, all machines have that the
session passes. For a rule the machine it starts from may be taken to be one of them. -/
theorem Passes.induction {I : Machine → Prop} (h : s.Passes calls m) (h0 : I s.machine)
    (hstep : ∀ {m n}, s.Passes calls m → I m → m.Next s.code n → I n) : I m := by
  induction calls generalizing s with
  | nil => exact h.elim
  | cons c calls ih =>
    have hrun : ∀ {events : List Event} {d : Config c.In c.Out},
        (s.start c).Reaches s.code events d → I d.machine := fun hd =>
      machine_induction hd h0 fun ha hI hn =>
        hstep (passes_cons_iff.mpr (.inl ⟨_, _, ha, rfl⟩)) hI hn
    rcases passes_cons_iff.mp h with ⟨events, d, hd, rfl⟩ | ⟨events, r, hend, hm⟩
    · exact hrun hd
    · have hr : I r.session.machine := by
        obtain ⟨e, before, he, hl, -⟩ := (ends_iff.mp hend).1.exists_last
        have hre : r.session.machine = e.machine := Config.machine_of_ended hl
        rw [hre]
        exact hrun he
      refine ih hm hr ?_
      intro a n ha hI hn
      rw [hend.code_eq] at hn
      exact hstep (.inr ⟨events, r, hend, ha⟩) hI hn

end Session

end TapeLang
