import TapeLang.Proofs.Brackets.LoopStack
import TapeLang.Proofs.Resumption
import TapeLang.Proofs.Structure.Adequacy
import TapeLang.Proofs.Structure.Insertion

/-!
# One program behind another

Indices and loops are absolute, and a program that stands behind another has all of them moved. That it
is nevertheless run as it would be by itself, when the first is over, is a matter of the first alone,
and the first has to be balanced: a loop that it left open could be closed in the second, and one that
is passed over would lead there.

As long as a balanced program is not over, the machine takes the same steps whatever stands behind it
(`Config.step_append`), since every loop it passes over ends in it; and where it is over no loop is
being run (`Machine.Tracks.loops_eq_nil`). From there the machine is that of the second program, moved
(`Machine.behind_bisimulation`), of which nothing is asked. The two runs are put together in
`Config.run_append`, step by step because neither need end, and `Session.append_in_turn` says it of run
calls.
-/

namespace TapeLang

namespace Program

variable {p q : Program} {i : Nat}

/-- In a balanced program the scan finds the end of every loop. -/
lemma Balanced.exists_closeIn (h : p.Balanced) (ho : p[i]? = some (.plain .openLoop)) :
    ∃ j, closeIn (p.drop (i + 1)) 0 = some j := by
  refine Option.ne_none_iff_exists'.mp fun hnone => ?_
  have hp : pending p (i + 1) = [] ++ i :: pending p i := pending_succ_of_openLoop ho
  obtain ⟨T, hT⟩ := pending_of_closeIn_eq_none rfl hnone hp rfl (lt_length ho)
  rw [h.1] at hT
  simp at hT

/-- A loop of a balanced program is passed over in the same way whatever stands behind the program. -/
lemma Balanced.partner_append (h : p.Balanced) (ho : p[i]? = some (.plain .openLoop))
    (q : Program) : partner (p ++ q).toArray i = partner p.toArray i := by
  obtain ⟨j, hj⟩ := h.exists_closeIn ho
  have hlong : closeIn ((p ++ q).drop (i + 1)) 0 = some j := by
    rw [List.drop_append_of_le_length (lt_length ho)]
    exact closeIn_append_of_some hj q
  rw [partner_of_closeIn_eq_some hj, partner_of_closeIn_eq_some hlong]

end Program

namespace Machine

variable {p : Program} {m n : Machine}

/-- In a balanced program nothing is run past. -/
lemma Tracks.next (h : m.Tracks p) (hp : p.Balanced) (hn : m.Next p.toArray n) : n.Tracks p := by
  rcases tracks_or_ranPast h hn with htracks | hran
  · exact htracks
  · obtain ⟨j, hj⟩ := hp.exists_closeIn hran.openLoop
    cases hran.unclosed.symm.trans hj

/-- At the end of a balanced program no loop is being run. -/
lemma Tracks.loops_eq_nil (h : m.Tracks p) (hp : p.Balanced) (hm : p.length ≤ m.pc) :
    m.pc = p.length ∧ m.loops = [] := by
  have hpc := Nat.le_antisymm h.pc hm
  exact ⟨hpc, by rw [h.loops, hpc, hp.1]⟩

lemma demand_append (q : Program) (hm : m.pc < p.length) :
    m.demand (p ++ q).toArray = m.demand p.toArray := by
  unfold demand
  rw [List.getElem?_toArray, List.getElem?_toArray, List.getElem?_append_left hm]

lemma compute_append (hp : p.Balanced) (q : Program) (hm : m.pc < p.length) :
    m.compute (p ++ q).toArray = m.compute p.toArray := by
  unfold compute
  rw [List.getElem?_toArray, List.getElem?_toArray, List.getElem?_append_left hm]
  split
  · rfl
  · rw [hp.partner_append ‹_›]
  · rfl
  · rfl

/-- Behind a balanced program the machine does what it does on the program that stands there. -/
theorem behind_bisimulation (hp : p.Balanced) (q : Program) :
    Bisimulation q.toArray (p ++ q).toArray (fun _ => True) (fun _ => True)
      (fun i j => j = i + p.length) (fun m l => l = m.moved 0 p.length) := by
  rintro m _ rfl - -
  refine ⟨m, _, .refl _, .refl _, level_moved [] q hp rfl fun m' l h hpos => ?_⟩
  exact h.eq_moved (Nat.ne_of_gt hpos)

end Machine

namespace Config

variable {ι ω : Type} [Source ι] [Sink ω] {p : Program} {c d : Config ι ω} {o : Outcome}
  {events : List Event}

lemma step_append (hp : p.Balanced) (q : Program) (hc : c.machine.pc < p.length) :
    c.step (p ++ q).toArray = c.step p.toArray := by
  unfold step
  rw [Machine.demand_append q hc, Machine.compute_append hp q hc]

lemma calls_append (q : Program) (hc : c.machine.pc < p.length) :
    c.calls (p ++ q).toArray = c.calls p.toArray := by
  unfold calls
  rw [Machine.demand_append q hc]

/-- Where a step does not finish the run, the program is not over. -/
lemma pc_lt_of_step (h : c.step p.toArray ≠ .ended .finished c) : c.machine.pc < p.length :=
  Nat.lt_of_not_le fun hle => h (step_of_length_le hle)

/-- A run that has not ended goes on in the same way with another program behind it. -/
lemma Reaches.append (hp : p.Balanced) (q : Program) (h : c.Reaches p.toArray events d)
    (hc : c.machine.Tracks p) : c.Reaches (p ++ q).toArray events d ∧ d.machine.Tracks p := by
  induction h with
  | refl c => exact ⟨.refl c, hc⟩
  | @step c d e events hs _ ih =>
    have hlt : c.machine.pc < p.length := pc_lt_of_step (by simp [hs])
    obtain ⟨hreach, htracks⟩ := ih (hc.next hp (next_of_step hs))
    rw [← step_append hp q hlt] at hs
    rw [← calls_append q hlt]
    exact ⟨.step hs hreach, htracks⟩

/-- A run that ends before the program is over ends there with another program behind it as well. -/
lemma Ends.append_of_ne (hp : p.Balanced) (q : Program) (h : c.Ends p.toArray events o d)
    (ho : o ≠ .finished) (hc : c.machine.Tracks p) : c.Ends (p ++ q).toArray events o d := by
  obtain ⟨e, before, he, hl, rfl⟩ := h.exists_last
  obtain ⟨hreach, -⟩ := he.append hp q hc
  have hlt : e.machine.pc < p.length := pc_lt_of_step (by simp [hl, ho])
  rw [← step_append hp q hlt] at hl
  rw [← calls_append q hlt]
  exact hreach.ends (.last hl)

/-- Only at the end of the program a step finishes the run, and it changes nothing. -/
lemma halted_of_step {code : Array Instr} (h : c.step code = .ended .finished d) :
    c.machine.demand code = .halted ∧ d = c := by
  rcases ended_cases h with ⟨-, hd, rfl⟩ | ⟨ho, -⟩ | ⟨_, ho, -⟩ | ⟨_, _, ho, -⟩
  · exact ⟨hd, rfl⟩
  · cases ho
  · exact absurd ho.symm Outcome.ofFailure_ne_finished
  · exact absurd ho.symm Outcome.ofFailure_ne_finished

/-- Where the program is over, the run is at the beginning of what stands behind it, and no loop is
being run. -/
lemma Ends.append_of_finished (hp : p.Balanced) (q : Program)
    (h : c.Ends p.toArray events .finished d) (hc : c.machine.Tracks p) :
    c.Reaches (p ++ q).toArray events d ∧ d.machine = ⟨d.machine.tape, p.length, []⟩ := by
  obtain ⟨e, before, he, hl, rfl⟩ := h.exists_last
  obtain ⟨hreach, htracks⟩ := he.append hp q hc
  obtain ⟨hd, rfl⟩ := halted_of_step hl
  have hsize := Machine.demand_eq_halted_iff.mp hd
  rw [List.size_toArray] at hsize
  obtain ⟨hpc, hloops⟩ := htracks.loops_eq_nil hp hsize
  rw [calls_of_halted hd, List.append_nil, ← hpc, ← hloops]
  exact ⟨hreach, rfl⟩

/-- **A run on two programs in a row is a run on the first until that is over.** Within a number of
steps it is not over, or what is left of the steps is taken from where it was. -/
theorem run_append (hp : p.Balanced) (q : Program) (hc : c.machine.Tracks p) (fuel : Nat) :
    (c.run (p ++ q).toArray fuel = c.run p.toArray fuel ∧
        c.trace (p ++ q).toArray fuel = c.trace p.toArray fuel ∧
        ∀ d, c.run p.toArray fuel ≠ .ended .finished d) ∨
      ∃ before e rest, c.Ends p.toArray before .finished e ∧
        c.run (p ++ q).toArray fuel = e.run (p ++ q).toArray rest ∧
        c.trace (p ++ q).toArray fuel = before ++ e.trace (p ++ q).toArray rest := by
  induction fuel generalizing c with
  | zero => exact .inl ⟨rfl, rfl, fun d hd => nomatch hd⟩
  | succ fuel ih =>
    by_cases hlast : c.step p.toArray = .ended .finished c
    · obtain ⟨hd, -⟩ := halted_of_step hlast
      exact .inr ⟨[], c, fuel + 1, .of_step hlast (calls_of_halted hd), rfl, rfl⟩
    have hlt := pc_lt_of_step hlast
    have hstep := step_append hp q hlt
    have hcalls := calls_append q hlt
    cases hs : c.step p.toArray with
    | going d =>
      rw [hs] at hstep
      rw [run_succ_of_going hs, run_succ_of_going hstep, trace_succ_of_going hs,
        trace_succ_of_going hstep, hcalls]
      rcases ih (hc.next hp (next_of_step hs)) with ⟨hrun, htrace, hne⟩ |
        ⟨before, e, rest, hend, hrun, htrace⟩
      · exact .inl ⟨hrun, by rw [htrace], hne⟩
      · exact .inr ⟨_, e, rest, .step hs hend, hrun, by rw [htrace, List.append_assoc]⟩
    | ended o d =>
      rw [hs] at hstep
      rw [run_succ_of_ended hs, run_succ_of_ended hstep, trace_succ_of_ended hs,
        trace_succ_of_ended hstep, hcalls]
      refine .inl ⟨rfl, rfl, fun d' hd => ?_⟩
      cases hd
      obtain ⟨-, rfl⟩ := halted_of_step hs
      exact hlast hs

end Config

/-- The same ending of a program that stands behind `n` instructions. -/
def Outcome.behind (n : Nat) : Outcome → Outcome
  | .finished => .finished
  | .faulted (.stray i) => .faulted (.stray (n + i))
  | .faulted f => .faulted f
  | .undescribed => .undescribed

lemma Outcome.Matches.eq_behind {n : Nat} {o o' : Outcome} (h : o.Matches (fun i j => j = i + n) o') :
    o' = o.behind n := by
  cases h with
  | finished => rfl
  | read cause => rfl
  | write cause => rfl
  | @stray i j hij =>
    subst hij
    rw [behind, Int.natCast_add, Int.add_comm]
  | undescribed => rfl

namespace Session

/-- A session of a program as it stands over a tape that has been written on. -/
def onTape (p : Program) (t : Tape) : Session :=
  { code := p.toArray, machine := { tape := t } }

/-- A run call that goes on for ever. -/
def Diverges (s : Session) (c : Streams) : Prop :=
  ∀ fuel, s.run fuel c.input c.output = none

/-- A run call of `p` over the tape `t` and, if that comes to the end of the program, one of `q` over
the tape and on the streams that it has left: the calls that they make, how they end and what they
leave. What is stray in `q` is counted behind `p`. -/
inductive EndsInTurn (p q : Program) (t : Tape) (c : Streams) :
    List Event → Outcome → World c.In c.Out → Prop where
  /-- The first ends before its program is over. -/
  | first {events : List Event} {r : Run c.In c.Out} (h : (onTape p t).Ends c events r)
      (ho : r.outcome ≠ .finished) : EndsInTurn p q t c events r.outcome r.world
  /-- The first comes to the end of its program, and then the second ends. -/
  | second {before after : List Event} {r : Run c.In c.Out} {r' : Run (c.left r).In (c.left r).Out}
      (h : (onTape p t).Ends c before r) (ho : r.outcome = .finished)
      (h' : (onTape q r.session.tape).Ends (c.left r) after r') :
      EndsInTurn p q t c (before ++ after) (r'.outcome.behind p.length) r'.world

/-- At some time of the two run calls the calls made so far are `events`. -/
inductive MakesInTurn (p q : Program) (t : Tape) (c : Streams) : List Event → Prop where
  /-- In the first. -/
  | first {events : List Event} (h : (onTape p t).Makes c events) : MakesInTurn p q t c events
  /-- In the second, when the first has come to the end of its program. -/
  | second {before after : List Event} {r : Run c.In c.Out} (h : (onTape p t).Ends c before r)
      (ho : r.outcome = .finished) (h' : (onTape q r.session.tape).Makes (c.left r) after) :
      MakesInTurn p q t c (before ++ after)

variable {p : Program} {q : Program} {t : Tape} {c : Streams} {events before after : List Event}
  {r : Run c.In c.Out} {s : Session}

lemma diverges_iff : s.Diverges c ↔ ¬ ∃ events r, s.Ends c events r := by
  constructor
  · rintro h ⟨events, r, fuel, hrun, -⟩
    cases (h fuel).symm.trans hrun
  · intro h fuel
    refine Option.eq_none_iff_forall_ne_some.mpr fun r hr => ?_
    exact h ⟨_, r, fuel, hr, rfl⟩

lemma tracks_onTape (p : Program) (t : Tape) (c : Streams) :
    ((onTape p t).start c).machine.Tracks p :=
  Machine.tracks_fresh p t

/-- When the first run call has come to the end of its program, the machine on both programs goes on
like that of the second run call. -/
lemma Ends.near_behind (hp : p.Balanced) (q : Program) (h : (onTape p t).Ends c before r)
    (ho : r.outcome = .finished) :
    ((onTape p t).start c).Reaches (p ++ q).toArray before r.config ∧
      Config.Near q.toArray (p ++ q).toArray (fun _ => True) (fun _ => True)
        (fun i j => j = i + p.length) (fun m l => l = m.moved 0 p.length)
        ((onTape q r.session.tape).start (c.left r)) r.config := by
  have hend := (ends_iff.mp h).1
  rw [ho] at hend
  obtain ⟨hreach, hmachine⟩ := hend.append_of_finished hp q (tracks_onTape p t c)
  refine ⟨hreach, Config.near_of_rel (Machine.behind_bisimulation hp q) ?_ rfl rfl ?_ ?_⟩
  · rw [hmachine]
    simp [Machine.moved, onTape, start, tape, Run.config]
  · exact fun _ _ _ => trivial
  · exact fun _ _ _ => trivial

/-- A run call on both programs ends like the two run calls in turn. -/
lemma endsInTurn_of_ends (hp : p.Balanced) (h : (onTape (p ++ q) t).Ends c events r) :
    EndsInTurn p q t c events r.outcome r.world := by
  obtain ⟨fuel, hrun, htrace⟩ := Config.ends_iff_run.mp (ends_iff.mp h).1
  rcases Config.run_append hp q (tracks_onTape p t c) fuel with ⟨hrun', htrace', hne⟩ |
    ⟨before, e, rest, hend, hrun', htrace'⟩
  · have hend := Config.ends_iff_run.mpr ⟨fuel, hrun'.symm.trans hrun, htrace'.symm.trans htrace⟩
    have hfirst := ends_of_config (s := onTape p t) hend
    have ho : r.outcome ≠ .finished := by
      intro ho
      rw [ho] at hrun
      exact hne _ (hrun'.symm.trans hrun)
    have hturn := EndsInTurn.first (q := q) hfirst ho
    exact hturn
  · have hfirst := ends_of_config (s := onTape p t) hend
    obtain ⟨-, hnear⟩ := hfirst.near_behind hp q rfl
    have hlast := Config.ends_iff_run.mpr ⟨rest, hrun'.symm.trans hrun, rfl⟩
    obtain ⟨o', d', hd', hsame⟩ := hnear.symm.ends (Machine.behind_bisimulation hp q).symm hlast
    have hsecond := EndsInTurn.second hfirst rfl (ends_of_config (s := onTape q e.machine.tape) hd')
    have hevents : before ++ e.trace (p ++ q).toArray rest = events := htrace'.symm.trans htrace
    have hworld : r.world = ⟨d'.machine.tape, d'.input, d'.output⟩ := by
      rw [← hsame.tape, ← hsame.input, ← hsame.output]
      rfl
    rw [← hevents, hworld, hsame.outcome.symm.eq_behind]
    exact hsecond

/-- Two run calls in turn are a run call on both programs. -/
lemma EndsInTurn.exists_ends (hp : p.Balanced) {o : Outcome} {w : World c.In c.Out}
    (h : EndsInTurn p q t c events o w) :
    ∃ r, (onTape (p ++ q) t).Ends c events r ∧ r.outcome = o ∧ r.world = w := by
  cases h with
  | first h ho =>
    have hboth := (ends_iff.mp h).1.append_of_ne hp q ho (tracks_onTape p t c)
    exact ⟨_, ends_of_config (s := onTape (p ++ q) t) hboth, rfl, rfl⟩
  | second h ho h' =>
    obtain ⟨hreach, hnear⟩ := h.near_behind hp q ho
    obtain ⟨o', d', hd', hsame⟩ :=
      hnear.ends (Machine.behind_bisimulation hp q) (ends_iff.mp h').1
    have hboth := hreach.ends hd'
    refine ⟨_, ends_of_config (s := onTape (p ++ q) t) hboth, hsame.outcome.eq_behind, ?_⟩
    show (⟨d'.machine.tape, d'.input, d'.output⟩ : World c.In c.Out) = _
    rw [← hsame.tape, ← hsame.input, ← hsame.output]
    rfl

/-- A run call on both programs makes the calls of the two run calls in turn. -/
lemma makes_append_iff (hp : p.Balanced) :
    (onTape (p ++ q) t).Makes c events ↔ MakesInTurn p q t c events := by
  constructor
  · rintro ⟨fuel, htrace⟩
    rcases Config.run_append hp q (tracks_onTape p t c) fuel with ⟨-, htrace', -⟩ |
      ⟨before, e, rest, hend, -, htrace'⟩
    · exact .first ⟨fuel, htrace'.symm.trans htrace⟩
    · have hfirst := ends_of_config (s := onTape p t) hend
      obtain ⟨-, hnear⟩ := hfirst.near_behind hp q rfl
      have hsecond := hnear.symm.exists_trace (Machine.behind_bisimulation hp q).symm ⟨rest, rfl⟩
      have hevents : before ++ e.trace (p ++ q).toArray rest = events := htrace'.symm.trans htrace
      rw [← hevents]
      exact .second hfirst rfl hsecond
  · intro h
    cases h with
    | first h =>
      rcases makes_iff.mp h with ⟨d, hd⟩ | ⟨o, d, hd⟩
      · exact makes_iff.mpr (.inl ⟨d, (hd.append hp q (tracks_onTape p t c)).1⟩)
      · by_cases ho : o = .finished
        · subst ho
          exact makes_iff.mpr (.inl ⟨d, (hd.append_of_finished hp q (tracks_onTape p t c)).1⟩)
        · exact makes_iff.mpr (.inr ⟨_, d, hd.append_of_ne hp q ho (tracks_onTape p t c)⟩)
    | second h ho h' =>
      obtain ⟨hreach, hnear⟩ := h.near_behind hp q ho
      obtain ⟨fuel, htrace⟩ := hnear.exists_trace (Machine.behind_bisimulation hp q) h'
      obtain ⟨n, hn⟩ := hreach.exists_run_add
      exact ⟨n + fuel, (hn fuel).2.trans (congrArg _ htrace)⟩

/-- A run call on both programs ends if the one on the first does and, where it comes to the end of its
program, the one on the second does. -/
lemma exists_ends_append_iff (hp : p.Balanced) :
    (∃ events r, (onTape (p ++ q) t).Ends c events r) ↔
      ∃ before r, (onTape p t).Ends c before r ∧
        (r.outcome = .finished → ∃ after r', (onTape q r.session.tape).Ends (c.left r) after r') := by
  constructor
  · rintro ⟨events, r, hr⟩
    obtain ⟨o, w, h⟩ : ∃ o w, EndsInTurn p q t c events o w := ⟨_, _, endsInTurn_of_ends hp hr⟩
    cases h with
    | first h hne => exact ⟨_, _, h, fun ho => absurd ho hne⟩
    | second h ho h' => exact ⟨_, _, h, fun _ => ⟨_, _, h'⟩⟩
  · rintro ⟨before, r, h, hnext⟩
    by_cases ho : r.outcome = .finished
    · obtain ⟨after, r', h'⟩ := hnext ho
      obtain ⟨r'', hr'', -⟩ := (EndsInTurn.second h ho h').exists_ends hp
      exact ⟨_, r'', hr''⟩
    · obtain ⟨r'', hr'', -⟩ := (EndsInTurn.first (q := q) h ho).exists_ends hp
      exact ⟨_, r'', hr''⟩

/-- **Programs are run one after the other.** A run call on a balanced program and any other program
behind it is a run call on the first and, if that comes to the end of its program, one on the second,
over the tape and on the streams that the first has left. The calls are the same at any time, whether
it ends or not; it ends in the same way, leaves the same tape and the same streams, and a bracket that
is stray in the second program is counted behind the first. It goes on for ever if and only if one of
the two does. -/
theorem append_in_turn {p : Program} (hp : p.Balanced) (q : Program) (t : Tape) (c : Streams) :
    (∀ events o w, (∃ r, (onTape (p ++ q) t).Ends c events r ∧ r.outcome = o ∧ r.world = w) ↔
      EndsInTurn p q t c events o w) ∧
    (∀ events, (onTape (p ++ q) t).Makes c events ↔ MakesInTurn p q t c events) ∧
    ((onTape (p ++ q) t).Diverges c ↔ (onTape p t).Diverges c ∨
      ∃ before r, (onTape p t).Ends c before r ∧ r.outcome = .finished ∧
        (onTape q r.session.tape).Diverges (c.left r)) := by
  refine ⟨fun events o w => ⟨?_, fun h => h.exists_ends hp⟩, fun events => makes_append_iff hp, ?_⟩
  · rintro ⟨r, h, rfl, rfl⟩
    exact endsInTurn_of_ends hp h
  · rw [diverges_iff, exists_ends_append_iff hp]
    constructor
    · intro hnone
      by_cases hfirst : (onTape p t).Diverges c
      · exact .inl hfirst
      · rw [diverges_iff, not_not] at hfirst
        obtain ⟨before, r, h⟩ := hfirst
        refine .inr ⟨before, r, h, ?_⟩
        by_contra hsecond
        refine hnone ⟨before, r, h, fun ho => ?_⟩
        rw [not_and, diverges_iff, not_not] at hsecond
        exact hsecond ho
    · rintro (hfirst | ⟨before, r, h, ho, hsecond⟩) ⟨before', r', h', hnext⟩
      · exact diverges_iff.mp hfirst ⟨_, _, h'⟩
      · obtain ⟨-, rfl⟩ := h.eq h'
        exact diverges_iff.mp hsecond (hnext ho)

/-- A loop that clears a cell, and behind it the cell is written and a bracket is stray: the second
instruction of the second program, the fifth of both. -/
theorem append_in_turn_stray :
    let p : Program := [.plain .openLoop, .counted .sub 1, .plain .closeLoop]
    let q : Program := [.plain .output, .plain .closeLoop]
    let t : Tape := Tape.blank.add 1
    p.Balanced ∧ ∃ r, (onTape (p ++ q) t).Ends .silent [.write 0 .accepted] r ∧
      r.outcome = .faulted (.stray 4) ∧ r.world = ⟨t.add (-1), {}, {}⟩ := by
  intro p q t
  have hp : p.Balanced := by decide
  have hraised : t.current ≠ 0 := by
    rw [Tape.current_add_blank]
    decide
  have hcleared : (t.add (-1)).current = 0 := by
    rw [Tape.current_add_add_blank]
    decide
  have hcomputes : Machine.Computes p.toArray ⟨t, 0, []⟩ ⟨t.add (-1), 3, []⟩ :=
    .enter rfl hraised (.counted rfl (.leave rfl rfl hcleared (.refl _)))
  have hfirst : (onTape p t).Ends .silent [] _ :=
    ends_of_config ((Config.Reaches.of_computes hcomputes _ _).ends
      (.of_step (Config.step_of_halted rfl) (Config.calls_of_halted rfl)))
  have hdemand : Machine.demand q.toArray ⟨t.add (-1), 0, []⟩ = .write 0 :=
    Machine.demand_eq_write_iff.mpr ⟨rfl, hcleared⟩
  have hwrite := Config.Reaches.of_step
    (c := (⟨⟨t.add (-1), 0, []⟩, {}, {}⟩ : Config Input.Closed Output.Discard))
    (Config.step_of_write hdemand rfl) (Config.calls_of_write hdemand)
  have hsecond := ends_of_config (s := onTape q (t.add (-1))) (c := .silent)
    (hwrite.ends (.of_step (Config.step_of_stray rfl) (Config.calls_of_stray rfl)))
  obtain ⟨hends, -⟩ := append_in_turn hp q t .silent
  exact ⟨hp, (hends _ _ _).mpr (.second hfirst rfl hsecond)⟩

end Session

end TapeLang
