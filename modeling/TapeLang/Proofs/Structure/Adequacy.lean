import TapeLang.Proofs.History
import TapeLang.Proofs.Structure.BigStep
import TapeLang.Proofs.TapeLaws

/-!
# The machine carries out blocks

The machine has no loops, only an index that it moves and a list of brackets to go back to. On a
balanced program it does nevertheless what the program means as a block: the runs that end are the
derivations of `Block.Exec`, with the same calls in the same order, the same ending and the same
tape (`Session.ends_iff_exec`).

One direction is an induction on the derivation, `Block.Exec.realizes`. A loop that is repeated
stands in the derivation as the loop itself, begun anew; the machine however is not back at its
opening bracket then but at its closing one. It goes on in the same way from both, so a block is
said to be begun at either (`Block.Before`).

For the other direction it is shown that the machine goes on for ever where there is no derivation,
`Block.exec_or_going`; this is an induction on the number of steps.
-/

namespace TapeLang

variable {ι ω : Type} [Source ι] [Sink ω]

/-- The machine in a world. -/
def World.config (w : World ι ω) (pc : Nat) (loops : List Nat) : Config ι ω :=
  ⟨⟨w.tape, pc, loops⟩, w.input, w.output⟩

/-- From `c` the machine makes the calls `events` and comes to the world `w`: at a given place if
nothing has failed by then, and somewhere if something has. -/
structure Config.Realizes (code : Array Instr) (c : Config ι ω) (events : List Event) (o : Outcome)
    (w : World ι ω) (pc : Nat) (loops : List Nat) : Prop where
  reaches : o = .finished → c.Reaches code events (w.config pc loops)
  ends : o ≠ .finished → ∃ pc loops, c.Ends code events o (w.config pc loops)

lemma Config.Reaches.realizes {code : Array Instr} {c d : Config ι ω} {events events' : List Event}
    {o : Outcome} {w : World ι ω} {pc : Nat} {loops : List Nat} (h : c.Reaches code events d)
    (hd : d.Realizes code events' o w pc loops) :
    c.Realizes code (events ++ events') o w pc loops where
  reaches ho := h.trans (hd.reaches ho)
  ends ho := by
    obtain ⟨pc', loops', hend⟩ := hd.ends ho
    exact ⟨pc', loops', h.ends hend⟩

/-- The machine is about to carry out a block that stands at `n`, with `loops` around it: it is
where the block begins or, if that is with a loop, where the body of the loop ends. -/
inductive Block.Before (n : Nat) (loops : List Nat) : Block → Nat → List Nat → Prop where
  | start (b : Block) : Before n loops b n loops
  | close (body rest : Block) :
      Before n loops (.loop body rest) (n + 1 + body.flatten.length) (n :: loops)

variable {p q : Program} {n pc : Nat} {loops stack : List Nat} {w w' : World ι ω}
  {events : List Event} {o : Outcome}

/-! ## Single steps -/

/-- The machine does what a simple instruction means, and goes on or stops. -/
lemma Simple.Acts.step_cases {i : Simple} (h : i.Acts w events o w') (hi : p[n]? = some i.instr)
    (loops : List Nat) :
    (w.config n loops).calls p.toArray = events ∧
      (o = .finished ∧ (w.config n loops).step p.toArray = .going (w'.config (n + 1) loops) ∨
        o ≠ .finished ∧ (w.config n loops).step p.toArray = .ended o (w'.config n loops)) := by
  have hi' : p.toArray[(w.config n loops).machine.pc]? = some i.instr := by
    rwa [List.getElem?_toArray]
  cases h with
  | counted kind count =>
    have hdemand := Machine.demand_of_counted hi'
    refine ⟨Config.calls_of_compute hdemand, .inl ⟨rfl, ?_⟩⟩
    rw [Config.step_of_compute hdemand, Machine.compute_counted hi']
    rfl
  | written hw =>
    have hdemand := Machine.demand_eq_write_iff.mpr ⟨hi', rfl⟩
    refine ⟨?_, .inl ⟨rfl, Config.step_of_write hdemand hw⟩⟩
    rw [Config.calls_of_write hdemand]
    exact congrArg (fun a => [Event.write _ a.1]) hw
  | @received _ answer input b hr hb =>
    have hdemand := Machine.demand_eq_read_iff.mpr hi'
    rw [Config.calls_of_read hdemand]
    have hr' : Source.read (w.config n loops).input = (answer, input) := hr
    have hb' : (Source.read (w.config n loops).input).1.octet = .ok b := by rwa [hr']
    rw [Config.step_of_read hdemand hb', hr']
    exact ⟨rfl, .inl ⟨rfl, rfl⟩⟩
  | unwritten hw =>
    have hdemand := Machine.demand_eq_write_iff.mpr ⟨hi', rfl⟩
    refine ⟨?_, .inr ⟨Outcome.ofFailure_ne_finished, Config.step_of_write_failed hdemand hw⟩⟩
    rw [Config.calls_of_write hdemand]
    exact congrArg (fun a => [Event.write _ a.1]) hw
  | @unreceived _ answer input failure hr hb =>
    have hdemand := Machine.demand_eq_read_iff.mpr hi'
    rw [Config.calls_of_read hdemand]
    have hr' : Source.read (w.config n loops).input = (answer, input) := hr
    have hb' : (Source.read (w.config n loops).input).1.octet = .error failure := by rwa [hr']
    rw [Config.step_of_read_failed hdemand hb', hr']
    exact ⟨rfl, .inr ⟨Outcome.ofFailure_ne_finished, rfl⟩⟩

/-- An instruction that has been carried out is one step. -/
lemma Simple.Acts.reaches {i : Simple} (h : i.Acts w events .finished w')
    (hi : p[n]? = some i.instr) (loops : List Nat) :
    (w.config n loops).Reaches p.toArray events (w'.config (n + 1) loops) := by
  obtain ⟨hcalls, ⟨-, hstep⟩ | ⟨ho, -⟩⟩ := h.step_cases hi loops
  · exact .of_step hstep hcalls
  · exact absurd rfl ho

/-- One that fails ends the run. -/
lemma Simple.Acts.ends {i : Simple} (h : i.Acts w events o w') (ho : o ≠ .finished)
    (hi : p[n]? = some i.instr) (loops : List Nat) :
    (w.config n loops).Ends p.toArray events o (w'.config n loops) := by
  obtain ⟨hcalls, ⟨ho', -⟩ | ⟨-, hstep⟩⟩ := h.step_cases hi loops
  · exact absurd ho' ho
  · exact .of_step hstep hcalls

/-- Over a zero cell the machine goes on behind the loop. -/
lemma Block.Before.step_of_zero {body rest : Block}
    (hb : Before n loops (.loop body rest) pc stack)
    (hn : p.drop n = (Block.loop body rest).flatten ++ q) (hz : w.tape.current = 0) :
    (w.config pc stack).step p.toArray =
        .going (w.config (n + 1 + body.flatten.length + 1) loops) ∧
      (w.config pc stack).calls p.toArray = [] := by
  obtain ⟨ho, hinner, hc, -⟩ := Program.drop_loop hn
  cases hb with
  | start =>
    have ho' : p.toArray[(w.config n loops).machine.pc]? = some (.plain .openLoop) := by
      rwa [List.getElem?_toArray]
    have hdemand := Machine.demand_of_openLoop ho'
    have hpartner : Program.partner p.toArray n = n + 1 + body.flatten.length := by
      apply Program.partner_of_closeIn_eq_some
      rw [hinner, Program.closeIn_body]
    refine ⟨?_, Config.calls_of_compute hdemand⟩
    rw [Config.step_of_compute hdemand, Machine.compute_openLoop_of_zero ho' hz]
    simp only [World.config, hpartner]
  | close =>
    have hc' : p.toArray[(w.config (n + 1 + body.flatten.length) (n :: loops)).machine.pc]? =
        some (.plain .closeLoop) := by
      rwa [List.getElem?_toArray]
    have hdemand := Machine.demand_of_closeLoop hc' (List.cons_ne_nil n loops)
    refine ⟨?_, Config.calls_of_compute hdemand⟩
    rw [Config.step_of_compute hdemand, Machine.compute_closeLoop_of_zero hc' rfl hz]
    rfl

/-- Over a nonzero cell the machine goes on with the body of the loop. -/
lemma Block.Before.step_of_ne {body rest : Block}
    (hb : Before n loops (.loop body rest) pc stack)
    (hn : p.drop n = (Block.loop body rest).flatten ++ q) (hz : w.tape.current ≠ 0) :
    (w.config pc stack).step p.toArray = .going (w.config (n + 1) (n :: loops)) ∧
      (w.config pc stack).calls p.toArray = [] := by
  obtain ⟨ho, -, hc, -⟩ := Program.drop_loop hn
  cases hb with
  | start =>
    have ho' : p.toArray[(w.config n loops).machine.pc]? = some (.plain .openLoop) := by
      rwa [List.getElem?_toArray]
    have hdemand := Machine.demand_of_openLoop ho'
    refine ⟨?_, Config.calls_of_compute hdemand⟩
    rw [Config.step_of_compute hdemand, Machine.compute_openLoop_of_ne ho' hz]
    rfl
  | close =>
    have hc' : p.toArray[(w.config (n + 1 + body.flatten.length) (n :: loops)).machine.pc]? =
        some (.plain .closeLoop) := by
      rwa [List.getElem?_toArray]
    have hdemand := Machine.demand_of_closeLoop hc' (List.cons_ne_nil n loops)
    refine ⟨?_, Config.calls_of_compute hdemand⟩
    rw [Config.step_of_compute hdemand, Machine.compute_closeLoop_of_ne hc' rfl hz]
    rfl

/-! ## Derivations and runs -/

/-- What a block means, the machine does. -/
theorem Block.Exec.realizes {b : Block} (h : b.Exec w events o w')
    (hn : p.drop n = b.flatten ++ q) (hb : Before n loops b pc stack) :
    (w.config pc stack).Realizes p.toArray events o w' (n + b.flatten.length) loops := by
  induction h generalizing n q loops pc stack with
  | nil w =>
    cases hb
    exact ⟨fun _ => .refl _, fun ho => absurd rfl ho⟩
  | @simple i rest w w' w'' events events' o hi hrest ih =>
    cases hb
    obtain ⟨hx, hq⟩ := Program.drop_eq_cons hn
    have hreach := hi.reaches hx loops
    rw [flatten_simple, List.length_cons, ← Nat.add_assoc, Nat.add_right_comm]
    exact hreach.realizes (ih hq (.start rest))
  | @simpleFails i rest w w' events o hi ho =>
    cases hb
    obtain ⟨hx, -⟩ := Program.drop_eq_cons hn
    exact ⟨fun ho' => absurd ho' ho, fun _ => ⟨n, loops, hi.ends ho hx loops⟩⟩
  | @loopDone body rest w w' events o hz hrest ih =>
    obtain ⟨-, -, -, hq⟩ := Program.drop_loop hn
    obtain ⟨hstep, hcalls⟩ := hb.step_of_zero hn hz
    have hreach := Config.Reaches.of_step hstep hcalls
    have hlen : n + (Block.loop body rest).flatten.length =
        n + 1 + body.flatten.length + 1 + rest.flatten.length := by
      rw [flatten_loop, List.length_cons, List.length_append, List.length_cons]
      omega
    rw [hlen]
    exact hreach.realizes (ih hq (.start rest))
  | @loopAgain body rest w w' w'' events events' o hz hbody hloop ihbody ihloop =>
    obtain ⟨-, hinner, -, -⟩ := Program.drop_loop hn
    obtain ⟨hstep, hcalls⟩ := hb.step_of_ne hn hz
    have hreach := Config.Reaches.of_step hstep hcalls
    -- the round ends at the closing bracket, from where the loop goes on
    have hround : (w.config pc stack).Reaches p.toArray events
        (w'.config (n + 1 + body.flatten.length) (n :: loops)) :=
      hreach.trans ((ihbody hinner (.start body)).reaches rfl)
    exact hround.realizes (ihloop hn (.close body rest))
  | @loopFails body rest w w' events o hz hbody ho ihbody =>
    obtain ⟨-, hinner, -, -⟩ := Program.drop_loop hn
    obtain ⟨hstep, hcalls⟩ := hb.step_of_ne hn hz
    have hreach := Config.Reaches.of_step hstep hcalls
    obtain ⟨pc', loops', hend⟩ := (ihbody hinner (.start body)).ends ho
    exact ⟨fun ho' => absurd ho' ho, fun _ => ⟨pc', loops', hreach.ends hend⟩⟩

/-- Where a block has no derivation, the machine goes on for ever. -/
theorem Block.exec_or_going (b : Block) (w : World ι ω) (hn : p.drop n = b.flatten ++ q)
    (hb : Before n loops b pc stack) (fuel : Nat) :
    (∃ events o w', b.Exec w events o w') ∨
      ∃ d, (w.config pc stack).run p.toArray fuel = .going d := by
  induction fuel generalizing b w n q loops pc stack with
  | zero => exact .inr ⟨_, rfl⟩
  | succ fuel ih =>
    cases b with
    | nil => exact .inl ⟨_, _, _, .nil w⟩
    | simple i rest =>
      cases hb
      obtain ⟨hx, hq⟩ := Program.drop_eq_cons hn
      obtain ⟨events, o, w', hi⟩ := i.exists_acts w
      obtain ⟨-, ⟨rfl, hstep⟩ | ⟨ho, -⟩⟩ := hi.step_cases hx loops
      · rw [Config.run_succ_of_going hstep]
        rcases ih rest w' hq (.start rest) with ⟨_, _, _, hrest⟩ | hgoing
        · exact .inl ⟨_, _, _, .simple hi hrest⟩
        · exact .inr hgoing
      · exact .inl ⟨_, _, _, .simpleFails hi ho⟩
    | loop body rest =>
      obtain ⟨-, hinner, -, hq⟩ := Program.drop_loop hn
      by_cases hz : w.tape.current = 0
      · obtain ⟨hstep, -⟩ := hb.step_of_zero hn hz
        rw [Config.run_succ_of_going hstep]
        rcases ih rest w hq (.start rest) with ⟨_, _, _, hrest⟩ | hgoing
        · exact .inl ⟨_, _, _, .loopDone hz hrest⟩
        · exact .inr hgoing
      · obtain ⟨hstep, -⟩ := hb.step_of_ne hn hz
        rw [Config.run_succ_of_going hstep]
        rcases ih body w hinner (.start body) with ⟨events, o, w', hbody⟩ | hgoing
        · by_cases ho : o = .finished
          · subst ho
            have hround : (w.config (n + 1) (n :: loops)).Reaches p.toArray events
                (w'.config (n + 1 + body.flatten.length) (n :: loops)) :=
              (hbody.realizes hinner (.start body)).reaches rfl
            rcases ih _ w' hn (.close body rest) with ⟨_, _, _, hloop⟩ | ⟨d, hgoing⟩
            · exact .inl ⟨_, _, _, .loopAgain hz hbody hloop⟩
            · exact .inr (Config.Reaches.going_of_going hround hgoing)
          · exact .inl ⟨_, _, _, .loopFails hz hbody ho⟩
        · exact .inr hgoing

namespace Session

/-- The world that a run call leaves. -/
def Run.world {ι ω : Type} (r : Run ι ω) : World ι ω :=
  ⟨r.session.machine.tape, r.input, r.output⟩

/-- A derivation is the run of a fresh session. -/
lemma ends_of_exec {b : Block} {c : Streams} {w : World c.In c.Out}
    (h : b.Exec ⟨Tape.blank, c.input, c.output⟩ events o w) :
    ∃ r, (ofProgram b.flatten).Ends c events r ∧ r.outcome = o ∧ r.world = w ∧
      (o = .finished → r.session.machine.loops = [] ∧
        r.session.machine.pc = b.flatten.length) := by
  have hdrop : b.flatten.drop 0 = b.flatten ++ [] := (List.append_nil _).symm
  have hrun := h.realizes hdrop (.start b : Block.Before 0 [] b 0 [])
  rw [Nat.zero_add] at hrun
  by_cases ho : o = .finished
  · subst ho
    have hhalted : (w.config b.flatten.length []).machine.demand b.flatten.toArray = .halted :=
      Machine.demand_eq_halted_iff.mpr List.size_toArray.le
    have hlast := Config.Ends.of_step (Config.step_of_halted hhalted)
      (Config.calls_of_halted hhalted)
    have hend := (hrun.reaches rfl).ends hlast
    rw [List.append_nil] at hend
    exact ⟨_, ends_of_config hend, rfl, rfl, fun _ => ⟨rfl, rfl⟩⟩
  · obtain ⟨pc, loops, hend⟩ := hrun.ends ho
    exact ⟨_, ends_of_config hend, rfl, rfl, fun ho' => absurd ho' ho⟩

/-- A fresh session runs for ever unless there is a derivation. -/
lemma exists_exec_of_ends {b : Block} {c : Streams} {r : Run c.In c.Out}
    (h : (ofProgram b.flatten).Ends c events r) :
    ∃ events o w, b.Exec ⟨Tape.blank, c.input, c.output⟩ events o w := by
  obtain ⟨fuel, hrun, -⟩ := h
  obtain ⟨hended, -⟩ := run_eq_some_iff.mp hrun
  have hdrop : b.flatten.drop 0 = b.flatten ++ [] := (List.append_nil _).symm
  rcases b.exec_or_going ⟨Tape.blank, c.input, c.output⟩ hdrop
    (.start b : Block.Before 0 [] b 0 []) fuel with
    hexec | ⟨d, hgoing⟩
  · exact hexec
  · cases hgoing.symm.trans hended

/-- **A balanced program does what it means as a block.** It can be read as a block in one way. For
any streams, a run of a fresh session ends with given calls, a given ending, a given tape and given
streams left behind if and only if the block does; if that is at a call that fails, the ending is a fault
with what the stream failed with, unless there are no words for it. It never faults for a stray bracket,
and where it comes to the end of the program no loop is being run. -/
theorem ends_iff_exec {p : Program} (hp : p.Balanced) :
    (∃! b : Block, b.flatten = p) ∧
    ∀ b : Block, b.flatten = p → ∀ c : Streams,
      (∀ events o w, (∃ r, (ofProgram p).Ends c events r ∧ r.outcome = o ∧ r.world = w) ↔
        b.Exec ⟨Tape.blank, c.input, c.output⟩ events o w) ∧
      ∀ events r, (ofProgram p).Ends c events r →
        (∀ k, r.outcome ≠ .faulted (.stray k)) ∧
        (r.outcome = .finished →
          r.session.machine.loops = [] ∧ r.session.machine.pc = p.length) := by
  constructor
  · obtain ⟨b, hb⟩ := (Program.balanced_iff_exists_flatten p).mp hp
    exact ⟨b, hb, fun b' hb' => Block.flatten_injective (hb'.trans hb.symm)⟩
  rintro b rfl c
  have hexec : ∀ {events : List Event} {r : Run c.In c.Out}, (ofProgram b.flatten).Ends c events r →
      b.Exec ⟨Tape.blank, c.input, c.output⟩ events r.outcome r.world ∧
        (r.outcome = .finished →
          r.session.machine.loops = [] ∧ r.session.machine.pc = b.flatten.length) := by
    intro events r hr
    obtain ⟨events', o, w, h⟩ := exists_exec_of_ends hr
    obtain ⟨r', hr', rfl, rfl, hplace⟩ := ends_of_exec h
    obtain ⟨rfl, rfl⟩ := hr'.eq hr
    exact ⟨h, hplace⟩
  constructor
  · intro events o w
    constructor
    · rintro ⟨r, hr, rfl, rfl⟩
      exact (hexec hr).1
    · intro h
      obtain ⟨r, hr, ho, hw, -⟩ := ends_of_exec h
      exact ⟨r, hr, ho, hw⟩
  · intro events r hr
    obtain ⟨h, hplace⟩ := hexec hr
    exact ⟨fun k => h.ne_stray k, hplace⟩

/-- Copying an input of one octet: `,[.,]` reads it, writes it in the only round of its loop, and
reads on until the input has ended. And a delivery that fails with a record there are no words for,
which ends the run where it ends the block, and without a fault. -/
theorem ends_iff_exec_copy :
    let p : Program :=
      [.plain .input, .plain .openLoop, .plain .output, .plain .input, .plain .closeLoop]
    let c : Streams :=
      { In := Input.Script, Out := Output.Discard, input := ⟨[.value 65]⟩, output := {} }
    let q : Program := [.plain .output]
    let failure : Failure := .obscure (.record [(Datum.wording, .null)]) rfl
    let d : Streams := { In := Input.Closed, Out := Output.Script, input := {},
                         output := { failing := [(0, failure)] } }
    (p.Balanced ∧ ∃ r : Run c.In c.Out,
      (ofProgram p).Ends c [.read (.value 65), .write 65 .accepted, .read .ended] r ∧
        r.outcome = .finished ∧ r.session.machine.tape = Tape.blank ∧
        r.session.machine.loops = [] ∧ r.session.machine.pc = p.length) ∧
    q.Balanced ∧ ∃ r : Run d.In d.Out,
      (ofProgram q).Ends d [.write 0 (.failed failure)] r ∧ r.outcome = .undescribed ∧
        r.world.tape = Tape.blank := by
  intro p c q failure d
  have hp : p.Balanced := by decide
  have hq : q.Balanced := by decide
  let round : Block := .simple .output (.simple .input .nil)
  let b : Block := .simple .input (.loop round .nil)
  have hput : (Tape.blank.put 65).current = 65 := Tape.current_put_blank 65
  have hzero : ((Tape.blank.put 65).put 0).current = 0 := by
    rw [Tape.put_put]
    exact Tape.current_put_blank 0
  have hround : round.Exec ⟨Tape.blank.put 65, (⟨[]⟩ : Input.Script), ({} : Output.Discard)⟩
      [.write 65 .accepted, .read .ended] .finished ⟨(Tape.blank.put 65).put 0, ⟨[]⟩, {}⟩ := by
    have hwrite := Simple.Acts.written (w := ⟨Tape.blank.put 65, (⟨[]⟩ : Input.Script),
      ({} : Output.Discard)⟩) rfl
    rw [hput] at hwrite
    exact .simple hwrite (.simple (.received rfl rfl) (.nil _))
  have hb : b.Exec ⟨Tape.blank, c.input, c.output⟩
      [.read (.value 65), .write 65 .accepted, .read .ended] .finished
      ⟨(Tape.blank.put 65).put 0, ⟨[]⟩, {}⟩ := by
    refine .simple (.received rfl rfl) (.loopAgain ?_ hround (.loopDone hzero (.nil _)))
    show (Tape.blank.put 65).current ≠ 0
    rw [hput]
    decide
  obtain ⟨-, hall⟩ := ends_iff_exec hp
  obtain ⟨hiff, hplace⟩ := hall b rfl c
  obtain ⟨r, hr, ho, hw⟩ := (hiff _ _ _).mpr hb
  have htape : r.session.machine.tape = (Tape.blank.put 65).put 0 := congrArg World.tape hw
  have hblank : Tape.blank.put 0 = Tape.blank := by
    rw [← Tape.current_blank, Tape.put_current]
  rw [Tape.put_put, hblank] at htape
  -- the block whose only instruction fails
  have hrefused : Sink.write d.output Tape.blank.current.toNat = (.failed failure, _) := rfl
  have hfailed := Simple.Acts.unwritten (w := ⟨Tape.blank, d.input, d.output⟩) hrefused
  rw [Tape.current_blank] at hfailed
  obtain ⟨-, hall'⟩ := ends_iff_exec hq
  obtain ⟨hiff', -⟩ := hall' (.simple .output .nil) rfl d
  obtain ⟨r', hr', ho', hw'⟩ := (hiff' _ _ _).mpr (.simpleFails hfailed (by simp))
  exact ⟨⟨hp, r, hr, ho, htape, (hplace _ r hr).2 ho⟩, hq, r', hr', ho', congrArg World.tape hw'⟩

end Session

end TapeLang
