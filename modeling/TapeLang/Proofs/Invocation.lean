import TapeLang.Cli
import TapeLang.Proofs.Recording
import TapeLang.Proofs.TapeLaws
import TapeLang.Proofs.Wording

/-!
# What an invocation reports

An invocation either is settled by its arguments and the file they name, and then no stream is called
(`Cli.Settles`), or it runs the program in the file (`Cli.Loads`), and then the streams are called as
the run of a fresh session calls them and in no other way, whether that run ends or not. If it ends, the
exit code goes together with what is told on the log and on the error channel; only a failure that there
are no words for brings the invocation down without a word.

Mistaken arguments come before a request for help, and that comes before a missing file. `Cli.AsksHelp`
and `Cli.NamesNoFile` say so by asking for arguments that are understood, and the latter for no request
for help. All of it is put together in `Cli.invoke_settles_or_runs`; that no call escapes is seen on
streams that keep a record.
-/

namespace TapeLang

namespace Cli

/-! ## What the arguments amount to -/

/-- The arguments are understood and ask for help. -/
def AsksHelp (args : List String) : Prop :=
  ∃ o, Options.ofArgs args = .ok o ∧ o.help = true

/-- The arguments are understood, and they neither ask for help nor name a file. -/
def NamesNoFile (args : List String) : Prop :=
  ∃ o, Options.ofArgs args = .ok o ∧ o.help = false ∧ (o.file = none ∨ o.file = some "")

/-- The arguments are understood as the options `o`, and they name a file without asking for help. -/
def NamesFile (args : List String) (o : Options) (path : String) : Prop :=
  Options.ofArgs args = .ok o ∧ o.help = false ∧ o.file = some path ∧ path ≠ ""

/-- The arguments name a file, and that can be read. -/
def Loads (readFile : String → Except String (List UInt8)) (args : List String) (o : Options)
    (content : List UInt8) : Prop :=
  ∃ path, NamesFile args o path ∧ readFile path = .ok content

/-- Whatever the streams and the time that is given, the report comes without a call on a stream. -/
def Settles (readFile : String → Except String (List UInt8)) (args : List String)
    (report : Report) : Prop :=
  ∀ {ι ω : Type} [Source ι] [Sink ω] (elapsed : String) (fuel : Nat) (input : ι) (output : ω),
    invoke readFile elapsed fuel args input output = .over (.reported report) input output

variable {readFile : String → Except String (List UInt8)} {args : List String} {o : Options}
  {path : String} {report : Report}

lemma request_of_mistaken {e : UsageError} (h : Options.ofArgs args = .error e) :
    request args = .error { exit := 1, errors := [e.message] } := by
  simp [request, h]

lemma request_of_asksHelp (h : AsksHelp args) :
    request args = .error { exit := 0, log := [usage] } := by
  obtain ⟨o, ho, hhelp⟩ := h
  simp [request, ho, hhelp]

lemma request_of_namesNoFile (h : NamesNoFile args) : request args = .error .noFile := by
  obtain ⟨o, ho, hhelp, hfile⟩ := h
  rcases hfile with hfile | hfile <;> simp [request, ho, hhelp, hfile]

lemma request_of_namesFile (h : NamesFile args o path) :
    request args = .ok ⟨path, o.mode, o.timed⟩ := by
  obtain ⟨ho, hhelp, hfile, hpath⟩ := h
  simp [request, ho, hhelp, hfile, hpath]

lemma not_asksHelp_of_mistaken {e : UsageError} (h : Options.ofArgs args = .error e) :
    ¬ AsksHelp args := by
  simp [AsksHelp, h]

lemma not_namesNoFile_of_mistaken {e : UsageError} (h : Options.ofArgs args = .error e) :
    ¬ NamesNoFile args := by
  simp [NamesNoFile, h]

lemma NamesNoFile.not_asksHelp (h : NamesNoFile args) : ¬ AsksHelp args := by
  obtain ⟨o, ho, hhelp, -⟩ := h
  simp [AsksHelp, ho, hhelp]

lemma NamesFile.not_asksHelp (h : NamesFile args o path) : ¬ AsksHelp args := by
  obtain ⟨ho, hhelp, -⟩ := h
  simp [AsksHelp, ho, hhelp]

lemma NamesFile.not_namesNoFile (h : NamesFile args o path) : ¬ NamesNoFile args := by
  obtain ⟨ho, -, hfile, hpath⟩ := h
  simp [NamesNoFile, ho, hfile, hpath]

/-- Arguments that are understood ask for help, name no file or name one. -/
lemma mistaken_or_asksHelp_or_names (args : List String) :
    (∃ e, Options.ofArgs args = .error e) ∨ AsksHelp args ∨ NamesNoFile args ∨
      ∃ o path, NamesFile args o path := by
  cases ho : Options.ofArgs args with
  | error e => exact .inl ⟨e, rfl⟩
  | ok o =>
    right
    cases hhelp : o.help with
    | true => exact .inl ⟨o, ho, hhelp⟩
    | false =>
      right
      cases hfile : o.file with
      | none => exact .inl ⟨o, ho, hhelp, .inl hfile⟩
      | some path =>
        by_cases hpath : path = ""
        · exact .inl ⟨o, ho, hhelp, .inr (hpath ▸ hfile)⟩
        · exact .inr ⟨o, path, ho, hhelp, hfile, hpath⟩

/-! ## Invocations without a run -/

lemma settles_of_request (h : request args = .error report) : Settles readFile args report := by
  intro ι ω _ _ elapsed fuel input output
  simp [invoke, h]

lemma settles_of_unreadable {why : String} (h : NamesFile args o path)
    (hread : readFile path = .error why) :
    Settles readFile args (Job.unreadable ⟨path, o.mode, o.timed⟩ why) := by
  intro ι ω _ _ elapsed fuel input output
  simp [invoke, request_of_namesFile h, hread]

/-- What is reported if no program is run: help is a success and told on the log alone, and anything
else is a failure and told in one line. A missing file brings the usage with it as well. -/
structure Report.WithoutRun (args : List String) (report : Report) : Prop where
  exit : report.exit = 0 ↔ AsksHelp args
  quiet : AsksHelp args → report.errors = []
  told : ¬ AsksHelp args → ∃ line, report.errors = [line]
  usage : AsksHelp args ∨ NamesNoFile args → report.log = [usage]
  silent : ¬ AsksHelp args → ¬ NamesNoFile args → report.log = []

/-- Where no file is loaded there is a report at once. -/
lemma exists_settles (h : ∀ o content, ¬ Loads readFile args o content) :
    ∃ report, Settles readFile args report ∧ report.WithoutRun args := by
  rcases mistaken_or_asksHelp_or_names args with ⟨e, he⟩ | hhelp | hnone | ⟨o, path, hnames⟩
  · have hhelp := not_asksHelp_of_mistaken he
    have hnone := not_namesNoFile_of_mistaken he
    refine ⟨_, settles_of_request (request_of_mistaken he), ?_⟩
    constructor <;> simp [hhelp, hnone]
  · refine ⟨_, settles_of_request (request_of_asksHelp hhelp), ?_⟩
    constructor <;> simp [hhelp]
  · have hhelp := hnone.not_asksHelp
    refine ⟨_, settles_of_request (request_of_namesNoFile hnone), ?_⟩
    constructor <;> simp [hhelp, hnone, Report.noFile]
  · have hhelp := hnames.not_asksHelp
    have hnone := hnames.not_namesNoFile
    cases hread : readFile path with
    | error why =>
      refine ⟨_, settles_of_unreadable hnames hread, ?_⟩
      constructor <;> simp [hhelp, hnone, Job.unreadable]
    | ok content => exact (h o content ⟨path, hnames, hread⟩).elim

/-! ## Invocations with a run -/

/-- What is reported on a run that has ended: a run that came to its end is a success, and so is one
whose output has lost its reader; any other fault is a failure and told in one line. The time is told of
a run that came to its end and of no other. -/
structure Report.AfterRun (timed : Bool) (elapsed : String) (o : Outcome) (report : Report) :
    Prop where
  silent : report.log = []
  exit : report.exit = 0 ↔ o = .finished ∨ ∃ f, o = .faulted f ∧ f.IsBrokenPipe
  time : o = .finished →
    report.errors = if timed then ["\nExecution time: " ++ elapsed ++ "ms"] else []
  quiet : ∀ f, o = .faulted f → f.IsBrokenPipe → report.errors = []
  told : ∀ f, o = .faulted f → ¬ f.IsBrokenPipe →
    ∃ line, f.diagnostic = some line ∧ report.errors = [line]

/-- How an invocation is over when its run has ended: without a report if and only if a stream has failed
with something that cannot be put into words. -/
structure Ending.AfterRun (timed : Bool) (elapsed : String) (o : Outcome) (ending : Ending) :
    Prop where
  aborted : ending = .aborted ↔ o = .undescribed
  reported : ∀ report, ending = .reported report → report.AfterRun timed elapsed o

lemma Job.afterRun_conclude (job : Job) (elapsed : String) (o : Outcome) :
    (job.conclude elapsed o).AfterRun job.timed elapsed o := by
  cases o with
  | finished =>
    refine ⟨by simp [conclude], ?_⟩
    rintro _ ⟨⟩
    constructor <;> simp
  | undescribed => exact ⟨by simp [conclude], by simp [conclude]⟩
  | faulted f =>
    cases hline : f.diagnostic with
    | none =>
      have hbroken := Fault.diagnostic_eq_none_iff.mp hline
      simp only [conclude, hline]
      refine ⟨by simp, ?_⟩
      rintro _ ⟨⟩
      constructor <;> simp [hbroken]
    | some line =>
      have hbroken : ¬ f.IsBrokenPipe := by
        rw [← Fault.diagnostic_eq_none_iff, hline]
        exact Option.some_ne_none line
      simp only [conclude, hline]
      refine ⟨by simp, ?_⟩
      rintro _ ⟨⟩
      constructor <;> simp [hbroken, hline]

/-- The stage on streams that have kept a record, without the records. -/
def Stage.unrecorded {ι ω : Type} : Stage (Recorded ι) (Recorded ω) → Stage ι ω
  | .running i j => .running i.stream j.stream
  | .over ending i j => .over ending i.stream j.stream

/-- The calls `events` and no others are on record, and nothing is on the log. -/
structure Stage.Shows {ι ω : Type} (events : List Event)
    (stage : Stage (Recorded ι) (Recorded ω)) : Prop where
  reads : stage.input.record = events.filter Event.isRead
  writes : stage.output.record = events.filter Event.isWrite
  silent : stage.log = []

/-- An invocation that loads a file is a run of a fresh session of it, on the same streams. -/
lemma invoke_of_namesFile {ι ω : Type} [Source ι] [Sink ω] {content : List UInt8}
    (h : NamesFile args o path) (hread : readFile path = .ok content) (elapsed : String)
    (fuel : Nat) (input : ι) (output : ω) :
    let s := Session.load content (o.mode = .optimized)
    invoke readFile elapsed fuel args input output =
      Job.stage ⟨path, o.mode, o.timed⟩ elapsed
        ((s.start ⟨ι, ω, input, output⟩).run s.code fuel) := by
  intro s
  simp only [invoke, request_of_namesFile h, hread]
  rfl

lemma Job.unrecorded_stage {ι ω : Type} (job : Job) (elapsed : String) (events : List Event)
    (progress : Progress ι ω) :
    (job.stage elapsed (progress.recorded events)).unrecorded = job.stage elapsed progress := by
  cases progress with
  | going c => rfl
  | ended o c => rfl

lemma Job.shows_stage {ι ω : Type} (job : Job) (elapsed : String) (events : List Event)
    (progress : Progress ι ω) : (job.stage elapsed (progress.recorded events)).Shows events := by
  cases progress with
  | going c => exact ⟨rfl, rfl, rfl⟩
  | ended o c =>
    refine ⟨rfl, rfl, ?_⟩
    show (Stage.over (job.conclude elapsed o) _ _ : Stage (Recorded ι) (Recorded ω)).log = []
    cases hend : job.conclude elapsed o with
    | aborted => rfl
    | reported report => exact ((job.afterRun_conclude elapsed o).reported report hend).silent

/-- **The exit code, what is told and the calls on the streams agree in every invocation.**

If the arguments are mistaken, ask for help or name no file, or if the file cannot be read, there is a
report whatever the streams are, and the streams are handed back untouched. Otherwise an invocation is
the same on streams that keep a record as on those that do not, and it runs a fresh session of the file,
condensed as the mode says: at any time the calls that the run has made by then are on record and no
others, and nothing is on the log, whether the run ends or not. The invocation is over if and only if the
run ends, and then the report is that of how the run has ended; there is none if a stream has failed with
something that cannot be put into words. -/
theorem invoke_settles_or_runs (readFile : String → Except String (List UInt8)) (args : List String) :
    ((∀ o content, ¬ Loads readFile args o content) →
      ∃ report, Settles readFile args report ∧ report.WithoutRun args) ∧
    ∀ o content, Loads readFile args o content → ∀ {ι ω : Type} [Source ι] [Sink ω]
      (elapsed : String) (input : ι) (output : ω),
      let s := Session.load content (o.mode = .optimized)
      let c : Streams := ⟨ι, ω, input, output⟩
      let invocation (fuel : Nat) := invoke readFile elapsed fuel args
        (⟨input, []⟩ : Recorded ι) (⟨output, []⟩ : Recorded ω)
      (∀ fuel, invoke readFile elapsed fuel args input output = (invocation fuel).unrecorded) ∧
      (∀ fuel, ∃ events, s.Makes c events ∧ (invocation fuel).Shows events) ∧
      (∀ events, s.Makes c events → ∃ fuel, (invocation fuel).Shows events) ∧
      (∀ events r, s.Ends c events r → ∃ fuel ending, invocation fuel =
        .over ending ⟨r.input, events.filter Event.isRead⟩
          ⟨r.output, events.filter Event.isWrite⟩) ∧
      ∀ fuel ending i j, invocation fuel = .over ending i j →
        ∃ events r, s.Ends c events r ∧ i = ⟨r.input, events.filter Event.isRead⟩ ∧
          j = ⟨r.output, events.filter Event.isWrite⟩ ∧
          ending.AfterRun o.timed elapsed r.outcome := by
  refine ⟨exists_settles, ?_⟩
  rintro o content ⟨path, hnames, hread⟩ ι ω _ _ elapsed input output
  intro s c invocation
  let job : Job := ⟨path, o.mode, o.timed⟩
  have hrun : ∀ fuel, invocation fuel = job.stage elapsed
      (((s.start c).run s.code fuel).recorded ((s.start c).trace s.code fuel)) := by
    intro fuel
    have hinvoke := invoke_of_namesFile hnames hread elapsed fuel (⟨input, []⟩ : Recorded ι)
      (⟨output, []⟩ : Recorded ω)
    have hrecorded := Config.run_recorded s.code fuel (s.start c) []
    rw [List.nil_append] at hrecorded
    exact hinvoke.trans (congrArg (job.stage elapsed) hrecorded)
  have hshows : ∀ fuel, (invocation fuel).Shows ((s.start c).trace s.code fuel) := by
    intro fuel
    rw [hrun]
    exact job.shows_stage elapsed _ _
  refine ⟨fun fuel => ?_, fun fuel => ⟨_, ⟨fuel, rfl⟩, hshows fuel⟩, ?_, ?_, ?_⟩
  · rw [hrun, Job.unrecorded_stage]
    exact invoke_of_namesFile hnames hread elapsed fuel input output
  · rintro events ⟨fuel, rfl⟩
    exact ⟨fuel, hshows fuel⟩
  · rintro events r ⟨fuel, hr, rfl⟩
    obtain ⟨hend, -⟩ := Session.run_eq_some_iff.mp hr
    refine ⟨fuel, job.conclude elapsed r.outcome, ?_⟩
    rw [hrun, hend]
    rfl
  · intro fuel ending i j h
    rw [hrun] at h
    cases hend : (s.start c).run s.code fuel with
    | going d =>
      rw [hend] at h
      cases h
    | ended o' d =>
      rw [hend] at h
      cases h
      have hends := Session.ends_of_config (Config.ends_iff_run.mpr ⟨fuel, hend, rfl⟩)
      exact ⟨_, _, hends, rfl, rfl, job.afterRun_conclude elapsed o'⟩

/-- A mode that is missing in spite of a request for help, a file that is not there, and a program that
writes a value to an output without a reader, and to one that fails with a record there are no words
for. -/
theorem invoke_settles_or_runs_piped :
    let readFile : String → Except String (List UInt8) := fun path =>
      if path = "dot" then .ok [46] else .error "not there"
    let args := ["--time", "-m", "raw", "dot"]
    let pipe : Failure := .cause (.error "gone" (some (.text Fault.brokenPipe)))
    let obscure : Failure := .obscure (.record [(Datum.wording, .null)]) rfl
    let invocation (failure : Failure) (fuel : Nat) :=
      invoke readFile "0.01" fuel args (⟨{}, []⟩ : Recorded Input.Closed)
        (⟨{ failing := [(0, failure)] }, []⟩ : Recorded Output.Script)
    (∃ report, Settles readFile ["--help", "--mode"] report ∧ report.exit ≠ 0 ∧ report.log = []) ∧
    (∃ report line, Settles readFile ["lost"] report ∧ report.exit ≠ 0 ∧ report.errors = [line]) ∧
    Loads readFile args ⟨.raw, some "dot", true, false⟩ [46] ∧
    (∃ fuel report i j, invocation pipe fuel = .over (.reported report) i j ∧
      report.exit = 0 ∧ report.log = [] ∧ report.errors = [] ∧ i.record = [] ∧
      j.record = [.write 0 (.failed pipe)]) ∧
    ∃ fuel i j, invocation obscure fuel = .over .aborted i j ∧ i.record = [] ∧
      j.record = [.write 0 (.failed obscure)] := by
  intro readFile args pipe obscure invocation
  have hmistaken : Options.ofArgs ["--help", "--mode"] = .error .invalidMode := rfl
  have hlost : NamesFile ["lost"] { file := some "lost" } "lost" := ⟨rfl, rfl, rfl, by decide⟩
  have hdot : NamesFile args ⟨.raw, some "dot", true, false⟩ "dot" := ⟨rfl, rfl, rfl, by decide⟩
  have hloads : Loads readFile args ⟨.raw, some "dot", true, false⟩ [46] := ⟨"dot", hdot, rfl⟩
  -- whatever the output fails with, the run makes the one call and ends as the failure says
  have hover : ∀ failure, ∃ fuel ending i j, invocation failure fuel = .over ending i j ∧
      ending.AfterRun true "0.01" (.ofFailure .write failure) ∧ i.record = [] ∧
      j.record = [.write 0 (.failed failure)] := by
    intro failure
    obtain ⟨-, -, -, hends, hafter⟩ := (invoke_settles_or_runs readFile args).2 _ _ hloads "0.01"
      ({} : Input.Closed) ({ failing := [(0, failure)] } : Output.Script)
    let s := Session.load [46] (Mode.raw = .optimized)
    let c : Streams := ⟨Input.Closed, Output.Script, {}, { failing := [(0, failure)] }⟩
    have hdemand : (s.start c).machine.demand s.code = .write 0 :=
      Machine.demand_eq_write_iff.mpr ⟨rfl, Tape.current_blank⟩
    have hend : s.Ends c [.write 0 (.failed failure)] _ :=
      Session.ends_of_config
        (.of_step (Config.step_of_write_failed hdemand rfl) (Config.calls_of_write hdemand))
    obtain ⟨fuel, ending, hrun⟩ := hends _ _ hend
    obtain ⟨events, r, hend', -, -, hending⟩ := hafter fuel ending _ _ hrun
    obtain ⟨rfl, rfl⟩ := hend.eq hend'
    exact ⟨fuel, ending, _, _, hrun, hending, rfl, rfl⟩
  refine ⟨?_, ?_, hloads, ?_, ?_⟩
  · obtain ⟨report, hsettles, hreport⟩ := (invoke_settles_or_runs readFile ["--help", "--mode"]).1 (by
      rintro o content ⟨path, ⟨ho, -⟩, -⟩
      cases hmistaken.symm.trans ho)
    have hhelp := not_asksHelp_of_mistaken hmistaken
    exact ⟨report, hsettles, mt hreport.exit.mp hhelp,
      hreport.silent hhelp (not_namesNoFile_of_mistaken hmistaken)⟩
  · obtain ⟨report, hsettles, hreport⟩ := (invoke_settles_or_runs readFile ["lost"]).1 (by
      rintro o content ⟨path, ⟨ho, -, hfile, -⟩, hread⟩
      cases hlost.1.symm.trans ho
      cases hfile
      cases hread)
    obtain ⟨line, hline⟩ := hreport.told hlost.not_asksHelp
    exact ⟨report, line, hsettles, mt hreport.exit.mp hlost.not_asksHelp, hline⟩
  · obtain ⟨fuel, ending, i, j, hrun, hending, hi, hj⟩ := hover pipe
    have hbroken : (Fault.write (.error "gone" (some (.text Fault.brokenPipe)))).IsBrokenPipe :=
      ⟨"gone", rfl⟩
    cases ending with
    | aborted => cases hending.aborted.mp rfl
    | reported report =>
      have hreport := hending.reported report rfl
      exact ⟨fuel, report, i, j, hrun, hreport.exit.mpr (.inr ⟨_, rfl, hbroken⟩), hreport.silent,
        hreport.quiet _ rfl hbroken, hi, hj⟩
  · obtain ⟨fuel, ending, i, j, hrun, hending, hi, hj⟩ := hover obscure
    obtain rfl := hending.aborted.mpr rfl
    exact ⟨fuel, i, j, hrun, hi, hj⟩

end Cli

end TapeLang
