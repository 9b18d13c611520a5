import TapeLang.Cli.Options
import TapeLang.Session

/-!
# The command line program

The program loads a file, runs it on an input and an output and tells how it went. It does so in
stages, each of which either goes on or is the end of the matter.

* `Cli.request` reads the arguments. It ends in a `Report` when they are wrong, when help is
  asked for (a wrong mode goes before that) or when there is no file (help goes before that).
* `Job.unreadable` reports a file that cannot be read, `Job.session` loads one that can.
* `Job.conclude` reports a run that has ended, if it can. The time is only shown for a run that
  came to the end of its program.

A report is the exit code, the lines for the log and the lines for the error channel. There is none
on a run that has failed with something there are no words for: nobody waits for that failure, and
it brings the invocation down. Each of these is a plain function; `Cli.invoke` puts them together
over any way of reading files and any streams, and says how far an invocation has come.
-/

namespace TapeLang

namespace Cli

/-- What the user is told at the end. -/
structure Report where
  /-- The exit code: zero if all went well. -/
  exit : UInt32
  /-- The lines for the log. -/
  log : List String := []
  /-- The lines for the error channel. -/
  errors : List String := []
deriving DecidableEq, Repr

/-- How an invocation is over. -/
inductive Ending where
  /-- With a report. -/
  | reported (report : Report)
  /-- With a failure that is not caught. -/
  | aborted
deriving DecidableEq, Repr

/-- The text that explains the command line. -/
def usage : String :=
  "\nTape Interpreter\n\nUsage: bfi [options] <file>\n\nOptions:\n" ++
  "  --mode, -m     Mode: 'optimized' or 'raw' [default: optimized]\n" ++
  "  --time, -t     Show execution time\n" ++
  "  --help, -h     Show this help\n"

/-- A program to be run from a file. -/
structure Job where
  /-- The path of the file. -/
  path : String
  /-- How to run it. -/
  mode : Mode
  /-- Whether to show the time. -/
  timed : Bool
deriving DecidableEq, Repr

/-- The report on a command line that names no file. -/
def Report.noFile : Report :=
  { exit := 1, log := [usage], errors := ["No input file specified"] }

/-- What the arguments amount to: a job, or a report right away. -/
def request (args : List String) : Except Report Job :=
  match Options.ofArgs args with
  | .error e => .error { exit := 1, errors := [e.message] }
  | .ok o =>
    if o.help then .error { exit := 0, log := [usage] }
    else
      match o.file with
      | none => .error .noFile
      | some path => if path = "" then .error .noFile else .ok ⟨path, o.mode, o.timed⟩

namespace Job

/-- The report on a file that cannot be read, and why. -/
def unreadable (job : Job) (why : String) : Report :=
  { exit := 1, errors := ["Error: cannot read file '" ++ job.path ++ "': " ++ why] }

/-- A fresh session of what the file holds. -/
def session (job : Job) (content : List UInt8) : Session :=
  Session.load content (job.mode = .optimized)

/-- How the invocation is over when the run has ended after a time, which is given as text. -/
def conclude (job : Job) (elapsed : String) : Outcome → Ending
  | .finished => .reported
      { exit := 0
        errors := if job.timed then ["\nExecution time: " ++ elapsed ++ "ms"] else [] }
  | .faulted f =>
    match f.diagnostic with
    | none => .reported { exit := 0 }
    | some line => .reported { exit := 1, errors := [line] }
  | .undescribed => .aborted

end Job

/-- A span of time in milliseconds with two decimal places. The milliseconds are a number, which may
be off the quotient by its rounding; of that number the nearest hundredth is shown, and the upper one
in the middle between two. -/
def milliseconds (nanoseconds : Nat) : String :=
  let (m, bits) := Count.quotient (Count.round nanoseconds).toNat 1000000
  let hundredths := (200 * m + (1 <<< bits)) >>> (bits + 1)
  let fraction := hundredths % 100
  toString (hundredths / 100) ++ "." ++ toString (fraction / 10) ++ toString (fraction % 10)

/-- The number nearest to 0.015 is below it. -/
example : milliseconds 15000 = "0.01" ∧ milliseconds 25000 = "0.03" := ⟨rfl, rfl⟩

/-- How far an invocation has come. -/
inductive Stage (ι ω : Type) where
  /-- The program is being run, and nothing has been told yet. -/
  | running (input : ι) (output : ω)
  /-- It is over. -/
  | over (ending : Ending) (input : ι) (output : ω)

/-- How far an invocation has come that runs a program. -/
def Job.stage {ι ω : Type} (job : Job) (elapsed : String) : Progress ι ω → Stage ι ω
  | .going c => .running c.input c.output
  | .ended o c => .over (job.conclude elapsed o) c.input c.output

/-- A whole invocation, of whose run `fuel` steps are taken at most. Files are read by `readFile`,
which gives the octets or says why it cannot. -/
def invoke {ι ω : Type} [Source ι] [Sink ω] (readFile : String → Except String (List UInt8))
    (elapsed : String) (fuel : Nat) (args : List String) (input : ι) (output : ω) : Stage ι ω :=
  match request args with
  | .error report => .over (.reported report) input output
  | .ok job =>
    match readFile job.path with
    | .error why => .over (.reported (job.unreadable why)) input output
    | .ok content =>
      let s := job.session content
      job.stage elapsed (Config.run s.code fuel ⟨s.machine, input, output⟩)

namespace Stage

variable {ι ω : Type}

/-- The input as it is. -/
def input : Stage ι ω → ι
  | .running i _ => i
  | .over _ i _ => i

/-- The output as it is. -/
def output : Stage ι ω → ω
  | .running _ o => o
  | .over _ _ o => o

/-- The lines on the log so far. -/
def log : Stage ι ω → List String
  | .over (.reported report) _ _ => report.log
  | _ => []

end Stage

end Cli

end TapeLang
