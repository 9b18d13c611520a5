import TapeLang.Cli

/-!
# The program as a process

The outermost layer: the arguments, the file, standard input and output and the clock of the
system, joined to `Cli.request`, `Machine.demand` and `Job.conclude`, which decide everything.
-/

namespace TapeLang

namespace Console

/-- What a failure of a standard stream amounts to as a cause. -/
def causeOf : IO.Error → Cause
  | .resourceVanished _ details => .error details (some (.text Fault.brokenPipe))
  | e => .error (toString e) none

/-- Whether a code is a given error number, which some calls report with its sign turned. -/
def hasNumber (code number : UInt32) : Bool :=
  code = number || code = 0 - number

/-- Why a file cannot be read. The numbers are those of a directory read as a file and of a name
that is too long. -/
def reasonFor (path : String) (e : IO.Error) : String :=
  match e with
  | .noFileOrDirectory .. => (SystemError.noEntry path).message
  | .inappropriateType _ code _ =>
    if hasNumber code 21 then SystemError.isDirectory.message
    else (SystemError.notDirectory path).message
  | .invalidArgument _ code _ =>
    if hasNumber code 36 then (SystemError.nameTooLong path).message else toString e
  | _ => toString e

/-- Runs a program on standard input and output, octet by octet, until it ends. -/
partial def run (code : Array Instr) (input output : IO.FS.Stream) (m : Machine) : IO Outcome := do
  match m.demand code with
  | .halted => return .finished
  | .stray => return .faulted (.stray m.pc)
  | .compute => run code input output (m.compute code)
  | .read =>
    match ← (input.read 1).toBaseIO with
    | .ok octets => run code input output (m.receive (octets.data[0]?.getD 0))
    | .error e => return .faulted (.read (causeOf e))
  | .write b =>
    match ← (do output.write ⟨#[b]⟩; output.flush).toBaseIO with
    | .ok _ => run code input output m.sent
    | .error e => return .faulted (.write (causeOf e))

/-- Reads the file of a job and runs what it holds. -/
def carryOut (job : Cli.Job) : IO Cli.Ending := do
  match ← (IO.FS.readBinFile job.path).toBaseIO with
  | .error e => return .reported (job.unreadable (reasonFor job.path e))
  | .ok content =>
    let input ← IO.getStdin
    let output ← IO.getStdout
    let start ← IO.monoNanosNow
    let session := job.session content.data.toList
    let outcome ← run session.code input output session.machine
    let stop ← IO.monoNanosNow
    return job.conclude (Cli.milliseconds (stop - start)) outcome

end Console

end TapeLang

/-- Runs the program with the arguments of the command line. -/
def main (args : List String) : IO UInt32 := do
  let ending ←
    match TapeLang.Cli.request args with
    | .error report => pure (.reported report)
    | .ok job => TapeLang.Console.carryOut job
  match ending with
  | .reported report =>
    for line in report.log do
      IO.println line
    for line in report.errors do
      IO.eprintln line
    return report.exit
  | .aborted =>
    IO.eprintln "TypeError: Cannot convert object to primitive value"
    return 1
