/-!
# The options of a command line

Arguments are read from left to right by `Options.ofArgs`. Three flags are known, each in a long
and a short spelling. `--help` and `--time` are sticky; `--mode` takes the argument behind it,
whatever that looks like, and the last one counts. Of the other arguments those that begin with a
dash are passed over and the last of the rest is the file.

The only mistake there is to make is a `--mode` without one of the two modes behind it.
-/

namespace TapeLang

namespace Cli

/-- How a program is to be run. -/
inductive Mode where
  /-- Condensed. -/
  | optimized
  /-- As it stands. -/
  | raw
deriving DecidableEq, Repr

namespace Mode

/-- The name of a mode on the command line. -/
def name : Mode → String
  | .optimized => "optimized"
  | .raw => "raw"

/-- The mode of a name. -/
def ofName? (s : String) : Option Mode :=
  [Mode.optimized, Mode.raw].find? (·.name = s)

end Mode

/-- The flags of the command line. -/
inductive Flag where
  /-- Show the usage. -/
  | help
  /-- Choose the mode. -/
  | mode
  /-- Show the time that the run took. -/
  | time
deriving DecidableEq, Repr

namespace Flag

/-- The spellings of a flag. -/
def spellings : Flag → List String
  | .help => ["--help", "-h"]
  | .mode => ["--mode", "-m"]
  | .time => ["--time", "-t"]

/-- The flag that an argument is a spelling of. -/
def ofArg? (arg : String) : Option Flag :=
  [Flag.help, .mode, .time].find? (arg ∈ ·.spellings)

end Flag

/-- Whether an argument begins with a dash. -/
def isDashed (arg : String) : Bool :=
  arg.toList.head? = some '-'

/-- A mistake in the use of the command line. -/
inductive UsageError where
  /-- No mode, or none of that name. -/
  | invalidMode
deriving DecidableEq, Repr

/-- What is said about a mistake. -/
def UsageError.message : UsageError → String
  | .invalidMode => "Invalid mode. Use \"optimized\" or \"raw\""

/-- What a command line asks for. -/
structure Options where
  /-- How to run the program. -/
  mode : Mode := .optimized
  /-- The file with the program. -/
  file : Option String := none
  /-- Whether to show the time. -/
  timed : Bool := false
  /-- Whether to show the usage instead. -/
  help : Bool := false
deriving DecidableEq, Repr

namespace Options

/-- Reads arguments on top of what was read before. -/
def readArgs (o : Options) : List String → Except UsageError Options
  | [] => .ok o
  | arg :: rest =>
    match Flag.ofArg? arg with
    | some .help => readArgs { o with help := true } rest
    | some .time => readArgs { o with timed := true } rest
    | some .mode =>
      match rest with
      | [] => .error .invalidMode
      | value :: rest =>
        match Mode.ofName? value with
        | some mode => readArgs { o with mode } rest
        | none => .error .invalidMode
    | none =>
      if isDashed arg then readArgs o rest else readArgs { o with file := some arg } rest

/-- The options that a list of arguments asks for. -/
def ofArgs (args : List String) : Except UsageError Options :=
  readArgs {} args

end Options

end Cli

end TapeLang
