import TapeLang.Count

/-!
# Faults, their causes and their wording

A run can go wrong in three ways: the input fails, the output fails, or a closing bracket runs
while no loop is open. The first two carry what the stream failed with, a `Cause`, exactly as
the stream gave it; a cause may be a fault itself, so faults nest to any depth.

All wording is here. `Cause.describe` says what a cause is, `Fault.message` what a fault is, and
`Fault.diagnostic` is what a user is shown. An output that fails because its reader went
away is no news to anyone and has no diagnostic; `Fault.code` is how that is told, and it looks
at the direct cause only.

A fault says what its cause is as soon as it is made. Not every datum can be put into words
(`Datum.describe`), and of one that cannot no fault is made. So a cause is a datum together with
the fact that it has words, and what a stream fails with is a `Failure`: a cause, or a datum that
has none.
-/

namespace TapeLang

/-! ## Data -/

/-- A piece of structured data, which a stream may fail with. -/
inductive Datum where
  /-- No value. -/
  | null
  /-- A truth value. -/
  | bool (b : Bool)
  /-- An integer, of those that are all held as numbers. -/
  | int (n : Int) (h : n.natAbs ≤ Count.limit)
  /-- A text. -/
  | text (s : String)
  /-- A sequence. -/
  | list (items : List Datum)
  /-- A record of named fields. -/
  | record (fields : List (String × Datum))
  /-- Anything else, by its plain text, if it has one. -/
  | other (plain : Option String)

/-- The field by which a record would say how it is put into words. A datum is no way of saying
so, and a record that has the field is not put into words at all. -/
def Datum.wording : String := "toString"

mutual

/-- The plain text of a datum, if it has one. A sequence shows its items between commas, and has
no plain text if one of them has none; a record shows nothing of its fields. -/
def Datum.describe : Datum → Option String
  | .null => some "null"
  | .bool true => some "true"
  | .bool false => some "false"
  | .int n _ => some (toString n)
  | .text s => some s
  | .list items => (Datum.describeItems items).map (",".intercalate ·)
  | .record fields =>
    if fields.any (·.1 = Datum.wording) then none else some "[object Object]"
  | .other plain => plain

/-- The plain texts of the items of a sequence, if all of them have one. An item without a value
leaves its place empty. -/
def Datum.describeItems : List Datum → Option (List String)
  | [] => some []
  | .null :: rest => (Datum.describeItems rest).map ("" :: ·)
  | d :: rest =>
    match d.describe, Datum.describeItems rest with
    | some s, some ss => some (s :: ss)
    | _, _ => none

end

/-! ## Causes and faults -/

mutual

/-- What a stream fails with. -/
inductive Cause where
  /-- An error with a message and, it may be, a code, which can be anything. -/
  | error (message : String) (code : Option Datum)
  /-- A fault of a run, as of a stream that runs a program of its own. -/
  | fault (f : Fault)
  /-- A datum that is no error but has a plain text. -/
  | datum (d : Datum) (h : d.describe.isSome)
  /-- Nothing at all. -/
  | nothing

/-- What ends a run before its time. -/
inductive Fault where
  /-- The input failed. -/
  | read (cause : Cause)
  /-- The output failed. -/
  | write (cause : Cause)
  /-- A closing bracket ran while no loop was open, at this index of the program. -/
  | stray (index : Int)

end

mutual

/-- What a cause is: the message of an error or a fault, the plain text of a datum. -/
def Cause.describe : Cause → String
  | .error message _ => message
  | .fault f => f.message
  | .datum d h => d.describe.get h
  | .nothing => "undefined"

/-- What a fault is, with all that led to it. -/
def Fault.message : Fault → String
  | .read cause => "read failed: " ++ cause.describe
  | .write cause => "write failed: " ++ cause.describe
  | .stray index => "unbalanced ']' at instruction " ++ toString index

end

/-- The code of a cause: that of an error, if it is a text. A fault has none, whatever its own
cause has. -/
def Cause.code : Cause → Option String
  | .error _ (some (.text code)) => some code
  | _ => none

/-- What a stream fails with. -/
inductive Failure where
  /-- What a fault can be made of. -/
  | cause (c : Cause)
  /-- A datum without a plain text. -/
  | obscure (d : Datum) (h : d.describe = none)

instance : Coe Cause Failure := ⟨.cause⟩

/-- Failing with a datum. -/
def Failure.ofDatum (d : Datum) : Failure :=
  match h : d.describe with
  | some _ => .cause (.datum d (by simp [h]))
  | none => .obscure d h

namespace Fault

/-- The cause of a fault, if a stream is to blame. -/
def cause? : Fault → Option Cause
  | .read cause => some cause
  | .write cause => some cause
  | .stray _ => none

/-- The code of the direct cause. -/
def code (f : Fault) : Option String :=
  f.cause?.bind Cause.code

/-- The code that an output fails with once its reader has gone away. -/
def brokenPipe : String := "EPIPE"

/-- The line that tells a user about a fault, or nothing if the fault is benign. -/
def diagnostic (f : Fault) : Option String :=
  match f with
  | .read cause => some ("Read error: " ++ cause.describe ++ ".")
  | .write cause =>
    if f.code = some brokenPipe then none
    else some ("Write error: " ++ cause.describe ++ ".")
  | .stray _ => some "Unbalanced parens found."

@[simp] theorem code_read (c : Cause) : (Fault.read c).code = c.code := rfl

@[simp] theorem code_write (c : Cause) : (Fault.write c).code = c.code := rfl

@[simp] theorem code_stray (i : Int) : (Fault.stray i).code = none := rfl

end Fault

end TapeLang
