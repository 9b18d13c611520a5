import Mathlib.Logic.ExistsUnique
import Mathlib.Tactic.Common
import TapeLang.Fault

/-!
# The wording of faults

A stream may run a program of its own and fail with the fault of that run, so the fault of a run may be
wrapped around a fault, and that around another. A `Chain` is such a fault taken apart: the wrappings from
the outside in, and the last cause, which is no fault of a stream itself. Every fault that a stream is to
blame for is a chain, in one way only (`Fault.existsUnique_chain`), so what is said about all chains is said
about all such faults.

Three functions look at a chain, and each at another part of it. The message goes down the whole chain,
`Chain.message_fault`; the diagnostic puts its own label in the place of the outermost opening; and whether
there is a diagnostic at all is decided by the direct cause, which is the last one only if nothing is
wrapped twice. All of it is in `Chain.told_in_full`.
-/

namespace TapeLang

/-! ## Faults that are told -/

lemma Cause.code_eq_some_iff {cause : Cause} {code : String} :
    cause.code = some code ↔ ∃ message, cause = .error message (some (.text code)) := by
  constructor
  · intro h
    unfold Cause.code at h
    split at h
    · rename_i message text
      cases h
      exact ⟨message, rfl⟩
    · cases h
  · rintro ⟨message, rfl⟩
    rfl

/-- The output of the run has lost its reader: a delivery failed with an error, not with a fault or
anything else, and its code says so. -/
def Fault.IsBrokenPipe (f : Fault) : Prop :=
  ∃ message, f = .write (.error message (some (.text brokenPipe)))

/-- A fault is told unless it is that the reader has gone away. -/
lemma Fault.diagnostic_eq_none_iff {f : Fault} : f.diagnostic = none ↔ f.IsBrokenPipe := by
  constructor
  · intro h
    cases f with
    | read cause => cases h
    | stray index => cases h
    | write cause =>
      by_cases hcode : cause.code = some brokenPipe
      · obtain ⟨message, rfl⟩ := Cause.code_eq_some_iff.mp hcode
        exact ⟨message, rfl⟩
      · simp [diagnostic, hcode] at h
  · rintro ⟨message, rfl⟩
    rfl

/-! ## Wrappings -/

/-- A fault of a stream without its cause: which of the streams it is a fault of. -/
inductive Wrapping where
  /-- The input has failed. -/
  | read
  /-- The output has failed. -/
  | write
deriving DecidableEq, Repr

namespace Wrapping

/-- The fault around a cause. -/
def wrap : Wrapping → Cause → Fault
  | .read => .read
  | .write => .write

/-- What the message of the fault begins with. -/
def opening : Wrapping → String
  | .read => "read failed: "
  | .write => "write failed: "

/-- What the diagnostic of the fault begins with. -/
def label : Wrapping → String
  | .read => "Read error: "
  | .write => "Write error: "

/-- A cause inside several wrappings, the first of which is the outermost. -/
def wrapAll (ws : List Wrapping) (c : Cause) : Cause :=
  ws.foldr (fun w c => .fault (w.wrap c)) c

/-- The openings of several wrappings, one after the other. -/
def openings (ws : List Wrapping) : String :=
  String.join (ws.map opening)

variable {w w' : Wrapping} {c c' : Cause} {ws : List Wrapping}

lemma wrap_inj : w.wrap c = w'.wrap c' ↔ w = w' ∧ c = c' := by
  cases w <;> cases w' <;> simp [wrap]

lemma message_wrap (w : Wrapping) (c : Cause) :
    (w.wrap c).message = w.opening ++ c.describe := by
  cases w <;> rfl

/-- If the fault is told at all, it is with its label and what its direct cause is. -/
lemma diagnostic_wrap (h : (w.wrap c).diagnostic ≠ none) :
    (w.wrap c).diagnostic = some (w.label ++ c.describe ++ ".") := by
  cases w with
  | read => rfl
  | write =>
    rw [wrap, Fault.diagnostic] at h ⊢
    split_ifs at h ⊢
    · exact absurd rfl h
    · rfl

@[simp] lemma openings_nil : openings [] = "" := rfl

@[simp] lemma openings_cons (w : Wrapping) (ws : List Wrapping) :
    openings (w :: ws) = w.opening ++ openings ws :=
  String.join_cons

@[simp] lemma wrapAll_nil (c : Cause) : wrapAll [] c = c := rfl

@[simp] lemma wrapAll_cons (w : Wrapping) (ws : List Wrapping) (c : Cause) :
    wrapAll (w :: ws) c = .fault (w.wrap (wrapAll ws c)) := rfl

/-- What a wrapped cause is, is what each wrapping adds and then what the cause is. -/
lemma describe_wrapAll (ws : List Wrapping) (c : Cause) :
    (wrapAll ws c).describe = openings ws ++ c.describe := by
  induction ws with
  | nil => simp
  | cons w ws ih =>
    rw [wrapAll_cons, Cause.describe, message_wrap, ih, openings_cons, String.append_assoc]

end Wrapping

/-! ## Chains -/

/-- The cause is no fault of a stream, so it has no cause itself. -/
def Cause.IsLast (c : Cause) : Prop :=
  ∀ (w : Wrapping) (c' : Cause), c ≠ .fault (w.wrap c')

open Wrapping

/-- There is one way only to take the wrappings off a cause. -/
lemma Cause.IsLast.wrapAll_inj {c c' : Cause} (hc : c.IsLast) (hc' : c'.IsLast)
    {ws ws' : List Wrapping} (h : wrapAll ws c = wrapAll ws' c') : ws = ws' ∧ c = c' := by
  induction ws generalizing ws' with
  | nil =>
    cases ws' with
    | nil => exact ⟨rfl, h⟩
    | cons w' ws' => exact absurd h (hc w' _)
  | cons w ws ih =>
    cases ws' with
    | nil => exact absurd h.symm (hc' w _)
    | cons w' ws' =>
      rw [wrapAll_cons, wrapAll_cons, Cause.fault.injEq, wrap_inj] at h
      obtain ⟨rfl, hinner⟩ := h
      obtain ⟨rfl, hlast⟩ := ih hinner
      exact ⟨rfl, hlast⟩

/-- All wrappings can be taken off a cause. -/
lemma Cause.exists_wrapAll : ∀ c : Cause, ∃ ws last, last.IsLast ∧ wrapAll ws last = c
  | .fault (.read c) => by
    obtain ⟨ws, last, hlast, rfl⟩ := exists_wrapAll c
    exact ⟨.read :: ws, last, hlast, rfl⟩
  | .fault (.write c) => by
    obtain ⟨ws, last, hlast, rfl⟩ := exists_wrapAll c
    exact ⟨.write :: ws, last, hlast, rfl⟩
  | .fault (.stray index) => ⟨[], .fault (.stray index), by rintro (_ | _) c' ⟨⟩, rfl⟩
  | .error message code => ⟨[], .error message code, by rintro (_ | _) c' ⟨⟩, rfl⟩
  | .datum d h => ⟨[], .datum d h, by rintro (_ | _) c' ⟨⟩, rfl⟩
  | .nothing => ⟨[], .nothing, by rintro (_ | _) c' ⟨⟩, rfl⟩

/-- One wrapping or more around a last cause. -/
structure Chain where
  /-- The wrapping on the outside. -/
  outermost : Wrapping
  /-- The others, from the outside in. -/
  inner : List Wrapping
  /-- What all of them are around. -/
  last : Cause
  /-- The wrappings are all there are. -/
  isLast : last.IsLast

namespace Chain

variable (k : Chain)

/-- The direct cause of the outermost fault. -/
def cause : Cause :=
  wrapAll k.inner k.last

/-- The outermost fault. -/
def fault : Fault :=
  k.outermost.wrap k.cause

lemma describe_cause : k.cause.describe = openings k.inner ++ k.last.describe :=
  describe_wrapAll k.inner k.last

lemma message_fault :
    k.fault.message = openings (k.outermost :: k.inner) ++ k.last.describe := by
  rw [fault, message_wrap, describe_cause, openings_cons, String.append_assoc]

/-- The reader of the output has gone away only if the output itself said so: where there is a second
wrapping, the direct cause is a fault and no error with a code. -/
lemma isBrokenPipe_iff :
    k.fault.IsBrokenPipe ↔ k.inner = [] ∧ k.outermost = .write ∧
      ∃ message, k.last = .error message (some (.text "EPIPE")) := by
  obtain ⟨outermost, inner, last, hlast⟩ := k
  constructor
  · rintro ⟨message, h⟩
    have hwrap : outermost.wrap (wrapAll inner last) =
        Wrapping.write.wrap (.error message (some (.text "EPIPE"))) := h
    obtain ⟨rfl, hcause⟩ := wrap_inj.mp hwrap
    cases inner with
    | nil => exact ⟨rfl, rfl, message, hcause⟩
    | cons w inner => cases hcause
  · rintro ⟨rfl, rfl, message, rfl⟩
    exact ⟨message, rfl⟩

end Chain

/-- **A fault is a chain in one way only**, unless it is a stray bracket, for which no stream is to
blame. -/
theorem Fault.existsUnique_chain {f : Fault} (h : f.cause?.isSome) : ∃! k : Chain, k.fault = f := by
  have hwrap : ∃ (w : Wrapping) (c : Cause), f = w.wrap c := by
    cases f with
    | read c => exact ⟨.read, c, rfl⟩
    | write c => exact ⟨.write, c, rfl⟩
    | stray index => cases h
  obtain ⟨w, c, rfl⟩ := hwrap
  obtain ⟨ws, last, hlast, rfl⟩ := c.exists_wrapAll
  refine ⟨⟨w, ws, last, hlast⟩, rfl, ?_⟩
  rintro ⟨w', ws', last', hlast'⟩ hk
  obtain ⟨rfl, hcause⟩ := wrap_inj.mp hk
  obtain ⟨rfl, rfl⟩ := hlast'.wrapAll_inj hlast hcause
  rfl

namespace Chain

/-- **A fault is told with all that led to it, and is benign at the outermost level only.** Every fault
that a stream is to blame for is one chain of wrappings. Its message is the openings of all wrappings, the
outermost first, and then what the last cause is. There is no diagnostic if and only if there is a single
wrapping, that of the output, and the last cause is an error whose code is the text of a broken pipe. In
all other cases the diagnostic is the label of the outermost wrapping and then what its direct cause is,
which is the openings of the wrappings inside and what the last cause is, with a full stop at the end. -/
theorem told_in_full :
    (∀ f : Fault, (∃ index, f = .stray index) ∨ ∃! k : Chain, k.fault = f) ∧
    ∀ k : Chain,
      k.fault.message =
        String.join ((k.outermost :: k.inner).map Wrapping.opening) ++ k.last.describe ∧
      (k.fault.diagnostic = none ↔ k.inner = [] ∧ k.outermost = .write ∧
        ∃ message, k.last = .error message (some (.text "EPIPE"))) ∧
      ∀ line, k.fault.diagnostic = some line ↔
        ¬ (k.inner = [] ∧ k.outermost = .write ∧
          ∃ message, k.last = .error message (some (.text "EPIPE"))) ∧
        line = k.outermost.label ++
          (String.join (k.inner.map Wrapping.opening) ++ k.last.describe) ++ "." := by
  refine ⟨fun f => ?_, fun k => ⟨k.message_fault, ?_, fun line => ?_⟩⟩
  · cases f with
    | stray index => exact .inl ⟨index, rfl⟩
    | read c => exact .inr (Fault.existsUnique_chain rfl)
    | write c => exact .inr (Fault.existsUnique_chain rfl)
  · rw [Fault.diagnostic_eq_none_iff, isBrokenPipe_iff]
  · rw [← isBrokenPipe_iff, ← Fault.diagnostic_eq_none_iff]
    have htold : k.fault.diagnostic ≠ none →
        k.fault.diagnostic = some (k.outermost.label ++ k.cause.describe ++ ".") := diagnostic_wrap
    rw [describe_cause] at htold
    constructor
    · intro hline
      have hne : k.fault.diagnostic ≠ none := by simp [hline]
      exact ⟨hne, Option.some.inj (hline.symm.trans (htold hne))⟩
    · rintro ⟨hne, rfl⟩
      exact htold hne

end Chain

end TapeLang
