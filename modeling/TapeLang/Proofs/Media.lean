import TapeLang.Proofs.Octets
import TapeLang.Proofs.TapeLaws

/-!
# Streams in memory and in files

An input can be read from memory or from a file, and an output kept in either. The four are made in four
ways: a position in integers that are reduced when they are read, the octets from an offset on, integers
that are reduced when they are taken, and octets that are appended. What they have in common is that an
input holds the octets that it has still to give (`Input.Holds`) and an output those that it has taken
(`Output.Holds`); one lemma for each operation says what becomes of them, and nothing else is needed to see
that memory and file cannot be told apart.

A session has its streams for as long as it lives, any number of them, and each of its run calls is on one
input and one output (`Rack`). `Session.showings` is all that can be seen of such a session: for each run
call the calls on its streams with their answers, how it has ended, the machine, and the octets in all of
the outputs. As it counts the steps of a run call, a call that does not end is in it too. That it is the
same on every medium is the last part of `Session.media_alike`.
-/

namespace TapeLang

/-- Where a stream has its octets. -/
inductive Medium where
  /-- In memory. -/
  | memory
  /-- In a file. -/
  | file
deriving DecidableEq, Repr

/-! ## Inputs -/

namespace Input

/-- An input of integers. Memory has them as they are, a file has their octets. -/
def ofMedium : Medium → List Int → Input
  | .memory, data => .buffer ⟨data.toArray, 0⟩
  | .file, data => .descriptor ⟨data.map UInt8.ofInt, true⟩

/-- An input on one of the media, and the octets that it has still to give. -/
inductive Holds : List UInt8 → Input → Prop where
  | memory (b : Buffer) : Holds ((b.data.toList.drop b.position).map UInt8.ofInt) (.buffer b)
  | file (rest : List UInt8) : Holds rest (.descriptor ⟨rest, true⟩)

variable {octets : List UInt8} {b : UInt8} {i i' : Input}

lemma holds_ofMedium (m : Medium) (data : List Int) : (ofMedium m data).Holds (data.map UInt8.ofInt) := by
  cases m with
  | memory => exact .memory ⟨data.toArray, 0⟩
  | file => exact .file _

/-- The next octet is given, and the others are left. -/
lemma Holds.read_cons (h : i.Holds (b :: octets)) :
    (Source.read i).1 = .value b.toNat ∧ (Source.read i).2.Holds octets := by
  generalize hall : b :: octets = all at h
  cases h with
  | memory buffer =>
    obtain ⟨v, rest, hdrop, hv, rfl⟩ := List.map_eq_cons_iff.mp hall.symm
    obtain ⟨hnext, hrest⟩ : buffer.data[buffer.position]? = some v ∧
        buffer.data.toList.drop (buffer.position + 1) = rest := by
      rw [← Array.getElem?_toList, ← List.head?_drop, ← List.tail_drop, hdrop]
      exact ⟨rfl, rfl⟩
    have hread : Source.read (Input.buffer buffer) =
        (.value (v % 256), .buffer { buffer with position := buffer.position + 1 }) := by
      show Input.read _ = _
      simp [Input.read, Buffer.read, hnext]
    rw [hread, ← hv, Octet.toNat_ofInt, ← hrest]
    exact ⟨rfl, .memory { buffer with position := buffer.position + 1 }⟩
  | file =>
    cases hall
    exact ⟨rfl, .file octets⟩

/-- Once all octets have been given the input has ended, and stays as it is. -/
lemma Holds.read_nil (h : i.Holds []) : (Source.read i).1 = .ended ∧ (Source.read i).2.Holds [] := by
  generalize hall : [] = all at h
  cases h with
  | memory buffer =>
    have hdrop := List.map_eq_nil_iff.mp hall.symm
    have hnext : buffer.data[buffer.position]? = none := by
      rw [← Array.getElem?_toList, ← List.head?_drop, hdrop]
      rfl
    have hread : Source.read (Input.buffer buffer) = (.ended, .buffer buffer) := by
      show Input.read _ = _
      simp [Input.read, Buffer.read, hnext]
    rw [hread]
    exact ⟨rfl, .memory buffer⟩
  | file =>
    cases hall
    exact ⟨rfl, .file []⟩

/-- The octets that are held are given one by one, and then the input has ended. -/
lemma Holds.gives (h : i.Holds octets) :
    Source.Gives (octets.map fun b => .value b.toNat) i := by
  intro n
  induction octets generalizing i with
  | nil =>
    rw [List.map_nil, List.length_nil, Nat.zero_add, List.nil_append]
    induction n generalizing i with
    | zero => rfl
    | succ n ih =>
      obtain ⟨hanswer, hrest⟩ := h.read_nil
      rw [Source.answers_succ, hanswer, ih hrest, List.replicate_succ]
  | cons b octets ih =>
    obtain ⟨hanswer, hrest⟩ := h.read_cons
    rw [List.map_cons, List.length_cons, Nat.add_right_comm, Source.answers_succ, hanswer, ih hrest,
      List.cons_append]

/-- Two inputs that hold the same octets, on whatever media. -/
def Alike (i i' : Input) : Prop :=
  ∃ octets, i.Holds octets ∧ i'.Holds octets

/-- They give the same answer, and then they hold the same again. -/
lemma Alike.read (h : i.Alike i') :
    (Source.read i).1 = (Source.read i').1 ∧ (Source.read i).2.Alike (Source.read i').2 := by
  obtain ⟨octets, hi, hi'⟩ := h
  cases octets with
  | nil =>
    obtain ⟨hanswer, hrest⟩ := hi.read_nil
    obtain ⟨hanswer', hrest'⟩ := hi'.read_nil
    exact ⟨hanswer.trans hanswer'.symm, _, hrest, hrest'⟩
  | cons b octets =>
    obtain ⟨hanswer, hrest⟩ := hi.read_cons
    obtain ⟨hanswer', hrest'⟩ := hi'.read_cons
    exact ⟨hanswer.trans hanswer'.symm, _, hrest, hrest'⟩

end Input

/-! ## Outputs -/

namespace Output

/-- An output that holds some octets to begin with. -/
def ofMedium : Medium → List UInt8 → Output
  | .memory, content => .buffer ⟨(content.map fun b => (b.toNat : Int)).toArray⟩
  | .file, content => .descriptor ⟨content.toArray, true⟩

/-- The octets that an output has kept, in order. -/
def octets : Output → List UInt8
  | .discard => []
  | .buffer b => b.octets
  | .descriptor d => d.octets
  | .script s => s.taken.toList.map UInt8.ofInt

/-- An output on one of the media, and the octets that it holds. -/
inductive Holds : List UInt8 → Output → Prop where
  | memory (b : Buffer) : Holds b.octets (.buffer b)
  | file (file : Array UInt8) : Holds file.toList (.descriptor ⟨file, true⟩)

variable {content : List UInt8} {o o' : Output}

lemma holds_ofMedium (m : Medium) (content : List UInt8) : (ofMedium m content).Holds content := by
  cases m with
  | memory =>
    have hcontent : Buffer.octets ⟨(content.map fun b => (b.toNat : Int)).toArray⟩ = content := by
      rw [Buffer.octets, List.map_map]
      exact (List.map_congr_left fun b _ => Octet.ofInt_toNat b).trans (List.map_id content)
    have h := Holds.memory ⟨(content.map fun b => (b.toNat : Int)).toArray⟩
    rwa [hcontent] at h
  | file => exact .file content.toArray

lemma Holds.octets_eq (h : o.Holds content) : o.octets = content := by
  cases h with
  | memory b => rfl
  | file file => rfl

lemma Buffer.octets_write (b : Buffer) (v : Int) :
    (Sink.write b v).2.octets = b.octets ++ [UInt8.ofInt v] := by
  show (b.written.push (v % 256)).toList.map UInt8.ofInt = _
  rw [Array.toList_push, List.map_append, List.map_singleton, Octet.ofInt_emod]
  rfl

/-- Every value is taken, and its octet comes behind the others. -/
lemma Holds.write (h : o.Holds content) (v : Int) :
    (Sink.write o v).1 = .accepted ∧ (Sink.write o v).2.Holds (content ++ [UInt8.ofInt v]) := by
  cases h with
  | memory b =>
    rw [← Buffer.octets_write]
    exact ⟨rfl, .memory (Sink.write b v).2⟩
  | file file =>
    rw [← Array.toList_push]
    exact ⟨rfl, .file (file.push (UInt8.ofInt v))⟩

/-- All values are taken, and their octets come behind the others in their order. -/
lemma Holds.after (h : o.Holds content) (vs : List Int) :
    Sink.answers vs o = List.replicate vs.length .accepted ∧
      (Sink.after vs o).Holds (content ++ vs.map UInt8.ofInt) := by
  induction vs generalizing o content with
  | nil =>
    rw [List.map_nil, List.append_nil]
    exact ⟨rfl, h⟩
  | cons v vs ih =>
    obtain ⟨hanswer, hnext⟩ := h.write v
    obtain ⟨hanswers, hafter⟩ := ih hnext
    rw [Sink.answers_cons, hanswer, hanswers, Sink.after_cons, List.map_cons,
      List.append_cons]
    exact ⟨rfl, hafter⟩

/-- Two outputs that hold the same octets, on whatever media. -/
def Alike (o o' : Output) : Prop :=
  ∃ content, o.Holds content ∧ o'.Holds content

lemma Alike.octets_eq (h : o.Alike o') : o.octets = o'.octets := by
  obtain ⟨content, ho, ho'⟩ := h
  exact ho.octets_eq.trans ho'.octets_eq.symm

/-- They both take a value, and then they hold the same again. -/
lemma Alike.write (h : o.Alike o') (v : Int) :
    (Sink.write o v).1 = (Sink.write o' v).1 ∧ (Sink.write o v).2.Alike (Sink.write o' v).2 := by
  obtain ⟨content, ho, ho'⟩ := h
  obtain ⟨hanswer, hnext⟩ := ho.write v
  obtain ⟨hanswer', hnext'⟩ := ho'.write v
  exact ⟨hanswer.trans hanswer'.symm, _, hnext, hnext'⟩

end Output

/-! ## Runs on streams that are alike -/

namespace Config

variable {code : Array Instr} {c d : Config Input Output}

/-- The same machine on streams that hold the same. -/
structure Alike (c d : Config Input Output) : Prop where
  machine : c.machine = d.machine
  input : c.input.Alike d.input
  output : c.output.Alike d.output

/-- The same calls are made and get the same answers. -/
lemma Alike.calls_eq (h : c.Alike d) (code : Array Instr) :
    c.calls code = d.calls code ∧ c.reply code = d.reply code := by
  unfold calls reply
  rw [h.machine, h.input.read.1]
  simp only [(h.output.write _).1, and_self]

/-- A step ends both runs in the same way or neither, and leaves them alike. -/
lemma Alike.step (h : c.Alike d) (code : Array Instr) :
    (c.step code).outcome? = (d.step code).outcome? ∧
      (c.step code).config.Alike (d.step code).config := by
  obtain ⟨houtcome, hmachine⟩ := step_eq_of_reply h.machine (h.calls_eq code).2
  refine ⟨houtcome, hmachine, ?_, ?_⟩
  · rw [input_step, input_step, h.machine]
    cases d.machine.demand code with
    | read => exact h.input.read.2
    | halted => exact h.input
    | stray => exact h.input
    | compute => exact h.input
    | write b => exact h.input
  · rw [output_step, output_step, h.machine]
    cases d.machine.demand code with
    | write b => exact (h.output.write b.toNat).2
    | halted => exact h.output
    | stray => exact h.output
    | compute => exact h.output
    | read => exact h.output

/-- Any number of steps does. -/
theorem Alike.run (h : c.Alike d) (code : Array Instr) (fuel : Nat) :
    c.trace code fuel = d.trace code fuel ∧
      (c.run code fuel).outcome? = (d.run code fuel).outcome? ∧
      (c.run code fuel).config.Alike (d.run code fuel).config := by
  induction fuel generalizing c d with
  | zero => exact ⟨rfl, rfl, h⟩
  | succ fuel ih =>
    obtain ⟨houtcome, hnext⟩ := h.step code
    obtain ⟨hcalls, -⟩ := h.calls_eq code
    cases hc : c.step code with
    | going c' =>
      cases hd : d.step code with
      | going d' =>
        rw [hc, hd] at hnext
        rw [trace_succ_of_going hc, trace_succ_of_going hd, run_succ_of_going hc,
          run_succ_of_going hd, hcalls]
        obtain ⟨htrace, hrun⟩ := ih hnext
        exact ⟨congrArg _ htrace, hrun⟩
      | ended o d' =>
        rw [hc, hd] at houtcome
        cases houtcome
    | ended o c' =>
      cases hd : d.step code with
      | going d' =>
        rw [hc, hd] at houtcome
        cases houtcome
      | ended o' d' =>
        rw [hc, hd] at houtcome hnext
        rw [trace_succ_of_ended hc, trace_succ_of_ended hd, run_succ_of_ended hc,
          run_succ_of_ended hd]
        exact ⟨hcalls, houtcome, hnext⟩

end Config

/-! ## Sessions -/

/-- The streams of a session, told by numbers. -/
structure Rack where
  /-- The inputs. -/
  inputs : Nat → Input
  /-- The outputs. -/
  outputs : Nat → Output

/-- A run call of a session: the numbers of its streams, and how many of its steps are looked at. -/
structure Call where
  /-- The number of the input. -/
  input : Nat
  /-- The number of the output. -/
  output : Nat
  /-- The number of steps. -/
  steps : Nat

/-- What can be seen of a run call. -/
structure Showing where
  /-- The calls on the streams, with their answers. -/
  events : List Event
  /-- How it has ended, if it has. -/
  outcome : Option Outcome
  /-- The machine after the last of its steps. -/
  machine : Machine
  /-- The octets in all outputs of the session. -/
  octets : Nat → List UInt8

namespace Rack

/-- Inputs of integers and outputs with some content, each on a medium of its own. -/
def ofMedia (data : Nat → List Int) (content : Nat → List UInt8) (i o : Nat → Medium) : Rack :=
  ⟨fun n => .ofMedium (i n) (data n), fun n => .ofMedium (o n) (content n)⟩

/-- A machine on the streams of a run call. -/
def config (f : Rack) (m : Machine) (call : Call) : Config Input Output :=
  ⟨m, f.inputs call.input, f.outputs call.output⟩

/-- The streams as a run call leaves them. -/
def put (f : Rack) (call : Call) (c : Config Input Output) : Rack :=
  ⟨Function.update f.inputs call.input c.input, Function.update f.outputs call.output c.output⟩

/-- Each stream holds the same in both. -/
structure Alike (f g : Rack) : Prop where
  inputs (n : Nat) : (f.inputs n).Alike (g.inputs n)
  outputs (n : Nat) : (f.outputs n).Alike (g.outputs n)

variable {f g : Rack}

lemma alike_ofMedia (data : Nat → List Int) (content : Nat → List UInt8) (i i' o o' : Nat → Medium) :
    (ofMedia data content i o).Alike (ofMedia data content i' o') where
  inputs n := ⟨_, Input.holds_ofMedium (i n) (data n), Input.holds_ofMedium (i' n) (data n)⟩
  outputs n := ⟨_, Output.holds_ofMedium (o n) (content n), Output.holds_ofMedium (o' n) (content n)⟩

lemma Alike.config (h : f.Alike g) (m : Machine) (call : Call) :
    (f.config m call).Alike (g.config m call) :=
  ⟨rfl, h.inputs call.input, h.outputs call.output⟩

lemma Alike.put (h : f.Alike g) (call : Call) {c d : Config Input Output} (hc : c.Alike d) :
    (f.put call c).Alike (g.put call d) where
  inputs n := by
    by_cases hn : n = call.input
    · subst hn
      simpa [Rack.put] using hc.input
    · simpa [Rack.put, hn] using h.inputs n
  outputs n := by
    by_cases hn : n = call.output
    · subst hn
      simpa [Rack.put] using hc.output
    · simpa [Rack.put, hn] using h.outputs n

end Rack

namespace Session

/-- All that can be seen of a session in run calls on streams of a rack, up to the first that has not
ended. -/
def showings : Session → Rack → List Call → List Showing
  | _, _, [] => []
  | s, f, call :: calls =>
    let c := f.config s.machine call
    let p := c.run s.code call.steps
    let left := f.put call p.config
    ⟨c.trace s.code call.steps, p.outcome?, p.config.machine, fun n => (left.outputs n).octets⟩ ::
      if p.outcome?.isSome then showings ⟨s.code, p.config.machine⟩ left calls else []

variable {s : Session} {f g : Rack} {call : Call} {calls : List Call}

/-- **A run call that ends is shown** with how it has ended and what it leaves, and behind it comes what
is shown of the session that it leaves, on the streams that it leaves. -/
theorem showings_of_run {r : Run Input Output}
    (h : s.run call.steps (f.inputs call.input) (f.outputs call.output) = some r) :
    s.showings f (call :: calls) =
      ⟨(f.config s.machine call).trace s.code call.steps, some r.outcome, r.session.machine,
        fun n => ((f.put call r.config).outputs n).octets⟩ ::
      r.session.showings (f.put call r.config) calls := by
  obtain ⟨hend, hcode⟩ := run_eq_some_iff
    (c := ⟨Input, Output, f.inputs call.input, f.outputs call.output⟩).mp h
  have hrun : (f.config s.machine call).run s.code call.steps = .ended r.outcome r.config := hend
  have hsession : (⟨s.code, r.config.machine⟩ : Session) = r.session := by
    rw [← hcode]
    rfl
  rw [showings]
  simp only [hrun, Progress.outcome?_ended, Progress.config_ended, Option.isSome_some, if_true,
    hsession]
  rfl

/-- On streams that hold the same, a session shows the same. -/
lemma showings_eq (h : f.Alike g) (s : Session) (calls : List Call) :
    s.showings f calls = s.showings g calls := by
  induction calls generalizing s f g with
  | nil => rfl
  | cons call calls ih =>
    obtain ⟨htrace, houtcome, hconfig⟩ := (h.config s.machine call).run s.code call.steps
    have hleft := h.put call hconfig
    have hoctets : ∀ n, (((f.put call _).outputs n).octets) = ((g.put call _).outputs n).octets :=
      fun n => (hleft.outputs n).octets_eq
    rw [showings, showings]
    simp only [htrace, houtcome, hconfig.machine, hoctets, ih hleft]

/-- **Memory and file are interchangeable.** An input of integers gives each of them modulo 256, in their
order, and has ended then, on either medium. An output of either medium takes every integer it is handed,
in whatever groups they come, and holds behind what it held before one octet for each, the integer modulo
256. So whatever a session is and however its streams are spread over the media, it shows the same: in each
of its run calls the calls on the streams and their answers, how it ends, if it does, the machine, and the
octets in all of the outputs. -/
theorem media_alike :
    (∀ (m : Medium) (data : List Int),
      Source.Gives (data.map fun v => .value (v % 256)) (Input.ofMedium m data)) ∧
    (∀ (m : Medium) (content : List UInt8) (groups : List (List Int)),
      let output := groups.foldl (fun o vs => Sink.after vs o) (Output.ofMedium m content)
      output.octets = content ++ groups.flatten.map UInt8.ofInt ∧
        ∀ vs, Sink.answers vs output = List.replicate vs.length .accepted) ∧
    ∀ (s : Session) (data : Nat → List Int) (content : Nat → List UInt8)
      (i i' o o' : Nat → Medium) (calls : List Call),
      s.showings (.ofMedia data content i o) calls =
        s.showings (.ofMedia data content i' o') calls := by
  refine ⟨fun m data => ?_, fun m content groups => ?_, fun s data content i i' o o' calls => ?_⟩
  · have hgives := (Input.holds_ofMedium m data).gives
    rw [List.map_map] at hgives
    have hvalues : (data.map fun v => Reading.value (v % 256)) =
        data.map ((fun b => Reading.value b.toNat) ∘ UInt8.ofInt) :=
      List.map_congr_left fun v _ => congrArg Reading.value (Octet.toNat_ofInt v).symm
    rwa [hvalues]
  · have hholds := (Output.holds_ofMedium m content).after groups.flatten
    intro output
    have houtput : output = Sink.after groups.flatten (Output.ofMedium m content) := by
      rw [Sink.after, List.foldl_flatten]
      rfl
    rw [houtput]
    exact ⟨hholds.2.octets_eq, fun vs => (hholds.2.after vs).1⟩
  · exact showings_eq (Rack.alike_ofMedia data content i i' o o') s calls

end Session

end TapeLang
