import TapeLang.Proofs.Step

/-!
# What a run does to its streams

`Config.run` says where a run comes to, and the streams it leaves say what became of them. A
stream need not remember what it was asked, though, so the calls themselves are recorded here: an
`Event` is one call on one of the two streams with its answer, and `Config.trace` lists the events
of the first steps of a run in the order in which they happen, failing ones included.

Two relations carry the proofs. `Config.Reaches` says that a run comes to a configuration without
having ended, `Config.Ends` that it ends; both name the events on the way and neither counts
steps. They are tied to the runner by `Config.reaches_iff_run` and `Config.ends_iff_run`. A run
has one future only (`Config.Ends.unique`), and it passes through whatever it reaches
(`Config.Reaches.ends_of_ends`).
-/

namespace TapeLang

/-- A call on one of the streams, with its answer. -/
inductive Event where
  /-- The input was asked for a value. -/
  | read (answer : Reading)
  /-- The output was handed a value. -/
  | write (value : Int) (answer : Delivery)

namespace Config

variable {ι ω : Type} [Source ι] [Sink ω]

/-- The calls that one step makes, which is one at most. -/
def calls (code : Array Instr) (c : Config ι ω) : List Event :=
  match c.machine.demand code with
  | .read => [.read (Source.read c.input).1]
  | .write b => [.write b.toNat (Sink.write c.output b.toNat).1]
  | _ => []

/-- The calls that a run makes in its first `fuel` steps, in order. -/
def trace (code : Array Instr) : Nat → Config ι ω → List Event
  | 0, _ => []
  | fuel + 1, c =>
    c.calls code ++
      match c.step code with
      | .going d => trace code fuel d
      | .ended _ _ => []

/-- A run from `c` comes to `d` without having ended, and makes the calls `events` on the way. -/
inductive Reaches (code : Array Instr) : Config ι ω → List Event → Config ι ω → Prop where
  /-- It is there. -/
  | refl (c : Config ι ω) : Reaches code c [] c
  /-- It takes a step first. -/
  | step {c d e : Config ι ω} {events : List Event} :
      c.step code = .going d → Reaches code d events e →
      Reaches code c (c.calls code ++ events) e

/-- A run from `c` ends as `o` in `d`, and makes the calls `events` on the way. -/
inductive Ends (code : Array Instr) :
    Config ι ω → List Event → Outcome → Config ι ω → Prop where
  /-- The next step is the last. -/
  | last {c d : Config ι ω} {o : Outcome} :
      c.step code = .ended o d → Ends code c (c.calls code) o d
  /-- It goes on with a step. -/
  | step {c d e : Config ι ω} {o : Outcome} {events : List Event} :
      c.step code = .going d → Ends code d events o e →
      Ends code c (c.calls code ++ events) o e

variable {code : Array Instr} {c d e : Config ι ω} {o : Outcome} {events : List Event}

/-! ## The calls of one step -/

lemma calls_of_halted (h : c.machine.demand code = .halted) : c.calls code = [] := by
  simp [calls, h]

lemma calls_of_stray (h : c.machine.demand code = .stray) : c.calls code = [] := by
  simp [calls, h]

lemma calls_of_compute (h : c.machine.demand code = .compute) : c.calls code = [] := by
  simp [calls, h]

lemma calls_of_read (h : c.machine.demand code = .read) :
    c.calls code = [.read (Source.read c.input).1] := by
  simp [calls, h]

lemma calls_of_write {b : UInt8} (h : c.machine.demand code = .write b) :
    c.calls code = [.write b.toNat (Sink.write c.output b.toNat).1] := by
  simp [calls, h]

/-- Only octets are handed to the output. -/
lemma write_mem_calls {v : Int} {answer : Delivery} (h : .write v answer ∈ c.calls code) :
    ∃ b : UInt8, v = b.toNat := by
  unfold calls at h
  split at h
  · cases List.mem_singleton.mp h
  · cases List.mem_singleton.mp h
    exact ⟨_, rfl⟩
  · cases h

lemma write_mem_trace {fuel : Nat} {v : Int} {answer : Delivery}
    (h : .write v answer ∈ c.trace code fuel) : ∃ b : UInt8, v = b.toNat := by
  induction fuel generalizing c with
  | zero => cases h
  | succ fuel ih =>
    rw [trace, List.mem_append] at h
    rcases h with h | h
    · exact write_mem_calls h
    · split at h
      · exact ih h
      · cases h

/-! ## Putting runs together -/

lemma Reaches.one (h : c.step code = .going d) : Reaches code c (c.calls code) d := by
  simpa using Reaches.step h (Reaches.refl d)

lemma Reaches.of_step (h : c.step code = .going d) (hc : c.calls code = events) :
    Reaches code c events d := by
  rw [← hc]
  exact .one h

lemma Ends.of_step (h : c.step code = .ended o d) (hc : c.calls code = events) :
    Ends code c events o d := by
  rw [← hc]
  exact .last h

/-- Computing makes no calls. -/
lemma Reaches.of_computes {m n : Machine} (h : m.Computes code n) (input : ι) (output : ω) :
    Reaches code ⟨m, input, output⟩ [] ⟨n, input, output⟩ := by
  induction h with
  | refl m => exact .refl _
  | @step m n hd _ ih =>
    have hdemand : (⟨m, input, output⟩ : Config ι ω).machine.demand code = .compute := hd
    have hstep := Reaches.step (step_of_compute hdemand) ih
    rwa [calls_of_compute hdemand] at hstep

lemma Reaches.trans {events' : List Event} (h : Reaches code c events d)
    (h' : Reaches code d events' e) : Reaches code c (events ++ events') e := by
  induction h with
  | refl c => exact h'
  | step hs _ ih =>
    rw [List.append_assoc]
    exact .step hs (ih h')

lemma Reaches.ends {events' : List Event} (h : Reaches code c events d)
    (h' : Ends code d events' o e) : Ends code c (events ++ events') o e := by
  induction h with
  | refl c => exact h'
  | step hs _ ih =>
    rw [List.append_assoc]
    exact .step hs (ih h')

/-- What a run reaches lies on the way of any end it has. -/
lemma Reaches.ends_of_ends {events' : List Event} (h : Reaches code c events d)
    (h' : Ends code c events' o e) :
    ∃ rest, events' = events ++ rest ∧ Ends code d rest o e := by
  induction h generalizing events' with
  | refl c => exact ⟨events', rfl, h'⟩
  | step hs _ ih =>
    cases h' with
    | last hl =>
      rw [hs] at hl
      cases hl
    | step hs' h' =>
      obtain rfl : _ = _ := Progress.going.inj (hs.symm.trans hs')
      obtain ⟨rest, rfl, hrest⟩ := ih h'
      exact ⟨rest, (List.append_assoc ..).symm, hrest⟩

/-- A run ends in one way only. -/
theorem Ends.unique {events' : List Event} {o' : Outcome} {d' : Config ι ω}
    (h : Ends code c events o d) (h' : Ends code c events' o' d') :
    events = events' ∧ o = o' ∧ d = d' := by
  induction h generalizing events' with
  | last hl =>
    cases h' with
    | last hl' =>
      cases hl.symm.trans hl'
      exact ⟨rfl, rfl, rfl⟩
    | step hs' _ => cases hl.symm.trans hs'
  | step hs _ ih =>
    cases h' with
    | last hl' => cases hs.symm.trans hl'
    | step hs' h' =>
      obtain rfl := Progress.going.inj (hs.symm.trans hs')
      obtain ⟨rfl, rfl, rfl⟩ := ih h'
      exact ⟨rfl, rfl, rfl⟩

/-- A run comes to its end from a configuration whose next step is the last. -/
lemma Ends.exists_last (h : Ends code c events o d) :
    ∃ e before, Reaches code c before e ∧ e.step code = .ended o d ∧
      events = before ++ e.calls code := by
  induction h with
  | last hl => exact ⟨_, [], .refl _, hl, rfl⟩
  | step hs _ ih =>
    obtain ⟨e, before, he, hl, rfl⟩ := ih
    exact ⟨e, _, .step hs he, hl, (List.append_assoc ..).symm⟩

/-! ## The relations and the runner -/

@[simp] lemma trace_zero (code : Array Instr) (c : Config ι ω) : c.trace code 0 = [] := rfl

lemma trace_succ_of_going (h : c.step code = .going d) (fuel : Nat) :
    c.trace code (fuel + 1) = c.calls code ++ d.trace code fuel := by
  simp [trace, h]

lemma trace_succ_of_ended (h : c.step code = .ended o d) (fuel : Nat) :
    c.trace code (fuel + 1) = c.calls code := by
  simp [trace, h]

lemma run_succ_of_going (h : c.step code = .going d) (fuel : Nat) :
    c.run code (fuel + 1) = d.run code fuel := by
  rw [run_succ, h]

lemma run_succ_of_ended (h : c.step code = .ended o d) (fuel : Nat) :
    c.run code (fuel + 1) = .ended o d := by
  rw [run_succ, h]

/-- A run goes on from what it reaches with the steps that are left. -/
lemma Reaches.exists_run_add (h : Reaches code c events d) :
    ∃ n, ∀ fuel, c.run code (n + fuel) = d.run code fuel ∧
      c.trace code (n + fuel) = events ++ d.trace code fuel := by
  induction h with
  | refl c => exact ⟨0, fun fuel => by simp⟩
  | step hs _ ih =>
    obtain ⟨n, hn⟩ := ih
    refine ⟨n + 1, fun fuel => ?_⟩
    obtain ⟨hrun, htrace⟩ := hn fuel
    rw [Nat.add_right_comm, run_succ_of_going hs, trace_succ_of_going hs, hrun, htrace,
      List.append_assoc]
    exact ⟨rfl, rfl⟩

/-- A run that goes on from what it reaches has gone on before. -/
lemma Reaches.going_of_going {fuel : Nat} (h : Reaches code c events d)
    (hd : d.run code fuel = .going e) : ∃ e', c.run code fuel = .going e' := by
  obtain ⟨n, hn⟩ := h.exists_run_add
  have hgoing := (hn fuel).1.trans hd
  cases hc : c.run code fuel with
  | going e' => exact ⟨e', rfl⟩
  | ended o e' =>
    have hended := run_of_le hc (Nat.le_add_left fuel n)
    rw [hgoing] at hended
    cases hended

theorem reaches_iff_run :
    Reaches code c events d ↔ ∃ fuel, c.run code fuel = .going d ∧ c.trace code fuel = events := by
  constructor
  · intro h
    obtain ⟨n, hn⟩ := h.exists_run_add
    exact ⟨n, by simpa using hn 0⟩
  · rintro ⟨fuel, hrun, rfl⟩
    induction fuel generalizing c with
    | zero =>
      obtain rfl := Progress.going.inj hrun
      exact .refl c
    | succ fuel ih =>
      cases hs : c.step code with
      | going d' =>
        rw [run_succ_of_going hs] at hrun
        rw [trace_succ_of_going hs]
        exact .step hs (ih hrun)
      | ended o d' =>
        rw [run_succ_of_ended hs] at hrun
        cases hrun

theorem ends_iff_run :
    Ends code c events o d ↔
      ∃ fuel, c.run code fuel = .ended o d ∧ c.trace code fuel = events := by
  constructor
  · intro h
    induction h with
    | last hl => exact ⟨1, run_succ_of_ended hl 0, trace_succ_of_ended hl 0⟩
    | step hs _ ih =>
      obtain ⟨fuel, hrun, rfl⟩ := ih
      exact ⟨fuel + 1, (run_succ_of_going hs fuel).trans hrun, trace_succ_of_going hs fuel⟩
  · rintro ⟨fuel, hrun, rfl⟩
    induction fuel generalizing c with
    | zero => cases hrun
    | succ fuel ih =>
      cases hs : c.step code with
      | going d' =>
        rw [run_succ_of_going hs] at hrun
        rw [trace_succ_of_going hs]
        exact .step hs (ih hrun)
      | ended o' d' =>
        rw [run_succ_of_ended hs] at hrun
        rw [trace_succ_of_ended hs]
        cases hrun
        exact .last hs

/-- The calls made so far are those up to a configuration reached or up to the end. -/
theorem exists_trace_eq_iff :
    (∃ fuel, c.trace code fuel = events) ↔
      (∃ d, Reaches code c events d) ∨ ∃ o d, Ends code c events o d := by
  simp only [reaches_iff_run, ends_iff_run]
  constructor
  · rintro ⟨fuel, htrace⟩
    cases hrun : c.run code fuel with
    | going d => exact .inl ⟨d, fuel, hrun, htrace⟩
    | ended o d => exact .inr ⟨o, d, fuel, hrun, htrace⟩
  · rintro (⟨_, fuel, _, htrace⟩ | ⟨_, _, fuel, _, htrace⟩)
    · exact ⟨fuel, htrace⟩
    · exact ⟨fuel, htrace⟩

end Config

end TapeLang
