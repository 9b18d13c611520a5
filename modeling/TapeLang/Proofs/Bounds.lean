import TapeLang.Proofs.Brackets.Matching
import TapeLang.Proofs.Condense.Counts
import TapeLang.Proofs.History
import TapeLang.Proofs.TapeLaws

/-!
# A machine stays within its bounds

The tape has a fixed number of cells and the program a fixed number of instructions, but a head, a
program counter and a list of loops are plain numbers. That they never point anywhere else is an
invariant, `Machine.InBounds`, and `Machine.Next.inBounds` checks it rule by rule. The two rules
that jump are the ones to look at: a loop that is passed over leads behind an instruction of the
program, since the scan falls back on the last one if there is no partner, and a loop that is run
again leads behind an opening bracket.

What is asked of the counts is that moves go the way they say (`Program.MovesNonneg`): nothing stops a
move by a negative count at the end of the tape that it leads to. Programs that were read have positive
counts. And what is written is always an octet, whatever was read: `Session.bounds_kept` says all of
this of whole sessions.
-/

namespace TapeLang

namespace Machine

/-- The head, the program counter and the loops point to what there is. -/
structure InBounds (p : Program) (m : Machine) : Prop where
  head : m.tape.OnTape
  cells : m.tape.cells.size = Tape.length
  pc : m.pc ≤ p.length
  loops : ∀ i ∈ m.loops, p[i]? = some (.plain .openLoop)

/-- All that the next instruction may look at is there: the cell under the head, the instruction
itself unless the program is over, and at a closing bracket that is not stray a loop to close. -/
structure Supplied (p : Program) (m : Machine) : Prop where
  cell : 0 ≤ m.tape.head ∧ m.tape.head < m.tape.cells.size
  instr : m.demand p.toArray ≠ .halted → m.pc < p.length
  loop : p[m.pc]? = some (.plain .closeLoop) → m.demand p.toArray ≠ .stray →
    ∃ start outer, m.loops = start :: outer ∧ start < p.length

variable {p : Program} {m n : Machine}

lemma inBounds_fresh (p : Program) : InBounds p {} where
  head := Tape.onTape_blank
  cells := Tape.size_cells_blank
  pc := Nat.zero_le _
  loops := fun _ hi => nomatch hi

/-- Whatever the counts are, a rule adds an opening bracket to the loops or none. -/
lemma Next.loops_openLoop (hn : m.Next p.toArray n)
    (h : ∀ i ∈ m.loops, p[i]? = some (.plain .openLoop)) :
    ∀ i ∈ n.loops, p[i]? = some (.plain .openLoop) := by
  cases hn with
  | enter hi hz =>
    rw [List.getElem?_toArray] at hi
    exact List.forall_mem_cons.mpr ⟨hi, h⟩
  | @leave start outer hi hl hz =>
    rw [hl, List.forall_mem_cons] at h
    exact h.2
  | counted hi => exact h
  | skip hi hz => exact h
  | again hi hl hz => exact h
  | receive hi b => exact h
  | sent hi => exact h

/-- Every rule keeps a machine within its bounds. -/
theorem Next.inBounds (hp : p.MovesNonneg) (hn : m.Next p.toArray n) (h : m.InBounds p) :
    n.InBounds p := by
  obtain ⟨hhead, hcells, -, hloops⟩ := h
  have hloops' := hn.loops_openLoop hloops
  have hlt : ∀ {x : Instr}, p.toArray[m.pc]? = some x → m.pc < p.length := by
    intro x hx
    rw [List.getElem?_toArray] at hx
    exact Program.lt_length hx
  cases hn with
  | @counted kind count hi =>
    have hcells' := (kind.size_cells_act count m.tape).trans hcells
    have hcount := hp.forward (List.mem_of_getElem? (List.getElem?_toArray.symm.trans hi))
    exact ⟨Counted.onTape_act hhead hcount, hcells', hlt hi, hloops'⟩
  | skip hi hz =>
    have hsize : m.pc < p.toArray.size := by
      rw [List.size_toArray]
      exact hlt hi
    have hpartner := (Program.partner_mem_range hsize).2
    rw [List.size_toArray] at hpartner
    exact ⟨hhead, hcells, hpartner, hloops'⟩
  | enter hi hz => exact ⟨hhead, hcells, hlt hi, hloops'⟩
  | leave hi hl hz => exact ⟨hhead, hcells, hlt hi, hloops'⟩
  | @again start outer hi hl hz =>
    have hstart : p[start]? = some (.plain .openLoop) := hloops start (by simp [hl])
    exact ⟨hhead, hcells, Program.lt_length hstart, hloops'⟩
  | receive hi b =>
    have hhead' : (m.tape.put b).OnTape := by rwa [Tape.OnTape, Tape.head_put]
    exact ⟨hhead', (m.tape.size_cells_put b).trans hcells, hlt hi, hloops'⟩
  | sent hi => exact ⟨hhead, hcells, hlt hi, hloops'⟩

lemma InBounds.supplied (h : m.InBounds p) : m.Supplied p where
  cell := by
    rw [h.cells]
    exact h.head
  instr hd := by
    rw [Ne, demand_eq_halted_iff, List.size_toArray, not_le] at hd
    exact hd
  loop hc hd := by
    rw [Ne, demand_eq_stray_iff, List.getElem?_toArray, not_and] at hd
    obtain ⟨start, outer, hl⟩ := List.exists_cons_of_ne_nil (hd hc)
    exact ⟨start, outer, hl, Program.lt_length (h.loops start (by simp [hl]))⟩

end Machine

namespace Session

variable {p : Program} {calls : List Streams} {m : Machine} {t : Session}

lemma loops_openLoop_of_passes (h : (ofProgram p).Passes calls m) :
    ∀ i ∈ m.loops, p[i]? = some (.plain .openLoop) :=
  h.induction (I := fun m => ∀ i ∈ m.loops, p[i]? = some (.plain .openLoop))
    (fun _ hi => nomatch hi) fun _ hm hn => hn.loops_openLoop hm

lemma inBounds_of_passes (hp : p.MovesNonneg) (h : (ofProgram p).Passes calls m) :
    m.InBounds p :=
  h.induction (I := fun m => m.InBounds p) (Machine.inBounds_fresh p)
    fun _ hm hn => hn.inBounds hp hm

lemma inBounds_of_after (hp : p.MovesNonneg) (h : (ofProgram p).After calls t) :
    t.machine.InBounds p := by
  rcases h.eq_or_passes with heq | hpasses
  · rw [heq]
    exact Machine.inBounds_fresh p
  · exact inBounds_of_passes hp hpasses

/-- **Machines stay within their bounds** in every session of a program whose moves go the way they
say, on any streams, between two instructions as well as after a run call, however it ended. Every cell
is an octet, and so is every value that is handed to an output. A program that was read, condensed or
not, has counts of at least one. -/
theorem bounds_kept :
    (∀ p : Program, p.MovesNonneg → ∀ (calls : List Streams) (m : Machine),
      ((ofProgram p).Passes calls m ∨ ∃ t, (ofProgram p).After calls t ∧ t.machine = m) →
      m.InBounds p ∧ m.Supplied p ∧ ∀ b ∈ m.tape.cells, b.toNat ≤ 255) ∧
    (∀ (s : Session) (c : Streams) (events : List Event), s.Makes c events →
      ∀ v answer, .write v answer ∈ events → 0 ≤ v ∧ v ≤ 255) ∧
    ∀ bytes condense, (load bytes condense).program.Positive ∧
      (load bytes condense).program.MovesNonneg := by
  refine ⟨fun p hp calls m hm => ?_, fun s c events hmakes v answer hv => ?_,
    fun bytes condense => ?_⟩
  · have hbounds : m.InBounds p := by
      rcases hm with hpasses | ⟨t, hafter, rfl⟩
      · exact inBounds_of_passes hp hpasses
      · exact inBounds_of_after hp hafter
    exact ⟨hbounds, hbounds.supplied, fun b _ => Nat.le_of_lt_succ b.toNat_lt⟩
  · obtain ⟨fuel, rfl⟩ := hmakes
    obtain ⟨b, rfl⟩ := Config.write_mem_trace hv
    have hb := b.toNat_lt
    omega
  · have hpositive : (load bytes condense).program.Positive := by
      cases condense with
      | false => exact Program.positive_ofBytes bytes
      | true => exact (Program.positive_ofBytes bytes).condense
    exact ⟨hpositive, hpositive.movesNonneg⟩

/-- A cell that is lowered below zero, and a loop that is entered at the start of the tape; writing
the cell fails and leaves the machine there. -/
theorem bounds_kept_refused :
    let p : Program := [.counted .left 5, .counted .sub 1, .plain .openLoop, .plain .output]
    let c : Streams := { In := Input.Closed, Out := Output.Descriptor, input := {},
                         output := { writable := false } }
    let m : Machine := ⟨Tape.blank.add (-1), 3, [2]⟩
    p.MovesNonneg ∧ (∃ t, (ofProgram p).After [c] t ∧ t.machine = m) ∧
      (ofProgram p).Makes c [.write 255 (.failed SystemError.unwritable.cause)] ∧
      (m.InBounds p ∧ m.Supplied p) ∧ (0 : Int) ≤ 255 ∧ (255 : Int) ≤ 255 := by
  intro p c m
  have hp : p.MovesNonneg := by
    intro count h
    have hcount : count = 5 := by simpa [p] using h
    omega
  have hcell : (Tape.blank.add (-1)).current = 255 := Tape.current_add_blank (-1)
  have hne : (Tape.blank.add (-1)).current ≠ 0 := by
    rw [hcell]
    decide
  have hcomputes : Machine.Computes p.toArray {} m :=
    .counted rfl (.counted rfl (.enter rfl hne (.refl _)))
  have hdemand : m.demand p.toArray = .write 255 := Machine.demand_eq_write_iff.mpr ⟨rfl, hcell⟩
  have hrun := (Config.Reaches.of_computes hcomputes c.input c.output).ends
    (.of_step (Config.step_of_write_failed hdemand rfl) (Config.calls_of_write hdemand))
  have hend := ends_of_config (s := ofProgram p) (c := c) hrun
  have hafter : ∃ t, (ofProgram p).After [c] t ∧ t.machine = m :=
    ⟨_, ⟨_, _, hend, rfl⟩, rfl⟩
  have hmakes : (ofProgram p).Makes c [.write 255 (.failed SystemError.unwritable.cause)] :=
    makes_iff.mpr (.inr ⟨_, _, hrun⟩)
  obtain ⟨hin, hsupplied, -⟩ := bounds_kept.1 p hp [c] m (.inr hafter)
  have hoctet := bounds_kept.2.1 _ c _ hmakes _ _ (List.mem_singleton.mpr rfl)
  exact ⟨hp, hafter, hmakes, ⟨hin, hsupplied⟩, hoctet⟩

end Session

end TapeLang
