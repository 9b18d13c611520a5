import TapeLang.Proofs.Brackets.Scan
import TapeLang.Proofs.History
import TapeLang.Proofs.TapeLaws

/-!
# The loops being run, and stray brackets

The machine matches brackets while it runs: it puts an opening bracket on its list of loops when
it enters the loop, takes it off when the loop is done, and jumps over loops that it does not
enter. Its list is nevertheless a fact about the text of the program and the place that has been
reached, and not about the data: it is what the ordinary matching from left to right has pending
there (`Machine.Tracks`).

There is one way out of this. A loop that is not entered and has no closing bracket is passed over
to the end of the program, and its own bracket is not on the list (`Machine.RanPast`). Nothing
happens to the machine after that.

`Machine.tracks_or_ranPast` checks this rule by rule; `Session.loops_reverse_eq_unclosed` says it of
every state of every session. Since the list is known, so is whether a closing bracket is stray:
`Session.stray_decided_by_brackets`.
-/

namespace TapeLang

namespace Machine

/-- The loops of the machine are those of the matching, and nothing stray lies behind it. -/
structure Tracks (p : Program) (m : Machine) : Prop where
  pc : m.pc ≤ p.length
  loops : m.loops = p.pending m.pc
  not_stray : ∀ k < m.pc, ¬ p.Stray k

/-- The machine has just passed over a loop that is nowhere closed, and was `m` before. -/
structure RanPast (p : Program) (m n : Machine) : Prop where
  tracks : m.Tracks p
  openLoop : p[m.pc]? = some (.plain .openLoop)
  zero : m.tape.current = 0
  unclosed : Program.closeIn (p.drop (m.pc + 1)) 0 = none
  eq : n = { m with pc := p.length }

variable {p : Program} {m n : Machine}

lemma tracks_fresh (p : Program) (t : Tape) : Tracks p { tape := t } where
  pc := Nat.zero_le _
  loops := rfl
  not_stray := fun _ hk => absurd hk (Nat.not_lt_zero _)

/-- Going on behind an instruction that is no closing bracket. -/
lemma Tracks.not_stray_succ {x : Instr} (h : m.Tracks p) (hx : p[m.pc]? = some x)
    (hne : x ≠ .plain .closeLoop ∨ m.loops ≠ []) : ∀ k < m.pc + 1, ¬ p.Stray k := by
  intro k hk hstray
  rcases Nat.lt_succ_iff_lt_or_eq.mp hk with hk | rfl
  · exact h.not_stray k hk hstray
  · obtain ⟨hcl, hnil⟩ := hstray
    rcases hne with hne | hne
    · exact hne (Option.some.inj (hx.symm.trans hcl))
    · exact hne (h.loops.trans hnil)

/-- An instruction that is no bracket leads to the next one and leaves the loops alone. -/
lemma Tracks.succ_of_ne {x : Instr} (h : m.Tracks p) (hx : p[m.pc]? = some x)
    (ho : x ≠ .plain .openLoop) (hc : x ≠ .plain .closeLoop) (hpc : n.pc = m.pc + 1)
    (hloops : n.loops = m.loops) : n.Tracks p := by
  have hlt := Program.lt_length hx
  refine ⟨by omega, ?_, ?_⟩
  · rw [hpc, Program.pending_succ_of_ne (by simpa [hx] using ho) (by simpa [hx] using hc), hloops,
      h.loops]
  · rw [hpc]
    exact h.not_stray_succ hx (.inl hc)

/-- Passing over a loop that has a closing bracket leads behind it, where the same loops are
pending as before it. -/
lemma Tracks.skip_of_some {j : Nat} (h : m.Tracks p) (ho : p[m.pc]? = some (.plain .openLoop))
    (hj : Program.closeIn (p.drop (m.pc + 1)) 0 = some j) :
    Tracks p { m with pc := m.pc + 1 + j + 1 } := by
  have hp : p.pending (m.pc + 1) = [] ++ m.pc :: p.pending m.pc :=
    Program.pending_succ_of_openLoop ho
  obtain ⟨hend, hcl, hall⟩ := Program.pending_of_closeIn_eq_some rfl hj hp rfl
  have hlt := Program.lt_length hcl
  refine ⟨by show m.pc + 1 + j + 1 ≤ p.length; omega, ?_, ?_⟩
  · show m.loops = p.pending (m.pc + 1 + j + 1)
    rw [Program.pending_succ_of_closeLoop hcl, hend, List.tail_cons, h.loops]
  · intro k hk hstray
    rcases Nat.lt_or_ge k (m.pc + 1) with hk' | hk'
    · exact h.not_stray_succ ho (.inl (by simp)) k hk' hstray
    · exact hall k hk' (Nat.lt_succ_iff.mp hk) hstray.2

/-- Each rule keeps the loops of the machine in step with the matching, or runs past a loop that
is nowhere closed. -/
theorem tracks_or_ranPast (h : m.Tracks p) (hn : m.Next p.toArray n) :
    n.Tracks p ∨ RanPast p m n := by
  cases hn with
  | counted hi =>
    rw [List.getElem?_toArray] at hi
    exact .inl (h.succ_of_ne hi (by simp) (by simp) rfl rfl)
  | skip hi hz =>
    rw [List.getElem?_toArray] at hi
    cases hj : Program.closeIn (p.drop (m.pc + 1)) 0 with
    | some j =>
      rw [Program.partner_of_closeIn_eq_some hj]
      exact .inl (h.skip_of_some hi hj)
    | none =>
      have hlt := Program.lt_length hi
      rw [Program.partner_of_closeIn_eq_none hj, Nat.sub_add_cancel (by omega)]
      exact .inr ⟨h, hi, hz, hj, rfl⟩
  | enter hi hz =>
    rw [List.getElem?_toArray] at hi
    have hloops : m.pc :: m.loops = p.pending (m.pc + 1) := by
      rw [Program.pending_succ_of_openLoop hi, h.loops]
    exact .inl ⟨Program.lt_length hi, hloops, h.not_stray_succ hi (.inl (by simp))⟩
  | @leave start outer hi hl hz =>
    rw [List.getElem?_toArray] at hi
    have hloops : outer = p.pending (m.pc + 1) := by
      rw [Program.pending_succ_of_closeLoop hi, ← h.loops, hl, List.tail_cons]
    exact .inl ⟨Program.lt_length hi, hloops, h.not_stray_succ hi (.inr (by simp [hl]))⟩
  | @again start outer hi hl hz =>
    -- behind its opening bracket the loop and those around it are pending, as they were here
    obtain ⟨hlt, ho, houter⟩ := Program.pending_eq_cons (h.loops.symm.trans hl)
    have hloops : m.loops = p.pending (start + 1) := by
      rw [Program.pending_succ_of_openLoop ho, hl, houter]
    have hle : start + 1 ≤ m.pc := hlt
    exact .inl ⟨hle.trans h.pc, hloops, fun k hk => h.not_stray k (Nat.lt_of_lt_of_le hk hle)⟩
  | receive hi b =>
    rw [List.getElem?_toArray] at hi
    exact .inl (h.succ_of_ne hi (by simp) (by simp) rfl rfl)
  | sent hi =>
    rw [List.getElem?_toArray] at hi
    exact .inl (h.succ_of_ne hi (by simp) (by simp) rfl rfl)

/-! ## Behind a loop that is nowhere closed -/

lemma RanPast.pc_eq (h : RanPast p m n) : n.pc = p.length := by
  rw [h.eq]

lemma RanPast.demand_eq (h : RanPast p m n) : n.demand p.toArray = .halted :=
  demand_eq_halted_iff.mpr (by rw [h.pc_eq, List.size_toArray])

/-- No rule applies there. -/
lemma RanPast.not_next {o : Machine} (h : RanPast p m n) : ¬ n.Next p.toArray o := by
  have hnone : p.toArray[n.pc]? = none := by
    rw [List.getElem?_toArray, List.getElem?_eq_none h.pc_eq.ge]
  intro ho
  cases ho <;> simp_all

lemma RanPast.pending (h : RanPast p m n) {k : Nat} (hk : m.pc + 1 ≤ k) :
    ∃ T, p.pending k = T ++ m.pc :: p.pending m.pc := by
  have hp : p.pending (m.pc + 1) = [] ++ m.pc :: p.pending m.pc :=
    Program.pending_succ_of_openLoop h.openLoop
  exact Program.pending_of_closeIn_eq_none rfl h.unclosed hp rfl hk

/-- A program with a loop that is nowhere closed, and nothing stray before it, has nothing
stray. -/
lemma RanPast.not_stray (h : RanPast p m n) (k : Nat) : ¬ p.Stray k := by
  intro hstray
  rcases Nat.lt_or_ge k (m.pc + 1) with hk | hk
  · exact h.tracks.not_stray_succ h.openLoop (.inl (by simp)) k hk hstray
  · obtain ⟨T, hT⟩ := h.pending hk
    rw [hstray.2] at hT
    simp at hT

/-- The bracket that the machine ran past is the mate of none. -/
lemma RanPast.mate?_ne (h : RanPast p m n) (k : Nat) : p.mate? k ≠ some m.pc :=
  Program.mate?_ne_of_closeIn_eq_none h.openLoop h.unclosed k

/-- The machine got there in one step. -/
lemma RanPast.eq_compute (h : RanPast p m n) : n = m.compute p.toArray := by
  have hlt := Program.lt_length h.openLoop
  rw [h.eq, compute_openLoop_of_zero (List.getElem?_toArray.trans h.openLoop) h.zero,
    Program.partner_of_closeIn_eq_none h.unclosed, Nat.sub_add_cancel (by omega)]

end Machine

namespace Session

variable {p : Program} {calls : List Streams}

/-- Every state of a session tracks the matching or comes directly from one that does. -/
theorem tracks_of_passes {m : Machine} (h : (ofProgram p).Passes calls m) :
    m.Tracks p ∨ ∃ a, (ofProgram p).Passes calls a ∧ a.RanPast p m := by
  refine h.induction (I := fun m => m.Tracks p ∨ ∃ a, (ofProgram p).Passes calls a ∧ a.RanPast p m)
    (.inl (Machine.tracks_fresh p _)) ?_
  intro m n hm hI hn
  rcases hI with htracks | ⟨a, -, ha⟩
  · rcases Machine.tracks_or_ranPast htracks hn with h | h
    · exact .inl h
    · exact .inr ⟨m, hm, h⟩
  · exact absurd hn ha.not_next

/-- A program that begins with `+[-` raises a cell, enters a loop and lowers the cell again. -/
private lemma computes_lowered {code : Array Instr} (h0 : code[0]? = some (.counted .add 1))
    (h1 : code[1]? = some (.plain .openLoop)) (h2 : code[2]? = some (.counted .sub 1)) :
    Machine.Computes code {} ⟨(Tape.blank.add 1).add (-1), 3, [1]⟩ := by
  have hraised : (Tape.blank.add 1).current ≠ 0 := by
    rw [Tape.current_add_blank]
    decide
  exact .counted h0 (.enter h1 hraised (.counted h2 (.refl _)))

private lemma current_lowered : ((Tape.blank.add 1).add (-1)).current = 0 := by
  rw [Tape.current_add_add_blank]
  decide

/-- **The loops of the machine are the unclosed brackets of what lies before it**, in every state of
every session of any program. The only exception is a state just behind a loop that was passed over
and is nowhere closed: the program is over there, and the loops are those around the loop. -/
theorem loops_reverse_eq_unclosed {m : Machine} (h : (ofProgram p).Passes calls m) :
    m.loops.reverse = p.unclosed m.pc ∨
    ∃ a, (ofProgram p).Passes calls a ∧ p[a.pc]? = some (.plain .openLoop) ∧
      a.tape.current = 0 ∧ (∀ k, p.mate? k ≠ some a.pc) ∧ m = a.compute p.toArray ∧
      m.pc = p.length ∧ m.loops.reverse = p.unclosed a.pc := by
  rcases tracks_of_passes h with htracks | ⟨a, ha, hran⟩
  · left
    rw [htracks.loops, Program.reverse_pending]
  · right
    refine ⟨a, ha, hran.openLoop, hran.zero, hran.mate?_ne, hran.eq_compute, hran.pc_eq, ?_⟩
    rw [hran.eq]
    show a.loops.reverse = p.unclosed a.pc
    rw [hran.tracks.loops, Program.reverse_pending]

/-- An entered loop around one that is nowhere closed: the state behind the second. -/
theorem loops_reverse_eq_unclosed_overrun :
    let p : Program :=
      [.counted .add 1, .plain .openLoop, .counted .sub 1, .plain .openLoop]
    let m : Machine := ⟨(Tape.blank.add 1).add (-1), 4, [1]⟩
    (ofProgram p).Passes [.silent] m ∧ m.loops.reverse ≠ p.unclosed m.pc ∧
      ∃ a, (ofProgram p).Passes [.silent] a ∧ p[a.pc]? = some (.plain .openLoop) ∧
        a.tape.current = 0 ∧ (∀ k, p.mate? k ≠ some a.pc) ∧ m = a.compute p.toArray ∧
        m.pc = p.length ∧ m.loops.reverse = p.unclosed a.pc := by
  intro p m
  have hpartner : Program.partner p.toArray 3 + 1 = 4 := by
    rw [Program.partner_of_closeIn_eq_none (by decide)]
    rfl
  have hcomputes : Machine.Computes p.toArray {} m := by
    refine (computes_lowered rfl rfl rfl).trans (.skip rfl current_lowered ?_)
    rw [hpartner]
    exact .refl _
  have hpasses : (ofProgram p).Passes [.silent] m :=
    passes_cons_iff.mpr (.inl ⟨_, _, .of_computes hcomputes _ _, rfl⟩)
  have hne : m.loops.reverse ≠ p.unclosed m.pc := by decide
  exact ⟨hpasses, hne, (loops_reverse_eq_unclosed hpasses).resolve_left hne⟩

/-! ## Stray brackets -/

/-- A machine that finds nothing to close stands on a stray bracket. -/
lemma stray_of_demand {m : Machine} (h : (ofProgram p).Passes calls m)
    (hm : m.demand p.toArray = .stray) : p.Stray m.pc := by
  obtain ⟨hcl, hnil⟩ := Machine.demand_eq_stray_iff.mp hm
  rw [List.getElem?_toArray] at hcl
  rcases tracks_of_passes h with htracks | ⟨a, -, hran⟩
  · exact ⟨hcl, htracks.loops.symm.trans hnil⟩
  · exact absurd (hran.demand_eq.symm.trans hm) (by simp)

/-- The machine never gets past a stray bracket. -/
lemma pc_le_of_stray {m : Machine} (h : (ofProgram p).Passes calls m) {k : Nat} (hk : p.Stray k) :
    m.pc ≤ k := by
  rcases tracks_of_passes h with htracks | ⟨a, -, hran⟩
  · exact Nat.le_of_not_lt fun hlt => htracks.not_stray k hlt hk
  · exact absurd hk (hran.not_stray k)

/-- **Whether a stray bracket is run into is a matter of the brackets alone.** If there is none, no
run of any session faults for one. If the first is at `k`, no state of any session is behind it, and
a run that ends has either been cut short by its last call, a failing one, or faults at `k`; from then
on every run does so again, without a call on its streams or a change of the session. -/
theorem stray_decided_by_brackets (p : Program) :
    ((∀ k, ¬ p.Stray k) → ∀ (calls : List Streams) (s : Session) (c : Streams)
      (events : List Event) (r : Run c.In c.Out), (ofProgram p).After calls s →
      s.Ends c events r → ∀ i, r.outcome ≠ .faulted (.stray i)) ∧
    ∀ k, p.Stray k → (∀ j < k, ¬ p.Stray j) → ∀ calls : List Streams,
      (∀ m, (ofProgram p).Passes calls m → m.pc ≤ k) ∧
      ∀ (s : Session) (c : Streams) (events : List Event) (r : Run c.In c.Out),
        (ofProgram p).After calls s → s.Ends c events r →
        ((∃ before failure, events = before ++ [.read (.failed failure)] ∧
            r.outcome = .ofFailure .read failure) ∨
          (∃ before v failure, events = before ++ [.write v (.failed failure)] ∧
            r.outcome = .ofFailure .write failure) ∨
          r.outcome = .faulted (.stray k)) ∧
        (r.outcome = .faulted (.stray k) → ∀ later t, r.session.After later t →
          t = r.session ∧
          ∀ d : Streams, t.Ends d [] ⟨.faulted (.stray k), t, d.input, d.output⟩) := by
  constructor
  · intro hnone calls s c events r hs hr i hi
    obtain ⟨d, -, hd, hl, -⟩ := hs.exists_last hr
    rw [hs.code_eq, hi] at hl
    rcases Config.ended_cases hl with ⟨ho, _⟩ | ⟨_, hdemand, _⟩ | ⟨_, ho, _⟩ | ⟨_, _, ho, _⟩
    · cases ho
    · exact hnone _ (stray_of_demand hd hdemand)
    · exact Outcome.ofFailure_ne_stray (by simp) ho.symm
    · exact Outcome.ofFailure_ne_stray (by simp) ho.symm
  · intro k hk hfirst calls
    refine ⟨fun m hm => pc_le_of_stray hm hk, fun s c events r hs hr => ?_⟩
    obtain ⟨d, before, hd, hl, hevents, hmachine⟩ := hs.exists_last hr
    have hcode : s.code = p.toArray := hs.code_eq
    have hle := pc_le_of_stray hd hk
    rw [hcode] at hl hevents
    -- a bracket that is stray where the machine stands cannot come before the first one
    have hstray : d.machine.demand p.toArray = .stray → d.machine.pc = k := by
      intro hdemand
      refine Nat.le_antisymm hle (Nat.le_of_not_lt fun hlt => ?_)
      exact hfirst _ hlt (stray_of_demand hd hdemand)
    rcases Config.ended_cases hl with ⟨ho, hhalt, _⟩ | ⟨ho, hdemand, _⟩ |
      ⟨failure, ho, hdemand, hread, _⟩ | ⟨failure, b, ho, hdemand, hwrite, _⟩
    · have hsize := Machine.demand_eq_halted_iff.mp hhalt
      rw [List.size_toArray] at hsize
      exact absurd hk.lt_length (by omega)
    · have hpc := hstray hdemand
      rw [hpc] at ho
      refine ⟨.inr (.inr ho), fun _ later t ht => ?_⟩
      have hsession : r.session.machine.demand r.session.code = .stray := by
        rw [hr.code_eq, hcode, hmachine, hdemand]
      have heq := ht.eq_of_stray hsession
      refine ⟨heq, fun d' => ?_⟩
      have hend := ends_of_stray hsession d'
      rw [hmachine, hpc] at hend
      rwa [heq]
    · rw [Config.calls_of_read hdemand, Reading.eq_failed_of_octet hread] at hevents
      refine ⟨.inl ⟨before, failure, hevents, ho⟩, fun h => ?_⟩
      exact absurd (ho.symm.trans h) (Outcome.ofFailure_ne_stray (by simp))
    · rw [Config.calls_of_write hdemand, hwrite] at hevents
      refine ⟨.inr (.inl ⟨before, b.toNat, failure, hevents, ho⟩), fun h => ?_⟩
      exact absurd (ho.symm.trans h) (Outcome.ofFailure_ne_stray (by simp))

/-- A loop that is done and a second closing bracket behind it; without that, nothing is stray. And a
stray bracket that is not run into, since a delivery in front of it fails, with a record there are no
words for. -/
theorem stray_decided_by_brackets_second_close :
    let loop : Program :=
      [.counted .add 1, .plain .openLoop, .counted .sub 1, .plain .closeLoop]
    let p : Program := loop ++ [.plain .closeLoop]
    let last : Machine := ⟨(Tape.blank.add 1).add (-1), 4, []⟩
    let q : Program := [.plain .output, .plain .closeLoop]
    let failure : Failure := .obscure (.record [(Datum.wording, .null)]) rfl
    let c : Streams := { In := Input.Closed, Out := Output.Script, input := {},
                         output := { failing := [(0, failure)] } }
    ((∀ k, ¬ loop.Stray k) ∧ ∃ events r, (ofProgram loop).Ends .silent events r ∧
      r.session.machine = last ∧ ∀ i, r.outcome ≠ .faulted (.stray i)) ∧
    ((p.Stray 4 ∧ ∀ j < 4, ¬ p.Stray j) ∧
      ∃ events r, (ofProgram p).Ends .silent events r ∧ r.session.machine = last ∧
        r.outcome = .faulted (.stray 4) ∧
        ∀ d : Streams, r.session.Ends d [] ⟨.faulted (.stray 4), r.session, d.input, d.output⟩) ∧
    (q.Stray 1 ∧ ∀ j < 1, ¬ q.Stray j) ∧ (∀ m, (ofProgram q).Passes [c] m → m.pc ≤ 1) ∧
      ∃ r, (ofProgram q).Ends c [.write 0 (.failed failure)] r ∧ r.outcome = .undescribed := by
  intro loop p last q failure c
  have hbalanced : loop.Balanced := by decide
  have hstray : p.Stray 4 := by decide
  have hfirst : ∀ j < 4, ¬ p.Stray j := by decide
  have hcomputes : ∀ q : Program, q = loop ∨ q = p → Machine.Computes q.toArray {} last := by
    rintro q (rfl | rfl) <;>
      exact (computes_lowered rfl rfl rfl).trans (.leave rfl rfl current_lowered (.refl _))
  have hloop := ends_of_config (s := ofProgram loop) (c := .silent)
    ((Config.Reaches.of_computes (hcomputes loop (.inl rfl)) _ _).ends
      (.last (Config.step_of_halted rfl)))
  have hp := ends_of_config (s := ofProgram p) (c := .silent)
    ((Config.Reaches.of_computes (hcomputes p (.inr rfl)) _ _).ends
      (.last (Config.step_of_stray rfl)))
  have hstray' : q.Stray 1 := by decide
  have hfirst' : ∀ j < 1, ¬ q.Stray j := by decide
  have hdemand : ((ofProgram q).start c).machine.demand q.toArray = .write 0 :=
    Machine.demand_eq_write_iff.mpr ⟨rfl, Tape.current_blank⟩
  have hq : (ofProgram q).Ends c [.write 0 (.failed failure)] _ :=
    ends_of_config (.of_step (Config.step_of_write_failed hdemand rfl) (Config.calls_of_write hdemand))
  obtain ⟨hpc, -⟩ := (stray_decided_by_brackets q).2 1 hstray' hfirst' [c]
  refine ⟨⟨hbalanced.2, _, _, hloop, rfl, ?_⟩, ⟨⟨hstray, hfirst⟩, _, _, hp, rfl, rfl, ?_⟩,
    ⟨hstray', hfirst'⟩, hpc, _, hq, rfl⟩
  · exact (stray_decided_by_brackets loop).1 hbalanced.2 [] _ _ _ _ rfl hloop
  · intro d
    obtain ⟨-, hlater⟩ :=
      ((stray_decided_by_brackets p).2 4 hstray hfirst []).2 _ _ _ _ rfl hp
    exact (hlater rfl [] _ rfl).2 d

end Session

end TapeLang
