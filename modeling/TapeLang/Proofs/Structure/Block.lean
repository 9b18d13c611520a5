import TapeLang.Proofs.Brackets.Scan

/-!
# Programs as trees

A program whose brackets are balanced is a sequence of simple instructions and of loops around such
sequences. `Block` is that reading, and `Block.flatten` writes it down again as a program. In a
block a bracket without its partner cannot be written down at all.

The balanced programs are those that can be read as a block (`Program.balanced_iff_exists_flatten`),
and they can be read in one way only (`Block.flatten_injective`). The forward scan passes over a
block as over a single instruction (`Program.closeIn_flatten`), which is why it finds the end of a
loop.
-/

namespace TapeLang

/-- An instruction that is no bracket. -/
inductive Simple where
  /-- A counted instruction. -/
  | counted (kind : Counted) (count : Int)
  /-- Write the cell under the head. -/
  | output
  /-- Read into the cell under the head. -/
  | input
deriving DecidableEq, Repr

/-- The instruction as it stands in a program. -/
def Simple.instr : Simple → Instr
  | .counted kind count => .counted kind count
  | .output => .plain .output
  | .input => .plain .input

/-- A sequence of simple instructions and loops, in the order in which they stand. -/
inductive Block where
  /-- Nothing. -/
  | nil
  /-- A simple instruction, and what comes behind it. -/
  | simple (i : Simple) (rest : Block)
  /-- A loop, and what comes behind it. -/
  | loop (body rest : Block)
deriving DecidableEq, Repr

/-- A block as a program. -/
def Block.flatten : Block → Program
  | .nil => []
  | .simple i rest => i.instr :: rest.flatten
  | .loop body rest =>
    .plain .openLoop :: (body.flatten ++ .plain .closeLoop :: rest.flatten)

@[simp] lemma Block.flatten_nil : Block.nil.flatten = [] := rfl

@[simp] lemma Block.flatten_simple (i : Simple) (rest : Block) :
    (Block.simple i rest).flatten = i.instr :: rest.flatten := rfl

@[simp] lemma Block.flatten_loop (body rest : Block) :
    (Block.loop body rest).flatten =
      .plain .openLoop :: (body.flatten ++ .plain .closeLoop :: rest.flatten) := rfl

lemma Simple.instr_ne_openLoop (i : Simple) : i.instr ≠ .plain .openLoop := by
  cases i <;> simp [Simple.instr]

lemma Simple.instr_ne_closeLoop (i : Simple) : i.instr ≠ .plain .closeLoop := by
  cases i <;> simp [Simple.instr]

lemma Simple.instr_injective {i j : Simple} (h : i.instr = j.instr) : i = j := by
  cases i <;> cases j <;> simp_all [Simple.instr]

/-- What is no bracket is simple. -/
lemma Simple.exists_instr {x : Instr} (ho : x ≠ .plain .openLoop) (hc : x ≠ .plain .closeLoop) :
    ∃ i : Simple, x = i.instr := by
  rcases x with ⟨kind, count⟩ | kind
  · exact ⟨.counted kind count, rfl⟩
  · cases kind with
    | openLoop => exact absurd rfl ho
    | closeLoop => exact absurd rfl hc
    | output => exact ⟨.output, rfl⟩
    | input => exact ⟨.input, rfl⟩

namespace Program

/-! ## The scan over a block -/

/-- The scan passes over a block. -/
theorem closeIn_flatten (b : Block) (q : Program) (depth : Nat) :
    closeIn (b.flatten ++ q) depth = (closeIn q depth).map (b.flatten.length + ·) := by
  induction b generalizing q depth with
  | nil => simp
  | simple i rest ih =>
    rw [Block.flatten_simple, List.cons_append, closeIn_of_ne i.instr_ne_openLoop
      i.instr_ne_closeLoop, ih, Option.map_map]
    congr 1
    funext j
    simp only [Function.comp_apply, List.length_cons]
    omega
  | loop body rest ihbody ihrest =>
    rw [Block.flatten_loop, List.cons_append, List.append_assoc, List.cons_append,
      closeIn_openLoop, ihbody, closeIn_closeLoop_succ, ihrest, Option.map_map, Option.map_map,
      Option.map_map]
    congr 1
    funext j
    simp only [Function.comp_apply, List.length_cons, List.length_append]
    omega

/-- From the beginning of the body of a loop the scan finds the end of the body. -/
lemma closeIn_body (body : Block) (q : Program) :
    closeIn (body.flatten ++ .plain .closeLoop :: q) 0 = some body.flatten.length := by
  rw [closeIn_flatten]
  rfl

end Program

/-- A program is read as a block in one way only. -/
theorem Block.flatten_injective {b b' : Block} (h : b.flatten = b'.flatten) : b = b' := by
  induction b generalizing b' with
  | nil => cases b' <;> simp_all
  | simple i rest ih =>
    cases b' with
    | nil => simp at h
    | simple j rest' =>
      rw [flatten_simple, flatten_simple, List.cons.injEq] at h
      rw [Simple.instr_injective h.1, ih h.2]
    | loop body' rest' =>
      rw [flatten_simple, flatten_loop, List.cons.injEq] at h
      exact absurd h.1 i.instr_ne_openLoop
  | loop body rest ihbody ihrest =>
    cases b' with
    | nil => simp at h
    | simple j rest' =>
      rw [flatten_simple, flatten_loop, List.cons.injEq] at h
      exact absurd h.1.symm j.instr_ne_openLoop
    | loop body' rest' =>
      rw [flatten_loop, flatten_loop, List.cons.injEq] at h
      -- both bodies end where the scan says
      have hlen : body.flatten.length = body'.flatten.length := by
        have hscan := congrArg (Program.closeIn · 0) h.2
        simpa only [Program.closeIn_body, Option.some.injEq] using hscan
      obtain ⟨hbody, hrest⟩ := List.append_inj h.2 hlen
      rw [ihbody hbody, ihrest (List.cons.inj hrest).2]

namespace Program

/-! ## Blocks and balance -/

variable {p q : Program} {n : Nat}

/-- Where the parts of a loop stand. -/
lemma drop_loop {body rest : Block} (h : p.drop n = (Block.loop body rest).flatten ++ q) :
    p[n]? = some (.plain .openLoop) ∧
      p.drop (n + 1) = body.flatten ++ .plain .closeLoop :: (rest.flatten ++ q) ∧
      p[n + 1 + body.flatten.length]? = some (.plain .closeLoop) ∧
      p.drop (n + 1 + body.flatten.length + 1) = rest.flatten ++ q := by
  rw [Block.flatten_loop, List.cons_append, List.append_assoc, List.cons_append] at h
  obtain ⟨ho, hinner⟩ := drop_eq_cons h
  have hclose : p.drop (n + 1 + body.flatten.length) =
      .plain .closeLoop :: (rest.flatten ++ q) := by
    rw [← List.drop_drop, hinner, List.drop_left]
  obtain ⟨hc, hrest⟩ := drop_eq_cons hclose
  exact ⟨ho, hinner, hc, hrest⟩

/-- Behind a block the same brackets are pending as before it, and nothing in it is stray. -/
lemma pending_flatten (b : Block) (h : p.drop n = b.flatten ++ q) :
    pending p (n + b.flatten.length) = pending p n ∧
      ∀ k, n ≤ k → k < n + b.flatten.length → ¬ p.Stray k := by
  induction b generalizing n q with
  | nil => exact ⟨rfl, fun k hk hk' => absurd hk' (by simpa using hk)⟩
  | simple i rest ih =>
    obtain ⟨hi, hrest⟩ := drop_eq_cons h
    obtain ⟨hpending, hstray⟩ := ih hrest
    rw [Block.flatten_simple, List.length_cons, show n + (rest.flatten.length + 1) =
      n + 1 + rest.flatten.length by omega]
    refine ⟨?_, fun k hk hk' hs => ?_⟩
    · rw [hpending, pending_succ_of_ne (by simpa [hi] using i.instr_ne_openLoop)
        (by simpa [hi] using i.instr_ne_closeLoop)]
    · rcases Nat.eq_or_lt_of_le hk with rfl | hk
      · exact i.instr_ne_closeLoop (Option.some.inj (hi.symm.trans hs.1))
      · exact hstray k hk hk' hs
  | loop body rest ihbody ihrest =>
    obtain ⟨ho, hinner, hc, hrest⟩ := drop_loop h
    obtain ⟨hbody, hbodystray⟩ := ihbody hinner
    obtain ⟨hafter, hafterstray⟩ := ihrest hrest
    have hopen : pending p (n + 1 + body.flatten.length) = n :: pending p n := by
      rw [hbody, pending_succ_of_openLoop ho]
    rw [Block.flatten_loop, List.length_cons, List.length_append, List.length_cons,
      show n + (body.flatten.length + (rest.flatten.length + 1) + 1) =
        n + 1 + body.flatten.length + 1 + rest.flatten.length by omega]
    refine ⟨?_, fun k hk hk' hs => ?_⟩
    · rw [hafter, pending_succ_of_closeLoop hc, hopen, List.tail_cons]
    · rcases Nat.eq_or_lt_of_le hk with rfl | hk
      · cases ho.symm.trans hs.1
      rcases Nat.lt_trichotomy k (n + 1 + body.flatten.length) with hlt | rfl | hgt
      · exact hbodystray k hk hlt hs
      · cases hopen.symm.trans hs.2
      · exact hafterstray k hgt hk' hs

/-- What is left of a program in which nothing is stray any more and all will be closed: a block for
each loop that is open, and one for what comes behind them all. -/
lemma exists_blocks (hq : p.drop n = q) (hend : pending p p.length = [])
    (hstray : ∀ k, n ≤ k → ¬ p.Stray k) :
    ∃ (b : Block) (bs : List Block), bs.length = (pending p n).length ∧
      q = b.flatten ++ bs.flatMap fun b => .plain .closeLoop :: b.flatten := by
  induction q generalizing n with
  | nil =>
    have hlen : p.length ≤ n := List.drop_eq_nil_iff.mp hq
    refine ⟨.nil, [], ?_, rfl⟩
    rw [pending_of_length_le hlen, hend]
    rfl
  | cons x q ih =>
    obtain ⟨hx, hrest⟩ := drop_eq_cons hq
    obtain ⟨b, bs, hbs, rfl⟩ := ih hrest fun k hk => hstray k (Nat.le_of_succ_le hk)
    by_cases ho : x = .plain .openLoop
    · subst ho
      rw [pending_succ_of_openLoop hx, List.length_cons] at hbs
      obtain ⟨b', bs, rfl⟩ := List.exists_cons_of_length_eq_add_one hbs
      refine ⟨.loop b b', bs, by simpa using hbs, by simp⟩
    by_cases hc : x = .plain .closeLoop
    · subst hc
      rw [pending_succ_of_closeLoop hx] at hbs
      have hne : pending p n ≠ [] := fun hnil => hstray n le_rfl ⟨hx, hnil⟩
      refine ⟨.nil, b :: bs, ?_, by simp⟩
      have hpos := List.length_pos_iff.mpr hne
      rw [List.length_tail] at hbs
      rw [List.length_cons]
      omega
    · rw [pending_succ_of_ne (by simpa [hx] using ho) (by simpa [hx] using hc)] at hbs
      obtain ⟨i, rfl⟩ := Simple.exists_instr ho hc
      exact ⟨.simple i b, bs, hbs, rfl⟩

/-- The balanced programs are those that can be read as a block. -/
theorem balanced_iff_exists_flatten (p : Program) : p.Balanced ↔ ∃ b : Block, b.flatten = p := by
  constructor
  · rintro ⟨hend, hstray⟩
    obtain ⟨b, bs, hbs, hp⟩ := exists_blocks (n := 0) rfl hend fun k _ => hstray k
    obtain rfl : bs = [] := List.length_eq_zero_iff.mp hbs
    exact ⟨b, by simpa using hp.symm⟩
  · rintro ⟨b, rfl⟩
    obtain ⟨hend, hstray⟩ := pending_flatten (p := b.flatten) (n := 0) (q := []) b (by simp)
    rw [Nat.zero_add] at hend hstray
    exact ⟨hend, fun k hk => hstray k (Nat.zero_le k) hk.lt_length hk⟩

end Program

end TapeLang
