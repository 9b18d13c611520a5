import TapeLang.Proofs.Condense.Sums
import TapeLang.Proofs.Stretch

/-!
# Condensing stretch by stretch

Nothing settles below a plain instruction, so a program is condensed by condensing each of its
stretches (`Program.condense_instrs_append`). On a stretch the stack of `Program.settle` is a stretch
itself, and `Stretch.settle` is the same recursion with the plain instructions left out.

Whether a stretch still does the same when it has been condensed depends on three things: on what an
instruction does to a state, which may be a tape or something else; on the states that it meets, since
a move back undoes a move only if the head was not stopped at an end; and on the sums that are formed,
which may be rounded. `Counted.Lawful a G` says that under the condition `G` fusing and cancelling are
right for what `a` does, as long as counts are added up exactly. Then condensing is right for every
stretch that `G` allows and in which no sum is rounded, and `G` allows the result as well
(`Stretch.condense_spec`).

On the tape of the machine this is about `Counted.actExactly`. That the machine does no other than that
is a matter of the sums that it forms itself, of cells and counts (`Stretch.act_eq_of_allows`).
-/

namespace TapeLang

namespace Stretch

/-- Lays an instruction on a stretch whose head is the last one written. -/
def settle : Stretch → Counted → Int → Stretch
  | [], kind, count => [(kind, count)]
  | (k, n) :: below, kind, count =>
    if k = kind then settle below k (Count.sum n count)
    else if k.inverse = kind ∧ n = count then below
    else (kind, count) :: (k, n) :: below

/-- Lays the instructions of a stretch on another one, one by one. -/
def settleAll (stack b : Stretch) : Stretch :=
  b.foldl (fun stack x => settle stack x.1 x.2) stack

/-- The stretch with no two neighbours left that fuse or cancel. -/
def condense (b : Stretch) : Stretch :=
  (settleAll [] b).reverse

@[simp] lemma condense_nil : condense [] = [] := rfl

/-! ## The stack of a stretch -/

lemma settle_instrs (s : Stretch) (kind : Counted) (count : Int) :
    Program.settle s.instrs (.counted kind count) = (s.settle kind count).instrs := by
  induction s generalizing kind count with
  | nil => rfl
  | cons x below ih =>
    obtain ⟨k, n⟩ := x
    rw [instrs_cons, settle]
    by_cases hk : k = kind
    · have hmeet : (Instr.counted k n).meet (.counted kind count) =
          .fused (.counted k (Count.sum n count)) := by
        rw [Instr.meet, if_pos hk]
      rw [if_pos hk, Program.settle_of_fused hmeet, ih]
    by_cases hi : k.inverse = kind ∧ n = count
    · have hmeet : (Instr.counted k n).meet (.counted kind count) = .cancelled := by
        rw [Instr.meet, if_neg hk, if_pos hi]
      rw [if_neg hk, if_pos hi, Program.settle_of_cancelled hmeet]
    · have hmeet : (Instr.counted k n).meet (.counted kind count) = .apart := by
        rw [Instr.meet, if_neg hk, if_neg hi]
      rw [if_neg hk, if_neg hi, Program.settle_of_apart hmeet]
      rfl

lemma settleAll_cons (stack : Stretch) (kind : Counted) (count : Int) (b : Stretch) :
    stack.settleAll ((kind, count) :: b) = (stack.settle kind count).settleAll b := rfl

lemma foldl_settle_instrs (s b : Stretch) :
    b.instrs.foldl Program.settle s.instrs = (s.settleAll b).instrs := by
  induction b generalizing s with
  | nil => rfl
  | cons x b ih =>
    obtain ⟨kind, count⟩ := x
    rw [instrs_cons, List.foldl_cons, settle_instrs, ih, settleAll_cons]

/-- A stretch is condensed to a stretch. -/
theorem condense_instrs (b : Stretch) : Program.condense b.instrs = b.condense.instrs := by
  have hfold := foldl_settle_instrs [] b
  rw [instrs_nil] at hfold
  rw [Program.condense, hfold, condense, instrs, instrs, List.map_reverse]

end Stretch

/-! ## Across plain instructions -/

namespace Program

/-- Nothing settles below a plain instruction. -/
lemma settle_append_plain (stack : Program) (i : Instr) (k : Plain) (below : Program) :
    settle (stack ++ .plain k :: below) i = settle stack i ++ .plain k :: below := by
  induction stack generalizing i with
  | nil => exact settle_of_apart (Instr.meet_plain_left k i)
  | cons top stack ih =>
    rw [List.cons_append]
    cases hmeet : top.meet i with
    | fused j => rw [settle_of_fused hmeet, settle_of_fused hmeet, ih]
    | cancelled => rw [settle_of_cancelled hmeet, settle_of_cancelled hmeet]
    | apart =>
      rw [settle_of_apart hmeet, settle_of_apart hmeet]
      rfl

lemma foldl_settle_append_plain (q stack : Program) (k : Plain) (below : Program) :
    q.foldl settle (stack ++ .plain k :: below) = q.foldl settle stack ++ .plain k :: below := by
  induction q generalizing stack with
  | nil => rfl
  | cons i q ih => rw [List.foldl_cons, List.foldl_cons, settle_append_plain, ih]

/-- What lies on a stack that a plain instruction was laid on stays what it is, and the rest settles
above it as on an empty stack. -/
lemma foldl_settle_plain (p q stack : Program) (k : Plain) :
    (p ++ .plain k :: q).foldl settle stack =
      q.foldl settle [] ++ .plain k :: p.foldl settle stack := by
  rw [List.foldl_append, List.foldl_cons, settle_plain]
  exact foldl_settle_append_plain q [] k (p.foldl settle stack)

/-- No sum is formed below a plain instruction. -/
lemma sumsOn_append_plain (stack : Program) (i : Instr) (k : Plain) (below : Program) :
    sumsOn (stack ++ .plain k :: below) i = sumsOn stack i := by
  induction stack generalizing i with
  | nil => rfl
  | cons top stack ih =>
    rw [List.cons_append]
    cases hmeet : top.meet i with
    | fused j =>
      obtain ⟨l, m, n, rfl, rfl, rfl, hsums⟩ := sumsOn_of_fused hmeet stack
      obtain ⟨_, _, _, heq, heq', -, hsums'⟩ :=
        sumsOn_of_fused hmeet (stack ++ .plain k :: below)
      cases heq
      cases heq'
      rw [hsums, hsums', ih]
    | cancelled => rw [sumsOn_of_not_fused (by simp [hmeet]), sumsOn_of_not_fused (by simp [hmeet])]
    | apart => rw [sumsOn_of_not_fused (by simp [hmeet]), sumsOn_of_not_fused (by simp [hmeet])]

lemma sumsFrom_append_plain (q stack : Program) (k : Plain) (below : Program) :
    sumsFrom (stack ++ .plain k :: below) q = sumsFrom stack q := by
  induction q generalizing stack with
  | nil => rfl
  | cons i q ih => rw [sumsFrom, sumsFrom, sumsOn_append_plain, settle_append_plain, ih]

lemma sumsFrom_append (p q stack : Program) :
    sumsFrom stack (p ++ q) = sumsFrom stack p ++ sumsFrom (p.foldl settle stack) q := by
  induction p generalizing stack with
  | nil => rfl
  | cons i p ih => rw [List.cons_append, sumsFrom, sumsFrom, ih, List.append_assoc, List.foldl_cons]

/-- The sums of a program are those of its first stretch and those of the rest. -/
lemma sums_instrs_append (b : Stretch) (k : Plain) (q : Program) :
    sums (b.instrs ++ .plain k :: q) = sums b.instrs ++ sums q := by
  have hplain : ∀ stack, sumsOn stack (.plain k) = [] := by
    rintro (_ | ⟨_ | _, _⟩) <;> rfl
  rw [sums, sumsFrom_append, sumsFrom, hplain, settle_plain, List.nil_append]
  exact congrArg _ (sumsFrom_append_plain q [] k _)

/-- What is formed while a stretch of a program is condensed is formed while the program is. -/
lemma Unrounded.of_mem_stretches {p : Program} (h : p.Unrounded) {b : Stretch}
    (hb : b ∈ p.stretches) : Unrounded b.instrs := by
  induction p using stretch_induction with
  | last b' =>
    rw [stretches_instrs, List.mem_singleton] at hb
    rwa [hb]
  | plain b' k q ih =>
    rw [Unrounded, sums_instrs_append, List.forall_mem_append] at h
    rw [stretches_instrs_append, List.mem_cons] at hb
    rcases hb with rfl | hb
    · exact h.1
    · exact ih h.2 hb

/-- The first stretch of a program is condensed by itself. -/
lemma condense_instrs_append (b : Stretch) (k : Plain) (q : Program) :
    condense (b.instrs ++ .plain k :: q) = b.condense.instrs ++ .plain k :: condense q := by
  rw [← b.condense_instrs, condense, condense, condense, foldl_settle_plain, List.reverse_append,
    List.reverse_cons, List.append_assoc]
  rfl

/-- The stretches of a condensed program are those of the program, condensed. -/
lemma stretches_condense (p : Program) : p.condense.stretches = p.stretches.map Stretch.condense := by
  induction p using stretch_induction with
  | last b => rw [b.condense_instrs, stretches_instrs, stretches_instrs, List.map_singleton]
  | plain b k q ih =>
    rw [condense_instrs_append, stretches_instrs_append, stretches_instrs_append, ih, List.map_cons]

end Program

/-! ## What condensing does to a state -/

/-- Under the condition `G` it is right, for what `a` does to a state, to fuse two instructions and to
cancel two. -/
structure Counted.Lawful {σ : Type} (a : Counted → Int → σ → σ) (G : Counted → Int → σ → Prop) :
    Prop where
  fuse : ∀ {k m n t}, G k m t → G k n (a k m t) → G k (m + n) t ∧ a k (m + n) t = a k n (a k m t)
  cancel : ∀ {k n t}, G k n t → G k.inverse n (a k n t) → a k.inverse n (a k n t) = t

namespace Stretch

variable {σ : Type} {a : Counted → Int → σ → σ} {G : Counted → Int → σ → Prop} {t : σ}

/-- Settling is right: the stack, read from its bottom on, does what it did before followed by the
new instruction. -/
lemma settle_spec (hG : Counted.Lawful a G) (s : Stretch) (kind : Counted) (count : Int)
    (hsums : ∀ x ∈ Program.sumsOn s.instrs (.counted kind count), Count.Exact x.1 x.2)
    (hs : AllowsAs a G s.reverse t) (hi : G kind count (actAs a s.reverse t)) :
    AllowsAs a G (s.settle kind count).reverse t ∧
      actAs a (s.settle kind count).reverse t = a kind count (actAs a s.reverse t) := by
  induction s generalizing kind count with
  | nil => exact ⟨⟨hi, trivial⟩, rfl⟩
  | cons x below ih =>
    obtain ⟨k, n⟩ := x
    rw [List.reverse_cons, allowsAs_append_iff] at hs
    obtain ⟨hbelow, hk, -⟩ := hs
    rw [List.reverse_cons, actAs_append, actAs_cons, actAs_nil] at hi ⊢
    rw [settle]
    by_cases heq : k = kind
    · subst heq
      rw [instrs_cons, Program.sumsOn, if_pos rfl, List.forall_mem_cons] at hsums
      obtain ⟨hexact, hsums⟩ := hsums
      obtain ⟨hsum, hact⟩ := hG.fuse hk hi
      have hcount : Count.sum n count = n + count := hexact.sum_eq
      rw [hcount] at hsums
      rw [if_pos rfl, hcount, ← hact]
      exact ih k (n + count) hsums hbelow hsum
    by_cases hinv : k.inverse = kind ∧ n = count
    · rw [if_neg heq, if_pos hinv]
      obtain ⟨rfl, rfl⟩ := hinv
      exact ⟨hbelow, (hG.cancel hk hi).symm⟩
    · rw [if_neg heq, if_neg hinv, List.reverse_cons, List.reverse_cons, allowsAs_append_iff,
        allowsAs_append_iff, actAs_append, actAs_append, actAs_append]
      exact ⟨⟨⟨hbelow, hk, trivial⟩, hi, trivial⟩, rfl⟩

lemma settleAll_spec (hG : Counted.Lawful a G) (s b : Stretch)
    (hsums : ∀ x ∈ Program.sumsFrom s.instrs b.instrs, Count.Exact x.1 x.2)
    (hs : AllowsAs a G s.reverse t) (hb : b.AllowsAs a G (actAs a s.reverse t)) :
    AllowsAs a G (s.settleAll b).reverse t ∧
      actAs a (s.settleAll b).reverse t = b.actAs a (actAs a s.reverse t) := by
  induction b generalizing s with
  | nil => exact ⟨hs, rfl⟩
  | cons x b ih =>
    obtain ⟨kind, count⟩ := x
    obtain ⟨hi, hrest⟩ := hb
    rw [instrs_cons, Program.sumsFrom, settle_instrs, List.forall_mem_append] at hsums
    obtain ⟨hallows, hact⟩ := settle_spec hG s kind count hsums.1 hs hi
    rw [← hact] at hrest
    rw [settleAll_cons, actAs_cons, ← hact]
    exact ih (s.settle kind count) hsums.2 hallows hrest

/-- **Condensing is right** for a stretch that a lawful condition allows and in which no sum is rounded:
the result is allowed too and does the same. -/
theorem condense_spec (hG : Counted.Lawful a G) {b : Stretch} (hsums : Program.Unrounded b.instrs)
    (hb : b.AllowsAs a G t) :
    b.condense.AllowsAs a G t ∧ b.condense.actAs a t = b.actAs a t :=
  settleAll_spec hG [] b hsums trivial hb

/-! ### What the machine does to a tape -/

variable {G : Counted → Int → Tape → Prop} {b : Stretch} {t : Tape}

/-- Where the machine rounds nothing, it adds up integers. -/
lemma act_eq_of_allows (hG : ∀ {kind count t}, G kind count t → t.OnTape ∧ kind.Forward count)
    (hb : b.AllowsAs Counted.actExactly G t) (hexact : b.Allows Counted.Exact t) :
    b.act t = b.actAs Counted.actExactly t := by
  induction b generalizing t with
  | nil => rfl
  | cons x b ih =>
    obtain ⟨kind, count⟩ := x
    obtain ⟨hi, hrest⟩ := hb
    obtain ⟨hi', hrest'⟩ := hexact
    have hact := Counted.act_eq (hG hi).1 (hG hi).2 hi'
    rw [hact] at hrest'
    rw [act, actAs_cons, actAs_cons, hact]
    exact ih hrest hrest'

/-- What is allowed on the way of the machine is allowed where integers are added up. -/
lemma allowsAs_of_allows (hG : ∀ {kind count t}, G kind count t → t.OnTape ∧ kind.Forward count)
    (hb : b.Allows G t) (hexact : b.Allows Counted.Exact t) :
    b.AllowsAs Counted.actExactly G t := by
  induction b generalizing t with
  | nil => trivial
  | cons x b ih =>
    obtain ⟨kind, count⟩ := x
    obtain ⟨hi, hrest⟩ := hb
    obtain ⟨hi', hrest'⟩ := hexact
    have hact := Counted.act_eq (hG hi).1 (hG hi).2 hi'
    refine ⟨hi, ?_⟩
    rw [← hact]
    exact ih hrest hrest'

/-- **Condensing is right on the tape of the machine** for a stretch that a lawful condition allows, if
no sum is rounded: neither one that is formed while it is condensed, nor one of a cell and a count that
the machine makes for the stretch or for the condensed one. -/
theorem condense_act (hG : ∀ {kind count t}, G kind count t → t.OnTape ∧ kind.Forward count)
    (hlawful : Counted.Lawful Counted.actExactly G) (hsums : Program.Unrounded b.instrs)
    (hb : b.Allows G t) (hexact : b.Allows Counted.Exact t)
    (hexact' : b.condense.Allows Counted.Exact t) : b.condense.act t = b.act t := by
  have hallows := allowsAs_of_allows hG hb hexact
  obtain ⟨hallows', hsame⟩ := condense_spec hlawful hsums hallows
  rw [act_eq_of_allows hG hallows' hexact', act_eq_of_allows hG hallows hexact, hsame]

end Stretch

/-! ## Moves that are not stopped -/

/-- The head is on the tape, and the instruction, if it is a move, goes the way it says and is not
stopped at an end. -/
def Counted.Fits (kind : Counted) (count : Int) (t : Tape) : Prop :=
  t.OnTape ∧
    match kind with
    | .left => 0 ≤ count ∧ count ≤ t.head
    | .right => 0 ≤ count ∧ t.head + count < Tape.length
    | .add => True
    | .sub => True

namespace Counted

lemma Fits.forward {kind : Counted} {count : Int} {t : Tape} (h : kind.Fits count t) :
    t.OnTape ∧ kind.Forward count := by
  obtain ⟨ht, hmove⟩ := h
  refine ⟨ht, ?_⟩
  rintro (rfl | rfl)
  · exact hmove.1
  · exact hmove.1

/-- As long as no move is stopped, moves and changes add up and undo each other. -/
theorem lawful_fits : Lawful actExactly Fits where
  fuse := by
    rintro k m n t ⟨ht, hm⟩ ⟨-, hn⟩
    cases k with
    | left =>
      obtain ⟨hm, hmt⟩ := hm
      obtain ⟨hn, hnt⟩ : 0 ≤ n ∧ n ≤ max (t.head - m) 0 := hn
      exact ⟨⟨ht, by omega, by omega⟩, (actExactly_actExactly_of_move (.inl rfl) hn m t).symm⟩
    | right =>
      obtain ⟨hm, hmt⟩ := hm
      obtain ⟨hn, hnt⟩ : 0 ≤ n ∧ min (t.head + m) (Tape.length - 1) + n < Tape.length := hn
      exact ⟨⟨ht, by omega, by omega⟩, (actExactly_actExactly_of_move (.inr rfl) hn m t).symm⟩
    | add => exact ⟨⟨ht, trivial⟩, (actExactly_actExactly_of_change (.inl rfl) m n t).symm⟩
    | sub => exact ⟨⟨ht, trivial⟩, (actExactly_actExactly_of_change (.inr rfl) m n t).symm⟩
  cancel := by
    rintro k n t ⟨⟨hlo, hhi⟩, hn⟩ -
    cases k with
    | left =>
      obtain ⟨hn, hnt⟩ := hn
      have hback : min (max (t.head - n) 0 + n) (Tape.length - 1) = t.head := by omega
      rw [inverse, actExactly, actExactly, hback]
    | right =>
      obtain ⟨hn, hnt⟩ := hn
      have hback : max (min (t.head + n) (Tape.length - 1) - n) 0 = t.head := by omega
      rw [inverse, actExactly, actExactly, hback]
    | add => exact inverse_actExactly_of_change (.inl rfl) n t
    | sub => exact inverse_actExactly_of_change (.inr rfl) n t

end Counted

end TapeLang
