import TapeLang.Program.Brackets
import TapeLang.Proofs.Brackets.Matching

/-!
# The forward scan

`Program.closeFrom` walks through an array by index. What it finds depends only on the
instructions from where it starts, so it is the same as `Program.closeIn`, which goes down a list
and counts from its beginning (`Program.closeFrom_eq`).

The scan counts how deep it is and keeps no stack. Its count is the height of the stack of
`Program.pending` above what was pending where it started. One instruction keeps this so
(`Program.closeIn_step`), and it is all there is to see what the scan finds. Started for a bracket,
it finds the one that closes it: `Program.pending_of_closeIn_eq_some` if there is one,
`Program.pending_of_closeIn_eq_none` if there is none. Started for nothing, it finds the first stray
bracket: `Program.closeIn_eq_some_iff`. None of them asks the program to be balanced.
-/

namespace TapeLang

namespace Program

/-- How far from the beginning of a list the closing bracket is that closes a loop open there,
where `depth` more loops are open and are to be closed first. -/
def closeIn : Program → Nat → Option Nat
  | [], _ => none
  | .plain .openLoop :: p, depth => (closeIn p (depth + 1)).map (· + 1)
  | .plain .closeLoop :: _, 0 => some 0
  | .plain .closeLoop :: p, depth + 1 => (closeIn p depth).map (· + 1)
  | _ :: p, depth => (closeIn p depth).map (· + 1)

/-! ## One instruction further -/

@[simp] lemma closeIn_nil (depth : Nat) : closeIn [] depth = none := rfl

@[simp] lemma closeIn_openLoop (p : Program) (depth : Nat) :
    closeIn (.plain .openLoop :: p) depth = (closeIn p (depth + 1)).map (· + 1) := rfl

@[simp] lemma closeIn_closeLoop_zero (p : Program) :
    closeIn (.plain .closeLoop :: p) 0 = some 0 := rfl

@[simp] lemma closeIn_closeLoop_succ (p : Program) (depth : Nat) :
    closeIn (.plain .closeLoop :: p) (depth + 1) = (closeIn p depth).map (· + 1) := rfl

lemma closeIn_of_ne {i : Instr} (ho : i ≠ .plain .openLoop) (hc : i ≠ .plain .closeLoop)
    (p : Program) (depth : Nat) : closeIn (i :: p) depth = (closeIn p depth).map (· + 1) := by
  rcases i with ⟨kind, count⟩ | kind
  · rfl
  · cases kind with
    | openLoop => exact absurd rfl ho
    | closeLoop => exact absurd rfl hc
    | output => rfl
    | input => rfl

/-- The scan ends at an instruction, or goes on behind it with another depth. Which one is a matter
of the instruction and the depth, and not of the program behind it. -/
lemma closeIn_cons (x : Instr) (depth : Nat) :
    (∀ p, closeIn (x :: p) depth = some 0) ∨
      ∃ depth', ∀ p, closeIn (x :: p) depth = (closeIn p depth').map (· + 1) := by
  by_cases ho : x = .plain .openLoop
  · subst ho
    exact .inr ⟨depth + 1, fun p => closeIn_openLoop p depth⟩
  by_cases hc : x = .plain .closeLoop
  · subst hc
    cases depth with
    | zero => exact .inl closeIn_closeLoop_zero
    | succ depth => exact .inr ⟨depth, fun p => closeIn_closeLoop_succ p depth⟩
  · exact .inr ⟨depth, fun p => closeIn_of_ne ho hc p depth⟩

/-! ## The scan through an array -/

private lemma map_add_one_add (o : Option Nat) (i : Nat) :
    o.map (i + 1 + ·) = (o.map (· + 1)).map (i + ·) := by
  cases o with
  | none => rfl
  | some j =>
    simp only [Option.map_some, Option.some.injEq]
    omega

/-- The scan through an array is the scan through what lies behind its start. -/
theorem closeFrom_eq (code : Array Instr) (i depth : Nat) :
    closeFrom code i depth = (closeIn (code.toList.drop i) depth).map (i + ·) := by
  have hdrop : ∀ {i : Nat} (h : i < code.size),
      code.toList.drop i = code[i] :: code.toList.drop (i + 1) := fun h =>
    List.drop_eq_getElem_cons (by simpa using h)
  fun_induction closeFrom code i depth with
  | case1 i depth hi hop ih =>
    rw [ih, hdrop hi, hop, closeIn_openLoop, map_add_one_add]
  | case2 i hi hcl =>
    rw [hdrop hi, hcl, closeIn_closeLoop_zero]
    rfl
  | case3 i hi hcl depth ih =>
    rw [ih, hdrop hi, hcl, closeIn_closeLoop_succ, map_add_one_add]
  | case4 i depth hi ho hc ih =>
    rw [ih, hdrop hi, closeIn_of_ne ho hc, map_add_one_add]
  | case5 i depth hi =>
    rw [List.drop_eq_nil_of_le (by simpa using hi)]
    rfl

lemma partner_of_closeIn_eq_some {p : Program} {i j : Nat}
    (h : closeIn (p.drop (i + 1)) 0 = some j) : partner p.toArray i = i + 1 + j := by
  simp [partner, closeFrom_eq, h]

lemma partner_of_closeIn_eq_none {p : Program} {i : Nat}
    (h : closeIn (p.drop (i + 1)) 0 = none) : partner p.toArray i = p.length - 1 := by
  simp [partner, closeFrom_eq, h]

/-! ## The scan and the matching -/

variable {p q : Program} {n depth i j : Nat} {S T : List Nat}

lemma drop_eq_cons {x : Instr} (h : p.drop n = x :: q) :
    p[n]? = some x ∧ p.drop (n + 1) = q := by
  constructor
  · rw [← List.head?_drop, h, List.head?_cons]
  · rw [← List.tail_drop, h, List.tail_cons]

/-- One step of the scan beside one step of the matching. Unless the scan is at its end, both go on,
and what the stack holds above `S` is again as much as the scan counts. -/
lemma closeIn_step {x : Instr} (hx : p[n]? = some x) (hp : pending p n = T ++ S)
    (hgoes : ¬(x = .plain .closeLoop ∧ T = [])) :
    ∃ T', pending p (n + 1) = T' ++ S ∧
      ∀ q, closeIn (x :: q) T.length = (closeIn q T'.length).map (· + 1) := by
  by_cases ho : x = .plain .openLoop
  · subst ho
    refine ⟨n :: T, ?_, fun q => closeIn_openLoop q T.length⟩
    rw [pending_succ_of_openLoop hx, hp, List.cons_append]
  by_cases hc : x = .plain .closeLoop
  · subst hc
    cases T with
    | nil => exact absurd ⟨rfl, rfl⟩ hgoes
    | cons y T =>
      refine ⟨T, ?_, fun q => closeIn_closeLoop_succ q T.length⟩
      rw [pending_succ_of_closeLoop hx, hp, List.cons_append, List.tail_cons]
  · refine ⟨T, ?_, fun q => closeIn_of_ne ho hc q T.length⟩
    rw [pending_succ_of_ne (by simpa [hx] using ho) (by simpa [hx] using hc), hp]

/-- A scan that counts all that is pending ends at the first stray bracket. -/
theorem closeIn_eq_some_iff (hq : p.drop n = q) :
    closeIn q (pending p n).length = some j ↔
      p.Stray (n + j) ∧ ∀ k, n ≤ k → k < n + j → ¬ p.Stray k := by
  induction q generalizing n j with
  | nil =>
    have hlen : p.length ≤ n := List.drop_eq_nil_iff.mp hq
    constructor
    · intro h
      cases h
    · rintro ⟨hstray, -⟩
      exact absurd hstray.lt_length (by omega)
  | cons x q ih =>
    obtain ⟨hx, hrest⟩ := drop_eq_cons hq
    by_cases hn : p.Stray n
    · obtain rfl : x = .plain .closeLoop := Option.some.inj (hx.symm.trans hn.1)
      rw [hn.2, List.length_nil, closeIn_closeLoop_zero]
      constructor
      · intro h
        obtain rfl := Option.some.inj h
        exact ⟨hn, fun k hk hk' => absurd hk' (by omega)⟩
      · rintro ⟨-, hfirst⟩
        have hle : ¬ n < n + j := fun hlt => hfirst n le_rfl hlt hn
        obtain rfl : j = 0 := by omega
        rfl
    · obtain ⟨T, hT, hscan⟩ := closeIn_step hx (List.append_nil (pending p n)).symm
        fun ⟨hc, hnil⟩ => hn ⟨by rw [hx, hc], hnil⟩
      rw [List.append_nil] at hT
      subst hT
      rw [hscan, Option.map_eq_some_iff]
      constructor
      · rintro ⟨j, hj, rfl⟩
        obtain ⟨hstray, hfirst⟩ := (ih hrest).mp hj
        rw [show n + (j + 1) = n + 1 + j by omega]
        refine ⟨hstray, fun k hk hk' => ?_⟩
        rcases Nat.eq_or_lt_of_le hk with rfl | hk
        · exact hn
        · exact hfirst k hk hk'
      · rintro ⟨hstray, hfirst⟩
        obtain ⟨j, rfl⟩ : ∃ i, j = i + 1 :=
          Nat.exists_eq_succ_of_ne_zero fun hzero => hn (by simpa [hzero] using hstray)
        rw [show n + (j + 1) = n + 1 + j by omega] at hstray hfirst
        exact ⟨j, (ih hrest).mpr ⟨hstray, fun k hk => hfirst k (Nat.le_of_succ_le hk)⟩, rfl⟩

/-- Where the scan ends, what was pending at its start is on top of the stack again, and until
then the stack was never shorter. -/
theorem pending_of_closeIn_eq_some (hq : p.drop n = q) (hc : closeIn q depth = some j)
    (hp : pending p n = T ++ i :: S) (hT : T.length = depth) :
    pending p (n + j) = i :: S ∧ p[n + j]? = some (.plain .closeLoop) ∧
      ∀ k, n ≤ k → k ≤ n + j → pending p k ≠ [] := by
  subst hT
  induction q generalizing n j T with
  | nil => cases hc
  | cons x q ih =>
    obtain ⟨hx, hrest⟩ := drop_eq_cons hq
    have hne : pending p n ≠ [] := by simp [hp]
    by_cases hend : x = .plain .closeLoop ∧ T = []
    · obtain ⟨rfl, rfl⟩ := hend
      cases hc
      refine ⟨hp, hx, fun k hk hk' => ?_⟩
      obtain rfl : n = k := by omega
      exact hne
    · obtain ⟨T', hp', hscan⟩ := closeIn_step hx hp hend
      rw [hscan] at hc
      obtain ⟨j', hj', rfl⟩ := Option.map_eq_some_iff.mp hc
      obtain ⟨hpending, hclose, hall⟩ := ih hrest hp' hj'
      rw [show n + (j' + 1) = n + 1 + j' by omega]
      refine ⟨hpending, hclose, fun k hk hk' => ?_⟩
      rcases Nat.eq_or_lt_of_le hk with rfl | hk
      · exact hne
      · exact hall k hk hk'

/-- Where the scan finds nothing, what was pending at its start stays pending for good. -/
theorem pending_of_closeIn_eq_none (hq : p.drop n = q) (hc : closeIn q depth = none)
    (hp : pending p n = T ++ i :: S) (hT : T.length = depth) {k : Nat} (hk : n ≤ k) :
    ∃ T', pending p k = T' ++ i :: S := by
  subst hT
  induction q generalizing n T with
  | nil =>
    have hlen : p.length ≤ n := List.drop_eq_nil_iff.mp hq
    exact ⟨T, by rw [pending_of_length_le (hlen.trans hk), ← pending_of_length_le hlen, hp]⟩
  | cons x q ih =>
    obtain ⟨hx, hrest⟩ := drop_eq_cons hq
    have hgoes : ¬(x = .plain .closeLoop ∧ T = []) := by
      rintro ⟨rfl, rfl⟩
      cases hc
    rcases Nat.eq_or_lt_of_le hk with rfl | hk
    · exact ⟨T, hp⟩
    · obtain ⟨T', hp', hscan⟩ := closeIn_step hx hp hgoes
      rw [hscan, Option.map_eq_none_iff] at hc
      exact ih hrest hp' hk hc

/-- The closing bracket that the scan finds behind an opening one is matched with it. -/
lemma mate?_of_closeIn_eq_some (ho : p[i]? = some (.plain .openLoop))
    (h : closeIn (p.drop (i + 1)) 0 = some j) : mate? p (i + 1 + j) = some i := by
  have hp : pending p (i + 1) = [] ++ i :: pending p i := pending_succ_of_openLoop ho
  obtain ⟨hpending, hclose, -⟩ := pending_of_closeIn_eq_some rfl h hp rfl
  rw [mate?_of_closeLoop hclose, hpending, List.head?_cons]

/-- An opening bracket for which the scan finds nothing is matched with none. -/
lemma mate?_ne_of_closeIn_eq_none (ho : p[i]? = some (.plain .openLoop))
    (h : closeIn (p.drop (i + 1)) 0 = none) (k : Nat) : mate? p k ≠ some i := by
  intro hmate
  have hlt := (lt_of_mate? hmate).1
  have hp : pending p (i + 1) = [] ++ i :: pending p i := pending_succ_of_openLoop ho
  -- a bracket that is pending behind `k` has not been closed at `k`
  obtain ⟨T, hT⟩ := pending_of_closeIn_eq_none rfl h hp rfl (Nat.le_succ_of_le hlt)
  have hmem : i ∈ pending p (k + 1) := by simp [hT]
  exact (mem_pending_iff.mp hmem).2.2 k (Nat.lt_succ_self k) hmate

end Program

end TapeLang
