import TapeLang.Program

/-!
# The partner of an opening bracket

A loop that is not entered is passed over in one step, and for that the closing bracket has to be
found that belongs to the opening one. `Program.closeFrom` scans forward and counts how many
loops it is inside of; `Program.partner` is the place the machine goes to.

A program is an array here, since it is fetched from by index. Nothing says that brackets are
balanced: an opening bracket without a partner is sent to the last instruction, so that going on
behind it ends the run.
-/

namespace TapeLang

namespace Program

/-- The index of the first closing bracket at or after `i` that closes a loop open before `i`,
where `depth` loops have been opened since and are to be closed first. -/
def closeFrom (code : Array Instr) (i depth : Nat) : Option Nat :=
  if h : i < code.size then
    match code[i] with
    | .plain .openLoop => closeFrom code (i + 1) (depth + 1)
    | .plain .closeLoop =>
      match depth with
      | 0 => some i
      | depth + 1 => closeFrom code (i + 1) depth
    | _ => closeFrom code (i + 1) depth
  else none
termination_by code.size - i

/-- Where to go from an opening bracket at `i` whose loop is not entered: to its closing bracket,
or to the last instruction if it has none. -/
def partner (code : Array Instr) (i : Nat) : Nat :=
  (closeFrom code (i + 1) 0).getD (code.size - 1)

/-! ## Where the scan can end -/

/-- The scan ends on a closing bracket, and never behind where it began. -/
theorem closes_of_closeFrom {code : Array Instr} {i depth j : Nat}
    (h : closeFrom code i depth = some j) :
    i ≤ j ∧ code[j]? = some (.plain .closeLoop) := by
  fun_induction closeFrom code i depth with
  | case1 i depth hi hop ih =>
    obtain ⟨hle, hj⟩ := ih h
    exact ⟨by omega, hj⟩
  | case2 i hi hcl =>
    obtain rfl := Option.some.inj h
    exact ⟨Nat.le_refl _, by rw [Array.getElem?_eq_getElem hi, hcl]⟩
  | case3 i hi hcl depth ih =>
    obtain ⟨hle, hj⟩ := ih h
    exact ⟨by omega, hj⟩
  | case4 i depth hi hop hcl ih =>
    obtain ⟨hle, hj⟩ := ih h
    exact ⟨by omega, hj⟩
  | case5 => simp at h

/-- The place to go to is in the program and not before the bracket. -/
theorem partner_mem_range {code : Array Instr} {i : Nat} (hi : i < code.size) :
    i ≤ partner code i ∧ partner code i < code.size := by
  unfold partner
  cases h : closeFrom code (i + 1) 0 with
  | none => simp only [Option.getD_none]; omega
  | some j =>
    obtain ⟨hle, hj⟩ := closes_of_closeFrom h
    have hlt : j < code.size := by
      rcases Nat.lt_or_ge j code.size with hlt | hge
      · exact hlt
      · simp [Array.getElem?_eq_none hge] at hj
    simp only [Option.getD_some]
    omega

end Program

end TapeLang
