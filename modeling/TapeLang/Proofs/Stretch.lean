import TapeLang.Proofs.Brackets.Scan
import TapeLang.Proofs.Step
import TapeLang.Proofs.TapeLaws

/-!
# Stretches of counted instructions

Between two plain instructions of a program stands a stretch of counted ones, which may be empty.
The machine goes through it without asking anything of anyone and without a look at its loops, so
all that matters of a stretch is what it does to the tape, `Stretch.act`.

What a stretch may replace can depend on the tapes that its instructions meet. `Stretch.Allows G b t`
says that each of them meets a tape that a condition `G` allows it, and `Machine.Allowed` says the
same of the next instruction of a machine. Both notions are there for other states than tapes as well
and for whatever an instruction is taken to do to them (`Stretch.actAs`, `Stretch.AllowsAs`).

`Program.stretches` are the stretches of a program, before, between and behind its plain
instructions; each is as long as it can be.
-/

namespace TapeLang

/-- Counted instructions, one behind the other. -/
abbrev Stretch := List (Counted × Int)

namespace Stretch

/-- A stretch as a program. -/
def instrs (b : Stretch) : Program :=
  b.map fun x => .counted x.1 x.2

variable {σ : Type}

/-- What a stretch does to a state if `a` is what an instruction does. -/
def actAs (a : Counted → Int → σ → σ) (b : Stretch) (t : σ) : σ :=
  b.foldl (fun t x => a x.1 x.2 t) t

/-- Each instruction of the stretch, begun in `t`, meets a state that `G` allows it. -/
def AllowsAs (a : Counted → Int → σ → σ) (G : Counted → Int → σ → Prop) : Stretch → σ → Prop
  | [], _ => True
  | (kind, count) :: b, t => G kind count t ∧ AllowsAs a G b (a kind count t)

/-- What a stretch does to a tape. -/
def act (b : Stretch) (t : Tape) : Tape :=
  b.actAs Counted.act t

/-- Each instruction of the stretch, begun over `t`, meets a tape that `G` allows it. -/
def Allows (G : Counted → Int → Tape → Prop) (b : Stretch) (t : Tape) : Prop :=
  b.AllowsAs Counted.act G t

variable {a : Counted → Int → σ → σ} {G H : Counted → Int → σ → Prop} {b b' : Stretch} {t : σ}
  {kind : Counted} {count : Int}

@[simp] lemma instrs_nil : instrs [] = [] := rfl

@[simp] lemma instrs_cons (kind : Counted) (count : Int) (b : Stretch) :
    instrs ((kind, count) :: b) = .counted kind count :: b.instrs := rfl

lemma instrs_append (b b' : Stretch) : instrs (b ++ b') = b.instrs ++ b'.instrs :=
  List.map_append

@[simp] lemma length_instrs (b : Stretch) : b.instrs.length = b.length :=
  List.length_map _

lemma mem_instrs_iff : .counted kind count ∈ b.instrs ↔ (kind, count) ∈ b := by
  simp [instrs]

lemma drop_instrs_append (b : Stretch) (q : Program) : (b.instrs ++ q).drop b.length = q := by
  rw [← b.length_instrs, List.drop_left]

lemma drop_succ_instrs_append (b : Stretch) (x : Instr) (q : Program) :
    (b.instrs ++ x :: q).drop (b.length + 1) = q := by
  rw [← List.drop_drop, drop_instrs_append]
  rfl

lemma getElem?_instrs_append (b : Stretch) (x : Instr) (q : Program) :
    (b.instrs ++ x :: q)[b.length]? = some x := by
  rw [← List.head?_drop, drop_instrs_append]
  rfl

@[simp] lemma actAs_nil (a : Counted → Int → σ → σ) (t : σ) : actAs a [] t = t := rfl

@[simp] lemma actAs_cons (a : Counted → Int → σ → σ) (kind : Counted) (count : Int) (b : Stretch)
    (t : σ) : actAs a ((kind, count) :: b) t = b.actAs a (a kind count t) := rfl

lemma actAs_append (a : Counted → Int → σ → σ) (b b' : Stretch) (t : σ) :
    actAs a (b ++ b') t = b'.actAs a (b.actAs a t) :=
  List.foldl_append

lemma allowsAs_cons_iff :
    AllowsAs a G ((kind, count) :: b) t ↔ G kind count t ∧ b.AllowsAs a G (a kind count t) := Iff.rfl

lemma allowsAs_append_iff :
    AllowsAs a G (b ++ b') t ↔ b.AllowsAs a G t ∧ b'.AllowsAs a G (b.actAs a t) := by
  induction b generalizing t with
  | nil => exact ⟨fun h => ⟨trivial, h⟩, And.right⟩
  | cons x b ih =>
    obtain ⟨kind, count⟩ := x
    rw [List.cons_append, allowsAs_cons_iff, ih, allowsAs_cons_iff, and_assoc, actAs_cons]

lemma allowsAs_of_forall (h : ∀ kind count t, G kind count t) (b : Stretch) (t : σ) :
    AllowsAs a G b t := by
  induction b generalizing t with
  | nil => trivial
  | cons x b ih => exact ⟨h x.1 x.2 t, ih _⟩

/-- What allows each instruction of a stretch may be put in other words for them. -/
lemma AllowsAs.imp (h : ∀ kind count t, (kind, count) ∈ b → G kind count t → H kind count t)
    (hb : b.AllowsAs a G t) : b.AllowsAs a H t := by
  induction b generalizing t with
  | nil => trivial
  | cons x b ih =>
    obtain ⟨kind, count⟩ := x
    refine ⟨h kind count t (List.mem_cons_self ..) hb.1, ih ?_ hb.2⟩
    exact fun kind' count' t' hx => h kind' count' t' (List.mem_cons_of_mem _ hx)

/-! ## Brackets -/

lemma closeIn_instrs_append (b : Stretch) (q : Program) (depth : Nat) :
    Program.closeIn (b.instrs ++ q) depth = (Program.closeIn q depth).map (b.length + ·) := by
  induction b with
  | nil => simp
  | cons x b ih =>
    obtain ⟨kind, count⟩ := x
    rw [instrs_cons, List.cons_append, Program.closeIn_of_ne (by simp) (by simp), ih,
      Option.map_map]
    congr 1
    funext j
    simp only [Function.comp_apply, List.length_cons]
    omega

lemma count_closeLoop (b : Stretch) : b.instrs.count (.plain .closeLoop) = 0 := by
  rw [List.count_eq_zero]
  intro h
  obtain ⟨x, -, hx⟩ := List.mem_map.mp h
  cases hx

end Stretch

namespace Program

/-- The stretches of a program in order, the empty ones included. -/
def stretches : Program → List Stretch
  | [] => [[]]
  | .plain _ :: p => [] :: stretches p
  | .counted kind count :: p => (stretches p).modifyHead ((kind, count) :: ·)

lemma stretches_instrs (b : Stretch) : stretches b.instrs = [b] := by
  induction b with
  | nil => rfl
  | cons x b ih => rw [Stretch.instrs_cons, stretches, ih, List.modifyHead_cons]

lemma stretches_instrs_append (b : Stretch) (k : Plain) (q : Program) :
    stretches (b.instrs ++ .plain k :: q) = b :: stretches q := by
  induction b with
  | nil => rfl
  | cons x b ih => rw [Stretch.instrs_cons, List.cons_append, stretches, ih, List.modifyHead_cons]

/-- What holds of every stretch, and of a program behind a stretch and a plain instruction if it
holds of the rest, holds of every program. -/
lemma stretch_induction {C : Program → Prop} (last : ∀ b : Stretch, C b.instrs)
    (plain : ∀ (b : Stretch) (k : Plain) (q : Program), C q → C (b.instrs ++ .plain k :: q))
    (p : Program) : C p := by
  -- the instructions read so far are a stretch
  have hread : ∀ b : Stretch, C (b.instrs ++ p) := by
    induction p with
    | nil =>
      intro b
      rw [List.append_nil]
      exact last b
    | cons i p ih =>
      intro b
      cases i with
      | counted kind count =>
        have hb := ih (b ++ [(kind, count)])
        rwa [Stretch.instrs_append, List.append_assoc] at hb
      | plain k => exact plain b k p (ih [])
  exact hread []

/-- The instructions of the stretches are instructions of the program. -/
lemma mem_of_mem_stretches {p : Program} {b : Stretch} {kind : Counted} {count : Int}
    (hb : b ∈ p.stretches) (hx : (kind, count) ∈ b) : .counted kind count ∈ p := by
  induction p using stretch_induction with
  | last b' =>
    rw [stretches_instrs, List.mem_singleton] at hb
    rw [hb] at hx
    exact Stretch.mem_instrs_iff.mpr hx
  | plain b' k q ih =>
    rw [stretches_instrs_append, List.mem_cons] at hb
    rcases hb with rfl | hb
    · exact List.mem_append_left _ (Stretch.mem_instrs_iff.mpr hx)
    · exact List.mem_append_right _ (List.mem_cons_of_mem _ (ih hb))

end Program

namespace Machine

variable {G : Counted → Int → Tape → Prop} {b : Stretch} {p q : Program} {m : Machine}

/-- The next instruction of the machine, if it is a counted one, meets a tape that `G` allows
it. -/
def Allowed (p : Program) (G : Counted → Int → Tape → Prop) (m : Machine) : Prop :=
  ∀ kind count, p[m.pc]? = some (.counted kind count) → G kind count m.tape

/-- The next instruction, if it is a change of a cell, forms no sum that is rounded. -/
def Unrounded (p : Program) (m : Machine) : Prop :=
  m.Allowed p Counted.Exact

/-- A sum of a cell and a count is not rounded if the count is not too close to the limit. -/
lemma unrounded_of_le (h : ∀ kind count, .counted kind count ∈ p → count.natAbs + 255 ≤ Count.limit)
    (m : Machine) : m.Unrounded p :=
  fun kind count hi => Counted.exact_of_le (h kind count (List.mem_of_getElem? hi)) kind m.tape

/-- A machine goes through a stretch. -/
lemma computes_stretch (h : p.drop m.pc = b.instrs ++ q) :
    m.Computes p.toArray { m with tape := b.act m.tape, pc := m.pc + b.length } := by
  induction b generalizing m with
  | nil => exact .refl m
  | cons x b ih =>
    obtain ⟨kind, count⟩ := x
    obtain ⟨hi, hrest⟩ := Program.drop_eq_cons h
    have hi' : p.toArray[m.pc]? = some (.counted kind count) := by
      rwa [List.getElem?_toArray]
    have hgo := ih (m := { m with tape := kind.act count m.tape, pc := m.pc + 1 }) hrest
    rw [List.length_cons, Nat.add_comm b.length, ← Nat.add_assoc]
    exact .counted hi' hgo

/-- If all that a machine computes is allowed, so is the stretch that it stands before. -/
lemma allows_of_computes (h : p.drop m.pc = b.instrs ++ q)
    (hG : ∀ n, m.Computes p.toArray n → n.Allowed p G) : b.Allows G m.tape := by
  induction b generalizing m with
  | nil => trivial
  | cons x b ih =>
    obtain ⟨kind, count⟩ := x
    obtain ⟨hi, hrest⟩ := Program.drop_eq_cons h
    have hi' : p.toArray[m.pc]? = some (.counted kind count) := by
      rwa [List.getElem?_toArray]
    refine ⟨hG m (.refl m) kind count hi, ?_⟩
    refine ih (m := { m with tape := kind.act count m.tape, pc := m.pc + 1 }) hrest ?_
    intro n hn
    exact hG n (.counted hi' hn)

end Machine

end TapeLang
