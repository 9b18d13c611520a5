import TapeLang.Proofs.Bisimulation
import TapeLang.Proofs.Bounds
import TapeLang.Proofs.Stretch

/-!
# What matters of a count

A change of a cell is taken modulo 256, and a move ends at an end of the tape at the latest. So a count
may be replaced by one that is equal to it modulo 256, or by the longest way that there is on the tape,
and a change in one direction is a change by the opposite amount in the other. `Instr.Variant` are these
replacements, any number of them one after the other.

All of this is so as long as no sum of a cell and a count is rounded (`Machine.Unrounded`), and a move
has to go the way it says.

Nothing but the tape takes notice of a count. The scan for a bracket passes over counted instructions,
and what the machine demands depends on their being there and no more. So it is enough that two
instructions are the same plain one, or do the same to every tape (`Instr.Interchangeable`): programs
that are interchangeable place by place are carried out by the same machine, in the same steps
(`Machine.interchangeable_bisimulation`).
-/

namespace TapeLang

namespace Instr

/-- What may stand in the place of an instruction. -/
inductive Variant : Instr → Instr → Prop where
  /-- The instruction itself. -/
  | refl (i : Instr) : Variant i i
  /-- A change by an amount that is the same modulo 256. -/
  | modulo {k : Counted} (hk : k = .add ∨ k = .sub) {m n : Int} (h : m % 256 = n % 256) :
      Variant (.counted k m) (.counted k n)
  /-- A change of the opposite kind by the opposite amount. -/
  | opposite {k : Counted} (hk : k = .add ∨ k = .sub) (n : Int) :
      Variant (.counted k n) (.counted k.inverse (-n))
  /-- A move that is no longer than the tape allows. -/
  | shortened {k : Counted} (hk : k = .left ∨ k = .right) (n : Int) :
      Variant (.counted k n) (.counted k (min n (Tape.length - 1)))
  /-- A variant of a variant. -/
  | trans {i j l : Instr} (h : Variant i j) (h' : Variant j l) : Variant i l

/-- The two are the same plain instruction, or counted ones that do the same to every tape if nothing is
rounded, the second being no move against its direction if the first is none. -/
inductive Interchangeable : Instr → Instr → Prop where
  | plain (k : Plain) : Interchangeable (.plain k) (.plain k)
  | counted {k l : Counted} {m n : Int} (hforward : k.Forward m → l.Forward n)
      (h : ∀ t : Tape, t.OnTape → l.actExactly n t = k.actExactly m t) :
      Interchangeable (.counted k m) (.counted l n)

variable {i j l : Instr}

lemma Interchangeable.refl (i : Instr) : Interchangeable i i := by
  cases i with
  | counted k n => exact .counted id fun t _ => rfl
  | plain k => exact .plain k

lemma Interchangeable.trans (h : Interchangeable i j) (h' : Interchangeable j l) :
    Interchangeable i l := by
  cases h with
  | plain k => exact h'
  | counted hforward h =>
    cases h' with
    | counted hforward' h' =>
      exact .counted (hforward' ∘ hforward) fun t ht => (h' t ht).trans (h t ht)

/-- A variant does the same wherever the head is on the tape, as long as nothing is rounded. -/
theorem Variant.interchangeable (h : Variant i j) : Interchangeable i j := by
  induction h with
  | refl i => exact .refl i
  | trans _ _ ih ih' => exact ih.trans ih'
  | modulo hk h =>
    refine .counted (fun _ hmove => ?_) fun t _ => Counted.actExactly_eq_of_emod_eq hk h.symm t
    rcases hk with rfl | rfl <;> simp at hmove
  | opposite hk n =>
    refine .counted (fun _ hmove => ?_) fun t _ => ?_
    · rcases hk with rfl | rfl <;> simp [Counted.inverse] at hmove
    · exact Counted.inverse_actExactly_neg hk n t
  | shortened hk n =>
    refine .counted (fun hforward _ => ?_) fun t ht => Counted.actExactly_min hk ht n
    exact le_min (hforward hk) (by decide)

end Instr

/-! ## Programs that are interchangeable place by place -/

namespace Program

variable {p q : Program}

/-- The scan takes no notice of counted instructions. -/
lemma closeIn_eq_of_interchangeable (h : List.Forall₂ Instr.Interchangeable p q) (depth : Nat) :
    closeIn q depth = closeIn p depth := by
  induction h generalizing depth with
  | nil => rfl
  | cons hi _ ih =>
    cases hi with
    | counted _ _ => rw [closeIn_of_ne (by simp) (by simp), closeIn_of_ne (by simp) (by simp), ih]
    | plain k =>
      rcases closeIn_cons (.plain k) depth with hend | ⟨depth', hgo⟩
      · rw [hend, hend]
      · rw [hgo, hgo, ih]

lemma partner_eq_of_interchangeable (h : List.Forall₂ Instr.Interchangeable p q) (i : Nat) :
    partner q.toArray i = partner p.toArray i := by
  have hscan : closeIn (q.drop (i + 1)) 0 = closeIn (p.drop (i + 1)) 0 :=
    closeIn_eq_of_interchangeable (List.forall₂_drop (i + 1) h) 0
  rw [partner, partner, closeFrom_eq, closeFrom_eq, List.size_toArray, List.size_toArray,
    h.length_eq, hscan]

/-- At one place stand interchangeable instructions, or nothing in either program. -/
lemma getElem?_of_interchangeable (h : List.Forall₂ Instr.Interchangeable p q) (i : Nat) :
    p[i]? = none ∧ q[i]? = none ∨
      ∃ a b, p[i]? = some a ∧ q[i]? = some b ∧ a.Interchangeable b := by
  induction h generalizing i with
  | nil => exact .inl ⟨rfl, rfl⟩
  | cons hi _ ih =>
    cases i with
    | zero => exact .inr ⟨_, _, rfl, rfl, hi⟩
    | succ i => exact ih i

end Program

namespace Machine

variable {p q : Program} {m : Machine}

lemma demand_eq_of_interchangeable (h : List.Forall₂ Instr.Interchangeable p q) (m : Machine) :
    m.demand q.toArray = m.demand p.toArray := by
  unfold demand
  rw [List.getElem?_toArray, List.getElem?_toArray]
  rcases Program.getElem?_of_interchangeable h m.pc with ⟨hp, hq⟩ | ⟨a, b, hp, hq, hab⟩
  · rw [hp, hq]
  · rw [hp, hq]
    cases hab with
    | plain k => rfl
    | counted _ _ => rfl

lemma compute_eq_of_interchangeable (h : List.Forall₂ Instr.Interchangeable p q)
    (hp : p.MovesNonneg) (hm : m.tape.OnTape) (hexact : m.Unrounded p) (hexact' : m.Unrounded q) :
    m.compute q.toArray = m.compute p.toArray := by
  unfold compute
  rw [List.getElem?_toArray, List.getElem?_toArray, Program.partner_eq_of_interchangeable h]
  rcases Program.getElem?_of_interchangeable h m.pc with ⟨hpi, hqi⟩ | ⟨a, b, hpi, hqi, hab⟩
  · rw [hpi, hqi]
  · rw [hpi, hqi]
    cases hab with
    | plain k => rfl
    | @counted k l count count' hforward hact =>
      have hk := hp.forward (List.mem_of_getElem? hpi)
      have htape : l.act count' m.tape = k.act count m.tape := by
        rw [Counted.act_eq hm (hforward hk) (hexact' l count' hqi), hact m.tape hm,
          Counted.act_eq hm hk (hexact k count hpi)]
      simp only [htape]

/-- **Interchangeable programs are carried out by the same machine,** in step with each other, as long
as its head is on the tape and it rounds nothing. -/
theorem interchangeable_bisimulation (h : List.Forall₂ Instr.Interchangeable p q)
    (hp : p.MovesNonneg) :
    Bisimulation p.toArray q.toArray (fun m => m.InBounds p ∧ m.Unrounded p) (Unrounded q) Eq Eq := by
  rintro m _ rfl hm hexact'
  obtain ⟨hbounds, hexact⟩ := hm m (.refl m)
  have hcompute := compute_eq_of_interchangeable h hp hbounds.head hexact (hexact' m (.refl m))
  exact ⟨m, m, .refl m, .refl m,
    { rel := rfl
      tape := rfl
      demand := (demand_eq_of_interchangeable h m).symm
      stray := fun _ => rfl
      compute := fun _ => hcompute.symm
      receive := fun _ _ => rfl
      sent := fun _ _ => rfl }⟩

end Machine

namespace Session

/-- **Counts matter modulo 256 where they change a cell, and up to the length of the tape where they move
the head.** If any instructions of a program are replaced by variants of them, the two programs cannot be
told apart. For any run calls on any streams, failing ones included, they make the same calls, end on the
same occasions and in the same way, stray brackets at the same index, and leave the same tape and the
same streams. Moves are to go the way they say, and no sum of a cell and a count is to be rounded in the
runs of either program; none is if the counts stay within the limit by as much as a cell can hold. -/
theorem variants_alike :
    (∀ p : Program, (∀ kind count, .counted kind count ∈ p → count.natAbs + 255 ≤ Count.limit) →
      ∀ m : Machine, m.Unrounded p) ∧
    ∀ p q : Program, List.Forall₂ Instr.Variant p q → p.MovesNonneg → ∀ calls : List Streams,
      (∀ m, (ofProgram p).Passes calls m → m.Unrounded p) →
      (∀ m, (ofProgram q).Passes calls m → m.Unrounded q) →
      Alike Eq (ofProgram p) (ofProgram q) calls := by
  refine ⟨fun p h m => Machine.unrounded_of_le h m, fun p q h hp calls hexact hexact' => ?_⟩
  have hinter : List.Forall₂ Instr.Interchangeable p q :=
    h.imp fun _ _ hvariant => hvariant.interchangeable
  refine alike_of_bisimulation (Machine.interchangeable_bisimulation hinter hp) rfl rfl rfl ?_ hexact'
  exact fun m hm => ⟨inBounds_of_passes hp hm, hexact m hm⟩

/-- A move beyond the end of the tape, and a loop that counts down by what is one modulo 256; a bracket
is stray behind it, so that the second run call fails there as the first does. -/
theorem variants_alike_countdown :
    let p : Program := [.counted .right 40000, .counted .add 515, .plain .openLoop, .plain .output,
      .counted .sub 257, .plain .closeLoop, .plain .closeLoop]
    let q : Program := [.counted .right 29999, .counted .sub (-3), .plain .openLoop, .plain .output,
      .counted .add 255, .plain .closeLoop, .plain .closeLoop]
    List.Forall₂ Instr.Variant p q ∧ p.MovesNonneg ∧
      (∀ m : Machine, m.Unrounded p ∧ m.Unrounded q) ∧
      Alike Eq (ofProgram p) (ofProgram q) [.silent, .silent] := by
  intro p q
  have hraise : (Instr.counted .add 515).Variant (.counted .sub (-3)) := by
    have hmod : (Instr.counted .add 515).Variant (.counted .add 3) := .modulo (.inl rfl) rfl
    exact hmod.trans (.opposite (.inl rfl) 3)
  have hlower : (Instr.counted .sub 257).Variant (.counted .add 255) := by
    have hmod : (Instr.counted .sub 257).Variant (.counted .sub (-255)) := .modulo (.inr rfl) rfl
    exact hmod.trans (.opposite (.inr rfl) (-255))
  have hvariants : List.Forall₂ Instr.Variant p q :=
    .cons (.shortened (.inr rfl) 40000) (.cons hraise (.cons (.refl _) (.cons (.refl _)
      (.cons hlower (.cons (.refl _) (.cons (.refl _) .nil))))))
  have hmoves : p.MovesNonneg := by
    intro count h
    have hcount : count = 40000 := by simpa [p] using h
    omega
  obtain ⟨hsmall, halike⟩ := variants_alike
  have hp : ∀ m : Machine, m.Unrounded p := by
    refine hsmall p fun kind count h => ?_
    have hcount : count = 40000 ∨ count = 515 ∨ count = 257 := by
      simp [p] at h
      omega
    rw [Count.limit]
    omega
  have hq : ∀ m : Machine, m.Unrounded q := by
    refine hsmall q fun kind count h => ?_
    have hcount : count = 29999 ∨ count = -3 ∨ count = 255 := by
      simp [q] at h
      omega
    rw [Count.limit]
    omega
  exact ⟨hvariants, hmoves, fun m => ⟨hp m, hq m⟩,
    halike p q hvariants hmoves _ (fun m _ => hp m) fun m _ => hq m⟩

end Session

end TapeLang
