import TapeLang.Proofs.Bounds
import TapeLang.Proofs.Structure.Insertion

/-!
# Loops that are never entered

At the beginning of a session the cell under the head is zero, and behind a closing bracket it is zero
too: the machine gets there by leaving a loop or by passing over one, and goes back otherwise
(`Machine.Next.current_eq_zero`). A loop that stands there is passed over in one step whenever the
machine comes to it. This holds of any closing bracket, whether or not anything is balanced around it.

So such a loop may be left out. The program without it and the program with it correspond as a program
and the same with a balanced piece put in, and at the seam, where the one machine stands in front of
the loop and the other already behind it, the cell is zero and the loop is passed over
(`Machine.deadLoop_bisimulation`).
-/

namespace TapeLang

/-- A program as the body of a loop. -/
def Program.loop (body : Program) : Program :=
  .plain .openLoop :: (body ++ [.plain .closeLoop])

namespace Program

variable {body : Program}

@[simp] lemma length_loop (body : Program) : body.loop.length = body.length + 2 := by
  simp [loop]

lemma Balanced.loop (h : body.Balanced) : body.loop.Balanced := by
  obtain ⟨b, rfl⟩ := (balanced_iff_exists_flatten body).mp h
  exact (balanced_iff_exists_flatten _).mpr ⟨.loop b .nil, rfl⟩

lemma getLast?_loop (front body : Program) :
    (front ++ body.loop).getLast? = some (.plain .closeLoop) := by
  rw [loop, ← List.cons_append, ← List.append_assoc, List.getLast?_concat]

end Program

namespace Machine

open Program

variable {p front body rest : Program} {k : Nat} {m n : Machine}

/-- Behind a closing bracket the machine gets only over a zero cell. -/
lemma Next.current_eq_zero (hn : m.Next p.toArray n)
    (hm : ∀ i ∈ m.loops, p[i]? = some (.plain .openLoop)) (hk : p[k]? = some (.plain .closeLoop)) (hpc : n.pc = k + 1) : n.tape.current = 0 := by
  -- the machine was at the bracket itself, unless it has passed over a loop
  have hat : ∀ {i : Nat} {x : Instr}, i + 1 = k + 1 → p.toArray[i]? = some x →
      x = .plain .closeLoop := by
    intro i x hi hx
    obtain rfl := Nat.succ.inj hi
    rw [List.getElem?_toArray, hk] at hx
    exact (Option.some.inj hx).symm
  cases hn with
  | counted hi => cases hat hpc hi
  | skip hi hz => exact hz
  | enter hi hz => cases hat hpc hi
  | leave hi hl hz => exact hz
  | @again start outer hi hl hz =>
    have hstart := hm start (by simp [hl])
    rw [← List.getElem?_toArray] at hstart
    cases hat hpc hstart
  | receive hi b => cases hat hpc hi
  | sent hi => cases hat hpc hi

/-- At the seam the machine passes over the loop, if the cell is zero, and has been moved then. -/
lemma computes_moved (hbody : body.Balanced) (front rest : Program) (hm : m.pc = front.length)
    (hz : m.tape.current = 0) :
    Computes (front ++ (body.loop ++ rest)).toArray
      { m.moved front.length body.loop.length with pc := front.length }
      (m.moved front.length body.loop.length) := by
  have hdrop : (front ++ (body.loop ++ rest)).drop front.length =
      .plain .openLoop :: (body ++ .plain .closeLoop :: rest) := by
    rw [List.drop_left, loop, List.cons_append, List.append_assoc, List.singleton_append]
  obtain ⟨hopen, hinner⟩ := drop_eq_cons hdrop
  have hclose : closeIn ((front ++ (body.loop ++ rest)).drop (front.length + 1)) 0 =
      some body.length := by
    rw [hinner, hbody.closeIn_append, closeIn_closeLoop_zero, Option.map_some, Nat.add_zero]
  have hbehind : partner (front ++ (body.loop ++ rest)).toArray front.length + 1 =
      Program.moved front.length body.loop.length m.pc := by
    rw [partner_of_closeIn_eq_some hclose, hm, moved_of_le le_rfl, length_loop]
    omega
  rw [← List.getElem?_toArray] at hopen
  refine .skip hopen hz ?_
  show Computes _ { m.moved front.length body.loop.length with
    pc := partner (front ++ (body.loop ++ rest)).toArray front.length + 1 } _
  rw [hbehind]
  exact .refl _

/-- **A loop that stands where the cell is always zero changes nothing.** -/
theorem deadLoop_bisimulation (hbody : body.Balanced) (front rest : Program) :
    Bisimulation (front ++ rest).toArray (front ++ (body.loop ++ rest)).toArray
      (fun m => m.pc = front.length → m.tape.current = 0) (fun _ => True)
      (fun i j => j = Program.moved front.length body.loop.length i)
      (Arrives front.length body.loop.length) := by
  intro m l hml hzero _
  -- the machine on the larger program comes to where that on the smaller one is moved to
  have hmoved : l.Computes (front ++ (body.loop ++ rest)).toArray
      (m.moved front.length body.loop.length) := by
    obtain ⟨pc, rfl | ⟨hm, rfl⟩, rfl⟩ := hml
    · exact .refl _
    · exact computes_moved hbody front rest hm (hzero m (.refl m) hm)
  refine ⟨m, _, .refl m, hmoved, ?_⟩
  exact level_moved front rest hbody.loop (arrives_moved _ _ m) fun _ _ h _ => h

end Machine

namespace Session

variable {front body rest : Program} {calls : List Streams} {m : Machine}

/-- Where a program begins, and behind a closing bracket, the cell is zero in every session. -/
lemma current_eq_zero_of_passes (hfront : ∀ x ∈ front.getLast?, x = .plain .closeLoop)
    (hm : (ofProgram (front ++ rest)).Passes calls m) (hpc : m.pc = front.length) :
    m.tape.current = 0 := by
  refine hm.induction (I := fun m => m.pc = front.length → m.tape.current = 0) ?_ ?_ hpc
  · exact fun _ => Tape.current_blank
  · intro m n hm _ hn hpc
    rcases List.eq_nil_or_concat front with rfl | ⟨init, last, rfl⟩
    · exact absurd hpc (Nat.ne_of_gt hn.pc_pos)
    · obtain rfl := hfront last (by simp)
      refine hn.current_eq_zero (k := init.length) (loops_openLoop_of_passes hm) ?_ ?_
      · simp
      · simpa using hpc

/-- Where the cell is zero in every session, a loop may be put in. -/
lemma insert_loop_alike (hbody : body.Balanced) (front rest : Program)
    (hfront : ∀ x ∈ front.getLast?, x = .plain .closeLoop) (calls : List Streams) :
    Alike (fun i j => j = Program.moved front.length body.loop.length i)
      (ofProgram (front ++ rest)) (ofProgram (front ++ (body.loop ++ rest))) calls := by
  refine alike_of_bisimulation (Machine.deadLoop_bisimulation hbody front rest) rfl rfl ?_ ?_ ?_
  · -- both machines begin at the first instruction
    refine ⟨0, ?_, rfl⟩
    cases front with
    | nil => exact .inr ⟨rfl, rfl⟩
    | cons x front => exact .inl rfl
  · exact fun m hm => current_eq_zero_of_passes hfront hm
  · exact fun _ _ => trivial

/-- **A loop that is never entered may be left out.** A loop whose body is balanced stands at the
beginning of a program, or directly behind the closing bracket of another loop; before and behind them
stands what will, and the body of the other loop need not be balanced either. The program cannot be told
from the one without the loop: for any run calls on any streams, failing ones included, the two make the
same calls, end on the same occasions and in the same way, and leave the same tape and the same streams.
A bracket that is stray behind the loop has an index that is larger by the length of the loop, one that
is stray before it has the same. -/
theorem dead_loop_alike {y : Program} (hy : y.Balanced) (u x r : Program) (calls : List Streams) :
    Alike (fun i j => j = i + (y.length + 2)) (ofProgram r) (ofProgram (y.loop ++ r)) calls ∧
      Alike (fun i j => j = if i < (u ++ x.loop).length then i else i + (y.length + 2))
        (ofProgram (u ++ x.loop ++ r)) (ofProgram (u ++ x.loop ++ y.loop ++ r)) calls := by
  constructor
  · have hbegin := insert_loop_alike hy [] r (fun _ h => nomatch h) calls
    rwa [Program.length_loop] at hbegin
  · have hbehind : ∀ i ∈ (u ++ x.loop).getLast?, i = .plain .closeLoop := by
      intro i hi
      rw [Program.getLast?_loop, Option.mem_some_iff] at hi
      exact hi.symm
    have hsecond := insert_loop_alike hy (u ++ x.loop) r hbehind calls
    rw [← List.append_assoc, Program.length_loop] at hsecond
    exact hsecond

/-- A loop with a loop in it behind one that counts down, both in a loop that is closed behind them;
there a bracket is stray, so that the second run call fails where the first does. -/
theorem dead_loop_alike_enclosed :
    let y : Program := [.plain .openLoop, .plain .input, .plain .closeLoop, .plain .output]
    let u : Program := [.counted .add 2, .plain .openLoop]
    let x : Program := [.counted .sub 1, .plain .output]
    let r : Program := [.plain .closeLoop, .plain .closeLoop]
    y.Balanced ∧
      Alike (fun i j => j = i + (y.length + 2)) (ofProgram r) (ofProgram (y.loop ++ r))
        [.silent, .silent] ∧
      Alike (fun i j => j = if i < (u ++ x.loop).length then i else i + (y.length + 2))
        (ofProgram (u ++ x.loop ++ r)) (ofProgram (u ++ x.loop ++ y.loop ++ r))
        [.silent, .silent] := by
  intro y u x r
  have hy : y.Balanced := by decide
  exact ⟨hy, dead_loop_alike hy u x r _⟩

end Session

end TapeLang
