import Mathlib.Tactic.Common
import TapeLang.Proofs.Media

/-!
# Where a text can be cut

The decoder is in the middle of a sequence or it is not, and what it has read so far matters for nothing
else: the text that is complete is only ever added to (`Decoder.feed_behind`). In the middle of a sequence
it goes on with continuations only, `80` to `BF`, however narrow the range is at first
(`Decoder.Narrow`). Any other octet closes the sequence as broken and is read as if the input had ended
just before it and a new one began (`Decoder.step_of_not_continuation`), whatever came before: the end of a
sequence, the middle of one, or no text at all.

So octets can be cut in front of such an octet, and the text of the whole is the text of the parts,
`Utf8.decodeAll_append_cons`. A byte order mark has to be told from this, since it is taken away at the
start of the whole only: `Output.Buffer.text_cut`.
-/

namespace TapeLang

namespace Utf8

/-- The octet goes on with a sequence that has begun. -/
def IsContinuation (b : UInt8) : Prop :=
  0x80 ≤ b ∧ b ≤ 0xBF

instance (b : UInt8) : Decidable (IsContinuation b) :=
  inferInstanceAs (Decidable (_ ∧ _))

/-! ## What the decoder has read -/

namespace Decoder

variable {text t u : String} {b : UInt8} {d : Decoder} {p : Pending} {bytes : List UInt8}

lemma append_push (t u : String) (c : Char) : t ++ u.push c = (t ++ u).push c := by
  rw [← String.append_singleton, ← String.append_singleton, String.append_assoc]

/-- The decoder with a text in front of what it has. -/
def behind (t : String) (d : Decoder) : Decoder :=
  ⟨t ++ d.text, d.pending⟩

lemma start_append (t u : String) (b : UInt8) : start (t ++ u) b = (start u b).behind t := by
  unfold start
  split <;> simp only [behind, append_push]

/-- What is in front has no part in a step. -/
lemma step_behind (t : String) (d : Decoder) (b : UInt8) :
    (d.behind t).step b = (d.step b).behind t := by
  obtain ⟨text, _ | ⟨bits, further, least, greatest⟩⟩ := d
  · exact start_append t text b
  · simp only [behind, step]
    split_ifs
    · cases further <;> simp only [append_push]
    · rw [← append_push, start_append]
      rfl

lemma feed_behind (t : String) (d : Decoder) (bytes : List UInt8) :
    (d.behind t).feed bytes = (d.feed bytes).behind t := by
  induction bytes generalizing d with
  | nil => rfl
  | cons b bytes ih => rw [feed_cons, feed_cons, step_behind, ih]

lemma finish_behind (t : String) (d : Decoder) : (d.behind t).finish = t ++ d.finish := by
  obtain ⟨text, _ | p⟩ := d
  · rfl
  · simp only [behind, finish, append_push]

/-! ## Between sequences and inside -/

/-- A sequence under way waits for a continuation, and for nothing else. -/
def Narrow (d : Decoder) : Prop :=
  ∀ p, d.pending = some p → 0x80 ≤ p.least ∧ p.greatest ≤ 0xBF

lemma narrow_of_lead (h : lead b = .opens p) : 0x80 ≤ p.least ∧ p.greatest ≤ 0xBF := by
  unfold lead at h
  split_ifs at h <;> obtain rfl := Lead.opens.inj h <;> dsimp only <;> decide

lemma narrow_start (text : String) (b : UInt8) : (start text b).Narrow := by
  intro p hp
  unfold start at hp
  split at hp
  · cases hp
  · rename_i hlead
    obtain rfl := Option.some.inj hp
    exact narrow_of_lead hlead
  · cases hp

lemma Narrow.step (h : d.Narrow) (b : UInt8) : (d.step b).Narrow := by
  obtain ⟨text, _ | ⟨bits, further, least, greatest⟩⟩ := d
  · exact narrow_start text b
  · unfold Decoder.step
    dsimp only
    split_ifs
    · intro p hp
      cases further with
      | zero => cases hp
      | succ further =>
        obtain rfl := Option.some.inj hp
        exact ⟨UInt8.le_refl _, UInt8.le_refl _⟩
    · exact narrow_start _ b

lemma Narrow.feed (h : d.Narrow) (bytes : List UInt8) : (d.feed bytes).Narrow := by
  induction bytes generalizing d with
  | nil => exact h
  | cons b bytes ih => exact ih (h.step b)

/-- **An octet that is no continuation is read afresh**, behind what the decoder would have ended with. -/
theorem Narrow.step_of_not_continuation (h : d.Narrow) (hb : ¬ IsContinuation b) :
    d.step b = start d.finish b := by
  obtain ⟨text, _ | p⟩ := d
  · rfl
  · obtain ⟨hleast, hgreatest⟩ := h p rfl
    refine if_neg ?_
    rintro ⟨hlow, hhigh⟩
    exact hb ⟨UInt8.le_trans hleast hlow, UInt8.le_trans hhigh hgreatest⟩

end Decoder

/-- The text of octets is cut in front of an octet that is no continuation. -/
theorem decodeAll_append_cons {c : UInt8} (hc : ¬ IsContinuation c) (a b : List UInt8) :
    decodeAll (a ++ c :: b) = decodeAll a ++ decodeAll (c :: b) := by
  have hnarrow : (Decoder.feed {} a).Narrow := by
    refine Decoder.Narrow.feed ?_ a
    rintro p ⟨⟩
  have hstart : (Decoder.feed {} a).step c = (Decoder.start "" c).behind (decodeAll a) := by
    rw [hnarrow.step_of_not_continuation hc, ← Decoder.start_append, String.append_empty]
    rfl
  calc decodeAll (a ++ c :: b)
      = (((Decoder.feed {} a).step c).feed b).finish := by
        rw [decodeAll, Decoder.feed_append, Decoder.feed_cons]
    _ = decodeAll a ++ ((Decoder.start "" c).feed b).finish := by
        rw [hstart, Decoder.feed_behind, Decoder.finish_behind]
    _ = decodeAll a ++ decodeAll (c :: b) := rfl

/-! ## The byte order mark -/

/-- The octets of a byte order mark. -/
def mark : List UInt8 :=
  [0xEF, 0xBB, 0xBF]

lemma decodeAll_mark_append (bytes : List UInt8) :
    decodeAll (mark ++ bytes) = "\uFEFF" ++ decodeAll bytes := by
  have hmark : Decoder.feed {} mark = Decoder.behind "\uFEFF" {} := by decide
  rw [decodeAll, Decoder.feed_append, hmark, Decoder.feed_behind, Decoder.finish_behind]
  rfl

lemma dropMark_eq (bytes : List UInt8) :
    dropMark bytes = if mark <+: bytes then bytes.drop mark.length else bytes := by
  unfold dropMark
  split
  · rename_i rest
    exact (if_pos (List.prefix_append mark rest)).symm
  · rename_i hne
    rw [if_neg]
    rintro ⟨rest, rfl⟩
    exact hne rest rfl

/-- What is taken away at the start is the mark. -/
lemma decodeAll_eq (bytes : List UInt8) :
    decodeAll bytes = (if mark <+: bytes then "\uFEFF" else "") ++ decode bytes := by
  rw [decode, dropMark_eq]
  split_ifs with hmark
  · obtain ⟨rest, rfl⟩ := hmark
    rw [decodeAll_mark_append, List.drop_left]
  · rw [String.empty_append]

/-- A mark does not reach over an octet that is no continuation, unless it begins there. -/
lemma mark_prefix_append_cons_iff {a b : List UInt8} {c : UInt8} (ha : a ≠ [])
    (hc : ¬ IsContinuation c) : mark <+: a ++ c :: b ↔ mark <+: a := by
  refine ⟨fun h => ?_, fun h => h.trans (List.prefix_append a _)⟩
  match a, ha with
  | [x], _ =>
    obtain ⟨-, rfl, -⟩ : 0xEF = x ∧ 0xBB = c ∧ [0xBF] <+: b := by
      simpa [mark, List.cons_prefix_cons] using h
    exact absurd (by decide) hc
  | [x, y], _ =>
    obtain ⟨-, -, rfl⟩ : 0xEF = x ∧ 0xBB = y ∧ 0xBF = c := by
      simpa [mark, List.cons_prefix_cons] using h
    exact absurd (by decide) hc
  | x :: y :: z :: a, _ => simpa [mark, List.cons_prefix_cons] using h

lemma dropMark_append_cons {a b : List UInt8} {c : UInt8} (ha : a ≠ [])
    (hc : ¬ IsContinuation c) : dropMark (a ++ c :: b) = dropMark a ++ c :: b := by
  rw [dropMark_eq, dropMark_eq]
  by_cases hmark : mark <+: a
  · obtain ⟨rest, rfl⟩ := hmark
    rw [if_pos (List.prefix_append mark rest), List.append_assoc,
      if_pos (List.prefix_append mark _), List.drop_left, List.drop_left]
  · rw [if_neg hmark, if_neg (mt (mark_prefix_append_cons_iff ha hc).mp hmark)]

/-- The text of octets without the mark is cut in the same place. -/
theorem decode_append_cons {a b : List UInt8} {c : UInt8} (ha : a ≠ [])
    (hc : ¬ IsContinuation c) :
    decode (a ++ c :: b) =
      decode a ++ ((if mark <+: c :: b then "\uFEFF" else "") ++ decode (c :: b)) := by
  rw [decode, dropMark_append_cons ha hc, decodeAll_append_cons hc, ← decodeAll_eq]
  rfl

end Utf8

/-! ## What has been written -/

namespace Output.Buffer

open Utf8

lemma octets_after (vs : List Int) (b : Buffer) :
    (Sink.after vs b).octets = b.octets ++ vs.map UInt8.ofInt := by
  induction vs generalizing b with
  | nil => rw [Sink.after_nil, List.map_nil, List.append_nil]
  | cons v vs ih =>
    rw [Sink.after_cons, ih, octets_write, List.append_assoc, List.singleton_append, List.map_cons]

/-- The text of an output in memory that some integers have been written to. -/
def textOf (vs : List Int) : String :=
  (Sink.after vs ({} : Buffer)).text

lemma textOf_eq_decode (vs : List Int) : textOf vs = decode (vs.map UInt8.ofInt) := by
  rw [textOf, text, octets_after]
  rfl

/-- **A broken sequence does not swallow the next character.** Let something have been written, whatever it
is and wherever it ends, and let the next octet be no continuation. Then the text is what it would be if
nothing more came, and behind that the text of the rest, as if that had been written by itself. Only if
there is a byte order mark at the start of the rest, it is part of the text now, since it is not at the
start of the whole. -/
theorem text_cut (a b : List Int) (c : Int) (ha : a ≠ [])
    (hc : ¬ (0x80 ≤ UInt8.ofInt c ∧ UInt8.ofInt c ≤ 0xBF)) :
    textOf (a ++ [c] ++ b) =
      textOf a ++
        (if [0xEF, 0xBB, 0xBF] <+: ([c] ++ b).map UInt8.ofInt then "\uFEFF" else "") ++
        textOf ([c] ++ b) := by
  have hoctets : a.map UInt8.ofInt ≠ [] := mt List.map_eq_nil_iff.mp ha
  simp only [textOf_eq_decode, List.append_assoc, List.singleton_append, List.map_append,
    List.map_cons]
  rw [decode_append_cons hoctets hc, String.append_assoc]
  rfl

/-- Two octets of three, and behind them a byte order mark and a letter. -/
theorem text_cut_inside :
    ([0xE2, 0x82] : List Int) ≠ [] ∧ ¬ (0x80 ≤ UInt8.ofInt 0xEF ∧ UInt8.ofInt 0xEF ≤ 0xBF) ∧
      textOf ([0xE2, 0x82] ++ [0xEF] ++ [0xBB, 0xBF, 0x41]) = "\uFFFD" ++ "\uFEFF" ++ "A" := by
  refine ⟨by decide, by decide, ?_⟩
  rw [text_cut [0xE2, 0x82] [0xBB, 0xBF, 0x41] 0xEF (by decide) (by decide)]
  decide

end Output.Buffer

end TapeLang
