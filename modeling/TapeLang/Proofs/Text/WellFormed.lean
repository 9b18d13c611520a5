import TapeLang.Proofs.Text.Decoding

/-!
# Octets that are UTF-8

Octets are UTF-8 if they are sequences of one to four octets, one behind the other, each of which has a
first octet and continuations in certain ranges: `Utf8.Sequence`, `Utf8.WellFormed`. This says nothing of
characters. What ties it to them is the number of a sequence, the bits of its octets put together
(`Utf8.number`), and the way back from a number, `Utf8.octets`. The octets of the number of a character are
a sequence with this number, and a sequence is the octets of its number, which is that of a character. The
narrow ranges of the second octet are what the second of these needs: without them there would be sequences
for numbers that have a shorter one or no character.

The decoder puts the number of a sequence together octet by octet (`Utf8.Sequence.feed`). So it takes back
what encoding has done, `Utf8.decodeAll_encode`. The other way round, what it makes of octets that are not
UTF-8 is encoded as other octets, since encoding gives nothing but UTF-8: `Utf8.encode_decodeAll_eq_iff`.
What a byte order mark changes in this is in `Output.Buffer.text_inverts`.
-/

namespace TapeLang

namespace Utf8

/-- The octets of one character. -/
inductive Sequence : List UInt8 → Prop where
  /-- An octet below 128. -/
  | one {a : UInt8} (ha : a ≤ 0x7F) : Sequence [a]
  /-- One continuation. `C0` and `C1` would begin numbers below 128. -/
  | two {a b : UInt8} (ha : 0xC2 ≤ a) (ha' : a ≤ 0xDF) (hb : IsContinuation b) : Sequence [a, b]
  /-- Two continuations. Numbers below 2048 are kept out, and surrogates. -/
  | three {a b c : UInt8} (ha : 0xE0 ≤ a) (ha' : a ≤ 0xEF) (hb : IsContinuation b)
      (hshort : a = 0xE0 → 0xA0 ≤ b) (hsurrogate : a = 0xED → b ≤ 0x9F) (hc : IsContinuation c) :
      Sequence [a, b, c]
  /-- Three continuations. Numbers below 65536 are kept out, and those past U+10FFFF. -/
  | four {a b c d : UInt8} (ha : 0xF0 ≤ a) (ha' : a ≤ 0xF4) (hb : IsContinuation b)
      (hshort : a = 0xF0 → 0x90 ≤ b) (hlarge : a = 0xF4 → b ≤ 0x8F) (hc : IsContinuation c)
      (hd : IsContinuation d) : Sequence [a, b, c, d]

/-- Octets that are UTF-8. -/
inductive WellFormed : List UInt8 → Prop where
  /-- No octets. -/
  | nil : WellFormed []
  /-- A character before others. -/
  | cons {q rest : List UInt8} (hq : Sequence q) (hrest : WellFormed rest) : WellFormed (q ++ rest)

/-- A number with the six bits of a continuation behind its own. -/
def extend (n : Nat) (b : UInt8) : Nat :=
  (b.toNat - 0x80) + n * 64

/-- The bits of a sequence put together. -/
def number : List UInt8 → Nat
  | [a] => a.toNat
  | [a, b] => extend (a.toNat - 0xC0) b
  | [a, b, c] => extend (extend (a.toNat - 0xE0) b) c
  | [a, b, c, d] => extend (extend (extend (a.toNat - 0xF0) b) c) d
  | _ => 0

variable {a b : UInt8} {c : Char} {n k : Nat} {q bytes : List UInt8}

/-! ## Digits

A number is put together from continuations as from digits of base 64. -/

/-- The continuation for the last six bits of a number. -/
def continuation (n : Nat) : UInt8 :=
  UInt8.ofNat (n % 64 + 0x80)

lemma isContinuation_iff : IsContinuation b ↔ 0x80 ≤ b.toNat ∧ b.toNat ≤ 0xBF := by
  simp only [IsContinuation, UInt8.le_iff_toNat_le, UInt8.reduceToNat]

lemma toNat_continuation (n : Nat) : (continuation n).toNat = n % 64 + 0x80 := by
  rw [continuation, UInt8.toNat_ofNat']
  omega

lemma isContinuation_continuation (n : Nat) : IsContinuation (continuation n) := by
  rw [isContinuation_iff, toNat_continuation]
  omega

lemma extend_continuation (n : Nat) : extend (n / 64) (continuation n) = n := by
  rw [extend, toNat_continuation, Nat.add_sub_cancel, Nat.mod_add_div']

lemma extend_div (n : Nat) (hb : IsContinuation b) : extend n b / 64 = n := by
  rw [isContinuation_iff] at hb
  rw [extend]
  omega

lemma continuation_extend (n : Nat) (hb : IsContinuation b) : continuation (extend n b) = b := by
  rw [isContinuation_iff] at hb
  rw [← UInt8.toNat_inj, toNat_continuation, extend]
  omega

lemma extend_eq (n : Nat) (b : UInt8) : extend n b = n * 64 + (b.toNat - 0x80) :=
  Nat.add_comm _ _

lemma toNat_ofNat_sub (h : n + k < 256) : (UInt8.ofNat (n + k)).toNat - k = n := by
  rw [UInt8.toNat_ofNat', Nat.mod_eq_of_lt h, Nat.add_sub_cancel]

lemma ofNat_sub_add (h : k ≤ a.toNat) : UInt8.ofNat (a.toNat - k + k) = a := by
  rw [Nat.sub_add_cancel h, UInt8.ofNat_toNat]

/-! ## Sequences and numbers -/

/-- A number spelled with the fewest octets that have room for it. -/
def octets (n : Nat) : List UInt8 :=
  if n ≤ 0x7F then [UInt8.ofNat n]
  else if n ≤ 0x7FF then [UInt8.ofNat (n / 64 + 0xC0), continuation n]
  else if n ≤ 0xFFFF then
    [UInt8.ofNat (n / 64 / 64 + 0xE0), continuation (n / 64), continuation n]
  else
    [UInt8.ofNat (n / 64 / 64 / 64 + 0xF0), continuation (n / 64 / 64), continuation (n / 64),
      continuation n]

/-- A number is had back from its spelling. -/
lemma number_octets (h : n < 0x110000) : number (octets n) = n := by
  unfold octets
  split_ifs
  · rw [number, UInt8.toNat_ofNat', Nat.mod_eq_of_lt (by omega)]
  · rw [number, toNat_ofNat_sub (by omega), extend_continuation]
  · rw [number, toNat_ofNat_sub (by omega), extend_continuation, extend_continuation]
  · rw [number, toNat_ofNat_sub (by omega), extend_continuation, extend_continuation,
      extend_continuation]

lemma sequence_octets (h : n.isValidChar) : Sequence (octets n) := by
  unfold Nat.isValidChar at h
  unfold octets
  split_ifs
  · refine .one ?_
    simp only [UInt8.le_iff_toNat_le, UInt8.toNat_ofNat', UInt8.reduceToNat]
    omega
  · refine .two ?_ ?_ (isContinuation_continuation n)
    all_goals
      simp only [UInt8.le_iff_toNat_le, UInt8.toNat_ofNat', UInt8.reduceToNat]
      omega
  · refine .three ?_ ?_ (isContinuation_continuation _) ?_ ?_ (isContinuation_continuation n)
    all_goals
      simp only [UInt8.le_iff_toNat_le, ← UInt8.toNat_inj, UInt8.toNat_ofNat', UInt8.reduceToNat,
        toNat_continuation]
      omega
  · refine .four ?_ ?_ (isContinuation_continuation _) ?_ ?_ (isContinuation_continuation _)
      (isContinuation_continuation n)
    all_goals
      simp only [UInt8.le_iff_toNat_le, ← UInt8.toNat_inj, UInt8.toNat_ofNat', UInt8.reduceToNat,
        toNat_continuation]
      omega

lemma Sequence.isValidChar_number (hq : Sequence q) : (number q).isValidChar := by
  unfold Nat.isValidChar
  cases hq
  all_goals
    simp only [isContinuation_iff, UInt8.le_iff_toNat_le, ← UInt8.toNat_inj, UInt8.reduceToNat,
      number, extend] at *
    omega

/-- A sequence is the spelling of its number. -/
lemma octets_number (hq : Sequence q) : octets (number q) = q := by
  -- The least numbers of each length, which the second octet is narrowed for, make the lengths agree.
  cases hq with
  | @one a ha =>
    have hle : a.toNat ≤ 0x7F := UInt8.le_iff_toNat_le.mp ha
    rw [octets, number, if_pos hle, UInt8.ofNat_toNat]
  | @two a b ha ha' hb =>
    have hrange : 0x7F < number [a, b] ∧ number [a, b] ≤ 0x7FF := by
      simp only [isContinuation_iff, UInt8.le_iff_toNat_le, UInt8.reduceToNat, number, extend] at *
      omega
    have hlead : 0xC0 ≤ a.toNat := Nat.le_trans (by decide) (UInt8.le_iff_toNat_le.mp ha)
    rw [octets, if_neg (Nat.not_le.mpr hrange.1), if_pos hrange.2, number, extend_div _ hb,
      continuation_extend _ hb, ofNat_sub_add hlead]
  | @three a b c ha ha' hb hshort hsurrogate hc =>
    have hrange : 0x7FF < number [a, b, c] ∧ number [a, b, c] ≤ 0xFFFF := by
      simp only [isContinuation_iff, UInt8.le_iff_toNat_le, ← UInt8.toNat_inj, UInt8.reduceToNat,
        number, extend] at *
      omega
    have hlead : 0xE0 ≤ a.toNat := UInt8.le_iff_toNat_le.mp ha
    rw [octets, if_neg (by omega), if_neg (Nat.not_le.mpr hrange.1), if_pos hrange.2, number,
      extend_div _ hc, extend_div _ hb, continuation_extend _ hc, continuation_extend _ hb,
      ofNat_sub_add hlead]
  | @four a b c d ha ha' hb hshort hlarge hc hd =>
    have hrange : 0xFFFF < number [a, b, c, d] := by
      simp only [isContinuation_iff, UInt8.le_iff_toNat_le, ← UInt8.toNat_inj, UInt8.reduceToNat,
        number, extend] at *
      omega
    have hlead : 0xF0 ≤ a.toNat := UInt8.le_iff_toNat_le.mp ha
    rw [octets, if_neg (by omega), if_neg (by omega), if_neg (Nat.not_le.mpr hrange), number,
      extend_div _ hd, extend_div _ hc, extend_div _ hb, continuation_extend _ hd,
      continuation_extend _ hc, continuation_extend _ hb, ofNat_sub_add hlead]

/-! ## Sequences and characters -/

lemma toNat_lt (c : Char) : c.toNat < 0x110000 := by
  have hvalid : c.toNat.isValidChar := c.valid
  unfold Nat.isValidChar at hvalid
  omega

lemma toNat_ofNat (h : n.isValidChar) : (Char.ofNat n).toNat = n := by
  rw [Char.ofNat, dif_pos h]
  rfl

lemma utf8EncodeChar_eq_octets (c : Char) : String.utf8EncodeChar c = octets c.toNat := by
  have hlt := toNat_lt c
  have hval : c.val.toNat = c.toNat := rfl
  simp only [String.utf8EncodeChar, octets, hval, continuation, Nat.div_div_eq_div_mul,
    Nat.reduceMul]
  split_ifs
  · rfl
  · rw [Nat.mod_eq_of_lt (show c.toNat / 64 < 32 by omega)]
  · rw [Nat.mod_eq_of_lt (show c.toNat / 4096 < 16 by omega)]
  · rw [Nat.mod_eq_of_lt (show c.toNat / 262144 < 8 by omega)]

lemma sequence_utf8EncodeChar (c : Char) : Sequence (String.utf8EncodeChar c) := by
  rw [utf8EncodeChar_eq_octets]
  exact sequence_octets c.valid

lemma number_utf8EncodeChar (c : Char) : number (String.utf8EncodeChar c) = c.toNat := by
  rw [utf8EncodeChar_eq_octets, number_octets (toNat_lt c)]

/-- A sequence is the octets of a character. -/
theorem Sequence.utf8EncodeChar_ofNat_number (hq : Sequence q) :
    String.utf8EncodeChar (Char.ofNat (number q)) = q := by
  rw [utf8EncodeChar_eq_octets, toNat_ofNat hq.isValidChar_number, octets_number hq]

/-! ## Sequences and the decoder -/

lemma lead_of_one (ha : a ≤ 0x7F) : lead a = .whole (Char.ofUInt8 a) := by
  unfold lead
  grind

lemma lead_of_two (ha : 0xC2 ≤ a) (ha' : a ≤ 0xDF) :
    lead a = .opens ⟨a.toNat - 0xC0, 0, 0x80, 0xBF⟩ := by
  unfold lead
  grind

lemma lead_of_three (ha : 0xE0 ≤ a) (ha' : a ≤ 0xEF) :
    lead a = .opens ⟨a.toNat - 0xE0, 1, if a = 0xE0 then 0xA0 else 0x80,
      if a = 0xED then 0x9F else 0xBF⟩ := by
  unfold lead
  grind

lemma lead_of_four (ha : 0xF0 ≤ a) (ha' : a ≤ 0xF4) :
    lead a = .opens ⟨a.toNat - 0xF0, 2, if a = 0xF0 then 0x90 else 0x80,
      if a = 0xF4 then 0x8F else 0xBF⟩ := by
  unfold lead
  grind

namespace Decoder

variable {text : String} {p : Pending} {bits further : Nat} {least greatest : UInt8}

lemma step_whole (h : lead a = .whole c) : step ⟨text, none⟩ a = ⟨text.push c, none⟩ := by
  simp only [step, start, h]

lemma step_opens (h : lead a = .opens p) : step ⟨text, none⟩ a = ⟨text, some p⟩ := by
  simp only [step, start, h]

lemma step_last (h : least ≤ b ∧ b ≤ greatest) :
    step ⟨text, some ⟨bits, 0, least, greatest⟩⟩ b =
      ⟨text.push (Char.ofNat (extend bits b)), none⟩ := by
  rw [extend_eq]
  exact if_pos h

lemma step_further (h : least ≤ b ∧ b ≤ greatest) :
    step ⟨text, some ⟨bits, further + 1, least, greatest⟩⟩ b =
      ⟨text, some ⟨extend bits b, further, 0x80, 0xBF⟩⟩ := by
  rw [extend_eq]
  exact if_pos h

end Decoder

/-- The decoder makes of a sequence the character of its number. -/
theorem Sequence.feed (hq : Sequence q) (text : String) :
    Decoder.feed ⟨text, none⟩ q = ⟨text.push (Char.ofNat (number q)), none⟩ := by
  cases hq with
  | @one a ha =>
    have hchar : Char.ofUInt8 a = Char.ofNat a.toNat := by
      refine Char.toNat_inj.mp (toNat_ofNat (.inl ?_)).symm
      exact Nat.lt_trans a.toNat_lt (by decide)
    rw [Decoder.feed_cons, Decoder.step_whole (lead_of_one ha), hchar]
    rfl
  | two ha ha' hb =>
    rw [Decoder.feed_cons, Decoder.step_opens (lead_of_two ha ha'), Decoder.feed_cons,
      Decoder.step_last hb]
    rfl
  | @three a b c ha ha' hb hshort hsurrogate hc =>
    have hsecond : (if a = 0xE0 then 0xA0 else 0x80) ≤ b ∧ b ≤ if a = 0xED then 0x9F else 0xBF := by
      unfold IsContinuation at hb
      grind
    rw [Decoder.feed_cons, Decoder.step_opens (lead_of_three ha ha'), Decoder.feed_cons,
      Decoder.step_further hsecond, Decoder.feed_cons, Decoder.step_last hc]
    rfl
  | @four a b c d ha ha' hb hshort hlarge hc hd =>
    have hsecond : (if a = 0xF0 then 0x90 else 0x80) ≤ b ∧ b ≤ if a = 0xF4 then 0x8F else 0xBF := by
      unfold IsContinuation at hb
      grind
    rw [Decoder.feed_cons, Decoder.step_opens (lead_of_four ha ha'), Decoder.feed_cons,
      Decoder.step_further hsecond, Decoder.feed_cons, Decoder.step_further hc, Decoder.feed_cons,
      Decoder.step_last hd]
    rfl

/-! ## Texts -/

lemma wellFormed_flatMap (chars : List Char) :
    WellFormed (chars.flatMap String.utf8EncodeChar) := by
  induction chars with
  | nil => exact .nil
  | cons c chars ih => exact .cons (sequence_utf8EncodeChar c) ih

lemma feed_flatMap (chars : List Char) (text : String) :
    Decoder.feed ⟨text, none⟩ (chars.flatMap String.utf8EncodeChar) =
      ⟨text ++ String.ofList chars, none⟩ := by
  induction chars generalizing text with
  | nil => exact congrArg (Decoder.mk · none) String.append_empty.symm
  | cons c chars ih =>
    rw [List.flatMap_cons, Decoder.feed_append, (sequence_utf8EncodeChar c).feed,
      number_utf8EncodeChar, Char.ofNat_toNat, ih, String.push_eq_append, String.append_assoc,
      String.ofList_cons]

/-- **Decoding takes encoding back.** -/
theorem decodeAll_encode (text : String) : decodeAll (encode text) = text := by
  have hfeed : Decoder.feed {} (encode text) = ⟨"" ++ String.ofList text.toList, none⟩ :=
    feed_flatMap text.toList ""
  rw [decodeAll, hfeed, String.empty_append, String.ofList_toList]
  rfl

/-- Octets that are UTF-8 are those of a text. -/
lemma WellFormed.exists_encode (h : WellFormed bytes) : ∃ text, encode text = bytes := by
  induction h with
  | nil => exact ⟨"", rfl⟩
  | @cons q rest hq _ ih =>
    obtain ⟨text, rfl⟩ := ih
    refine ⟨String.singleton (Char.ofNat (number q)) ++ text, ?_⟩
    rw [encode_append, encode, String.toList_singleton, List.flatMap_singleton,
      hq.utf8EncodeChar_ofNat_number]

/-- **Encoding takes decoding back if and only if the octets are UTF-8.** -/
theorem encode_decodeAll_eq_iff : encode (decodeAll bytes) = bytes ↔ WellFormed bytes := by
  refine ⟨fun h => ?_, fun h => ?_⟩
  · rw [← h]
    exact wellFormed_flatMap _
  · obtain ⟨text, rfl⟩ := h.exists_encode
    rw [decodeAll_encode]

/-! ## Texts without a byte order mark -/

lemma dropMark_of_not_prefix (h : ¬ mark <+: bytes) : dropMark bytes = bytes := by
  rw [dropMark_eq, if_neg h]

/-- The mark is taken from the octets and from the text alike. -/
theorem encode_decode_eq_dropMark_iff :
    encode (decode bytes) = dropMark bytes ↔ WellFormed bytes := by
  rw [← encode_decodeAll_eq_iff]
  by_cases hmark : mark <+: bytes
  · obtain ⟨rest, rfl⟩ := hmark
    have hencode : encode "\uFEFF" = mark := by decide
    rw [decodeAll_mark_append, encode_append, hencode, List.append_cancel_left_eq]
    rfl
  · rw [decode, dropMark_of_not_prefix hmark]

/-- A text that begins with the mark loses it, and no other character. -/
theorem toList_decode_encode (text : String) : (decode (encode text)).toList =
    if text.toList.head? = some '\uFEFF' then text.toList.tail else text.toList := by
  by_cases hmark : mark <+: encode text
  · obtain ⟨rest, hrest⟩ := hmark
    obtain rfl : text = "\uFEFF" ++ decodeAll rest := by
      rw [← decodeAll_mark_append, hrest, decodeAll_encode]
    rw [← hrest, String.toList_append]
    rfl
  · have hhead : text.toList.head? ≠ some '\uFEFF' := by
      intro hhead
      obtain ⟨rest, hrest⟩ := List.head?_eq_some_iff.mp hhead
      refine hmark ⟨rest.flatMap String.utf8EncodeChar, ?_⟩
      rw [encode, hrest]
      rfl
    rw [decode, dropMark_of_not_prefix hmark, decodeAll_encode, if_neg hhead]

end Utf8

/-! ## What has been written -/

namespace Output.Buffer

open Utf8

/-- **The text of what has been written takes encoding back.** If the octets of a text have been written, as
whatever integers, what is read back is the text without the byte order mark at its start, if it has one.
And whatever has been written, the text of it is encoded as the same octets, less a mark at their start, if
and only if they are UTF-8. -/
theorem text_inverts :
    (∀ (text : String) (vs : List Int), vs.map UInt8.ofInt = encode text →
      (textOf vs).toList =
        if text.toList.head? = some '\uFEFF' then text.toList.tail else text.toList) ∧
    ∀ vs : List Int, encode (textOf vs) =
        (if [0xEF, 0xBB, 0xBF] <+: vs.map UInt8.ofInt then (vs.map UInt8.ofInt).drop 3
          else vs.map UInt8.ofInt) ↔
      WellFormed (vs.map UInt8.ofInt) := by
  refine ⟨fun text vs hvs => ?_, fun vs => ?_⟩
  · rw [textOf_eq_decode, hvs, toList_decode_encode]
  · rw [textOf_eq_decode, ← encode_decode_eq_dropMark_iff, dropMark_eq]
    rfl

/-- A byte order mark and a letter of two octets, some of them given by other integers, and the first
surrogate. -/
theorem text_inverts_shifted :
    [0xEF - 256, 0xBB + 256, 0xBF, 0xC3 - 512, 0xA9].map UInt8.ofInt = encode "\uFEFFé" ∧
      textOf [0xEF - 256, 0xBB + 256, 0xBF, 0xC3 - 512, 0xA9] = "é" ∧
      ¬ WellFormed ([0xED, 0xA0, 0x80].map UInt8.ofInt) := by
  have hoctets : [0xEF - 256, 0xBB + 256, 0xBF, 0xC3 - 512, 0xA9].map UInt8.ofInt =
      encode "\uFEFFé" := by decide
  refine ⟨hoctets, String.toList_inj.mp (text_inverts.1 _ _ hoctets), ?_⟩
  rw [← text_inverts.2]
  decide

end Output.Buffer

end TapeLang
