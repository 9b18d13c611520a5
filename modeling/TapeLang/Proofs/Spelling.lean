import Mathlib.Data.List.Basic
import TapeLang.Proofs.Condense.Counts

/-!
# How programs are spelled

A program is read octet by octet, and a string through its UTF-8 octets. That this is to read the string
character by character is a matter of the encoding: a symbol is encoded as the one octet that stands for
it, and a character that is no symbol has no such octet among its own, since they are all 128 or more
unless there is only one (`Instr.filterMap_ofByte?_utf8EncodeChar`).

What is read is what is a symbol, and written down again it is just the symbols
(`Program.map_octet_ofBytes`). Of two programs with counts of one that are written alike, either is read
from what the other is written as, so they are the same, and a program is known from its symbols. The
rest of a text is comment, whatever it is: `Program.symbols_kept`.
-/

namespace TapeLang

/-! ## Octets of a character -/

namespace Utf8

variable {c : Char} {b : UInt8}

lemma utf8EncodeChar_of_lt (h : c.toNat < 0x80) :
    String.utf8EncodeChar c = [UInt8.ofNat c.toNat] := by
  rw [String.utf8EncodeChar]
  exact if_pos (Nat.le_of_lt_succ h)

/-- The octets of a character that has more than one are continuations or begin a longer sequence. -/
lemma le_of_mem_utf8EncodeChar (h : 0x80 ≤ c.toNat) (hb : b ∈ String.utf8EncodeChar c) :
    0x80 ≤ b.toNat := by
  have hval : ¬ c.val.toNat ≤ 127 := Nat.not_le.mpr h
  simp only [String.utf8EncodeChar, if_neg hval] at hb
  split_ifs at hb <;> simp only [List.mem_cons, List.not_mem_nil, or_false] at hb
  · rcases hb with rfl | rfl <;> simp only [UInt8.toNat_ofNat'] <;> omega
  · rcases hb with rfl | rfl | rfl <;> simp only [UInt8.toNat_ofNat'] <;> omega
  · rcases hb with rfl | rfl | rfl | rfl <;> simp only [UInt8.toNat_ofNat'] <;> omega

lemma ofUInt8_ofNat (h : c.toNat < 0x80) : Char.ofUInt8 (UInt8.ofNat c.toNat) = c := by
  refine Char.toNat_inj.mp ?_
  show (UInt8.ofNat c.toNat).toNat = c.toNat
  rw [UInt8.toNat_ofNat', Nat.mod_eq_of_lt (Nat.lt_trans h (by decide))]

lemma ofUInt8_injective : Function.Injective Char.ofUInt8 := by
  intro b b' h
  exact UInt8.toNat_inj.mp (congrArg Char.toNat h)

end Utf8

/-! ## Symbols -/

namespace Instr

/-- The characters that stand for an instruction. -/
def symbols : List Char :=
  ['<', '>', '+', '-', '[', ']', '.', ',']

/-- The octets that stand for an instruction. -/
def symbolOctets : List UInt8 :=
  [60, 62, 43, 45, 91, 93, 46, 44]

/-- The octet that an instruction is written with. -/
def octet (i : Instr) : UInt8 :=
  UInt8.ofNat i.symbol.toNat

variable {c : Char} {b : UInt8} {i : Instr}

lemma symbol_of_ofSymbol? (h : ofSymbol? c = some i) : i.symbol = c := by
  unfold ofSymbol? at h
  split at h <;> cases h <;> rfl

lemma isSome_ofSymbol?_iff : (ofSymbol? c).isSome ↔ c ∈ symbols := by
  unfold ofSymbol?
  split <;> simp_all [symbols]

/-- An instruction with a count of one is read from its symbol. -/
lemma ofSymbol?_symbol (h : ∀ kind count, i = .counted kind count → count = 1) :
    ofSymbol? i.symbol = some i := by
  cases i with
  | counted kind count =>
    obtain rfl := h kind count rfl
    exact ofSymbol?_symbol_once kind
  | plain kind => exact ofSymbol?_symbol_plain kind

lemma symbol_mem (i : Instr) : i.symbol ∈ symbols := by
  rcases i with ⟨kind, count⟩ | kind <;> cases kind <;>
    simp [symbol, Counted.symbol, Plain.symbol, symbols]

lemma lt_of_mem_symbols : ∀ c ∈ symbols, c.toNat < 0x80 := by
  simp [symbols]

lemma ofUInt8_mem_symbols_iff : Char.ofUInt8 b ∈ symbols ↔ b ∈ symbolOctets :=
  List.mem_map_of_injective (l := symbolOctets) Utf8.ofUInt8_injective

lemma isSome_ofByte?_iff : (ofByte? b).isSome ↔ b ∈ symbolOctets := by
  rw [ofByte?, isSome_ofSymbol?_iff, ofUInt8_mem_symbols_iff]

/-- What is read from an octet is written with it. -/
lemma octet_of_ofByte? (h : ofByte? b = some i) : i.octet = b := by
  rw [octet, symbol_of_ofSymbol? h]
  exact UInt8.ofNat_toNat

lemma ofByte?_octet (i : Instr) : ofByte? i.octet = ofSymbol? i.symbol := by
  rw [ofByte?, octet, Utf8.ofUInt8_ofNat (lt_of_mem_symbols _ i.symbol_mem)]

lemma utf8EncodeChar_symbol (i : Instr) : String.utf8EncodeChar i.symbol = [i.octet] :=
  Utf8.utf8EncodeChar_of_lt (lt_of_mem_symbols _ i.symbol_mem)

/-- No octet of a character that is no symbol stands for an instruction. -/
lemma ofByte?_of_mem_utf8EncodeChar (hc : c ∉ symbols) (hb : b ∈ String.utf8EncodeChar c) :
    ofByte? b = none := by
  rw [ofByte?, ← Option.not_isSome_iff_eq_none, isSome_ofSymbol?_iff]
  rcases Nat.lt_or_ge c.toNat 0x80 with hlt | hge
  · rw [Utf8.utf8EncodeChar_of_lt hlt, List.mem_singleton] at hb
    rwa [hb, Utf8.ofUInt8_ofNat hlt]
  · intro hmem
    exact Nat.not_lt.mpr (Utf8.le_of_mem_utf8EncodeChar hge hb) (lt_of_mem_symbols _ hmem)

/-- **From the octets of a character is read what is read from the character.** -/
theorem filterMap_ofByte?_utf8EncodeChar (c : Char) :
    (String.utf8EncodeChar c).filterMap ofByte? = (ofSymbol? c).toList := by
  cases hc : ofSymbol? c with
  | some i =>
    obtain rfl := symbol_of_ofSymbol? hc
    rw [← ofByte?_octet] at hc
    simp [utf8EncodeChar_symbol, hc]
  | none =>
    rw [List.filterMap_eq_nil_iff.mpr, Option.toList_none]
    refine fun b => ofByte?_of_mem_utf8EncodeChar fun hmem => ?_
    rw [← isSome_ofSymbol?_iff, hc] at hmem
    cases hmem

end Instr

/-! ## Programs -/

namespace Program

open Instr

variable {p q : Program}

theorem ofText_eq_filterMap (text : String) : ofText text = text.toList.filterMap ofSymbol? := by
  rw [ofText, ofBytes, Utf8.encode, List.filterMap_flatMap, List.filterMap_eq_flatMap_toList]
  simp only [filterMap_ofByte?_utf8EncodeChar]

/-- If what is read from something is written with it, then what is read is written with all that
something can be read from. -/
lemma map_filterMap_eq_filter {α : Type} [DecidableEq α] {read : α → Option Instr}
    {write : Instr → α} {marks : List α} (hread : ∀ {a}, (read a).isSome ↔ a ∈ marks)
    (hwrite : ∀ {a i}, read a = some i → write i = a) (l : List α) :
    (l.filterMap read).map write = l.filter (· ∈ marks) := by
  induction l with
  | nil => rfl
  | cons a l ih =>
    cases ha : read a with
    | none =>
      have hmark : a ∉ marks := by simp [← hread, ha]
      simp [ha, hmark, ih]
    | some i =>
      have hmark : a ∈ marks := by simp [← hread, ha]
      simp [ha, hmark, ih, hwrite ha]

/-- What is read from octets is written with those that are symbols. -/
theorem map_octet_ofBytes (bytes : List UInt8) :
    (ofBytes bytes).map octet = bytes.filter (· ∈ symbolOctets) :=
  map_filterMap_eq_filter isSome_ofByte?_iff octet_of_ofByte? bytes

/-- What is read from a text is written with those of its characters that are symbols. -/
theorem map_symbol_ofText (text : String) :
    (ofText text).map symbol = text.toList.filter (· ∈ symbols) := by
  rw [ofText_eq_filterMap]
  exact map_filterMap_eq_filter isSome_ofSymbol?_iff symbol_of_ofSymbol? text.toList

lemma encode_render (p : Program) : Utf8.encode p.render = p.map octet := by
  rw [Utf8.encode, render, String.toList_ofList, List.flatMap_map]
  simp only [utf8EncodeChar_symbol]
  exact List.map_eq_flatMap.symm

/-- Where all counts are one, a program is read from what it is written with. -/
lemma AllOnce.ofBytes_map_octet (h : p.AllOnce) : ofBytes (p.map octet) = p := by
  have honce : ∀ i ∈ p, ofByte? i.octet = some i := by
    intro i hi
    rw [ofByte?_octet]
    refine ofSymbol?_symbol ?_
    rintro kind count rfl
    exact h kind count hi
  rw [ofBytes, List.filterMap_map]
  exact (List.filterMap_congr honce).trans List.filterMap_some

/-- A program with counts of one is known from its octets. -/
lemma AllOnce.eq_of_map_octet_eq (hp : p.AllOnce) (hq : q.AllOnce)
    (h : p.map octet = q.map octet) : p = q := by
  rw [← hp.ofBytes_map_octet, h, hq.ofBytes_map_octet]

/-- A program with counts of one is known from its symbols. -/
lemma AllOnce.eq_of_map_symbol_eq (hp : p.AllOnce) (hq : q.AllOnce)
    (h : p.map symbol = q.map symbol) : p = q := by
  have hoctets := congrArg (List.map fun c => UInt8.ofNat c.toNat) h
  rw [List.map_map, List.map_map] at hoctets
  exact hp.eq_of_map_octet_eq hq hoctets

/-- **A text is its symbols.** A string is read by taking the instructions that its symbols stand for,
in their order and with counts of one, and nothing else in it has a part in this: no octet of another
character stands for an instruction, and two strings are the same program if and only if they have the
same symbols. Octets, whether they are UTF-8 or not, are read in the same way, and written down again
the program that was read is just those that are symbols. A program with counts of one is read from its
text, whatever other octets stand in between. -/
theorem symbols_kept :
    (∀ text : String, (ofText text).AllOnce ∧ ofText text = text.toList.filterMap ofSymbol? ∧
      (ofText text).map symbol = text.toList.filter (· ∈ symbols)) ∧
    (∀ c ∉ symbols, ∀ b ∈ String.utf8EncodeChar c, ofByte? b = none) ∧
    (∀ s t : String, ofText s = ofText t ↔
      s.toList.filter (· ∈ symbols) = t.toList.filter (· ∈ symbols)) ∧
    (∀ bytes : List UInt8,
      Utf8.encode (ofBytes bytes).render = bytes.filter (· ∈ symbolOctets)) ∧
    ∀ p : Program, p.AllOnce → ∀ bytes : List UInt8,
      bytes.filter (· ∈ symbolOctets) = Utf8.encode p.render → ofBytes bytes = p := by
  have honce : ∀ text : String, (ofText text).AllOnce := fun text => allOnce_ofBytes _
  refine ⟨fun text => ⟨honce text, ofText_eq_filterMap text, map_symbol_ofText text⟩,
    fun c hc b hb => ofByte?_of_mem_utf8EncodeChar hc hb, fun s t => ?_, fun bytes => ?_,
    fun p hp bytes h => ?_⟩
  · rw [← map_symbol_ofText, ← map_symbol_ofText]
    exact ⟨congrArg _, (honce s).eq_of_map_symbol_eq (honce t)⟩
  · rw [encode_render, map_octet_ofBytes]
  · rw [encode_render, ← map_octet_ofBytes] at h
    exact (allOnce_ofBytes bytes).eq_of_map_octet_eq hp h

/-- A loop among octets that are no text, and a text with characters of two and three octets. -/
theorem symbols_kept_commented :
    let p : Program := [.counted .add 1, .plain .openLoop, .counted .sub 1, .plain .closeLoop]
    let bytes : List UInt8 := [255, 43, 0, 91, 195, 45, 128, 93]
    (p.AllOnce ∧ bytes.filter (· ∈ symbolOctets) = Utf8.encode p.render ∧ ofBytes bytes = p) ∧
      'é' ∉ symbols ∧ (∀ b ∈ String.utf8EncodeChar 'é', ofByte? b = none) ∧
      ofText "é→+" = ofText "+" := by
  intro p bytes
  have hp : p.AllOnce := allOnce_ofBytes [43, 91, 45, 93]
  have hbytes : bytes.filter (· ∈ symbolOctets) = Utf8.encode p.render := by decide
  have hsymbol : 'é' ∉ symbols := by decide
  obtain ⟨-, hother, htext, -, hread⟩ := symbols_kept
  exact ⟨⟨hp, hbytes, hread p hp bytes hbytes⟩, hsymbol, hother _ hsymbol,
    (htext _ _).mpr (by decide)⟩

end Program

end TapeLang
