import Mathlib
import Lexer.Proofs.Reading
/-! # C string literals read back what they spell

A C string literal holds items, scalars and raw bytes, each with its spellings (`CItem.Spelled`):
itself, a backslash escape, or hexadecimal or octal digits. Whatever spelling each item takes, the
literal is read to its closing quote and writes exactly the items (`cString_reads_items`).
-/

namespace Lexer

open Utf8

/-- The escape table of C string literals. -/
def cEscapeTable : EscapeTable :=
  ((((((EscapeTable.empty.verbatim "\"'\\").map 'n' (.char '\n')).map 't' (.char '\t')).map 'x'
    (.term .hexByte)).map 'u' (.term .hexScalar4)).map 'U' (.term .hexScalar8)).withFallback
    (.term .octalByte)

def cContent : CharClass := .compl (.oneOf ['"', '\\', '\n'])

/-- The C string literal. -/
def cString : Term := .quoted (.oneOf ['"']) cContent (some (cEscapeTable.toTerm '\\'))

/-- What a C string literal holds, item by item. -/
inductive CItem where
  | scalar (c : Char)
  | byte (b : UInt8)

def CItem.bytes : CItem → List UInt8
  | .scalar c => String.utf8EncodeChar c
  | .byte b => [b]

/-- The ways an item is spelled inside a C string literal. -/
inductive CItem.Spelled : CItem → List Char → Prop where
  | raw {c : Char} : c ≠ '"' → c ≠ '\\' → c ≠ '\n' → Spelled (.scalar c) [c]
  | verbatim {c : Char} : c = '"' ∨ c = '\'' ∨ c = '\\' → Spelled (.scalar c) ['\\', c]
  | lineFeed : Spelled (.scalar '\n') ['\\', 'n']
  | tab : Spelled (.scalar '\t') ['\\', 't']
  | hex4 {c : Char} {ds : List Char} : c.toNat < 0x10000 → Radix.hex.Spells ds 4 c.toNat →
      Spelled (.scalar c) ('\\' :: 'u' :: ds)
  | hex8 {c : Char} {ds : List Char} : Radix.hex.Spells ds 8 c.toNat →
      Spelled (.scalar c) ('\\' :: 'U' :: ds)
  | hexByte {b : UInt8} {ds : List Char} : Radix.hex.Spells ds 2 b.toNat →
      Spelled (.byte b) ('\\' :: 'x' :: ds)
  | octal {b : UInt8} {ds : List Char} : Radix.octal.Spells ds 3 b.toNat →
      Spelled (.byte b) ('\\' :: ds)

/-- The text of a C string literal whose items are spelled `spellings`. -/
def cLiteral (spellings : List (List Char)) : List Char := '"' :: spellings.flatten ++ ['"']

theorem CItem.Spelled.ne_nil {item : CItem} {cs : List Char} (h : item.Spelled cs) : cs ≠ [] := by
  cases h <;> simp

/-! ## One round of the body -/

section Round

variable {c : Cursor} {t : List UInt8}

theorem cEscapeTable_exact : cEscapeTable.exact =
    [('"', .itself), ('\'', .itself), ('\\', .itself), ('n', .char '\n'), ('t', .char '\t'),
      ('x', .term .hexByte), ('u', .term .hexScalar4), ('U', .term .hexScalar8)] := rfl

theorem cEscapeTable_lookup_octal {d : Char} (hd : Radix.octal.isDigit d = true) :
    cEscapeTable.exact.lookup d = none := by
  rw [List.lookup_eq_none_iff, cEscapeTable_exact]
  intro e he
  rw [bne_iff_ne]
  rintro rfl
  simp only [List.mem_cons, List.not_mem_nil, or_false] at he
  rcases he with rfl | rfl | rfl | rfl | rfl | rfl | rfl | rfl <;> exact absurd hd (by decide)

theorem cEscape_entry {key : Char} {s : Substitution} {a : Attempt}
    (hrest : c.rest = encodeAll ['\\', key] ++ t) (hfit : c.position.Fits ['\\', key])
    (hs : cEscapeTable.exact.lookup key = some s) (ha : s.apply key (c.past ['\\', key]) = .ok a) :
    attemptEscapeStep (some (cEscapeTable.toTerm '\\')) c = .ok a :=
  escape_entry hrest hfit hs ha

theorem cString_round_escape {cs : List Char} {w : Capture}
    (he : attemptEscapeStep (some (cEscapeTable.toTerm '\\')) c = .ok (.matched (c.past cs) w))
    (hrest : c.rest = encodeAll cs ++ t) (hne : cs ≠ []) :
    quotedRound '"' cContent.contains (attemptEscapeStep (some (cEscapeTable.toTerm '\\'))) c =
      .ok (.again (c.past cs) w) :=
  quotedRound_escape he (Cursor.rest_length_past_lt hrest hne)

theorem cEscape_decoder {key : Char} {d : Term} {ds : List Char} {w : Capture}
    (hs : cEscapeTable.exact.lookup key = some (.term d))
    (hd : ∀ (c' : Cursor) (t' : List UInt8), c'.rest = encodeAll ds ++ t' →
      c'.position.Fits ds → d.attempt c' = .ok (.matched (c'.past ds) w))
    (hrest : c.rest = encodeAll ('\\' :: key :: ds) ++ t)
    (hfit : c.position.Fits ('\\' :: key :: ds)) :
    attemptEscapeStep (some (cEscapeTable.toTerm '\\')) c =
      .ok (.matched (c.past ('\\' :: key :: ds)) w) := by
  obtain ⟨hfit₁, hfit₂⟩ := Position.Fits.append (show c.position.Fits (['\\', key] ++ ds) from hfit)
  have hrest₁ : c.rest = encodeAll ['\\', key] ++ (encodeAll ds ++ t) := by
    rw [hrest]
    simp
  refine cEscape_entry hrest₁ hfit₁ hs (apply_term_matched ?_)
  rw [show c.past ('\\' :: key :: ds) = (c.past ['\\', key]).past ds from
    Cursor.past_append c ['\\', key] ds]
  exact hd _ _ (Cursor.rest_past hrest₁) hfit₂

/-- One round of the body reads one spelled item, whatever follows it, and writes its bytes. -/
theorem cString_round {item : CItem} {cs : List Char} (h : item.Spelled cs)
    (hrest : c.rest = encodeAll cs ++ t) (hfit : c.position.Fits cs) :
    quotedRound '"' cContent.contains (attemptEscapeStep (some (cEscapeTable.toTerm '\\'))) c =
      .ok (.again (c.past cs) ⟨item.bytes, []⟩) := by
  cases h with
  | @raw ch hq hb hl =>
    have hc : c.rest = String.utf8EncodeChar ch ++ t := by simpa using hrest
    have hcontent : cContent.contains ch = true := by
      simp [cContent, CharClass.contains, hq, hb, hl]
    exact quotedRound_content (escape_absent hc hb) hc hq hcontent hfit
  | @verbatim ch hch =>
    have hs : cEscapeTable.exact.lookup ch = some .itself := by
      rcases hch with rfl | rfl | rfl <;> rfl
    exact cString_round_escape (cEscape_entry hrest hfit hs rfl) hrest (by simp)
  | lineFeed => exact cString_round_escape (cEscape_entry hrest hfit rfl rfl) hrest (by simp)
  | tab => exact cString_round_escape (cEscape_entry hrest hfit rfl rfl) hrest (by simp)
  | @hex4 ch ds _ hs =>
    refine cString_round_escape (cEscape_decoder rfl ?_ hrest hfit) hrest (by simp)
    intro c' t' hrest' hfit'
    exact readHexScalar4_spelled hrest' hs hfit'
  | @hex8 ch ds hs =>
    refine cString_round_escape (cEscape_decoder rfl ?_ hrest hfit) hrest (by simp)
    intro c' t' hrest' hfit'
    exact readHexScalar8_spelled hrest' hs hfit'
  | @hexByte b ds hs =>
    refine cString_round_escape (cEscape_decoder rfl ?_ hrest hfit) hrest (by simp)
    intro c' t' hrest' hfit'
    exact readHexByte_spelled hrest' hs hfit'
  | @octal b ds hs =>
    obtain ⟨d, ds', rfl⟩ := List.exists_cons_of_ne_nil (show ds ≠ [] by
      intro h0
      have := hs.length_eq
      simp [h0] at this)
    obtain ⟨hfit₁, hfit₂⟩ := Position.Fits.append (show c.position.Fits (['\\'] ++ d :: ds') from hfit)
    have hrest₁ : c.rest = encodeAll ['\\', d] ++ (encodeAll ds' ++ t) := by
      rw [hrest]
      simp
    have ha : (Substitution.term .octalByte).apply d (c.past ['\\']) =
        .ok (.matched (c.past ('\\' :: d :: ds')) (.ofByte b)) := by
      refine apply_term_matched ?_
      rw [show c.past ('\\' :: d :: ds') = (c.past ['\\']).past (d :: ds') from
        Cursor.past_append c ['\\'] (d :: ds')]
      exact readOctalByte_spelled (Cursor.rest_past (by simpa using hrest)) hs hfit₂
    exact cString_round_escape
      (escape_fallback hrest₁ hfit₁ (cEscapeTable_lookup_octal (hs.digits d List.mem_cons_self)) ha)
      hrest (by simp)

end Round

/-! ## The whole literal -/

theorem cString_body {items : List CItem} {spellings : List (List Char)}
    (h : List.Forall₂ CItem.Spelled items spellings) {c : Cursor} {t : List UInt8}
    (hrest : c.rest = encodeAll (spellings.flatten ++ ['"']) ++ t)
    (hfit : c.position.Fits (spellings.flatten ++ ['"'])) :
    readQuotedBody '"' cContent.contains (attemptEscapeStep (some (cEscapeTable.toTerm '\\'))) c =
      .ok (.matched (c.past (spellings.flatten ++ ['"'])) ⟨items.flatMap CItem.bytes, []⟩) := by
  induction h generalizing c with
  | nil =>
    have hq : c.rest = String.utf8EncodeChar '"' ++ t := by simpa using hrest
    exact readQuotedBody_finished (quotedRound_closes (escape_absent hq (by decide)) hq hfit)
  | @cons item cs items spellings hsp _ ih =>
    rw [List.flatten_cons, List.append_assoc] at hrest hfit ⊢
    obtain ⟨hfit₁, hfit₂⟩ := Position.Fits.append hfit
    have hrest₁ : c.rest = encodeAll cs ++ (encodeAll (spellings.flatten ++ ['"']) ++ t) := by
      rw [hrest, encodeAll_append, List.append_assoc]
    have hbody := ih (Cursor.rest_past hrest₁) hfit₂
    rw [readQuotedBody_again (cString_round hsp hrest₁ hfit₁)
      (Cursor.rest_length_past_lt hrest₁ hsp.ne_nil) hbody,
      Cursor.past_append c cs (spellings.flatten ++ ['"'])]
    rfl

/-- Round trip of C string literals. Spell each item of a list in any of its ways: a scalar other
than a quote, a backslash and a line feed as itself, a quote, an apostrophe or a backslash after a
backslash, a line feed as `\n` and a tab as `\t`, a scalar up to U+FFFF as `\u` and four
hexadecimal digits, any scalar as `\U` and eight, a byte as `\x` and two or as a backslash and
three octal digits, with hexadecimal letters in either case. Between quotes and followed by any
bytes, the literal is read to its closing quote and no further, and writes exactly the items'
bytes; the line and column counts, which are 32-bit, have to fit the literal. -/
theorem cString_reads_items (items : List CItem) (spellings : List (List Char))
    (h : List.Forall₂ CItem.Spelled items spellings) (suffix : List UInt8) (c : Cursor)
    (hrest : c.rest = encodeAll (cLiteral spellings) ++ suffix)
    (hfit : c.position.Fits (cLiteral spellings)) :
    cString.attempt c = .ok (.matched
      { c with rest := suffix, offset := c.offset + (encodeAll (cLiteral spellings)).length,
               position := c.position.along (cLiteral spellings) }
      ⟨items.flatMap CItem.bytes, []⟩) := by
  obtain ⟨hfit₁, hfit₂⟩ := Position.Fits.append (show c.position.Fits (['"'] ++ _) from hfit)
  have hq : c.rest = String.utf8EncodeChar '"' ++ (encodeAll (spellings.flatten ++ ['"']) ++ suffix) := by
    rw [hrest, cLiteral]
    simp
  rw [cString, quoted_opens hq (by decide) hfit₁,
    cString_body h (Cursor.rest_past (by simpa using hq)) hfit₂, ← Cursor.past_append]
  exact congrArg _ (congrArg (Attempt.matched · _) (Cursor.past_eq hrest))

/-- `"a\xfF\n\101"` and a `!` after it: the literal is read up to its closing quote, and writes `a`,
the byte `0xFF`, a line feed and `A`. -/
theorem cString_reads_mixed_spellings :
    List.Forall₂ CItem.Spelled [.scalar 'a', .byte 0xFF, .scalar '\n', .byte 0x41]
      [['a'], ['\\', 'x', 'f', 'F'], ['\\', 'n'], ['\\', '1', '0', '1']] ∧
    cString.attempt (Cursor.init (encodeAll (cLiteral
        [['a'], ['\\', 'x', 'f', 'F'], ['\\', 'n'], ['\\', '1', '0', '1']]) ++ [0x21])
        .lenient .start) =
      .ok (.matched ⟨[0x21], 13, ⟨0, 13⟩, .lenient, none⟩ ⟨[0x61, 0xFF, 0x0A, 0x41], []⟩) := by
  have h : List.Forall₂ CItem.Spelled [.scalar 'a', .byte 0xFF, .scalar '\n', .byte 0x41]
      [['a'], ['\\', 'x', 'f', 'F'], ['\\', 'n'], ['\\', '1', '0', '1']] :=
    .cons (.raw (by decide) (by decide) (by decide))
      (.cons (.hexByte (by decide)) (.cons .lineFeed (.cons (.octal (by decide)) .nil)))
  refine ⟨h, ?_⟩
  rw [cString_reads_items _ _ h [0x21] _ rfl ⟨by decide, by decide⟩]
  rfl

end Lexer
