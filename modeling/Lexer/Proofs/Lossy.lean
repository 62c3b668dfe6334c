import Mathlib
import Lexer.Proofs.Utf16
/-! # Runs of lenient UTF-16 escapes

The UTF-16 escape of `unicodeString` takes the unit after a high surrogate as its partner,
whatever it is, so a run of escapes decodes in pairs (`pairedUtf16`). That is lossy UTF-16
decoding unless a high surrogate is followed by another and then a low one (`hasHighBeforePair`).
-/

namespace Lexer

open Utf8

/-! ## Decoding units -/

/-- What a unit stands for on its own: the scalar it is, or U+FFFD for a surrogate. -/
def unitScalar (u : Nat) : Char :=
  if isHighSurrogate u || isLowSurrogate u then '�' else Char.ofNat u

/-- Lossy UTF-16 decoding: a high surrogate followed by a low one is the scalar they combine to,
and every other surrogate is U+FFFD; the unit after an unpaired high surrogate is decoded
afresh. -/
def lossyUtf16 : List Nat → List Char
  | [] => []
  | [u] => [unitScalar u]
  | u :: l :: rest =>
    if isHighSurrogate u && isLowSurrogate l then
      Char.ofNat (combineSurrogates u l) :: lossyUtf16 rest
    else unitScalar u :: lossyUtf16 (l :: rest)

/-- Decoding in pairs: a high surrogate takes the next unit as its partner, whatever it is. With a
low surrogate it is the scalar they combine to; with any other unit it is U+FFFD, and the partner
stands on its own. -/
def pairedUtf16 : List Nat → List Char
  | [] => []
  | [u] => [unitScalar u]
  | u :: l :: rest =>
    if isHighSurrogate u then
      if isLowSurrogate l then Char.ofNat (combineSurrogates u l) :: pairedUtf16 rest
      else '�' :: unitScalar l :: pairedUtf16 rest
    else unitScalar u :: pairedUtf16 (l :: rest)

/-- Whether a high surrogate is followed by another high surrogate and then a low one: the one
pattern on which decoding in pairs and lossy decoding can part. -/
def hasHighBeforePair : List Nat → Bool
  | a :: b :: d :: rest =>
    isHighSurrogate a && isHighSurrogate b && isLowSurrogate d || hasHighBeforePair (b :: d :: rest)
  | _ => false

section Units

variable {u l : Nat} {us rest : List Nat}

theorem unitScalar_of_high (h : isHighSurrogate u = true) : unitScalar u = '�' := by
  simp [unitScalar, h]

theorem unitScalar_of_low (h : isLowSurrogate u = true) : unitScalar u = '�' := by
  simp [unitScalar, h]

theorem unitScalar_of_not_surrogate (hh : isHighSurrogate u = false)
    (hl : isLowSurrogate u = false) : unitScalar u = Char.ofNat u := by
  simp [unitScalar, hh, hl]

theorem lossyUtf16_cons_of_not_high (h : isHighSurrogate u = false) :
    lossyUtf16 (u :: us) = unitScalar u :: lossyUtf16 us := by
  cases us with
  | nil => rfl
  | cons l rest => simp [lossyUtf16, h]

theorem pairedUtf16_cons_of_not_high (h : isHighSurrogate u = false) :
    pairedUtf16 (u :: us) = unitScalar u :: pairedUtf16 us := by
  cases us with
  | nil => rfl
  | cons l rest => simp [pairedUtf16, h]

theorem pairedUtf16_high (h : isHighSurrogate u = true) :
    pairedUtf16 (u :: l :: rest) = pairedUtf16 [u, l] ++ pairedUtf16 rest := by
  by_cases hl : isLowSurrogate l = true
  · simp [pairedUtf16, h, hl]
  · simp [pairedUtf16, h, hl]

theorem hasHighBeforePair_cons (h : hasHighBeforePair (u :: us) = false) :
    hasHighBeforePair us = false := by
  match us, h with
  | [], _ => rfl
  | [_], _ => rfl
  | _ :: _ :: _, h =>
    simp only [hasHighBeforePair, Bool.or_eq_false_iff] at h
    exact h.2

theorem lossyUtf16_partner (hh : isHighSurrogate u = true) (hl : isLowSurrogate l = false)
    (h : hasHighBeforePair (u :: l :: rest) = false) :
    lossyUtf16 (u :: l :: rest) = '�' :: unitScalar l :: lossyUtf16 rest := by
  rw [lossyUtf16, if_neg (by simp [hl]), unitScalar_of_high hh]
  cases rest with
  | nil => rfl
  | cons d rest =>
    have hpair : ¬(isHighSurrogate l = true ∧ isLowSurrogate d = true) := by
      simp only [hasHighBeforePair, hh, Bool.true_and, Bool.or_eq_false_iff,
        Bool.and_eq_false_iff] at h
      rintro ⟨hl', hd⟩
      rcases h.1 with h₁ | h₁ <;> simp_all
    rw [lossyUtf16, if_neg (by simpa using hpair)]

/-- Decoding in pairs is lossy decoding, unless a high surrogate is followed by another high
surrogate and then a low one. The induction follows the pairs. -/
theorem pairedUtf16_eq_lossyUtf16 (h : hasHighBeforePair us = false) :
    pairedUtf16 us = lossyUtf16 us := by
  induction us using pairedUtf16.induct with
  | case1 => rfl
  | case2 u => rfl
  | case3 u l rest hh hl ih =>
    have hrest := hasHighBeforePair_cons (hasHighBeforePair_cons h)
    rw [pairedUtf16, if_pos hh, if_pos hl, lossyUtf16, if_pos (by simp [hh, hl]), ih hrest]
  | case4 u l rest hh hl ih =>
    have hrest := hasHighBeforePair_cons (hasHighBeforePair_cons h)
    rw [pairedUtf16, if_pos hh, if_neg hl, lossyUtf16_partner hh (by simpa using hl) h, ih hrest]
  | case5 u l rest hh ih =>
    rw [pairedUtf16_cons_of_not_high (by simpa using hh),
      lossyUtf16_cons_of_not_high (by simpa using hh), ih (hasHighBeforePair_cons h)]

end Units

/-! ## The string literal -/

/-- The escape table of JSON-style `\u` escapes: `u` hands the digits after it to the UTF-16
escape whose second unit is introduced by `\u`. -/
def unicodeEscapeTable (policy : UnpairedPolicy) : EscapeTable :=
  EscapeTable.empty.map 'u' (.term (.surrogatePair "" "\\u" policy))

def unicodeContent : CharClass := .compl (.oneOf ['"', '\\'])

/-- The JSON-style string literal. -/
def unicodeString (policy : UnpairedPolicy) : Term :=
  .quoted (.oneOf ['"']) unicodeContent (some ((unicodeEscapeTable policy).toTerm '\\'))

def unicodeEscapes (dss : List (List Char)) : List Char := dss.flatMap fun ds => '\\' :: 'u' :: ds

def unicodeLiteral (dss : List (List Char)) : List Char := '"' :: unicodeEscapes dss ++ ['"']

@[simp] theorem unicodeEscapes_nil : unicodeEscapes [] = [] := rfl

@[simp] theorem unicodeEscapes_cons (ds : List Char) (dss : List (List Char)) :
    unicodeEscapes (ds :: dss) = '\\' :: 'u' :: ds ++ unicodeEscapes dss := rfl

section Decoder

variable {c : Cursor} {first second : String} {ds ds₁ ds₂ : List Char} {t : List UInt8}
  {u l : Nat}

theorem readSurrogatePair_replace_alone (hrest : c.rest = encodeAll (first.toList ++ ds) ++ t)
    (hs : Radix.hex.Spells ds 4 u) (hfit : c.position.Fits (first.toList ++ ds))
    (halone : isHighSurrogate u = true → ¬ encode second <+: t) :
    readSurrogatePair c first second .replace =
      .ok (.matched (c.past (first.toList ++ ds)) (.ofChar (unitScalar u))) := by
  obtain ⟨c₁, hl, hu⟩ := spelled_unit_reads hrest hs hfit
  cases hh : isHighSurrogate u
  · cases hlo : isLowSurrogate u
    · rw [readSurrogatePair_single hl (hu _) hh hlo, writeScalar,
        if_pos (isValidChar_of_not_surrogate hs.lt hh hlo), unitScalar_of_not_surrogate hh hlo]
    · rw [readSurrogatePair_low hl (hu _) hlo, unitScalar_of_low hlo]
      rfl
  · have hl₂ := Cursor.leap_absent (c := c.past (first.toList ++ ds))
      (by rw [Cursor.rest_past hrest]; exact halone hh)
    rw [readSurrogatePair_stranded hl (hu _) hh hl₂, unitScalar_of_high hh]
    rfl

theorem readSurrogatePair_replace_high
    (hrest : c.rest = encodeAll (first.toList ++ ds₁ ++ second.toList ++ ds₂) ++ t)
    (hs₁ : Radix.hex.Spells ds₁ 4 u) (hs₂ : Radix.hex.Spells ds₂ 4 l)
    (hfit : c.position.Fits (first.toList ++ ds₁ ++ second.toList ++ ds₂))
    (hh : isHighSurrogate u = true) :
    readSurrogatePair c first second .replace =
      .ok (.matched (c.past (first.toList ++ ds₁ ++ second.toList ++ ds₂))
        (.ofChars (pairedUtf16 [u, l]))) := by
  obtain ⟨c₁, c₂, c₃, hl, hu, hl₂, hu₂⟩ := spelled_pair_reads hrest hs₁ hs₂ hfit
  cases hlo : isLowSurrogate l
  · have hpaired : pairedUtf16 [u, l] = ['�', unitScalar l] := by simp [pairedUtf16, hh, hlo]
    rw [readSurrogatePair_mismatch hl hu hh hl₂ hu₂ hlo, hpaired]
    simp only [Capture.ofChars_cons, Capture.ofChars_nil, Capture.append_empty]
    cases hlh : isHighSurrogate l
    · rw [if_neg (by simp), writeScalar, if_pos (isValidChar_of_not_surrogate hs₂.lt hlh hlo),
        unitScalar_of_not_surrogate hlh hlo]
      rfl
    · rw [if_pos rfl, unitScalar_of_high hlh]
      rfl
  · rw [readSurrogatePair_pair hl hu hh hl₂ hu₂ hlo, writeScalar,
      if_pos (isValidChar_combineSurrogates u l)]
    simp [pairedUtf16, hh, hlo]

end Decoder

/-! ## Runs of escapes -/

section Body

variable {c : Cursor} {t : List UInt8}

/-- One round of the body at a backslash and `u`: the escape reads what the UTF-16 escape reads
after them. -/
theorem unicodeRound {cs : List Char} {w : Capture}
    (hd : readSurrogatePair (c.past ['\\', 'u']) "" "\\u" .replace =
      .ok (.matched ((c.past ['\\', 'u']).past cs) w))
    (hrest : c.rest = encodeAll ('\\' :: 'u' :: cs) ++ t) (hfit : c.position.Fits ['\\', 'u']) :
    quotedRound '"' unicodeContent.contains
        (attemptEscapeStep (some ((unicodeEscapeTable .replace).toTerm '\\'))) c =
      .ok (.again (c.past ('\\' :: 'u' :: cs)) w) := by
  have hrest₁ : c.rest = encodeAll ['\\', 'u'] ++ (encodeAll cs ++ t) := by simpa using hrest
  refine quotedRound_escape (escape_entry hrest₁ hfit rfl (apply_term_matched ?_))
    (Cursor.rest_length_past_lt hrest (by simp))
  rw [show c.past ('\\' :: 'u' :: cs) = (c.past ['\\', 'u']).past cs from
    Cursor.past_append c ['\\', 'u'] cs]
  simp only [Term.attempt]
  exact hd

theorem unicodeBody_close (hrest : c.rest = encodeAll ['"'] ++ t) (hfit : c.position.Fits ['"']) :
    readQuotedBody '"' unicodeContent.contains
        (attemptEscapeStep (some ((unicodeEscapeTable .replace).toTerm '\\'))) c =
      .ok (.matched (c.past ['"']) (.ofChars [])) := by
  have hq : c.rest = String.utf8EncodeChar '"' ++ t := by simpa using hrest
  exact readQuotedBody_finished (quotedRound_closes (escape_absent hq (by decide)) hq hfit)

theorem unicodeBody_unit {ds more w : List Char} {u : Nat} (hs : Radix.hex.Spells ds 4 u)
    (hrest : c.rest = encodeAll ('\\' :: 'u' :: ds ++ more) ++ t)
    (hfit : c.position.Fits ('\\' :: 'u' :: ds ++ more))
    (halone : isHighSurrogate u = true → ¬ encode "\\u" <+: encodeAll more ++ t)
    (hb : readQuotedBody '"' unicodeContent.contains
        (attemptEscapeStep (some ((unicodeEscapeTable .replace).toTerm '\\')))
        (c.past ('\\' :: 'u' :: ds)) =
      .ok (.matched ((c.past ('\\' :: 'u' :: ds)).past more) (.ofChars w))) :
    readQuotedBody '"' unicodeContent.contains
        (attemptEscapeStep (some ((unicodeEscapeTable .replace).toTerm '\\'))) c =
      .ok (.matched (c.past ('\\' :: 'u' :: ds ++ more)) (.ofChars (unitScalar u :: w))) := by
  have hrest₁ : c.rest = encodeAll ('\\' :: 'u' :: ds) ++ (encodeAll more ++ t) := by
    simpa using hrest
  obtain ⟨hfit₁, -⟩ := hfit.append
  obtain ⟨hfit₂, hfit₃⟩ := (show c.position.Fits (['\\', 'u'] ++ ds) from hfit₁).append
  have hfit₄ : (c.past ['\\', 'u']).position.Fits ds := hfit₃
  have hd := readSurrogatePair_replace_alone (c := c.past ['\\', 'u'])
    (show _ = encodeAll ("".toList ++ ds) ++ (encodeAll more ++ t) by
      simpa using Cursor.rest_past_of_append (show c.rest = encodeAll (['\\', 'u'] ++ ds) ++ _
        from hrest₁))
    hs (by simpa only [String.toList_empty, List.nil_append] using hfit₄) halone
  simp only [String.toList_empty, List.nil_append] at hd
  rw [readQuotedBody_again (unicodeRound hd hrest₁ hfit₂) (Cursor.rest_length_past_lt hrest₁
    (by simp)) hb, Cursor.past_append, Capture.ofChars_cons]
  rfl

theorem unicodeBody_high {ds₁ ds₂ more w : List Char} {u l : Nat}
    (hs₁ : Radix.hex.Spells ds₁ 4 u) (hs₂ : Radix.hex.Spells ds₂ 4 l) (hh : isHighSurrogate u = true)
    (hrest : c.rest = encodeAll ('\\' :: 'u' :: ds₁ ++ '\\' :: 'u' :: ds₂ ++ more) ++ t)
    (hfit : c.position.Fits ('\\' :: 'u' :: ds₁ ++ '\\' :: 'u' :: ds₂ ++ more))
    (hb : readQuotedBody '"' unicodeContent.contains
        (attemptEscapeStep (some ((unicodeEscapeTable .replace).toTerm '\\')))
        (c.past ('\\' :: 'u' :: ds₁ ++ '\\' :: 'u' :: ds₂)) =
      .ok (.matched ((c.past ('\\' :: 'u' :: ds₁ ++ '\\' :: 'u' :: ds₂)).past more) (.ofChars w))) :
    readQuotedBody '"' unicodeContent.contains
        (attemptEscapeStep (some ((unicodeEscapeTable .replace).toTerm '\\'))) c =
      .ok (.matched (c.past ('\\' :: 'u' :: ds₁ ++ '\\' :: 'u' :: ds₂ ++ more))
        (.ofChars (pairedUtf16 [u, l] ++ w))) := by
  have hrest₁ : c.rest = encodeAll ('\\' :: 'u' :: (ds₁ ++ '\\' :: 'u' :: ds₂)) ++
      (encodeAll more ++ t) := by
    simpa using hrest
  obtain ⟨hfit₁, -⟩ := hfit.append
  obtain ⟨hfit₂, hfit₃⟩ :=
    (show c.position.Fits (['\\', 'u'] ++ (ds₁ ++ '\\' :: 'u' :: ds₂)) from hfit₁).append
  have hfit₄ : (c.past ['\\', 'u']).position.Fits (ds₁ ++ '\\' :: 'u' :: ds₂) := hfit₃
  have hd := readSurrogatePair_replace_high (c := c.past ['\\', 'u']) (l := l)
    (show _ = encodeAll ("".toList ++ ds₁ ++ "\\u".toList ++ ds₂) ++ (encodeAll more ++ t) by
      simpa using Cursor.rest_past_of_append
        (show c.rest = encodeAll (['\\', 'u'] ++ (ds₁ ++ '\\' :: 'u' :: ds₂)) ++ _ from hrest₁))
    hs₁ hs₂ (by simpa only [String.toList_empty, List.nil_append, show "\\u".toList = ['\\', 'u'] by decide,
      List.append_assoc, List.cons_append] using hfit₄) hh
  simp only [String.toList_empty, List.nil_append,
    show "\\u".toList = ['\\', 'u'] by decide, List.append_assoc, List.cons_append] at hd
  rw [readQuotedBody_again (unicodeRound hd hrest₁ hfit₂) (Cursor.rest_length_past_lt hrest₁
    (by simp)) (by simpa using hb), Cursor.past_append, Capture.ofChars_append]
  rfl

theorem quote_not_unicodeEscape (t : List UInt8) : ¬ encode "\\u" <+: encodeAll ['"'] ++ t := by
  rw [show encode "\\u" = [0x5C, 0x75] by decide, show encodeAll ['"'] = [0x22] by decide]
  simp [List.cons_prefix_cons]

theorem unicodeString_body {us : List Nat} {dss : List (List Char)}
    (h : List.Forall₂ (fun u ds => Radix.hex.Spells ds 4 u) us dss)
    (hrest : c.rest = encodeAll (unicodeEscapes dss ++ ['"']) ++ t)
    (hfit : c.position.Fits (unicodeEscapes dss ++ ['"'])) :
    readQuotedBody '"' unicodeContent.contains
        (attemptEscapeStep (some ((unicodeEscapeTable .replace).toTerm '\\'))) c =
      .ok (.matched (c.past (unicodeEscapes dss ++ ['"'])) (.ofChars (pairedUtf16 us))) := by
  induction us using pairedUtf16.induct generalizing dss c with
  | case1 =>
    cases h
    exact unicodeBody_close hrest hfit
  | case2 u =>
    obtain ⟨ds, rfl, hs⟩ : ∃ ds, dss = [ds] ∧ Radix.hex.Spells ds 4 u := by
      cases h with
      | cons hs h =>
        cases h
        exact ⟨_, rfl, hs⟩
    have htext : unicodeEscapes [ds] ++ ['"'] = '\\' :: 'u' :: ds ++ ['"'] := by simp
    rw [htext] at hrest hfit ⊢
    obtain ⟨-, hfit₂⟩ := hfit.append
    exact unicodeBody_unit hs hrest hfit (fun _ => quote_not_unicodeEscape t)
      (unicodeBody_close (Cursor.rest_past_of_append hrest) hfit₂)
  | case3 u l rest hh _ ih | case4 u l rest hh _ ih =>
    obtain ⟨ds₁, ds₂, dss, rfl, hs₁, hs₂, h⟩ : ∃ ds₁ ds₂ dss', dss = ds₁ :: ds₂ :: dss' ∧
        Radix.hex.Spells ds₁ 4 u ∧ Radix.hex.Spells ds₂ 4 l ∧
        List.Forall₂ (fun u ds => Radix.hex.Spells ds 4 u) rest dss' := by
      cases h with
      | cons hs₁ h =>
        cases h with
        | cons hs₂ h => exact ⟨_, _, _, rfl, hs₁, hs₂, h⟩
    have htext : unicodeEscapes (ds₁ :: ds₂ :: dss) ++ ['"'] =
        '\\' :: 'u' :: ds₁ ++ '\\' :: 'u' :: ds₂ ++ (unicodeEscapes dss ++ ['"']) := by simp
    rw [htext] at hrest hfit ⊢
    obtain ⟨-, hfit₂⟩ := hfit.append
    rw [pairedUtf16_high hh]
    exact unicodeBody_high hs₁ hs₂ hh hrest hfit (ih h (Cursor.rest_past_of_append hrest) hfit₂)
  | case5 u l rest hh ih =>
    obtain ⟨ds, dss, rfl, hs, h⟩ : ∃ ds dss', dss = ds :: dss' ∧ Radix.hex.Spells ds 4 u ∧
        List.Forall₂ (fun u ds => Radix.hex.Spells ds 4 u) (l :: rest) dss' := by
      cases h with
      | cons hs h => exact ⟨_, _, rfl, hs, h⟩
    have htext : unicodeEscapes (ds :: dss) ++ ['"'] =
        '\\' :: 'u' :: ds ++ (unicodeEscapes dss ++ ['"']) := by simp
    rw [htext] at hrest hfit ⊢
    obtain ⟨-, hfit₂⟩ := hfit.append
    have hnh : isHighSurrogate u = false := by simpa using hh
    rw [pairedUtf16_cons_of_not_high hnh]
    exact unicodeBody_unit hs hrest hfit (fun hu => absurd hu (by simp [hnh]))
      (ih h (Cursor.rest_past_of_append hrest) hfit₂)

end Body

/-- A run of `\u` escapes between quotes, followed by any bytes, is read to its closing quote and
no further, and writes its units decoded in pairs; the 32-bit line and column counts have to fit
the literal. -/
theorem unicodeString_reads_units (us : List Nat) (dss : List (List Char))
    (h : List.Forall₂ (fun u ds => Radix.hex.Spells ds 4 u) us dss) (suffix : List UInt8)
    (c : Cursor) (hrest : c.rest = encodeAll (unicodeLiteral dss) ++ suffix)
    (hfit : c.position.Fits (unicodeLiteral dss)) :
    (unicodeString .replace).attempt c = .ok (.matched
      { c with rest := suffix, offset := c.offset + (encodeAll (unicodeLiteral dss)).length,
               position := c.position.along (unicodeLiteral dss) } (.ofChars (pairedUtf16 us))) := by
  obtain ⟨hfit₁, hfit₂⟩ := Position.Fits.append (show c.position.Fits (['"'] ++ _) from hfit)
  have hq : c.rest = String.utf8EncodeChar '"' ++
      (encodeAll (unicodeEscapes dss ++ ['"']) ++ suffix) := by
    rw [hrest, unicodeLiteral]
    simp
  rw [unicodeString, quoted_opens hq (by decide) hfit₁,
    unicodeString_body h (Cursor.rest_past (by simpa using hq)) hfit₂, ← Cursor.past_append]
  exact congrArg _ (congrArg (Attempt.matched · _) (Cursor.past_eq hrest))

/-- Lenient `\u` escapes decode lossily where no high surrogate is followed by another high
surrogate and then a low one: a run of them between quotes, followed by any bytes, is read to its
closing quote and no further, and writes the lossy UTF-16 decoding of its units, a high surrogate
followed by a low one as the scalar they combine to and every other surrogate as U+FFFD. The
32-bit line and column counts have to fit the literal. -/
theorem lenient_unicode_escapes_decode_lossily (us : List Nat) (dss : List (List Char))
    (h : List.Forall₂ (fun u ds => Radix.hex.Spells ds 4 u) us dss)
    (hfree : hasHighBeforePair us = false) (suffix : List UInt8) (c : Cursor)
    (hrest : c.rest = encodeAll (unicodeLiteral dss) ++ suffix)
    (hfit : c.position.Fits (unicodeLiteral dss)) :
    (unicodeString .replace).attempt c = .ok (.matched
      { c with rest := suffix, offset := c.offset + (encodeAll (unicodeLiteral dss)).length,
               position := c.position.along (unicodeLiteral dss) } (.ofChars (lossyUtf16 us))) := by
  rw [← pairedUtf16_eq_lossyUtf16 hfree]
  exact unicodeString_reads_units us dss h suffix c hrest hfit

/-- `"A😀"`: a letter, then a high and a low surrogate, written as `A` and U+1F600. -/
theorem letter_and_pair_decode_lossily :
    List.Forall₂ (fun u ds => Radix.hex.Spells ds 4 u) [0x41, 0xD83D, 0xDE00]
        [['0', '0', '4', '1'], ['D', '8', '3', 'D'], ['d', 'e', '0', '0']] ∧
      hasHighBeforePair [0x41, 0xD83D, 0xDE00] = false ∧
      (unicodeString .replace).attempt (Cursor.init (encodeAll (unicodeLiteral
          [['0', '0', '4', '1'], ['D', '8', '3', 'D'], ['d', 'e', '0', '0']])) .lenient .start) =
        .ok (.matched ⟨[], 20, ⟨0, 20⟩, .lenient, none⟩ (.ofChars ['A', '😀'])) := by
  have h : List.Forall₂ (fun u ds => Radix.hex.Spells ds 4 u) [0x41, 0xD83D, 0xDE00]
      [['0', '0', '4', '1'], ['D', '8', '3', 'D'], ['d', 'e', '0', '0']] :=
    .cons (by decide) (.cons (by decide) (.cons (by decide) .nil))
  refine ⟨h, rfl, ?_⟩
  rw [lenient_unicode_escapes_decode_lossily _ _ h rfl [] _ (List.append_nil _).symm
    ⟨by decide, by decide⟩]
  rfl

/-- `"\uD800😀"`: the first high surrogate takes the second as its partner, so both are
U+FFFD, and the low surrogate after them is unpaired; lossy decoding pairs the second high
surrogate with the low one, as U+FFFD and U+1F600. -/
theorem high_surrogate_before_pair_splits_it :
    (unicodeString .replace).attempt (Cursor.init (encodeAll (unicodeLiteral
        [['D', '8', '0', '0'], ['D', '8', '3', 'D'], ['D', 'E', '0', '0']])) .lenient .start) =
      .ok (.matched ⟨[], 20, ⟨0, 20⟩, .lenient, none⟩ (.ofChars ['�', '�', '�'])) ∧
    lossyUtf16 [0xD800, 0xD83D, 0xDE00] = ['�', '😀'] := by
  have h : List.Forall₂ (fun u ds => Radix.hex.Spells ds 4 u) [0xD800, 0xD83D, 0xDE00]
      [['D', '8', '0', '0'], ['D', '8', '3', 'D'], ['D', 'E', '0', '0']] :=
    .cons (by decide) (.cons (by decide) (.cons (by decide) .nil))
  refine ⟨?_, by decide⟩
  rw [unicodeString_reads_units _ _ h [] _ (List.append_nil _).symm ⟨by decide, by decide⟩]
  rfl

end Lexer
