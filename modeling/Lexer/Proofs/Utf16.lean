import Mathlib
import Lexer.Proofs.Reading
/-! # UTF-16 escapes read exactly the well-formed units

A UTF-16 escape spells a scalar up to U+FFFF by its four digits, and one above by the digits of
its high and low surrogates (`Utf16Spelled`). Every spelling is read as the scalar it spells, and
where unpaired surrogates are rejected every match read one.
-/

namespace Lexer

open Utf8

/-! ## Surrogate pairs -/

/-- The high surrogate of a scalar above U+FFFF: its top ten bits above U+10000. -/
def highSurrogate (v : Nat) : Nat := 0xD800 + (v - 0x10000) / 0x400

/-- The low surrogate of a scalar above U+FFFF: its low ten bits above U+10000. -/
def lowSurrogate (v : Nat) : Nat := 0xDC00 + (v - 0x10000) % 0x400

section Pairs

variable {v high low : Nat}

theorem isHighSurrogate_iff : isHighSurrogate v = true ↔ 0xD800 ≤ v ∧ v ≤ 0xDBFF := by
  simp [isHighSurrogate]

theorem isLowSurrogate_iff : isLowSurrogate v = true ↔ 0xDC00 ≤ v ∧ v ≤ 0xDFFF := by
  simp [isLowSurrogate]

theorem isHighSurrogate_highSurrogate (h : v ≤ 0x10FFFF) :
    isHighSurrogate (highSurrogate v) = true := by
  rw [isHighSurrogate_iff, highSurrogate]
  omega

theorem isLowSurrogate_lowSurrogate (v : Nat) : isLowSurrogate (lowSurrogate v) = true := by
  rw [isLowSurrogate_iff, lowSurrogate]
  omega

theorem isLowSurrogate_of_isHighSurrogate (h : isHighSurrogate v = true) :
    isLowSurrogate v = false := by
  rw [isHighSurrogate_iff] at h
  simp only [isLowSurrogate, Bool.decide_and, Bool.and_eq_false_iff, decide_eq_false_iff_not]
  omega

theorem combineSurrogates_high_low (h₁ : 0x10000 ≤ v) (h₂ : v ≤ 0x10FFFF) :
    combineSurrogates (highSurrogate v) (lowSurrogate v) = v := by
  unfold combineSurrogates highSurrogate lowSurrogate
  omega

theorem highSurrogate_combine (hh : isHighSurrogate high = true) (hl : isLowSurrogate low = true) :
    highSurrogate (combineSurrogates high low) = high := by
  rw [isHighSurrogate_iff] at hh
  rw [isLowSurrogate_iff] at hl
  unfold highSurrogate combineSurrogates
  omega

theorem lowSurrogate_combine (hl : isLowSurrogate low = true) :
    lowSurrogate (combineSurrogates high low) = low := by
  rw [isLowSurrogate_iff] at hl
  unfold lowSurrogate combineSurrogates
  omega

theorem combineSurrogates_mem (high low : Nat) :
    0x10000 ≤ combineSurrogates high low ∧ combineSurrogates high low ≤ 0x10FFFF := by
  unfold combineSurrogates
  omega

theorem isValidChar_combineSurrogates (high low : Nat) :
    (combineSurrogates high low).isValidChar := by
  have := combineSurrogates_mem high low
  simp only [Nat.isValidChar]
  omega

/-- `combineSurrogates` is a bijection from the pairs of a high and a low surrogate onto the scalars
above U+FFFF. -/
theorem combineSurrogates_bijOn :
    Set.BijOn (fun p : Nat × Nat => combineSurrogates p.1 p.2)
      (Set.Icc 0xD800 0xDBFF ×ˢ Set.Icc 0xDC00 0xDFFF) (Set.Icc 0x10000 0x10FFFF) := by
  refine ⟨fun p hp => ?_, fun p hp q hq hpq => ?_, fun v hv => ?_⟩
  · exact combineSurrogates_mem p.1 p.2
  · have hp₁ := isHighSurrogate_iff.2 hp.1
    have hp₂ := isLowSurrogate_iff.2 hp.2
    have hq₁ := isHighSurrogate_iff.2 hq.1
    have hq₂ := isLowSurrogate_iff.2 hq.2
    simp only at hpq
    have hhigh : p.1 = q.1 := by
      rw [← highSurrogate_combine hp₁ hp₂, hpq, highSurrogate_combine hq₁ hq₂]
    have hlow : p.2 = q.2 :=
      calc p.2 = lowSurrogate (combineSurrogates p.1 p.2) := (lowSurrogate_combine hp₂).symm
        _ = lowSurrogate (combineSurrogates q.1 q.2) := by rw [hpq]
        _ = q.2 := lowSurrogate_combine hq₂
    exact Prod.ext hhigh hlow
  · refine ⟨(highSurrogate v, lowSurrogate v), ⟨?_, ?_⟩, combineSurrogates_high_low hv.1 hv.2⟩
    · exact isHighSurrogate_iff.1 (isHighSurrogate_highSurrogate hv.2)
    · exact isLowSurrogate_iff.1 (isLowSurrogate_lowSurrogate v)

end Pairs

theorem not_surrogate_toNat (ch : Char) :
    isHighSurrogate ch.toNat = false ∧ isLowSurrogate ch.toNat = false := by
  have h := ch.valid
  simp only [UInt32.isValidChar, Nat.isValidChar] at h
  change isHighSurrogate ch.val.toNat = false ∧ isLowSurrogate ch.val.toNat = false
  simp only [isHighSurrogate, isLowSurrogate, Bool.decide_and, Bool.and_eq_false_iff,
    decide_eq_false_iff_not]
  omega

theorem isValidChar_of_not_surrogate {u : Nat} (hu : u < 0x10000) (hh : isHighSurrogate u = false)
    (hl : isLowSurrogate u = false) : u.isValidChar := by
  simp only [isHighSurrogate, isLowSurrogate, Bool.decide_and, Bool.and_eq_false_iff,
    decide_eq_false_iff_not] at hh hl
  simp only [Nat.isValidChar]
  omega

theorem writeScalar_matched {c : Cursor} {u : Nat} (h : (writeScalar c u).outcome = .matched) :
    writeScalar c u = .matched c (.ofChar (Char.ofNat u)) ∧ u.isValidChar := by
  unfold writeScalar at h ⊢
  split
  · next hv => exact ⟨rfl, hv⟩
  · next hv => simp [hv] at h

/-! ## Spellings -/

/-- The ways a UTF-16 escape with the introducers `first` and `second` spells a scalar. -/
inductive Utf16Spelled (first second : String) : Char → List Char → Prop where
  | single {ch : Char} {ds : List Char} : ch.toNat < 0x10000 → Radix.hex.Spells ds 4 ch.toNat →
      Utf16Spelled first second ch (first.toList ++ ds)
  | pair {ch : Char} {ds₁ ds₂ : List Char} : 0x10000 ≤ ch.toNat →
      Radix.hex.Spells ds₁ 4 (highSurrogate ch.toNat) →
      Radix.hex.Spells ds₂ 4 (lowSurrogate ch.toNat) →
      Utf16Spelled first second ch (first.toList ++ ds₁ ++ second.toList ++ ds₂)

/-- A spelling spells one scalar only: the digits of each unit stand at fixed places, and the
pair of surrogates determines the scalar. -/
theorem Utf16Spelled.unique {first second : String} {ch ch' : Char} {text : List Char}
    (h : Utf16Spelled first second ch text) (h' : Utf16Spelled first second ch' text) :
    ch' = ch := by
  cases h with
  | @single ds _ hs =>
    generalize htext : first.toList ++ ds = text at h'
    cases h' with
    | @single ds' _ hs' =>
      obtain rfl : ds' = ds := (List.append_cancel_left htext).symm
      exact Char.toNat_inj.1 (hs'.value_eq.symm.trans hs.value_eq)
    | @pair ds₁ ds₂ _ hs₁ hs₂ =>
      have hlen := congrArg List.length htext
      simp only [List.length_append, hs.length_eq, hs₁.length_eq, hs₂.length_eq] at hlen
      omega
  | @pair ds₁ ds₂ hge hs₁ hs₂ =>
    generalize htext : first.toList ++ ds₁ ++ second.toList ++ ds₂ = text at h'
    cases h' with
    | @single ds _ hs =>
      have hlen := congrArg List.length htext
      simp only [List.length_append, hs.length_eq, hs₁.length_eq, hs₂.length_eq] at hlen
      omega
    | @pair ds₁' ds₂' hge' hs₁' hs₂' =>
      have hrest : ds₁ ++ (second.toList ++ ds₂) = ds₁' ++ (second.toList ++ ds₂') := by
        simpa only [List.append_assoc, List.append_cancel_left_eq] using htext
      obtain ⟨rfl, htail⟩ := List.append_inj hrest (hs₁.length_eq.trans hs₁'.length_eq.symm)
      obtain rfl : ds₂ = ds₂' := List.append_cancel_left htail
      rw [← Char.toNat_inj, ← combineSurrogates_high_low hge' (Nat.le_of_lt_succ (toNat_lt_max ch')),
        ← combineSurrogates_high_low hge (Nat.le_of_lt_succ (toNat_lt_max ch)), ← hs₁'.value_eq,
        ← hs₂'.value_eq, hs₁.value_eq, hs₂.value_eq]

/-! ## Reading an escape -/

section Read

variable {c c₁ c₂ c₃ c₄ : Cursor} {first second : String} {policy : UnpairedPolicy}

theorem readSurrogatePair_single {u : Nat} (hl : c.leap first = .ok (true, c₁))
    (hu : readUnit c₁ (!first.isEmpty) = .ok (.ok u, c₂)) (hh : isHighSurrogate u = false)
    (hlo : isLowSurrogate u = false) :
    readSurrogatePair c first second policy = .ok (writeScalar c₂ u) := by
  unfold readSurrogatePair
  simp only [hl, hu, hh, hlo, bind, Except.bind, pure, Except.pure]
  rfl

theorem readSurrogatePair_pair {high low : Nat} (hl : c.leap first = .ok (true, c₁))
    (hu : readUnit c₁ (!first.isEmpty) = .ok (.ok high, c₂)) (hh : isHighSurrogate high = true)
    (hl₂ : c₂.leap second = .ok (true, c₃)) (hu₂ : readUnit c₃ true = .ok (.ok low, c₄))
    (hlo : isLowSurrogate low = true) :
    readSurrogatePair c first second policy = .ok (writeScalar c₄ (combineSurrogates high low)) := by
  unfold readSurrogatePair
  simp only [hl, hu, hh, isLowSurrogate_of_isHighSurrogate hh, hl₂, hu₂, hlo, bind, Except.bind,
    pure, Except.pure]
  rfl

/-- Where unpaired surrogates are rejected, a match read `first` and either a unit that is no
surrogate, or a high surrogate, `second` and a low surrogate. -/
theorem readSurrogatePair_matched {a : Attempt}
    (h : readSurrogatePair c first second .reject = .ok a) (hm : a.outcome = .matched) :
    ∃ c₁ high c₂, c.leap first = .ok (true, c₁) ∧
      readUnit c₁ (!first.isEmpty) = .ok (.ok high, c₂) ∧
      ((isHighSurrogate high = false ∧ isLowSurrogate high = false ∧ a = writeScalar c₂ high) ∨
        ∃ c₃ low c₄, isHighSurrogate high = true ∧ c₂.leap second = .ok (true, c₃) ∧
          readUnit c₃ true = .ok (.ok low, c₄) ∧ isLowSurrogate low = true ∧
          a = writeScalar c₄ (combineSurrogates high low)) := by
  unfold readSurrogatePair at h
  obtain ⟨⟨ok, c₁⟩, hl, h⟩ := bind_eq_ok.1 h
  cases ok
  · simp [pure_eq_ok] at h
    simp [← h] at hm
  obtain ⟨⟨unit, c₂⟩, hu, h⟩ := bind_eq_ok.1 h
  rcases unit with why | high
  · simp [pure_eq_ok] at h
    simp [← h] at hm
  refine ⟨c₁, high, c₂, hl, hu, ?_⟩
  dsimp only at h
  split at h
  · simp [unpairedSurrogate, pure_eq_ok] at h
    simp [← h] at hm
  · next hlo =>
    split at h
    · next hh => exact .inl ⟨by simpa using hh, by simpa using hlo, (pure_eq_ok.1 h).symm⟩
    · next hh =>
      obtain ⟨⟨ok, c₃⟩, hl₂, h⟩ := bind_eq_ok.1 h
      cases ok
      · simp [unpairedSurrogate, pure_eq_ok] at h
        simp [← h] at hm
      obtain ⟨⟨unit, c₄⟩, hu₂, h⟩ := bind_eq_ok.1 h
      rcases unit with why | low
      · simp [pure_eq_ok] at h
        simp [← h] at hm
      dsimp only at h
      split at h
      · next hlow =>
        exact .inr ⟨c₃, low, c₄, by simpa using hh, hl₂, hu₂, hlow, (pure_eq_ok.1 h).symm⟩
      · simp [pure_eq_ok] at h
        simp [← h] at hm

theorem readSurrogatePair_low {u : Nat} (hl : c.leap first = .ok (true, c₁))
    (hu : readUnit c₁ (!first.isEmpty) = .ok (.ok u, c₂)) (hlo : isLowSurrogate u = true) :
    readSurrogatePair c first second policy = .ok (unpairedSurrogate c₂ policy) := by
  unfold readSurrogatePair
  simp only [hl, hu, hlo, bind, Except.bind, pure, Except.pure]
  rfl

theorem readSurrogatePair_stranded {high : Nat} (hl : c.leap first = .ok (true, c₁))
    (hu : readUnit c₁ (!first.isEmpty) = .ok (.ok high, c₂)) (hh : isHighSurrogate high = true)
    (hl₂ : c₂.leap second = .ok (false, c₃)) :
    readSurrogatePair c first second policy = .ok (unpairedSurrogate c₃ policy) := by
  unfold readSurrogatePair
  simp only [hl, hu, hh, isLowSurrogate_of_isHighSurrogate hh, hl₂, bind, Except.bind, pure,
    Except.pure]
  rfl

/-- Where unpaired surrogates are replaced, a high surrogate whose partner is no low surrogate is
U+FFFD, and the partner, already read, stands on its own. -/
theorem readSurrogatePair_mismatch {high low : Nat} (hl : c.leap first = .ok (true, c₁))
    (hu : readUnit c₁ (!first.isEmpty) = .ok (.ok high, c₂)) (hh : isHighSurrogate high = true)
    (hl₂ : c₂.leap second = .ok (true, c₃)) (hu₂ : readUnit c₃ true = .ok (.ok low, c₄))
    (hlo : isLowSurrogate low = false) :
    readSurrogatePair c first second .replace = .ok ((if isHighSurrogate low = true then
      unpairedSurrogate c₄ .replace else writeScalar c₄ low).after (.ofChar '�')) := by
  unfold readSurrogatePair
  simp only [hl, hu, hh, isLowSurrogate_of_isHighSurrogate hh, hl₂, hu₂, hlo, bind, Except.bind,
    pure, Except.pure]
  rfl

variable {ds ds₁ ds₂ : List Char} {t : List UInt8} {u u₁ u₂ : Nat}

theorem spelled_unit_reads (hrest : c.rest = encodeAll (first.toList ++ ds) ++ t)
    (hs : Radix.hex.Spells ds 4 u) (hfit : c.position.Fits (first.toList ++ ds)) :
    ∃ c₁, c.leap first = .ok (true, c₁) ∧
      ∀ committed, readUnit c₁ committed = .ok (.ok u, c.past (first.toList ++ ds)) := by
  obtain ⟨hfit₁, hfit₂⟩ := hfit.append
  refine ⟨_, Cursor.leap_spelled (show c.rest = encodeAll first.toList ++ _ by simpa using hrest)
    hfit₁, fun committed => ?_⟩
  rw [Cursor.past_append]
  exact readUnit_spelled (Cursor.rest_past_of_append hrest) hs hfit₂ committed

theorem spelled_pair_reads (hrest : c.rest = encodeAll (first.toList ++ ds₁ ++ second.toList ++ ds₂) ++ t)
    (hs₁ : Radix.hex.Spells ds₁ 4 u₁) (hs₂ : Radix.hex.Spells ds₂ 4 u₂)
    (hfit : c.position.Fits (first.toList ++ ds₁ ++ second.toList ++ ds₂)) :
    ∃ c₁ c₂ c₃, c.leap first = .ok (true, c₁) ∧ readUnit c₁ (!first.isEmpty) = .ok (.ok u₁, c₂) ∧
      c₂.leap second = .ok (true, c₃) ∧
      readUnit c₃ true = .ok (.ok u₂, c.past (first.toList ++ ds₁ ++ second.toList ++ ds₂)) := by
  have hrest' : c.rest = encodeAll ((first.toList ++ ds₁) ++ (second.toList ++ ds₂)) ++ t := by
    simpa using hrest
  have hfit' : c.position.Fits ((first.toList ++ ds₁) ++ (second.toList ++ ds₂)) := by
    simpa only [List.append_assoc] using hfit
  obtain ⟨hfit₁, hfit₂⟩ := hfit'.append
  obtain ⟨c₁, hl, hu⟩ := spelled_unit_reads (by simpa using hrest') hs₁ hfit₁
  obtain ⟨c₃, hl₂, hu₂⟩ := spelled_unit_reads (Cursor.rest_past_of_append hrest') hs₂ hfit₂
  refine ⟨c₁, _, c₃, hl, hu _, hl₂, ?_⟩
  rw [hu₂, ← Cursor.past_append, List.append_assoc, List.append_assoc, List.append_assoc]

/-- Every spelling of a scalar is read to its end, whatever follows it and whatever is done with
unpaired surrogates, and writes the scalar. -/
theorem readSurrogatePair_spelled {ch : Char} {text : List Char}
    (h : Utf16Spelled first second ch text) (hrest : c.rest = encodeAll text ++ t)
    (hfit : c.position.Fits text) :
    readSurrogatePair c first second policy = .ok (.matched (c.past text) (.ofChar ch)) := by
  cases h with
  | @single ds hlt hs =>
    obtain ⟨c₁, hl, hu⟩ := spelled_unit_reads hrest hs hfit
    obtain ⟨hh, hlo⟩ := not_surrogate_toNat ch
    rw [readSurrogatePair_single hl (hu _) hh hlo, writeScalar_toNat]
  | @pair ds₁ ds₂ hge hs₁ hs₂ =>
    have hle := Nat.le_of_lt_succ (toNat_lt_max ch)
    obtain ⟨c₁, c₂, c₃, hl, hu, hl₂, hu₂⟩ := spelled_pair_reads hrest hs₁ hs₂ hfit
    rw [readSurrogatePair_pair hl hu (isHighSurrogate_highSurrogate hle) hl₂ hu₂
      (isLowSurrogate_lowSurrogate _), combineSurrogates_high_low hge hle, writeScalar_toNat]

/-- Where unpaired surrogates are rejected, every match read a spelling of a scalar and wrote that
scalar. -/
theorem readSurrogatePair_reads {a : Attempt} (h : readSurrogatePair c first second .reject = .ok a)
    (hm : a.outcome = .matched) :
    ∃ ch text, Utf16Spelled first second ch text ∧ c.rest = encodeAll text ++ a.cursor.rest ∧
      a.cursor = c.past text ∧ a.written = .ofChar ch := by
  obtain ⟨c₁, high, c₂, hl, hu, hread⟩ := readSurrogatePair_matched h hm
  obtain ⟨hr₁, rfl⟩ := Cursor.leap_reads hl
  obtain ⟨ds₁, hs₁, hr₂, rfl⟩ := readUnit_reads hu
  rcases hread with ⟨hh, hlo, rfl⟩ | ⟨c₃, low, c₄, hh, hl₂, hu₂, hlow, rfl⟩
  · have hlt : high < 0x10000 := hs₁.lt
    obtain ⟨hw, hv⟩ := writeScalar_matched hm
    have hch : (Char.ofNat high).toNat = high := toNat_ofNat_of_valid hv
    have hsp : Utf16Spelled first second (Char.ofNat high) (first.toList ++ ds₁) :=
      .single (by rwa [hch]) (by rwa [hch])
    refine ⟨_, _, hsp, ?_, ?_, ?_⟩ <;> rw [hw]
    · rw [Attempt.matched_cursor, hr₁, hr₂, encodeAll_append, List.append_assoc]
    · rw [Attempt.matched_cursor, Cursor.past_append]
    · rfl
  · obtain ⟨hr₃, rfl⟩ := Cursor.leap_reads hl₂
    obtain ⟨ds₂, hs₂, hr₄, rfl⟩ := readUnit_reads hu₂
    obtain ⟨hw, hv⟩ := writeScalar_matched hm
    have hch : (Char.ofNat (combineSurrogates high low)).toNat = combineSurrogates high low :=
      toNat_ofNat_of_valid hv
    have hsp : Utf16Spelled first second (Char.ofNat (combineSurrogates high low))
        (first.toList ++ ds₁ ++ second.toList ++ ds₂) := by
      refine .pair (by rw [hch]; exact (combineSurrogates_mem high low).1) ?_ ?_
      · rwa [hch, highSurrogate_combine hh hlow]
      · rwa [hch, lowSurrogate_combine hlow]
    refine ⟨_, _, hsp, ?_, ?_, ?_⟩ <;> rw [hw]
    · rw [Attempt.matched_cursor, hr₁, hr₂, hr₃, hr₄]
      simp only [encodeAll_append, List.append_assoc]
    · rw [Attempt.matched_cursor]
      simp only [Cursor.past_append]
    · rfl

end Read

/-- The UTF-16 escape reads exactly the well-formed units. Every spelling of a scalar (after
`first`, the four hexadecimal digits of a scalar up to U+FFFF, or those of the high surrogate of
a scalar above it, then `second` and those of its low surrogate, digits in either case), followed
by any bytes, is read to its end and no further and writes the scalar, whatever is done with
unpaired surrogates; the 32-bit line and column counts have to fit the spelling. Conversely,
where unpaired surrogates are rejected, every match read a spelling of a single scalar and wrote
that scalar. And `combineSurrogates` maps the pairs of a high and a low surrogate one to one onto
the scalars above U+FFFF, inverting the split of a scalar into its surrogates. -/
theorem surrogatePair_reads_exactly_spelled_scalars :
    (∀ (first second : String) (policy : UnpairedPolicy) (ch : Char) (text : List Char)
        (suffix : List UInt8) (c : Cursor),
      Utf16Spelled first second ch text → c.rest = encodeAll text ++ suffix →
      c.position.Fits text →
      (Term.surrogatePair first second policy).attempt c = .ok (.matched
        { c with rest := suffix, offset := c.offset + (encodeAll text).length,
                 position := c.position.along text } (.ofChar ch))) ∧
    (∀ (first second : String) (c : Cursor) (a : Attempt),
      (Term.surrogatePair first second .reject).attempt c = .ok a → a.outcome = .matched →
      ∃ ch text, Utf16Spelled first second ch text ∧ c.rest = encodeAll text ++ a.cursor.rest ∧
        a.cursor = c.past text ∧ a.written = .ofChar ch ∧
        ∀ ch', Utf16Spelled first second ch' text → ch' = ch) ∧
    Set.BijOn (fun p : Nat × Nat => combineSurrogates p.1 p.2)
      (Set.Icc 0xD800 0xDBFF ×ˢ Set.Icc 0xDC00 0xDFFF) (Set.Icc 0x10000 0x10FFFF) ∧
    ∀ v, 0x10000 ≤ v → v ≤ 0x10FFFF →
      combineSurrogates (highSurrogate v) (lowSurrogate v) = v := by
  refine ⟨fun first second policy ch text suffix c h hrest hfit => ?_,
    fun first second c a h hm => ?_, combineSurrogates_bijOn,
    fun v h₁ h₂ => combineSurrogates_high_low h₁ h₂⟩
  · simp only [Term.attempt]
    rw [readSurrogatePair_spelled h hrest hfit, Cursor.past_eq hrest]
  · simp only [Term.attempt] at h
    obtain ⟨ch, text, hsp, hrest, hcur, hw⟩ := readSurrogatePair_reads h hm
    exact ⟨ch, text, hsp, hrest, hcur, hw, fun ch' h' => hsp.unique h'⟩

/-- U+1F600 as the pair of units D83D and de00, each after a backslash and a `u`. -/
theorem grinning_face_reads_as_surrogate_pair :
    Utf16Spelled "\\u" "\\u" '😀' ("\\u".toList ++ ['D', '8', '3', 'D'] ++ "\\u".toList ++
      ['d', 'e', '0', '0']) ∧
    (Term.surrogatePair "\\u" "\\u" .reject).attempt (Cursor.init (encodeAll ("\\u".toList ++
        ['D', '8', '3', 'D'] ++ "\\u".toList ++ ['d', 'e', '0', '0'])) .strict .start) =
      .ok (.matched ⟨[], 12, ⟨0, 12⟩, .strict, none⟩ (.ofChar '😀')) := by
  have h : Utf16Spelled "\\u" "\\u" '😀' ("\\u".toList ++ ['D', '8', '3', 'D'] ++ "\\u".toList ++
      ['d', 'e', '0', '0']) := .pair (by decide) (by decide) (by decide)
  refine ⟨h, ?_⟩
  rw [surrogatePair_reads_exactly_spelled_scalars.1 _ _ _ _ _ [] _ h (List.append_nil _).symm
    ⟨by decide, by decide⟩]
  rfl

end Lexer
