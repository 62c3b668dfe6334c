import Mathlib
import Lexer.Proofs.Numeral
/-! # Digit decoders read bounded runs

Each digit decoder reads at most a fixed number `k` of the digits at the cursor, the first
`min n k` of a run of `n` (`Cursor.pastDigits`), and then judges them. Since `k` digits are worth
less than the radix to the power `k`, none of their scans sets the overflow flag.
-/

namespace Lexer

open Utf8

theorem Radix.valueFrom_take_lt {r : Radix} {ds : List Char} (h : ∀ d ∈ ds, r.isDigit d = true)
    (k : Nat) : r.valueFrom 0 (ds.take k) < r.val ^ k := by
  have hlt : r.valueFrom 0 (ds.take k) < (0 + 1) * r.val ^ (ds.take k).length :=
    r.valueFrom_lt (fun d hd => h d (List.mem_of_mem_take hd)) 0
  rw [Nat.zero_add, Nat.one_mul] at hlt
  exact Nat.lt_of_lt_of_le hlt
    (Nat.pow_le_pow_right (by have := r.two_le; omega) (List.length_take_le k ds))

/-- The hexadecimal digits that spell a width hold every value of it and no more. -/
theorem Width.max_add_one_eq (w : Width) : w.max + 1 = 16 ^ w.hexDigits := by
  cases w <;> rfl

theorem Radix.hex_valueFrom_take_le_max {ds : List Char}
    (h : ∀ d ∈ ds, Radix.hex.isDigit d = true) (w : Width) :
    Radix.hex.valueFrom 0 (ds.take w.hexDigits) ≤ w.max := by
  have hlt := Radix.valueFrom_take_lt h w.hexDigits
  have hmax := w.max_add_one_eq
  have h16 : Radix.hex.val = 16 := rfl
  rw [h16] at hlt
  omega

namespace Cursor

@[simp] theorem peek_snd_rest (c : Cursor) : c.peek.2.rest = c.rest := by
  rcases scan_snd c with h | ⟨-, n, h⟩
  · exact congrArg Cursor.rest h
  · exact (congrArg Cursor.rest h).trans (noteFault_rest c n)

theorem pastDigits_rest {c : Cursor} {r : Radix} {ds : List Char} {t : List UInt8}
    (hrun : r.LeadingRun c.rest ds t) (k : Nat) :
    (c.pastDigits ds k).rest = encodeAll (ds.drop k) ++ t ∧
      (c.pastDigits ds k).offset = c.offset + (encodeAll (ds.take k)).length := by
  have hsplit := hrun.spelled_take_drop k
  unfold pastDigits
  by_cases hlt : ds.length < k
  · rw [if_pos hlt, pastRun, peek_snd_rest, peek_snd_offset]
    rw [List.take_of_length_le hlt.le] at hsplit ⊢
    exact ⟨rest_past hsplit, rfl⟩
  · rw [if_neg hlt]
    exact ⟨rest_past hsplit, rfl⟩

end Cursor

namespace Accumulator

/-- A fresh accumulator takes digits worth at most its ceiling exactly, and never sets its flag. -/
theorem init_foldl_take_of_le {r : Radix} {ceiling : Nat} {ds : List Char}
    (hdig : ∀ d ∈ ds, r.isDigit d = true) (hbound : r.val ^ ds.length ≤ ceiling + 1) :
    ds.foldl take (init r ceiling) = ⟨r, ceiling, r.valueFrom 0 ds, ds.length, false⟩ := by
  have hlt := r.valueFrom_lt hdig 0
  rw [Nat.zero_add, Nat.one_mul] at hlt
  rw [foldl_take (a := init r ceiling) hdig rfl (by simp only [init]; omega)]
  simp [init]

variable {c : Cursor} {ds : List Char} {t : List UInt8}

/-- A fresh accumulator whose ceiling holds every value of `k` digits reads the first `k` digits
of the run, or all of a shorter one, and holds their value. -/
theorem init_scan_upTo {r : Radix} {ceiling k : Nat} (hrun : r.LeadingRun c.rest ds t)
    (hbound : r.val ^ k ≤ ceiling + 1) (hfit : c.position.Fits (ds.take k)) :
    (init r ceiling).scan c (some k) = .ok ((⟨r, ceiling, r.valueFrom 0 (ds.take k),
      (ds.take k).length, false⟩, ds.take k), c.pastDigits ds k) := by
  have h := scan_upTo (a := init r ceiling) hrun (Nat.zero_le k) hfit
  have hpow : r.val ^ (ds.take k).length ≤ r.val ^ k :=
    Nat.pow_le_pow_right (by have := r.two_le; omega) (List.length_take_le k ds)
  rw [show k - (init r ceiling).count = k from Nat.sub_zero k,
    init_foldl_take_of_le (fun d hd => hrun.digits d (List.mem_of_mem_take hd))
      (hpow.trans hbound)] at h
  exact h

end Accumulator

variable {c : Cursor} {ds : List Char} {t : List UInt8}

theorem extractHex_upTo {k : Nat} (hk : k ≤ 8) (hrun : Radix.hex.LeadingRun c.rest ds t)
    (hfit : c.position.Fits (ds.take k)) :
    extractHex c (some k) = .ok (⟨Radix.hex, extractCeiling, Radix.hex.valueFrom 0 (ds.take k),
      (ds.take k).length, false⟩, c.pastDigits ds k) := by
  have hbound : Radix.hex.val ^ k ≤ extractCeiling + 1 :=
    (Nat.pow_le_pow_right (by decide) hk).trans (by decide)
  unfold extractHex
  rw [Accumulator.init_scan_upTo hrun hbound hfit]
  rfl

theorem extractOctal_upTo {k : Nat} (hk : k ≤ 10) (hrun : Radix.octal.LeadingRun c.rest ds t)
    (hfit : c.position.Fits (ds.take k)) :
    extractOctal c (some k) = .ok (⟨Radix.octal, extractCeiling,
      Radix.octal.valueFrom 0 (ds.take k), (ds.take k).length, false⟩, c.pastDigits ds k) := by
  have hbound : Radix.octal.val ^ k ≤ extractCeiling + 1 :=
    (Nat.pow_le_pow_right (by decide) hk).trans (by decide)
  unfold extractOctal
  rw [Accumulator.init_scan_upTo hrun hbound hfit]
  rfl

/-! ## The decoders -/

theorem readHexByte_run (hrun : Radix.hex.LeadingRun c.rest ds t)
    (hfit : c.position.Fits (ds.take 2)) :
    readHexByte c = .ok (if ds = [] then .failed .unmatched (c.pastDigits ds 2) .empty
      else if ds.length < 2 then .failed .incomplete (c.pastDigits ds 2) .empty
      else .matched (c.pastDigits ds 2) (.ofByte (Radix.hex.valueFrom 0 (ds.take 2)).toUInt8)) := by
  have hbyte : Radix.hex.valueFrom 0 (ds.take 2) < 256 := Radix.valueFrom_take_lt hrun.digits 2
  unfold readHexByte
  rw [extractHex_upTo (by decide) hrun hfit]
  simp only [bind, Except.bind, pure, Except.pure, List.length_take]
  by_cases h₀ : ds = []
  · simp [h₀]
  · have hpos := List.length_pos_of_ne_nil h₀
    by_cases h₁ : ds.length < 2
    · simp [h₀, h₁, show min 2 ds.length = 1 by omega]
    · simp [h₀, h₁, show min 2 ds.length = 2 by omega, writeByte, hbyte]

theorem readHexScalar4_run (hrun : Radix.hex.LeadingRun c.rest ds t)
    (hfit : c.position.Fits (ds.take 4)) :
    readHexScalar4 c = .ok (if ds = [] then .failed .unmatched (c.pastDigits ds 4) .empty
      else if ds.length < 4 then .failed .invalid (c.pastDigits ds 4) .empty
      else writeScalar (c.pastDigits ds 4) (Radix.hex.valueFrom 0 (ds.take 4))) := by
  unfold readHexScalar4
  rw [extractHex_upTo (by decide) hrun hfit]
  simp only [bind, Except.bind, pure, Except.pure, List.length_take]
  by_cases h₀ : ds = []
  · simp [h₀]
  · have hpos := List.length_pos_of_ne_nil h₀
    by_cases h₁ : ds.length < 4
    · simp [h₀, h₁, show min 4 ds.length ≠ 0 by omega, show min 4 ds.length ≠ 4 by omega]
    · simp [h₀, h₁, show min 4 ds.length = 4 by omega]

theorem readHexScalar8_run (hrun : Radix.hex.LeadingRun c.rest ds t)
    (hfit : c.position.Fits (ds.take 8)) :
    readHexScalar8 c = .ok (if ds = [] then .failed .unmatched (c.pastDigits ds 8) .empty
      else if ds.length < 8 then .failed .incomplete (c.pastDigits ds 8) .empty
      else writeScalar (c.pastDigits ds 8) (Radix.hex.valueFrom 0 (ds.take 8))) := by
  unfold readHexScalar8
  rw [extractHex_upTo le_rfl hrun hfit]
  simp only [bind, Except.bind, pure, Except.pure, List.length_take]
  by_cases h₀ : ds = []
  · simp [h₀]
  · have hpos := List.length_pos_of_ne_nil h₀
    by_cases h₁ : ds.length < 8
    · simp [h₀, h₁, show min 8 ds.length ≠ 0 by omega, show min 8 ds.length ≠ 8 by omega]
    · simp [h₀, h₁, show min 8 ds.length = 8 by omega]

/-- One to three octal digits for a byte: what is read is decoded as it stands, and a value above
`0xFF` is `invalid`. -/
theorem readOctalByte_run (hrun : Radix.octal.LeadingRun c.rest ds t)
    (hfit : c.position.Fits (ds.take 3)) :
    readOctalByte c = .ok (if ds = [] then .failed .unmatched (c.pastDigits ds 3) .empty
      else writeByte (c.pastDigits ds 3) (Radix.octal.valueFrom 0 (ds.take 3))) := by
  unfold readOctalByte
  rw [extractOctal_upTo (by decide) hrun hfit]
  simp only [bind, Except.bind, pure, Except.pure, List.length_take]
  by_cases h₀ : ds = []
  · simp [h₀]
  · have hpos := List.length_pos_of_ne_nil h₀
    simp [h₀, show min 3 ds.length ≠ 0 by omega]

theorem readHexByteRun_run (hrun : Radix.hex.LeadingRun c.rest ds t) (hfit : c.position.Fits ds) :
    readHexByteRun c = .ok (if ds = [] then .failed .unmatched (c.pastRun ds) .empty
      else if 0xFF < Radix.hex.valueFrom 0 ds then .failed .invalid (c.pastRun ds) .empty
      else .matched (c.pastRun ds) (.ofByte (Radix.hex.valueFrom 0 ds).toUInt8)) := by
  obtain ⟨hcount, hiff, hval⟩ :=
    @Accumulator.init_foldl_take _ extractCeiling _ hrun.digits
  unfold readHexByteRun extractHex
  rw [Accumulator.scan_run hrun rfl hfit]
  simp only [bind, Except.bind, pure, Except.pure, hcount, List.length_eq_zero_iff]
  by_cases h₀ : ds = []
  · simp [h₀]
  · by_cases hov : extractCeiling < Radix.hex.valueFrom 0 ds
    · have hbig : 0xFF < Radix.hex.valueFrom 0 ds := by unfold extractCeiling at hov; omega
      simp [h₀, hiff.2 hov, hbig]
    · have hclear : (ds.foldl Accumulator.take
          (Accumulator.init Radix.hex extractCeiling)).overflow = false :=
        Bool.eq_false_iff.2 fun hset => hov (hiff.1 hset)
      by_cases hv : 0xFF < Radix.hex.valueFrom 0 ds
      · simp [h₀, hclear, hval hclear, writeByte, hv,
          show ¬ Radix.hex.valueFrom 0 ds < 256 by omega]
      · simp [h₀, hclear, hval hclear, writeByte, hv, show Radix.hex.valueFrom 0 ds < 256 by omega]

theorem readFixedHex_absent {lead : String} {w : Width}
    (h : ¬ ∃ d, Radix.hex.isDigit d = true ∧ encode lead ++ String.utf8EncodeChar d <+: c.rest) :
    readFixedHex c lead w = .ok (.failed .unmatched c .empty) := by
  unfold readFixedHex readLeadDigit
  rw [Cursor.leapFetch_absent h]
  rfl

/-- After its lead text, a fixed-width numeral reads as many hexadecimal digits as spell its
width, or the whole run if it is shorter: fewer is `incomplete`, and all of them are written with
their value. -/
theorem readFixedHex_run {lead : String} {w : Width} (hpre : encode lead <+: c.rest)
    (hrun : Radix.hex.LeadingRun (c.rest.drop (encode lead).length) ds t) (hne : ds ≠ [])
    (hfit : c.position.Fits (lead.toList ++ ds.take w.hexDigits)) :
    readFixedHex c lead w = .ok (if ds.length < w.hexDigits
      then .failed .incomplete ((c.past lead.toList).pastDigits ds w.hexDigits) (.ofChars ds)
      else .matched ((c.past lead.toList).pastDigits ds w.hexDigits)
        (.ofChars (ds.take w.hexDigits) ++
          .ofValue (Radix.hex.valueFrom 0 (ds.take w.hexDigits)))) := by
  obtain ⟨d, more, rfl⟩ := List.exists_cons_of_ne_nil hne
  obtain ⟨hrest, hc₁⟩ := hrun.after_lead hpre
  have hd := hrun.digits d List.mem_cons_self
  obtain ⟨k, hk⟩ : ∃ k, w.hexDigits = k + 1 := ⟨w.hexDigits - 1, by cases w <;> rfl⟩
  rw [hk, List.take_succ_cons] at hfit ⊢
  obtain ⟨hfit₁, hfit₂⟩ := Position.Fits.append
    (show c.position.Fits ((lead.toList ++ [d]) ++ more.take k) by simpa using hfit)
  have ha₁ : ((Accumulator.init Radix.hex w.max).take d).count = 1 :=
    Accumulator.take_count hd
  have hscan := Accumulator.scan_upTo (a := (Accumulator.init Radix.hex w.max).take d)
    (k := k + 1) (by rw [Accumulator.take_radix, hc₁]; exact hrun.tail) (by omega)
    (by rw [ha₁, Nat.add_sub_cancel]; exact hfit₂)
  rw [ha₁, Nat.add_sub_cancel] at hscan
  have hacc : (more.take k).foldl Accumulator.take ((Accumulator.init Radix.hex w.max).take d) =
      ⟨Radix.hex, w.max, Radix.hex.valueFrom 0 (d :: more.take k), (d :: more.take k).length,
        false⟩ := by
    have hdig : ∀ e ∈ d :: more.take k, Radix.hex.isDigit e = true := fun e he =>
      hrun.digits e (List.cons_subset_cons d (List.take_subset k more) he)
    have hpow : Radix.hex.val ^ (d :: more.take k).length ≤ w.max + 1 := by
      rw [w.max_add_one_eq, hk]
      exact Nat.pow_le_pow_right (by decide) (by simp)
    exact Accumulator.init_foldl_take_of_le hdig hpow
  have hcur : (c.past (lead.toList ++ [d])).pastDigits more k =
      (c.past lead.toList).pastDigits (d :: more) (k + 1) := by
    rw [Cursor.pastDigits_cons, ← Cursor.past_append]
  unfold readFixedHex
  rw [readLeadDigit_spelled hrest hd hfit₁]
  simp only [bind, Except.bind]
  rw [hk, hscan, hcur, hacc]
  by_cases hshort : more.length < k
  · simp [hshort, List.take_of_length_le hshort.le]
  · simp [hshort, show k ≤ more.length by omega]

/-- The digit decoders read bounded runs. For every cursor whose line and column counts, which are
32-bit, fit what is read, where the run of hexadecimal (or octal) digits at the cursor is `ds`:
a reader of at most `k` digits stands past the first `min (length ds) k` of them, before the rest
of the run. Two hexadecimal digits for a byte, four or eight for a scalar, and one to three octal
digits for a byte are read that way, and a run of hexadecimal digits for a byte is read whole; an
empty run is `unmatched`; a short one is `incomplete`, `invalid` for four-digit scalars, or decoded
as it stands for octal bytes; otherwise the value read is written as a byte where it is at most
`0xFF` (always, for two hexadecimal digits) and as a scalar where it is one, and is `invalid`
otherwise. A fixed-width numeral without its lead and a digit after it is `unmatched` and reads
nothing; with them, it reads the lead and as many digits of the run as spell its width, is
`incomplete` with fewer, and otherwise writes the digits and their value, which always fits the
width. -/
theorem digit_decoders_read_bounded_runs (c : Cursor) :
    (∀ ds t, Radix.hex.LeadingRun c.rest ds t →
      (∀ k, (c.pastDigits ds k).rest = encodeAll (ds.drop k) ++ t ∧
        (c.pastDigits ds k).offset = c.offset + (encodeAll (ds.take k)).length) ∧
      (c.position.Fits ds → Term.hexByteRun.attempt c = .ok (if ds = []
        then .failed .unmatched (c.pastRun ds) .empty
        else if 0xFF < Radix.hex.valueFrom 0 ds then .failed .invalid (c.pastRun ds) .empty
        else .matched (c.pastRun ds) (.ofByte (Radix.hex.valueFrom 0 ds).toUInt8))) ∧
      (c.position.Fits (ds.take 2) → Term.hexByte.attempt c = .ok (if ds = []
        then .failed .unmatched (c.pastDigits ds 2) .empty
        else if ds.length < 2 then .failed .incomplete (c.pastDigits ds 2) .empty
        else .matched (c.pastDigits ds 2) (.ofByte (Radix.hex.valueFrom 0 (ds.take 2)).toUInt8))) ∧
      (c.position.Fits (ds.take 4) → Term.hexScalar4.attempt c = .ok (if ds = []
        then .failed .unmatched (c.pastDigits ds 4) .empty
        else if ds.length < 4 then .failed .invalid (c.pastDigits ds 4) .empty
        else writeScalar (c.pastDigits ds 4) (Radix.hex.valueFrom 0 (ds.take 4)))) ∧
      (c.position.Fits (ds.take 8) → Term.hexScalar8.attempt c = .ok (if ds = []
        then .failed .unmatched (c.pastDigits ds 8) .empty
        else if ds.length < 8 then .failed .incomplete (c.pastDigits ds 8) .empty
        else writeScalar (c.pastDigits ds 8) (Radix.hex.valueFrom 0 (ds.take 8))))) ∧
    (∀ ds t, Radix.octal.LeadingRun c.rest ds t → c.position.Fits (ds.take 3) →
      (c.pastDigits ds 3).rest = encodeAll (ds.drop 3) ++ t ∧
      Term.octalByte.attempt c = .ok (if ds = []
        then .failed .unmatched (c.pastDigits ds 3) .empty
        else writeByte (c.pastDigits ds 3) (Radix.octal.valueFrom 0 (ds.take 3)))) ∧
    ∀ (lead : String) (w : Width),
      ((¬ ∃ d, Radix.hex.isDigit d = true ∧ encode lead ++ String.utf8EncodeChar d <+: c.rest) →
        (Term.fixedHex lead w).attempt c = .ok (.failed .unmatched c .empty)) ∧
      ∀ ds t,
        (∃ d, Radix.hex.isDigit d = true ∧ encode lead ++ String.utf8EncodeChar d <+: c.rest) →
        Radix.hex.LeadingRun (c.rest.drop (encode lead).length) ds t →
        c.position.Fits (lead.toList ++ ds.take w.hexDigits) →
        Radix.hex.valueFrom 0 (ds.take w.hexDigits) ≤ w.max ∧
        (Term.fixedHex lead w).attempt c = .ok (if ds.length < w.hexDigits
          then .failed .incomplete ((c.past lead.toList).pastDigits ds w.hexDigits) (.ofChars ds)
          else .matched ((c.past lead.toList).pastDigits ds w.hexDigits)
            (.ofChars (ds.take w.hexDigits) ++
              .ofValue (Radix.hex.valueFrom 0 (ds.take w.hexDigits)))) := by
  refine ⟨fun ds t hrun => ⟨Cursor.pastDigits_rest hrun, ?_, ?_, ?_, ?_⟩,
    fun ds t hrun hfit => ⟨(Cursor.pastDigits_rest hrun 3).1, ?_⟩, fun lead w => ⟨?_, ?_⟩⟩
  all_goals simp only [Term.attempt]
  · exact readHexByteRun_run hrun
  · exact readHexByte_run hrun
  · exact readHexScalar4_run hrun
  · exact readHexScalar8_run hrun
  · exact readOctalByte_run hrun hfit
  · exact readFixedHex_absent
  · rintro ds t hdigit hrun hfit
    obtain ⟨hlead, hne⟩ := hrun.lead_ne_nil hdigit
    exact ⟨Radix.hex_valueFrom_take_le_max hrun.digits w, readFixedHex_run hlead hrun hne hfit⟩

/-- `0x12345` read as a fixed-width numeral of sixteen bits: the lead and four digits are read,
the `5` after them is left, and the digits are written with their value `0x1234`. -/
theorem fixed_hex_sixteen_bits_reads_four_digits :
    (∃ d, Radix.hex.isDigit d = true ∧
      encode "0x" ++ String.utf8EncodeChar d <+: encodeAll ['0', 'x', '1', '2', '3', '4', '5']) ∧
    (Term.fixedHex "0x" .w16).attempt
        (Cursor.init (encodeAll ['0', 'x', '1', '2', '3', '4', '5']) .lenient .start) =
      .ok (.matched ⟨[53], 6, ⟨0, 6⟩, .lenient, none⟩
        (.ofChars ['1', '2', '3', '4'] ++ .ofValue 0x1234)) := by
  have hd : ∃ d, Radix.hex.isDigit d = true ∧
      encode "0x" ++ String.utf8EncodeChar d <+: encodeAll ['0', 'x', '1', '2', '3', '4', '5'] :=
    ⟨'1', by decide, by decide⟩
  have hrun : Radix.hex.LeadingRun
      ((encodeAll ['0', 'x', '1', '2', '3', '4', '5']).drop (encode "0x").length)
      ['1', '2', '3', '4', '5'] [] :=
    ⟨by decide, (show Radix.hex.Spells ['1', '2', '3', '4', '5'] 5 0x12345 by decide).digits,
      fun _ _ hp => String.utf8EncodeChar_ne_nil (List.prefix_nil.1 hp)⟩
  refine ⟨hd, ?_⟩
  rw [(((digit_decoders_read_bounded_runs _).2.2 "0x" .w16).2 _ _ hd hrun
    ⟨by decide, by decide⟩).2]
  rfl

end Lexer
