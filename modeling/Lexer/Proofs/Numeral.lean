import Mathlib
import Lexer.Proofs.Ceiling
/-! # Numerals read whole runs of digits

`Radix.LeadingRun r bytes ds t` says that `ds` is the longest run of digits at the front of
`bytes`. Only a digit's own encoding reads as a digit, so a scan stops exactly where the run ends
(`Accumulator.scan_run`), and an unsigned numeral reads the whole run after its lead.
-/

namespace Lexer

open Utf8

/-! ## Runs of digits -/

namespace Radix

/-- `ds` is the longest run of digits of the radix that `bytes` begin with, and `t` the bytes
after it. -/
structure LeadingRun (r : Radix) (bytes : List UInt8) (ds : List Char) (t : List UInt8) : Prop where
  spelled : bytes = encodeAll ds ++ t
  digits : ∀ d ∈ ds, r.isDigit d = true
  maximal : ∀ d, r.isDigit d = true → ¬ String.utf8EncodeChar d <+: t

variable {r : Radix} {bytes : List UInt8} {ds : List Char} {t : List UInt8}

theorem LeadingRun.tail {ch : Char} (h : r.LeadingRun bytes (ch :: ds) t) :
    r.LeadingRun (encodeAll ds ++ t) ds t :=
  ⟨rfl, fun d hd => h.digits d (List.mem_cons_of_mem _ hd), h.maximal⟩

theorem LeadingRun.exists_digit_iff (h : r.LeadingRun bytes ds t) :
    (∃ d, r.isDigit d = true ∧ String.utf8EncodeChar d <+: bytes) ↔ ds ≠ [] := by
  constructor
  · rintro ⟨d, hd, hpre⟩ rfl
    exact h.maximal d hd (by simpa [h.spelled] using hpre)
  · intro hne
    obtain ⟨d, more, rfl⟩ := List.exists_cons_of_ne_nil hne
    refine ⟨d, h.digits d List.mem_cons_self, ?_⟩
    rw [h.spelled, encodeAll_cons, List.append_assoc]
    exact List.prefix_append _ _

theorem LeadingRun.spelled_take_drop (h : r.LeadingRun bytes ds t) (k : Nat) :
    bytes = encodeAll (ds.take k) ++ (encodeAll (ds.drop k) ++ t) := by
  rw [h.spelled, ← List.append_assoc, ← encodeAll_append, List.take_append_drop]

end Radix

namespace Cursor

variable {c : Cursor}

/-- The cursor past the scalars `ds`, having looked at the scalar after them: a strict cursor that
finds invalid bytes there notes the fault. -/
def pastRun (c : Cursor) (ds : List Char) : Cursor := (c.past ds).peek.2

/-- Where a reader of at most `k` digits of the run `ds` stands: past the whole run if it is
shorter than `k`, having looked at what ended it, and otherwise past its first `k` digits. -/
def pastDigits (c : Cursor) (ds : List Char) (k : Nat) : Cursor :=
  if ds.length < k then c.pastRun ds else c.past (ds.take k)

theorem pastRun_cons (c : Cursor) (ch : Char) (ds : List Char) :
    c.pastRun (ch :: ds) = (c.past [ch]).pastRun ds := by
  rw [pastRun, pastRun, ← past_append]
  rfl

theorem pastDigits_cons (c : Cursor) (ch : Char) (ds : List Char) (k : Nat) :
    c.pastDigits (ch :: ds) (k + 1) = (c.past [ch]).pastDigits ds k := by
  unfold pastDigits
  rw [List.length_cons, List.take_succ_cons, pastRun_cons]
  by_cases h : ds.length < k
  · rw [if_pos (by omega), if_pos h]
  · rw [if_neg (by omega), if_neg h, ← past_append]
    rfl

theorem fetch_no_digit {r : Radix}
    (h : ∀ d, r.isDigit d = true → ¬ String.utf8EncodeChar d <+: c.rest) :
    c.fetch r.isDigit = .ok (none, c.peek.2) := by
  unfold fetch peek
  rcases hs : c.scan with ⟨_ | ⟨ch, w⟩, c₁⟩
  · rfl
  · obtain ⟨rfl, hd⟩ := scan_eq_some hs
    have hnot : r.isDigit ch = false := by
      rcases hd with hd | ⟨-, -, rfl⟩
      · cases hdig : r.isDigit ch
        · rfl
        · refine absurd ?_ (h ch hdig)
          rw [← take_eq_of_decode_eq_scalar hd]
          exact List.take_prefix _ _
      · exact Radix.isDigit_replacement r
    simp [hnot]

/-- The text `s` and a scalar that `p` accepts after it are read together. -/
theorem leapFetch_spelled {s : String} {p : Char → Bool} {ch : Char} {t : List UInt8}
    (hrest : c.rest = encode s ++ (String.utf8EncodeChar ch ++ t)) (hp : p ch = true)
    (hfit : c.position.Fits (s.toList ++ [ch])) :
    c.leapFetch s p = .ok (some ch, c.past (s.toList ++ [ch])) := by
  obtain ⟨hfit₁, hfit₂⟩ := Position.Fits.append hfit
  have hpre : (encode s).isPrefixOf c.rest = true :=
    List.isPrefixOf_iff_prefix.2 ⟨_, hrest.symm⟩
  have hdec : decode (c.rest.drop (encode s).length) =
      .scalar ch (String.utf8EncodeChar ch).length := by
    rw [hrest, List.drop_left, decode_encodeChar_append]
  unfold leapFetch
  dsimp only
  rw [if_pos hpre, hdec]
  simp only [hp, if_true, hfit₁.advanceText, bind, Except.bind, hfit₂.advance, pure,
    Except.pure]
  simp [past, encode_eq_encodeAll, Nat.add_assoc]

/-- Where the text `s` does not stand with a scalar that `p` accepts right after it, nothing is
read. -/
theorem leapFetch_absent {s : String} {p : Char → Bool}
    (h : ¬ ∃ ch, p ch = true ∧ encode s ++ String.utf8EncodeChar ch <+: c.rest) :
    c.leapFetch s p = .ok (none, c) := by
  unfold leapFetch
  dsimp only
  split
  · next hpre =>
    split
    · next ch w hdec =>
      split
      · next hp =>
        refine absurd ⟨ch, hp, ?_⟩ h
        obtain ⟨u, hu⟩ := List.isPrefixOf_iff_prefix.1 hpre
        have htake := take_eq_of_decode_eq_scalar hdec
        rw [← hu, List.drop_left] at htake
        rw [← hu, ← htake]
        exact (List.prefix_append_right_inj _).2 (List.take_prefix _ _)
      · rfl
    · rfl
  · rfl

end Cursor

/-! ## Scanning a run -/

namespace Accumulator

variable {c : Cursor} {a : Accumulator} {limit : Option Nat}

theorem limit_all_lt_of_le {m n : Nat} (h : limit.all (m < ·) = true) (hle : n ≤ m) :
    limit.all (n < ·) = true := by
  cases limit with
  | none => rfl
  | some k =>
    simp only [Option.all_some, decide_eq_true_eq] at h ⊢
    omega

theorem scan_cons {a' : Accumulator} {ch : Char} {ds : List Char} {c' : Cursor} {t : List UInt8}
    (hrest : c.rest = String.utf8EncodeChar ch ++ t) (hd : a.radix.isDigit ch = true)
    (hlim : limit.all (a.count < ·) = true) (hfit : c.position.Fits [ch])
    (hnext : (a.take ch).scan (c.past [ch]) limit = .ok ((a', ds), c')) :
    a.scan c limit = .ok ((a', ch :: ds), c') := by
  have hlt := Cursor.rest_length_past_lt
    (show c.rest = encodeAll [ch] ++ t by simpa using hrest) (List.cons_ne_nil _ _)
  rw [scan, if_pos hlim, Cursor.fetch_spelled hrest hd hfit, bind_eq_ok]
  refine ⟨_, rfl, ?_⟩
  dsimp only
  rw [if_pos hlt, bind_eq_ok]
  exact ⟨_, hnext, rfl⟩

theorem scan_stop (hlim : limit.all (a.count < ·) = true)
    (h : ∀ d, a.radix.isDigit d = true → ¬ String.utf8EncodeChar d <+: c.rest) :
    a.scan c limit = .ok ((a, []), c.peek.2) := by
  rw [scan, if_pos hlim, Cursor.fetch_no_digit h]
  rfl

/-- A run that ends before the limit is read whole, digit by digit, and the scan stops where it
ends. -/
theorem scan_run {ds : List Char} {t : List UInt8} (hrun : a.radix.LeadingRun c.rest ds t)
    (hlim : limit.all (a.count + ds.length < ·) = true) (hfit : c.position.Fits ds) :
    a.scan c limit = .ok ((ds.foldl take a, ds), c.pastRun ds) := by
  induction ds generalizing a c with
  | nil =>
    have hrest : c.rest = t := by simpa using hrun.spelled
    exact scan_stop (by simpa using hlim) (hrest ▸ hrun.maximal)
  | cons ch ds ih =>
    have hrest : c.rest = String.utf8EncodeChar ch ++ (encodeAll ds ++ t) := by
      rw [hrun.spelled, encodeAll_cons, List.append_assoc]
    obtain ⟨hfit₁, hfit₂⟩ :=
      Position.Fits.append (show c.position.Fits ([ch] ++ ds) from hfit)
    have hd := hrun.digits ch List.mem_cons_self
    have htail : (a.take ch).radix.LeadingRun (c.past [ch]).rest ds t := by
      rw [take_radix, Cursor.rest_past (by simpa using hrest)]
      exact hrun.tail
    have hnext := ih htail (by rw [take_count hd]; simpa [Nat.add_assoc, Nat.add_comm 1] using hlim)
      hfit₂
    rw [Cursor.pastRun_cons]
    exact scan_cons hrest hd (limit_all_lt_of_le hlim (by omega)) hfit₁ hnext

/-- A scan with the limit `k` reads the run up to the limit: all of it if it is shorter, and
otherwise its first digits up to the count `k`, without looking further. -/
theorem scan_upTo {k : Nat} {ds : List Char} {t : List UInt8}
    (hrun : a.radix.LeadingRun c.rest ds t) (hk : a.count ≤ k)
    (hfit : c.position.Fits (ds.take (k - a.count))) :
    a.scan c (some k) = .ok (((ds.take (k - a.count)).foldl take a, ds.take (k - a.count)),
      c.pastDigits ds (k - a.count)) := by
  unfold Cursor.pastDigits
  by_cases hlt : ds.length < k - a.count
  · rw [List.take_of_length_le (by omega)] at hfit ⊢
    rw [if_pos hlt]
    exact scan_run hrun (by simp only [Option.all_some, decide_eq_true_eq]; omega) hfit
  · rw [if_neg hlt]
    have hlen : (ds.take (k - a.count)).length = k - a.count := by
      rw [List.length_take]
      omega
    have h := scan_spelled (hrun.spelled_take_drop (k - a.count)) (fun d hd => hrun.digits d (List.mem_of_mem_take hd)) hfit
    rwa [hlen, Nat.add_sub_cancel' hk] at h

/-! ## The value of a run -/

@[simp] theorem take_ceiling (a : Accumulator) (ch : Char) : (a.take ch).ceiling = a.ceiling := by
  unfold take
  split <;> simp

theorem foldl_take_ceiling (a : Accumulator) (ds : List Char) :
    (ds.foldl take a).ceiling = a.ceiling := by
  induction ds generalizing a with
  | nil => rfl
  | cons ch ds ih => rw [List.foldl_cons, ih, take_ceiling]

theorem foldl_take_count {ds : List Char} (hds : ∀ d ∈ ds, a.radix.isDigit d = true) :
    (ds.foldl take a).count = a.count + ds.length := by
  induction ds generalizing a with
  | nil => rfl
  | cons ch ds ih =>
    have hmore : ∀ d ∈ ds, (a.take ch).radix.isDigit d = true := fun d hd => by
      rw [take_radix]
      exact hds d (List.mem_cons_of_mem _ hd)
    rw [List.foldl_cons, ih hmore, take_count (hds ch List.mem_cons_self), List.length_cons]
    omega

theorem Tracks.take {n : Nat} {ch : Char} (h : a.Tracks n) (hd : a.radix.isDigit ch = true) :
    (a.take ch).Tracks (n * a.radix.val + (a.radix.digit? ch).getD 0) := by
  obtain ⟨d, hd, -⟩ := Radix.digit?_of_isDigit hd
  simp only [Accumulator.take, hd, Option.getD_some]
  exact h.push d

/-- Taking a run of digits keeps the invariant, for the value of the run. -/
theorem Tracks.foldl_take {n : Nat} {ds : List Char} (h : a.Tracks n)
    (hds : ∀ d ∈ ds, a.radix.isDigit d = true) :
    (ds.foldl Accumulator.take a).Tracks (a.radix.valueFrom n ds) := by
  induction ds generalizing a n with
  | nil => exact h
  | cons ch ds ih =>
    have hrun := ih (h.take (hds ch List.mem_cons_self))
      (fun d hd => by rw [take_radix]; exact hds d (List.mem_cons_of_mem _ hd))
    rwa [take_radix] at hrun

theorem init_foldl_take {r : Radix} {ceiling : Nat} {ds : List Char}
    (hds : ∀ d ∈ ds, r.isDigit d = true) :
    (ds.foldl take (init r ceiling)).count = ds.length ∧
    ((ds.foldl take (init r ceiling)).overflow = true ↔ ceiling < r.valueFrom 0 ds) ∧
    ((ds.foldl take (init r ceiling)).overflow = false →
      (ds.foldl take (init r ceiling)).value = r.valueFrom 0 ds) := by
  have hacc := (init_tracks r ceiling).foldl_take hds
  refine ⟨by simpa [init] using foldl_take_count (a := init r ceiling) hds, ?_, hacc.value_eq⟩
  rw [hacc.overflow_iff, foldl_take_ceiling]
  rfl

end Accumulator

/-! ## Numerals -/

variable {c : Cursor} {r : Radix} {w : Width} {ds : List Char} {t : List UInt8}

/-- The unsigned extractor reads the whole run: no digit is `unmatched`, a value beyond the width
is `overflow`, and otherwise the value is read. -/
theorem extractUnsigned_run (hrun : r.LeadingRun c.rest ds t) (hfit : c.position.Fits ds) :
    extractUnsigned c r w = .ok ((if ds = [] then .error .unmatched
      else if w.max < r.valueFrom 0 ds then .error .overflow else .ok (r.valueFrom 0 ds)),
      c.pastRun ds) := by
  obtain ⟨hcount, hiff, hval⟩ := @Accumulator.init_foldl_take _ w.max _ hrun.digits
  unfold extractUnsigned
  rw [Accumulator.scan_run hrun rfl hfit]
  simp only [bind, Except.bind, pure, Except.pure, hcount, List.length_eq_zero_iff]
  by_cases hnil : ds = []
  · simp [hnil]
  · by_cases hov : w.max < r.valueFrom 0 ds
    · simp [hnil, hov, hiff.2 hov]
    · have hclear : (ds.foldl Accumulator.take (Accumulator.init r w.max)).overflow = false :=
        Bool.eq_false_iff.2 fun hset => hov (hiff.1 hset)
      simp [hnil, hov, hclear, hval hclear]

theorem readLeadDigit_spelled {lead : String} {ceiling : Nat} {d : Char}
    (hrest : c.rest = encode lead ++ (String.utf8EncodeChar d ++ t)) (hd : r.isDigit d = true)
    (hfit : c.position.Fits (lead.toList ++ [d])) :
    readLeadDigit c lead r ceiling =
      .ok (some (d, (Accumulator.init r ceiling).take d), c.past (lead.toList ++ [d])) := by
  unfold readLeadDigit
  rw [Cursor.leapFetch_spelled hrest hd hfit]
  rfl

theorem readUnsigned_absent {lead : String}
    (h : ¬ ∃ d, r.isDigit d = true ∧ encode lead ++ String.utf8EncodeChar d <+: c.rest) :
    readUnsigned c lead r w = .ok (.failed .unmatched c .empty) := by
  unfold readUnsigned readLeadDigit
  rw [Cursor.leapFetch_absent h]
  rfl

theorem Radix.LeadingRun.lead_ne_nil {lead : String}
    (h : ∃ d, r.isDigit d = true ∧ encode lead ++ String.utf8EncodeChar d <+: c.rest)
    (hrun : r.LeadingRun (c.rest.drop (encode lead).length) ds t) :
    encode lead <+: c.rest ∧ ds ≠ [] := by
  obtain ⟨d, hd, hpre⟩ := h
  refine ⟨(List.prefix_append _ _).trans hpre, hrun.exists_digit_iff.1 ⟨d, hd, ?_⟩⟩
  obtain ⟨u, hu⟩ := hpre
  rw [← hu, List.append_assoc, List.drop_left]
  exact List.prefix_append _ _

theorem Radix.LeadingRun.after_lead {lead : String} {d : Char} {more : List Char}
    (hpre : encode lead <+: c.rest)
    (hrun : r.LeadingRun (c.rest.drop (encode lead).length) (d :: more) t) :
    c.rest = encode lead ++ (String.utf8EncodeChar d ++ (encodeAll more ++ t)) ∧
      (c.past (lead.toList ++ [d])).rest = encodeAll more ++ t := by
  obtain ⟨u, hu⟩ := hpre
  have hrest : c.rest = encode lead ++ (String.utf8EncodeChar d ++ (encodeAll more ++ t)) := by
    rw [← hu, List.drop_left] at hrun
    rw [← hu, hrun.spelled, encodeAll_cons, List.append_assoc]
  exact ⟨hrest, Cursor.rest_past (by rw [hrest, encode_eq_encodeAll]; simp)⟩

/-- After its lead text, an unsigned numeral reads the whole run of digits, writes them, and
writes their value where it fits the width; otherwise it fails with `overflow`. -/
theorem readUnsigned_run {lead : String} (hpre : encode lead <+: c.rest)
    (hrun : r.LeadingRun (c.rest.drop (encode lead).length) ds t) (hne : ds ≠ [])
    (hfit : c.position.Fits (lead.toList ++ ds)) :
    readUnsigned c lead r w = .ok (if w.max < r.valueFrom 0 ds
      then .failed .overflow (c.pastRun (lead.toList ++ ds)) (.ofChars ds)
      else .matched (c.pastRun (lead.toList ++ ds))
        (.ofChars ds ++ .ofValue (r.valueFrom 0 ds))) := by
  obtain ⟨d, more, rfl⟩ := List.exists_cons_of_ne_nil hne
  obtain ⟨hrest, hc₁⟩ := hrun.after_lead hpre
  have hd := hrun.digits d List.mem_cons_self
  obtain ⟨hfit₁, hfit₂⟩ := Position.Fits.append
    (show c.position.Fits ((lead.toList ++ [d]) ++ more) by simpa using hfit)
  have hscan := @Accumulator.scan_run _ ((Accumulator.init r w.max).take d) none _ _
    (by rw [Accumulator.take_radix, hc₁]; exact hrun.tail) rfl hfit₂
  have hcur : (c.past (lead.toList ++ [d])).pastRun more =
      c.pastRun (lead.toList ++ d :: more) := by
    rw [Cursor.pastRun, Cursor.pastRun, ← Cursor.past_append]
    simp
  obtain ⟨-, hiff, hval⟩ := @Accumulator.init_foldl_take _ w.max _ hrun.digits
  unfold readUnsigned
  rw [readLeadDigit_spelled hrest hd hfit₁]
  simp only [bind, Except.bind]
  rw [hscan, hcur]
  by_cases hov : w.max < r.valueFrom 0 (d :: more)
  · have hset :
        (more.foldl Accumulator.take ((Accumulator.init r w.max).take d)).overflow = true :=
      hiff.2 hov
    simp only [hset, hov, if_true, pure, Except.pure]
  · have hclear : (more.foldl Accumulator.take ((Accumulator.init r w.max).take d)).overflow =
        false := Bool.eq_false_iff.2 fun hset => hov (hiff.1 hset)
    have hv : (more.foldl Accumulator.take ((Accumulator.init r w.max).take d)).value =
        r.valueFrom 0 (d :: more) := hval hclear
    simp only [hclear, hov, hv, Bool.false_eq_true, if_false, pure, Except.pure]

/-- Unsigned numerals read whole runs of digits. For every radix and width, and a cursor whose
line and column counts, which are 32-bit, fit what is read: the unsigned extractor reads the whole
longest run of digits at the cursor, however long and whatever its value, and stops having looked
at what ended it; it reports `unmatched` for an empty run, `overflow` where the run's value passes
the largest value of the width, and otherwise that value. The unsigned numeral term applies
exactly where its lead text stands with a digit right after it; where not, it fails with
`unmatched` and reads nothing. Where it applies it reads the lead and the whole run after it,
writes the digits without the lead, and writes their value where it fits the width, failing with
`overflow` and no value otherwise. -/
theorem unsigned_numerals_read_whole_runs (r : Radix) (w : Width) (c : Cursor) :
    (∀ ds t, r.LeadingRun c.rest ds t → c.position.Fits ds →
      extractUnsigned c r w = .ok ((if ds = [] then .error .unmatched
        else if w.max < r.valueFrom 0 ds then .error .overflow else .ok (r.valueFrom 0 ds)),
        c.pastRun ds)) ∧
    ∀ lead : String,
      ((¬ ∃ d, r.isDigit d = true ∧ encode lead ++ String.utf8EncodeChar d <+: c.rest) →
        (Term.unsigned lead r w).attempt c = .ok (.failed .unmatched c .empty)) ∧
      ∀ ds t,
        (∃ d, r.isDigit d = true ∧ encode lead ++ String.utf8EncodeChar d <+: c.rest) →
        r.LeadingRun (c.rest.drop (encode lead).length) ds t →
        c.position.Fits (lead.toList ++ ds) →
        (Term.unsigned lead r w).attempt c = .ok (if w.max < r.valueFrom 0 ds
          then .failed .overflow (c.pastRun (lead.toList ++ ds)) (.ofChars ds)
          else .matched (c.pastRun (lead.toList ++ ds))
            (.ofChars ds ++ .ofValue (r.valueFrom 0 ds))) := by
  refine ⟨fun ds t hrun hfit => extractUnsigned_run hrun hfit,
    fun lead => ⟨fun h => ?_, ?_⟩⟩
  · simp only [Term.attempt]
    exact readUnsigned_absent h
  · rintro ds t hdigit hrun hfit
    obtain ⟨hlead, hne⟩ := hrun.lead_ne_nil hdigit
    simp only [Term.attempt]
    exact readUnsigned_run hlead hrun hne hfit

/-- `0x1ff` read as a hexadecimal numeral of eight bits: the lead and all three digits are read
and written, and their value 511 passes 255, so the numeral overflows and writes no value. -/
theorem hex_numeral_past_byte_overflows :
    (∃ d, Radix.hex.isDigit d = true ∧
      encode "0x" ++ String.utf8EncodeChar d <+: encodeAll ['0', 'x', '1', 'f', 'f']) ∧
    (Term.unsigned "0x" Radix.hex .w8).attempt
        (Cursor.init (encodeAll ['0', 'x', '1', 'f', 'f']) .lenient .start) =
      .ok (.failed .overflow ⟨[], 5, ⟨0, 5⟩, .lenient, none⟩
        (.ofChars ['1', 'f', 'f'])) := by
  have hd : ∃ d, Radix.hex.isDigit d = true ∧
      encode "0x" ++ String.utf8EncodeChar d <+: encodeAll ['0', 'x', '1', 'f', 'f'] :=
    ⟨'1', by decide, by decide⟩
  have hrun : Radix.hex.LeadingRun ((encodeAll ['0', 'x', '1', 'f', 'f']).drop (encode "0x").length)
      ['1', 'f', 'f'] [] :=
    ⟨by decide, (show Radix.hex.Spells ['1', 'f', 'f'] 3 511 by decide).digits,
      fun _ _ hp => String.utf8EncodeChar_ne_nil (List.prefix_nil.1 hp)⟩
  refine ⟨hd, ?_⟩
  rw [((unsigned_numerals_read_whole_runs _ _ _).2 "0x").2 _ _ hd hrun ⟨by decide, by decide⟩]
  rfl

end Lexer
