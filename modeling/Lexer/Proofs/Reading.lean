import Mathlib
import Lexer.Proofs.Reach
import Lexer.Proofs.Sink
/-! # Reading a known text

Where the bytes ahead encode a known text, every read has one answer, and the cursor after it is
`Cursor.past`. Each lemma asks `Position.Fits`, that the counts stay within `maxCount`.
Statements about what a term makes of a given spelling are chains of these.
-/

namespace Lexer

open Utf8

namespace Utf8

/-- The UTF-8 bytes of a list of scalars. -/
def encodeAll (cs : List Char) : List UInt8 := cs.flatMap String.utf8EncodeChar

@[simp] theorem encodeAll_nil : encodeAll [] = [] := rfl

@[simp] theorem encodeAll_cons (ch : Char) (cs : List Char) :
    encodeAll (ch :: cs) = String.utf8EncodeChar ch ++ encodeAll cs := List.flatMap_cons

@[simp] theorem encodeAll_append (cs ds : List Char) :
    encodeAll (cs ++ ds) = encodeAll cs ++ encodeAll ds := List.flatMap_append

theorem encode_eq_encodeAll (s : String) : encode s = encodeAll s.toList := rfl

end Utf8

/-! ## Counts that fit -/

namespace Position

/-- Reading the scalars `cs` from `p` keeps every count within `maxCount`: the line feeds of `cs`
fit on `p`'s line, and its length on `p`'s column. -/
def Fits (p : Position) (cs : List Char) : Prop :=
  p.line + cs.count '\n' ≤ maxCount ∧ p.column + cs.length ≤ maxCount

theorem along_line (p : Position) (cs : List Char) :
    (p.along cs).line = p.line + cs.count '\n' := by
  rw [along_eq]
  split <;> simp_all

theorem along_column_le (p : Position) (cs : List Char) :
    (p.along cs).column ≤ p.column + cs.length := by
  rw [along_eq]
  split
  · simp
  · have := (List.takeWhile_sublist (· ≠ '\n') (l := cs.reverse)).length_le
    simp only [List.length_reverse] at this
    simp only
    omega

theorem Fits.append {p : Position} {cs ds : List Char} (h : p.Fits (cs ++ ds)) :
    p.Fits cs ∧ (p.along cs).Fits ds := by
  obtain ⟨hl, hc⟩ := h
  simp only [List.count_append, List.length_append] at hl hc
  have hcol := along_column_le p cs
  refine ⟨⟨by omega, by omega⟩, ?_, by omega⟩
  rw [along_line]
  omega

theorem Fits.advance {p : Position} {ch : Char} (h : p.Fits [ch]) :
    p.advance ch = .ok (p.next ch) := by
  obtain ⟨hl, hc⟩ := h
  unfold Position.advance next
  by_cases hch : ch = '\n'
  · subst hch
    simp only [List.count_singleton_self] at hl
    simp [bumpCount, hl, bind, Except.bind, pure, Except.pure]
  · simp only [List.length_singleton] at hc
    simp [hch, bumpCount, hc, bind, Except.bind, pure, Except.pure]

theorem Fits.advanceText {p : Position} {s : String} (h : p.Fits s.toList) :
    p.advanceText s = .ok (p.along s.toList) := by
  obtain ⟨hl, hc⟩ := h
  unfold Position.advanceText
  dsimp only
  rw [along_eq]
  split
  · simp [bumpCount, hc, bind, Except.bind, pure, Except.pure]
  · simp [bumpCount, hl, bind, Except.bind, pure, Except.pure]

end Position

/-! ## Reads of a known text -/

namespace Cursor

/-- The cursor after reading the scalars `cs` from `c`: past their bytes, at the position they
lead to. -/
def past (c : Cursor) (cs : List Char) : Cursor :=
  { c with rest := c.rest.drop (encodeAll cs).length, offset := c.offset + (encodeAll cs).length,
           position := c.position.along cs }

@[simp] theorem past_nil (c : Cursor) : c.past [] = c := rfl

theorem past_append (c : Cursor) (cs ds : List Char) : c.past (cs ++ ds) = (c.past cs).past ds := by
  simp only [past, encodeAll_append, List.length_append, List.drop_drop, Position.along_append,
    Nat.add_assoc]

@[simp] theorem past_policy (c : Cursor) (cs : List Char) : (c.past cs).policy = c.policy := rfl

@[simp] theorem past_fault (c : Cursor) (cs : List Char) : (c.past cs).fault = c.fault := rfl

/-- Past a text at the front of its bytes, a cursor holds the bytes after the text. -/
theorem past_eq {c : Cursor} {cs : List Char} {t : List UInt8} (h : c.rest = encodeAll cs ++ t) :
    c.past cs = { c with rest := t, offset := c.offset + (encodeAll cs).length,
                         position := c.position.along cs } := by
  simp [past, h]

theorem rest_past {c : Cursor} {cs : List Char} {t : List UInt8} (h : c.rest = encodeAll cs ++ t) :
    (c.past cs).rest = t := by
  rw [past_eq h]

theorem rest_past_of_append {c : Cursor} {cs ds : List Char} {t : List UInt8}
    (h : c.rest = encodeAll (cs ++ ds) ++ t) : (c.past cs).rest = encodeAll ds ++ t :=
  rest_past (by simpa using h)

theorem rest_length_past_lt {c : Cursor} {cs : List Char} {t : List UInt8}
    (h : c.rest = encodeAll cs ++ t) (hne : cs ≠ []) : (c.past cs).rest.length < c.rest.length := by
  obtain ⟨ch, cs, rfl⟩ := List.exists_cons_of_ne_nil hne
  have hpos : 0 < (String.utf8EncodeChar ch).length :=
    List.length_pos_iff.2 String.utf8EncodeChar_ne_nil
  rw [rest_past h, h]
  simp only [encodeAll_cons, List.length_append]
  omega

variable {c : Cursor} {ch : Char} {t : List UInt8}

theorem scan_spelled (h : c.rest = String.utf8EncodeChar ch ++ t) :
    c.scan = (some (ch, (String.utf8EncodeChar ch).length), c) := by
  unfold scan
  rw [h, decode_encodeChar_append]

theorem peek_spelled (h : c.rest = String.utf8EncodeChar ch ++ t) : c.peek = (some ch, c) := by
  unfold peek
  rw [scan_spelled h]
  rfl

theorem consume_spelled (hfit : c.position.Fits [ch]) :
    c.consume ch (String.utf8EncodeChar ch).length = .ok (c.past [ch]) := by
  unfold consume
  rw [hfit.advance]
  simp [past, pure, Except.pure, bind, Except.bind]

theorem hop_spelled (h : c.rest = String.utf8EncodeChar ch ++ t) (hfit : c.position.Fits [ch]) :
    c.hop ch = .ok (true, c.past [ch]) := by
  unfold hop
  rw [scan_spelled h]
  simp only [if_true, consume_spelled hfit]
  rfl

theorem hop_spelled_ne {ch' : Char} (h : c.rest = String.utf8EncodeChar ch ++ t) (hne : ch ≠ ch') :
    c.hop ch' = .ok (false, c) := by
  unfold hop
  rw [scan_spelled h]
  simp only [hne, if_false]
  rfl

theorem fetch_spelled {p : Char → Bool} (h : c.rest = String.utf8EncodeChar ch ++ t)
    (hp : p ch = true) (hfit : c.position.Fits [ch]) : c.fetch p = .ok (some ch, c.past [ch]) := by
  unfold fetch
  rw [scan_spelled h]
  simp only [hp, if_true, consume_spelled hfit]
  rfl

theorem fetch_spelled_of_ok {p : Char → Bool} {c' : Cursor} (h : c.fetch p = .ok (some ch, c'))
    (hrep : p '�' = false) : c.rest = String.utf8EncodeChar ch ++ c'.rest ∧ c' = c.past [ch] := by
  have hp := fetch_some h
  unfold fetch at h
  split at h
  · next ch' w c₁ hs =>
    have hwidth := scan_width hs
    obtain ⟨hc₁, hd⟩ := scan_eq_some hs
    subst c₁
    split at h
    · obtain ⟨c₂, hc₂, h⟩ := bind_eq_ok.1 h
      simp only [pure_eq_ok, Prod.mk.injEq, Option.some.injEq] at h
      obtain ⟨rfl, rfl⟩ := h
      have hd : decode c.rest = .scalar ch' w := by
        rcases hd with hd | ⟨-, -, rfl⟩
        · exact hd
        · rw [hrep] at hp
          cases hp
      have htake := take_eq_of_decode_eq_scalar hd
      have hw : w = (String.utf8EncodeChar ch').length := by
        rw [← htake, List.length_take]
        omega
      obtain ⟨q, hq, rfl⟩ := consume_eq_ok.1 hc₂
      refine ⟨by rw [← htake, List.take_append_drop], ?_⟩
      simp [past, hw, Position.advance_eq_ok hq]
    · simp at h
  · simp at h

theorem leap_spelled {s : String} (h : c.rest = encodeAll s.toList ++ t)
    (hfit : c.position.Fits s.toList) :
    c.leap s = .ok (true, c.past s.toList) := by
  unfold leap
  dsimp only
  rw [if_pos (List.isPrefixOf_iff_prefix.2 (h ▸ List.prefix_append _ _)), hfit.advanceText]
  rfl

theorem leap_reads {s : String} {c' : Cursor} (h : c.leap s = .ok (true, c')) :
    c.rest = encodeAll s.toList ++ c'.rest ∧ c' = c.past s.toList := by
  rcases leap_eq_ok h with ⟨-, ⟨t, ht⟩, q, hq, rfl⟩ | ⟨hb, -⟩
  · have hrest : c.rest = encodeAll s.toList ++ t := by rw [← ht, encode_eq_encodeAll]
    rw [Position.advanceText_eq_ok hq, past_eq hrest]
    simp [hrest, encode_eq_encodeAll]
  · cases hb

theorem leap_absent {s : String} (h : ¬ encode s <+: c.rest) : c.leap s = .ok (false, c) := by
  unfold leap
  dsimp only
  rw [if_neg (fun hp => h (List.isPrefixOf_iff_prefix.1 hp))]
  rfl

end Cursor

/-! ## Runs of digits -/

namespace Radix

/-- The value of the digits `ds` of the radix read after the value `v`, most significant first. -/
def valueFrom (r : Radix) (v : Nat) (ds : List Char) : Nat :=
  ds.foldl (fun v ch => v * r.val + (r.digit? ch).getD 0) v

@[simp] theorem valueFrom_nil (r : Radix) (v : Nat) : r.valueFrom v [] = v := rfl

@[simp] theorem valueFrom_cons (r : Radix) (v : Nat) (ch : Char) (ds : List Char) :
    r.valueFrom v (ch :: ds) = r.valueFrom (v * r.val + (r.digit? ch).getD 0) ds := rfl

/-- `ds` are `k` digits of the radix, letters in either case, that spell `n`. -/
structure Spells (r : Radix) (ds : List Char) (k n : Nat) : Prop where
  length_eq : ds.length = k
  digits : ∀ d ∈ ds, r.isDigit d = true
  value_eq : r.valueFrom 0 ds = n

theorem spells_iff {r : Radix} {ds : List Char} {k n : Nat} :
    r.Spells ds k n ↔ ds.length = k ∧ ds.all r.isDigit = true ∧ r.valueFrom 0 ds = n := by
  constructor
  · rintro ⟨hlen, hdig, hval⟩
    exact ⟨hlen, List.all_eq_true.2 hdig, hval⟩
  · rintro ⟨hlen, hdig, hval⟩
    exact ⟨hlen, List.all_eq_true.1 hdig, hval⟩

instance {r : Radix} {ds : List Char} {k n : Nat} : Decidable (r.Spells ds k n) :=
  decidable_of_iff _ spells_iff.symm

example : Radix.hex.Spells ['f', 'F'] 2 255 := by decide

theorem digit?_of_isDigit {r : Radix} {ch : Char} (h : r.isDigit ch = true) :
    ∃ d, r.digit? ch = some d ∧ d < r.val := by
  obtain ⟨d, hd⟩ := Option.isSome_iff_exists.1 h
  exact ⟨d, hd, Radix.digit?_lt hd⟩

theorem le_valueFrom (r : Radix) (v : Nat) (ds : List Char) : v ≤ r.valueFrom v ds := by
  induction ds generalizing v with
  | nil => simp
  | cons ch ds ih =>
    have hv : v ≤ v * r.val := Nat.le_mul_of_pos_right v (by have := r.two_le; omega)
    rw [valueFrom_cons]
    exact Nat.le_trans (by omega) (ih _)

theorem valueFrom_lt (r : Radix) {ds : List Char} (h : ∀ d ∈ ds, r.isDigit d = true) (v : Nat) :
    r.valueFrom v ds < (v + 1) * r.val ^ ds.length := by
  induction ds generalizing v with
  | nil => simp
  | cons ch ds ih =>
    obtain ⟨x, hx, hxlt⟩ := digit?_of_isDigit (h ch List.mem_cons_self)
    rw [valueFrom_cons, hx, Option.getD_some]
    calc r.valueFrom (v * r.val + x) ds
        < (v * r.val + x + 1) * r.val ^ ds.length :=
          ih (fun d hd => h d (List.mem_cons_of_mem _ hd)) _
      _ ≤ (v + 1) * r.val * r.val ^ ds.length := by
          apply Nat.mul_le_mul_right
          rw [Nat.add_mul, Nat.one_mul]
          omega
      _ = (v + 1) * r.val ^ (ds.length + 1) := by
          rw [Nat.pow_succ, Nat.mul_assoc, Nat.mul_comm r.val]

/-- What `k` digits of the radix spell is below the radix to the power `k`. -/
theorem Spells.lt {r : Radix} {ds : List Char} {k n : Nat} (h : r.Spells ds k n) :
    n < r.val ^ k := by
  have := valueFrom_lt r h.digits 0
  rwa [Nat.zero_add, Nat.one_mul, h.value_eq, h.length_eq] at this

theorem isDigit_replacement (r : Radix) : r.isDigit '�' = false := by
  simp [isDigit, digit?, digitValue?]

end Radix

namespace Accumulator

/-- The accumulator after the scalar `ch` of a run of digits: its digit pushed. -/
def take (a : Accumulator) (ch : Char) : Accumulator :=
  match a.radix.digit? ch with
  | some d => a.push d
  | none => a

@[simp] theorem take_radix (a : Accumulator) (ch : Char) : (a.take ch).radix = a.radix := by
  unfold take
  split <;> simp

theorem push_of_le {a : Accumulator} {d : Nat} (ho : a.overflow = false)
    (h : a.value * a.radix.val + d ≤ a.ceiling) :
    a.push d = { a with count := a.count + 1, value := a.value * a.radix.val + d } := by
  have hr := a.radix.two_le
  have h₁ : ¬ a.ceiling < d := by omega
  have h₂ : ¬ a.ceiling / a.radix.val < a.value := by
    rw [Nat.not_lt, Nat.le_div_iff_mul_le (by omega)]
    omega
  have h₃ : ¬ a.ceiling - d < a.value * a.radix.val := by omega
  simp [push, ho, h₁, h₂, h₃]

/-- Digits whose value stays under the ceiling are read into the value, and counted. -/
theorem foldl_take {a : Accumulator} {ds : List Char} (hdig : ∀ d ∈ ds, a.radix.isDigit d = true)
    (ho : a.overflow = false) (hfit : a.radix.valueFrom a.value ds ≤ a.ceiling) :
    ds.foldl take a =
      { a with value := a.radix.valueFrom a.value ds, count := a.count + ds.length } := by
  induction ds generalizing a with
  | nil => rfl
  | cons ch ds ih =>
    obtain ⟨x, hx, -⟩ := Radix.digit?_of_isDigit (hdig ch List.mem_cons_self)
    rw [Radix.valueFrom_cons, hx, Option.getD_some] at hfit
    have hle := Nat.le_trans (Radix.le_valueFrom _ _ ds) hfit
    have htake : a.take ch =
        { a with count := a.count + 1, value := a.value * a.radix.val + x } := by
      simp only [take, hx]
      exact push_of_le ho hle
    rw [List.foldl_cons, htake,
      ih (a := { a with count := a.count + 1, value := a.value * a.radix.val + x })
        (fun d hd => hdig d (List.mem_cons_of_mem _ hd)) ho hfit]
    simp only [Radix.valueFrom_cons, hx, Option.getD_some, List.length_cons, Nat.add_assoc,
      Nat.add_comm 1]

/-- A run of digits is read whole up to the limit: the accumulator takes each digit, and the
cursor stands past them. -/
theorem scan_spelled {a : Accumulator} {c : Cursor} {ds : List Char} {t : List UInt8}
    (hrest : c.rest = encodeAll ds ++ t) (hdig : ∀ d ∈ ds, a.radix.isDigit d = true)
    (hfit : c.position.Fits ds) :
    a.scan c (some (a.count + ds.length)) = .ok ((ds.foldl take a, ds), c.past ds) := by
  induction ds generalizing a c with
  | nil =>
    rw [scan, if_neg (by simp)]
    rfl
  | cons ch ds ih =>
    have hcons : c.rest = String.utf8EncodeChar ch ++ (encodeAll ds ++ t) := by
      rw [hrest, encodeAll_cons, List.append_assoc]
    obtain ⟨hfit₁, hfit₂⟩ := Position.Fits.append (show c.position.Fits ([ch] ++ ds) from hfit)
    obtain ⟨x, hx, -⟩ := Radix.digit?_of_isDigit (hdig ch List.mem_cons_self)
    have hlt := Cursor.rest_length_past_lt
      (show c.rest = encodeAll [ch] ++ (encodeAll ds ++ t) by simpa using hcons) (List.cons_ne_nil _ _)
    have hcount : (a.take ch).count + ds.length = a.count + (ds.length + 1) := by
      simp only [take, hx, push_count]
      omega
    have hnext := ih (a := a.take ch) (c := c.past [ch]) (Cursor.rest_past (by simpa using hcons))
      (fun d hd => by rw [take_radix]; exact hdig d (List.mem_cons_of_mem _ hd)) hfit₂
    rw [hcount] at hnext
    rw [scan, if_pos (by simp), Cursor.fetch_spelled hcons (hdig ch List.mem_cons_self) hfit₁,
      bind_eq_ok]
    refine ⟨_, rfl, ?_⟩
    dsimp only
    rw [if_pos hlt, bind_eq_ok]
    refine ⟨_, hnext, ?_⟩
    rw [← Cursor.past_append]
    rfl

theorem take_count {a : Accumulator} {ch : Char} (h : a.radix.isDigit ch = true) :
    (a.take ch).count = a.count + 1 := by
  obtain ⟨d, hd, -⟩ := Radix.digit?_of_isDigit h
  simp [take, hd]

/-- What a scan that reached its limit read: a run of digits, no longer than the limit allowed,
each taken by the accumulator, spelled by the bytes it moved past. -/
theorem scan_reads {a a' : Accumulator} {c c' : Cursor} {ds : List Char} {k : Nat}
    (h : a.scan c (some k) = .ok ((a', ds), c')) (hk : k ≤ a'.count) :
    a' = ds.foldl take a ∧ (∀ d ∈ ds, a.radix.isDigit d = true) ∧ ds.length ≤ k - a.count ∧
      c.rest = encodeAll ds ++ c'.rest ∧ c' = c.past ds := by
  induction a, c using Accumulator.scan.induct (some k) generalizing a' ds c' with
  | case1 a c hlim ih =>
    simp only [Option.all_some, decide_eq_true_eq] at hlim
    rw [scan, if_pos (by simpa using hlim)] at h
    obtain ⟨⟨r, c₁⟩, hf, h⟩ := bind_eq_ok.1 h
    cases r with
    | none =>
      simp only [pure_eq_ok, Prod.mk.injEq] at h
      obtain ⟨⟨rfl, -⟩, -⟩ := h
      omega
    | some ch =>
      have hdig := Cursor.fetch_some hf
      obtain ⟨hrest₁, rfl⟩ := Cursor.fetch_spelled_of_ok hf (Radix.isDigit_replacement _)
      have hcount := take_count hdig
      dsimp only at h
      split at h
      · next hlen =>
        obtain ⟨⟨⟨a'', more⟩, c''⟩, hc'', h⟩ := bind_eq_ok.1 h
        simp only [pure_eq_ok, Prod.mk.injEq] at h
        obtain ⟨⟨rfl, rfl⟩, rfl⟩ := h
        obtain ⟨rfl, hmore, hlen', hrest₂, rfl⟩ := ih ch (c.past [ch]) hlen hc'' hk
        have hmore' : ∀ d ∈ more, (a.take ch).radix.isDigit d = true := hmore
        have hlen'' : more.length ≤ k - (a.take ch).count := hlen'
        rw [take_radix] at hmore'
        rw [hcount] at hlen''
        refine ⟨rfl, ?_, ?_, ?_, by rw [← Cursor.past_append]; rfl⟩
        · intro d hd
          rcases List.mem_cons.1 hd with rfl | hd
          · exact hdig
          · exact hmore' d hd
        · simp only [List.length_cons]
          omega
        · rw [hrest₁, hrest₂, encodeAll_cons, List.append_assoc]
      · simp only [pure_eq_ok, Prod.mk.injEq] at h
        obtain ⟨⟨rfl, rfl⟩, rfl⟩ := h
        exact ⟨rfl, by simpa using hdig, by simp only [List.length_singleton]; omega,
          by simpa using hrest₁, rfl⟩
  | case2 a c hlim =>
    rw [scan, if_neg hlim] at h
    simp only [pure_eq_ok, Prod.mk.injEq] at h
    obtain ⟨⟨rfl, rfl⟩, rfl⟩ := h
    exact ⟨rfl, by simp, by simp, by simp, rfl⟩

/-- A fresh accumulator reads `k` digits that spell a value under its ceiling into that value. -/
theorem init_scan_spelled {r : Radix} {ceiling : Nat} {c : Cursor} {ds : List Char}
    {t : List UInt8} {k n : Nat} (hrest : c.rest = encodeAll ds ++ t) (hs : r.Spells ds k n)
    (hn : n ≤ ceiling) (hfit : c.position.Fits ds) :
    (init r ceiling).scan c (some k) = .ok ((⟨r, ceiling, n, k, false⟩, ds), c.past ds) := by
  have h := scan_spelled (a := init r ceiling) hrest hs.digits hfit
  rw [foldl_take hs.digits rfl (by rw [← hs.value_eq] at hn; exact hn)] at h
  simp only [init, Nat.zero_add, hs.length_eq, hs.value_eq] at h
  exact h

theorem init_scan_reads {r : Radix} {ceiling : Nat} {c c' : Cursor} {a : Accumulator}
    {ds : List Char} {k : Nat} (h : (init r ceiling).scan c (some k) = .ok ((a, ds), c'))
    (hk : k ≤ a.count) (hbound : r.val ^ k ≤ ceiling + 1) :
    r.Spells ds k a.value ∧ c.rest = encodeAll ds ++ c'.rest ∧ c' = c.past ds := by
  obtain ⟨rfl, hdig, hlen, hrest, rfl⟩ := scan_reads h hk
  have hlt := Radix.valueFrom_lt r hdig 0
  rw [Nat.zero_add, Nat.one_mul] at hlt
  have hpow : r.val ^ ds.length ≤ r.val ^ k :=
    Nat.pow_le_pow_right (by have := r.two_le; omega) (by simpa [init] using hlen)
  rw [foldl_take (a := init r ceiling) hdig rfl (by simp only [init]; omega)] at hk ⊢
  simp only [init, Nat.zero_add] at hk hlen
  exact ⟨⟨by omega, hdig, rfl⟩, hrest, rfl⟩

end Accumulator

/-! ## Decoders -/

variable {c c' : Cursor} {ds : List Char} {t : List UInt8}

theorem extractHex_spelled {k n : Nat} (hrest : c.rest = encodeAll ds ++ t)
    (hs : Radix.hex.Spells ds k n) (hk : k ≤ 8) (hfit : c.position.Fits ds) :
    extractHex c (some k) = .ok (⟨Radix.hex, extractCeiling, n, k, false⟩, c.past ds) := by
  have hn : n ≤ extractCeiling := by
    have hlt : n < 16 ^ k := hs.lt
    have hpow : 16 ^ k ≤ 16 ^ 8 := Nat.pow_le_pow_right (by decide) hk
    unfold extractCeiling
    omega
  unfold extractHex
  rw [Accumulator.init_scan_spelled hrest hs hn hfit]
  rfl

theorem extractOctal_spelled {k n : Nat} (hrest : c.rest = encodeAll ds ++ t)
    (hs : Radix.octal.Spells ds k n) (hk : k ≤ 8) (hfit : c.position.Fits ds) :
    extractOctal c (some k) = .ok (⟨Radix.octal, extractCeiling, n, k, false⟩, c.past ds) := by
  have hn : n ≤ extractCeiling := by
    have hlt : n < 8 ^ k := hs.lt
    have hpow : 8 ^ k ≤ 8 ^ 8 := Nat.pow_le_pow_right (by decide) hk
    unfold extractCeiling
    omega
  unfold extractOctal
  rw [Accumulator.init_scan_spelled hrest hs hn hfit]
  rfl

/-- Two hexadecimal digits spelling a byte are read as that byte. -/
theorem readHexByte_spelled {b : UInt8} (hrest : c.rest = encodeAll ds ++ t)
    (hs : Radix.hex.Spells ds 2 b.toNat) (hfit : c.position.Fits ds) :
    readHexByte c = .ok (.matched (c.past ds) (.ofByte b)) := by
  unfold readHexByte
  rw [extractHex_spelled hrest hs (by decide) hfit]
  simp [writeByte, b.toNat_lt, pure, Except.pure, bind, Except.bind]

theorem readOctalByte_spelled {b : UInt8} (hrest : c.rest = encodeAll ds ++ t)
    (hs : Radix.octal.Spells ds 3 b.toNat) (hfit : c.position.Fits ds) :
    readOctalByte c = .ok (.matched (c.past ds) (.ofByte b)) := by
  unfold readOctalByte
  rw [extractOctal_spelled hrest hs (by decide) hfit]
  simp [writeByte, b.toNat_lt, pure, Except.pure, bind, Except.bind]

theorem writeScalar_toNat (c : Cursor) (ch : Char) :
    writeScalar c ch.toNat = .matched c (.ofChar ch) := by
  rw [writeScalar, if_pos (show ch.toNat.isValidChar from ch.valid), Char.ofNat_toNat]

/-- Four hexadecimal digits spelling a scalar are read as that scalar. -/
theorem readHexScalar4_spelled {ch : Char} (hrest : c.rest = encodeAll ds ++ t)
    (hs : Radix.hex.Spells ds 4 ch.toNat) (hfit : c.position.Fits ds) :
    readHexScalar4 c = .ok (.matched (c.past ds) (.ofChar ch)) := by
  unfold readHexScalar4
  rw [extractHex_spelled hrest hs (by decide) hfit]
  simp [writeScalar_toNat, pure, Except.pure, bind, Except.bind]

theorem readHexScalar8_spelled {ch : Char} (hrest : c.rest = encodeAll ds ++ t)
    (hs : Radix.hex.Spells ds 8 ch.toNat) (hfit : c.position.Fits ds) :
    readHexScalar8 c = .ok (.matched (c.past ds) (.ofChar ch)) := by
  unfold readHexScalar8
  rw [extractHex_spelled hrest hs (by decide) hfit]
  simp [writeScalar_toNat, pure, Except.pure, bind, Except.bind]

/-- Four hexadecimal digits are read as the UTF-16 unit they spell. -/
theorem readUnit_spelled {u : Nat} (hrest : c.rest = encodeAll ds ++ t)
    (hs : Radix.hex.Spells ds 4 u) (hfit : c.position.Fits ds) (committed : Bool) :
    readUnit c committed = .ok (.ok u, c.past ds) := by
  unfold readUnit
  rw [extractHex_spelled hrest hs (by decide) hfit]
  simp [pure, Except.pure, bind, Except.bind]

/-- A UTF-16 unit that was read is spelled by the four hexadecimal digits the cursor moved past. -/
theorem readUnit_reads {committed : Bool} {u : Nat} (h : readUnit c committed = .ok (.ok u, c')) :
    ∃ ds, Radix.hex.Spells ds 4 u ∧ c.rest = encodeAll ds ++ c'.rest ∧ c' = c.past ds := by
  unfold readUnit at h
  obtain ⟨⟨a, c₁⟩, hx, h⟩ := bind_eq_ok.1 h
  unfold extractHex at hx
  obtain ⟨⟨⟨a', ds⟩, c₂⟩, hs, hx⟩ := bind_eq_ok.1 hx
  simp only [pure_eq_ok, Prod.mk.injEq] at hx
  obtain ⟨rfl, rfl⟩ := hx
  dsimp only at h
  split at h
  · simp [pure_eq_ok] at h
  · split at h
    · next hfour =>
      simp only [pure_eq_ok, Prod.mk.injEq, Except.ok.injEq] at h
      obtain ⟨rfl, rfl⟩ := h
      obtain ⟨hsp, hrest, rfl⟩ :=
        Accumulator.init_scan_reads hs (by omega) (by unfold extractCeiling; decide)
      exact ⟨ds, hsp, hrest, rfl⟩
    · simp [pure_eq_ok] at h

/-! ## Escapes -/

theorem attemptEntry_lookup {table : List (Char × Substitution)} {key : Char} {s : Substitution}
    (h : table.lookup key = some s) (c : Cursor) :
    attemptEntry table key c = (do let (_, c) ← c.hop key; return some (← s.apply key c)) := by
  induction table with
  | nil => simp at h
  | cons e table ih =>
    obtain ⟨k, s'⟩ := e
    by_cases hk : k = key
    · subst hk
      simp only [List.lookup_cons, beq_self_eq_true, Option.some.injEq] at h
      subst h
      rw [attemptEntry, if_pos rfl]
    · have hne : (key == k) = false := beq_false_of_ne (Ne.symm hk)
      simp only [List.lookup_cons, hne] at h
      rw [attemptEntry, if_neg hk, ih h]

theorem attemptEntry_lookup_none {table : List (Char × Substitution)} {key : Char}
    (h : table.lookup key = none) (c : Cursor) : attemptEntry table key c = pure none := by
  induction table with
  | nil => rfl
  | cons e table ih =>
    obtain ⟨k, s'⟩ := e
    by_cases hk : k = key
    · subst hk
      simp at h
    · have hne : (key == k) = false := beq_false_of_ne (Ne.symm hk)
      simp only [List.lookup_cons, hne] at h
      rw [attemptEntry, if_neg hk, ih h]

/-- The lead scalar and a key with an entry in the table: the escape reads both, then does what
the key's entry says. -/
theorem escape_entry {lead key : Char} {table : List (Char × Substitution)}
    {fallback : Option Substitution} {s : Substitution} {a : Attempt}
    (hrest : c.rest = encodeAll [lead, key] ++ t) (hfit : c.position.Fits [lead, key])
    (hs : table.lookup key = some s) (ha : s.apply key (c.past [lead, key]) = .ok a) :
    (Term.escape lead table fallback).attempt c = .ok a := by
  obtain ⟨hfit₁, hfit₂⟩ := Position.Fits.append (show c.position.Fits ([lead] ++ [key]) from hfit)
  have hlead : c.rest = String.utf8EncodeChar lead ++ (String.utf8EncodeChar key ++ t) := by
    simpa using hrest
  have hkey : (c.past [lead]).rest = String.utf8EncodeChar key ++ t :=
    Cursor.rest_past (by simpa using hlead)
  have hpast : (c.past [lead]).past [key] = c.past [lead, key] := (Cursor.past_append _ _ _).symm
  simp only [Term.attempt]
  rw [Cursor.hop_spelled hlead hfit₁]
  simp only [bind, Except.bind, pure, Except.pure, Bool.not_true, Bool.false_eq_true, if_false]
  rw [Cursor.peek_spelled hkey]
  simp only [attemptEntry_lookup hs, Cursor.hop_spelled hkey hfit₂, hpast, ha, bind,
    Except.bind, pure, Except.pure]

/-- The lead scalar and a key without an entry, where the fallback is a decoder: the escape reads
the lead only and hands the key to the decoder. -/
theorem escape_fallback {lead key : Char} {table : List (Char × Substitution)} {d : Term}
    {a : Attempt} (hrest : c.rest = encodeAll [lead, key] ++ t) (hfit : c.position.Fits [lead])
    (hs : table.lookup key = none) (ha : (Substitution.term d).apply key (c.past [lead]) = .ok a) :
    (Term.escape lead table (some (.term d))).attempt c = .ok a := by
  have hlead : c.rest = String.utf8EncodeChar lead ++ (String.utf8EncodeChar key ++ t) := by
    simpa using hrest
  have hkey : (c.past [lead]).rest = String.utf8EncodeChar key ++ t :=
    Cursor.rest_past (by simpa using hlead)
  simp only [Term.attempt]
  rw [Cursor.hop_spelled hlead hfit]
  simp only [bind, Except.bind, pure, Except.pure, Bool.not_true, Bool.false_eq_true, if_false]
  rw [Cursor.peek_spelled hkey]
  simp only [attemptEntry_lookup_none hs, attemptFallback, Substitution.isTerm, if_true, ha,
    bind, Except.bind, pure, Except.pure]

/-- Where something other than its lead stands, an escape does not apply, and reads nothing. -/
theorem escape_absent {ch lead : Char} {table : List (Char × Substitution)}
    {fallback : Option Substitution} (h : c.rest = String.utf8EncodeChar ch ++ t) (hne : ch ≠ lead) :
    (Term.escape lead table fallback).attempt c = .ok (.failed .unmatched c .empty) := by
  simp only [Term.attempt]
  rw [Cursor.hop_spelled_ne h hne]
  rfl

theorem apply_term_matched {d : Term} {key : Char} {w : Capture}
    (h : d.attempt c = .ok (.matched c' w)) :
    (Substitution.term d).apply key c = .ok (.matched c' w) := by
  simp only [Substitution.apply, h]
  rfl

/-! ## The body of a quoted literal -/

section Quoted

variable {q : Char} {p : Char → Bool} {esc : Step} {w : Capture} {a : Attempt}

/-- An opening quote of the class is read, and the body begins after it. -/
theorem quoted_opens {quote content : CharClass} {escape : Option Term}
    (h : c.rest = String.utf8EncodeChar q ++ t) (hq : quote.contains q = true)
    (hfit : c.position.Fits [q]) :
    (Term.quoted quote content escape).attempt c =
      readQuotedBody q content.contains (attemptEscapeStep escape) (c.past [q]) := by
  simp only [Term.attempt]
  rw [Cursor.fetch_spelled h hq hfit]
  rfl

/-- A round whose escape matches and moves on goes on from where the escape stopped. -/
theorem quotedRound_escape (he : esc c = .ok (.matched c' w))
    (hlt : c'.rest.length < c.rest.length) : quotedRound q p esc c = .ok (.again c' w) := by
  unfold quotedRound
  rw [he, bind_eq_ok]
  refine ⟨_, rfl, ?_⟩
  simp only [Attempt.matched_outcome, Attempt.matched_cursor, Attempt.matched_written, hlt,
    if_true]
  rfl

theorem quotedRound_closes (he : esc c = .ok (.failed .unmatched c .empty))
    (h : c.rest = String.utf8EncodeChar q ++ t) (hfit : c.position.Fits [q]) :
    quotedRound q p esc c = .ok (.finished (.matched (c.past [q]) .empty)) := by
  unfold quotedRound closeOrContent
  rw [he]
  simp only [bind, Except.bind, Attempt.failed]
  rw [Cursor.hop_spelled h hfit]
  rfl

theorem quotedRound_content {ch : Char} (he : esc c = .ok (.failed .unmatched c .empty))
    (h : c.rest = String.utf8EncodeChar ch ++ t) (hne : ch ≠ q) (hp : p ch = true)
    (hfit : c.position.Fits [ch]) :
    quotedRound q p esc c = .ok (.again (c.past [ch]) (.ofChar ch)) := by
  unfold quotedRound closeOrContent
  rw [he]
  simp only [bind, Except.bind, Attempt.failed]
  rw [Cursor.hop_spelled_ne h hne]
  simp only [pure, Except.pure, Bool.false_eq_true, if_false]
  rw [Cursor.fetch_spelled h hp hfit]
  simp [Capture.empty_append]

theorem readQuotedBody_again (hr : quotedRound q p esc c = .ok (.again c' w))
    (hlt : c'.rest.length < c.rest.length) (hb : readQuotedBody q p esc c' = .ok a) :
    readQuotedBody q p esc c = .ok (a.after w) := by
  rw [readQuotedBody, hr]
  simp only [bind, Except.bind]
  rw [if_pos hlt, hb]
  rfl

theorem readQuotedBody_finished (hr : quotedRound q p esc c = .ok (.finished a)) :
    readQuotedBody q p esc c = .ok a := by
  rw [readQuotedBody, hr]
  rfl

end Quoted

end Lexer
