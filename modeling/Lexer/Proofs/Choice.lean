import Mathlib
import Lexer.Proofs.Reading
/-! # A choice of literals reads the longest text that stands

`Term.anyLiteral? alts` agrees with the plain search over its texts (`LongestAt`): it reads the
longest text of `alts` that stands ahead, or fails with `unmatched` and moves nothing. Trying the
texts that begin with the scalar ahead, longest first, finds it, since that scalar begins them all.
-/

namespace Lexer

open Utf8

namespace Utf8

theorem length_encode (s : String) : (encode s).length = s.utf8ByteSize := by
  rw [← String.size_toByteArray, ← String.utf8Encode_toList, List.utf8Encode]
  simp [encode]

theorem encode_injective : Function.Injective encode := by
  intro s t h
  rw [← String.toByteArray_inj, ← String.utf8Encode_toList, ← String.utf8Encode_toList,
    List.utf8Encode, List.utf8Encode]
  exact congrArg List.toByteArray h

/-- Two texts of one byte length that stand at the same bytes are one text. -/
theorem eq_of_stands_of_length_eq {s t : String} {bytes : List UInt8} (hs : encode s <+: bytes)
    (ht : encode t <+: bytes) (hlen : (encode s).length = (encode t).length) : s = t :=
  encode_injective (List.IsPrefix.eq_of_length (List.prefix_of_prefix_length_le hs ht hlen.le) hlen)

end Utf8

/-- `s` is a longest of the texts `alts` whose bytes stand at the front of `bytes`. -/
structure LongestAt (alts : List String) (bytes : List UInt8) (s : String) : Prop where
  mem : s ∈ alts
  stands : encode s <+: bytes
  longest : ∀ s' ∈ alts, encode s' <+: bytes → (encode s').length ≤ (encode s).length

namespace LongestAt

variable {alts alts' : List String} {bytes : List UInt8} {s s' : String}

theorem exists_of_stands (h : ∃ s ∈ alts, encode s <+: bytes) :
    ∃ s, LongestAt alts bytes s := by
  obtain ⟨s₀, hmem, hs₀⟩ := h
  let standing := (alts.filter fun s => (encode s).isPrefixOf bytes).toFinset
  have hne : standing.Nonempty :=
    ⟨s₀, by simp [standing, hmem, hs₀]⟩
  obtain ⟨s, hs, hmax⟩ := Finset.exists_max_image standing (fun s => (encode s).length) hne
  simp only [standing, List.mem_toFinset, List.mem_filter, List.isPrefixOf_iff_prefix] at hs hmax
  exact ⟨s, hs.1, hs.2, fun s' hm hp => hmax s' ⟨hm, hp⟩⟩

/-- Being a longest text depends on which texts are given, not on their order or repetitions. -/
theorem congr (hsame : ∀ s, s ∈ alts' ↔ s ∈ alts) (h : LongestAt alts bytes s) :
    LongestAt alts' bytes s :=
  ⟨(hsame s).2 h.mem, h.stands, fun s' hm hp => h.longest s' ((hsame s').1 hm) hp⟩

end LongestAt

/-! ## The ordered texts -/

namespace Term

theorem mem_foldl_dedup (alts kept : List String) (s : String) :
    s ∈ alts.foldl (fun kept a => if kept.contains a then kept else kept ++ [a]) kept ↔
      s ∈ kept ∨ s ∈ alts := by
  induction alts generalizing kept with
  | nil => simp
  | cons a alts ih =>
    rw [List.foldl_cons, ih]
    by_cases ha : kept.contains a
    · have hmem : a ∈ kept := by simpa using ha
      simp only [ha, if_true, List.mem_cons]
      constructor
      · rintro (h | h)
        · exact .inl h
        · exact .inr (.inr h)
      · rintro (h | rfl | h)
        · exact .inl h
        · exact .inl hmem
        · exact .inr h
    · simp only [ha, Bool.false_eq_true, if_false, List.mem_append, List.mem_cons]
      tauto

theorem mem_orderAlternatives {alts : List String} {s : String} :
    s ∈ orderAlternatives alts ↔ s ∈ alts := by
  rw [orderAlternatives, List.mem_mergeSort, mem_foldl_dedup]
  simp

/-- The ordered texts run longest first. -/
theorem orderAlternatives_longest_first (alts : List String) :
    (orderAlternatives alts).Pairwise fun a b => (encode b).length ≤ (encode a).length := by
  unfold orderAlternatives
  refine List.Pairwise.imp (fun {a b} hab => ?_)
    (List.pairwise_mergeSort (fun a b c hab hbc => ?_) (fun a b => ?_) _)
  · simpa [length_encode] using hab
  · simp only [decide_eq_true_eq] at hab hbc ⊢
    omega
  · simp only [Bool.or_eq_true, decide_eq_true_eq]
    omega

theorem anyLiteral?_eq_ok {alts : List String} {t : Term} (h : anyLiteral? alts = .ok t) :
    t = anyLiteral (orderAlternatives alts) ∧ ∀ s ∈ alts, s.toList ≠ [] := by
  unfold anyLiteral? at h
  split at h
  · cases h
  · next hempty =>
    split at h
    · cases h
    · refine ⟨(Except.ok.inj h).symm, fun s hs hnil => hempty ?_⟩
      exact List.any_eq_true.2 ⟨s, hs, String.isEmpty_iff.2 (String.toList_eq_nil_iff.1 hnil)⟩

end Term

/-! ## Reading the choice -/

variable {c : Cursor}

theorem Cursor.peek_eq_some {ch : Char} {c₁ : Cursor} (h : c.peek = (some ch, c₁)) :
    c₁ = c := by
  unfold Cursor.peek at h
  rcases hs : c.scan with ⟨_ | ⟨ch', w⟩, c₂⟩
  · simp [hs] at h
  · simp only [hs, Option.map_some, Prod.mk.injEq] at h
    obtain ⟨-, rfl⟩ := h
    exact (Cursor.scan_eq_some hs).1

theorem literal_spelled {s : String} {t : List UInt8} (h : c.rest = encodeAll s.toList ++ t)
    (hfit : c.position.Fits s.toList) :
    (Term.literal s).attempt c = .ok (.matched (c.past s.toList) (.ofText s)) := by
  simp only [Term.attempt]
  rw [Cursor.leap_spelled h hfit]
  rfl

theorem leapFirst_none {alts : List String} (h : ∀ s ∈ alts, ¬ encode s <+: c.rest) :
    leapFirst c alts = .ok (.failed .unmatched c .empty) := by
  induction alts with
  | nil => rfl
  | cons a alts ih =>
    rw [leapFirst, Cursor.leap_absent (h a List.mem_cons_self)]
    exact ih fun s hs => h s (List.mem_cons_of_mem _ hs)

/-- Trying texts in turn, longest first, reads the longest one that stands, as its literal does. -/
theorem leapFirst_longest {alts : List String} {s : String}
    (hsort : alts.Pairwise fun a b => (encode b).length ≤ (encode a).length)
    (h : LongestAt alts c.rest s) : leapFirst c alts = (Term.literal s).attempt c := by
  induction alts with
  | nil => exact absurd h.mem List.not_mem_nil
  | cons a alts ih =>
    rw [List.pairwise_cons] at hsort
    by_cases ha : encode a <+: c.rest
    · have hge : (encode s).length ≤ (encode a).length := by
        rcases List.mem_cons.1 h.mem with rfl | hm
        · exact le_rfl
        · exact hsort.1 s hm
      obtain rfl : s = a := eq_of_stands_of_length_eq h.stands ha
        (Nat.le_antisymm hge (h.longest a List.mem_cons_self ha))
      rw [leapFirst]
      simp only [Term.attempt]
      rcases hl : c.leap s with e | ⟨b, c'⟩
      · rfl
      · rcases Cursor.leap_eq_ok hl with ⟨rfl, -⟩ | ⟨-, hn, -⟩
        · rfl
        · exact absurd ha hn
    · have hm : s ∈ alts :=
        (List.mem_cons.1 h.mem).resolve_left fun hsa => ha (hsa ▸ h.stands)
      rw [leapFirst, Cursor.leap_absent ha]
      exact ih hsort.2 ⟨hm, h.stands, fun s' hs' => h.longest s' (List.mem_cons_of_mem _ hs')⟩

/-- Texts ordered longest first, none empty: the choice reads the longest that stands. -/
theorem readAnyLiteral_longest {alts : List String} {s : String}
    (hsort : alts.Pairwise fun a b => (encode b).length ≤ (encode a).length)
    (hne : ∀ a ∈ alts, a.toList ≠ []) (h : LongestAt alts c.rest s) :
    readAnyLiteral c alts = (Term.literal s).attempt c := by
  obtain ⟨ch, cs, hcs⟩ := List.exists_cons_of_ne_nil (hne s h.mem)
  obtain ⟨t, ht⟩ := h.stands
  have hrest : c.rest = String.utf8EncodeChar ch ++ (encodeAll cs ++ t) := by
    rw [← ht, encode_eq_encodeAll, hcs, encodeAll_cons, List.append_assoc]
  rw [readAnyLiteral, Cursor.peek_spelled hrest]
  refine leapFirst_longest (hsort.filter _)
    ⟨List.mem_filter.2 ⟨h.mem, by simp [hcs]⟩, h.stands,
      fun s' hs' => h.longest s' (List.mem_filter.1 hs').1⟩

theorem readAnyLiteral_none {alts : List String} (h : ∀ s ∈ alts, ¬ encode s <+: c.rest) :
    readAnyLiteral c alts = .ok (.failed .unmatched c.peek.2 .empty) := by
  unfold readAnyLiteral
  rcases hp : c.peek with ⟨_ | first, c₁⟩
  · rfl
  · obtain rfl := Cursor.peek_eq_some hp
    exact leapFirst_none fun s hs => h s (List.mem_filter.1 hs).1

theorem anyLiteral?_attempt_longest {alts : List String} {t : Term} {s : String}
    (h : Term.anyLiteral? alts = .ok t) (hl : LongestAt alts c.rest s) :
    t.attempt c = (Term.literal s).attempt c := by
  obtain ⟨rfl, hne⟩ := Term.anyLiteral?_eq_ok h
  simp only [Term.attempt]
  exact readAnyLiteral_longest (Term.orderAlternatives_longest_first alts)
    (fun a ha => hne a (Term.mem_orderAlternatives.1 ha))
    (hl.congr fun _ => Term.mem_orderAlternatives)

theorem anyLiteral?_attempt_none {alts : List String} {t : Term}
    (h : Term.anyLiteral? alts = .ok t) (hn : ∀ s ∈ alts, ¬ encode s <+: c.rest) :
    t.attempt c = .ok (.failed .unmatched c.peek.2 .empty) := by
  obtain ⟨rfl, -⟩ := Term.anyLiteral?_eq_ok h
  simp only [Term.attempt]
  exact readAnyLiteral_none fun s hs => hn s (Term.mem_orderAlternatives.1 hs)

/-- A choice of literals is the plain longest-text search. For texts from which a choice can be
built and any cursor, whatever its policy and bytes: where a longest text of `alts` stands ahead,
the choice reads it as its literal does, and so, where the counts fit, moves past exactly its bytes
and writes it; where none stands, it fails with `unmatched` at the cursor it only looked from. Two
lists of the same texts, in any order and with any repetitions, give choices that read alike. -/
theorem anyLiteral_reads_longest_standing {alts : List String} {t : Term}
    (h : Term.anyLiteral? alts = .ok t) (c : Cursor) :
    (∀ s, LongestAt alts c.rest s → t.attempt c = (Term.literal s).attempt c ∧
      (c.position.Fits s.toList → t.attempt c = .ok (.matched (c.past s.toList) (.ofText s)))) ∧
    ((∀ s ∈ alts, ¬ encode s <+: c.rest) →
      t.attempt c = .ok (.failed .unmatched c.peek.2 .empty)) ∧
    ∀ alts' t', Term.anyLiteral? alts' = .ok t' → (∀ s, s ∈ alts' ↔ s ∈ alts) →
      t'.attempt c = t.attempt c := by
  refine ⟨fun s hl => ⟨anyLiteral?_attempt_longest h hl, fun hfit => ?_⟩,
    anyLiteral?_attempt_none h, fun alts' t' h' hsame => ?_⟩
  · obtain ⟨suffix, hs⟩ := hl.stands
    have hrest : c.rest = encodeAll s.toList ++ suffix := by rw [← hs, encode_eq_encodeAll]
    rw [anyLiteral?_attempt_longest h hl, literal_spelled hrest hfit]
  · by_cases hst : ∃ s ∈ alts, encode s <+: c.rest
    · obtain ⟨s, hl⟩ := LongestAt.exists_of_stands hst
      rw [anyLiteral?_attempt_longest h' (hl.congr hsame), anyLiteral?_attempt_longest h hl]
    · have hn : ∀ s ∈ alts, ¬ encode s <+: c.rest := fun s hs hp => hst ⟨s, hs, hp⟩
      rw [anyLiteral?_attempt_none h' fun s hs => hn s ((hsame s).1 hs),
        anyLiteral?_attempt_none h hn]

/-- `+` given twice and `+=`: before `+=1` the choice reads `+=`, the longer text that stands,
and writes it. -/
theorem plus_assign_read_over_plus :
    Term.anyLiteral? ["+", "+=", "+"] = .ok (.anyLiteral ["+=", "+"]) ∧
    (Term.anyLiteral ["+=", "+"]).attempt (Cursor.init (encode "+=1") .lenient .start) =
      .ok (.matched ⟨[49], 2, ⟨0, 2⟩, .lenient, none⟩ (.ofText "+=")) := by
  have h : Term.anyLiteral? ["+", "+=", "+"] = .ok (.anyLiteral ["+=", "+"]) := by cbv
  have hl : LongestAt ["+", "+=", "+"] (encode "+=1") "+=" := ⟨by simp, by decide, by decide⟩
  refine ⟨h, ?_⟩
  rw [((anyLiteral_reads_longest_standing h _).1 "+=" hl).2 ⟨by decide, by decide⟩]
  rfl

end Lexer
