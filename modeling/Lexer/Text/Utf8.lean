/-! # UTF-8 at the front of a byte string

`Utf8.decode` reads the first scalar of a byte string, or the invalid span that stands there: the
lead byte and every continuation byte after it. A lead byte announces a width from a coarse
table, and the bytes are taken only when they are well-formed UTF-8. `Utf8.units` cuts a whole
byte string into what `decode` reads, one after the other.
-/

namespace Lexer.Utf8

def isContinuation (b : UInt8) : Bool :=
  b &&& 0xC0 == 0x80

/-- The width a lead byte announces; every byte outside the three lead ranges announces one. -/
def leadWidth (b : UInt8) : Nat :=
  if 0xC0 ≤ b ∧ b ≤ 0xDF then 2
  else if 0xE0 ≤ b ∧ b ≤ 0xEF then 3
  else if 0xF0 ≤ b ∧ b ≤ 0xF7 then 4
  else 1

def leadBits (b : UInt8) (width : Nat) : Nat :=
  match width with
  | 2 => (b &&& 0x1F).toNat
  | 3 => (b &&& 0x0F).toNat
  | _ => (b &&& 0x07).toNat

def leastScalar (width : Nat) : Nat :=
  match width with
  | 2 => 0x80
  | 3 => 0x800
  | _ => 0x10000

/-- The scalar that a lead byte and its continuation bytes spell, if they are well formed:
every follower is a continuation byte, the value is not overlong, and it is a scalar value. -/
def scalarOf? (lead : UInt8) (followers : List UInt8) : Option Char :=
  let width := followers.length + 1
  let value := followers.foldl (fun acc b => acc * 64 + (b &&& 0x3F).toNat) (leadBits lead width)
  if followers.all isContinuation ∧ leastScalar width ≤ value ∧ value.isValidChar then
    some (Char.ofNat value)
  else
    none

/-- The length of the invalid span that starts with `lead`: the lead and the continuation
bytes after it. -/
def invalidLength (afterLead : List UInt8) : Nat :=
  (afterLead.takeWhile isContinuation).length + 1

/-- What stands at the front of a byte string. -/
inductive Decoded where
  | scalar (c : Char) (width : Nat)
  | invalid (length : Nat)
  | empty
deriving DecidableEq, Repr

/-- Reads the scalar at the front of `bytes`. -/
def decode : List UInt8 → Decoded
  | [] => .empty
  | lead :: rest =>
    if lead < 0x80 then .scalar (Char.ofUInt8 lead) 1
    else
      let width := leadWidth lead
      let announced := rest.take (width - 1)
      if 1 < width ∧ announced.length = width - 1 then
        match scalarOf? lead announced with
        | some c => .scalar c width
        | none => .invalid (invalidLength rest)
      else .invalid (invalidLength rest)

def encode (s : String) : List UInt8 :=
  s.toList.flatMap String.utf8EncodeChar

def Decoded.width : Decoded → Nat
  | .scalar _ w => w
  | .invalid n => n
  | .empty => 0

@[simp] theorem decode_nil : decode [] = .empty := rfl

theorem decode_of_lt (b : UInt8) (rest : List UInt8) (h : b < 0x80) :
    decode (b :: rest) = .scalar (Char.ofUInt8 b) 1 := by
  simp [decode, h]

theorem decode_cons_ne_empty (b : UInt8) (rest : List UInt8) : decode (b :: rest) ≠ .empty := by
  simp only [decode]
  split
  · simp
  · split
    · split <;> simp
    · simp

theorem invalidLength_le (rest : List UInt8) : invalidLength rest ≤ rest.length + 1 := by
  unfold invalidLength
  have := (List.takeWhile_sublist isContinuation (l := rest)).length_le
  omega

theorem decode_width_le (bs : List UInt8) : (decode bs).width ≤ bs.length := by
  match bs with
  | [] => simp [Decoded.width]
  | b :: rest =>
    simp only [decode]
    split
    · simp [Decoded.width]
    · have hi := invalidLength_le rest
      split
      · next h =>
        have announced := h.2
        rw [List.length_take] at announced
        split <;> simp only [Decoded.width, List.length_cons]
        · omega
        · exact hi
      · simpa [Decoded.width] using hi

theorem decode_width_pos (b : UInt8) (rest : List UInt8) : 0 < (decode (b :: rest)).width := by
  simp only [decode]
  split
  · simp [Decoded.width]
  · split
    · next h =>
      split <;> simp only [Decoded.width, invalidLength] <;> omega
    · simp [Decoded.width, invalidLength]

/-- The units of a byte string: what `decode` reads at its front, then the units of the rest,
an invalid sequence being one unit. -/
def units : List UInt8 → List Decoded
  | [] => []
  | b :: rest => decode (b :: rest) :: units ((b :: rest).drop (decode (b :: rest)).width)
termination_by bs => bs.length
decreasing_by
  have := decode_width_pos b rest
  simp only [List.length_drop, List.length_cons]
  omega

example : decode [0x61, 0x62] = .scalar 'a' 1 := by decide
example : decode [0xC3, 0xA9] = .scalar 'é' 2 := by decide
example : decode [0x80, 0x80, 0x80, 0x41] = .invalid 3 := by decide
example : decode [0xE0, 0x9F, 0xBF] = .invalid 3 := by decide
example : decode [0xED, 0xA0, 0x80] = .invalid 3 := by decide
example : decode [0xF4, 0x90, 0x80, 0x80] = .invalid 4 := by decide
example : decode [0xC2, 0x41] = .invalid 1 := by decide
example : units [0x61, 0xFF, 0x80, 0x62] = [.scalar 'a' 1, .invalid 2, .scalar 'b' 1] := by cbv

end Lexer.Utf8
