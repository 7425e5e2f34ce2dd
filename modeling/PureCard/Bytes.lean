/-
PureCard.Bytes — byte strings and the byte predicates the automaton and
the schema overlay share.

A Rust `Vec<u8>`, `&[u8]` or `String` is a `Bytes` here: a `String` is
the UTF-8 byte sequence it holds, and every comparison the decoder makes
on strings is a comparison of those bytes. `isUtf8` is the well-formed
byte sequence table that `std::str::from_utf8` checks.

The byte constants carry the names of the characters, so that a branch
`if b = Byte.pipe` reads as the source's `b'|'`.
-/
import Mathlib.Tactic.Common

namespace PureCard

/-- A byte string: Rust's `Vec<u8>`, `&[u8]` and `String`. -/
abbrev Bytes := List UInt8

/-- The bytes of an ASCII literal, for the names the source spells out. -/
def ascii (s : String) : Bytes := s.toList.map Char.toUInt8

namespace Byte

@[simp] abbrev space : UInt8 := 32
@[simp] abbrev bang : UInt8 := 33
@[simp] abbrev dollar : UInt8 := 36
@[simp] abbrev percent : UInt8 := 37
@[simp] abbrev amp : UInt8 := 38
@[simp] abbrev quote : UInt8 := 39
@[simp] abbrev lparen : UInt8 := 40
@[simp] abbrev rparen : UInt8 := 41
@[simp] abbrev star : UInt8 := 42
@[simp] abbrev plus : UInt8 := 43
@[simp] abbrev comma : UInt8 := 44
@[simp] abbrev dash : UInt8 := 45
@[simp] abbrev dot : UInt8 := 46
@[simp] abbrev slash : UInt8 := 47
@[simp] abbrev colon : UInt8 := 58
@[simp] abbrev semi : UInt8 := 59
@[simp] abbrev lt : UInt8 := 60
@[simp] abbrev eq : UInt8 := 61
@[simp] abbrev gt : UInt8 := 62
@[simp] abbrev bigE : UInt8 := 69
@[simp] abbrev bigT : UInt8 := 84
@[simp] abbrev lbracket : UInt8 := 91
@[simp] abbrev rbracket : UInt8 := 93
@[simp] abbrev underscore : UInt8 := 95
@[simp] abbrev e : UInt8 := 101
@[simp] abbrev l : UInt8 := 108
@[simp] abbrev t : UInt8 := 116
@[simp] abbrev lbrace : UInt8 := 123
@[simp] abbrev pipe : UInt8 := 124
@[simp] abbrev rbrace : UInt8 := 125
@[simp] abbrev tilde : UInt8 := 126

end Byte

/-! ## ASCII classes -/

/-- `u8::is_ascii_digit`. -/
def isAsciiDigit (b : UInt8) : Bool := 48 ≤ b && b ≤ 57

/-- `u8::is_ascii_lowercase`. -/
def isAsciiLowercase (b : UInt8) : Bool := 97 ≤ b && b ≤ 122

/-- `u8::is_ascii_alphabetic`. -/
def isAsciiAlphabetic (b : UInt8) : Bool := (65 ≤ b && b ≤ 90) || isAsciiLowercase b

/-- `u8::is_ascii_alphanumeric`. -/
def isAsciiAlphanumeric (b : UInt8) : Bool := isAsciiAlphabetic b || isAsciiDigit b

/-- `u8::is_ascii_whitespace`: the automaton's four plus the form feed. -/
def isAsciiWhitespace (b : UInt8) : Bool :=
  b == 9 || b == 10 || b == 12 || b == 13 || b == 32

/-! ## UTF-8 well-formedness -/

/-- A UTF-8 continuation byte. -/
def isUtf8Cont (b : UInt8) : Bool := 128 ≤ b && b ≤ 191

/-- The second byte a three-byte sequence may have after its lead byte:
no overlong form, no surrogate. -/
def utf8Second3 (b0 b1 : UInt8) : Bool :=
  if b0 = 224 then 160 ≤ b1 && b1 ≤ 191
  else if b0 = 237 then 128 ≤ b1 && b1 ≤ 159
  else isUtf8Cont b1

/-- The second byte a four-byte sequence may have after its lead byte:
no overlong form, nothing past U+10FFFF. -/
def utf8Second4 (b0 b1 : UInt8) : Bool :=
  if b0 = 240 then 144 ≤ b1 && b1 ≤ 191
  else if b0 = 244 then 128 ≤ b1 && b1 ≤ 143
  else isUtf8Cont b1

/-- `std::str::from_utf8(bytes).is_ok()`. -/
def isUtf8 : Bytes → Bool
  | [] => true
  | b0 :: rest =>
    if b0 < 128 then isUtf8 rest
    else match rest with
      | [] => false
      | b1 :: rest =>
        if 194 ≤ b0 && b0 ≤ 223 then isUtf8Cont b1 && isUtf8 rest
        else match rest with
          | [] => false
          | b2 :: rest =>
            if 224 ≤ b0 && b0 ≤ 239 then
              utf8Second3 b0 b1 && isUtf8Cont b2 && isUtf8 rest
            else match rest with
              | [] => false
              | b3 :: rest =>
                240 ≤ b0 && b0 ≤ 244 && utf8Second4 b0 b1 && isUtf8Cont b2
                  && isUtf8Cont b3 && isUtf8 rest

/-- An all-ASCII byte string is well-formed UTF-8. -/
theorem isUtf8_of_ascii {bs : Bytes} (h : ∀ b ∈ bs, b < 128) : isUtf8 bs = true := by
  induction bs with
  | nil => rfl
  | cons b rest ih =>
    have hb : b < 128 := h b (by simp)
    rw [isUtf8.eq_def]
    simp only [hb, if_true]
    exact ih fun c hc => h c (by simp [hc])

end PureCard
