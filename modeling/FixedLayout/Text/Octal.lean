import FixedLayout.Bytes

/-!
# Octal numbers

An octal number is written with optional blanks around it, an optional sign, an optional `0o`, and
digits among which single underscores may stand.

* `digitsValue?`: the value of digits with single underscores between them;
* `unsigned?`: a number without a sign;
* `read?`: a number as a whole.
-/

namespace FixedLayout.Octal

/-- Whether a byte is a blank. -/
def isBlank (b : UInt8) : Bool := b == 32 || (9 ≤ b && b ≤ 13)

/-- The value of an octal digit. -/
def digit? (b : UInt8) : Option Nat := if 48 ≤ b ∧ b ≤ 55 then some (b.toNat - 48) else none

/-- The value of digits that follow the ones whose value is given. An underscore stands between two
digits. -/
def digitsFrom? : Nat → Bytes → Option Nat
  | n, [] => some n
  | n, b :: rest =>
    if b = 95 then
      match rest with
      | [] => none
      | d :: rest =>
        match digit? d with
        | some k => digitsFrom? (n * 8 + k) rest
        | none => none
    else
      match digit? b with
      | some k => digitsFrom? (n * 8 + k) rest
      | none => none

/-- The value of one or more digits. -/
def digitsValue? : Bytes → Option Nat
  | [] => none
  | b :: rest =>
    match digit? b with
    | some k => digitsFrom? k rest
    | none => none

/-- The value of a number without a sign. The letter that announces octal digits may be followed by
an underscore. -/
def unsigned? : Bytes → Option Nat
  | 48 :: 111 :: 95 :: rest => digitsValue? rest
  | 48 :: 79 :: 95 :: rest => digitsValue? rest
  | 48 :: 111 :: rest => digitsValue? rest
  | 48 :: 79 :: rest => digitsValue? rest
  | digits => digitsValue? digits

/-- A byte string without the bytes of a class at both of its ends. -/
def trim (drop : UInt8 → Bool) (b : Bytes) : Bytes :=
  ((b.dropWhile drop).reverse.dropWhile drop).reverse

/-- The value of a number. -/
def read? (b : Bytes) : Option Int :=
  match trim isBlank b with
  | 45 :: rest => (unsigned? rest).map fun n => -(n : Int)
  | 43 :: rest => (unsigned? rest).map fun n => (n : Int)
  | digits => (unsigned? digits).map fun n => (n : Int)

end FixedLayout.Octal
