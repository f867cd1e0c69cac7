import FixedLayout.Bytes
import FixedLayout.Text.Printable

/-!
# Quoted texts and byte strings

The form in which a text or a byte string stands inside a message.

* `quote`: a text between single quotes, or between double quotes when it holds a single quote and
  no double one; the quote in use, the backslash, line breaks, tabs and non-printable characters are
  escaped;
* `quoteBytes`: the same for bytes, with a leading `b`, where every byte outside printable ASCII is
  an escape of two hexadecimal digits.
-/

namespace FixedLayout.Text

/-- The `k` lowest hexadecimal digits of a number, highest first. -/
def hexDigits : Nat → Nat → List Char
  | 0, _ => []
  | k + 1, n => hexDigits k (n / 16) ++ [Bytes.hexDigit (n % 16)]

/-- The quote for a text: double if it holds a single quote and no double quote. -/
def quoteMark (cs : List Char) : Char :=
  if cs.contains '\'' && !cs.contains '"' then '"' else '\''

/-- The escape of a line break, a tab, a backslash or the quote in use. -/
def escapeMark? (mark c : Char) : Option (List Char) :=
  if c = mark ∨ c = '\\' then some ['\\', c]
  else if c = '\n' then some ['\\', 'n']
  else if c = '\r' then some ['\\', 'r']
  else if c = '\t' then some ['\\', 't']
  else none

/-- A character as it stands in a quoted text. -/
def quoteChar (mark c : Char) : List Char :=
  match escapeMark? mark c with
  | some cs => cs
  | none =>
    if isPrintable c then [c]
    else if c.toNat < 0x100 then '\\' :: 'x' :: hexDigits 2 c.toNat
    else if c.toNat < 0x10000 then '\\' :: 'u' :: hexDigits 4 c.toNat
    else '\\' :: 'U' :: hexDigits 8 c.toNat

/-- A text as it stands in a message. -/
def quote (s : String) : String :=
  let mark := quoteMark s.toList
  String.ofList (mark :: s.toList.flatMap (quoteChar mark) ++ [mark])

/-- A byte as it stands in a quoted byte string. -/
def quoteByte (mark : Char) (b : UInt8) : List Char :=
  match escapeMark? mark (Char.ofNat b.toNat) with
  | some cs => cs
  | none =>
    if 32 ≤ b.toNat ∧ b.toNat < 127 then [Char.ofNat b.toNat]
    else '\\' :: 'x' :: hexDigits 2 b.toNat

/-- A byte string as it stands in a message. -/
def quoteBytes (b : Bytes) : String :=
  let mark := quoteMark (b.map fun x => Char.ofNat x.toNat)
  String.ofList ('b' :: mark :: b.flatMap (quoteByte mark) ++ [mark])

end FixedLayout.Text
