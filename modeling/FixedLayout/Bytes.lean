/-!
# Byte strings

Byte strings are lists of octets. A slice is given by two integer bounds: a negative bound counts
from the end, and no bound leaves the string.

* `Bytes.bound n i`: the position that the bound `i` denotes in a sequence of `n` items;
* `Bytes.slice`: the items between two bounds, never more than there are;
* `Bytes.overwrite`: a copy with a run of items replaced, of the same length;
* `Bytes.toHex`: two lower-case digits for each byte.
-/

namespace FixedLayout

/-- A byte string. -/
abbrev Bytes := List UInt8

namespace Bytes

/-- The position denoted by a slice bound in a sequence of `n` items. -/
def bound (n : Nat) (i : Int) : Nat :=
  if i < 0 then (i + n).toNat else min i.toNat n

/-- A bound inside the sequence denotes itself. -/
theorem bound_natCast {n i : Nat} (h : i ≤ n) : bound n i = i := by
  simp only [bound]
  split <;> omega

/-- No bound lies beyond the end. -/
theorem bound_le (n : Nat) (i : Int) : bound n i ≤ n := by
  simp only [bound]
  split <;> omega

/-- The items from bound `lo` up to bound `hi`. -/
def slice {α : Type} (xs : List α) (lo hi : Int) : List α :=
  let start := bound xs.length lo
  (xs.drop start).take (bound xs.length hi - start)

/-- A slice reaches from the one position to the other. -/
@[simp] theorem length_slice {α : Type} (xs : List α) (lo hi : Int) :
    (slice xs lo hi).length = bound xs.length hi - bound xs.length lo := by
  have := bound_le xs.length hi
  simp only [slice, List.length_take, List.length_drop]
  omega

/-- The slice of everything. -/
theorem slice_all {α : Type} (xs : List α) : slice xs 0 xs.length = xs := by
  have first : bound xs.length 0 = 0 := by simp [bound]
  simp only [slice, bound_natCast (Nat.le_refl xs.length), first, List.drop_zero, Nat.sub_zero,
    List.take_length]

/-- The sequence with the run that starts at `start` replaced by `piece`. -/
def overwrite {α : Type} (xs : List α) (start : Nat) (piece : List α) : List α :=
  xs.take start ++ piece ++ xs.drop (start + piece.length)

/-- Replacing a run inside the sequence keeps the length. -/
theorem length_overwrite {α : Type} {xs piece : List α} {start : Nat}
    (h : start + piece.length ≤ xs.length) : (overwrite xs start piece).length = xs.length := by
  simp only [overwrite, List.length_append, List.length_take, List.length_drop]
  omega

/-- The replaced run is what was put in its place. -/
theorem take_drop_overwrite {α : Type} {xs piece : List α} {start : Nat} (h : start ≤ xs.length) :
    ((overwrite xs start piece).drop start).take piece.length = piece := by
  simp [overwrite, Nat.min_eq_left h]

/-- A string of `n` zero bytes. -/
def zeros (n : Nat) : Bytes := List.replicate n 0

@[simp] theorem length_zeros (n : Nat) : (zeros n).length = n := by simp [zeros]

/-- The lower-case hexadecimal digit of a number below 16. -/
def hexDigit (n : Nat) : Char :=
  if n < 10 then Char.ofNat (48 + n) else Char.ofNat (87 + n)

/-- The two hexadecimal digits of a byte. -/
def hexPair (b : UInt8) : List Char := [hexDigit (b.toNat / 16), hexDigit (b.toNat % 16)]

/-- The hexadecimal text of a byte string. -/
def toHex (b : Bytes) : String := String.ofList (b.flatMap hexPair)

end Bytes

end FixedLayout
