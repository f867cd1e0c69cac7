import FixedLayout.Bytes

/-!
# Fixed-width integers

Little-endian integers of a declared width, unsigned or in two's complement.

* `IntRepr`: a name, a width of at least one byte and a sign;
* `IntRepr.all`: the ten representations that a declaration can name;
* `IntRepr.count`: the number of byte strings of a width;
* `IntRepr.toBytes`: the bytes of a number, taken modulo the number of strings;
* `IntRepr.toBytes?`: the bytes of a number that can be spread over the width without loss;
* `IntRepr.fromBytes`: the number that bytes denote, whatever their count;
* `IntRepr.read`: the number read from a slice, where an unsigned byte needs one byte to be there.
-/

namespace FixedLayout

/-- A fixed-width little-endian integer representation. -/
structure IntRepr where
  /-- The short name, such as `u16`. -/
  name : String
  /-- The size in bytes, at least one. -/
  width : Nat
  /-- Whether the number is in two's complement. -/
  signed : Bool
  width_pos : 0 < width := by decide
  deriving DecidableEq, Repr

namespace IntRepr

/-- An unsigned byte. -/
def u8 : IntRepr := .mk "u8" 1 false

/-- An unsigned integer of two bytes. -/
def u16 : IntRepr := .mk "u16" 2 false

/-- An unsigned integer of four bytes. -/
def u32 : IntRepr := .mk "u32" 4 false

/-- An unsigned integer of eight bytes. -/
def u64 : IntRepr := .mk "u64" 8 false

/-- An unsigned integer of sixteen bytes. -/
def u128 : IntRepr := .mk "u128" 16 false

/-- A signed byte. -/
def i8 : IntRepr := .mk "i8" 1 true

/-- A signed integer of two bytes. -/
def i16 : IntRepr := .mk "i16" 2 true

/-- A signed integer of four bytes. -/
def i32 : IntRepr := .mk "i32" 4 true

/-- A signed integer of eight bytes. -/
def i64 : IntRepr := .mk "i64" 8 true

/-- A signed integer of sixteen bytes. -/
def i128 : IntRepr := .mk "i128" 16 true

instance : Inhabited IntRepr := ⟨u8⟩

/-- The representations that a declaration can name, in the order in which they are listed. -/
def all : List IntRepr :=
  [u8, u16, u32, u64, u128, i8, i16, i32, i64, i128]

/-- The representation of a given name. -/
def ofName? (name : String) : Option IntRepr := all.find? (·.name == name)

/-- The names of all representations, separated by commas. -/
def nameList : String := ", ".intercalate (all.map (·.name))

/-- The number of strings of `w` bytes. -/
def count (w : Nat) : Nat := 1 <<< (w * 8)

@[simp] theorem count_zero : count 0 = 1 := rfl

theorem count_succ (w : Nat) : count (w + 1) = 256 * count w := by
  rw [count, count, Nat.one_shiftLeft, Nat.one_shiftLeft, Nat.succ_mul, Nat.pow_add, Nat.mul_comm]

theorem count_pos (w : Nat) : 0 < count w := by
  rw [count, Nat.one_shiftLeft]
  exact Nat.pow_pos (by decide)

/-- The least number that fits. -/
def minValue (r : IntRepr) : Int :=
  if r.signed then -((1 <<< (r.width * 8 - 1) : Nat) : Int) else 0

/-- The greatest number that fits. -/
def maxValue (r : IntRepr) : Int :=
  if r.signed then ((1 <<< (r.width * 8 - 1) : Nat) : Int) - 1 else (count r.width : Int) - 1

/-- Whether a number lies between the bounds. -/
def fits (r : IntRepr) (v : Int) : Bool := decide (r.minValue ≤ v ∧ v ≤ r.maxValue)

/-- The `w` lowest base-256 digits of a number, lowest first. -/
def digits : Nat → Nat → Bytes
  | 0, _ => []
  | w + 1, n => UInt8.ofNat (n % 256) :: digits w (n / 256)

@[simp] theorem length_digits (w n : Nat) : (digits w n).length = w := by
  induction w generalizing n with
  | zero => rfl
  | succ w ih => simp [digits, ih]

/-- The number whose base-256 digits, lowest first, are the bytes. -/
def ofDigits : Bytes → Nat
  | [] => 0
  | b :: rest => b.toNat + 256 * ofDigits rest

/-- Digits denote less than one more digit would be worth. -/
theorem ofDigits_lt (b : Bytes) : ofDigits b < count b.length := by
  induction b with
  | nil => simp [ofDigits]
  | cons x rest ih =>
    have := x.toNat_lt
    simp only [ofDigits, List.length_cons, count_succ]
    omega

/-- The lowest digits of a number denote its remainder. -/
theorem ofDigits_digits (w n : Nat) : ofDigits (digits w n) = n % count w := by
  induction w generalizing n with
  | zero => simp [digits, ofDigits, Nat.mod_one]
  | succ w ih =>
    have head : (UInt8.ofNat (n % 256)).toNat = n % 256 := by
      simp [UInt8.toNat_ofNat']
    rw [digits, ofDigits, ih, head, count_succ, Nat.mod_mul]

/-- The digits of what digits denote are these digits. -/
theorem digits_ofDigits (b : Bytes) : digits b.length (ofDigits b) = b := by
  induction b with
  | nil => rfl
  | cons x rest ih =>
    have := x.toNat_lt
    have low : (x.toNat + 256 * ofDigits rest) % 256 = x.toNat := by omega
    have high : (x.toNat + 256 * ofDigits rest) / 256 = ofDigits rest := by omega
    simp [ofDigits, digits, low, high, ih]

/-- The bytes of a number; a number that does not fit is taken modulo the number of strings. -/
def toBytes (r : IntRepr) (v : Int) : Bytes :=
  digits r.width (v % (count r.width : Int)).toNat

@[simp] theorem length_toBytes (r : IntRepr) (v : Int) : (r.toBytes v).length = r.width := by
  simp [toBytes]

/-- A number spread over `w` bytes, lowest first: each byte takes the lowest digit and leaves the
rest to those after it. The last one has to hold all that is left, in two's complement if there is a
sign. -/
def spread? (signed : Bool) : Nat → Int → Option Bytes
  | 0, v => if v = 0 then some [] else none
  | 1, v =>
    let least : Int := if signed then -128 else 0
    if least ≤ v ∧ v < least + 256 then some [UInt8.ofNat (v % 256).toNat] else none
  | w + 2, v => (spread? signed (w + 1) (v / 256)).map (UInt8.ofNat (v % 256).toNat :: ·)

/-- The bytes of a number, unless it is too large or too small for the width. -/
def toBytes? (r : IntRepr) (v : Int) : Option Bytes := spread? r.signed r.width v

/-- The number that bytes denote: with a sign, the top bit of the last byte counts negatively. -/
def fromBytes (r : IntRepr) (data : Bytes) : Int :=
  let n := ofDigits data
  if r.signed ∧ count data.length ≤ 2 * n ∧ data ≠ [] then (n : Int) - (count data.length : Int)
  else n

/-- The number read from a slice. An unsigned byte is the first byte of the slice, so that an empty
slice has none; every other representation takes all the bytes it is given. -/
def read (r : IntRepr) (data : Bytes) : Option Int :=
  if r.width = 1 ∧ r.signed = false then data.head?.map fun b => (b.toNat : Int)
  else some (r.fromBytes data)

end IntRepr

end FixedLayout
