import FixedLayout.IntRepr

/-!
# Integers and their bytes

On the numbers between its bounds an integer representation is a bijection with the byte strings of
its width.

* `two_mul_half`: the weight of the top bit is half the number of byte strings;
* `fromBytes_toBytes`: a number that fits is what its bytes denote;
* `fits_fromBytes`, `toBytes_fromBytes`: bytes denote a number that fits and has these very bytes;
* `read_of_length`: reading a slice of the right length is denoting.
-/

namespace FixedLayout
namespace IntRepr

/-- The weight of the top bit of `w` bytes is half the number of strings of `w` bytes. -/
theorem two_mul_half {w : Nat} (h : 0 < w) : 2 * 1 <<< (w * 8 - 1) = count w := by
  rw [count, Nat.one_shiftLeft, Nat.one_shiftLeft, ← Nat.pow_succ']
  congr 1
  omega

variable (r : IntRepr)

/-- A signed number fits if it lies on either side of zero by no more than half the range. -/
theorem fits_signed_iff (h : r.signed = true) (v : Int) :
    r.fits v = true ↔ -(count r.width : Int) ≤ 2 * v ∧ 2 * v < (count r.width : Int) := by
  have hhalf := two_mul_half r.width_pos
  simp only [fits, minValue, maxValue, h, if_true, decide_eq_true_eq]
  omega

/-- An unsigned number fits if it is one of the first ones, as many as there are strings. -/
theorem fits_unsigned_iff (h : r.signed = false) (v : Int) :
    r.fits v = true ↔ 0 ≤ v ∧ v < (count r.width : Int) := by
  simp only [fits, minValue, maxValue, h, Bool.false_eq_true, if_false, decide_eq_true_eq]
  omega

/-- The digits of a number denote its remainder. -/
theorem ofDigits_toBytes (v : Int) :
    (ofDigits (r.toBytes v) : Int) = v % (count r.width : Int) := by
  have hpos := count_pos r.width
  have h0 := Int.emod_nonneg v (by omega : (count r.width : Int) ≠ 0)
  have h1 := Int.emod_lt_of_pos v (by omega : (0 : Int) < (count r.width : Int))
  rw [toBytes, ofDigits_digits, Nat.mod_eq_of_lt (by omega), Int.toNat_of_nonneg h0]

theorem toBytes_ne_nil (v : Int) : r.toBytes v ≠ [] := by
  intro h
  have hlen := r.length_toBytes v
  rw [h, List.length_nil] at hlen
  exact absurd r.width_pos (by omega)

/-- A number that fits is the one that its bytes denote. -/
theorem fromBytes_toBytes {v : Int} (h : r.fits v = true) : r.fromBytes (r.toBytes v) = v := by
  have hdigits := r.ofDigits_toBytes v
  simp only [fromBytes, length_toBytes]
  cases hs : r.signed with
  | false =>
    obtain ⟨h0, h1⟩ := (r.fits_unsigned_iff hs v).1 h
    rw [if_neg (by simp), hdigits, Int.emod_eq_of_lt h0 h1]
  | true =>
    obtain ⟨h0, h1⟩ := (r.fits_signed_iff hs v).1 h
    by_cases hv : 0 ≤ v
    · rw [Int.emod_eq_of_lt hv (by omega)] at hdigits
      rw [if_neg (by omega), hdigits]
    · -- a negative number has the digits of the number that lies one range above it
      rw [← Int.add_emod_right, Int.emod_eq_of_lt (by omega) (by omega)] at hdigits
      rw [if_pos ⟨rfl, by omega, r.toBytes_ne_nil v⟩, hdigits]
      omega

/-- Bytes of the right number denote a number that fits. -/
theorem fits_fromBytes {b : Bytes} (h : b.length = r.width) : r.fits (r.fromBytes b) = true := by
  have hlt := ofDigits_lt b
  rw [h] at hlt
  simp only [fromBytes, h]
  cases hs : r.signed with
  | false =>
    rw [r.fits_unsigned_iff hs, if_neg (by simp)]
    omega
  | true =>
    have hne : b ≠ [] := by
      rintro rfl
      exact absurd r.width_pos (by rw [← h]; decide)
    rw [r.fits_signed_iff hs]
    by_cases htop : count r.width ≤ 2 * ofDigits b
    · rw [if_pos ⟨rfl, htop, hne⟩]
      omega
    · rw [if_neg (by omega)]
      omega

/-- Bytes of the right number are those of the number that they denote. -/
theorem toBytes_fromBytes {b : Bytes} (h : b.length = r.width) : r.toBytes (r.fromBytes b) = b := by
  have hlt := ofDigits_lt b
  rw [h] at hlt
  have hmod : r.fromBytes b % (count r.width : Int) = ofDigits b := by
    simp only [fromBytes, h]
    split
    · rw [← Int.add_emod_right, Int.sub_add_cancel, Int.emod_eq_of_lt (by omega) (by omega)]
    · rw [Int.emod_eq_of_lt (by omega) (by omega)]
  rw [toBytes, hmod, Int.toNat_natCast, ← h, digits_ofDigits]

/-- Reading a slice of the right length takes all of it. -/
theorem read_of_length {b : Bytes} (h : b.length = r.width) : r.read b = some (r.fromBytes b) := by
  unfold read
  split
  · next hbyte =>
    obtain ⟨hw, hs⟩ := hbyte
    obtain ⟨x, rfl⟩ := List.length_eq_one_iff.1 (h.trans hw)
    simp [fromBytes, hs, ofDigits]
  · rfl

end IntRepr
end FixedLayout
