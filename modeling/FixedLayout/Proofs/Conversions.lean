import FixedLayout.Proofs.Integers
import FixedLayout.Value.Integer
import Mathlib.Algebra.BigOperators.Fin
import Mathlib.Algebra.BigOperators.Ring.Finset

/-!
# Integers as two's complement

Whether a number has bytes is found by spreading it over them, digit by digit; whether it fits is
found by comparing it with the bounds. Both come to the same.

* `fromBytes_singleton`, `fromBytes_cons`: what bytes denote, byte by byte;
* `fromBytes_eq_sum`: what bytes denote as a sum of digits, of which the top bit may be negative;
* `spread?_eq_some_iff`, `toBytes?_eq_some_iff`: the bytes of a number are the ones that denote it;
* `fits_iff_exists_toBytes?`: numbers that fit are those that have bytes;
* `conversions_are_inverse`: all of this for numbers, byte strings and the values that stand for
  them.
-/

namespace FixedLayout
namespace IntRepr

variable (r : IntRepr)

/-! ### Byte by byte -/

/-- With a sign, the last byte counts from -128 to 127. -/
theorem fromBytes_singleton (x : UInt8) :
    r.fromBytes [x] = (x.toNat : Int) - if r.signed = true ∧ 128 ≤ x.toNat then 256 else 0 := by
  have hcount : count 1 = 256 := rfl
  have htop : 256 ≤ 2 * x.toNat ↔ 128 ≤ x.toNat := by omega
  by_cases h : r.signed = true ∧ 128 ≤ x.toNat <;>
    simp [fromBytes, ofDigits, hcount, htop, h]

/-- Every other byte is a digit, and those after it are worth 256 times as much. -/
theorem fromBytes_cons {b : Bytes} (h : b ≠ []) (x : UInt8) :
    r.fromBytes (x :: b) = x.toNat + 256 * r.fromBytes b := by
  obtain ⟨y, rest, rfl⟩ := List.exists_cons_of_ne_nil h
  have hx := x.toNat_lt
  have hcount := count_succ rest.length
  have hlonger := count_succ (y :: rest).length
  have hdigits : ofDigits (x :: y :: rest) = x.toNat + 256 * ofDigits (y :: rest) := rfl
  rw [List.length_cons] at hlonger
  -- the number of strings is even, so that the first byte does not decide about the top bit
  have htop : count (rest.length + 1 + 1) ≤ 2 * ofDigits (x :: y :: rest) ↔
      count (rest.length + 1) ≤ 2 * ofDigits (y :: rest) := by omega
  by_cases hhigh : r.signed = true ∧ count (rest.length + 1) ≤ 2 * ofDigits (y :: rest) <;>
    simp [fromBytes, htop, hhigh] <;> omega

/-- What bytes denote: the digits, each worth 256 times the one before it, less the number of byte
strings if there is a sign and the top bit of the last byte is set. -/
theorem fromBytes_eq_sum {b : Bytes} (h : b ≠ []) :
    r.fromBytes b = (∑ i : Fin b.length, (b[i].toNat : Int) * 256 ^ (i : Nat)) -
      if r.signed = true ∧ 128 ≤ (b.getLast h).toNat then 256 ^ b.length else 0 := by
  induction b with
  | nil => exact absurd rfl h
  | cons x b ih =>
    by_cases hb : b = []
    · subst hb
      simp [r.fromBytes_singleton x]
    · have hsum : ∑ i : Fin (x :: b).length, ((x :: b)[i].toNat : Int) * 256 ^ (i : Nat) =
          x.toNat + 256 * ∑ i : Fin b.length, (b[i].toNat : Int) * 256 ^ (i : Nat) := by
        rw [Finset.mul_sum]
        refine (Fin.sum_univ_succ _).trans ?_
        simp [pow_succ', mul_left_comm]
      have hpow : (256 : Int) ^ (x :: b).length = 256 * 256 ^ b.length := pow_succ' 256 b.length
      rw [r.fromBytes_cons hb, ih hb, hsum, hpow, List.getLast_cons hb]
      split <;> omega

/-! ### Spreading a number -/

/-- A byte is the lowest digit of a number exactly if it is what is left of it modulo 256. -/
theorem ofNat_emod_eq_iff {v : Int} {x : UInt8} :
    UInt8.ofNat (v % 256).toNat = x ↔ v % 256 = x.toNat := by
  have hx := x.toNat_lt
  rw [← UInt8.toNat_inj, UInt8.toNat_ofNat']
  omega

/-- The bytes over which a number is spread are the ones that denote it. -/
theorem spread?_eq_some_iff {w : Nat} {v : Int} {b : Bytes} :
    spread? r.signed (w + 1) v = some b ↔ b.length = w + 1 ∧ r.fromBytes b = v := by
  induction w generalizing v b with
  | zero =>
    rw [Nat.zero_add, List.length_eq_one_iff, spread?, Option.ite_none_right_eq_some,
      Option.some_inj]
    constructor
    · rintro ⟨hrange, rfl⟩
      generalize hx : UInt8.ofNat (v % 256).toNat = x
      have hlow := ofNat_emod_eq_iff.1 hx
      refine ⟨⟨x, rfl⟩, ?_⟩
      rw [r.fromBytes_singleton]
      cases hs : r.signed <;> simp only [hs, if_true, Bool.false_eq_true, if_false, false_and,
        true_and] at hrange ⊢
      · omega
      · split <;> omega
    · rintro ⟨⟨x, rfl⟩, rfl⟩
      have hx := x.toNat_lt
      rw [r.fromBytes_singleton, List.cons.injEq, ofNat_emod_eq_iff]
      cases r.signed <;>
        simp only [if_true, Bool.false_eq_true, if_false, false_and, true_and, and_true]
      · omega
      · split <;> omega
  | succ w ih =>
    -- the first byte is the remainder, and the others denote the quotient
    rw [spread?, Option.map_eq_some_iff]
    constructor
    · rintro ⟨rest, hrest, rfl⟩
      obtain ⟨hlen, hvalue⟩ := ih.1 hrest
      have hlow := ofNat_emod_eq_iff.1 (rfl : UInt8.ofNat (v % 256).toNat = _)
      refine ⟨congrArg (· + 1) hlen, ?_⟩
      rw [r.fromBytes_cons (List.ne_nil_of_length_eq_add_one hlen), hvalue]
      omega
    · rintro ⟨hlen, rfl⟩
      obtain ⟨x, rest, rfl⟩ := List.exists_cons_of_ne_nil (List.ne_nil_of_length_eq_add_one hlen)
      have hx := x.toNat_lt
      have hrest : rest.length = w + 1 := Nat.succ.inj hlen
      rw [r.fromBytes_cons (List.ne_nil_of_length_eq_add_one hrest)]
      refine ⟨rest, ih.2 ⟨hrest, by omega⟩, ?_⟩
      rw [List.cons.injEq, ofNat_emod_eq_iff]
      exact ⟨by omega, rfl⟩

/-- The bytes of a number are the ones that denote it. -/
theorem toBytes?_eq_some_iff {v : Int} {b : Bytes} :
    r.toBytes? v = some b ↔ b.length = r.width ∧ r.fromBytes b = v := by
  obtain ⟨w, hw⟩ := Nat.exists_eq_succ_of_ne_zero (Nat.ne_of_gt r.width_pos)
  rw [toBytes?, hw]
  exact r.spread?_eq_some_iff

/-- The numbers that fit are those that have bytes. -/
theorem fits_iff_exists_toBytes? {v : Int} :
    r.fits v = true ↔ ∃ b, r.toBytes? v = some b := by
  constructor
  · intro h
    exact ⟨r.toBytes v, r.toBytes?_eq_some_iff.2 ⟨r.length_toBytes v, r.fromBytes_toBytes h⟩⟩
  · rintro ⟨b, hb⟩
    obtain ⟨hlen, rfl⟩ := r.toBytes?_eq_some_iff.1 hb
    exact r.fits_fromBytes hlen

/-- The bytes of a number that fits are its digits. -/
theorem toBytes?_eq (v : Int) :
    r.toBytes? v = if r.fits v = true then some (r.toBytes v) else none := by
  split
  · next h => exact r.toBytes?_eq_some_iff.2 ⟨r.length_toBytes v, r.fromBytes_toBytes h⟩
  · next h =>
    rw [r.fits_iff_exists_toBytes?, ← Option.ne_none_iff_exists'] at h
    exact Decidable.not_not.1 h

/-! ### Integers as values -/

section Values

variable {u : Value} {v : Int}

/-- Whether an integer fits is found by its number. -/
theorem fitsValue_eq (h : u.integerOrBool? = some v) : r.fitsValue u = .ok (r.fits v) := by
  unfold fitsValue
  rw [h]

/-- An integer is written as the bytes of its number, or it overflows. -/
theorem toBytesValue_eq (h : u.integerOrBool? = some v) :
    r.toBytesValue u = if r.fits v = true then .ok (r.toBytes v) else .error .overflow := by
  unfold toBytesValue
  simp only [h, r.toBytes?_eq]
  by_cases hfits : r.fits v = true <;> simp [hfits]

/-- A byte string of the right length is read as the number that it denotes, also where only its
first item is looked at. -/
theorem fromBytesValue_bytes {b : Bytes} (h : b.length = r.width) :
    r.fromBytesValue (.bytes b) = .ok (.int (r.fromBytes b)) := by
  unfold fromBytesValue
  split
  · next hbyte =>
    obtain ⟨hw, hs⟩ := hbyte
    obtain ⟨x, rfl⟩ := List.length_eq_one_iff.1 (h.trans hw)
    rw [r.fromBytes_singleton, hs]
    rfl
  · rfl

end Values

/-- A number fits exactly if it has bytes. These are as many as the width says, and are read as the
number. Every byte string of that length denotes a number that fits and has these very bytes: the
sum of its digits, less the number of byte strings if there is a sign and the top bit is set. That a
single byte without a sign is read by its first item makes no difference. The operations on values
are those on the integers that they stand for. -/
theorem conversions_are_inverse (r : IntRepr) :
    (∀ v, (r.fits v = true ↔ r.toBytes? v ≠ none) ∧
      ∀ b, r.toBytes? v = some b → b.length = r.width ∧ r.read b = some v) ∧
    (∀ b : Bytes, b.length = r.width →
      r.read b = some (r.fromBytes b) ∧ r.fits (r.fromBytes b) = true ∧
        r.toBytes? (r.fromBytes b) = some b ∧
        r.fromBytes b = (∑ i : Fin b.length, (b[i].toNat : Int) * 256 ^ (i : Nat)) -
          if r.signed = true ∧ 128 ≤ (b.getLastD 0).toNat then 256 ^ r.width else 0) ∧
    (∀ u v, Value.integerOrBool? u = some v → r.fitsValue u = .ok (r.fits v) ∧
      (r.toBytesValue u = .error .overflow ↔ r.toBytes? v = none) ∧
      ∀ b, r.toBytesValue u = .ok b ↔ r.toBytes? v = some b) ∧
    ∀ b : Bytes, b.length = r.width →
      r.fromBytesValue (.bytes b) = .ok (.int (r.fromBytes b)) := by
  refine ⟨fun v => ⟨?_, fun b hb => ?_⟩, fun b hlen => ⟨r.read_of_length hlen,
    r.fits_fromBytes hlen, r.toBytes?_eq_some_iff.2 ⟨hlen, rfl⟩, ?_⟩, fun u v hv => ?_,
    fun b hlen => r.fromBytesValue_bytes hlen⟩
  · rw [r.fits_iff_exists_toBytes?, Option.ne_none_iff_exists']
  · obtain ⟨hlen, rfl⟩ := r.toBytes?_eq_some_iff.1 hb
    exact ⟨hlen, r.read_of_length hlen⟩
  · have hne : b ≠ [] := by
      rintro rfl
      exact absurd hlen (Nat.ne_of_lt r.width_pos)
    have hlast : b.getLastD 0 = b.getLast hne := by
      rw [List.getLastD_eq_getLast?, List.getLast?_eq_some_getLast hne, Option.getD_some]
    rw [r.fromBytes_eq_sum hne, hlast, ← hlen]
  · refine ⟨r.fitsValue_eq hv, ?_, fun b => ?_⟩ <;> rw [r.toBytesValue_eq hv, r.toBytes?_eq] <;>
      by_cases hfits : r.fits v = true <;> simp [hfits]

/-- The least number of two bytes has all bits zero but the top one, and comes back. -/
theorem least_number_comes_back : ([0, 128] : Bytes).length = i16.width ∧
    i16.read [0, 128] = some (-32768) ∧ i16.fits (-32768) = true ∧
    i16.toBytes? (-32768) = some [0, 128] ∧
    i16.toBytesValue (.int (-32769)) = .error .overflow := by
  obtain ⟨hfits, hbytes, hvalues, -⟩ := conversions_are_inverse i16
  have hnumber : i16.fromBytes [0, 128] = -32768 := by decide
  have hlow : i16.toBytes? (-32769) = none := by decide
  obtain ⟨hread, hin, hback, -⟩ := hbytes [0, 128] rfl
  rw [hnumber] at hread hin hback
  exact ⟨rfl, hread, hin, hback, (hvalues (.int (-32769)) _ rfl).2.1.2 hlow⟩

end IntRepr
end FixedLayout
