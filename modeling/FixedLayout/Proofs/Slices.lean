import FixedLayout.Bytes

/-!
# Slices and overwritten runs

The laws of `Bytes.slice` and `Bytes.overwrite` for bounds inside the string, and patches: bytes to
be put over others, some of which may be left out.

* `slice_eq`: a slice drops what is before its first bound and takes what lies between the two;
* `slice_slice`: a slice of a slice is a slice of the whole;
* `slice_append_slice`: adjacent slices join;
* `slice_mid`, `slice_append_take`: slices of concatenated strings;
* `overwrite_mid`: one part of a concatenation is replaced;
* `overlay`: a patch put over a string. `overlay_append`: patches are put over one part after
  another;
* `slice_overlay`: what one part of a patch was put over.
-/

namespace FixedLayout
namespace Bytes

variable {α : Type}

/-! ### Slices inside the string -/

theorem bound_eq_toNat {n : Nat} {i : Int} (h0 : 0 ≤ i) (h1 : i ≤ n) : bound n i = i.toNat := by
  unfold bound
  rw [if_neg (by omega)]
  omega

theorem slice_eq {xs : List α} {lo hi : Int} (h0 : 0 ≤ lo) (h1 : lo ≤ hi) (h2 : hi ≤ xs.length) :
    slice xs lo hi = (xs.drop lo.toNat).take (hi - lo).toNat := by
  have hlen : hi.toNat - lo.toNat = (hi - lo).toNat := by omega
  simp only [slice]
  rw [bound_eq_toNat h0 (by omega), bound_eq_toNat (by omega) h2, hlen]

theorem length_slice_of_le {xs : List α} {lo hi : Int} (h0 : 0 ≤ lo) (h1 : lo ≤ hi)
    (h2 : hi ≤ xs.length) : ((slice xs lo hi).length : Int) = hi - lo := by
  rw [length_slice, bound_eq_toNat h0 (by omega), bound_eq_toNat (by omega) h2]
  omega

@[simp] theorem slice_self (xs : List α) (i : Int) : slice xs i i = [] := by
  simp [slice]

/-- A slice of a slice is a slice of the whole string. -/
theorem slice_slice {xs : List α} {lo hi a b : Int} (h0 : 0 ≤ lo) (h1 : hi ≤ xs.length)
    (h2 : 0 ≤ a) (h3 : a ≤ b) (h4 : b ≤ hi - lo) :
    slice (slice xs lo hi) a b = slice xs (a + lo) (b + lo) := by
  have hlen : ((slice xs lo hi).length : Int) = hi - lo := length_slice_of_le h0 (by omega) h1
  rw [slice_eq h2 h3 (by omega), slice_eq h0 (by omega) h1,
    slice_eq (by omega) (by omega) (by omega), List.drop_take, List.take_take, List.drop_drop]
  have htake : min (b - a).toNat ((hi - lo).toNat - a.toNat) = (b + lo - (a + lo)).toNat := by omega
  have hdrop : lo.toNat + a.toNat = (a + lo).toNat := by omega
  rw [htake, hdrop]

/-- Adjacent slices join. -/
theorem slice_append_slice {xs : List α} {a b c : Int} (h0 : 0 ≤ a) (h1 : a ≤ b) (h2 : b ≤ c)
    (h3 : c ≤ xs.length) : slice xs a b ++ slice xs b c = slice xs a c := by
  rw [slice_eq h0 h1 (by omega), slice_eq (by omega) h2 h3, slice_eq h0 (by omega) h3]
  have hsum : (c - a).toNat = (b - a).toNat + (c - b).toNat := by omega
  have hdrop : b.toNat = a.toNat + (b - a).toNat := by omega
  rw [hsum, List.take_add, List.drop_drop, hdrop]

/-- A slice, between what comes before it and what comes after it. -/
theorem take_slice_drop {xs : List α} {lo hi : Int} (h0 : 0 ≤ lo) (h1 : lo ≤ hi)
    (h2 : hi ≤ xs.length) : xs.take lo.toNat ++ slice xs lo hi ++ xs.drop hi.toNat = xs := by
  have hdrop : hi.toNat = lo.toNat + (hi - lo).toNat := by omega
  rw [slice_eq h0 h1 h2, hdrop, ← List.drop_drop, List.append_assoc, List.take_append_drop,
    List.take_append_drop]

/-- The slice that covers the middle part of a concatenation. -/
theorem slice_mid {pre mid post : List α} {lo hi : Int} (h0 : lo = pre.length)
    (h1 : hi = lo + mid.length) : slice (pre ++ mid ++ post) lo hi = mid := by
  subst h0 h1
  rw [slice_eq (by omega) (by omega) (by simp only [List.length_append]; omega)]
  have hdrop : ((pre.length : Int)).toNat = pre.length := by omega
  have htake : ((pre.length : Int) + mid.length - pre.length).toNat = mid.length := by omega
  rw [hdrop, htake, List.append_assoc, List.drop_left, List.take_left]

/-- The slice that starts where the second part of a concatenation does. -/
theorem slice_append_take {pre rest : List α} {start n : Int} (h0 : start = pre.length) (h1 : 0 ≤ n)
    (h2 : n ≤ rest.length) : slice (pre ++ rest) start (start + n) = rest.take n.toNat := by
  have hlen : (rest.take n.toNat).length = n.toNat := by
    rw [List.length_take]
    omega
  have hcut : pre ++ rest = pre ++ rest.take n.toNat ++ rest.drop n.toNat := by
    rw [List.append_assoc, List.take_append_drop]
  rw [hcut]
  exact slice_mid h0 (by rw [hlen]; omega)

/-- A slice of zeros is zeros. -/
theorem slice_zeros {n : Nat} {lo hi : Int} (h0 : 0 ≤ lo) (h1 : lo ≤ hi) (h2 : hi ≤ n) :
    slice (zeros n) lo hi = zeros (hi - lo).toNat := by
  rw [slice_eq h0 h1 (by rw [length_zeros]; exact h2)]
  unfold zeros
  rw [List.drop_replicate, List.take_replicate]
  have hmin : min (hi - lo).toNat (n - lo.toNat) = (hi - lo).toNat := by omega
  rw [hmin]

/-! ### Overwritten runs -/

/-- The middle part of a concatenation is replaced by one of the same length. -/
theorem overwrite_mid {pre mid post new : List α} {start : Nat} (h0 : start = pre.length)
    (h1 : new.length = mid.length) :
    overwrite (pre ++ mid ++ post) start new = pre ++ new ++ post := by
  subst h0
  unfold overwrite
  have htake : (pre ++ mid ++ post).take pre.length = pre := by
    rw [List.append_assoc, List.take_left]
  have hdrop : (pre ++ mid ++ post).drop (pre.length + new.length) = post := by
    rw [h1, ← List.length_append, List.drop_left]
  rw [htake, hdrop]

/-! ### Patches -/

/-- The bytes of a patch put over the first ones of a string; where the patch has none, the byte
stays what it is. -/
def overlay : List (Option α) → List α → List α
  | some b :: patch, _ :: xs => b :: overlay patch xs
  | none :: patch, x :: xs => x :: overlay patch xs
  | _, xs => xs

@[simp] theorem overlay_nil (xs : List α) : overlay [] xs = xs := by
  unfold overlay
  rfl

@[simp] theorem overlay_cons (b : Option α) (patch : List (Option α)) (x : α) (xs : List α) :
    overlay (b :: patch) (x :: xs) = b.getD x :: overlay patch xs := by
  cases b <;> rfl

@[simp] theorem length_overlay (patch : List (Option α)) (xs : List α) :
    (overlay patch xs).length = xs.length := by
  induction patch generalizing xs with
  | nil => rw [overlay_nil]
  | cons b patch ih =>
    cases xs with
    | nil => cases b <;> rfl
    | cons x xs => rw [overlay_cons, List.length_cons, ih, List.length_cons]

/-- A patch in two parts is put over one part of the string after the other. -/
theorem overlay_append {p q : List (Option α)} {xs ys : List α} (h : p.length = xs.length) :
    overlay (p ++ q) (xs ++ ys) = overlay p xs ++ overlay q ys := by
  induction p generalizing xs with
  | nil =>
    obtain rfl : xs = [] := List.length_eq_zero_iff.1 h.symm
    rfl
  | cons b p ih =>
    cases xs with
    | nil => cases h
    | cons x xs =>
      rw [List.cons_append, List.cons_append, overlay_cons, overlay_cons,
        ih (Nat.succ.inj h), List.cons_append]

/-- The part of a patched string that one part of the patch was put over. -/
theorem slice_overlay {p q r : List (Option α)} {xs : List α} {lo hi : Int} (h0 : lo = p.length)
    (h1 : hi = lo + q.length) (h2 : hi ≤ xs.length) :
    slice (overlay (p ++ q ++ r) xs) lo hi = overlay q (slice xs lo hi) := by
  have hsplit : xs = xs.take p.length ++ (xs.drop p.length).take q.length ++
      (xs.drop p.length).drop q.length := by
    rw [List.append_assoc, List.take_append_drop, List.take_append_drop]
  have hp : p.length = (xs.take p.length).length := by
    rw [List.length_take]
    omega
  have hq : q.length = ((xs.drop p.length).take q.length).length := by
    rw [List.length_take, List.length_drop]
    omega
  have hpq : (p ++ q).length =
      (xs.take p.length ++ (xs.drop p.length).take q.length).length := by
    rw [List.length_append, List.length_append, ← hp, ← hq]
  rw [hsplit, overlay_append hpq, overlay_append hp, slice_mid, slice_mid]
  · omega
  · omega
  · rw [length_overlay]
    omega
  · rw [length_overlay]
    omega

/-- A patch without gaps replaces everything. -/
theorem overlay_map_some {ys xs : List α} (h : ys.length = xs.length) :
    overlay (ys.map some) xs = ys := by
  induction ys generalizing xs with
  | nil => exact List.length_eq_zero_iff.1 h.symm
  | cons y ys ih =>
    cases xs with
    | nil => cases h
    | cons x xs => rw [List.map_cons, overlay_cons, ih (Nat.succ.inj h), Option.getD_some]

/-- A patch of gaps changes nothing. -/
theorem overlay_eq_self {p : List (Option α)} (h : ∀ b ∈ p, b = none) (xs : List α) :
    overlay p xs = xs := by
  induction p generalizing xs with
  | nil => exact overlay_nil xs
  | cons b p ih =>
    obtain ⟨rfl, hp⟩ := List.forall_mem_cons.1 h
    cases xs with
    | nil => rfl
    | cons x xs => rw [overlay_cons, ih hp, Option.getD_none]

/-- A patch does not reach beyond its length. -/
theorem overlay_take_append_drop {p : List (Option α)} {n : Nat} (h : p.length ≤ n) (xs : List α) :
    overlay p (xs.take n) ++ xs.drop n = overlay p xs := by
  induction p generalizing xs n with
  | nil => rw [overlay_nil, overlay_nil, List.take_append_drop]
  | cons b p ih =>
    cases n with
    | zero => cases h
    | succ n =>
      cases xs with
      | nil => cases b <;> rfl
      | cons x xs =>
        rw [List.take_succ_cons, List.drop_succ_cons, overlay_cons, overlay_cons, List.cons_append,
          ih (Nat.le_of_succ_le_succ h)]

/-- A patch leaves what lies beyond it. -/
theorem drop_overlay {p : List (Option α)} {n : Nat} (h : p.length ≤ n) (xs : List α) :
    (overlay p xs).drop n = xs.drop n := by
  induction p generalizing xs n with
  | nil => rw [overlay_nil]
  | cons b p ih =>
    cases n with
    | zero => cases h
    | succ n =>
      cases xs with
      | nil => cases b <;> rfl
      | cons x xs =>
        rw [overlay_cons, List.drop_succ_cons, List.drop_succ_cons, ih (Nat.le_of_succ_le_succ h)]

end Bytes
end FixedLayout
