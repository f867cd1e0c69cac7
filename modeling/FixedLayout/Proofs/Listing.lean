import FixedLayout.Archive.Report
import Mathlib.Data.Finset.Card
import Mathlib.Tactic.Ring

/-!
# How a walk through an archive goes

The distance from a header to the next one depends on the number in the size field, which may carry
a minus sign. A walk goes forward at a header exactly if that number is greater than the negated
size of a block.

* `next?`, `offsetAfter`: the offset that follows one, and the offsets of a walk in turn;
* `blockSize_le_advance_iff`: when the next header lies at least a block further;
* `step_entry`: an entry is met only at a whole block, and its size is the one of the size field.
  `sizeOf?_nonneg`: without a minus sign no size is negative;
* `walk_unfinished_iff`: a walk has used up its steps if there is an offset after them;
* `list_unfinished_iff`: a listing that has used up its steps would not end with more of them;
* `list_reads_each_header_once`: a walk that meets no such size goes through the data from start to
  end, a block or more at a time.
-/

namespace FixedLayout
namespace Archive

/-- The offset after the header at an offset, if there is one. -/
def next? (data : Bytes) (offset : Int) : Option Int :=
  match step data offset with
  | .entry e => some (offset + e.advance)
  | _ => none

/-- The offset after a number of headers from an offset on, if there are that many. -/
def offsetFrom (data : Bytes) : Nat → Int → Option Int
  | 0, offset => some offset
  | k + 1, offset => (offsetFrom data k offset).bind (next? data)

/-- The offset after a number of headers from the start on, if there are that many. -/
def offsetAfter (data : Bytes) (k : Nat) : Option Int := offsetFrom data k 0

variable {data : Bytes} {offset : Int} {e : Entry}

/-! ### Sizes -/

theorem nonneg_of_unsigned {r : Option Nat} {n : Int}
    (h : (r >>= fun k => pure (k : Int)) = some n) : 0 ≤ n := by
  obtain ⟨k, -, hk⟩ := Option.bind_eq_some_iff.mp h
  cases hk
  exact Int.natCast_nonneg k

theorem mem_of_mem_trim {drop : UInt8 → Bool} {b : Bytes} {x : UInt8} (h : x ∈ Octal.trim drop b) :
    x ∈ b := by
  unfold Octal.trim at h
  have hback := (List.dropWhile_sublist drop).subset (List.mem_reverse.mp h)
  exact (List.dropWhile_sublist drop).subset (List.mem_reverse.mp hback)

/-- Without a minus sign no number is negative. -/
theorem read?_nonneg {b : Bytes} {n : Int} (h : Octal.read? b = some n) (hminus : 45 ∉ b) :
    0 ≤ n := by
  unfold Octal.read? at h
  split at h
  · next rest heq =>
    have hmem : (45 : UInt8) ∈ Octal.trim Octal.isBlank b := by
      rw [heq]
      exact List.mem_cons_self
    exact absurd (mem_of_mem_trim hmem) hminus
  all_goals
    rw [Option.map_id_fun'] at h
    exact nonneg_of_unsigned h

/-- Without a minus sign no size is negative. -/
theorem sizeOf?_nonneg {raw : Bytes} {n : Int} (h : sizeOf? raw = some n) (hminus : 45 ∉ raw) :
    0 ≤ n := by
  unfold sizeOf? at h
  split at h
  · cases h
    exact le_refl 0
  · exact read?_nonneg h fun hmem => hminus (mem_of_mem_trim hmem)

/-- Headers are whole blocks apart. -/
theorem dvd_advance (e : Entry) : (blockSize : Int) ∣ e.advance := by
  refine ⟨1 + (e.size + blockSize - 1).fdiv blockSize, ?_⟩
  unfold Entry.advance
  ring

/-- The next header lies at least a block further exactly if the size is greater than the negated
size of a block. -/
theorem blockSize_le_advance_iff (e : Entry) :
    (blockSize : Int) ≤ e.advance ↔ -(blockSize : Int) < e.size := by
  have hdiv : (e.size + blockSize - 1).fdiv blockSize = (e.size + blockSize - 1) / blockSize :=
    Int.fdiv_eq_ediv_of_nonneg _ (Int.natCast_nonneg _)
  unfold Entry.advance
  rw [hdiv]
  unfold blockSize
  omega

/-! ### One step -/

/-- An entry is read from a whole block, and its size is the number in the size field. -/
theorem ofHeader_eq_ok {block : Bytes} (h : Entry.ofHeader block = .ok e) :
    block.length = blockSize ∧ sizeOf? (fieldBytes "file_size" block) = some e.size := by
  have haccept : header.accept block = .ok () := by
    cases hr : header.accept block with
    | ok u => rfl
    | error fault =>
      unfold Entry.ofHeader at h
      rw [hr] at h
      cases h
  constructor
  · unfold Layout.accept at haccept
    split at haccept
    · next hlen =>
      rw [size_header] at hlen
      exact Int.ofNat_inj.mp hlen
    · cases haccept
  · unfold Entry.ofHeader at h
    rw [haccept] at h
    simp only [Except.mapError, bind, Except.bind] at h
    cases hflag : (typeFlag.repr.read (fieldBytes "type_flag" block)).bind typeFlag.variant? with
    | none =>
      rw [hflag] at h
      cases h
    | some variant =>
      rw [hflag] at h
      cases hsize : sizeOf? (fieldBytes "file_size" block) with
      | none =>
        rw [hsize] at h
        cases h
      | some size =>
        rw [hsize] at h
        cases h
        rfl

/-- An entry is met only where the data has a whole block. -/
theorem step_entry (h : step data offset = .entry e) :
    -(data.length : Int) ≤ offset ∧ offset + blockSize ≤ data.length ∧
      sizeOf? (fieldBytes "file_size" (blockAt data offset)) = some e.size := by
  unfold step at h
  simp only at h
  split at h
  · next hin =>
    split at h
    · next found heq =>
      cases h
      obtain ⟨hlen, hsize⟩ := ofHeader_eq_ok heq
      refine ⟨?_, hin.1, hsize⟩
      unfold blockAt at hlen
      rw [Bytes.length_slice] at hlen
      unfold Bytes.bound blockSize at hlen
      split at hlen <;> split at hlen <;> omega
    · cases h
  · cases h

theorem next?_eq_some {after : Int} (h : next? data offset = some after) :
    ∃ e, step data offset = .entry e ∧ after = offset + e.advance := by
  unfold next? at h
  split at h
  · next e heq =>
    cases h
    exact ⟨e, heq, rfl⟩
  · cases h

/-! ### Walks -/

theorem offsetFrom_succ (data : Bytes) (k : Nat) (offset : Int) :
    offsetFrom data (k + 1) offset = (offsetFrom data k offset).bind (next? data) := rfl

theorem offsetFrom_succ' (data : Bytes) (k : Nat) (offset : Int) :
    offsetFrom data (k + 1) offset = (next? data offset).bind (offsetFrom data k) := by
  induction k with
  | zero => simp [offsetFrom]
  | succ k ih =>
    rw [offsetFrom_succ, ih, Option.bind_assoc]
    rfl

/-- A walk has used up its steps exactly if there is an offset after them. -/
theorem walk_unfinished_iff (data : Bytes) (steps : Nat) (offset : Int) :
    (walk data steps offset).2 = .unfinished ↔ (offsetFrom data steps offset).isSome := by
  induction steps generalizing offset with
  | zero => simp [walk, offsetFrom]
  | succ steps ih =>
    rw [offsetFrom_succ']
    unfold walk next?
    cases step data offset with
    | finish => simp
    | fault fault => simp
    | entry e => simpa using ih (offset + e.advance)

theorem offsetFrom_add (data : Bytes) (j k : Nat) (offset : Int) :
    offsetFrom data (j + k) offset = (offsetFrom data j offset).bind (offsetFrom data k) := by
  induction k with
  | zero => exact (Option.bind_fun_some _).symm
  | succ k ih =>
    rw [← Nat.add_assoc, offsetFrom_succ, ih, Option.bind_assoc]
    rfl

/-- There are all the offsets before one that there is. -/
theorem isSome_offsetFrom {j k : Nat} (hjk : j ≤ k) (h : (offsetFrom data k offset).isSome) :
    (offsetFrom data j offset).isSome := by
  obtain ⟨d, rfl⟩ := Nat.exists_eq_add_of_le hjk
  rw [offsetFrom_add] at h
  exact Option.isSome_of_isSome_bind h

/-- A walk that has ended within some steps is the same with more of them. -/
theorem walk_of_le {steps more : Nat} (h : steps ≤ more)
    (hend : (walk data steps offset).2 ≠ .unfinished) :
    walk data more offset = walk data steps offset := by
  induction steps generalizing more offset with
  | zero => exact absurd rfl hend
  | succ steps ih =>
    obtain ⟨more, rfl⟩ : ∃ m, more = m + 1 := ⟨more - 1, by omega⟩
    unfold walk at hend ⊢
    cases hstep : step data offset with
    | finish => rfl
    | fault fault => rfl
    | entry e =>
      simp only [hstep] at hend ⊢
      rw [ih (Nat.le_of_succ_le_succ h) hend]

/-! ### Walks that come back -/

/-- The number of the block at an offset, counted from the first one at which there can be a
header: as far before the start as the data is long. -/
def blockNumber (data : Bytes) (offset : Int) : Nat :=
  (offset / blockSize + (data.length / blockSize : Nat)).toNat

/-- After some headers the offset is a whole number of blocks. -/
theorem dvd_offsetAfter {k : Nat} (h : offsetAfter data k = some offset) :
    (blockSize : Int) ∣ offset := by
  induction k generalizing offset with
  | zero =>
    cases h
    exact Int.dvd_zero _
  | succ k ih =>
    obtain ⟨before, hbefore, hnext⟩ := Option.bind_eq_some_iff.mp h
    obtain ⟨e, -, rfl⟩ := next?_eq_some hnext
    exact Int.dvd_add (ih hbefore) (dvd_advance e)

/-- There are no more blocks at which a walk can meet a header than two for each one of the data. -/
theorem blockNumber_lt {k : Nat} (h : offsetAfter data k = some offset)
    (hentry : step data offset = .entry e) :
    blockNumber data offset < 2 * (data.length / blockSize) := by
  obtain ⟨hlow, hhigh, -⟩ := step_entry hentry
  have hdvd := dvd_offsetAfter h
  unfold blockNumber
  unfold blockSize at *
  omega

/-- Different offsets of a walk at which there are headers are those of different blocks. -/
theorem eq_of_blockNumber {j k : Nat} {other : Int} {e' : Entry}
    (hj : offsetAfter data j = some offset) (hk : offsetAfter data k = some other)
    (he : step data offset = .entry e) (he' : step data other = .entry e')
    (h : blockNumber data offset = blockNumber data other) : offset = other := by
  obtain ⟨hlow, -, -⟩ := step_entry he
  obtain ⟨hlow', -, -⟩ := step_entry he'
  have hdvd := dvd_offsetAfter hj
  have hdvd' := dvd_offsetAfter hk
  unfold blockNumber at h
  unfold blockSize at *
  omega

/-- A walk of as many steps as a listing takes meets one of its offsets again. -/
theorem exists_repeated_offset (h : (offsetAfter data (stepLimit data)).isSome) :
    ∃ j d, 0 < d ∧ ∃ o, offsetAfter data j = some o ∧ offsetFrom data d o = some o := by
  have hentry : ∀ k < stepLimit data, ∃ o e, offsetAfter data k = some o ∧
      step data o = .entry e := by
    intro k hk
    have hnext : (offsetAfter data (k + 1)).isSome := isSome_offsetFrom hk h
    obtain ⟨after, hafter⟩ := Option.isSome_iff_exists.mp hnext
    obtain ⟨o, ho, ho'⟩ := Option.bind_eq_some_iff.mp hafter
    obtain ⟨e, he, -⟩ := next?_eq_some ho'
    exact ⟨o, e, ho, he⟩
  -- There are fewer offsets with a header than steps, so that two steps share theirs.
  have hcard : (Finset.range (2 * (data.length / blockSize))).card <
      (Finset.range (stepLimit data)).card := by
    rw [Finset.card_range, Finset.card_range]
    unfold stepLimit
    omega
  have hmaps : ∀ k ∈ Finset.range (stepLimit data),
      blockNumber data ((offsetAfter data k).getD 0) ∈
        Finset.range (2 * (data.length / blockSize)) := by
    intro k hk
    obtain ⟨o, e, ho, he⟩ := hentry k (Finset.mem_range.mp hk)
    rw [ho, Finset.mem_range]
    exact blockNumber_lt ho he
  obtain ⟨i, hi, j, hj, hne, hsame⟩ := Finset.exists_ne_map_eq_of_card_lt_of_maps_to hcard hmaps
  obtain ⟨a, e, ha, he⟩ := hentry i (Finset.mem_range.mp hi)
  obtain ⟨b, e', hb, he'⟩ := hentry j (Finset.mem_range.mp hj)
  rw [ha, hb] at hsame
  obtain rfl : a = b := eq_of_blockNumber ha hb he he' hsame
  -- From the earlier of the two the walk comes back to where it was.
  have hback : ∀ {m n}, m < n → offsetAfter data m = some a → offsetAfter data n = some a →
      ∃ j d, 0 < d ∧ ∃ o, offsetAfter data j = some o ∧ offsetFrom data d o = some o := by
    intro m n hmn hm hn
    obtain ⟨d, rfl⟩ := Nat.exists_eq_add_of_lt hmn
    unfold offsetAfter at hm hn
    rw [Nat.add_assoc, offsetFrom_add, hm] at hn
    exact ⟨m, d + 1, Nat.succ_pos d, a, hm, hn⟩
  rcases Nat.lt_or_gt_of_ne hne with hlt | hgt
  · exact hback hlt ha hb
  · exact hback hgt hb ha

/-- A walk that comes back to an offset never ends. -/
theorem isSome_of_repeated {d : Nat} (hd : 0 < d) (h : offsetFrom data d offset = some offset)
    (k : Nat) : (offsetFrom data k offset).isSome := by
  have hround : ∀ rounds, offsetFrom data (d * rounds) offset = some offset := by
    intro rounds
    induction rounds with
    | zero => rfl
    | succ rounds ih =>
      rw [Nat.mul_succ, offsetFrom_add, ih]
      exact h
  have hle : k ≤ d * k := Nat.le_mul_of_pos_left k hd
  exact isSome_offsetFrom hle (by rw [hround k]; rfl)

/-- A listing that has used up its steps would not end with more of them. -/
theorem list_unfinished_iff (data : Bytes) :
    (list data).2 = .unfinished ↔ ∀ steps, (walk data steps 0).2 = .unfinished := by
  constructor
  · intro h steps
    rw [list, walk_unfinished_iff] at h
    obtain ⟨j, d, hd, o, hj, hback⟩ := exists_repeated_offset h
    rw [walk_unfinished_iff]
    have hall : (offsetFrom data (j + steps) 0).isSome := by
      rw [offsetFrom_add, show offsetFrom data j 0 = some o from hj]
      exact isSome_of_repeated hd hback steps
    exact isSome_offsetFrom (Nat.le_add_left steps j) hall
  · exact fun h => h _

/-- A walk from the start that ends is the listing, however many steps it was given. -/
theorem list_eq_walk {steps : Nat} (h : (walk data steps 0).2 ≠ .unfinished) :
    list data = walk data steps 0 := by
  have hlist : (list data).2 ≠ .unfinished := fun hall => h ((list_unfinished_iff data).mp hall _)
  rcases Nat.le_total steps (stepLimit data) with hle | hle
  · exact walk_of_le hle h
  · exact (walk_of_le hle hlist).symm

/-! ### Walks that go forward -/

/-- The walk meets an entry at an offset. -/
def Meets (data : Bytes) (offset : Int) (e : Entry) : Prop :=
  ∃ k, offsetAfter data k = some offset ∧ step data offset = .entry e

/-- All sizes that the walk meets are greater than the negated size of a block. -/
def GoesForward (data : Bytes) : Prop :=
  ∀ offset e, Meets data offset e → -(blockSize : Int) < e.size

/-- A walk that goes forward is a block further with each header. -/
theorem GoesForward.next_le (h : GoesForward data) {k : Nat} {after : Int}
    (hk : offsetAfter data k = some offset) (hnext : offsetAfter data (k + 1) = some after) :
    offset + blockSize ≤ after := by
  obtain ⟨before, hbefore, hafter⟩ := Option.bind_eq_some_iff.mp hnext
  obtain rfl : offset = before := Option.some.inj (hk.symm.trans hbefore)
  obtain ⟨e, he, rfl⟩ := next?_eq_some hafter
  have := (blockSize_le_advance_iff e).mpr (h offset e ⟨k, hk, he⟩)
  omega

/-- A walk that goes forward is as many blocks further as it has met headers. -/
theorem GoesForward.add_le (h : GoesForward data) {j : Nat}
    (hj : offsetAfter data j = some offset) :
    ∀ {k : Nat} {after : Int}, offsetAfter data (j + k) = some after →
      offset + blockSize * k ≤ after
  | 0, after, hafter => by
    obtain rfl : offset = after := Option.some.inj (hj.symm.trans hafter)
    simp
  | k + 1, after, hafter => by
    obtain ⟨before, hbefore, -⟩ := Option.bind_eq_some_iff.mp hafter
    have hstep : before + blockSize ≤ after := h.next_le hbefore hafter
    have hrest := h.add_le hj hbefore
    push_cast
    rw [Int.mul_add, Int.mul_one]
    omega

/-- A walk that goes forward ends after no more steps than there are blocks and one. -/
theorem GoesForward.walk_ends (h : GoesForward data) :
    (walk data (data.length / blockSize + 1) 0).2 ≠ .unfinished := by
  intro hall
  rw [walk_unfinished_iff] at hall
  obtain ⟨after, hafter⟩ := Option.isSome_iff_exists.mp hall
  obtain ⟨offset, hoffset, hnext⟩ := Option.bind_eq_some_iff.mp hafter
  obtain ⟨e, he, -⟩ := next?_eq_some hnext
  obtain ⟨-, hhigh, -⟩ := step_entry he
  have hlow : (0 : Int) + blockSize * (data.length / blockSize : Nat) ≤ offset :=
    h.add_le rfl (by rw [Nat.zero_add]; exact hoffset)
  unfold blockSize at hlow hhigh
  omega

/-- Every entry of a walk lies at a whole number of blocks, at a whole block of the data, and the
next header lies at least a block further exactly if the size is greater than the negated size of a
block, as it is if the size field holds no minus sign. If that is so for every entry of the walk,
then offsets are never negative, no two of them are less than a block apart, there are no more of
them at a whole block than the data has blocks, and the walk ends, as its listing does. -/
theorem list_reads_each_header_once (data : Bytes) :
    (∀ offset e, Meets data offset e →
      (blockSize : Int) ∣ offset ∧ offset + blockSize ≤ data.length ∧
        (offset + blockSize ≤ offset + e.advance ↔ -(blockSize : Int) < e.size) ∧
        (45 ∉ fieldBytes "file_size" (blockAt data offset) → 0 ≤ e.size)) ∧
    (GoesForward data →
      (∀ k offset, offsetAfter data k = some offset → 0 ≤ offset ∧ (blockSize : Int) ∣ offset) ∧
      (∀ j k a b, j < k → offsetAfter data j = some a → offsetAfter data k = some b →
        a + blockSize ≤ b) ∧
      (∀ k offset, offsetAfter data k = some offset → offset + blockSize ≤ data.length →
        k < data.length / blockSize) ∧
      list data = walk data (data.length / blockSize + 1) 0 ∧ (list data).2 ≠ .unfinished) := by
  constructor
  · rintro offset e ⟨k, hk, he⟩
    obtain ⟨-, hhigh, hsize⟩ := step_entry he
    refine ⟨dvd_offsetAfter hk, hhigh, ?_, sizeOf?_nonneg hsize⟩
    rw [Int.add_le_add_iff_left, blockSize_le_advance_iff]
  · intro h
    have hlow : ∀ {k offset}, offsetAfter data k = some offset →
        (blockSize * k : Int) ≤ offset := by
      intro k offset hk
      have := h.add_le (j := 0) rfl (by rw [Nat.zero_add]; exact hk)
      omega
    have hlist := list_eq_walk h.walk_ends
    refine ⟨?_, ?_, ?_, hlist, by rw [hlist]; exact h.walk_ends⟩
    · intro k offset hk
      have := hlow hk
      unfold blockSize at this
      exact ⟨by omega, dvd_offsetAfter hk⟩
    · intro j k a b hjk hj hk
      obtain ⟨d, rfl⟩ := Nat.exists_eq_add_of_lt hjk
      have := h.add_le hj (k := d + 1) hk
      unfold blockSize at this ⊢
      omega
    · intro k offset hk hin
      have := hlow hk
      unfold blockSize at this hin ⊢
      omega

/-! ### Headers with a negative size -/

/-- A header whose size field holds a given text. -/
def headerWithSize (text : String) : Bytes :=
  Bytes.overwrite (fileHeaderWith "a" 0 (List.replicate 8 32)) 124 (padded 12 text)

/-- A walk that finds nothing after its first header meets no other one. -/
theorem Meets.eq_zero {second : Int} (hfirst : next? data 0 = some second)
    (hsecond : next? data second = none) (h : Meets data offset e) : offset = 0 := by
  obtain ⟨k, hk, he⟩ := h
  match k with
  | 0 => exact (Option.some.inj hk).symm
  | 1 =>
    obtain rfl : second = offset := Option.some.inj (hfirst.symm.trans hk)
    unfold next? at hsecond
    rw [he] at hsecond
    cases hsecond
  | k + 2 =>
    have hnone : offsetFrom data 2 0 = none := by
      show (next? data 0).bind (next? data) = none
      rw [hfirst]
      exact hsecond
    rw [offsetAfter, Nat.add_comm, offsetFrom_add, hnone] at hk
    cases hk

/-- A header whose size is greater than the negated size of a block by one is met once. -/
theorem small_negative_size_is_passed :
    GoesForward (headerWithSize "-777") ∧ (list (headerWithSize "-777")).2 ≠ .unfinished := by
  have hforward : GoesForward (headerWithSize "-777") := by
    have hfirst : next? (headerWithSize "-777") 0 = some 512 := by decide +kernel
    have hsecond : next? (headerWithSize "-777") 512 = none := by decide +kernel
    intro offset e hmeets
    obtain rfl := hmeets.eq_zero hfirst hsecond
    obtain ⟨k, -, he⟩ := hmeets
    unfold next? at hfirst
    rw [he] at hfirst
    have hadvance : 0 + e.advance = 512 := Option.some.inj hfirst
    exact (blockSize_le_advance_iff e).mp (by unfold blockSize; omega)
  exact ⟨hforward, ((list_reads_each_header_once _).2 hforward).2.2.2.2⟩

/-- A walk whose first header leads back to the start stays there. -/
theorem offsetAfter_of_stays (h : next? data 0 = some 0) :
    ∀ k, offsetAfter data k = some 0
  | 0 => rfl
  | k + 1 => by
    rw [offsetAfter, offsetFrom_succ,
      show offsetFrom data k 0 = some 0 from offsetAfter_of_stays h k]
    exact h

/-- A header with a size of minus three blocks is read a second time, at an offset that counts from
the end, and the walk never gets past a header with a size of minus one block. -/
theorem negative_size_goes_backward :
    next? (headerWithSize "-3000" ++ Bytes.zeros 512) 0 = some (-1024) ∧
      blockAt (headerWithSize "-3000" ++ Bytes.zeros 512) (-1024) = headerWithSize "-3000" ∧
      (list (headerWithSize "-3000" ++ Bytes.zeros 512)).1.length = 2 ∧
      ∀ steps, offsetAfter (headerWithSize "-1000") steps = some 0 ∧
        (walk (headerWithSize "-1000") steps 0).2 = .unfinished := by
  refine ⟨by decide +kernel, by decide +kernel, by decide +kernel, fun steps => ?_⟩
  have hstay : offsetAfter (headerWithSize "-1000") steps = some 0 :=
    offsetAfter_of_stays (by decide +kernel) steps
  refine ⟨hstay, ?_⟩
  rw [walk_unfinished_iff, ← offsetAfter, hstay]
  rfl

end Archive
end FixedLayout
