import FixedLayout.Value.Operators
import Mathlib.Data.Finset.Card
import Mathlib.Data.List.Sort
import Mathlib.Tactic.ByContra

/-!
# Handles compared by their bytes

Views and packets stand to each other, and to byte strings, as their bytes do. It does not matter
which of the operands is asked, which of them puts its answer together from others, and what their
layouts are.

* `Comparison.Relates`: what a comparison says of byte strings, in lexicographic order;
* `Value.answer_of_bytes`: what an operand says that has found both byte strings;
* `Value.operator_eq_holds`: operators, asked one operand after the other, come to `Value.holds`;
* `Value.Shows`: a view that has not been released, or a packet. `Value.Shows.operator_iff`: the
  comparisons of two of them; `Value.totallyOrdered_shows`: their order;
* `Value.exists_sort`: views and packets sorted;
* `Value.Keyed`, `Value.distinct_eq_card`: hashes, and tables of what is looked up by its bytes.
-/

namespace FixedLayout

/-! ### Byte strings in order -/

/-- What a comparison says of byte strings: the order is the lexicographic one. -/
def Comparison.Relates : Comparison → Bytes → Bytes → Prop
  | .eq, x, y => x = y
  | .ne, x, y => x ≠ y
  | .lt, x, y => x < y
  | .le, x, y => x ≤ y
  | .gt, x, y => y < x
  | .ge, x, y => y ≤ x

instance (c : Comparison) (x y : Bytes) : Decidable (c.Relates x y) :=
  match c with
  | .eq => inferInstanceAs (Decidable (x = y))
  | .ne => inferInstanceAs (Decidable (x ≠ y))
  | .lt => inferInstanceAs (Decidable (x < y))
  | .le => inferInstanceAs (Decidable (x ≤ y))
  | .gt => inferInstanceAs (Decidable (y < x))
  | .ge => inferInstanceAs (Decidable (y ≤ x))

theorem Comparison.mirror_relates (c : Comparison) (x y : Bytes) :
    c.mirror.Relates y x ↔ c.Relates x y := by
  cases c with
  | eq => exact eq_comm
  | ne => exact ne_comm
  | _ => exact Iff.rfl

theorem compareBytes_eq_iff {x y : Bytes} : compareBytes x y = .eq ↔ x = y :=
  compareLists_eq_iff (fun a b => by rw [Nat.compare_eq_eq, UInt8.toNat_inj]) x y

theorem compareBytes_lt_iff {x y : Bytes} : compareBytes x y = .lt ↔ x < y := by
  induction x generalizing y with
  | nil => cases y <;> simp [compareBytes, compareLists]
  | cons a x ih =>
    cases y with
    | nil => simp [compareBytes, compareLists]
    | cons b y =>
      have hrest : compareLists (fun x y : UInt8 => compare x.toNat y.toNat) x y = .lt ↔ x < y := ih
      rw [List.cons_lt_cons_iff, ← hrest, UInt8.lt_iff_toNat_lt, ← UInt8.toNat_inj, compareBytes,
        compareLists, Ordering.then_eq_lt, Nat.compare_eq_lt, Nat.compare_eq_eq]

theorem compareBytes_swap (x y : Bytes) : (compareBytes x y).swap = compareBytes y x := by
  induction x generalizing y with
  | nil => cases y <;> rfl
  | cons a x ih =>
    cases y with
    | nil => rfl
    | cons b y =>
      have hrest := ih y
      unfold compareBytes at hrest ⊢
      rw [compareLists, compareLists, Ordering.swap_then, hrest, Nat.compare_swap]

theorem compareBytes_gt_iff {x y : Bytes} : compareBytes x y = .gt ↔ y < x := by
  rw [← compareBytes_lt_iff, ← compareBytes_swap x y, Ordering.swap_eq_lt]

/-- What holds of byte strings in a given order is what the comparison says of them. -/
theorem Comparison.ofOrdering_compareBytes (c : Comparison) (x y : Bytes) :
    c.ofOrdering (compareBytes x y) = decide (c.Relates x y) := by
  rw [Bool.eq_iff_iff, decide_eq_true_iff]
  cases c with
  | eq => exact beq_iff_eq.trans compareBytes_eq_iff
  | ne => exact bne_iff_ne.trans compareBytes_eq_iff.not
  | lt => exact beq_iff_eq.trans compareBytes_lt_iff
  | le => exact bne_iff_ne.trans (compareBytes_gt_iff.not.trans List.not_lt)
  | gt => exact beq_iff_eq.trans compareBytes_gt_iff
  | ge => exact bne_iff_ne.trans (compareBytes_lt_iff.not.trans List.not_lt)

/-! ### Operands -/

namespace Value

variable {a b : Value} {x y : Bytes} {c : Comparison}

theorem releasedType?_of_rawBytes? (h : a.rawBytes? = some x) : a.releasedType? = none := by
  cases a with
  | view l content =>
    obtain rfl : content = some x := h
    rfl
  | _ => rfl

theorem lentBytes_of_rawBytes? (h : a.rawBytes? = some x) : a.lentBytes = .ok (some x) := by
  unfold lentBytes
  rw [releasedType?_of_rawBytes? h, h]

/-- A view or packet that cannot be read has been released. -/
theorem lentBytes_of_isHandle (h : a.isHandle = true) :
    (∃ x, a.rawBytes? = some x ∧ a.lentBytes = .ok (some x)) ∨
      ∃ typeName, a.releasedType? = some typeName ∧ a.rawBytes? = none ∧
        a.lentBytes = .error (.released typeName) := by
  cases a with
  | view l content =>
    cases content with
    | some x => exact .inl ⟨x, rfl, rfl⟩
    | none => exact .inr ⟨l.typeName, rfl, rfl, rfl⟩
  | packet l content => exact .inl ⟨content, rfl, rfl⟩
  | _ => cases h

section Operands

variable (c : Comparison)

theorem answer_of_error {fault : OrderFault} (h : a.bothBytes b = .error fault) :
    a.answer b c = .error fault := by
  have hask : ∀ test, a.answerWith test b = .error fault := fun test => by
    rw [answerWith, h, Except.map]
  cases c <;> simp only [answer, answerNe, answerEq, answerLt, hask] <;> rfl

theorem answer_of_none (h : a.bothBytes b = .ok none) : a.answer b c = .ok none := by
  have hask : ∀ test, a.answerWith test b = .ok none := fun test => by
    rw [answerWith, h, Except.map, Option.map]
  cases c <;> simp only [answer, answerNe, answerEq, answerLt, hask] <;> rfl

/-- A view or packet that has read both byte strings says what is true of them: of less or equal and
of greater, because just one of less, equal and greater is true of any two of them. -/
theorem answer_of_bytes (h : a.bothBytes b = .ok (some (x, y))) :
    a.answer b c = .ok (some (decide (c.Relates x y))) := by
  have hask : ∀ test, a.answerWith test b = .ok (some (test x y)) := fun test => by
    rw [answerWith, h, Except.map, Option.map]
  have heq : a.operatorEq b = .ok (x == y) := by
    simp only [operatorEq, Answer.orElse, answerEq, hask]
    rfl
  have hne : a.operatorNe b = .ok (!(x == y)) := by
    simp only [operatorNe, Answer.orElse, answerNe, answerEq, hask]
    rfl
  rw [← Comparison.ofOrdering_compareBytes]
  have hlevel : (x == y) = (compareBytes x y == .eq) := by
    rw [Bool.eq_iff_iff, beq_iff_eq, beq_iff_eq, compareBytes_eq_iff]
  cases c <;> simp only [answer, answerNe, answerEq, answerLt, hask, heq, hne, hlevel] <;>
    cases compareBytes x y <;> rfl

end Operands

/-! ### Operators -/

theorem bothBytes_of_not_isHandle (h : a.isHandle = false) (b : Value) :
    a.bothBytes b = .ok none := by
  unfold bothBytes
  rw [h]
  rfl

/-- A view or packet finds both byte strings exactly if both operands have them. -/
theorem bothBytes_eq (h : a.isHandle = true) (ha : a.rawBytes? = some x)
    (hb : b.rawBytes? = some y) : a.bothBytes b = .ok (some (x, y)) := by
  unfold bothBytes
  rw [h, lentBytes_of_rawBytes? ha, lentBytes_of_rawBytes? hb]
  rfl

/-- What a view or packet finds out about both operands. -/
theorem bothBytes_of_isHandle (h : a.isHandle = true) (b : Value) :
    a.bothBytes b = match b.releasedType?, b.rawBytes?, a.releasedType? with
      | some typeName, _, _ => .error (.released typeName)
      | none, some _, some typeName => .error (.released typeName)
      | none, theirs, _ => .ok (a.rawBytes?.bind fun own => theirs.map (own, ·)) := by
  unfold bothBytes
  rw [h]
  rcases lentBytes_of_isHandle h with ⟨x, hx, hlent⟩ | ⟨typeName, hreleased, hraw, hlent⟩
  · rw [hlent, releasedType?_of_rawBytes? hx, hx, lentBytes]
    cases b.releasedType? <;> cases b.rawBytes? <;> rfl
  · rw [hlent, hreleased, hraw, lentBytes]
    cases b.releasedType? <;> cases b.rawBytes? <;> rfl

theorem handleBytes_left (h : a.isHandle = true) (b : Value) :
    a.handleBytes b = match a.bothBytes b with
      | .ok found => found.map .ok
      | .error fault => some (.error fault) := by
  rw [bothBytes_of_isHandle h]
  unfold handleBytes
  simp only [h, Bool.true_or, if_true]
  rcases lentBytes_of_isHandle h with ⟨x, hx, -⟩ | ⟨typeName, hreleased, hraw, -⟩
  · rw [releasedType?_of_rawBytes? hx, hx]
    cases b.releasedType? <;> cases b.rawBytes? <;> rfl
  · rw [hreleased, hraw]
    cases b.releasedType? <;> cases b.rawBytes? <;> rfl

theorem handleBytes_right (ha : a.isHandle = false) (hb : b.isHandle = true) :
    a.handleBytes b = match b.bothBytes a with
      | .ok found => found.map fun (y, x) => .ok (x, y)
      | .error fault => some (.error fault) := by
  rw [bothBytes_of_isHandle hb]
  unfold handleBytes
  simp only [ha, hb, Bool.or_true, if_true, Bool.false_eq_true, if_false]
  rcases lentBytes_of_isHandle hb with ⟨y, hy, -⟩ | ⟨typeName, hreleased, hraw, -⟩
  · rw [releasedType?_of_rawBytes? hy, hy]
    cases a.releasedType? <;> cases a.rawBytes? <;> rfl
  · rw [hreleased, hraw]
    cases a.releasedType? <;> cases a.rawBytes? <;> rfl

/-- Two values that are both compared by their bytes stand as these do. -/
theorem holds_of_bytes (h : a.handleBytes b = some (.ok (x, y))) (c : Comparison) :
    a.holds c b = .ok (decide (c.Relates x y)) := by
  have hcompare : a.compare b = .ok (some (compareBytes x y)) := by
    unfold Value.compare
    rw [h]
  have hequals : a.equals b = .ok (x == y) := by
    unfold Value.equals
    rw [h]
  have hlevel : (x == y) = (compareBytes x y == .eq) := by
    rw [Bool.eq_iff_iff, beq_iff_eq, beq_iff_eq, compareBytes_eq_iff]
  rw [← Comparison.ofOrdering_compareBytes]
  cases c with
  | eq => rw [holds, hequals, hlevel]; rfl
  | ne => rw [holds, hequals, hlevel]; rfl
  | _ => simp only [holds, hcompare]

theorem holds_of_handleBytes {fault : OrderFault} (h : a.handleBytes b = some (.error fault))
    (c : Comparison) : a.holds c b = .error fault := by
  have hcompare : a.compare b = .error fault := by
    unfold Value.compare
    rw [h]
  have hequals : a.equals b = .error fault := by
    unfold Value.equals
    rw [h]
  cases c with
  | eq => exact hequals
  | ne => simp only [holds, hequals, Except.map]
  | _ => simp only [holds, hcompare]

/-- Both byte strings are found if there are two. -/
theorem handleBytes_eq (h : a.isHandle = true ∨ b.isHandle = true) (ha : a.rawBytes? = some x)
    (hb : b.rawBytes? = some y) : a.handleBytes b = some (.ok (x, y)) := by
  by_cases hleft : a.isHandle = true
  · rw [handleBytes_left hleft, bothBytes_eq hleft ha hb]
    rfl
  · have hright := h.resolve_left hleft
    rw [handleBytes_right (Bool.eq_false_iff.2 hleft) hright, bothBytes_eq hright hb ha]
    rfl

/-- A view or packet equals a value exactly if both have the same bytes. -/
theorem same_of_isHandle (h : a.isHandle = true ∨ b.isHandle = true) :
    a.same b = true ↔ a.rawBytes? = b.rawBytes? ∧ a.rawBytes?.isSome = true := by
  -- whether an operand has bytes is open only where it is a view
  rcases h with h | h
  · cases a with
    | view l content =>
      cases b with
      | view l' content' =>
        cases content <;> cases content' <;> simp [same, isNumber, isHandle, rawBytes?]
      | _ => cases content <;> simp [same, isNumber, isHandle, rawBytes?, flatBytes?]
    | packet l content =>
      cases b with
      | view l' content' => cases content' <;> simp [same, isNumber, isHandle, rawBytes?]
      | _ => simp [same, isNumber, isHandle, rawBytes?, flatBytes?]
    | _ => cases h
  · cases b with
    | view l content =>
      cases a with
      | view l' content' =>
        cases content <;> cases content' <;> simp [same, isNumber, isHandle, rawBytes?]
      | _ => cases content <;> simp [same, isNumber, isHandle, rawBytes?, flatBytes?]
    | packet l content =>
      cases a with
      | view l' content' => cases content' <;> simp [same, isNumber, isHandle, rawBytes?]
      | _ => simp [same, isNumber, isHandle, rawBytes?, flatBytes?]
    | _ => cases h

/-- A view or packet that is not compared by bytes has no order with the other value. -/
theorem compare_of_none (h : a.isHandle = true ∨ b.isHandle = true)
    (hnone : a.handleBytes b = none) : a.compare b = .error .unordered := by
  unfold Value.compare
  rw [hnone]
  rcases h with h | h
  · cases a with
    | view l content => cases b <;> rfl
    | packet l content => cases b <;> rfl
    | _ => cases h
  · cases b with
    | view l content =>
      cases a with
      | member enum name integral payload => cases integral <;> rfl
      | _ => rfl
    | packet l content =>
      cases a with
      | member enum name integral payload => cases integral <;> rfl
      | _ => rfl
    | _ => cases h

/-- A view or packet is not equal to a value without bytes, and neither is the less. -/
theorem holds_of_none (h : a.isHandle = true ∨ b.isHandle = true) (hnone : a.handleBytes b = none)
    (c : Comparison) : a.holds c b = c.declined := by
  have hcompare := compare_of_none h hnone
  have hsame : a.same b = false := by
    rw [← Bool.not_eq_true, same_of_isHandle h]
    rintro ⟨heq, hsome⟩
    obtain ⟨x, ha⟩ := Option.isSome_iff_exists.1 hsome
    rw [handleBytes_eq h ha (heq.symm.trans ha)] at hnone
    cases hnone
  have hequals : a.equals b = .ok false := by
    unfold Value.equals
    rw [hnone, hsame]
  cases c with
  | eq => exact hequals
  | ne => rw [holds, hequals]; rfl
  | _ => simp only [holds, hcompare, Comparison.declined]

/-- What a view or packet declines to be compared with is none itself. -/
theorem not_isHandle_of_bothBytes (ha : a.isHandle = true) (hnone : a.bothBytes b = .ok none) :
    b.isHandle = false := by
  by_contra hb
  rw [Bool.not_eq_false] at hb
  rw [bothBytes_of_isHandle ha] at hnone
  rcases lentBytes_of_isHandle hb with ⟨y, hy, -⟩ | ⟨typeName, hreleased, -⟩
  · rw [releasedType?_of_rawBytes? hy, hy] at hnone
    rcases lentBytes_of_isHandle ha with ⟨x, hx, -⟩ | ⟨typeName, hreleased, -⟩
    · rw [releasedType?_of_rawBytes? hx, hx] at hnone
      cases hnone
    · rw [hreleased] at hnone
      cases hnone
  · rw [hreleased] at hnone
    cases hnone

theorem operator_of_not_isHandle (ha : a.isHandle = false) (c : Comparison) :
    a.operator c b = Answer.orElse (b.answer a c.mirror) (.ok none) c.declined := by
  unfold operator
  rw [answer_of_none c (bothBytes_of_not_isHandle ha b)]
  cases b.answer a c.mirror with
  | error fault => rfl
  | ok found => cases found <;> rfl

/-- Operators come to what is said of values as a whole, also where an operand has been released or
has no bytes. -/
theorem operator_eq_holds (h : a.isHandle = true ∨ b.isHandle = true) (c : Comparison) :
    a.operator c b = a.holds c b := by
  by_cases ha : a.isHandle = true
  · have hbytes := handleBytes_left ha b
    cases hboth : a.bothBytes b with
    | error fault =>
      rw [hboth] at hbytes
      rw [holds_of_handleBytes hbytes, operator, answer_of_error c hboth]
      rfl
    | ok found =>
      rw [hboth] at hbytes
      cases found with
      | none =>
        have hb := not_isHandle_of_bothBytes ha hboth
        rw [holds_of_none h hbytes, operator, answer_of_none c hboth,
          answer_of_none c.mirror (bothBytes_of_not_isHandle hb a)]
        rfl
      | some found =>
        obtain ⟨x, y⟩ := found
        rw [holds_of_bytes hbytes, operator, answer_of_bytes c hboth]
        rfl
  · have hb := h.resolve_left ha
    rw [Bool.not_eq_true] at ha
    have hbytes := handleBytes_right ha hb
    rw [operator_of_not_isHandle ha]
    cases hboth : b.bothBytes a with
    | error fault =>
      rw [hboth] at hbytes
      rw [holds_of_handleBytes hbytes, answer_of_error c.mirror hboth]
      rfl
    | ok found =>
      rw [hboth] at hbytes
      cases found with
      | none =>
        rw [holds_of_none h hbytes, answer_of_none c.mirror hboth]
        rfl
      | some found =>
        obtain ⟨y, x⟩ := found
        rw [holds_of_bytes hbytes, answer_of_bytes c.mirror hboth,
          decide_eq_decide.2 (c.mirror_relates x y)]
        rfl

/-- An operator between values that have bytes, one of which is a view or packet, says what is true
of these bytes. -/
theorem operator_of_bytes (h : a.isHandle = true ∨ b.isHandle = true) (ha : a.rawBytes? = some x)
    (hb : b.rawBytes? = some y) (c : Comparison) :
    a.operator c b = .ok (decide (c.Relates x y)) := by
  rw [operator_eq_holds h, holds_of_bytes (handleBytes_eq h ha hb)]

/-! ### Views and packets in order -/

/-- A view that has not been released, or a packet, and its bytes. -/
structure Shows (v : Value) (x : Bytes) : Prop where
  isHandle : v.isHandle = true
  rawBytes? : v.rawBytes? = some x

namespace Shows

theorem operator_eq (ha : a.Shows x) (hb : b.Shows y) (c : Comparison) :
    a.operator c b = .ok (decide (c.Relates x y)) :=
  operator_of_bytes (.inl ha.isHandle) ha.rawBytes? hb.rawBytes? c

theorem operator_iff (ha : a.Shows x) (hb : b.Shows y) :
    a.operator c b = .ok true ↔ c.Relates x y := by
  rw [ha.operator_eq hb, Except.ok.injEq, decide_eq_true_iff]

end Shows

/-- Values are in total order, up to equality, by what operators say of them. -/
structure TotallyOrdered (P : Value → Prop) : Prop where
  refl : ∀ a, P a → a.operator .le a = .ok true
  antisymm : ∀ a b, P a → P b → a.operator .le b = .ok true → b.operator .le a = .ok true →
    a.operator .eq b = .ok true
  trans : ∀ a b c, P a → P b → P c → a.operator .le b = .ok true → b.operator .le c = .ok true →
    a.operator .le c = .ok true
  total : ∀ a b, P a → P b → a.operator .le b = .ok true ∨ b.operator .le a = .ok true

/-- Views and packets take over the order of byte strings. -/
theorem totallyOrdered_shows : TotallyOrdered fun v => ∃ x, v.Shows x where
  refl := by
    rintro a ⟨x, ha⟩
    exact (ha.operator_iff ha).2 (List.le_refl x)
  antisymm := by
    rintro a b ⟨x, ha⟩ ⟨y, hb⟩ hab hba
    rw [ha.operator_iff hb] at hab ⊢
    rw [hb.operator_iff ha] at hba
    exact List.le_antisymm hab hba
  trans := by
    rintro a b c ⟨x, ha⟩ ⟨y, hb⟩ ⟨z, hc⟩ hab hbc
    rw [ha.operator_iff hb] at hab
    rw [hb.operator_iff hc] at hbc
    rw [ha.operator_iff hc]
    exact List.le_trans hab hbc
  total := by
    rintro a b ⟨x, ha⟩ ⟨y, hb⟩
    rw [ha.operator_iff hb, hb.operator_iff ha]
    exact List.le_total x y

section Sorting

variable {α : Type} {value : α → Value} {key : α → Bytes}

/-- An item goes before the first one whose bytes are not greater. -/
theorem insertDescending_eq {i : α} {items : List α} (hi : (value i).Shows (key i))
    (hitems : ∀ j ∈ items, (value j).Shows (key j)) :
    insertDescending (fun i j => holds .lt (value i) (value j)) i items =
      .ok (items.orderedInsert (fun i j => key j ≤ key i) i) := by
  induction items with
  | nil => rfl
  | cons j items ih =>
    obtain ⟨hj, hrest⟩ := List.forall_mem_cons.1 hitems
    have hless : holds .lt (value i) (value j) = .ok (decide (key i < key j)) := by
      rw [← operator_eq_holds (.inl hi.isHandle), hi.operator_eq hj]
      rfl
    rw [insertDescending, hless, List.orderedInsert]
    by_cases hlt : key i < key j
    · rw [ih hrest, decide_eq_true hlt, if_neg (List.not_le.2 hlt)]
      rfl
    · rw [decide_eq_false hlt, if_pos (List.not_lt.1 hlt)]
      rfl

theorem sortDescending_eq {sorted items : List α}
    (hsorted : ∀ j ∈ sorted, (value j).Shows (key j))
    (hitems : ∀ j ∈ items, (value j).Shows (key j)) :
    sortDescending (fun i j => holds .lt (value i) (value j)) sorted items =
      .ok (items.foldl (fun sorted i => sorted.orderedInsert (fun i j => key j ≤ key i) i)
        sorted) := by
  induction items generalizing sorted with
  | nil => rfl
  | cons i items ih =>
    obtain ⟨hi, hrest⟩ := List.forall_mem_cons.1 hitems
    rw [sortDescending, insertDescending_eq hi hsorted]
    refine ih (fun j hj => ?_) hrest
    rcases List.mem_cons.1 ((List.perm_orderedInsert _ i sorted).mem_iff.1 hj) with rfl | hj
    · exact hi
    · exact hsorted j hj

/-- Views and packets can be sorted: the result is a rearrangement in ascending order of the bytes,
and items that are in order already stay in it. -/
theorem exists_sort {items : List α} (h : ∀ i ∈ items, (value i).Shows (key i)) :
    ∃ sorted, sort value items = .ok sorted ∧ sorted.Perm items ∧
      sorted.Pairwise (fun i j => key i ≤ key j) ∧
      ∀ i j, key i ≤ key j → [i, j].Sublist items → [i, j].Sublist sorted := by
  have hfold : sort value items =
      .ok (items.reverse.insertionSort fun i j => key j ≤ key i).reverse := by
    unfold sort
    rw [sortDescending_eq (fun _ hj => absurd hj List.not_mem_nil) h, List.foldl_eq_foldr_reverse]
    rfl
  have : Std.Total fun i j : α => key j ≤ key i := ⟨fun i j => List.le_total (key j) (key i)⟩
  have : IsTrans α fun i j => key j ≤ key i := ⟨fun _ _ _ hij hjk => List.le_trans hjk hij⟩
  refine ⟨_, hfold, ?_, ?_, fun i j hle hsub => ?_⟩
  · exact (List.reverse_perm _).trans ((List.perm_insertionSort _ _).trans (List.reverse_perm _))
  · exact List.pairwise_reverse.2 (List.pairwise_insertionSort _ _)
  · have hpair := List.pair_sublist_insertionSort (r := fun i j => key j ≤ key i) hle hsub.reverse
    exact hpair.reverse

end Sorting

/-! ### Tables -/

/-- A value that is looked up by its bytes: a view that has not been released, a packet, or a byte
string. -/
structure Keyed (v : Value) (x : Bytes) : Prop where
  hashFault? : v.hashFault? = none
  rawBytes? : v.rawBytes? = some x

theorem Shows.keyed (h : a.Shows x) : a.Keyed x := by
  refine ⟨?_, h.rawBytes?⟩
  cases a with
  | view l content =>
    obtain rfl : content = some x := h.rawBytes?
    rfl
  | packet l content => rfl
  | _ => cases h.isHandle

theorem keyed_bytes (x : Bytes) : (Value.bytes x).Keyed x := ⟨rfl, rfl⟩

namespace Keyed

variable {η : Type} (hashBytes : Bytes → η)

/-- The hash is that of the bytes. -/
theorem hash?_eq (h : a.Keyed x) : a.hash? hashBytes = some (hashBytes x) := by
  unfold hash?
  rw [h.hashFault?, h.rawBytes?]
  rfl

/-- What is looked up by its bytes is a byte string, unless it is a view or packet. -/
theorem isHandle_or (h : a.Keyed x) : a.isHandle = true ∨ a = .bytes x := by
  cases a with
  | view l content => exact .inl rfl
  | packet l content => exact .inl rfl
  | bytes content => exact .inr (congrArg Value.bytes (Option.some.inj h.rawBytes?))
  | bytearray content => exact nomatch h.hashFault?
  | memory window => exact nomatch h.hashFault?
  | _ => exact nomatch h.rawBytes?

theorem same_iff (ha : a.Keyed x) (hb : b.Keyed y) : a.same b = true ↔ x = y := by
  by_cases h : a.isHandle = true ∨ b.isHandle = true
  · rw [same_of_isHandle h, ha.rawBytes?, hb.rawBytes?]
    simp
  · obtain ⟨ha', hb'⟩ := not_or.1 h
    rw [ha.isHandle_or.resolve_left ha', hb.isHandle_or.resolve_left hb']
    simp [same, isNumber, isHandle, window?, flatBytes?, sameWindow]

end Keyed

/-- A test that tells values with different bytes apart. -/
def TellsApart (test : Value → Value → Bool) : Prop :=
  ∀ u v x y, Keyed u x → Keyed v y → (test u v = true ↔ x = y)

theorem tellsApart_same : TellsApart same := fun _ _ _ _ hu hv => hu.same_iff hv

/-- Looking at the hashes first makes no difference, since equal values have equal hashes. -/
theorem tellsApart_hash {η : Type} [BEq η] [ReflBEq η] (hashBytes : Bytes → η) :
    TellsApart fun u v => u.hash? hashBytes == v.hash? hashBytes && u.same v := by
  intro u v x y hu hv
  rw [Bool.and_eq_true, hu.same_iff hv, hu.hash?_eq, hv.hash?_eq]
  refine ⟨And.right, ?_⟩
  rintro rfl
  exact ⟨beq_self_eq_true _, rfl⟩

section Tables

variable {test : Value → Value → Bool} {vs seen : List Value} {keys known : List Bytes}

theorem hashFaultEach?_eq_none (h : List.Forall₂ Keyed vs keys) : hashFaultEach? vs = none := by
  induction h with
  | nil => rfl
  | cons hv _ ih =>
    rw [hashFaultEach?, hv.hashFault?, ih]
    rfl

theorem any_iff_mem (htest : TellsApart test) (hseen : List.Forall₂ Keyed seen known) {v : Value}
    (hv : v.Keyed x) : seen.any (test · v) = true ↔ x ∈ known := by
  induction hseen with
  | nil => simp
  | cons hu _ ih =>
    rw [List.any_cons, Bool.or_eq_true, ih, htest _ _ _ _ hu hv, List.mem_cons, eq_comm]

/-- A table that holds one value for each of some byte strings holds one for each of more of them
once further values have been put in, whatever test it takes to tell them apart. -/
theorem exists_firsts (hvs : List.Forall₂ Keyed vs keys) (hseen : List.Forall₂ Keyed seen known)
    (hnodup : known.Nodup) : ∃ (kept : List Value) (all : List Bytes),
      List.Forall₂ Keyed kept all ∧ all.Nodup ∧ (∀ x, x ∈ all ↔ x ∈ known ∨ x ∈ keys) ∧
        ∀ test, TellsApart test → vs.foldl (fun seen v =>
          if seen.any (test · v) then seen else seen ++ [v]) seen = kept := by
  induction hvs generalizing seen known with
  | nil => exact ⟨seen, known, hseen, hnodup, fun x => by simp, fun _ _ => rfl⟩
  | @cons v x vs keys hv _ ih =>
    by_cases hmem : x ∈ known
    · obtain ⟨kept, all, hkept, hdistinct, hiff, hfold⟩ := ih hseen hnodup
      refine ⟨kept, all, hkept, hdistinct, fun z => ?_, fun test htest => ?_⟩
      · rw [hiff, List.mem_cons]
        constructor
        · exact Or.imp_right .inr
        · rintro (hz | rfl | hz)
          · exact .inl hz
          · exact .inl hmem
          · exact .inr hz
      · rw [List.foldl_cons, if_pos ((any_iff_mem htest hseen hv).2 hmem)]
        exact hfold test htest
    · have hmore : (known ++ [x]).Nodup :=
        hnodup.append (List.nodup_singleton x) (List.disjoint_singleton.2 hmem)
      obtain ⟨kept, all, hkept, hdistinct, hiff, hfold⟩ :=
        ih (List.rel_append hseen (.cons hv .nil)) hmore
      refine ⟨kept, all, hkept, hdistinct, fun z => ?_, fun test htest => ?_⟩
      · rw [hiff, List.mem_append, List.mem_singleton, List.mem_cons, or_assoc]
      · rw [List.foldl_cons, if_neg (mt (any_iff_mem htest hseen hv).1 hmem)]
        exact hfold test htest

/-- A table of views, packets and byte strings has as many values as there are different bytes, and
keeps the first of those with the same bytes. -/
theorem distinct_eq_card (h : List.Forall₂ Keyed vs keys) :
    distinct vs = .ok keys.toFinset.card ∧
      ∀ {η : Type} [BEq η] [ReflBEq η] (hashBytes : Bytes → η),
        firstsHashed hashBytes vs = firsts vs := by
  obtain ⟨kept, all, hkept, hnodup, hiff, hfold⟩ := exists_firsts h .nil List.nodup_nil
  have hfirsts : firsts vs = kept := hfold same tellsApart_same
  have hsame : all.toFinset = keys.toFinset := by
    ext x
    simp [hiff]
  refine ⟨?_, fun hashBytes => (hfold _ (tellsApart_hash hashBytes)).trans hfirsts.symm⟩
  unfold distinct
  rw [hashFaultEach?_eq_none h, hfirsts, ← hsame, List.toFinset_card_of_nodup hnodup]
  exact congrArg Except.ok hkept.length_eq

end Tables

end Value

end FixedLayout
