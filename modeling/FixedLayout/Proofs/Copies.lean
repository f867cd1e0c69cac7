import FixedLayout.Proofs.Standard
import FixedLayout.Proofs.Views

/-!
# Arrays as tuples of equal entries

An array computes where its elements are; a tuple has a slot for each of its entries. For entries of
one layout the two are the same but for what they are called: they have the same bytes, and do the
same with them, also where something fails.

* `Layout.copies`: a tuple of equal entries;
* `checkRun_copies`, `decodeRun_copies`, `encodeRun_copies`: the loops of an array and of a tuple
  side by side. `EndsAlike`: encoding ends in both in the same way;
* `getElem?_copies`: the slots of a tuple are where an array has its elements;
* `Interchangeable`: an array and the tuple of as many copies. `interchangeable`: they always are;
* `Catalog.array_is_tuple`: array types, however they are declared, and tuple types.
-/

namespace FixedLayout

/-- The tuple of a number of entries of one layout. -/
def Layout.copies (element : Layout) (n : Nat) : Layout :=
  .composite .tuple (entryFields 0 (List.replicate n element))

/-- Encoding ends in an array and in a tuple of as many entries in the same way: the number of items
is wrong, the same entry has been rejected, or the same other fault has come up. -/
inductive EndsAlike (arrayName tupleName : String) (n : Nat) :
    Except EncodeFault Unit → Except EncodeFault Unit → Prop
  | ok : EndsAlike arrayName tupleName n (.ok ()) (.ok ())
  | count (k : Nat) : k ≠ n → EndsAlike arrayName tupleName n
    (.error (.rejected (.elementCount arrayName n k)))
    (.error (.rejected (.entryCount tupleName n k)))
  | entry (k : Nat) (e : EncodeError) : k < n → EndsAlike arrayName tupleName n
    (.error (.rejected (.inElement k arrayName e)))
    (.error (.rejected (.inField (toString k) tupleName e)))
  | other (fault : EncodeFault) : (∀ e, fault ≠ .rejected e) →
    EndsAlike arrayName tupleName n (.error fault) (.error fault)

/-! ### One entry after another -/

/-- An element starts where the one before it ends. -/
theorem offset_next (index : Nat) (size : Int) :
    (index : Int) * size + size = ((index + 1 : Nat) : Int) * size := by
  rw [Int.natCast_add, Int.natCast_one, offset_succ]

/-- A part is written where it belongs, and a rejection gets one more node; what has been written
until then stays there. -/
theorem Writer.wrap_within {node : EncodeError → EncodeError} {w : Writer} {lo hi : Int}
    {region piece : Bytes} {r : Except EncodeFault Unit}
    (h : w (Bytes.slice region lo hi) = (r, piece)) :
    Writer.wrap node (.within lo hi w) region = (r.mapError (·.wrap node),
      Bytes.overwrite region (Bytes.bound region.length lo) piece) := by
  refine wrap_apply node ?_
  simp only [within, ofFn, h]

section Copies

variable (element : Layout) (arrayName tupleName : String)

theorem size_entryFields_replicate (index n : Nat) :
    (entryFields index (List.replicate n element)).size = n * element.size := by
  induction n generalizing index with
  | zero => exact (Int.zero_mul _).symm
  | succ n ih =>
    have hsize : (entryFields index (List.replicate (n + 1) element)).size =
        element.size + (entryFields (index + 1) (List.replicate n element)).size := rfl
    rw [hsize, ih, Int.natCast_add, Int.natCast_one, offset_succ, Int.add_comm]

/-! ### Loops -/

/-- The elements of an array and the entries of a tuple are checked alike: all of them pass, or the
same one is the first to fail, and for the same reason. -/
theorem checkRun_copies (data : Bytes) (index n : Nat) :
    (checkRun element.check (.entry arrayName) element.size data index n = .ok () ∧
      (entryFields index (List.replicate n element)).check (Form.tuple.frame tupleName) index
        (index * element.size) data = .ok ()) ∨
    ∃ k fault, index ≤ k ∧ k < index + n ∧
      element.check (Bytes.slice data (k * element.size) ((k + 1) * element.size)) =
        .error fault ∧
      checkRun element.check (.entry arrayName) element.size data index n =
        .error (fault.within (.entry arrayName k)) ∧
      (entryFields index (List.replicate n element)).check (Form.tuple.frame tupleName) index
        (index * element.size) data = .error (fault.within (.entry tupleName k)) := by
  induction n generalizing index with
  | zero => exact .inl ⟨rfl, rfl⟩
  | succ n ih =>
    rw [List.replicate_succ, entryFields, Fields.check, checkRun, offset_succ, offset_next]
    cases hfirst : element.check (Bytes.slice data (index * element.size)
        ((index + 1 : Nat) * element.size)) with
    | error fault =>
      refine .inr ⟨index, fault, Nat.le_refl _, by omega, ?_, rfl, rfl⟩
      exact_mod_cast hfirst
    | ok u =>
      rcases ih (index + 1) with ⟨harray, htuple⟩ | ⟨k, fault, hlo, hhi, hk, harray, htuple⟩
      · exact .inl ⟨harray, htuple⟩
      · exact .inr ⟨k, fault, by omega, by omega, hk, harray, htuple⟩

/-- The elements of an array and the entries of a tuple are decoded to the same values. -/
theorem decodeRun_copies (data : Bytes) (index n : Nat) :
    ((entryFields index (List.replicate n element)).decode (index * element.size) data).map
        (List.map (·.2)) = decodeRun element.decode element.size data index n := by
  induction n generalizing index with
  | zero => rfl
  | succ n ih =>
    rw [List.replicate_succ, entryFields, Fields.decode, decodeRun, offset_succ, offset_next, ← ih]
    cases element.decode (Bytes.slice data (index * element.size)
        ((index + 1 : Nat) * element.size)) with
    | error fault => rfl
    | ok v =>
      cases (entryFields (index + 1) (List.replicate n element)).decode
        ((index + 1 : Nat) * element.size) data <;> rfl

/-- Items are written alike as the elements of an array and as the entries of a tuple. Whatever has
been written when one of them fails is the same. -/
theorem encodeRun_copies {n : Nat} (items : List Value) (index : Nat) (h : index + items.length ≤ n)
    (region : Bytes) : ∃ r r' after,
      encodeRun element.encode arrayName element.size index items region = (r, after) ∧
      (entryFields index (List.replicate items.length element)).encode tupleName
        (index * element.size) items region = (r', after) ∧
      EndsAlike arrayName tupleName n r r' := by
  induction items generalizing index region with
  | nil => exact ⟨_, _, region, rfl, rfl, .ok⟩
  | cons v rest ih =>
    rw [List.length_cons] at h
    rw [List.length_cons, List.replicate_succ, entryFields, Fields.encode, encodeRun, offset_succ,
      offset_next]
    cases hfirst : element.encode v (Bytes.slice region (index * element.size)
        ((index + 1 : Nat) * element.size)) with
    | mk first piece =>
      cases first with
      | ok u =>
        rw [Writer.andThen_of_ok (Writer.wrap_within hfirst),
          Writer.andThen_of_ok (Writer.wrap_within hfirst)]
        exact ih (index + 1) (by omega) _
      | error fault =>
        rw [Writer.andThen_of_error (Writer.wrap_within hfirst),
          Writer.andThen_of_error (Writer.wrap_within hfirst)]
        refine ⟨_, _, _, rfl, rfl, ?_⟩
        cases fault with
        | rejected e => exact .entry index e (by omega)
        | sequence fault => exact .other (.sequence fault) fun _ h => by cases h
        | misfit => exact .other .misfit fun _ h => by cases h

/-! ### Slots -/

theorem getElem?_copies (index n k : Nat) (hk : k < n) :
    ((entryFields index (List.replicate n element)).place index (index * element.size))[k]? =
      some (Layout.elementSlot element ((index + k : Nat) : Int)) := by
  induction n generalizing index k with
  | zero => omega
  | succ n ih =>
    rw [List.replicate_succ, entryFields, Fields.place, offset_next]
    cases k with
    | zero =>
      rw [List.getElem?_cons_zero, Layout.elementSlot, Nat.add_zero, offset_next]
      rfl
    | succ k =>
      rw [List.getElem?_cons_succ, ih (index + 1) k (by omega)]
      congr 2
      omega

end Copies

/-! ### Whole layouts -/

/-- An array and a tuple are the same, entry by entry, for `n` entries of a layout. -/
structure Interchangeable (element : Layout) (n : Nat) (array tuple : Layout) : Prop where
  size : array.size = tuple.size
  check : ∀ data : Bytes, (array.check data = .ok () ∧ tuple.check data = .ok ()) ∨
    ∃ k fault, k < n ∧
      element.check (Bytes.slice data (k * element.size) ((k + 1) * element.size)) =
        .error fault ∧
      array.check data = .error (fault.within (.entry array.typeName k)) ∧
      tuple.check data = .error (fault.within (.entry tuple.typeName k))
  decode : ∀ data : Bytes, ∃ r : Except DecodeFault (List Value),
    array.decode data = r.map .list ∧ tuple.decode data = r.map .tuple
  encode : ∀ (items : List Value) (v : Value), v = .list items ∨ v = .tuple items →
    ∀ region : Bytes, ∃ r r' after, array.encode v region = (r, after) ∧
      tuple.encode v region = (r', after) ∧ EndsAlike array.typeName tuple.typeName n r r'
  inside : ∀ i : Int, -n ≤ i → i < n →
    array.entry i = .ok (Layout.elementSlot element (if i < 0 then i + n else i)) ∧
      tuple.entry i = .ok (Layout.elementSlot element (if i < 0 then i + n else i))
  outside : ∀ i : Int, ¬ (-n ≤ i ∧ i < n) → ∃ fault fault', array.entry i = .error fault ∧
    tuple.entry i = .error fault' ∧ fault.toFault.IsIndexFault ∧ fault'.toFault.IsIndexFault

section Interchange

variable (element : Layout) (n : Nat)

theorem count_copies : (entryFields 0 (List.replicate n element)).count = n := by
  rw [← Fields.length_names, names_entryFields, List.length_map, List.length_range',
    List.length_replicate]

theorem entryCount?_copies : (element.copies n).entryCount? = some (n : Int) := by
  show some ((entryFields 0 (List.replicate n element)).count : Int) = _
  rw [count_copies]

/-- Any list or tuple of items is written alike, whether there are as many as needed or not. -/
theorem encode_copies {items : List Value} {v : Value} (hv : v = .list items ∨ v = .tuple items)
    (region : Bytes) : ∃ r r' after, (Layout.array element n).encode v region = (r, after) ∧
      (element.copies n).encode v region = (r', after) ∧
        EndsAlike (Layout.array element n).typeName (element.copies n).typeName n r r' := by
  have harray : ∀ typeName, arrayElements typeName n v =
      if (items.length : Int) ≠ n then
        .error (.rejected (.elementCount typeName n items.length))
      else .ok items := by
    rcases hv with rfl | rfl <;> exact fun _ => rfl
  have htuple : ∀ typeName names, Form.tuple.split typeName names v =
      if items.length = names.length then .ok items
      else .error (.entryCount typeName names.length items.length) := by
    rcases hv with rfl | rfl <;> exact fun _ _ => rfl
  unfold Layout.copies Layout.encode
  simp only [harray, htuple, Fields.length_names, count_copies]
  by_cases hlen : items.length = n
  · subst hlen
    have hrun := encodeRun_copies element (Layout.array element items.length).typeName
      (element.copies items.length).typeName items 0 (Nat.le_of_eq (Nat.zero_add _)) region
    rw [Int.natCast_zero, Int.zero_mul] at hrun
    simp only [ne_eq, not_true_eq_false, if_false, if_true, Int.toNat_natCast, List.take_length]
    exact hrun
  · rw [if_pos (by exact_mod_cast hlen), if_neg hlen]
    exact ⟨_, _, region, rfl, rfl, .count items.length hlen⟩

theorem entry_copies {i : Int} (h0 : -n ≤ i) (h1 : i < n) :
    (element.copies n).entry i =
      .ok (Layout.elementSlot element (if i < 0 then i + n else i)) := by
  have hindex : ((entryIndex n i : Nat) : Int) = if i < 0 then i + n else i := by
    unfold entryIndex
    split <;> omega
  have hk := entryIndex_lt h0 h1
  have hslot := getElem?_copies element 0 n (entryIndex n i) (by omega)
  rw [Int.natCast_zero, Int.zero_mul, Nat.zero_add] at hslot
  rw [Layout.entry_eq (entryCount?_copies element n) h0, ← hindex]
  exact Layout.entry_composite rfl hslot

theorem interchangeable :
    Interchangeable element n (.array element n) (element.copies n) := by
  have hindex : ∀ {l : Layout} {i : Int}, l.entryCount? = some (n : Int) → ¬ (-n ≤ i ∧ i < n) →
      ∃ fault, l.entry i = .error fault ∧ fault.toFault.IsIndexFault := by
    intro l i hn hi
    rcases Layout.entry_of_outside hn hi with hentry | ⟨typeName, index, hentry⟩
    · exact ⟨_, hentry, trivial⟩
    · exact ⟨_, hentry, trivial⟩
  refine ⟨?_, fun data => ?_, fun data => ?_, fun items v hv region => ?_, fun i h0 h1 => ?_,
    fun i hi => ?_⟩
  · show element.size * n = (entryFields 0 (List.replicate n element)).size
    rw [size_entryFields_replicate, Int.mul_comm]
  · have hrun := checkRun_copies element (Layout.array element n).typeName
      (element.copies n).typeName data 0 n
    rw [Int.natCast_zero, Int.zero_mul] at hrun
    rcases hrun with hok | ⟨k, fault, -, hk, hfault, harray, htuple⟩
    · exact .inl hok
    · exact .inr ⟨k, fault, by omega, hfault, harray, htuple⟩
  · have hrun := decodeRun_copies element data 0 n
    rw [Int.natCast_zero, Int.zero_mul] at hrun
    refine ⟨decodeRun element.decode element.size data 0 n, rfl, ?_⟩
    rw [← hrun]
    unfold Layout.copies Layout.decode
    cases (entryFields 0 (List.replicate n element)).decode 0 data <;> rfl
  · exact encode_copies element n hv region
  · refine ⟨?_, entry_copies element n h0 h1⟩
    unfold Layout.entry
    simp only
    rw [if_pos]
    split <;> omega
  · obtain ⟨fault, harray, hfault⟩ := hindex (l := .array element n) rfl hi
    obtain ⟨fault', htuple, hfault'⟩ := hindex (entryCount?_copies element n) hi
    exact ⟨fault, fault', harray, htuple, hfault, hfault'⟩

end Interchange

/-! ### Types -/

namespace Catalog

variable {c : Catalog} {constraints : List Constraint}

/-- Constraints in layers are those that are attached to the type inside. -/
theorem hasLayout_strip_iff {t base : TypeExpr} {outer : List Constraint} {l : Layout}
    (h : t.strip outer = (base, constraints)) :
    c.HasLayout t outer l ↔ c.HasLayout base constraints l := by
  induction t, outer using TypeExpr.strip.induct with
  | case1 inner added outer ih => exact hasLayout_annotated_iff.trans (ih h)
  | case2 t outer hplain =>
    cases t with
    | annotated inner added => exact absurd rfl (hplain inner added)
    | _ =>
      cases h
      exact Iff.rfl

/-- The tuple of copies of a type has the copies of its layout. -/
theorem layoutOf_replicate {t : TypeExpr} {element : Layout} (h : c.HasLayout t [] element)
    {k : Nat} (hk : 0 < k) :
    c.layoutOf (.tuple (List.replicate k t) false) = .ok (element.copies k) := by
  refine layoutOf_eq_ok_iff.2 ((hasLayout_tuple_iff rfl).2 ⟨⟨?_, rfl⟩, _, ?_, rfl⟩)
  · simp only [ne_eq, List.replicate_eq_nil_iff]
    omega
  · rw [forall₂_replicate_iff]
    refine ⟨List.length_replicate, fun l hl => ?_⟩
    rwa [List.eq_of_mem_replicate hl]

/-- A list type of a fixed length, in whatever layers of constraints, has the layout of an array.
The tuple of as many entries of the same type does the same, entry by entry; and it has a layout as
well, unless it would have no entries. -/
theorem array_is_tuple {a t : TypeExpr} {array : Layout}
    (ha : a.strip [] = (.list t, constraints)) (h : c.layoutOf a = .ok array) :
    ∃ element n, c.layoutOf t = .ok element ∧ FixesLength constraints n ∧
      array = .array element n ∧
      ∀ k : Nat, n = k → Interchangeable element k array (element.copies k) ∧
        (0 < k → c.layoutOf (.tuple (List.replicate k t) false) = .ok (element.copies k)) := by
  have hlist := (hasLayout_strip_iff ha).1 (layoutOf_eq_ok_iff.1 h)
  have hrepr : reprOf? constraints = none := by
    cases hr : reprOf? constraints with
    | none => rfl
    | some r =>
      -- with a representation, it would have to be an integer
      have hplain : ∀ base inner, TypeExpr.list t ≠ .annotated base inner := nofun
      cases ((hasLayout_iff_of_repr hr hplain).1 hlist).1
  obtain ⟨element, helement, n, hn, rfl⟩ := (hasLayout_list_iff hrepr).1 hlist
  refine ⟨element, n, layoutOf_eq_ok_iff.2 helement, fixedLength_eq_ok_iff.1 hn, rfl, ?_⟩
  rintro k rfl
  exact ⟨interchangeable element k, layoutOf_replicate helement⟩

/-- Two numbers are the same as a list and as a tuple. -/
theorem two_numbers_are_interchangeable :
    layoutOf [] (.tuple [.fixedInt .u16, .fixedInt .u16] false) =
      .ok ((Layout.int .u16).copies 2) ∧
    Interchangeable (.int .u16) 2 (.array (.int .u16) 2) ((Layout.int .u16).copies 2) := by
  have hlayout : layoutOf [] (.fixedList (.fixedInt .u16) 2) = .ok (.array (.int .u16) 2) := by cbv
  obtain ⟨element, n, -, -, harray, hsame⟩ := array_is_tuple rfl hlayout
  cases harray
  obtain ⟨hinterchange, htuple⟩ := hsame 2 rfl
  exact ⟨htuple (by decide), hinterchange⟩

end Catalog

end FixedLayout
