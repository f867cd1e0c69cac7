import FixedLayout.Proofs.Views

/-!
# Sizes that are not negative

A declaration may give a negative length. A layout has no negative size inside, and its slots lie
inside their composites, exactly if no byte string has a negative length and no array has one,
unless its elements have no bytes. What has passed the check of such a layout is decoded without
fail.

* `Layout.parts`: the slots of a composite or of an array;
* `Layout.Contains`: the layouts inside a layout;
* `Layout.Placed`: a size that is not negative, and slots inside the layout;
* `Layout.LengthsFit`: the condition on the declared lengths. `Layout.placed_iff`: it is the right
  one;
* `Layout.exists_value`: what passes a check is decoded;
* `Session.placed_iff_lengths_fit`: sizes, slots and views of all compiled types.
-/

namespace FixedLayout

/-! ### Layouts inside a layout -/

/-- The slots of a composite or of an array, in order; no other layout has any. -/
def Layout.parts : Layout → List Slot
  | .composite _ fields => fields.slots
  | .array element length => (List.range length.toNat).map fun (k : Nat) => elementSlot element k
  | _ => []

/-- A layout inside another one: the layout itself, or one inside a field or inside the element. -/
inductive Layout.Contains : Layout → Layout → Prop
  | self (l : Layout) : l.Contains l
  | field {form : Form} {fields : Fields} {slot : Slot} {sub : Layout} : slot ∈ fields.slots →
      slot.layout.Contains sub → (Layout.composite form fields).Contains sub
  | element {element sub : Layout} {length : Int} : element.Contains sub →
      (Layout.array element length).Contains sub

/-- What every field and every element has if the whole has it, all layouts inside have. -/
theorem Layout.Contains.inherits {P : Layout → Prop} {l sub : Layout} (h : l.Contains sub)
    (hfield : ∀ form fields, P (.composite form fields) → ∀ slot ∈ fields.slots, P slot.layout)
    (helement : ∀ element n, P (.array element n) → P element) (hl : P l) : P sub := by
  induction h with
  | self l => exact hl
  | field hslot _ ih => exact ih (hfield _ _ hl _ hslot)
  | element _ ih => exact ih (helement _ _ hl)

/-- A layout whose size is not negative and whose slots lie inside it. -/
structure Layout.Placed (l : Layout) : Prop where
  size : 0 ≤ l.size
  slots : ∀ slot ∈ l.parts, 0 ≤ slot.start ∧ slot.start ≤ slot.stop ∧ slot.stop ≤ l.size

mutual

/-- No length that a layout declares is negative, apart from those of arrays whose elements have no
bytes. -/
def Layout.LengthsFit : Layout → Prop
  | .bytes length => 0 ≤ length
  | .composite _ fields => fields.LengthsFit
  | .array element length => element.LengthsFit ∧ (0 ≤ length ∨ element.size = 0)
  | _ => True

/-- No length that the fields' layouts declare is negative, apart from those of arrays whose
elements have no bytes. -/
def Fields.LengthsFit : Fields → Prop
  | .nil => True
  | .cons _ _ layout rest => layout.LengthsFit ∧ rest.LengthsFit

end

mutual

theorem Layout.LengthsNonneg.lengthsFit : ∀ {l : Layout}, l.LengthsNonneg → l.LengthsFit
  | .int _, _ => trivial
  | .bytes _, h => h
  | .unit _ _, _ => trivial
  | .enumeration _, _ => trivial
  | .composite _ _, h => Fields.LengthsNonneg.lengthsFit h
  | .array _ _, ⟨he, hn⟩ => ⟨he.lengthsFit, .inl hn⟩

theorem Fields.LengthsNonneg.lengthsFit : ∀ {fs : Fields}, fs.LengthsNonneg → fs.LengthsFit
  | .nil, _ => trivial
  | .cons _ _ _ _, ⟨hl, hr⟩ => ⟨hl.lengthsFit, hr.lengthsFit⟩

end

/-- The lengths of fields fit exactly if those of each slot do. -/
theorem Fields.lengthsFit_iff : ∀ (fs : Fields) (index : Nat) (start : Int),
    fs.LengthsFit ↔ ∀ slot ∈ fs.place index start, slot.layout.LengthsFit
  | .nil, _, _ => ⟨fun _ _ h => absurd h List.not_mem_nil, fun _ => trivial⟩
  | .cons _ _ layout rest, index, start => by
    rw [Fields.place, List.forall_mem_cons, ← lengthsFit_iff rest (index + 1) (start + layout.size)]
    rfl

/-! ### Sizes -/

mutual

theorem Layout.LengthsFit.size_nonneg : ∀ {l : Layout}, l.LengthsFit → 0 ≤ l.size
  | .int _, _ => Int.natCast_nonneg _
  | .bytes _, h => h
  | .unit _ _, _ => Int.natCast_nonneg _
  | .enumeration _, _ => Int.natCast_nonneg _
  | .composite _ _, h => Fields.LengthsFit.size_nonneg h
  | .array element length, ⟨he, hn⟩ => by
    rcases hn with hn | hzero
    · exact Int.mul_nonneg he.size_nonneg hn
    · show 0 ≤ element.size * length
      rw [hzero, Int.zero_mul]

theorem Fields.LengthsFit.size_nonneg : ∀ {fs : Fields}, fs.LengthsFit → 0 ≤ fs.size
  | .nil, _ => le_refl 0
  | .cons _ _ _ _, ⟨hl, hr⟩ => Int.add_nonneg hl.size_nonneg hr.size_nonneg

end

/-- Slots lie between the offset of the first field and the end of the last one. -/
theorem Fields.LengthsFit.bounds_place : ∀ {fs : Fields}, fs.LengthsFit →
    ∀ (index : Nat) (start : Int), ∀ slot ∈ fs.place index start,
      start ≤ slot.start ∧ slot.start ≤ slot.stop ∧ slot.stop ≤ start + fs.size
  | .nil, _, _, _, _, hmem => absurd hmem List.not_mem_nil
  | .cons name accessor layout rest, ⟨hl, hr⟩, index, start, slot, hmem => by
    have hlayout := hl.size_nonneg
    have hrest := hr.size_nonneg
    have hsize : (Fields.cons name accessor layout rest).size = layout.size + rest.size := rfl
    rcases List.mem_cons.1 hmem with rfl | hmem
    · simp only [hsize]
      omega
    · have := hr.bounds_place (index + 1) (start + layout.size) slot hmem
      omega

/-- Where the lengths fit, the size is not negative and the slots lie inside. -/
theorem Layout.LengthsFit.placed {l : Layout} (h : l.LengthsFit) : l.Placed where
  size := h.size_nonneg
  slots := by
    intro slot hslot
    cases l with
    | composite form fields =>
      have := Fields.LengthsFit.bounds_place h 0 0 slot hslot
      rw [Int.zero_add] at this
      exact this
    | array element length =>
      obtain ⟨k, hk, rfl⟩ := List.mem_map.1 hslot
      have hsize := h.1.size_nonneg
      have hlt : (k : Int) + 1 ≤ length := by
        have := List.mem_range.1 hk
        omega
      have hstop : (k : Int) * element.size + element.size ≤ element.size * length := by
        rw [← offset_succ, Int.mul_comm element.size]
        exact Int.mul_le_mul_of_nonneg_right hlt hsize
      exact ⟨Int.mul_nonneg (Int.natCast_nonneg k) hsize, Int.le_add_of_nonneg_right hsize, hstop⟩
    | _ => exact absurd hslot List.not_mem_nil

/-- The lengths inside a layout fit if those of the whole do. -/
theorem Layout.LengthsFit.of_contains {l sub : Layout} (h : l.LengthsFit) (hsub : l.Contains sub) :
    sub.LengthsFit :=
  hsub.inherits (fun _ fields => (fields.lengthsFit_iff 0 0).1) (fun _ _ harray => harray.1) h

mutual

/-- Where no size inside is negative, the lengths fit. -/
theorem Layout.lengthsFit_of_size : ∀ l : Layout, (∀ sub, l.Contains sub → 0 ≤ sub.size) →
    l.LengthsFit
  | .int _, _ => trivial
  | .bytes n, h => h _ (.self _)
  | .unit _ _, _ => trivial
  | .enumeration _, _ => trivial
  | .composite _ fields, h =>
    fields.lengthsFit_of_size 0 0 fun _ hslot sub hsub => h sub (.field hslot hsub)
  | .array element n, h => by
    refine ⟨element.lengthsFit_of_size fun sub hsub => h sub (.element hsub), ?_⟩
    have helement := h element (.element (.self _))
    have hwhole : 0 ≤ element.size * n := h _ (.self _)
    -- a negative number of elements that have bytes would make the size of the array negative
    by_contra hneither
    push Not at hneither
    have hneg : element.size * n < 0 :=
      Int.mul_neg_of_pos_of_neg (lt_of_le_of_ne helement hneither.2.symm) hneither.1
    omega

theorem Fields.lengthsFit_of_size : ∀ (fs : Fields) (index : Nat) (start : Int),
    (∀ slot ∈ fs.place index start, ∀ sub, slot.layout.Contains sub → 0 ≤ sub.size) → fs.LengthsFit
  | .nil, _, _, _ => trivial
  | .cons _ _ layout rest, index, start, h => by
    rw [Fields.place, List.forall_mem_cons] at h
    exact ⟨layout.lengthsFit_of_size h.1, rest.lengthsFit_of_size _ _ h.2⟩

end

/-- Every layout inside has a size that is not negative, and slots inside itself, exactly if the
lengths fit. -/
theorem Layout.placed_iff (l : Layout) : (∀ sub, l.Contains sub → sub.Placed) ↔ l.LengthsFit :=
  ⟨fun h => l.lengthsFit_of_size fun sub hsub => (h sub hsub).size,
    fun h _ hsub => (h.of_contains hsub).placed⟩

/-! ### Decoding -/

/-- Elements that pass their checks are decoded. -/
theorem exists_items {check : Bytes → Except CheckFault Unit}
    {decode : Bytes → Except DecodeFault Value} {size : Int} (hsize : 0 ≤ size)
    (h : ∀ data : Bytes, (data.length : Int) = size → check data = .ok () →
      ∃ v, decode data = .ok v)
    {frame : Int → Frame} {data : Bytes} (index n : Nat)
    (hroom : ((index + n : Nat) : Int) * size ≤ data.length)
    (hcheck : checkRun check frame size data index n = .ok ()) :
    ∃ vs, decodeRun decode size data index n = .ok vs := by
  induction n generalizing index with
  | zero => exact ⟨[], rfl⟩
  | succ n ih =>
    obtain ⟨-, -, -, hlen⟩ := element_bounds hsize hroom
    obtain ⟨u, hfirst, hothers⟩ := bind_eq_ok hcheck
    obtain ⟨v, hv⟩ := h _ hlen (inFrame_eq_ok hfirst)
    obtain ⟨vs, hvs⟩ := ih (index + 1) (by rwa [Nat.add_right_comm, Nat.add_assoc]) hothers
    refine ⟨v :: vs, ?_⟩
    unfold decodeRun
    rw [hv, hvs]
    rfl

mutual

/-- Bytes that pass the check of a layout whose lengths fit are decoded. -/
theorem Layout.exists_value : ∀ l : Layout, l.LengthsFit →
    ∀ data : Bytes, (data.length : Int) = l.size → l.check data = .ok () →
      ∃ v, l.decode data = .ok v
  | .int r, _, _, hlen, hcheck => by
    obtain ⟨v, hv, -⟩ := Layout.exists_decode_of_isLeaf (l := .int r) trivial hlen hcheck
    exact ⟨v, hv⟩
  | .bytes n, _, _, hlen, hcheck => by
    obtain ⟨v, hv, -⟩ := Layout.exists_decode_of_isLeaf (l := .bytes n) trivial hlen hcheck
    exact ⟨v, hv⟩
  | .unit cls literal, _, _, hlen, hcheck => by
    obtain ⟨v, hv, -⟩ := Layout.exists_decode_of_isLeaf (l := .unit cls literal) trivial hlen hcheck
    exact ⟨v, hv⟩
  | .enumeration e, _, _, hlen, hcheck => by
    obtain ⟨v, hv, -⟩ := Layout.exists_decode_of_isLeaf (l := .enumeration e) trivial hlen hcheck
    exact ⟨v, hv⟩
  | .composite form fields, h, data, hlen, hcheck => by
    have hroom : 0 + fields.size ≤ data.length := by
      rw [Int.zero_add, hlen]
      exact le_refl fields.size
    obtain ⟨values, hvalues⟩ := fields.exists_values h 0 0 data (le_refl 0) hroom hcheck
    refine ⟨form.build values, ?_⟩
    unfold Layout.decode
    rw [hvalues]
    rfl
  | .array element n, ⟨he, hn⟩, data, hlen, hcheck => by
    -- elements without bytes find room, whatever number of them is declared
    have hroom : ((0 + n.toNat : Nat) : Int) * element.size ≤ data.length := by
      have hwhole : (data.length : Int) = element.size * n := hlen
      rcases hn with hn | hzero
      · rw [Nat.zero_add, Int.toNat_of_nonneg hn, hwhole, Int.mul_comm]
      · rw [hzero, Int.mul_zero]
        exact Int.natCast_nonneg _
    obtain ⟨items, hitems⟩ :=
      exists_items he.size_nonneg (element.exists_value he) 0 n.toNat hroom hcheck
    refine ⟨.list items, ?_⟩
    unfold Layout.decode
    rw [hitems]
    rfl

/-- Bytes that pass the checks of fields whose lengths fit are decoded. -/
theorem Fields.exists_values : ∀ fs : Fields, fs.LengthsFit →
    ∀ {frame : String → Nat → Frame} (index : Nat) (start : Int) (data : Bytes), 0 ≤ start →
      start + fs.size ≤ data.length → fs.check frame index start data = .ok () →
        ∃ values, fs.decode start data = .ok values
  | .nil, _, _, _, _, _, _, _, _ => ⟨[], rfl⟩
  | .cons name accessor layout rest, ⟨hl, hr⟩, frame, index, start, data, h0, hroom, hcheck => by
    have hlayout := hl.size_nonneg
    have hrest := hr.size_nonneg
    have hsize : (Fields.cons name accessor layout rest).size = layout.size + rest.size := rfl
    rw [hsize] at hroom
    have hlen := Bytes.length_slice_of_le h0 (Int.le_add_of_nonneg_right hlayout)
      (show start + layout.size ≤ data.length by omega)
    obtain ⟨u, hfirst, hothers⟩ := bind_eq_ok hcheck
    obtain ⟨v, hv⟩ := layout.exists_value hl _ (by rw [hlen]; omega) (inFrame_eq_ok hfirst)
    obtain ⟨values, hvalues⟩ := rest.exists_values hr (index + 1) (start + layout.size) data
      (by omega) (by omega) hothers
    refine ⟨(name, v) :: values, ?_⟩
    unfold Fields.decode
    rw [hv, hvalues]
    rfl

end

/-! ### Views -/

namespace Session

variable {w after : Workspace} {t : TypeExpr} {l : Layout} {o root : Object}

/-- A view is made only of an object that lends bytes. -/
theorem exists_lends_of_view (h : view t o w = (.ok root, after)) :
    ∃ data, o.lends? w.store = some data := by
  obtain ⟨found, between, haccepted, -⟩ := exists_of_bind h
  obtain ⟨layout, compiled, hcompile, hrest⟩ := exists_of_bind haccepted
  obtain ⟨window, lent, hwindow, -⟩ := exists_of_bind hrest
  cases o with
  | buffer id => exact ⟨_, rfl⟩
  | memory window format rows => exact ⟨_, rfl⟩
  | plain v =>
    cases v with
    | bytes content => exact ⟨content, rfl⟩
    | _ => cases hwindow
  | _ => cases hwindow

/-- Every layout inside a compiled one has a size that is not negative, and slots inside itself,
exactly if no declared length is negative apart from those of arrays whose elements have no bytes.
If so, a view that is made with a check is unpacked without fail, now and as long as it has not been
released and the bytes are what they were. -/
theorem placed_iff_lengths_fit (hlayout : (w.catalog.compile t w.cache).1 = .ok l) :
    ((∀ sub, l.Contains sub → sub.Placed) ↔ l.LengthsFit) ∧ (l.LengthsNonneg → l.LengthsFit) ∧
      (l.LengthsFit → ∀ o root after, view t o w = (.ok root, after) →
        ∃ buffer offset data v, IsView after root l buffer offset data ∧
          ∀ now, IsView now root l buffer offset data → Returns (unpack root) now v) := by
  refine ⟨l.placed_iff, fun h => h.lengthsFit, fun h o root after hview => ?_⟩
  obtain ⟨data, ho⟩ := exists_lends_of_view hview
  obtain ⟨hcheck, buffer, offset, hroot⟩ := isView_of_view hlayout ho hview
  obtain ⟨v, hv⟩ := l.exists_value h data hroot.length hcheck
  exact ⟨buffer, offset, data, v, hroot, fun now hnow => hnow.returns_unpack hv⟩

/-- A list of a negative number of empty byte strings, and a number. -/
def emptyItemsType : TypeExpr := .tuple [.fixedList (.fixedBytes 0) (-2), .fixedInt .u8] false

/-- The layout of a negative number of empty byte strings and a number. -/
def emptyItemsLayout : Layout :=
  .composite .tuple (.cons "0" none (.array (.bytes 0) (-2)) (.cons "1" none (.int .u8) .nil))

/-- A negative number of elements without bytes does no harm. -/
theorem empty_items_are_unpacked :
    (Workspace.empty.catalog.compile emptyItemsType []).1 = .ok emptyItemsLayout ∧
      emptyItemsLayout.LengthsFit ∧ ∃ root after v,
        view emptyItemsType (.plain (.bytes [7])) .empty = (.ok root, after) ∧
          Returns (unpack root) after v := by
  have hlayout : (Workspace.empty.catalog.compile emptyItemsType []).1 = .ok emptyItemsLayout := by
    cbv
  have hfit : emptyItemsLayout.LengthsFit := ⟨⟨le_refl 0, .inr rfl⟩, trivial, trivial⟩
  have haccept : emptyItemsLayout.accept [7] = .ok () := by cbv
  have ho : (Object.plain (.bytes [7])).lends? Workspace.empty.store = some [7] := rfl
  obtain ⟨root, after, hview, -⟩ := exists_view (w := .empty) hlayout ho haccept
  obtain ⟨buffer, offset, data, v, hroot, hnow⟩ :=
    (placed_iff_lengths_fit (w := .empty) hlayout).2.2 hfit _ root after hview
  exact ⟨hlayout, hfit, root, after, v, hview, hnow after hroot⟩

/-- A byte string of a negative length, and a number. -/
def negativeType : TypeExpr := .tuple [.fixedBytes (-1), .fixedInt .u8] false

/-- The layout of a byte string of a negative length and a number. -/
def negativeLayout : Layout :=
  .composite .tuple (.cons "0" none (.bytes (-1)) (.cons "1" none (.int .u8) .nil))

/-- A byte string of length minus one has a layout of that size. Together with a number it makes a
tuple without bytes, and a view of no bytes passes the check but is not unpacked. -/
theorem negative_length_is_not_unpacked :
    ((Workspace.empty.catalog.compile (.fixedBytes (-1)) []).1 = .ok (.bytes (-1)) ∧
      (Layout.bytes (-1)).size < 0) ∧
    (Workspace.empty.catalog.compile negativeType []).1 = .ok negativeLayout ∧
      ∃ root after, view negativeType (.plain (.bytes [])) .empty = (.ok root, after) ∧
        unpack root after = (.error .noEntry, after) := by
  have hlayout : (Workspace.empty.catalog.compile negativeType []).1 = .ok negativeLayout := by cbv
  have haccept : negativeLayout.accept [] = .ok () := by cbv
  have hdecode : negativeLayout.decode [] = .error .noByte := by cbv
  have ho : (Object.plain (.bytes [])).lends? Workspace.empty.store = some [] := rfl
  obtain ⟨root, after, hview, buffer, offset, hroot⟩ :=
    exists_view (w := .empty) hlayout ho haccept
  obtain ⟨id, count, rfl, hcell, hread⟩ := hroot.cell
  refine ⟨⟨by cbv, by decide⟩, hlayout, .view id, after, hview, ?_⟩
  rw [unpack_view hcell rfl, hread, unpackBytes_of_error hdecode]
  rfl

end Session

end FixedLayout
