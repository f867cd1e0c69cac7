import FixedLayout.Proofs.Handles
import FixedLayout.Proofs.Options
import FixedLayout.Proofs.Standard

/-!
# Attributes

A name after a dot reaches the field of an accessor, unless an operation of views has the same name.
Options keep the names of accessors from being hidden, but not from being those of operations.

* `IsAttribute`: a name is left to fields;
* `Layout.accessor?_of_mem_slots`: an accessor reaches the slot that has it;
* `FieldDecl.accessor_cases`: no accessor that is set is hidden;
* `Session.dotted`: the view of a field, as what a name after a dot stands for;
* `Session.select_of_operation`, `Session.select_of_hidden`, `Session.select_of_isAttribute`: what
  names stand for;
* `Session.attributes_are_fields`: names after a dot and accessors.
-/

namespace FixedLayout

/-- A name is left to fields: no operation of views has it, and it is not hidden. -/
def IsAttribute (name : String) : Prop :=
  name ∉ viewOperations ∧ name.startsWith "_" = false

/-! ### Accessors -/

/-- Where no accessor occurs again, the first slot with an accessor is the only one. -/
theorem find_accessor_of_nodup {slots : List Slot} {slot : Slot} {a : String}
    (hnodup : (slots.filterMap (·.accessor)).Nodup) (hslot : slot ∈ slots)
    (ha : slot.accessor = some a) : slots.find? (·.accessor == some a) = some slot := by
  induction slots with
  | nil => cases hslot
  | cons first rest ih =>
    have hrest : slot ∈ rest → a ∈ rest.filterMap (·.accessor) := fun hmem =>
      List.mem_filterMap.2 ⟨slot, hmem, ha⟩
    rw [List.find?_cons]
    cases hfirst : first.accessor with
    | none =>
      rw [List.filterMap_cons_none hfirst] at hnodup
      rcases List.mem_cons.1 hslot with rfl | hmem
      · rw [hfirst] at ha
        cases ha
      · exact ih hnodup hmem
    | some b =>
      rw [List.filterMap_cons_some hfirst, List.nodup_cons] at hnodup
      rcases List.mem_cons.1 hslot with rfl | hmem
      · rw [hfirst] at ha
        cases ha
        simp
      · -- the first slot has another accessor, or this one would occur twice
        have hne : b ≠ a := by
          rintro rfl
          exact hnodup.1 (hrest hmem)
        have hother : (some b == some a) = false := by simpa using hne
        rw [hother]
        exact ih hnodup.2 hmem

/-- An accessor reaches the slot that has it. -/
theorem Layout.accessor?_of_mem_slots {l : Layout} (hnodup : l.accessors.Nodup) {slot : Slot}
    (hslot : slot ∈ l.slots) {a : String} (ha : slot.accessor = some a) :
    l.accessor? a = some slot :=
  find_accessor_of_nodup hnodup hslot ha

/-- The slots have the accessors of the fields. -/
theorem Fields.filterMap_accessor_place (fs : List (String × Option String × Layout)) (index : Nat)
    (start : Int) :
    ((Fields.ofList fs).place index start).filterMap (·.accessor) = fs.filterMap (·.2.1) := by
  induction fs generalizing index start with
  | nil => rfl
  | cons f fs ih =>
    obtain ⟨name, accessor, layout⟩ := f
    simp only [Fields.ofList, Fields.place, List.filterMap_cons, ih]

/-- The accessor of a field is its name, or one that is set and not hidden. -/
theorem FieldDecl.accessor_cases {f : FieldDecl} {a : String} (h : f.accessorName? = some a) :
    a = f.name ∨ a.startsWith "_" = false := by
  unfold accessorName? at h
  split at h
  · next options hoptions =>
    have hreads := (Options.ofValues?_eq_ok_iff.1 hoptions).2.2.1
    generalize f.accessor = given at hreads
    unfold Options.accessorName at h
    split at h
    · cases h
    · next custom hcustom =>
      rw [hcustom] at hreads
      cases h
      cases hreads with
      | name _ hshown => exact .inr hshown
      | zero hzero => cases hzero
    · cases h
      exact .inl rfl
  · cases h

namespace Catalog

variable {c : Catalog} {name : String} {m : ModelDef} {l : Layout}

/-- The slots of fields have their names and accessors, in the same order. -/
theorem named_slots {fs : List FieldDecl} {fields : List (String × Option String × Layout)}
    (h : List.Forall₂ c.HasField fs fields) (index : Nat) (start : Int) :
    List.Forall₂ (fun (f : FieldDecl) (slot : Slot) =>
      slot.name = f.name ∧ slot.accessor = f.accessorName?) fs
        ((Fields.ofList fields).place index start) := by
  induction h generalizing index start with
  | nil => exact .nil
  | cons hfield _ ih =>
    obtain ⟨l, -, options, hoptions, rfl⟩ := hfield
    exact .cons ⟨rfl, (accessorName?_of_options hoptions).symm⟩ (ih _ _)

/-- The accessors of a class are those of its fields, and each of them reaches the slot of its
field. -/
theorem accessors_of_layoutOf (hd : c.find? name = some (.model m)) (hkind : m.kind ≠ .unit)
    (hl : c.layoutOf (.named name) = .ok l) :
    l.accessors = m.fields.filterMap FieldDecl.accessorName? ∧
      ∀ f ∈ m.fields, ∀ a, f.accessorName? = some a →
        ∃ slot, l.accessor? a = some slot ∧ slot.name = f.name := by
  obtain ⟨-, fields, hfields, hnodup, rfl⟩ :=
    (hasLayout_model_iff hd hkind).1 (layoutOf_eq_ok_iff.1 hl)
  have haccessors : (Layout.composite (.model m.cls) (.ofList fields)).accessors =
      fields.filterMap (·.2.1) := Fields.filterMap_accessor_place fields 0 0
  refine ⟨haccessors.trans (accessors_of_hasField hfields), fun f hf a ha => ?_⟩
  obtain ⟨k, hk⟩ := List.mem_iff_getElem?.1 hf
  obtain ⟨slot, hslot, hname, haccessor⟩ :=
    exists_getElem?_of_forall₂ (named_slots hfields 0 0) hk
  refine ⟨slot, ?_, hname⟩
  exact Layout.accessor?_of_mem_slots (haccessors ▸ hnodup) (List.mem_of_getElem? hslot)
    (haccessor.trans ha)

end Catalog

/-! ### Names after a dot -/

namespace Session

variable {w : Workspace} {id : Nat} {cell : ViewCell} {a : String}

/-- The view of a field, as what a name after a dot stands for. -/
def dotted (o : Object) (a : String) : Session Selected := do return .part (← field o a)

theorem select_of_operation (h : a ∈ viewOperations) (id : Nat) (w : Workspace) :
    select (.view id) a w = (.ok .operation, w) := by
  have hcontains : viewOperations.contains a = true := List.contains_iff_mem.2 h
  unfold select
  simp only [hcontains, if_true]
  rfl

theorem select_of_hidden (h : a ∉ viewOperations) (hidden : a.startsWith "_" = true) (id : Nat)
    (w : Workspace) : select (.view id) a w = (.error (.hiddenName a), w) := by
  have hcontains : ¬ viewOperations.contains a = true := fun hmem =>
    h (List.contains_iff_mem.1 hmem)
  unfold select
  simp only [hcontains, hidden, if_true]
  rfl

theorem select_of_isAttribute (h : IsAttribute a) (id : Nat) :
    select (.view id) a = dotted (.view id) a := by
  have hcontains : ¬ viewOperations.contains a = true := fun hmem =>
    h.1 (List.contains_iff_mem.1 hmem)
  unfold select
  simp only [hcontains, h.2]
  rfl

/-- The view of a field is not an operation. -/
theorem dotted_ne_operation (o : Object) (a : String) (w after : Workspace) :
    dotted o a w ≠ (.ok .operation, after) := by
  intro h
  obtain ⟨part, between, -, hpart⟩ := exists_of_bind h
  cases hpart

/-- A field is there, whether it can be reached after a dot or not. -/
theorem dotted_of_live (hcell : w.store.views[id]? = some cell) (hlive : cell.released = false)
    {slot : Slot} (hslot : cell.layout.accessor? a = some slot) :
    dotted (.view id) a w = (.ok (.part (.view w.store.views.length)),
      w.addView ⟨slot.layout, cell.window.slice slot.start slot.stop, false⟩) :=
  bind_of_ok ((field_eq hcell hslot).trans (child_of_live hlive slot w))

theorem dotted_of_released (hcell : w.store.views[id]? = some cell)
    (hreleased : cell.released = true) {slot : Slot} (hslot : cell.layout.accessor? a = some slot) :
    dotted (.view id) a w = (.error (.released cell.layout.typeName), w) :=
  bind_of_error ((field_eq hcell hslot).trans (child_of_released hreleased slot w))

/-- An accessor is reached after a dot exactly if no operation has the name, and it is not
hidden. -/
theorem select_eq_dotted_iff (hcell : w.store.views[id]? = some cell)
    (ha : a ∈ cell.layout.accessors) :
    select (.view id) a w = dotted (.view id) a w ↔ IsAttribute a := by
  constructor
  · intro h
    by_contra hnot
    by_cases hop : a ∈ viewOperations
    · rw [select_of_operation hop] at h
      exact dotted_ne_operation _ _ _ _ h.symm
    · have hidden : a.startsWith "_" = true := by
        by_contra hshown
        exact hnot ⟨hop, Bool.eq_false_iff.2 hshown⟩
      rw [select_of_hidden hop hidden] at h
      obtain ⟨slot, hslot⟩ := Layout.exists_accessor ha
      cases hreleased : cell.released with
      | true =>
        rw [dotted_of_released hcell hreleased hslot] at h
        cases h
      | false =>
        rw [dotted_of_live hcell hreleased hslot] at h
        cases h
  · intro h
    rw [select_of_isAttribute h]

/-- Each accessor of a view gives the view of its field after a dot exactly if no operation has the
same name, and it is not hidden; a name of an operation stands for the operation. The accessors of a
class are those of its fields that are not suppressed, and none of them is hidden as long as the
names of the fields are not. So each of these fields can be reached by its accessor, and is reached
by it after a dot as well, in the part of the bytes where it has its slot, unless an operation has
the same name. -/
theorem attributes_are_fields (hcell : w.store.views[id]? = some cell) :
    (∀ a ∈ cell.layout.accessors,
      (select (.view id) a w = dotted (.view id) a w ↔ IsAttribute a) ∧
      (a ∈ viewOperations → select (.view id) a w = (.ok .operation, w))) ∧
    ∀ (c : Catalog) (name : String) (m : ModelDef), c.find? name = some (.model m) →
      m.kind ≠ .unit → c.layoutOf (.named name) = .ok cell.layout →
        cell.layout.accessors = m.fields.filterMap FieldDecl.accessorName? ∧
        ∀ f ∈ m.fields, ∀ a, f.accessorName? = some a → f.name.startsWith "_" = false →
          ∃ slot, cell.layout.accessor? a = some slot ∧ slot.name = f.name ∧
            (a ∉ viewOperations → select (.view id) a w = dotted (.view id) a w ∧
              (cell.released = false → select (.view id) a w =
                (.ok (.part (.view w.store.views.length)),
                  w.addView ⟨slot.layout, cell.window.slice slot.start slot.stop, false⟩))) := by
  refine ⟨fun a ha => ⟨select_eq_dotted_iff hcell ha, fun h => select_of_operation h id w⟩, ?_⟩
  intro c name m hd hkind hl
  obtain ⟨haccessors, hreached⟩ := Catalog.accessors_of_layoutOf hd hkind hl
  refine ⟨haccessors, fun f hf a ha hshown => ?_⟩
  obtain ⟨slot, hslot, hname⟩ := hreached f hf a ha
  refine ⟨slot, hslot, hname, fun hfree => ?_⟩
  have hattribute : IsAttribute a := by
    rcases FieldDecl.accessor_cases ha with rfl | hset
    · exact ⟨hfree, hshown⟩
    · exact ⟨hfree, hset⟩
  rw [select_of_isAttribute hattribute]
  exact ⟨rfl, fun hlive => dotted_of_live hcell hlive hslot⟩

/-- A class whose first field has the name of an operation. -/
def headerModel : ModelDef :=
  .root .struct "Header" [⟨"layout", .fixedInt .u8, none, .null⟩,
    ⟨"size", .fixedInt .u8, none, .null⟩] none none

/-- The layout of the class. -/
def headerLayout : Layout :=
  .composite (.model ⟨"Header", [], false, ["layout", "size"]⟩)
    (.cons "layout" (some "layout") (.int .u8) (.cons "size" (some "size") (.int .u8) .nil))

/-- A view of an instance of the class. -/
def headerWorkspace : Workspace :=
  ⟨[.model headerModel], [], ⟨[[7, 2]], [], [⟨headerLayout, ⟨0, 0, 2⟩, false⟩]⟩, []⟩

/-- The second field is reached after a dot. -/
theorem size_is_reached : headerWorkspace.store.views[0]? =
    some ⟨headerLayout, ⟨0, 0, 2⟩, false⟩ ∧
    select (.view 0) "size" headerWorkspace =
      (.ok (.part (.view 1)), headerWorkspace.addView ⟨.int .u8, ⟨0, 1, 1⟩, false⟩) := by
  refine ⟨rfl, ?_⟩
  have hcell : headerWorkspace.store.views[0]? = some ⟨headerLayout, ⟨0, 0, 2⟩, false⟩ := rfl
  obtain ⟨-, hclass⟩ := attributes_are_fields hcell
  have hlayout : Catalog.layoutOf [.model headerModel] (.named "Header") = .ok headerLayout := by
    cbv
  have hfields : headerModel.fields = [⟨"layout", .fixedInt .u8, none, .null⟩,
      ⟨"size", .fixedInt .u8, none, .null⟩] := by cbv
  obtain ⟨-, hreached⟩ := hclass [.model headerModel] "Header" headerModel rfl (by decide) hlayout
  obtain ⟨slot, hslot, -, hselect⟩ := hreached ⟨"size", .fixedInt .u8, none, .null⟩
    (by simp [hfields]) "size" (by cbv) (by cbv)
  have hfound : headerLayout.accessor? "size" = some ⟨"size", 1, 1, 2, .int .u8, some "size"⟩ := by
    cbv
  cases hfound.symm.trans hslot
  exact (hselect (by decide)).2 rfl

/-- The first field is listed and can be reached by its accessor, but the name stands for an
operation after a dot. -/
theorem layout_is_not_reached : "layout" ∈ headerLayout.accessors ∧
    Catalog.layoutOf [.model headerModel] (.named "Header") = .ok headerLayout ∧
    field (.view 0) "layout" headerWorkspace =
      (.ok (.view 1), headerWorkspace.addView ⟨.int .u8, ⟨0, 0, 1⟩, false⟩) ∧
    select (.view 0) "layout" headerWorkspace = (.ok .operation, headerWorkspace) ∧
    select (.view 0) "layout" headerWorkspace ≠ dotted (.view 0) "layout" headerWorkspace := by
  have hselect : select (.view 0) "layout" headerWorkspace = (.ok .operation, headerWorkspace) :=
    select_of_operation (by decide) 0 _
  refine ⟨by decide, by cbv, rfl, hselect, ?_⟩
  rw [hselect]
  exact (dotted_ne_operation _ _ _ _).symm

end Session

end FixedLayout
