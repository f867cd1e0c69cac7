import FixedLayout.Proofs.Attributes
import FixedLayout.Proofs.Partition
import FixedLayout.Proofs.Renaming

/-!
# Accessors

The accessors of a model are the names by which its fields can be reached: one for each field that
is not suppressed, in the order of the fields, and no name twice. Each of them reaches its own field
and no other name reaches any. Other accessors make other names, and nothing else.

* `Catalog.Occupies`: a slot is that of a field of a model, which starts after all fields before it.
  `Catalog.exists_slot_of_field`: each field has one;
* `Layout.accessor?_eq_none`: a name that is no accessor reaches nothing;
* `Catalog.Suppresses`: a change of accessors that does no more than to suppress some;
* `Session.accessors_are_names`: the main result.
-/

namespace FixedLayout

/-- A slot starts where the sizes of those before it add up to, and is as long as what is in it. -/
theorem Consecutive.bounds_eq {slots : List Slot} {index : Nat} {lo hi : Int}
    (h : Consecutive index lo hi slots) {i : Nat} {slot : Slot} (hslot : slots[i]? = some slot) :
    slot.start = lo + ((slots.take i).map fun s => s.layout.size).sum ∧
      slot.stop = slot.start + slot.layout.size := by
  induction slots generalizing index lo i with
  | nil => cases hslot
  | cons first rest ih =>
    have hstart := h.1.2.1
    have hsize : first.stop - first.start = first.layout.size := h.1.2.2
    cases i with
    | zero =>
      cases hslot
      refine ⟨?_, by omega⟩
      rw [hstart]
      exact (Int.add_zero lo).symm
    | succ i =>
      obtain ⟨hrest, hstop⟩ := ih h.2 hslot
      refine ⟨?_, hstop⟩
      rw [List.take_succ_cons, List.map_cons, List.sum_cons, hrest]
      omega

/-- A name that is no accessor reaches nothing. -/
theorem Layout.accessor?_eq_none {l : Layout} {a : String} (h : a ∉ l.accessors) :
    l.accessor? a = none :=
  List.find?_eq_none.2 fun slot hslot hmatch =>
    h (List.mem_filterMap.2 ⟨slot, hslot, eq_of_beq hmatch⟩)

namespace Catalog

variable {c c' : Catalog} {name : String} {m : ModelDef} {l : Layout}

/-- The slot of a field of a model, given its index: it has the name of the field and the layout of
its type, and starts after the fields before it. -/
structure Occupies (c : Catalog) (l : Layout) (i : Nat) (f : FieldDecl) (slot : Slot) : Prop where
  getElem? : l.slots[i]? = some slot
  name : slot.name = f.name
  layout : c.layoutOf f.type = .ok slot.layout
  start : slot.start = ((l.slots.take i).map fun s => s.layout.size).sum
  stop : slot.stop = slot.start + slot.layout.size

/-- A unit has no slots, as it has no fields. -/
theorem slots_of_unit (hd : c.find? name = some (.model m)) (hkind : m.kind = .unit)
    (hl : c.layoutOf (.named name) = .ok l) : m.fields = [] ∧ l.slots = [] := by
  obtain ⟨hfields, literal, rfl⟩ :=
    compileUnit_eq_ok ((hasLayout_unit_iff hd hkind).1 (layoutOf_eq_ok_iff.1 hl))
  exact ⟨hfields, rfl⟩

/-- The options of the fields of a model with a layout are accepted. -/
theorem exists_options_of_layoutOf (hd : c.find? name = some (.model m))
    (hl : c.layoutOf (.named name) = .ok l) :
    ∀ f ∈ m.fields, ∃ options, f.options = .ok options := by
  intro f hf
  have hfit := (layoutOf_eq_ok_iff.1 hl).wellFormed.accessorsFit (uses_named_iff.2 (.inl rfl)) hd
  exact (ModelDef.accessorsFit_iff.1 hfit).1 f hf

/-- The accessors of a model are the names by which its fields can be reached. -/
theorem accessors_eq_exposed (hd : c.find? name = some (.model m))
    (hl : c.layoutOf (.named name) = .ok l) :
    l.accessors = m.fields.filterMap FieldDecl.exposed? ∧ l.accessors.Nodup := by
  have hfit := (layoutOf_eq_ok_iff.1 hl).wellFormed.accessorsFit (uses_named_iff.2 (.inl rfl)) hd
  have haccessors : l.accessors = m.fields.filterMap FieldDecl.exposed? := by
    by_cases hkind : m.kind = .unit
    · obtain ⟨hfields, hslots⟩ := slots_of_unit hd hkind hl
      rw [Layout.accessors, hfields, hslots]
      rfl
    · rw [(accessors_of_layoutOf hd hkind hl).1,
        filterMap_accessorName? (exists_options_of_layoutOf hd hl)]
  exact ⟨haccessors, haccessors ▸ hfit.2⟩

/-- Each field of a model has a slot, with the name by which the field can be reached. -/
theorem exists_slot_of_field (hd : c.find? name = some (.model m))
    (hl : c.layoutOf (.named name) = .ok l) {i : Nat} {f : FieldDecl}
    (hf : m.fields[i]? = some f) :
    ∃ slot, c.Occupies l i f slot ∧ slot.accessor = f.exposed? := by
  have hkind : m.kind ≠ .unit := by
    intro hkind
    rw [(slots_of_unit hd hkind hl).1] at hf
    cases hf
  obtain ⟨options, hoptions⟩ := exists_options_of_layoutOf hd hl f (List.mem_of_getElem? hf)
  obtain ⟨-, fields, hfields, -, rfl⟩ :=
    (hasLayout_model_iff hd hkind).1 (layoutOf_eq_ok_iff.1 hl)
  obtain ⟨slot, hslot, hname, hlayout⟩ :=
    exists_getElem?_of_forall₂ (declared_fields hfields 0 0) hf
  obtain ⟨_, hslot', -, haccessor⟩ := exists_getElem?_of_forall₂ (named_slots hfields 0 0) hf
  cases hslot.symm.trans hslot'
  obtain ⟨hstart, hstop⟩ := ((Fields.ofList fields).consecutive_place 0 0).bounds_eq hslot
  rw [Int.zero_add] at hstart
  exact ⟨slot, ⟨hslot, hname, hlayout, hstart, hstop⟩,
    haccessor.trans (FieldDecl.accessorName?_eq hoptions)⟩

/-- Accessors are the same in two catalogs, but for some that the second one suppresses. -/
def Suppresses (c c' : Catalog) : Prop :=
  ∀ name m m', c.find? name = some (.model m) → c'.find? name = some (.model m') →
    List.Forall₂ (fun f f' : FieldDecl => f'.accessor = f.accessor ∨ f'.accessor = .bool false)
      m.fields m'.fields

theorem exists_layoutOf_iff {t : TypeExpr} :
    (∃ l, c.layoutOf t = .ok l) ↔ c.WellFormed t [] := by
  rw [← exists_hasLayout_iff]
  exact exists_congr fun _ => layoutOf_eq_ok_iff

end Catalog

namespace Session

variable {w : Workspace} {id : Nat} {cell : ViewCell} {a : String}

theorem field_of_no_accessor (hcell : w.store.views[id]? = some cell)
    (ha : a ∉ cell.layout.accessors) :
    field (.view id) a w = (.error (.noAccessor cell.layout.typeName a), w) := by
  have hview : asView (.view id) w = (.ok cell, w) := viewCell_eq hcell
  unfold field
  rw [bind_of_ok hview]
  simp only [Layout.accessor?_eq_none ha]
  rfl

/-- The accessors of a model that has a layout are the names by which its fields can be reached, in
the order of the fields, and no name is there twice. By such a name, an unreleased view gives the
view of the bytes where that field is, which has the layout of its type; any other name is rejected.

Let another catalog differ in nothing but accessors. Then the model has a layout there as well
exactly if, in all models that it uses, the accessors are accepted and no two fields can be reached
by the same name, which is always so if accessors have been suppressed only. All sizes, offsets,
checks, decoded values and encodings are the same then. -/
theorem accessors_are_names {c : Catalog} {name : String} {m : ModelDef} {l : Layout}
    (hd : c.find? name = some (.model m)) (hl : c.layoutOf (.named name) = .ok l) :
    (l.accessors = m.fields.filterMap FieldDecl.exposed? ∧ l.accessors.Nodup) ∧
    (∀ (w : Workspace) (id : Nat) (cell : ViewCell), w.store.views[id]? = some cell →
      cell.layout = l →
      (∀ (i : Nat) (f : FieldDecl) (a : String), m.fields[i]? = some f → f.exposed? = some a →
        ∃ slot, c.Occupies l i f slot ∧ (cell.released = false →
          field (.view id) a w = (.ok (.view w.store.views.length),
            w.addView ⟨slot.layout, cell.window.slice slot.start slot.stop, false⟩))) ∧
      ∀ a, (∀ f ∈ m.fields, f.exposed? ≠ some a) →
        field (.view id) a w = (.error (.noAccessor l.typeName a), w)) ∧
    ∀ c' : Catalog, c.Alike c' →
      ((∃ l', c'.layoutOf (.named name) = .ok l') ↔ ∀ other m', c.Uses (.named name) other →
        c'.find? other = some (.model m') → m'.AccessorsFit) ∧
      (c.Suppresses c' → ∃ l', c'.layoutOf (.named name) = .ok l') ∧
      ∀ l', c'.layoutOf (.named name) = .ok l' → l.WorksLike l' := by
  obtain ⟨haccessors, hnodup⟩ := Catalog.accessors_eq_exposed hd hl
  have hlayout := Catalog.layoutOf_eq_ok_iff.1 hl
  refine ⟨⟨haccessors, hnodup⟩, ?_, fun c' halike => ⟨?_, fun hsuppressed => ?_, fun l' hl' => ?_⟩⟩
  · rintro w id cell hcell rfl
    refine ⟨fun i f a hf ha => ?_, fun a ha => field_of_no_accessor hcell ?_⟩
    · obtain ⟨slot, hslot, haccessor⟩ := Catalog.exists_slot_of_field hd hl hf
      refine ⟨slot, hslot, fun hlive => ?_⟩
      have hreached := Layout.accessor?_of_mem_slots hnodup
        (List.mem_of_getElem? hslot.getElem?) (haccessor.trans ha)
      rw [field_eq hcell hreached, child_of_live hlive]
    · intro hmem
      rw [haccessors] at hmem
      obtain ⟨f, hf, hexposed⟩ := List.mem_filterMap.1 hmem
      exact ha f hf hexposed
  · rw [Catalog.exists_layoutOf_iff]
    exact halike.wellFormed_iff hlayout.wellFormed
  · exact Catalog.exists_layoutOf_iff.2
      (halike.wellFormed_of_suppressed hlayout.wellFormed hsuppressed)
  · exact Layout.worksLike_of_bare
      (halike.bare_eq hlayout l' (Catalog.layoutOf_eq_ok_iff.1 hl'))

/-- A class of three fields with given accessors. -/
def crossedModel (left right hidden : Value) : ModelDef :=
  .root .struct "Crossed" [⟨"left", .fixedInt .u8, none, left⟩,
    ⟨"right", .fixedInt .u16, none, right⟩, ⟨"hidden", .fixedInt .u8, none, hidden⟩] none none

/-- The class with two accessors that are the name of the other field, and one that is
suppressed. -/
def crossedCatalog : Catalog := [.model (crossedModel (.text "right") (.text "left") (.bool false))]

/-- The layout of the class. -/
def crossedLayout : Layout :=
  .composite (.model ⟨"Crossed", [], false, ["left", "right", "hidden"]⟩)
    (.cons "left" (some "right") (.int .u8) (.cons "right" (some "left") (.int .u16)
      (.cons "hidden" none (.int .u8) .nil)))

/-- A view of an instance of the class. -/
def crossedWorkspace : Workspace :=
  ⟨crossedCatalog, [], ⟨[[7, 2, 0, 9]], [], [⟨crossedLayout, ⟨0, 0, 4⟩, false⟩]⟩, []⟩

/-- The second field is reached by the name of the first one, the third one by none, and without any
accessors the layout would have the same form. -/
theorem crossed_names_reach_fields :
    crossedCatalog.find? "Crossed" =
      some (.model (crossedModel (.text "right") (.text "left") (.bool false))) ∧
    crossedCatalog.layoutOf (.named "Crossed") = .ok crossedLayout ∧
    field (.view 0) "left" crossedWorkspace =
      (.ok (.view 1), crossedWorkspace.addView ⟨.int .u16, ⟨0, 1, 2⟩, false⟩) ∧
    field (.view 0) "hidden" crossedWorkspace =
      (.error (.noAccessor "Crossed" "hidden"), crossedWorkspace) ∧
    ∀ l', Catalog.layoutOf [.model (crossedModel .null .null .null)] (.named "Crossed") = .ok l' →
      crossedLayout.WorksLike l' := by
  have hd : crossedCatalog.find? "Crossed" =
      some (.model (crossedModel (.text "right") (.text "left") (.bool false))) := rfl
  have hl : crossedCatalog.layoutOf (.named "Crossed") = .ok crossedLayout := by cbv
  obtain ⟨-, hview, hother⟩ := accessors_are_names hd hl
  obtain ⟨hreached, hrejected⟩ := hview crossedWorkspace 0 _ rfl rfl
  refine ⟨hd, hl, ?_, hrejected "hidden" (by decide), fun l' hl' => ?_⟩
  · obtain ⟨slot, hslot, hfield⟩ := hreached 1 ⟨"right", .fixedInt .u16, none, .text "left"⟩ "left"
      rfl rfl
    cases hslot.getElem?
    exact hfield rfl
  · have halike : crossedCatalog.Alike [.model (crossedModel .null .null .null)] :=
      .cons (.model ⟨rfl, rfl, rfl,
        .cons ⟨rfl, rfl, rfl⟩ (.cons ⟨rfl, rfl, rfl⟩ (.cons ⟨rfl, rfl, rfl⟩ .nil)), rfl, rfl⟩) .nil
    exact (hother _ halike).2.2 l' hl'

end Session

end FixedLayout
