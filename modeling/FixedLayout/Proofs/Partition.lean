import FixedLayout.Proofs.Sizes
import FixedLayout.Proofs.Standard
import FixedLayout.Workspace.Coding

/-!
# The partition of the bytes

A composite is divided among its fields and an array among its elements, all the way down to leaves
that share the bytes among themselves. Sizes and offsets that are asked for are those of these
parts.

* `Consecutive`: slots that are numbered and follow each other without gaps;
* `Catalog.Declares`: slots for what a composite is declared with, in order;
* `Layout.Divided`: what is known of the slots of a composite or of an array;
  `Catalog.divided_of_contains`: it is true of all layouts inside the layout of a type;
* `Tiles.existsUnique`: each byte belongs to one leaf;
* `Session.Answers`: the answers where sizes are asked for, by a type or by an instance;
* `Session.sizes_describe_partition`: types and the instances of their classes get the answers that
  describe the partition. An instance of a class that extends another one gets those of its own.
-/

namespace FixedLayout

/-! ### Slots without gaps -/

/-- Slots that are numbered from an index on and follow each other without gaps from one offset to
another. Each is as long as what is in it. -/
def Consecutive : Nat → Int → Int → List Slot → Prop
  | _, lo, hi, [] => lo = hi
  | index, lo, hi, slot :: rest =>
    (slot.index = index ∧ slot.start = lo ∧ slot.size = slot.layout.size) ∧
      Consecutive (index + 1) slot.stop hi rest

/-- Fields are placed one after another. -/
theorem Fields.consecutive_place : ∀ (fs : Fields) (index : Nat) (start : Int),
    Consecutive index start (start + fs.size) (fs.place index start)
  | .nil, _, start => (Int.add_zero start).symm
  | .cons _ _ layout rest, index, start => by
    have hrest := rest.consecutive_place (index + 1) (start + layout.size)
    rw [Int.add_assoc] at hrest
    have hsize : start + layout.size - start = layout.size := by omega
    exact ⟨⟨rfl, rfl, hsize⟩, hrest⟩

/-- Elements are one after another. -/
theorem consecutive_elements (element : Layout) (n index : Nat) :
    Consecutive index (index * element.size) ((index + n : Nat) * element.size)
      ((List.range' index n).map fun (k : Nat) => Layout.elementSlot element k) := by
  induction n generalizing index with
  | zero => rfl
  | succ n ih =>
    have hrest := ih (index + 1)
    have hsum : index + 1 + n = index + (n + 1) := by omega
    have hsize : index * element.size + element.size - index * element.size = element.size := by
      omega
    rw [hsum, Nat.cast_succ, offset_succ] at hrest
    exact ⟨⟨rfl, rfl, hsize⟩, hrest⟩

/-- The sizes of slots without gaps add up to what is between the ends. -/
theorem Consecutive.sum_sizes {slots : List Slot} {index : Nat} {lo hi : Int}
    (h : Consecutive index lo hi slots) : (slots.map (·.size)).sum = hi - lo := by
  induction slots generalizing index lo with
  | nil =>
    have hend : lo = hi := h
    rw [hend, Int.sub_self]
    rfl
  | cons slot rest ih =>
    have hstart := h.1.2.1
    have hsize : slot.size = slot.stop - slot.start := rfl
    rw [List.map_cons, List.sum_cons, ih h.2]
    omega

/-! ### Declared fields -/

namespace Catalog

variable {c : Catalog} {t : TypeExpr} {constraints : List Constraint} {l sub : Layout}

/-- There is one slot for each field of the class, in the order of declaration, with its name and
the layout of its type; or one for each entry of a tuple type, which has its number for a name. -/
def Declares (c : Catalog) : Form → List Slot → Prop
  | .model cls, slots => ∃ m, c.find? cls.name = some (.model m) ∧ m.cls = cls ∧
    List.Forall₂ (fun (f : FieldDecl) (slot : Slot) =>
      slot.name = f.name ∧ c.layoutOf f.type = .ok slot.layout) m.fields slots
  | .tuple, slots => ∃ ts, List.Forall₂ (fun (t : TypeExpr) (slot : Slot) =>
      slot.name = toString slot.index ∧ c.layoutOf t = .ok slot.layout) ts slots

/-- What is in a slot is the layout of a type. -/
theorem Declares.exists_hasLayout {form : Form} {slots : List Slot} (h : c.Declares form slots)
    {slot : Slot} (hslot : slot ∈ slots) : ∃ t, c.HasLayout t [] slot.layout := by
  obtain ⟨k, hk⟩ := List.mem_iff_getElem?.1 hslot
  cases form with
  | model cls =>
    obtain ⟨m, -, -, hfields⟩ := h
    obtain ⟨f, -, -, hlayout⟩ := exists_getElem?_of_forall₂ hfields.flip hk
    exact ⟨f.type, layoutOf_eq_ok_iff.1 hlayout⟩
  | tuple =>
    obtain ⟨ts, hentries⟩ := h
    obtain ⟨t, -, -, hlayout⟩ := exists_getElem?_of_forall₂ hentries.flip hk
    exact ⟨t, layoutOf_eq_ok_iff.1 hlayout⟩

/-- Entries are declared by their types. -/
theorem declared_entries {ts : List TypeExpr} {ls : List Layout}
    (h : List.Forall₂ (fun t l => c.HasLayout t [] l) ts ls) (index : Nat) (start : Int) :
    List.Forall₂ (fun (t : TypeExpr) (slot : Slot) =>
      slot.name = toString slot.index ∧ c.layoutOf t = .ok slot.layout) ts
        ((entryFields index ls).place index start) := by
  induction h generalizing index start with
  | nil => exact .nil
  | cons hl _ ih => exact .cons ⟨rfl, layoutOf_eq_ok_iff.2 hl⟩ (ih _ _)

/-- Fields are declared in the same order. -/
theorem declared_fields {fs : List FieldDecl} {fields : List (String × Option String × Layout)}
    (h : List.Forall₂ c.HasField fs fields) (index : Nat) (start : Int) :
    List.Forall₂ (fun (f : FieldDecl) (slot : Slot) =>
      slot.name = f.name ∧ c.layoutOf f.type = .ok slot.layout) fs
        ((Fields.ofList fields).place index start) := by
  induction h generalizing index start with
  | nil => exact .nil
  | cons hfield _ ih =>
    obtain ⟨l, hl, options, -, rfl⟩ := hfield
    exact .cons ⟨rfl, layoutOf_eq_ok_iff.2 hl⟩ (ih _ _)

/-- The layout of a type is a leaf, a composite of what a class or tuple type declares, or an array
of the layout of another type. -/
theorem HasLayout.cases_parts (h : c.HasLayout t constraints l) :
    l.IsLeaf ∨
      (∃ form fields, l = .composite form fields ∧ c.Declares form fields.slots) ∨
      ∃ element n element', l = .array element n ∧ c.HasLayout element' [] element := by
  induction h with
  | annotated _ ih => exact ih
  | int _ => exact .inl trivial
  | bytes _ _ => exact .inl trivial
  | list _ helement _ => exact .inr (.inr ⟨_, _, _, rfl, helement⟩)
  | tuple _ _ hlen hlayouts =>
    have hentries := List.forall₂_iff_zip.2 ⟨hlen, hlayouts _ _⟩
    exact .inr (.inl ⟨.tuple, _, rfl, _, declared_entries hentries 0 0⟩)
  | enumeration _ _ hl =>
    obtain ⟨enum, -, rfl⟩ := EnumDef.compile_eq_ok hl
    exact .inl trivial
  | unit _ _ _ hl =>
    obtain ⟨-, literal, rfl⟩ := compileUnit_eq_ok hl
    exact .inl trivial
  | @model name _ m layouts _ hd _ _ _ hlen hlayouts hoptions _ =>
    have hfields := forall₂_hasField_iff.2
      ⟨layouts, List.forall₂_iff_zip.2 ⟨hlen, hlayouts _ _⟩, hoptions, rfl⟩
    refine .inr (.inl ⟨.model m.cls, _, rfl, m, ?_, rfl, declared_fields hfields 0 0⟩)
    rw [name_of_find hd, hd]

/-- The slots of a composite are what its class or tuple type declares. -/
theorem HasLayout.declares {form : Form} {fields : Fields}
    (h : c.HasLayout t constraints (.composite form fields)) : c.Declares form fields.slots := by
  rcases h.cases_parts with hleaf | ⟨form, fields, heq, hdeclares⟩ | ⟨_, _, _, heq, -⟩
  · exact hleaf.elim
  · cases heq
    exact hdeclares
  · cases heq

/-- The element of an array is the layout of a type. -/
theorem HasLayout.exists_element {element : Layout} {n : Int}
    (h : c.HasLayout t constraints (.array element n)) : ∃ t, c.HasLayout t [] element := by
  rcases h.cases_parts with hleaf | ⟨_, _, heq, -⟩ | ⟨_, _, t, heq, helement⟩
  · exact hleaf.elim
  · cases heq
  · cases heq
    exact ⟨t, helement⟩

end Catalog

/-! ### Leaves of parts -/

/-- The leaves of placed fields are those of their layouts, moved to where the slots start. -/
theorem Fields.leaves_place (frame : String → Nat → Frame) :
    ∀ (fs : Fields) (index : Nat) (start : Int),
      (fs.leaves frame index start).map (fun leaf => (leaf.layout, leaf.start)) =
        (fs.place index start).flatMap fun slot =>
          slot.layout.leaves.map fun leaf => (leaf.layout, leaf.start + slot.start)
  | .nil, _, _ => rfl
  | .cons _ _ layout rest, index, start => by
    rw [Fields.leaves, Fields.place, List.map_append, List.flatMap_cons, rest.leaves_place,
      List.map_map]
    rfl

/-- The leaves of elements are those of the element, moved to where the slots start. -/
theorem leaves_elements (element : Layout) (frame : Int → Frame) (n index : Nat) :
    (leavesOfRun element.leaves frame element.size index n).map
        (fun leaf => (leaf.layout, leaf.start)) =
      ((List.range' index n).map fun (k : Nat) => Layout.elementSlot element k).flatMap fun slot =>
        slot.layout.leaves.map fun leaf => (leaf.layout, leaf.start + slot.start) := by
  induction n generalizing index with
  | zero => rfl
  | succ n ih =>
    rw [leavesOfRun, List.range'_succ, List.map_cons, List.flatMap_cons, List.map_append, ih,
      List.map_map]
    rfl

/-- Each byte between the ends of a tiling belongs to one leaf. -/
theorem Tiles.existsUnique {lo hi : Int} {leaves : List Leaf} (h : Tiles lo hi leaves) {k : Int}
    (h0 : lo ≤ k) (h1 : k < hi) :
    ∃! i : Nat, ∃ leaf, leaves[i]? = some leaf ∧ leaf.start ≤ k ∧ k < leaf.stop := by
  induction leaves generalizing lo with
  | nil =>
    have hend : lo = hi := h
    omega
  | cons leaf rest ih =>
    obtain ⟨hstart, hsize, hrest⟩ := h
    by_cases hk : k < leaf.stop
    · refine ⟨0, ⟨leaf, rfl, by omega, hk⟩, ?_⟩
      rintro (_ | i) ⟨other, hother, hle, -⟩
      · rfl
      · -- the others start after the first one has ended
        have := (hrest.bounds (List.mem_of_getElem? hother)).1
        omega
    · push Not at hk
      obtain ⟨i, hi, hunique⟩ := ih hrest hk
      refine ⟨i + 1, hi, ?_⟩
      rintro (_ | j) ⟨other, hother, hle, hlt⟩
      · cases hother
        omega
      · exact congrArg Nat.succ (hunique j ⟨other, hother, hle, hlt⟩)

/-! ### Layouts and their parts -/

/-- What is known of the slots of a composite or of an array. They follow each other from the start
of the layout to its end, their sizes add up to its size, and its leaves are those of what is in the
slots. A composite has the fields that it was declared with, with one name for each. An array has as
many elements as it was declared with, each with a range that depends only on its index. The entries
that an index reaches are the slots. -/
structure Layout.Divided (c : Catalog) (l : Layout) : Prop where
  consecutive : Consecutive 0 0 l.size l.parts
  sizes : (l.parts.map (·.size)).sum = l.size
  leaves : l.leaves.map (fun leaf => (leaf.layout, leaf.start)) = l.parts.flatMap fun slot =>
    slot.layout.leaves.map fun leaf => (leaf.layout, leaf.start + slot.start)
  fields : ∀ form fields, l = .composite form fields →
    c.Declares form l.parts ∧ (l.parts.map (·.name)).Nodup
  elements : ∀ element n, l = .array element n → l.parts.length = n ∧ ∀ slot ∈ l.parts,
    slot.layout = element ∧ slot.start = slot.index * element.size ∧
      slot.stop = (slot.index + 1) * element.size
  entries : ∀ n, l.entryCount? = some n → ∀ k : Nat, (k : Int) < n →
    ∃ slot, l.parts[k]? = some slot ∧ l.entry k = .ok slot

theorem Layout.consecutive_parts {l : Layout} (hl : l.LengthsNonneg) (hleaf : ¬ l.IsLeaf) :
    Consecutive 0 0 l.size l.parts := by
  cases l with
  | composite form fields =>
    have h := fields.consecutive_place 0 0
    rw [Int.zero_add] at h
    exact h
  | array element n =>
    have h := consecutive_elements element n.toNat 0
    rw [Nat.zero_add, Int.toNat_of_nonneg hl.2, Nat.cast_zero, Int.zero_mul, Int.mul_comm,
      ← List.range_eq_range'] at h
    exact h
  | _ => exact absurd trivial hleaf

theorem Layout.leaves_parts {l : Layout} (hleaf : ¬ l.IsLeaf) :
    l.leaves.map (fun leaf => (leaf.layout, leaf.start)) = l.parts.flatMap fun slot =>
      slot.layout.leaves.map fun leaf => (leaf.layout, leaf.start + slot.start) := by
  cases l with
  | composite form fields => exact fields.leaves_place _ 0 0
  | array element n =>
    have h := leaves_elements element (.entry (array element n).typeName) n.toNat 0
    rw [← List.range_eq_range'] at h
    exact h
  | _ => exact absurd trivial hleaf

/-- The entries of an array or of a positional composite are its parts. -/
theorem Layout.entry_eq_part {l : Layout} {n : Int} (hn : l.entryCount? = some n) {k : Nat}
    (hk : (k : Int) < n) : ∃ slot, l.parts[k]? = some slot ∧ l.entry k = .ok slot := by
  rcases l.entryCount?_cases hn with ⟨element, rfl⟩ | ⟨form, fields, rfl, hform, rfl⟩
  · refine ⟨elementSlot element k, ?_, Layout.entry_array element hk⟩
    have hlt : k < n.toNat := by omega
    unfold parts
    rw [List.getElem?_map, List.getElem?_range hlt]
    rfl
  · have hlt : k < fields.slots.length := by
      have hcount : fields.slots.length = fields.count := fields.length_place 0 0
      omega
    exact ⟨fields.slots[k], List.getElem?_eq_getElem hlt,
      Layout.entry_composite hform (List.getElem?_eq_getElem hlt)⟩

theorem Layout.Regular.of_contains {l sub : Layout} (hl : l.Regular) (h : l.Contains sub) :
    sub.Regular :=
  h.inherits (fun _ _ hcomposite slot hslot => (hcomposite.inside_slots slot hslot).regular)
    (fun _ _ harray => harray.element) hl

namespace Catalog

variable {c : Catalog} {t : TypeExpr} {constraints : List Constraint} {l sub : Layout}

/-- Every layout inside the layout of a type is the layout of a type. -/
theorem exists_hasLayout_of_contains (h : c.HasLayout t [] l) (hsub : l.Contains sub) :
    ∃ t, c.HasLayout t [] sub := by
  refine hsub.inherits (P := fun l => ∃ t, c.HasLayout t [] l) ?_ ?_ ⟨t, h⟩
  · rintro form fields ⟨t, ht⟩ slot hslot
    exact ht.declares.exists_hasLayout hslot
  · rintro element n ⟨t, ht⟩
    exact ht.exists_element

/-- All composites and arrays inside the layout of a type are divided among their parts. -/
theorem divided_of_contains (h : c.layoutOf t = .ok l) (hl : l.LengthsNonneg)
    (hsub : l.Contains sub) (hleaf : ¬ sub.IsLeaf) : sub.Divided c := by
  have hsubregular := (regular_of_layoutOf h hl).of_contains hsub
  -- what is inside is a layout in its own right, so that all that is declared in it is known
  obtain ⟨t', ht'⟩ := exists_hasLayout_of_contains (layoutOf_eq_ok_iff.1 h) hsub
  have hconsecutive := Layout.consecutive_parts hsubregular.lengths hleaf
  constructor
  case consecutive => exact hconsecutive
  case sizes => rw [hconsecutive.sum_sizes, Int.sub_zero]
  case leaves => exact Layout.leaves_parts hleaf
  case fields =>
    rintro form fields rfl
    refine ⟨ht'.declares, ?_⟩
    have hnames : fields.slots.map (·.name) = fields.names := fields.map_name_place 0 0
    rw [Layout.parts, hnames]
    exact hsubregular.names.1
  case elements =>
    rintro element n rfl
    have hn := hsubregular.lengths.2
    refine ⟨?_, fun slot hslot => ?_⟩
    · rw [Layout.parts, List.length_map, List.length_range, Int.toNat_of_nonneg hn]
    · obtain ⟨k, -, rfl⟩ := List.mem_map.1 hslot
      exact ⟨rfl, rfl, (offset_succ k element.size).symm⟩
  case entries => exact fun n hn k hk => Layout.entry_eq_part hn hk

end Catalog

/-! ### Sizes and offsets -/

/-- The class of an instance of a model, or of a member of an enumeration. -/
def Value.className? : Value → Option String
  | .record cls _ => some cls.name
  | .member enum _ _ _ => some enum
  | _ => none

/-- The class that a type is made of has the same layout. -/
theorem Catalog.HasLayout.named {c : Catalog} {t : TypeExpr} {constraints : List Constraint}
    {l : Layout} (h : c.HasLayout t constraints l) {name : String}
    (hname : t.className? = some name) : c.HasLayout (.named name) [] l := by
  induction h with
  | annotated _ ih => exact ih hname
  | enumeration _ hd hl =>
    cases hname
    exact .enumeration rfl hd hl
  | unit _ hd hkind hl =>
    cases hname
    exact .unit rfl hd hkind hl
  | model _ hd hkind hvalue hne hlen hlayouts hoptions hnodup =>
    cases hname
    exact .model rfl hd hkind hvalue hne hlen hlayouts hoptions hnodup
  | _ => cases hname

namespace Session

variable {w after : Workspace} {t asked : TypeExpr} {l : Layout}

/-- A type that has a layout stands for itself where sizes are asked for. -/
theorem sizedType_of_hasLayout {c : Catalog} (h : c.HasLayout t [] l) : sizedType t = t := by
  cases t with
  | literal v => exact absurd h Catalog.not_hasLayout_literal
  | _ => rfl

/-- An instance or a member stands for its own class. -/
theorem sizedType_of_className {v : Value} {name : String} (h : v.className? = some name) :
    sizedType (.literal v) = .named name := by
  cases v with
  | record cls fields =>
    cases h
    rfl
  | member enum variant integral payload =>
    cases h
    rfl
  | _ => cases h

/-- What is told of each field of a composite, by its name. Other layouts have no fields to ask
for. -/
def byField {α : Type} (answer : Slot → α) : Layout → Except Fault (List (String × α))
  | .composite form fields =>
    .ok ((Layout.composite form fields).parts.map fun slot => (slot.name, answer slot))
  | l => .error (.schema (.notComposite l.typeName))

/-- The answers where sizes are asked for are those of a layout. -/
structure Answers (w : Workspace) (asked : TypeExpr) (l : Layout) : Prop where
  whole : (encodedSize asked w).1 = .ok l.size
  sizes : (fieldSizes asked w).1 = byField (·.size) l
  offsets : (fieldOffsets asked w).1 = byField (fun slot => (slot.start, slot.stop)) l

/-- What is told of the fields is told of the slots of the layout. -/
theorem map_fieldSlots {α : Type} (answer : Slot → α) (h : layoutForSize asked w = (.ok l, after)) :
    ((do return (← fieldSlots asked).map fun slot => (slot.name, answer slot) :
      Session (List (String × α))) w).1 = byField answer l := by
  cases l with
  | composite form fields =>
    have hslots : fieldSlots asked w = (.ok fields.slots, after) := bind_of_ok h
    rw [bind_of_ok hslots]
    rfl
  | _ =>
    have hslots : fieldSlots asked w = _ := bind_of_ok h
    rw [bind_of_error (hslots.trans rfl)]
    rfl

theorem answers_of_ok (h : layoutForSize asked w = (.ok l, after)) : Answers w asked l where
  whole := by
    show ((layoutForSize asked >>= fun l => return l.size) w).1 = _
    rw [bind_of_ok h]
    rfl
  sizes := map_fieldSlots (·.size) h
  offsets := map_fieldSlots (fun slot => (slot.start, slot.stop)) h

/-- Answers are those of the layout that a type has, whatever has been compiled before. -/
theorem answers_of_layoutOf (hsound : w.cache.Sound w.catalog) {type : TypeExpr}
    (htype : sizedType asked = type) (h : w.catalog.layoutOf type = .ok l) :
    Answers w asked l := by
  subst htype
  exact answers_of_ok (compile_of_ok (Catalog.compile_of_layoutOf hsound h))

/-- After any sequence of compilations: all composites and arrays inside the layout of a type are
divided among their parts; each byte belongs to one leaf; and the size, the sizes of the fields and
their offsets are told as those of the slots, whether they are asked for by the type or by an
instance or a member of its class. An instance of any other class, also of one that extends the
class of the type, is answered for by the layout of its own class. -/
theorem sizes_describe_partition {history : List TypeExpr}
    (hcache : w.cache = w.catalog.cacheAfter history) (h : w.catalog.layoutOf t = .ok l)
    (hl : l.LengthsNonneg) :
    (∀ sub, l.Contains sub → ¬ sub.IsLeaf → sub.Divided w.catalog) ∧
      (∀ leaf ∈ l.leaves, 0 ≤ leaf.start ∧ leaf.stop ≤ l.size) ∧
      (∀ k, 0 ≤ k → k < l.size →
        ∃! i : Nat, ∃ leaf, l.leaves[i]? = some leaf ∧ leaf.start ≤ k ∧ k < leaf.stop) ∧
      Answers w t l ∧
      ∀ v name, v.className? = some name →
        (t.className? = some name → Answers w (.literal v) l) ∧
        ∀ own, w.catalog.layoutOf (.named name) = .ok own → Answers w (.literal v) own := by
  have htiles := l.tiles_leaves hl
  have hlayout := Catalog.layoutOf_eq_ok_iff.1 h
  have hsound := Catalog.sound_cacheAfter w.catalog history
  rw [← hcache] at hsound
  have hinstance : ∀ v name own, v.className? = some name →
      w.catalog.layoutOf (.named name) = .ok own → Answers w (.literal v) own :=
    fun v name own hv hown => answers_of_layoutOf hsound (sizedType_of_className hv) hown
  refine ⟨fun sub hsub hleaf => Catalog.divided_of_contains h hl hsub hleaf, fun leaf hleaf => ?_,
    fun k h0 h1 => htiles.existsUnique h0 h1,
    answers_of_layoutOf hsound (sizedType_of_hasLayout hlayout) h,
    fun v name hv => ⟨fun ht => ?_, fun own => hinstance v name own hv⟩⟩
  · obtain ⟨h0, -, h1⟩ := htiles.bounds hleaf
    exact ⟨h0, h1⟩
  · exact hinstance v name l hv (Catalog.layoutOf_eq_ok_iff.2 (hlayout.named ht))

/-- A workspace in which the pairs of messages have been compiled. -/
def afterPairs : Workspace :=
  ⟨messageCatalog, messageCatalog.cacheAfter [.named "Pair"], .empty, []⟩

/-- A point on a line. -/
def pointModel : ModelDef := .root .struct "Point" [⟨"x", .fixedInt .u8, none, .null⟩] none none

/-- A point in a plane, which extends a point on a line. -/
def planarModel : ModelDef :=
  pointModel.extend "Planar" [⟨"y", .fixedInt .u8, none, .null⟩] none none

/-- A workspace with both definitions. -/
def pointWorkspace : Workspace := ⟨[.model planarModel, .model pointModel], [], .empty, []⟩

/-- A point in a plane. -/
def planarPoint : Value := .record planarModel.cls [("x", .int 1), ("y", .int 2)]

/-- The layout of a point on a line. -/
def pointLayout : Layout :=
  .composite (.model ⟨"Point", [], false, ["x"]⟩) (.cons "x" (some "x") (.int .u8) .nil)

/-- The layout of a point in a plane. -/
def planarLayout : Layout :=
  .composite (.model ⟨"Planar", ["Point"], false, ["x", "y"]⟩)
    (.cons "x" (some "x") (.int .u8) (.cons "y" (some "y") (.int .u8) .nil))

/-- The offsets of a message are told by an instance, and its seventh byte belongs to one leaf. A
point in a plane, which is a point on a line as well, is answered for as a point in a plane. -/
theorem message_tells_its_offsets :
    messageLayout.LengthsNonneg ∧
      (∃! i : Nat, ∃ leaf, messageLayout.leaves[i]? = some leaf ∧ leaf.start ≤ 6 ∧ 6 < leaf.stop) ∧
      (fieldOffsets (.literal (.record ⟨"Message", [], false, ["kind", "body", "tail"]⟩ []))
        afterPairs).1 = .ok [("kind", 0, 1), ("body", 1, 7), ("tail", 7, 10)] ∧
      pointLayout.LengthsNonneg ∧ planarModel.cls.isSubclassOf pointModel.cls = true ∧
      (encodedSize (.named "Point") pointWorkspace).1 = .ok 1 ∧
      (encodedSize (.literal planarPoint) pointWorkspace).1 = .ok 2 := by
  have hcache : afterPairs.cache = afterPairs.catalog.cacheAfter [.named "Pair"] := rfl
  obtain ⟨-, -, hleaf, -, hanswers⟩ :=
    sizes_describe_partition hcache layoutOf_message lengthsNonneg_message
  have hpoint : pointWorkspace.catalog.layoutOf (.named "Point") = .ok pointLayout := by cbv
  have hplanar : pointWorkspace.catalog.layoutOf (.named "Planar") = .ok planarLayout := by cbv
  have hlengths : pointLayout.LengthsNonneg := ⟨trivial, trivial⟩
  have hempty : pointWorkspace.cache = pointWorkspace.catalog.cacheAfter [] := rfl
  obtain ⟨-, -, -, htype, hinstances⟩ := sizes_describe_partition hempty hpoint hlengths
  refine ⟨lengthsNonneg_message, hleaf 6 (by decide) (by decide), ?_, hlengths, by decide,
    htype.whole, ?_⟩
  · exact ((hanswers _ "Message" rfl).1 rfl).offsets
  · exact ((hinstances planarPoint "Planar" rfl).2 planarLayout hplanar).whole

/-- A point in a plane is an instance of the class of points on a line, but is told to have other
sizes and offsets than this class. -/
theorem planar_point_tells_other_offsets :
    planarModel.cls.isSubclassOf pointModel.cls = true ∧
      (fieldSizes (.named "Point") pointWorkspace).1 = .ok [("x", 1)] ∧
      (fieldSizes (.literal planarPoint) pointWorkspace).1 = .ok [("x", 1), ("y", 1)] ∧
      (fieldOffsets (.named "Point") pointWorkspace).1 = .ok [("x", 0, 1)] ∧
      (fieldOffsets (.literal planarPoint) pointWorkspace).1 = .ok [("x", 0, 1), ("y", 1, 2)] ∧
      (encodedSize (.named "Point") pointWorkspace).1 ≠
        (encodedSize (.literal planarPoint) pointWorkspace).1 := by
  have hline : (encodedSize (.named "Point") pointWorkspace).1 = .ok 1 := by cbv
  have hplane : (encodedSize (.literal planarPoint) pointWorkspace).1 = .ok 2 := by cbv
  refine ⟨by decide, by cbv, by cbv, by cbv, by cbv, ?_⟩
  rw [hline, hplane]
  exact fun h => absurd (Except.ok.inj h) (by decide)

end Session

end FixedLayout
