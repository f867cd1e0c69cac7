import FixedLayout.IntRepr
import FixedLayout.Text.Utf8

/-!
# Layouts

A layout says which bytes a type occupies. A leaf is an integer, a byte string of a fixed length, a
unit (whose bytes are one literal) or an enumeration (whose bytes are a discriminant). A composite
places its fields back to back without padding; an array repeats one element.

* `ModelClass`, `Literal`, `Enumeration`: what the leaves and composites refer to;
* `Layout`, `Fields`: layouts and the field lists of composites;
* `Layout.size`, `Layout.typeName`: the number of bytes, and the name used in messages;
* `Layout.slots`: the fields of a composite with their byte ranges;
* `Layout.accessors`, `Layout.accessor?`: the fields that can be reached by a name;
* `Layout.entryCount?`, `Layout.entry`: the entries that can be reached by an index.

Lengths are integers: a declaration may give a negative one, and every operation below follows the
same rules for it.
-/

namespace FixedLayout

/-- A model class: its name, the names of the classes it extends, whether it is positional, and its
fields in order. -/
structure ModelClass where
  name : String
  bases : List String
  positional : Bool
  fieldNames : List String
  deriving DecidableEq, Repr, Inhabited

/-- Whether instances of a class are instances of another one too. -/
def ModelClass.isSubclassOf (cls base : ModelClass) : Bool :=
  cls.name == base.name || cls.bases.contains base.name

@[simp] theorem ModelClass.isSubclassOf_self (cls : ModelClass) : cls.isSubclassOf cls = true := by
  unfold isSubclassOf
  rw [beq_self_eq_true, Bool.true_or]

/-- The content of a unit. A number fits its representation; it may have been given as the member of
an enumeration, whose names it then keeps. -/
inductive Literal
  | bytes (content : Bytes)
  | text (content : String)
  | char (content : Char)
  | number (repr : IntRepr) (value : { n : Int // repr.fits n = true })
      (label : Option (String × String))
  deriving DecidableEq, Repr

/-- The bytes of a literal. -/
def Literal.packed : Literal → Bytes
  | .bytes content => content
  | .text content => Utf8.encode content
  | .char content => String.utf8EncodeChar content
  | .number r value _ => r.toBytes value

/-- An enumeration with the representation of its discriminants. The variants are in the order of
declaration, one for each name and one for each discriminant. -/
structure Enumeration where
  name : String
  /-- Whether its members are integers themselves. -/
  integral : Bool
  repr : IntRepr
  variants : List (String × Int)
  names_nodup : (variants.map (·.1)).Nodup := by decide
  discriminants_nodup : (variants.map (·.2)).Nodup := by decide
  fits : ∀ v ∈ variants, repr.fits v.2 = true := by decide
  deriving DecidableEq, Repr

/-- The declared discriminants, in order. -/
def Enumeration.discriminants (e : Enumeration) : List Int := e.variants.map (·.2)

/-- The variant of a discriminant. -/
def Enumeration.variant? (e : Enumeration) (d : Int) : Option (String × Int) :=
  e.variants.find? (·.2 == d)

/-- The discriminant of a variant. -/
def Enumeration.discriminant? (e : Enumeration) (variant : String) : Option Int :=
  (e.variants.find? (·.1 == variant)).map (·.2)

/-- What a composite stands for: the fields of a model, or the entries of a tuple. -/
inductive Form
  | model (cls : ModelClass)
  | tuple
  deriving DecidableEq, Repr

/-- Whether the fields are entries, reached by their index and named by it in errors. -/
def Form.positional : Form → Bool
  | .model cls => cls.positional
  | .tuple => true

mutual

/-- The compiled form of a type. -/
inductive Layout
  | int (repr : IntRepr)
  | bytes (length : Int)
  | unit (cls : ModelClass) (literal : Literal)
  | enumeration (enum : Enumeration)
  | composite (form : Form) (fields : Fields)
  | array (element : Layout) (length : Int)

/-- The fields of a composite from left to right, each with its accessor unless that is
suppressed. -/
inductive Fields
  | nil
  | cons (name : String) (accessor : Option String) (layout : Layout) (rest : Fields)

end

instance : Inhabited Layout := ⟨.bytes 0⟩

mutual

/-- The number of bytes that a layout occupies. -/
def Layout.size : Layout → Int
  | .int r => r.width
  | .bytes length => length
  | .unit _ literal => literal.packed.length
  | .enumeration e => e.repr.width
  | .composite _ fields => fields.size
  | .array element length => element.size * length

/-- The number of bytes that the fields occupy together. -/
def Fields.size : Fields → Int
  | .nil => 0
  | .cons _ _ layout rest => layout.size + rest.size

end

mutual

/-- The name of a layout in messages. -/
def Layout.typeName : Layout → String
  | .int r => r.name
  | .bytes length => s!"bytes[{length}]"
  | .unit cls _ => cls.name
  | .enumeration e => e.name
  | .composite (.model cls) _ => cls.name
  | .composite .tuple fields => "tuple[" ++ ", ".intercalate fields.typeNames ++ "]"
  | .array element length => s!"{element.typeName}[{length}]"

/-- The names of the fields' layouts. -/
def Fields.typeNames : Fields → List String
  | .nil => []
  | .cons _ _ layout rest => layout.typeName :: rest.typeNames

end

/-- A field list from a list of names, accessors and layouts. -/
def Fields.ofList : List (String × Option String × Layout) → Fields
  | [] => .nil
  | (name, accessor, layout) :: rest => .cons name accessor layout (Fields.ofList rest)

/-- The names, accessors and layouts of the fields. -/
def Fields.toList : Fields → List (String × Option String × Layout)
  | .nil => []
  | .cons name accessor layout rest => (name, accessor, layout) :: rest.toList

@[simp] theorem Fields.toList_ofList (fs : List (String × Option String × Layout)) :
    (Fields.ofList fs).toList = fs := by
  induction fs with
  | nil => rfl
  | cons f fs ih => simp [Fields.ofList, Fields.toList, ih]

@[simp] theorem Fields.ofList_toList : ∀ fs : Fields, Fields.ofList fs.toList = fs
  | .nil => rfl
  | .cons _ _ _ rest => by simp [Fields.ofList, Fields.toList, Fields.ofList_toList rest]

/-- The number of fields. -/
def Fields.count : Fields → Nat
  | .nil => 0
  | .cons _ _ _ rest => rest.count + 1

/-- The names of the fields. -/
def Fields.names : Fields → List String
  | .nil => []
  | .cons name _ _ rest => name :: rest.names

@[simp] theorem Fields.length_toList : ∀ fs : Fields, fs.toList.length = fs.count
  | .nil => rfl
  | .cons _ _ _ rest => by simp [Fields.toList, Fields.count, Fields.length_toList rest]

@[simp] theorem Fields.length_names : ∀ fs : Fields, fs.names.length = fs.count
  | .nil => rfl
  | .cons _ _ _ rest => by simp [Fields.names, Fields.count, Fields.length_names rest]

/-- The part of a composite or array that one child occupies. -/
structure Slot where
  /-- The field's name, or the index as text. -/
  name : String
  index : Int
  /-- The offset of the first byte. -/
  start : Int
  /-- The offset after the last byte. -/
  stop : Int
  layout : Layout
  accessor : Option String

/-- The length of a slot's range. -/
def Slot.size (s : Slot) : Int := s.stop - s.start

/-- The slots of fields of which the first has the given index and offset: each starts where the one
before it ends. -/
def Fields.place : Fields → Nat → Int → List Slot
  | .nil, _, _ => []
  | .cons name accessor layout rest, index, start =>
    ⟨name, index, start, start + layout.size, layout, accessor⟩ ::
      rest.place (index + 1) (start + layout.size)

@[simp] theorem Fields.length_place :
    ∀ (fs : Fields) (index : Nat) (start : Int), (fs.place index start).length = fs.count
  | .nil, _, _ => rfl
  | .cons _ _ _ rest, _, _ => by simp [Fields.place, Fields.count, Fields.length_place rest]

/-- The slots have the names of the fields, in the same order. -/
theorem Fields.map_name_place :
    ∀ (fs : Fields) (index : Nat) (start : Int), (fs.place index start).map (·.name) = fs.names
  | .nil, _, _ => rfl
  | .cons _ _ _ rest, _, _ => by simp [Fields.place, Fields.names, Fields.map_name_place rest]

/-- The slots of a composite. -/
def Fields.slots (fs : Fields) : List Slot := fs.place 0 0

namespace Layout

/-- The slots of a composite; no other layout has any. -/
def slots : Layout → List Slot
  | .composite _ fields => fields.slots
  | _ => []

/-- The names by which fields can be reached, in field order. -/
def accessors (l : Layout) : List String := l.slots.filterMap (·.accessor)

/-- The field that a name reaches. -/
def accessor? (l : Layout) (name : String) : Option Slot :=
  l.slots.find? (·.accessor == some name)

/-- The number of entries of a layout with positional entries. -/
def entryCount? : Layout → Option Int
  | .array _ length => some length
  | .composite form fields => if form.positional then some fields.count else none
  | _ => none

/-- Why no entry is reached by an index. -/
inductive EntryFault
  | noEntries (typeName : String)
  | outsideTuple
  | outsideArray (typeName : String) (index : Int)
  deriving DecidableEq, Repr

/-- The slot of an array's element. -/
def elementSlot (element : Layout) (index : Int) : Slot :=
  let start := index * element.size
  ⟨toString index, index, start, start + element.size, element, none⟩

/-- The entry that an index reaches; a negative index counts from the end. An index that an array
does not have is reported as it is after counting from the end. -/
def entry : Layout → Int → Except EntryFault Slot
  | .array element length, i =>
    let i := if i < 0 then i + length else i
    if 0 ≤ i ∧ i < length then .ok (elementSlot element i)
    else .error (.outsideArray s!"{element.typeName}[{length}]" i)
  | .composite form fields, i =>
    if form.positional then
      let i := if i < 0 then i + fields.count else i
      if i < 0 then .error .outsideTuple
      else
        match fields.slots[i.toNat]? with
        | some slot => .ok slot
        | none => .error .outsideTuple
    else .error (.noEntries (Layout.composite form fields).typeName)
  | l, _ => .error (.noEntries l.typeName)

end Layout

end FixedLayout
