import FixedLayout.Workspace.Session

/-!
# Encoding and decoding objects

* `Session.encode`, `Session.encodeInto`: the bytes of an object, on their own or in a buffer;
* `Session.check`, `Session.decode`: bytes checked, and rebuilt as an object;
* `Session.view`, `Session.unchecked`, `Session.packet`, `Session.pack`: bytes kept together with
  their layout;
* `Session.layoutForSize`, `Session.fieldSlots`: the layout and the slots of a type or of the class
  of a value;
* `Session.encodedSize`, `Session.fieldSizes`, `Session.fieldOffsets`: sizes and places;
* `Session.options`, `Session.enumLayout`, `Session.unitLayout`: options and leaves on their own.
-/

namespace FixedLayout

namespace Session

/-! ### Writing -/

/-- The layout of an object whose type is its own if none is given. -/
def layoutFor (v : Value) (t : Option TypeExpr) : Session Layout := do
  let type ← lift Fault.schema (inferType v t)
  compile type

/-- The bytes of an object. -/
def encode (o : Object) (t : Option TypeExpr) : Session Bytes := do
  let v ← value o
  let layout ← layoutFor v t
  lift EncodeFault.toFault (layout.pack v)

/-- The packet of an object. -/
def pack (o : Object) (t : Option TypeExpr) : Session Object := do
  let v ← value o
  let layout ← layoutFor v t
  let content ← lift EncodeFault.toFault (layout.pack v)
  return .plain (.packet layout content)

/-- The part of memory that a writable object lends; immutable bytes are rejected. -/
def writableWindow (typeName : String) (o : Object) : Session Window := do
  match o with
  | .plain (.bytes _) => throw (.encode (.readOnly typeName))
  | o => windowOf o

/-- Writes the bytes of an object at an offset of a buffer, and gives the offset after them. -/
def encodeInto (o buffer : Object) (t : Option TypeExpr) (offset : Int) : Session Int := do
  let v ← value o
  let layout ← layoutFor v t
  let window ← writableWindow layout.typeName buffer
  let (r, content) := layout.packInto v offset (← read window)
  modify fun w => { w with store := w.store.write window content }
  lift EncodeFault.toFault r

/-! ### Reading -/

/-- A view of a bytes-like object that need not hold an encoding of the type. -/
def unchecked (t : TypeExpr) (data : Object) : Session Object := do
  let layout ← compile t
  let window ← windowOf data
  return .view (← onStore (Store.newView layout window))

/-- A layout together with the bytes of a bytes-like object that encode a value of it. -/
def accepted (t : TypeExpr) (data : Object) : Session (Layout × Window) := do
  let layout ← compile t
  let window ← windowOf data
  lift CheckFault.toFault (layout.accept (← read window))
  return (layout, window)

/-- Whether a bytes-like object holds an encoding of the type. -/
def check (t : TypeExpr) (data : Object) : Session Unit := discard (accepted t data)

/-- A view of a bytes-like object that holds an encoding of the type. -/
def view (t : TypeExpr) (data : Object) : Session Object := do
  let (layout, window) ← accepted t data
  return .view (← onStore (Store.newView layout window))

/-- A packet of the bytes of a bytes-like object that holds an encoding of the type. -/
def packet (t : TypeExpr) (data : Object) : Session Object := do
  let (layout, window) ← accepted t data
  return .plain (.packet layout (← read window))

/-- The value of bytes as a new object. -/
def unpackBytes (layout : Layout) (content : Bytes) : Session Object := do
  let v ← lift id (layout.unpack content)
  place v

/-- The value that a bytes-like object encodes. -/
def decode (t : TypeExpr) (data : Object) : Session Object := do
  let (layout, window) ← accepted t data
  unpackBytes layout (← read window)

/-- Checks bytes of any number by the layout of a type. -/
def layoutCheck (t : TypeExpr) (data : Object) : Session Unit := do
  let layout ← compile t
  let window ← windowOf data
  lift CheckFault.toFault (layout.check (← read window))

/-- Decodes bytes of any number by the layout of a type. -/
def layoutDecode (t : TypeExpr) (data : Object) : Session Object := do
  let layout ← compile t
  let window ← windowOf data
  unpackBytes layout (← read window)

/-! ### Sizes -/

/-- The type whose size is asked for: an instance or member stands for its class. -/
def sizedType : TypeExpr → TypeExpr
  | .literal (.record cls _) => .named cls.name
  | .literal (.member enum _ _ _) => .named enum
  | t => t

/-- The layout of a type, or of the class of an instance or member given in place of a type. -/
def layoutForSize (t : TypeExpr) : Session Layout := compile (sizedType t)

/-- The slots of the fields of a composite. -/
def fieldSlots (t : TypeExpr) : Session (List Slot) := do
  match ← layoutForSize t with
  | .composite form fields => return (Layout.composite form fields).slots
  | layout => throw (.schema (.notComposite layout.typeName))

/-- The number of bytes that a type occupies. -/
def encodedSize (t : TypeExpr) : Session Int := do return (← layoutForSize t).size

/-- The number of bytes of each field of a composite, by name. -/
def fieldSizes (t : TypeExpr) : Session (List (String × Int)) := do
  return (← fieldSlots t).map fun slot => (slot.name, slot.size)

/-- The offsets of the first byte of each field of a composite and after its last one, by name. -/
def fieldOffsets (t : TypeExpr) : Session (List (String × Int × Int)) := do
  return (← fieldSlots t).map fun slot => (slot.name, slot.start, slot.stop)

/-! ### Options and layouts of their own -/

/-- Options from named values. -/
def options (given : List (String × Value)) : Session Options := do
  match Options.ofNamed? given with
  | some r => lift (fun fault => fault.toSchemaFault.toFault) r
  | none => throw .unsuitable

/-- The layout of an enumeration whose discriminants have a given width. -/
def enumLayout (name : String) (repr : Value) : Session Layout := do
  match (← get).catalog.enum? name with
  | some e => return .enumeration (← lift SchemaFault.toFault (Enumeration.ofDef e repr))
  | none => throw .unsuitable

/-- The layout of a unit of a given content. -/
def unitLayout (name : String) (content repr : Value) : Session Layout := do
  let literal ← lift SchemaFault.toFault (Literal.ofValues name content repr)
  return .unit ⟨name, [], false, []⟩ literal

end Session

end FixedLayout
