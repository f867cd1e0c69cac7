import FixedLayout.Fault

/-!
# Whole byte strings

The entry points that take or give the bytes of a value as a whole. Bytes are accepted only if there
are exactly as many as the layout says; only then are they checked.

* `Layout.accept`: whether bytes are of the right number and an encoding of a layout;
* `Layout.pack`: the bytes of a value;
* `Layout.packInto`: a buffer with the bytes of a value at an offset;
* `Layout.unpack`: the value of bytes that need not have been checked;
* `Catalog.encode`, `Catalog.check`, `Catalog.decode`: the same for a type.
-/

namespace FixedLayout

namespace Layout

/-- Whether bytes are of the right number and an encoding of a layout. -/
def accept (l : Layout) (data : Bytes) : Except CheckFault Unit :=
  if (data.length : Int) = l.size then l.check data
  else .error (.rejected (.of l.typeName (.size l.size data.length)))

/-- The bytes of a value. -/
def pack (l : Layout) (v : Value) : Except EncodeFault Bytes :=
  if l.size < 0 then .error .misfit
  else
    let (r, region) := l.encode v (Bytes.zeros l.size.toNat)
    r.map fun _ => region

/-- Writes the bytes of a value at an offset of a buffer, and gives the offset after them. What was
written before a failure stays. -/
def packInto (l : Layout) (v : Value) (offset : Int) (buffer : Bytes) :
    Except EncodeFault Int × Bytes :=
  let stop := offset + l.size
  if offset < 0 ∨ (buffer.length : Int) < stop then
    (.error (.rejected (.noRoom l.typeName l.size offset buffer.length)), buffer)
  else
    let (r, buffer) := Writer.within offset stop (l.encode v) buffer
    (r.map fun _ => stop, buffer)

/-- The value of bytes. -/
def unpack (l : Layout) (data : Bytes) : Except Fault Value :=
  (l.decode data).mapError DecodeFault.toFault

end Layout

namespace Catalog

/-- The layout of a type when nothing has been compiled before. -/
def resolve (c : Catalog) (t : TypeExpr) : Except Fault Layout :=
  (c.layoutOf t).mapError SchemaFault.toFault

/-- The bytes of a value, whose type is its own if none is given. -/
def encode (c : Catalog) (v : Value) (t : Option TypeExpr) : Except Fault Bytes := do
  let type ← (inferType v t).mapError Fault.schema
  let layout ← c.resolve type
  (layout.pack v).mapError EncodeFault.toFault

/-- Whether bytes are an encoding of a type. -/
def check (c : Catalog) (t : TypeExpr) (data : Bytes) : Except Fault Unit := do
  let layout ← c.resolve t
  (layout.accept data).mapError CheckFault.toFault

/-- The value that bytes encode. -/
def decode (c : Catalog) (t : TypeExpr) (data : Bytes) : Except Fault Value := do
  let layout ← c.resolve t
  (layout.accept data).mapError CheckFault.toFault
  layout.unpack data

end Catalog

end FixedLayout
