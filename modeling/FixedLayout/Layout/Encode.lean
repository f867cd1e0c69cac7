import FixedLayout.Value.Sequence

/-!
# Encoding values

`Layout.encode` writes a value into a region of exactly the layout's size, from left to right. A
value that has no packed form is rejected at the first node that cannot take it; what was written
before stays.

* `EncodeError`: why a value is rejected, with the fields and elements around the node;
* `EncodeFault`: the ways in which encoding can end without success;
* `Writer`, `Writer.put`, `Writer.within`: writing a region, filling it, writing a part of it;
* `Form.split`: the values of a composite's fields;
* `Layout.encode`, `Fields.encode`: layouts and the fields of composites.
-/

namespace FixedLayout

/-- Why a value has no packed form. -/
inductive EncodeError
  | mismatch (typeName expected got : String)
  | outOfBounds (repr : IntRepr) (value : Int)
  | byteCount (typeName : String) (expected got : Nat)
  | missingField (typeName className field : String)
  | entryCount (typeName : String) (expected got : Nat)
  | elementCount (typeName : String) (expected : Int) (got : Nat)
  | readOnly (typeName : String)
  | noRoom (typeName : String) (size offset : Int) (room : Nat)
  | inField (field typeName : String) (cause : EncodeError)
  | inElement (index : Nat) (typeName : String) (cause : EncodeError)
  deriving DecidableEq, Repr

/-- The error in words, the outermost node first. -/
def EncodeError.message : EncodeError → String
  | .mismatch typeName expected got => s!"{typeName}: expected {expected}, got {got}"
  | .outOfBounds r value =>
    s!"{r.name}: value {value} out of bounds [{r.minValue}, {r.maxValue}]"
  | .byteCount typeName expected got => s!"{typeName}: expected {expected} bytes, got {got} bytes"
  | .missingField typeName className field =>
    s!"{typeName}: '{className}' object has no attribute '{field}'"
  | .entryCount typeName expected got => s!"{typeName}: expected {expected} entries, got {got}"
  | .elementCount typeName expected got => s!"{typeName}: expected {expected} elements, got {got}"
  | .readOnly typeName => s!"{typeName}: buffer is read-only"
  | .noRoom typeName size offset room =>
    s!"{typeName}: needs {size} bytes at offset {offset}, buffer holds {room} bytes"
  | .inField field typeName cause => s!"Field {field} of {typeName}: " ++ cause.message
  | .inElement index typeName cause => s!"Element {index} of {typeName}: " ++ cause.message

/-- How encoding can fail: the value is rejected, it cannot be gone through, or bytes do not fit
into the region that a layout leaves for them. -/
inductive EncodeFault
  | rejected (error : EncodeError)
  | sequence (fault : SequenceFault)
  | misfit
  deriving DecidableEq, Repr

/-- A rejection inside one more node. -/
def EncodeFault.wrap (node : EncodeError → EncodeError) : EncodeFault → EncodeFault
  | .rejected e => .rejected (node e)
  | fault => fault

/-- An action that writes a region of bytes and may fail midway. -/
abbrev Writer := ExceptT EncodeFault (StateM Bytes) Unit

namespace Writer

/-- A writer as a function from the region before to its outcome and the region after. -/
def ofFn (f : Bytes → Except EncodeFault Unit × Bytes) : Writer := f

/-- Writes nothing and succeeds. -/
def done : Writer := ofFn fun region => (.ok (), region)

/-- Writes nothing and fails. -/
def fail (fault : EncodeFault) : Writer := ofFn fun region => (.error fault, region)

/-- Writes nothing and rejects the value. -/
def reject (e : EncodeError) : Writer := fail (.rejected e)

/-- Fills the whole region, which must have as many bytes. -/
def put (content : Bytes) : Writer := ofFn fun region =>
  if region.length = content.length then (.ok (), content) else (.error .misfit, region)

/-- A region of the right length is filled. -/
theorem put_apply {content region : Bytes} (h : region.length = content.length) :
    put content region = (.ok (), content) := by
  simp [put, ofFn, h]

/-- Writes the part of the region between two bounds. -/
def within (lo hi : Int) (w : Writer) : Writer := ofFn fun region =>
  let (r, piece) := w (Bytes.slice region lo hi)
  (r, Bytes.overwrite region (Bytes.bound region.length lo) piece)

/-- One writer after another, unless the first one fails. -/
def andThen (w next : Writer) : Writer := ofFn fun region =>
  match w region with
  | (.ok (), region) => next region
  | (.error fault, region) => (.error fault, region)

@[simp] theorem done_andThen (w : Writer) : done.andThen w = w := rfl

@[simp] theorem fail_andThen (fault : EncodeFault) (w : Writer) :
    (fail fault).andThen w = fail fault := rfl

/-- A writer whose rejections lie inside one more node. -/
def wrap (node : EncodeError → EncodeError) (w : Writer) : Writer := ofFn fun region =>
  let (r, region) := w region
  (r.mapError (·.wrap node), region)

end Writer

/-- Writes an integer. -/
def IntRepr.encode (r : IntRepr) (v : Value) : Writer :=
  match v.integer? with
  | none => .reject (.mismatch r.name "int" v.kind)
  | some n => if r.fits n then .put (r.toBytes n) else .reject (.outOfBounds r n)

/-- Writes a bytes-like value that fills the region. -/
def encodeBytes (typeName : String) (v : Value) : Writer :=
  match v.flatBytes? with
  | none => .reject (.mismatch typeName "bytes" v.kind)
  | some content => .ofFn fun region =>
    if content.length = region.length then (.ok (), content)
    else (.error (.rejected (.byteCount typeName region.length content.length)), region)

/-- Writes the discriminant of a member. -/
def Enumeration.encode (e : Enumeration) (v : Value) : Writer :=
  let rejected : Writer := .reject (.mismatch e.name e.name v.kind)
  match v with
  | .member enum name _ _ =>
    if enum = e.name then
      match e.discriminant? name with
      | some d => .put (e.repr.toBytes d)
      | none => rejected
    else rejected
  | _ => rejected

/-- The values of the named fields of an instance, or the first name that is missing. -/
def lookupFields (v : Value) : List String → Except String (List Value)
  | [] => .ok []
  | name :: rest =>
    match v.field? name with
    | none => .error name
    | some field => (lookupFields v rest).map (field :: ·)

/-- The values of a composite's fields: those of an instance of its class or of a class that extends
it, or the entries of a tuple or list of the right length. -/
def Form.split (form : Form) (typeName : String) (names : List String) (v : Value) :
    Except EncodeError (List Value) :=
  match form with
  | .model cls =>
    match v with
    | .record valueClass _ =>
      if valueClass.isSubclassOf cls then
        (lookupFields v names).mapError (.missingField typeName valueClass.name)
      else .error (.mismatch typeName cls.name v.kind)
    | _ => .error (.mismatch typeName cls.name v.kind)
  | .tuple =>
    match v with
    | .tuple items | .list items =>
      if items.length = names.length then .ok items
      else .error (.entryCount typeName names.length items.length)
    | _ => .error (.mismatch typeName "tuple" v.kind)

/-- The elements that an array takes from a value: any value with a length will do, texts and byte
strings apart, as long as the length is right. -/
def arrayElements (typeName : String) (length : Int) (v : Value) :
    Except EncodeFault (List Value) :=
  let unsuitable := Except.error (.rejected (.mismatch typeName "a sequence" v.kind))
  match v with
  | .text _ | .bytes _ | .bytearray _ => unsuitable
  | _ =>
    match v.extent with
    | .unsized => unsuitable
    | .fault fault => .error (.sequence fault)
    | .count n =>
      if (n : Int) ≠ length then .error (.rejected (.elementCount typeName length n))
      else
        match v.items with
        | .ok items => .ok items
        | .error fault => .error (.sequence fault)

/-- Writes values one after another as the elements of an array from an index on. -/
def encodeRun (encode : Value → Writer) (typeName : String) (size : Int) :
    Nat → List Value → Writer
  | _, [] => .done
  | index, v :: rest =>
    (Writer.wrap (.inElement index typeName)
        (.within (index * size) ((index + 1) * size) (encode v))).andThen
      (encodeRun encode typeName size (index + 1) rest)

mutual

/-- Writes a value in the form of a layout. -/
def Layout.encode : Layout → Value → Writer
  | .int r, v => r.encode v
  | .bytes length, v => encodeBytes (Layout.bytes length).typeName v
  | .unit _ literal, _ => .put literal.packed
  | .enumeration e, v => e.encode v
  | .composite form fields, v =>
    let typeName := (Layout.composite form fields).typeName
    match form.split typeName fields.names v with
    | .error e => .reject e
    | .ok values => fields.encode typeName 0 values
  | .array element length, v =>
    let typeName := (Layout.array element length).typeName
    match arrayElements typeName length v with
    | .error fault => .fail fault
    | .ok items => encodeRun element.encode typeName element.size 0 (items.take length.toNat)

/-- Writes values as the fields from a given offset on. -/
def Fields.encode (typeName : String) : Fields → Int → List Value → Writer
  | .cons name _ layout rest, start, v :: values =>
    (Writer.wrap (.inField name typeName)
        (.within start (start + layout.size) (layout.encode v))).andThen
      (rest.encode typeName (start + layout.size) values)
  | _, _, _ => .done

end

end FixedLayout
