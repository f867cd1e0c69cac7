import FixedLayout.PackError

/-!
# Checking bytes

`Layout.check` says whether bytes are an encoding of a type. It goes from left to right and stops at
the first leaf that fails; every enclosing composite adds its frame to the error.

* `Literal.check`, `Enumeration.check`: the leaves that can fail;
* `checkRun`: an element checked at the offsets of an array;
* `Layout.check`, `Fields.check`: layouts and the fields of composites.

A slice that is shorter than its layout, which only bytes of a wrong size lead to, is read as it is;
an unsigned byte cannot be read from an empty slice.
-/

namespace FixedLayout

/-- Why a check failed: the bytes are rejected, or a byte to be read was not there. -/
inductive CheckFault
  | rejected (error : PackError)
  | noByte

/-- The fault inside one more frame. -/
def CheckFault.within : CheckFault → Frame → CheckFault
  | .rejected e, frame => .rejected (e.within frame)
  | .noByte, _ => .noByte

/-- The outcome of a check inside one more frame. -/
def inFrame (frame : Frame) (r : Except CheckFault Unit) : Except CheckFault Unit :=
  r.mapError (·.within frame)

@[simp] theorem inFrame_ok (frame : Frame) : inFrame frame (.ok ()) = .ok () := rfl

@[simp] theorem inFrame_error (frame : Frame) (fault : CheckFault) :
    inFrame frame (.error fault) = .error (fault.within frame) := rfl

/-- Whether bytes are the literal. A number is compared after it has been read, a character by the
first character of the decoded text. -/
def Literal.check (typeName : String) (literal : Literal) (data : Bytes) : Except CheckFault Unit :=
  match literal with
  | .number r value _ =>
    match r.read data with
    | none => .error .noByte
    | some received =>
      (PackError.ensure typeName (received == value.1) s!"int == {value.1}"
        s!"Invalid packed integer, expected {value.1} but received {received}").mapError .rejected
  | .char c =>
    let shown := Text.quote (String.ofList [c])
    match Utf8.decode data with
    | .error e =>
      .error (.rejected ((PackError.of typeName (.custom (.ofUtf8 e))).within
        (.note typeName "Failed to parse valid utf8 char from the slice")))
    | .ok received =>
      (PackError.ensure typeName (received.take 1 == [c]) s!"char == {shown}"
        (s!"Invalid UTF8 encoded char, expected {shown} but received " ++
          Text.quote (String.ofList received))).mapError .rejected
  | .text s =>
    let shown := Text.quote s
    (PackError.ensure typeName (data == Utf8.encode s) s!"data == {shown}.encode()"
      (s!"Invalid string, expected {shown} but received " ++
        Text.quote (Utf8.decodeLossy data))).mapError .rejected
  | .bytes content =>
    let shown := Text.quoteBytes content
    (PackError.ensure typeName (data == content) s!"data == {shown}"
      (s!"Invalid byte string, expected {shown} but received " ++
        Text.quoteBytes data)).mapError .rejected

/-- Whether bytes are a declared discriminant. -/
def Enumeration.check (e : Enumeration) (data : Bytes) : Except CheckFault Unit :=
  match e.repr.read data with
  | none => .error .noByte
  | some found =>
    match e.variant? found with
    | some _ => .ok ()
    | none => .error (.rejected (.of e.name (.discriminant (.int found) e.discriminants)))

/-- Checks `n` elements of a given size from an index on, each on its own slice. -/
def checkRun (check : Bytes → Except CheckFault Unit) (frame : Int → Frame) (size : Int)
    (data : Bytes) : Nat → Nat → Except CheckFault Unit
  | _, 0 => .ok ()
  | index, n + 1 => do
    inFrame (frame index) (check (Bytes.slice data (index * size) ((index + 1) * size)))
    checkRun check frame size data (index + 1) n

/-- The frame that a composite adds for a field: named fields by name, entries by index. -/
def Form.frame (form : Form) (typeName name : String) (index : Nat) : Frame :=
  if form.positional then .entry typeName index else .field typeName name

mutual

/-- Whether bytes are an encoding of a layout. -/
def Layout.check : Layout → Bytes → Except CheckFault Unit
  | .int _, _ => .ok ()
  | .bytes _, _ => .ok ()
  | .unit cls literal, data => literal.check cls.name data
  | .enumeration e, data => e.check data
  | .composite form fields, data =>
    fields.check (form.frame (Layout.composite form fields).typeName) 0 0 data
  | .array element length, data =>
    checkRun element.check (.entry (Layout.array element length).typeName) element.size data 0
      length.toNat

/-- Whether bytes are an encoding of the fields from a given index and offset on. -/
def Fields.check (frame : String → Nat → Frame) :
    Fields → Nat → Int → Bytes → Except CheckFault Unit
  | .nil, _, _, _ => .ok ()
  | .cons name _ layout rest, index, start, data => do
    inFrame (frame name index) (layout.check (Bytes.slice data start (start + layout.size)))
    rest.check frame (index + 1) (start + layout.size) data

end

end FixedLayout
