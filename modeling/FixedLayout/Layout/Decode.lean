import FixedLayout.Value.Display

/-!
# Decoding bytes

`Layout.decode` rebuilds the value of bytes. On bytes that passed their check it succeeds; on others
it fails only where an enumeration has no variant for a discriminant. The bytes of a unit are not
looked at.

* `DecodeError`: a discriminant without a variant;
* `decodeRun`: the elements of an array;
* `Layout.decode`, `Fields.decode`: layouts and the fields of composites;
* `Form.build`: a composite's value from the values of its fields.
-/

namespace FixedLayout

/-- A discriminant that an enumeration does not declare. -/
structure DecodeError where
  typeName : String
  found : Int
  deriving DecidableEq, Repr

/-- The error in words. -/
def DecodeError.message (e : DecodeError) : String :=
  s!"{e.typeName}: invalid discriminant {e.found} (bytes were not validated)"

/-- Why bytes could not be decoded: a discriminant is unknown, or a byte to be read was not
there. -/
inductive DecodeFault
  | unknown (error : DecodeError)
  | noByte
  deriving DecidableEq, Repr

/-- The member that an enumeration's bytes stand for. -/
def Enumeration.decode (e : Enumeration) (data : Bytes) : Except DecodeFault Value :=
  match e.repr.read data with
  | none => .error .noByte
  | some found =>
    match e.variant? found with
    | some (name, d) => .ok (.member e.name name e.integral (.int d))
    | none => .error (.unknown ⟨e.name, found⟩)

/-- The values of `n` elements of a given size from an index on. -/
def decodeRun (decode : Bytes → Except DecodeFault Value) (size : Int) (data : Bytes) :
    Nat → Nat → Except DecodeFault (List Value)
  | _, 0 => .ok []
  | index, n + 1 => do
    let v ← decode (Bytes.slice data (index * size) ((index + 1) * size))
    let rest ← decodeRun decode size data (index + 1) n
    return v :: rest

/-- There are as many values as elements. -/
theorem length_of_decodeRun {decode : Bytes → Except DecodeFault Value} {size : Int} {data : Bytes}
    {index n : Nat} {vs : List Value} (h : decodeRun decode size data index n = .ok vs) :
    vs.length = n := by
  induction n generalizing index vs with
  | zero => cases h; rfl
  | succ n ih =>
    simp only [decodeRun, bind, Except.bind, pure, Except.pure] at h
    split at h
    · cases h
    · split at h
      · cases h
      · next rest hrest => cases h; simp [ih hrest]

/-- The value of a composite from the names and values of its fields. -/
def Form.build : Form → List (String × Value) → Value
  | .model cls, fields => .record cls fields
  | .tuple, fields => .tuple (fields.map (·.2))

mutual

/-- The value that bytes encode. -/
def Layout.decode : Layout → Bytes → Except DecodeFault Value
  | .int r, data =>
    match r.read data with
    | some v => .ok (.int v)
    | none => .error .noByte
  | .bytes _, data => .ok (.bytes data)
  | .unit cls _, _ => .ok (.record cls [])
  | .enumeration e, data => e.decode data
  | .composite form fields, data => do
    let values ← fields.decode 0 data
    return form.build values
  | .array element length, data => do
    let items ← decodeRun element.decode element.size data 0 length.toNat
    return .list items

/-- The names and values of the fields from a given offset on. -/
def Fields.decode : Fields → Int → Bytes → Except DecodeFault (List (String × Value))
  | .nil, _, _ => .ok []
  | .cons name _ layout rest, start, data => do
    let v ← layout.decode (Bytes.slice data start (start + layout.size))
    let values ← rest.decode (start + layout.size) data
    return (name, v) :: values

end

end FixedLayout
