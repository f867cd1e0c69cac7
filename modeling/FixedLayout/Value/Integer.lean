import FixedLayout.Fault

/-!
# Integers given as values

The operations of an integer representation on values of any kind.

* `IntRepr.fitsValue`: whether a number lies between the bounds;
* `IntRepr.toBytesValue`, `IntRepr.fromBytesValue`: an integer as bytes, and bytes as an integer;
* `Value.fill`: the bytes of a value that has to fill a region.
-/

namespace FixedLayout

namespace IntRepr

/-- Whether a number lies between the bounds. -/
def fitsValue (r : IntRepr) (v : Value) : Except Fault Bool :=
  match v.integerOrBool? with
  | some n => .ok (r.fits n)
  | none =>
    match v with
    | .float x =>
      match x.magnitude? with
      | some m => .ok (!m.lt (.ratio r.minValue 1) && !(Binary64.Magnitude.ratio r.maxValue 1).lt m)
      | none => .ok false
    | _ => .error .unsuitable

/-- The bytes of an integer that fits. -/
def toBytesValue (r : IntRepr) (v : Value) : Except Fault Bytes :=
  match v.integerOrBool? with
  | some n =>
    match r.toBytes? n with
    | some content => .ok content
    | none => .error .overflow
  | none => .error .noAttribute

/-- The bytes that the items of a value are. -/
def itemBytes : List Value → Except Fault Bytes
  | [] => .ok []
  | v :: rest =>
    match v.integerOrBool? with
    | none => .error .unsuitable
    | some n =>
      if 0 ≤ n ∧ n < 256 then (itemBytes rest).map (UInt8.ofNat n.toNat :: ·)
      else .error .unfitContent

/-- The bytes of a bytes-like value, a view or a packet, or of a collection of integers. -/
def bytesOfValue (v : Value) : Except Fault Bytes :=
  match v with
  | .text _ => .error .unsuitable
  | .view layout none => .error (.released layout.typeName)
  | v =>
    match v.rawBytes? with
    | some content => .ok content
    | none => (v.items.mapError SequenceFault.toFault).bind itemBytes

/-- The first item of a value. -/
def firstItem (v : Value) : Except Fault Value :=
  match v with
  | .list (first :: _) | .tuple (first :: _) => .ok first
  | .list [] | .tuple [] => .error .noEntry
  | .dict _ => .error .noKey
  | .bytes _ | .bytearray _ | .memory _ | .text _ =>
    match v.items with
    | .ok (first :: _) => .ok first
    | .ok [] => .error .noEntry
    | .error fault => .error fault.toFault
  | _ => .error .unsuitable

/-- The integer that a value stands for as bytes. An unsigned byte is the first item. -/
def fromBytesValue (r : IntRepr) (v : Value) : Except Fault Value :=
  if r.width = 1 ∧ r.signed = false then firstItem v
  else (bytesOfValue v).map fun content => .int (r.fromBytes content)

end IntRepr

/-- The bytes of a value that has to fill a region of a given length: a window counts its items,
which have to be bytes. -/
def Value.fill (v : Value) (length : Nat) : Except Fault Bytes :=
  match v.extent with
  | .unsized => .error .unsuitable
  | .fault fault => .error fault.toFault
  | .count n =>
    if n ≠ length then .error (.byteCount length n)
    else
      match v with
      | .memory window =>
        if window.format = .byte ∧ window.rows.isNone then .ok window.bytes
        else .error .unfitContent
      | v =>
        match v.flatBytes? with
        | some content => .ok content
        | none => .error .unsuitable

end FixedLayout
