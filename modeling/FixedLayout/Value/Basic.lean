import FixedLayout.Binary64
import FixedLayout.Layout.Basic

/-!
# Values

Values are dynamic: every operation takes any value and says what is wrong with one that it cannot
use.

* `Memory`: a window on memory, seen as items of some format;
* `Value`: plain data, byte strings, enumeration members, model instances, views and packets;
* `Value.kind`: the name of a value's type in messages;
* `Value.integer?`: the integer that a value is, booleans apart;
* `Value.flatBytes?`: the bytes of a bytes-like value.
-/

namespace FixedLayout

/-- How the bytes of a window are read as items, in little-endian order. -/
inductive ItemFormat
  | byte
  | signedByte
  | char
  | half
  | word
  deriving DecidableEq, Repr

/-- The number of bytes of an item. -/
def ItemFormat.width : ItemFormat → Nat
  | .half => 2
  | .word => 4
  | _ => 1

/-- A window on memory: its bytes in order, the format of its items, and the number of rows if it
has two dimensions. -/
structure Memory where
  bytes : Bytes
  format : ItemFormat
  rows : Option Nat
  deriving DecidableEq, Repr

/-- A value. -/
inductive Value
  | null
  | bool (b : Bool)
  | int (n : Int)
  | float (x : Binary64)
  | text (s : String)
  | list (items : List Value)
  | tuple (items : List Value)
  | dict (items : List (Value × Value))
  | bytes (content : Bytes)
  | bytearray (content : Bytes)
  | memory (window : Memory)
  /-- A member of an enumeration. An integral member is an integer too. -/
  | member (enum name : String) (integral : Bool) (payload : Value)
  /-- An instance of a model with those of its fields that are present. -/
  | record (cls : ModelClass) (fields : List (String × Value))
  /-- A view; a released one has no bytes. -/
  | view (layout : Layout) (content : Option Bytes)
  | packet (layout : Layout) (content : Bytes)

instance : Inhabited Value := ⟨.null⟩

namespace Value

/-- The name of a value's type. -/
def kind : Value → String
  | .null => "NoneType"
  | .bool _ => "bool"
  | .int _ => "int"
  | .float _ => "float"
  | .text _ => "str"
  | .list _ => "list"
  | .tuple _ => "tuple"
  | .dict _ => "dict"
  | .bytes _ => "bytes"
  | .bytearray _ => "bytearray"
  | .memory _ => "memoryview"
  | .member enum _ _ _ => enum
  | .record cls _ => cls.name
  | .view _ _ => "View"
  | .packet _ _ => "Packet"

/-- The integer that a value is: an integer or an integral member, but no boolean. -/
def integer? : Value → Option Int
  | .int n => some n
  | .member _ _ true (.int n) => some n
  | _ => none

/-- The integer that a value can stand for, where a boolean counts as zero or one. -/
def integerOrBool? : Value → Option Int
  | .bool b => some (if b then 1 else 0)
  | v => v.integer?

/-- The bytes of a bytes-like value. -/
def flatBytes? : Value → Option Bytes
  | .bytes content => some content
  | .bytearray content => some content
  | .memory window => some window.bytes
  | _ => none

/-- The field of an instance. -/
def field? : Value → String → Option Value
  | .record _ fields, name => (fields.find? (·.1 == name)).map (·.2)
  | _, _ => none

end Value

namespace Memory

/-- The items of a one-dimensional window. -/
def chunks (width : Nat) : Nat → Bytes → List Bytes
  | 0, _ => []
  | n + 1, b => b.take width :: chunks width n (b.drop width)

/-- The number of items, or of rows if there are two dimensions. -/
def length (m : Memory) : Nat :=
  match m.rows with
  | some rows => rows
  | none => m.bytes.length / m.format.width

/-- An item as a value: characters are byte strings, all other items integers. -/
def itemValue : ItemFormat → Bytes → Value
  | .char, b => .bytes b
  | .signedByte, b => .int (IntRepr.i8.fromBytes b)
  | _, b => .int (IntRepr.ofDigits b)

/-- The items of a window of one dimension. -/
def items (m : Memory) : List Value :=
  (chunks m.format.width m.length m.bytes).map (itemValue m.format)

end Memory

end FixedLayout
