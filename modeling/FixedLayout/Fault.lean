import FixedLayout.Layout.Check
import FixedLayout.Layout.Decode
import FixedLayout.Layout.Encode
import FixedLayout.Model.Instance
import FixedLayout.Value.Order

/-!
# Faults

`Fault` gathers the ways in which an operation on values, buffers and views can fail, whatever part
of the library the failure comes from.

* `Fault`: the causes;
* `Fault.message`: the cause in words, for those that have some;
* `CheckFault.toFault`, `EncodeFault.toFault`, …: the failures of single parts as faults.
-/

namespace FixedLayout

/-- Why an operation fails. -/
inductive Fault
  | pack (error : PackError)
  | schema (error : SchemaError)
  | encode (error : EncodeError)
  | decode (error : DecodeError)
  /-- Arguments or an assigned value that a model does not accept. -/
  | invalid (title : String) (issues : List Issue)
  /-- A name that is bound to nothing. -/
  | unbound (name : String)
  | released (typeName : String)
  | noAccessor (typeName accessor : String)
  /-- A name with a leading underscore that is no attribute. -/
  | hiddenName (name : String)
  | noEntries (typeName : String)
  | outsideArray (typeName index : String)
  | tooManyArguments (className : String) (count given : Nat)
  | repeatedArgument (className name : String)
  | byteCount (expected got : Nat)
  /-- A value of a kind that the operation cannot take. -/
  | unsuitable
  /-- A value of the right kind whose content the operation cannot take. -/
  | unfitContent
  | noAttribute
  | noEntry
  | noKey
  | overflow
  /-- A buffer that cannot change its length because views depend on it. -/
  | inUse
  | manyDimensions

namespace Fault

/-- A fault in words. -/
def message : Fault → Option String
  | .pack e => some e.summary
  | .schema e => some e.message
  | .encode e => some e.message
  | .decode e => some e.message
  | .unbound name => some name
  | .released typeName => some s!"operation forbidden on released view of {typeName}"
  | .noAccessor typeName name => some s!"{typeName} has no accessor {Text.quote name}"
  | .hiddenName name => some name
  | .noEntries typeName => some s!"{typeName} has no positional entries"
  | .outsideArray typeName index => some s!"{typeName} index out of range: {index}"
  | .tooManyArguments className count given =>
    some s!"{className} takes {count} positional arguments but {given} were given"
  | .repeatedArgument className name =>
    some s!"{className} got multiple values for {Text.quote name}"
  | .byteCount expected got => some s!"expected {expected} bytes, got {got} bytes"
  | _ => none

end Fault

/-- The failure of a check as a fault. -/
def CheckFault.toFault : CheckFault → Fault
  | .rejected e => .pack e
  | .noByte => .noEntry

/-- The failure of decoding as a fault. -/
def DecodeFault.toFault : DecodeFault → Fault
  | .unknown e => .decode e
  | .noByte => .noEntry

/-- The failure to look a value up in a table as a fault. -/
def HashFault.toFault : HashFault → Fault
  | .unhashable => .unsuitable
  | .writable => .unfitContent
  | .released typeName => .released typeName

/-- The failure to go through a value as a fault. -/
def SequenceFault.toFault : SequenceFault → Fault
  | .noEntries typeName => .noEntries typeName
  | .negativeCount => .unfitContent
  | .notIterable => .unsuitable
  | .manyDimensions => .manyDimensions
  | .released typeName => .released typeName

/-- The failure to order two values as a fault. -/
def OrderFault.toFault : OrderFault → Fault
  | .unordered => .unsuitable
  | .released typeName => .released typeName

/-- The failure of encoding as a fault. -/
def EncodeFault.toFault : EncodeFault → Fault
  | .rejected e => .encode e
  | .sequence fault => fault.toFault
  | .misfit => .unfitContent

/-- The failure of compiling a type as a fault. -/
def SchemaFault.toFault : SchemaFault → Fault
  | .rejected e => .schema e
  | .hash fault => fault.toFault

/-- The failure to reach an entry as a fault. -/
def Layout.EntryFault.toFault : Layout.EntryFault → Fault
  | .noEntries typeName => .noEntries typeName
  | .outsideTuple => .noEntry
  | .outsideArray typeName index => .outsideArray typeName (toString index)

/-- The failure to build or change an instance as a fault. -/
def InstanceFault.toFault : InstanceFault → Fault
  | .tooManyArguments className count given => .tooManyArguments className count given
  | .repeatedArgument className name => .repeatedArgument className name
  | .instanceArgument => .unsuitable
  | .noPositional => .unsuitable
  | .invalid title issues => .invalid title issues
  | .noSuchMember => .unfitContent
  | .noSuchField => .unfitContent
  | .classAttribute => .noAttribute
  | .noModel => .noAttribute

end FixedLayout
