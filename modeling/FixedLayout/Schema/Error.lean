import FixedLayout.Schema.Options
import FixedLayout.Schema.TypeExpr

/-!
# Types without a fixed form

* `SchemaError`: why a type has no layout;
* `SchemaFault`: a schema error, or an option that cannot even be looked up.
-/

namespace FixedLayout

/-- Why a pair of a content and a representation is no literal. -/
inductive LiteralError
  | unsupported (value : Value)
  | missingRepr
  | unknownRepr (repr : Value)
  | unfit (value : Int) (repr : String)
  | notOneChar
  | reprOnText (repr : Value)
  | reprOnBytes

/-- The error in words, after the name of the unit. -/
def LiteralError.message : LiteralError → String
  | .unsupported value =>
    s!"unsupported packed_value {value.display} " ++
      "(expected bytes, str or int; bool and float are not supported)"
  | .missingRepr =>
    s!"integer packed_value needs an explicit packed_repr (one of {IntRepr.nameList})"
  | .unknownRepr repr => s!"unknown integer repr {repr.display}"
  | .unfit value repr => s!"{value} does not fit in {repr}"
  | .notOneChar => "char packed_value must be one character"
  | .reprOnText repr => s!"packed_repr {repr.display} does not apply to strings"
  | .reprOnBytes => "packed_repr does not apply to byte strings"

/-- Why an enumeration has no layout. -/
inductive EnumError
  | unknownRepr (repr : Value)
  | empty
  | missingRepr
  | charRepr
  | notInteger (member : String) (got : Value)
  | unfit (member : String) (discriminant : Int) (repr : String)

/-- The error in words. -/
def EnumError.message (name : String) : EnumError → String
  | .unknownRepr repr =>
    s!"{name}: unknown repr {repr.display} (expected one of {IntRepr.nameList})"
  | .empty =>
    s!"{name}: zero-variant enums cannot be packed because they cannot be instantiated"
  | .missingRepr => s!"{name}: enumerations need a __packed_repr__ attribute to set the size"
  | .charRepr => s!"{name}: 'char' is not an integer repr"
  | .notInteger member got =>
    s!"{name}.{member}: missing explicit integer discriminant (got {got.display})"
  | .unfit member d repr => s!"{name}.{member}: discriminant {d} does not fit in {repr}"

/-- Why a type has no layout. -/
inductive SchemaError
  | options (error : OptionError)
  | literal (unit : String) (error : LiteralError)
  | enumeration (name : String) (error : EnumError)
  | reprOnOther (repr : String) (type : TypeExpr)
  | widthMissing
  | elementMissing
  | lengthMissing (type : TypeExpr)
  | lengthVaries (type : TypeExpr)
  | entriesMissing (type : TypeExpr)
  | unsupported (type : TypeExpr)
  | containsItself (name : String) (cycle : List String)
  | unitWithFields (name : String)
  | unitWithoutValue (name : String)
  | valueOnComposite (name : String)
  | noFields (name : String)
  | duplicateAccessor (typeName accessor : String)
  | inField (field model : String) (cause : SchemaError)
  | notInferred (kind : String)
  | notComposite (typeName : String)
  | undefined (name : String)

/-- The error in words. -/
def SchemaError.message : SchemaError → String
  | .options error => error.message
  | .literal unit error => s!"{unit}: " ++ error.message
  | .enumeration name error => error.message name
  | .reprOnOther repr type => s!"{repr} applies to int, not {type.display}"
  | .widthMissing =>
    "integer fields require an explicit width (U8, U16, U32, U64, U128, I8, I16, I32, I64, I128)"
  | .elementMissing => "fixed arrays need an element type: list[T]"
  | .lengthMissing type =>
    type.display ++
      ": fixed length required (use FixedBytes(length=...) or FixedList(length=...))"
  | .lengthVaries type =>
    type.display ++ ": variable-length fields are not supported. " ++
      "Use fixed length (min_length == max_length)."
  | .entriesMissing type => s!"{type.display}: tuples must list every element type"
  | .unsupported type =>
    s!"unsupported packed type {type.display}. Supported: integer aliases, fixed bytes, " ++
      "fixed lists, tuples, packed models and packed enums."
  | .containsItself name cycle =>
    s!"{name} contains itself and has no fixed size (" ++ " -> ".intercalate cycle ++ ")"
  | .unitWithFields name => s!"{name}: unit types cannot have fields"
  | .unitWithoutValue name =>
    s!"{name}: expecting a value associated to this type (packed_value = ...)"
  | .valueOnComposite name => s!"{name}: cannot have a packed_value associated to a composite"
  | .noFields name =>
    s!"{name}: composites need at least one field (use PackedUnit for constants)"
  | .duplicateAccessor typeName accessor =>
    s!"{typeName}: duplicate accessor {Text.quote accessor}"
  | .inField field model cause => s!"Field {field} of {model}: " ++ cause.message
  | .notInferred kind =>
    s!"cannot infer the packed type of a {kind} value, pass it explicitly " ++
      "(e.g. encode(value, U32))"
  | .notComposite typeName => s!"{typeName} is not a composite type"
  | .undefined name => s!"{name} is not defined"

/-- How compiling a type can fail. -/
inductive SchemaFault
  | rejected (error : SchemaError)
  | hash (fault : HashFault)

/-- Options that were not accepted, as a failure of the type that has them. -/
def OptionFault.toSchemaFault : OptionFault → SchemaFault
  | .rejected e => .rejected (.options e)
  | .hash fault => .hash fault

/-- A failure inside a field. -/
def SchemaFault.inField (field model : String) : SchemaFault → SchemaFault
  | .rejected e => .rejected (.inField field model e)
  | fault => fault

end FixedLayout
