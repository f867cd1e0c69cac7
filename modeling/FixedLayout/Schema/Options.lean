import FixedLayout.Text.Identifier
import FixedLayout.Value.Display
import FixedLayout.Value.Equal

/-!
# Options of types and fields

A type or field may set a literal content, an accessor and a representation. `Options.ofValues?`
accepts them together:

* the representation is absent, the name of an integer width, or `char`;
* the content is no boolean and no float;
* the accessor is absent, a truth value, or an identifier without a leading underscore. Like `false`
  itself, any value equal to it is let through.
-/

namespace FixedLayout

/-- The representation of one-character texts. -/
def charRepr : String := "char"

/-- Why options are rejected. -/
inductive OptionError
  | unknownRepr (got : Value)
  | unsupportedValue (kind : String)
  | notIdentifier (got : String)
  | leadingUnderscore (got : String)
  | unsuitableAccessor (got : Value)

/-- The error in words. -/
def OptionError.message : OptionError → String
  | .unknownRepr got =>
    s!"repr must be one of {IntRepr.nameList} or 'char', got " ++ got.display
  | .unsupportedValue kind => s!"{kind} values are not supported"
  | .notIdentifier got => "accessor must be a valid identifier, got " ++ Text.quote got
  | .leadingUnderscore got => "accessor must not start with an underscore, got " ++ Text.quote got
  | .unsuitableAccessor got => "accessor must be a name, True or False, got " ++ got.display

/-- How reading options can fail. -/
inductive OptionFault
  | rejected (error : OptionError)
  | hash (fault : HashFault)

/-- Accepted options. -/
structure Options where
  value : Value
  accessor : Value
  repr : Value

namespace Options

/-- Whether a representation is one that options may name. -/
def checkRepr : Value → Except OptionFault Unit
  | .null => .ok ()
  | .text name =>
    if name = charRepr ∨ (IntRepr.ofName? name).isSome then .ok ()
    else .error (.rejected (.unknownRepr (.text name)))
  | got =>
    match got.hashFault? with
    | some fault => .error (.hash fault)
    | none => .error (.rejected (.unknownRepr got))

/-- Whether a content is one that options may set. -/
def checkValue : Value → Except OptionFault Unit
  | .bool b => .error (.rejected (.unsupportedValue (Value.bool b).kind))
  | .float x => .error (.rejected (.unsupportedValue (Value.float x).kind))
  | _ => .ok ()

/-- The accessor option that a value stands for: `true` is the same as none. -/
def readAccessor : Value → Except OptionFault Value
  | .bool true => .ok .null
  | .text name =>
    if !Text.isIdentifier name then .error (.rejected (.notIdentifier name))
    else if name.startsWith "_" then .error (.rejected (.leadingUnderscore name))
    else .ok (.text name)
  | .null => .ok .null
  | got =>
    if got.same (.bool false) then .ok got else .error (.rejected (.unsuitableAccessor got))

/-- The options that values stand for. -/
def ofValues? (value accessor repr : Value) : Except OptionFault Options := do
  checkRepr repr
  checkValue value
  let accessor ← readAccessor accessor
  return ⟨value, accessor, repr⟩

/-- The names by which options are set. -/
def names : List String := ["value", "accessor", "repr"]

/-- The options that named values stand for, where the last value of a name counts; `none` if there
is no option of some name. -/
def ofNamed? (given : List (String × Value)) : Option (Except OptionFault Options) :=
  if given.all fun g => names.contains g.1 then
    let option := fun name => (given.reverse.lookup name).getD .null
    some (ofValues? (option "value") (option "accessor") (option "repr"))
  else none

/-- Whether there is no accessor at all. -/
def suppressed (o : Options) : Bool :=
  match o.accessor with
  | .bool false => true
  | _ => false

/-- The accessor of a field with a given name. -/
def accessorName (o : Options) (name : String) : Option String :=
  match o.accessor with
  | .bool false => none
  | .text custom => some custom
  | _ => some name

end Options

end FixedLayout
