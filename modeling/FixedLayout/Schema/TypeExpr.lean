import FixedLayout.Value.Display

/-!
# Type expressions

A type expression names a type or builds one: an integer with a width, bytes and lists with length
constraints, tuples, and references to definitions. It may as well be something that is no packed
type at all.

* `Builtin`: the types that have a name of their own;
* `Constraint`: what may be attached to a type;
* `TypeExpr`: type expressions;
* `TypeExpr.fixedInt`, `TypeExpr.fixedBytes`, `TypeExpr.fixedList`: the usual ones;
* `TypeExpr.display`: the text of a type in messages.
-/

namespace FixedLayout

/-- A type with a name of its own. -/
inductive Builtin
  | int
  | str
  | bool
  | float
  | bytes
  | list
  | dict
  | tuple
  | bytearray
  | nothing
  | nothingType
  | any
  | anyList
  | anyTuple
  | optionalInt
  deriving DecidableEq, Repr

/-- The text of a builtin type in messages. A compound one is not spelled out. -/
def Builtin.display : Builtin → String
  | .int => "<class 'int'>"
  | .str => "<class 'str'>"
  | .bool => "<class 'bool'>"
  | .float => "<class 'float'>"
  | .bytes => "<class 'bytes'>"
  | .list => "<class 'list'>"
  | .dict => "<class 'dict'>"
  | .tuple => "<class 'tuple'>"
  | .bytearray => "<class 'bytearray'>"
  | .nothing => "None"
  | .nothingType => "<class 'NoneType'>"
  | .any => "typing.Any"
  | .anyList | .anyTuple | .optionalInt => "<annotation>"

/-- What may be attached to a type: bounds of a length, bounds of a number, an integer
representation, or a remark without effect. -/
inductive Constraint
  | length (min max : Option Int)
  | range (min max : Int)
  | repr (r : IntRepr)
  | remark
  deriving DecidableEq, Repr

/-- A type expression. -/
inductive TypeExpr
  | builtin (b : Builtin)
  | annotated (base : TypeExpr) (constraints : List Constraint)
  | list (element : TypeExpr)
  | tuple (elements : List TypeExpr) (isOpen : Bool)
  | named (name : String)
  | literal (v : Value)

instance : Inhabited TypeExpr := ⟨.builtin .nothing⟩

namespace TypeExpr

/-- An integer of a given representation. -/
def fixedInt (r : IntRepr) : TypeExpr :=
  .annotated (.builtin .int) [.range r.minValue r.maxValue, .repr r]

/-- Bytes of a given length. -/
def fixedBytes (length : Int) : TypeExpr :=
  .annotated (.builtin .bytes) [.length (some length) (some length)]

/-- A list of a given length. -/
def fixedList (element : TypeExpr) (length : Int) : TypeExpr :=
  .annotated (.list element) [.length (some length) (some length)]

/-- A type without the constraints attached to it, and these constraints, inner ones first, followed
by further ones. -/
def strip : TypeExpr → List Constraint → TypeExpr × List Constraint
  | .annotated base constraints, outer => base.strip (constraints ++ outer)
  | t, outer => (t, outer)

/-- The definition that a type refers to, whatever is attached to the reference. -/
def className? : TypeExpr → Option String
  | .annotated base _ => base.className?
  | .named name => some name
  | _ => none

/-- Whether a type is the absent one. -/
def isNothing : TypeExpr → Bool
  | .builtin .nothing => true
  | .literal .null => true
  | _ => false

/-- The text of a type in messages. A compound type is not spelled out. -/
def display : TypeExpr → String
  | .builtin b => b.display
  | .literal v => v.display
  | _ => "<annotation>"

end TypeExpr

end FixedLayout
