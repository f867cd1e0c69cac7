import FixedLayout.Schema.Compile

/-!
# Validation of field values

A value given for a field is brought into the form that the field's type asks for, or rejected with
all that is wrong with it.

* `IssueKind`, `Issue`: what is wrong, and where;
* `Value.toInteger`, `Value.toByteString`, …: the forms that a value can be brought into;
* `TypeExpr.validate`: a value for a type, given how classes are validated;
* `validateFields`: the values of a model's fields, all faults in field order;
* `Catalog.validateClass`, `Catalog.validate`: a value for a class, a value for a type.
-/

namespace FixedLayout

/-- What is wrong with a value. -/
inductive IssueKind
  | missing
  | extraForbidden
  | noSuchAttribute
  | intFromFloat
  | finiteNumber
  | intParsing
  | intType
  | greaterThanEqual
  | lessThanEqual
  | bytesType
  | bytesTooShort
  | bytesTooLong
  | listType
  | tooShort
  | tooLong
  | tupleType
  | enumMember
  | modelType
  | stringType
  | boolType
  | floatType
  | dictType
  | noneRequired
  deriving DecidableEq, Repr

/-- The name of a fault. -/
def IssueKind.name : IssueKind → String
  | .missing => "missing"
  | .extraForbidden => "extra_forbidden"
  | .noSuchAttribute => "no_such_attribute"
  | .intFromFloat => "int_from_float"
  | .finiteNumber => "finite_number"
  | .intParsing => "int_parsing"
  | .intType => "int_type"
  | .greaterThanEqual => "greater_than_equal"
  | .lessThanEqual => "less_than_equal"
  | .bytesType => "bytes_type"
  | .bytesTooShort => "bytes_too_short"
  | .bytesTooLong => "bytes_too_long"
  | .listType => "list_type"
  | .tooShort => "too_short"
  | .tooLong => "too_long"
  | .tupleType => "tuple_type"
  | .enumMember => "enum"
  | .modelType => "model_type"
  | .stringType => "string_type"
  | .boolType => "bool_type"
  | .floatType => "float_type"
  | .dictType => "dict_type"
  | .noneRequired => "none_required"

/-- One step of the way to a faulty value. -/
inductive Step
  | field (name : String)
  | index (n : Nat)
  deriving DecidableEq, Repr

/-- A fault and the way to the value that has it. -/
structure Issue where
  kind : IssueKind
  path : List Step
  deriving DecidableEq, Repr

/-- The outcome of validation: a value, or all faults. -/
abbrev Validated (α : Type) := Except (List Issue) α

/-- A fault of the value itself. -/
def Validated.fail {α : Type} (kind : IssueKind) : Validated α := .error [⟨kind, []⟩]

/-- An outcome one step further in. -/
def Validated.at {α : Type} (step : Step) (r : Validated α) : Validated α :=
  r.mapError fun issues => issues.map fun i => { i with path := step :: i.path }

/-- The first outcome followed by the second one; the faults of both if both fail. -/
def Validated.cons {α : Type} : Validated α → Validated (List α) → Validated (List α)
  | .ok a, .ok as => .ok (a :: as)
  | .ok _, .error is => .error is
  | .error is, .ok _ => .error is
  | .error is, .error js => .error (is ++ js)

/-! ### Plain forms -/

/-- The value of digits, with single underscores between them. -/
def digitsValue? (cs : List Char) : Option Nat :=
  let rec go : List Char → Nat → Bool → Option Nat
    | [], n, afterDigit => if afterDigit then some n else none
    | '_' :: rest, n, true => go rest n false
    | c :: rest, n, _ => if c.isDigit then go rest (n * 10 + (c.toNat - 48)) true else none
  go cs 0 false

/-- The characters without blanks around them. -/
def trimBlanks (cs : List Char) : List Char :=
  ((cs.dropWhile Char.isWhitespace).reverse.dropWhile Char.isWhitespace).reverse

/-- The digits before a point after which there are only zeros. -/
def dropZeroFraction (cs : List Char) : List Char :=
  if ((cs.dropWhile (· != '.')).drop 1).all (· == '0') then cs.takeWhile (· != '.') else cs

/-- The integer that a text denotes: digits with an optional sign, and no fraction but zero. -/
def textInteger? (s : String) : Option Int :=
  match trimBlanks s.toList with
  | '-' :: cs => (digitsValue? (dropZeroFraction cs)).map fun n => -(n : Int)
  | '+' :: cs => (digitsValue? (dropZeroFraction cs)).map fun n => (n : Int)
  | cs => (digitsValue? (dropZeroFraction cs)).map fun n => (n : Int)

namespace Value

/-- A value as an integer: an integer, a truth value, an integral float or a text of digits, which
may be given as bytes. -/
def toInteger (v : Value) : Validated Int :=
  let parsed : Option String → Validated Int := fun s =>
    match s.bind textInteger? with
    | some n => .ok n
    | none => .fail .intParsing
  match v with
  | .float x =>
    match x with
    | .finite _ _ _ =>
      match x.integer? with
      | some n => .ok n
      | none => .fail .intFromFloat
    | _ => .fail .finiteNumber
  | .text s => parsed (some s)
  | .bytes content | .bytearray content =>
    parsed ((Utf8.decode content).toOption.map String.ofList)
  | v =>
    match v.integerOrBool? with
    | some n => .ok n
    | none => .fail .intType

/-- A value as a byte string: bytes or a text. -/
def toByteString : Value → Validated Bytes
  | .bytes content => .ok content
  | .bytearray content => .ok content
  | .text s => .ok (Utf8.encode s)
  | _ => .fail .bytesType

/-- A value as the items of a list. -/
def toItems (kind : IssueKind) : Value → Validated (List Value)
  | .list items => .ok items
  | .tuple items => .ok items
  | _ => .fail kind

/-- A value as the fields of an instance to be built. -/
def toFields : List (Value × Value) → Validated (List (String × Value))
  | [] => .ok []
  | (.text name, v) :: rest => (toFields rest).map ((name, v) :: ·)
  | _ :: _ => .fail .modelType

/-- The number of levels of a value. -/
def depth : Value → Nat
  | .list items => depthEach items + 1
  | .tuple items => depthEach items + 1
  | .dict items => depthPairs items + 1
  | _ => 1
where
  /-- The number of levels of several values. -/
  depthEach : List Value → Nat
    | [] => 0
    | v :: rest => max (depth v) (depthEach rest)
  /-- The number of levels of the values of a dictionary. -/
  depthPairs : List (Value × Value) → Nat
    | [] => 0
    | (_, v) :: rest => max (depth v) (depthPairs rest)

end Value

/-! ### Types -/

/-- The last declared bounds of a number. -/
def rangeBounds : List Constraint → Option (Int × Int)
  | [] => none
  | .range min max :: rest => (rangeBounds rest).or (some (min, max))
  | _ :: rest => rangeBounds rest

/-- An integer within the bounds of constraints. -/
def validateInteger (constraints : List Constraint) (v : Value) : Validated Value := do
  let n ← v.toInteger
  match rangeBounds constraints with
  | none => return .int n
  | some (min, max) =>
    if n < min then .fail .greaterThanEqual
    else if max < n then .fail .lessThanEqual
    else return .int n

/-- A byte string whose length lies within the bounds of constraints. -/
def validateBytes (constraints : List Constraint) (v : Value) : Validated Value := do
  let content ← v.toByteString
  let (min, max) := lengthBounds constraints
  if min.any fun m => decide ((content.length : Int) < m) then .fail .bytesTooShort
  else if max.any fun m => decide (m < (content.length : Int)) then .fail .bytesTooLong
  else return .bytes content

/-- The values of a list, each brought into form; faults carry the index, counted from a given
one. -/
def validateEach (validate : Value → Validated Value) : Nat → List Value → Validated (List Value)
  | _, [] => .ok []
  | index, v :: rest =>
    Validated.cons (Validated.at (.index index) (validate v))
      (validateEach validate (index + 1) rest)

/-- A list whose length lies within the bounds of constraints. Too many items are reported alone,
too few only if no item is faulty. -/
def validateList (constraints : List Constraint) (validate : Value → Validated Value) (v : Value) :
    Validated Value := do
  let items ← v.toItems .listType
  let (min, max) := lengthBounds constraints
  if max.any fun m => decide (m < (items.length : Int)) then .fail .tooLong
  else
    let items ← validateEach validate 0 items
    if min.any fun m => decide ((items.length : Int) < m) then .fail .tooShort
    else return .list items

/-- A member of an enumeration, given as itself or by its value. -/
def EnumDef.validate (e : EnumDef) (v : Value) : Validated Value :=
  let byValue : Validated Value :=
    let payload := if e.integral then v.toInteger.toOption.map Value.int else some v
    match payload.bind e.memberOf? with
    | some member => .ok member
    | none => .fail .enumMember
  match v with
  | .member enum _ _ _ => if enum = e.name then .ok v else byValue
  | _ => byValue

/-- A value of a type that has a name of its own. -/
def Builtin.validate (b : Builtin) (constraints : List Constraint) (v : Value) : Validated Value :=
  match b with
  | .int => validateInteger constraints v
  | .bytes => validateBytes constraints v
  | .bytearray => v.toByteString.map .bytearray
  | .list | .anyList => (v.toItems .listType).map .list
  | .tuple | .anyTuple => (v.toItems .tupleType).map .tuple
  | .optionalInt => if v.isNull then .ok v else validateInteger constraints v
  | .nothing | .nothingType => if v.isNull then .ok v else .fail .noneRequired
  | .any => .ok v
  | .str =>
    match v with
    | .text _ => .ok v
    | _ => .fail .stringType
  | .bool =>
    match v with
    | .bool _ => .ok v
    | .int n => if n = 0 ∨ n = 1 then .ok (.bool (n = 1)) else .fail .boolType
    | _ => .fail .boolType
  | .float =>
    match v with
    | .float _ => .ok v
    | .int n => .ok (.float (Binary64.ofRatio (n < 0) n.natAbs 1))
    | _ => .fail .floatType
  | .dict =>
    match v with
    | .dict _ => .ok v
    | _ => .fail .dictType

mutual

/-- A value brought into the form of a type with constraints, given how classes are validated. -/
def TypeExpr.validate (validateClass : String → Value → Validated Value) :
    TypeExpr → List Constraint → Value → Validated Value
  | .annotated base constraints, outer, v =>
    base.validate validateClass (constraints ++ outer) v
  | .builtin b, constraints, v => b.validate constraints v
  | .list element, constraints, v =>
    validateList constraints (element.validate validateClass []) v
  | .tuple elements isOpen, _, v => do
    let items ← v.toItems .tupleType
    match elements, isOpen with
    | [element], true =>
      return .tuple (← validateEach (element.validate validateClass []) 0 items)
    | elements, _ =>
      if elements.length < items.length then .fail .tooLong
      else return .tuple (← validateEntries validateClass 0 elements items)
  | .named name, _, v => validateClass name v
  | .literal _, _, v => .ok v

/-- The entries of a tuple, each brought into the form of its type; entries may be missing. -/
def validateEntries (validateClass : String → Value → Validated Value) :
    Nat → List TypeExpr → List Value → Validated (List Value)
  | _, [], _ => .ok []
  | index, t :: types, v :: items =>
    Validated.cons (Validated.at (.index index) (t.validate validateClass [] v))
      (validateEntries validateClass (index + 1) types items)
  | index, _ :: types, [] =>
    Validated.cons (Validated.at (.index index) (.fail .missing))
      (validateEntries validateClass (index + 1) types [])

end

/-- The values of fields: given ones brought into form, defaults as they are. -/
def validateFields (validate : TypeExpr → Value → Validated Value) (given : List (String × Value)) :
    List FieldDecl → Validated (List (String × Value))
  | [] => .ok []
  | f :: rest =>
    let here : Validated Value :=
      match given.lookup f.name with
      | some v => validate f.type v
      | none =>
        match f.default with
        | some v => .ok v
        | none => .fail .missing
    Validated.cons ((Validated.at (.field f.name) here).map (f.name, ·))
      (validateFields validate given rest)

/-- The faults of names that a model does not have; a plain model ignores them. -/
def extraIssues (m : ModelDef) (given : List (String × Value)) : List Issue :=
  if m.kind = .plain then []
  else (given.filter fun g => !(m.fields.map (·.name)).contains g.1).map fun g =>
    ⟨.extraForbidden, [.field g.1]⟩

/-- An instance of a model from values for its fields. -/
def ModelDef.validate (m : ModelDef) (validate : TypeExpr → Value → Validated Value)
    (given : List (String × Value)) : Validated Value :=
  match validateFields validate given m.fields, extraIssues m given with
  | .ok fields, [] => .ok (.record m.cls fields)
  | .ok _, extra => .error extra
  | .error issues, extra => .error (issues ++ extra)

namespace Catalog

/-- A value for a class: an instance of it, or the fields of one. The bound on the depth is the
number of levels of the value. -/
def validateClass (c : Catalog) : Nat → String → Value → Validated Value
  | depth, name, v =>
    match c.find? name with
    | none => .ok v
    | some (.enumeration e) => e.validate v
    | some (.model m) =>
      match v, depth with
      | .record cls _, _ => if cls.isSubclassOf m.cls then .ok v else .fail .modelType
      | .dict items, depth + 1 =>
        match Value.toFields items with
        | .error issues => .error issues
        | .ok given => m.validate (fun t v => t.validate (validateClass c depth) [] v) given
      | _, _ => .fail .modelType

/-- A value for a type. -/
def validate (c : Catalog) (t : TypeExpr) (v : Value) : Validated Value :=
  t.validate (c.validateClass v.depth) [] v

end Catalog

end FixedLayout
