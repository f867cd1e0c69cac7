import FixedLayout.Model.Validation

/-!
# Instances of models

* `Catalog.construct`: an instance from validated arguments; only tuple models take positional ones;
* `Catalog.constructRaw`: an instance of fields as they are given, some of which may be absent;
* `Catalog.assignedValue`, `setNamed`: the value that a field is set to, and fields with one of them
  set.
-/

namespace FixedLayout

/-- How building or changing an instance can fail. -/
inductive InstanceFault
  | tooManyArguments (className : String) (count given : Nat)
  | repeatedArgument (className name : String)
  /-- An argument with the name by which a new tuple model is given to itself. -/
  | instanceArgument
  | noPositional
  | invalid (title : String) (issues : List Issue)
  | noSuchMember
  | noSuchField
  | classAttribute
  | noModel

/-- Arguments by name, where a repeated name keeps its place and takes the last value. -/
def lastValues : List (String × Value) → List (String × Value)
  | [] => []
  | (name, v) :: rest =>
    let later := lastValues rest
    match later.lookup name with
    | some last => (name, last) :: later.filter (·.1 != name)
    | none => (name, v) :: later

/-- Positional arguments joined to named ones, given the names of the fields. The first positional
argument of all is the new instance, called `self`. -/
def bindArguments (className : String) (names : List String) (args : List Value)
    (kwargs : List (String × Value)) : Except InstanceFault (List (String × Value)) :=
  if (kwargs.lookup "self").isSome then .error .instanceArgument
  else if names.length < args.length then
    .error (.tooManyArguments className names.length args.length)
  else
    let bound := names.zip args
    match bound.find? fun b => (kwargs.lookup b.1).isSome with
    | some b => .error (.repeatedArgument className b.1)
    | none => .ok (kwargs ++ bound)

namespace Catalog

/-- A new instance of a model. -/
def constructModel (c : Catalog) (m : ModelDef) (args : List Value)
    (kwargs : List (String × Value)) : Except InstanceFault Value := do
  let kwargs := lastValues kwargs
  let given ←
    if m.kind = .tuple then bindArguments m.name (m.fields.map (·.name)) args kwargs
    else if args.isEmpty then pure kwargs
    else .error .noPositional
  (m.validate (fun t v => c.validate t v) given).mapError (.invalid m.name)

/-- A new instance of a class. An enumeration takes the value of a member. -/
def construct (c : Catalog) (name : String) (args : List Value) (kwargs : List (String × Value)) :
    Except InstanceFault Value :=
  match c.find? name with
  | some (.model m) => c.constructModel m args kwargs
  | some (.enumeration e) =>
    match args with
    | [v] =>
      match v, e.memberOf? v with
      | .member enum _ _ _, found =>
        if enum = e.name then .ok v else found.elim (.error .noSuchMember) .ok
      | _, some member => .ok member
      | _, none => .error .noSuchMember
    | _ => .error .noPositional
  | none => .error .noModel

/-- An instance of fields as they are given: unknown names are dropped, an absent field takes its
default or stays absent. -/
def constructRaw (c : Catalog) (name : String) (kwargs : List (String × Value)) :
    Except InstanceFault Value :=
  match c.model? name with
  | none => .error .noModel
  | some m =>
    let given := lastValues kwargs
    .ok (.record m.cls (m.fields.filterMap fun f =>
      ((given.lookup f.name).or f.default).map (f.name, ·)))

end Catalog

/-- Fields with one of them set; a new one comes last. -/
def setNamed {α : Type} (name : String) (v : α) : List (String × α) → List (String × α)
  | [] => [(name, v)]
  | (n, old) :: rest => if n = name then (n, v) :: rest else (n, old) :: setNamed name v rest

/-- The attributes of a packed class that are no fields. -/
def classAttributes : List String := ["packed_value", "packed_repr"]

namespace Catalog

/-- The value to be stored when a field of an instance is set. A plain model takes any value for a
field of its own. -/
def assignedValue (c : Catalog) (m : ModelDef) (field : String) (v : Value) :
    Except InstanceFault Value :=
  match m.fields.find? (·.name == field) with
  | none =>
    if m.kind = .plain then .error .noSuchField
    else if classAttributes.contains field then .error .classAttribute
    else .error (.invalid m.name [⟨.noSuchAttribute, [.field field]⟩])
  | some f =>
    if m.kind = .plain then .ok v
    else
      (Validated.at (.field field) (c.validate f.type v)).mapError (.invalid m.name)

end Catalog

end FixedLayout
