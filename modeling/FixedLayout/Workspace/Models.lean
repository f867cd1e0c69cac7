import FixedLayout.Workspace.Coding

/-!
# Instances in a workspace

* `Session.construct`: an instance of validated arguments. Arguments that are instances themselves
  are shared with it, and not copied;
* `Session.constructRaw`: an instance of arguments as they are;
* `Session.setField`, `Session.getField`: one field of an instance;
* `Session.callable`: whether an operation of an instance can be called. A field of its name hides
  it;
* `Session.astuple`: the fields of a tuple model in order;
* `Session.packedSize`, `Session.viewAs`, `Session.decodeAs`, `Session.packInstance`: the operations
  that packed classes and their instances have.
-/

namespace FixedLayout

namespace Session

/-- What named objects look like. -/
def namedValues (given : List (String × Object)) : Session (List (String × Value)) :=
  given.mapM fun g => do return (g.1, ← value g.2)

/-- The last object given for a name. -/
def lastNamed (given : List (String × Object)) (name : String) : Option Object :=
  given.reverse.lookup name

/-- The object given for a field, by name or by position. -/
def argumentFor (names : List String) (args : List Object) (kwargs : List (String × Object))
    (name : String) : Option Object :=
  (lastNamed kwargs name).or ((names.zip args).lookup name)

/-- A new instance of a class of validated arguments, or the member of an enumeration that has the
given value. -/
def construct (name : String) (args : List Object) (kwargs : List (String × Object)) :
    Session Object := do
  let argValues ← args.mapM value
  let kwargValues ← namedValues kwargs
  match ← lift InstanceFault.toFault ((← get).catalog.construct name argValues kwargValues) with
  | .record cls fields =>
    let given := argumentFor cls.fieldNames args kwargs
    let fields ← onStore (Store.adoptFields given fields)
    return .record (← onStore (Store.newRecord cls fields))
  | v => return .plain v

/-- A new instance of a class of arguments as they are. -/
def constructRaw (name : String) (kwargs : List (String × Object)) : Session Object := do
  let kwargValues ← namedValues kwargs
  match ← lift InstanceFault.toFault ((← get).catalog.constructRaw name kwargValues) with
  | .record cls fields =>
    let fields ← fields.mapM fun f =>
      match lastNamed kwargs f.1 with
      | some o => pure (f.1, o)
      | none => do return (f.1, ← place f.2)
    return .record (← onStore (Store.newRecord cls fields))
  | v => return .plain v

/-- The class and the fields of an instance. -/
def instanceFields (id : Nat) : Session (ModelClass × List (String × Object)) := do
  match (← asks (·.records))[id]? with
  | some cell => return cell
  | none => throw .noAttribute

/-- Sets a field of an instance to a validated value. If the value is rejected, the instance stays
as it is. -/
def setField (target : Object) (name : String) (o : Object) : Session Object := do
  match target with
  | .record id =>
    let (cls, fields) ← instanceFields id
    match (← get).catalog.model? cls.name with
    | none => throw .noAttribute
    | some m =>
      let v ← lift InstanceFault.toFault ((← get).catalog.assignedValue m name (← value o))
      let o ← onStore (Store.adopt v o)
      modify fun w => { w with store := w.store.setFields id (setNamed name o fields) }
      return target
  | _ => throw .noAttribute

/-- A field of an instance. The content and the representation that its class sets can be read like
fields. -/
def getField (target : Object) (name : String) : Session Object := do
  match target with
  | .record id =>
    let (cls, fields) ← instanceFields id
    match fields.lookup name with
    | some o => return o
    | none =>
      let m ← packedModel cls.name
      if name = "packed_value" then place m.value
      else if name = "packed_repr" then place m.repr
      else throw .noAttribute
  | _ => throw .noAttribute

/-- Whether an operation of an instance can be called by its name. A field of that name hides it,
and what is in a field cannot be called. -/
def callable (target : Object) (operation : String) : Session Unit := do
  match target with
  | .record id =>
    if ((← instanceFields id).2.lookup operation).isSome then throw .unsuitable
  | _ => return ()

/-- The fields of a tuple model in order of declaration. -/
def astuple (target : Object) : Session (List Object) := do
  callable target "astuple"
  match target with
  | .record id =>
    let (cls, fields) ← instanceFields id
    if cls.positional then
      match cls.fieldNames.mapM fun name => fields.lookup name with
      | some os => return os
      | none => throw .noAttribute
    else throw .noAttribute
  | _ => throw .noAttribute

/-- The class of an instance of a packed model. -/
def packedClass (target : Object) : Session TypeExpr := do
  match target with
  | .record id =>
    let (cls, _) ← instanceFields id
    discard (packedModel cls.name)
    return .named cls.name
  | _ => throw .noAttribute

/-! ### Packed classes -/

/-- The size of a packed class. -/
def packedSize (name : String) : Session Int := do
  discard (packedModel name)
  return (← compile (.named name)).size

/-- The options of a packed class. -/
def packedOptions (name : String) : Session Options := do
  lift SchemaFault.toFault (← packedModel name).packedOptions

/-- A view of bytes that encode an instance of a packed class. -/
def viewAs (name : String) (data : Object) : Session Object := do
  discard (packedModel name)
  view (.named name) data

/-- The instance of a packed class that bytes encode. -/
def decodeAs (name : String) (data : Object) : Session Object := do
  discard (packedModel name)
  decode (.named name) data

/-- The packet of an instance of a packed model. -/
def packInstance (target : Object) : Session Object := do
  callable target "pack"
  let type ← packedClass target
  pack target (some type)

end Session

end FixedLayout
