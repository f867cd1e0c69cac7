import FixedLayout.Workspace.Session

/-!
# Making definitions

* `Session.defineModel`: a model, on its own or on top of another one. The options of a packed model
  are checked at once, everything else when its layout is asked for;
* `Session.defineEnum`: an enumeration, whose members have different names. The members of an
  integral one are brought into the form of integers.
-/

namespace FixedLayout

/-- The integer that digits with an optional sign denote. -/
def signedDigits? (cs : List Char) : Option Int :=
  match trimBlanks cs with
  | '-' :: cs => (digitsValue? cs).map fun n => -(n : Int)
  | '+' :: cs => (digitsValue? cs).map fun n => (n : Int)
  | cs => (digitsValue? cs).map fun n => (n : Int)

/-- The integer that an integral member's value is brought into: floats lose their fraction, texts
have to be digits. -/
def memberInteger (v : Value) : Except Fault Int :=
  let digits := fun cs =>
    match signedDigits? cs with
    | some n => Except.ok n
    | none => .error .unfitContent
  let single := fun (v : Value) =>
    match v with
    | .float x =>
      match x.ratio? with
      | some (a, b) => .ok (a.tdiv b)
      | none => if x.magnitude?.isSome then .error .overflow else .error .unfitContent
    | .text s => digits s.toList
    | .bytes content | .bytearray content => digits (content.map fun b => Char.ofNat b.toNat)
    | v =>
      match v.integerOrBool? with
      | some n => .ok n
      | none => .error .unsuitable
  match v with
  | .tuple [] => .ok 0
  | .tuple [v] => single v
  | v => single v

namespace Session

/-- Adds a definition. -/
def define (d : Definition) : Session Unit :=
  modify fun w => { w with catalog := d :: w.catalog }

/-- Defines a model, on top of another one if a name is given for that. Bounds of length below zero
are refused by the validation of the fields before a model gets here, and are not looked for. What
is stated of lengths that are not negative leaves out no model that can be made. -/
def defineModel (kind : ModelKind) (name : String) (base : Option String) (fields : List FieldDecl)
    (content repr : Option Value) : Session Unit := do
  let catalog := (← get).catalog
  let m :=
    match base.bind catalog.model? with
    | some base => base.extend name fields content repr
    | none => .root kind name fields content repr
  if m.kind ≠ .plain then discard (lift SchemaFault.toFault m.packedOptions)
  define (.model m)

/-- Defines an enumeration. -/
def defineEnum (integral : Bool) (name : String) (repr : Value) (members : List (String × Value)) :
    Session Unit := do
  if h : (members.map (·.1)).Nodup then
    let payloads ← members.mapM fun m =>
      if integral then do return .int (← lift id (memberInteger m.2)) else pure m.2
    define (.enumeration (.declare name integral repr (members.map (·.1)) payloads h))
  else throw .unsuitable

end Session

end FixedLayout
