import FixedLayout.Schema.Leaf

/-!
# Compiling types

`Catalog.compile` turns a type expression into its layout. The layouts of classes are kept in a
cache once they have been compiled; a class that is met again while it is being compiled has no
fixed size.

* `Cache`, `Compiler`: compiled classes, and computations that use and extend them;
* `fixedLength`: the length that constraints declare;
* `TypeExpr.compile`: a type expression, given how classes are compiled;
* `ModelDef.compile`, `EnumDef.compile`: what a class is made of;
* `Catalog.compileClass`: a class inside the classes being compiled. The bound on the depth is the
  number of definitions, so it is not met before a class repeats;
* `Catalog.compile`, `Catalog.layoutOf`: a type with and without a cache to start from.
-/

namespace FixedLayout

/-- The classes compiled so far. -/
abbrev Cache := List (String × Layout)

/-- A computation that may compile classes. What it has compiled is kept even if it fails. -/
abbrev Compiler (α : Type) := ExceptT SchemaFault (StateM Cache) α

/-- A computation that fails. -/
def Compiler.fail {α : Type} (fault : SchemaFault) : Compiler α := throw fault

/-- A computation that rejects a type. -/
def Compiler.reject {α : Type} (error : SchemaError) : Compiler α := throw (.rejected error)

/-- An outcome as a computation. -/
def Compiler.lift {α : Type} : Except SchemaFault α → Compiler α
  | .ok a => pure a
  | .error fault => throw fault

/-- A computation inside a field. -/
def Compiler.inField {α : Type} (field model : String) (c : Compiler α) : Compiler α :=
  fun cache =>
    let (r, cache) := c cache
    (r.mapError (·.inField field model), cache)

/-- The last declared bounds of a length. -/
def lengthBounds : List Constraint → Option Int × Option Int
  | [] => (none, none)
  | .length min max :: rest =>
    let (lower, upper) := lengthBounds rest
    (lower.or min, upper.or max)
  | _ :: rest => lengthBounds rest

/-- Of constraints on top of others, the later ones decide wherever they set a bound. -/
theorem lengthBounds_append (xs ys : List Constraint) :
    lengthBounds (xs ++ ys) =
      ((lengthBounds ys).1.or (lengthBounds xs).1, (lengthBounds ys).2.or (lengthBounds xs).2) := by
  induction xs with
  | nil => simp [lengthBounds]
  | cons c rest ih => cases c <;> simp [lengthBounds, ih, Option.or_assoc]

/-- The length that constraints declare: the upper bound, which a declared lower one must equal. -/
def fixedLength (type : TypeExpr) (constraints : List Constraint) : Except SchemaError Int :=
  match lengthBounds constraints with
  | (_, none) => .error (.lengthMissing type)
  | (none, some max) => .ok max
  | (some min, some max) => if min = max then .ok max else .error (.lengthVaries type)

/-- The first integer representation among constraints. -/
def reprOf? (constraints : List Constraint) : Option IntRepr :=
  constraints.findSome? fun
    | .repr r => some r
    | _ => none

/-- Entries of a tuple as fields, named by their index from a given one on. -/
def entryFields : Nat → List Layout → Fields
  | _, [] => .nil
  | index, layout :: rest => .cons (toString index) none layout (entryFields (index + 1) rest)

mutual

/-- The layout of a type with constraints attached to it, given the layouts of classes. -/
def TypeExpr.compile (compileClass : String → Compiler Layout) :
    TypeExpr → List Constraint → Compiler Layout
  | .annotated base constraints, outer => base.compile compileClass (constraints ++ outer)
  | .builtin b, constraints =>
    match reprOf? constraints with
    | some r => if b = .int then return .int r else .reject (.reprOnOther r.name (.builtin b))
    | none =>
      match b with
      | .bytes => Compiler.lift
          (((fixedLength (.builtin b) constraints).map Layout.bytes).mapError .rejected)
      | .int => .reject .widthMissing
      | .anyList => .reject .elementMissing
      | .anyTuple => .reject (.entriesMissing (.builtin b))
      | _ => .reject (.unsupported (.builtin b))
  | .list element, constraints =>
    match reprOf? constraints with
    | some r => .reject (.reprOnOther r.name (.list element))
    | none =>
      if element.isNothing then .reject .elementMissing
      else do
        let layout ← element.compile compileClass []
        let length ← Compiler.lift ((fixedLength (.list element) constraints).mapError .rejected)
        return .array layout length
  | .tuple elements isOpen, constraints =>
    match reprOf? constraints with
    | some r => .reject (.reprOnOther r.name (.tuple elements isOpen))
    | none =>
      if elements.isEmpty || isOpen then .reject (.entriesMissing (.tuple elements isOpen))
      else do
        let layouts ← compileEach compileClass elements
        return .composite .tuple (entryFields 0 layouts)
  | .named name, constraints =>
    match reprOf? constraints with
    | some r => .reject (.reprOnOther r.name (.named name))
    | none => compileClass name
  | .literal v, constraints =>
    match reprOf? constraints with
    | some r => .reject (.reprOnOther r.name (.literal v))
    | none => .reject (.unsupported (.literal v))

/-- The layouts of several types. -/
def compileEach (compileClass : String → Compiler Layout) :
    List TypeExpr → Compiler (List Layout)
  | [] => return []
  | t :: rest => do
    let layout ← t.compile compileClass []
    let layouts ← compileEach compileClass rest
    return layout :: layouts

end

/-- The layouts of a model's fields, with their names and accessors. -/
def compileFields (compileClass : String → Compiler Layout) (model : String) :
    List FieldDecl → Compiler (List (String × Option String × Layout))
  | [] => return []
  | f :: rest => do
    let layout ← Compiler.inField f.name model (f.type.compile compileClass [])
    let options ← Compiler.lift
      ((Options.ofValues? .null f.accessor .null).mapError OptionFault.toSchemaFault)
    let fields ← compileFields compileClass model rest
    return (f.name, options.accessorName f.name, layout) :: fields

/-- The first name that occurs again among names, given those met before. -/
def firstDuplicate? : List String → List String → Option String
  | _, [] => none
  | seen, name :: rest =>
    if seen.contains name then some name else firstDuplicate? (name :: seen) rest

/-- The layout of a unit. -/
def ModelDef.compileUnit (m : ModelDef) : Except SchemaFault Layout :=
  if !m.fields.isEmpty then .error (.rejected (.unitWithFields m.name))
  else
    match m.value with
    | .null => .error (.rejected (.unitWithoutValue m.name))
    | value => (Literal.ofValues m.name value m.repr).map (Layout.unit m.cls)

/-- The layout of a model. -/
def ModelDef.compile (compileClass : String → Compiler Layout) (m : ModelDef) : Compiler Layout :=
  if m.kind = .unit then Compiler.lift m.compileUnit
  else if !m.value.isNull then .reject (.valueOnComposite m.name)
  else if m.fields.isEmpty then .reject (.noFields m.name)
  else do
    let fields ← compileFields compileClass m.name m.fields
    match firstDuplicate? [] (fields.filterMap (·.2.1)) with
    | some accessor => .reject (.duplicateAccessor m.name accessor)
    | none => return .composite (.model m.cls) (.ofList fields)

/-- The layout of an enumeration. -/
def EnumDef.compile (e : EnumDef) : Except SchemaFault Layout :=
  match e.repr with
  | .null => .error (.rejected (.enumeration e.name .missingRepr))
  | repr => do
    let options ← (Options.ofValues? .null .null repr).mapError OptionFault.toSchemaFault
    match options.repr with
    | .text name =>
      if name = charRepr then .error (.rejected (.enumeration e.name .charRepr))
      else (Enumeration.ofDef e repr).map Layout.enumeration
    | _ => (Enumeration.ofDef e repr).map Layout.enumeration

namespace Catalog

/-- The layout of a class that is met while the classes of `stack` are being compiled. -/
def compileClass (c : Catalog) : Nat → List String → String → Compiler Layout
  | depth, stack, name => fun cache =>
    match cache.lookup name with
    | some layout => (.ok layout, cache)
    | none =>
      if stack.contains name then
        (.error (.rejected (.containsItself name (stack ++ [name]))), cache)
      else
        match depth, c.find? name with
        | depth + 1, some d =>
          let build : Compiler Layout :=
            match d with
            | .model m => m.compile (compileClass c depth (stack ++ [name]))
            | .enumeration e => Compiler.lift e.compile
          match build cache with
          | (.error fault, cache) => (.error fault, cache)
          | (.ok layout, cache) =>
            match cache.lookup name with
            | some earlier => (.ok earlier, cache)
            | none => (.ok layout, (name, layout) :: cache)
        | _, _ => (.error (.rejected (.undefined name)), cache)

/-- The layout of a type, with the classes compiled so far. -/
def compile (c : Catalog) (t : TypeExpr) : Compiler Layout :=
  t.compile (c.compileClass (c.length + 1) []) []

/-- The layout of a type when nothing has been compiled before. -/
def layoutOf (c : Catalog) (t : TypeExpr) : Except SchemaFault Layout := ((c.compile t).run []).1

end Catalog

/-- The checks of a model's own options, made as soon as it is defined. -/
def ModelDef.packedOptions (m : ModelDef) : Except SchemaFault Options := do
  let options ← (Options.ofValues? m.value .null m.repr).mapError OptionFault.toSchemaFault
  if (m.kind = .struct ∨ m.kind = .tuple) ∧ !m.value.isNull then
    .error (.rejected (.valueOnComposite m.name))
  else return options

/-- A type given explicitly, or the class of an instance or member. -/
def inferType (value : Value) (type : Option TypeExpr) : Except SchemaError TypeExpr :=
  match type.filter (!·.isNothing) with
  | some t => .ok t
  | none =>
    match value with
    | .record cls _ => .ok (.named cls.name)
    | .member enum _ _ _ => .ok (.named enum)
    | v => .error (.notInferred v.kind)

end FixedLayout
