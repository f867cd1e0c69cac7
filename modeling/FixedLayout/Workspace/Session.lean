import FixedLayout.Codec
import FixedLayout.Workspace.Store

/-!
# Sessions

A session is a computation in a workspace: definitions, the layouts compiled from them, a store of
buffers, instances and views, and names bound to objects. What a session has done before it fails
stays done.

* `Workspace`, `Session`: the state, and computations on it;
* `Session.bind`, `Session.lookup`: names and the objects they are bound to;
* `Session.compile`: the layout of a type;
* `Session.value`, `Session.place`: what an object looks like, an object that looks like a value;
* `Session.windowOf`: the bytes that a bytes-like object lends;
* `Session.splice`, `Session.append`: part of a buffer replaced, or bytes added to it; a buffer that
  a bound name borrows keeps its length;
* `Session.sort`: objects in ascending order.
-/

namespace FixedLayout

/-- The state of a session. -/
structure Workspace where
  catalog : Catalog
  cache : Cache
  store : Store
  names : List (String × Object)

/-- A workspace without definitions, objects and names. -/
def Workspace.empty : Workspace := ⟨[], [], .empty, []⟩

/-- A computation in a workspace. -/
abbrev Session (α : Type) := ExceptT Fault (StateM Workspace) α

namespace Session

/-- An outcome whose failure is a fault. -/
def lift {ε α : Type} (toFault : ε → Fault) : Except ε α → Session α
  | .ok a => pure a
  | .error e => throw (toFault e)

@[simp] theorem lift_ok {ε α : Type} (toFault : ε → Fault) (a : α) :
    lift toFault (.ok a) = pure a := rfl

@[simp] theorem lift_error {ε α : Type} (toFault : ε → Fault) (e : ε) :
    lift toFault (.error e : Except ε α) = throw (toFault e) := rfl

/-- A change of the store. -/
def onStore {α : Type} (change : StateM Store α) : Session α :=
  modifyGet fun w =>
    let (a, store) := change w.store
    (a, { w with store })

/-- A question to the store. -/
def asks {α : Type} (question : Store → α) : Session α := do return question (← get).store

/-- The outcome of a computation that does not end the session if it fails. -/
def outcome {α : Type} (s : Session α) : Session (Except Fault α) := fun w =>
  let (r, w) := s w
  (.ok r, w)

/-! ### Names -/

/-- Binds a name to an object. -/
def bind (name : String) (o : Object) : Session Unit :=
  modify fun w => { w with names := (name, o) :: w.names.filter (·.1 != name) }

/-- The object that a name is bound to. -/
def lookup (name : String) : Session Object := do
  match (← get).names.lookup name with
  | some o => return o
  | none => throw (.unbound name)

/-! ### Types -/

/-- The layout of a type. -/
def compile (t : TypeExpr) : Session Layout := fun w =>
  let (r, cache) := w.catalog.compile t w.cache
  (r.mapError SchemaFault.toFault, { w with cache })

/-- The model of a packed class; plain models and enumerations have no operations of their own. -/
def packedModel (name : String) : Session ModelDef := do
  match (← get).catalog.model? name with
  | some m => if m.kind = .plain then throw .noAttribute else return m
  | none => throw .noAttribute

/-! ### Objects -/

/-- What an object looks like now. -/
def value (o : Object) : Session Value := asks (·.valueOf o)

/-- A new object that looks like a value. -/
def place (v : Value) : Session Object := onStore (Store.place v)

/-- A dictionary of entries. Its keys have to be such that they can be looked up. -/
def dict (entries : List (Object × Object)) : Session Object := do
  let store := (← get).store
  match Value.hashFaultEach? (entries.map fun e => store.valueOf e.1) with
  | some fault => throw fault.toFault
  | none => return .dict (Value.dictEntries store.valueOf entries)

/-- The bytes of a window. -/
def read (w : Window) : Session Bytes := asks (·.read w)

/-- The bytes of a bytes-like object, lent to whoever looks at them. -/
def windowOf (o : Object) : Session Window := do
  match o with
  | .buffer id => return ⟨id, 0, (← asks (·.content id)).length⟩
  | .memory window _ _ => return window
  | .plain (.bytes content) => onStore (Store.newWindow content)
  | _ => throw .unsuitable

/-- The bytes of a bytes-like object. -/
def bytesOf (o : Object) : Session Bytes := do
  match (← value o).flatBytes? with
  | some content => return content
  | none => throw .unsuitable

/-- Replaces the bytes of a buffer between two bounds. Its length cannot change while a bound name
holds an unreleased view of it. -/
def splice (o : Object) (lo hi : Int) (data : Bytes) : Session Object := do
  match o with
  | .buffer id =>
    let w ← get
    let old := w.store.content id
    let start := Bytes.bound old.length lo
    let stop := max start (Bytes.bound old.length hi)
    let new := old.take start ++ data ++ old.drop stop
    if new.length ≠ old.length ∧ w.names.any (fun n => w.store.borrows id n.2) then throw .inUse
    set { w with store := w.store.setContent id new }
    return o
  | _ => throw .unsuitable

/-- Adds bytes at the end of a buffer. -/
def append (o : Object) (data : Bytes) : Session Object := do
  match o with
  | .buffer id =>
    let length := (← asks (·.content id)).length
    splice o length length data
  | _ => throw .noAttribute

/-- The member of an enumeration of a given name. -/
def member (enum name : String) : Session Object := do
  match ((← get).catalog.enum? enum).bind (·.member? name) with
  | some v => return .plain v
  | none => throw .noKey

/-- Objects in ascending order of what they look like. -/
def sort (os : List Object) : Session (List Object) := do
  let store := (← get).store
  lift OrderFault.toFault (Value.sort store.valueOf os)

end Session

end FixedLayout
