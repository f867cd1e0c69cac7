import FixedLayout.Workspace.Models
import FixedLayout.Workspace.Reserved

/-!
# Views and packets

A view borrows bytes and can be released; a packet owns its bytes. Both know their layout.

* `Session.withBytes`: the layout and bytes of a view or packet;
* `Session.instanceBytes`: the bytes of the packet of an instance;
* `Session.field`, `Session.index`, `Session.entries`: views of parts of a view;
* `Session.select`: what a name after a dot stands for. Names of operations win over accessors;
* `Session.unpack`, `Session.toOwned`, `Session.borrow`: the value, a packet of a view, a view of a
  packet;
* `Session.release`: ends a view; its bytes can then not be reached through it any more.
-/

namespace FixedLayout

/-- An index as a number: an integer, a truth value, or a float. -/
inductive Position
  | whole (n : Int) (text : String)
  | fraction (x : Binary64)

/-- The position that a value stands for. -/
def Value.position? : Value → Option Position
  | .float x => some (.fraction x)
  | v => v.integerOrBool?.map fun n => .whole n v.plain

/-- A float after an integer has been added to it. -/
def Binary64.addInt (x : Binary64) (n : Int) : Binary64 :=
  match x.ratio? with
  | some (a, b) =>
    let sum := a + n * b
    .ofRatio (sum < 0) sum.natAbs b
  | none => x

namespace Layout

/-- The entry that a float reaches. None is a byte range, so that one inside the bounds is
unsuitable as well. -/
def entryAtFloat (l : Layout) (x : Binary64) : Except Fault Slot :=
  match l with
  | .array _ length =>
    let ratioLt := fun (y : Binary64) (n : Int) =>
      match y.magnitude? with
      | some m => m.lt (.ratio n 1)
      | none => false
    let y := if ratioLt x 0 then x.addInt length else x
    let inside := y.magnitude?.isSome && !ratioLt y 0 && ratioLt y length
    if inside then .error .unsuitable else .error (.outsideArray l.typeName y.render)
  | l =>
    match l.entryCount? with
    | some _ => .error .unsuitable
    | none => .error (.noEntries l.typeName)

/-- The entry that a value reaches. -/
def entryAt (l : Layout) (v : Value) : Except Fault Slot :=
  match v.position? with
  | some (.whole n text) =>
    match l.entry n with
    | .error (.outsideArray typeName index) =>
      .error (.outsideArray typeName (if index = n then text else toString index))
    | r => r.mapError EntryFault.toFault
  | some (.fraction x) => l.entryAtFloat x
  | none =>
    match l.entryCount? with
    | some _ => .error .unsuitable
    | none => .error (.noEntries l.typeName)

end Layout

namespace Session

/-! ### Bytes of handles -/

/-- The cell of a view. -/
def viewCell (id : Nat) : Session ViewCell := do
  match (← asks (·.views))[id]? with
  | some cell => return cell
  | none => throw .noAttribute

/-- The cell of an object that has to be a view. -/
def asView (o : Object) : Session ViewCell := do
  match o with
  | .view id => viewCell id
  | _ => throw .noAttribute

/-- The window of a view that has not been released. -/
def liveWindow (cell : ViewCell) : Session Window :=
  if cell.released then throw (.released cell.layout.typeName) else return cell.window

/-- The layout of a view or packet. -/
def layoutOf (o : Object) : Session Layout := do
  match o with
  | .view id => return (← viewCell id).layout
  | .plain (.packet layout _) => return layout
  | _ => throw .noAttribute

/-- The layout and the bytes of a view or packet. -/
def withBytes (o : Object) : Session (Layout × Bytes) := do
  match o with
  | .view id =>
    let cell ← viewCell id
    return (cell.layout, ← read (← liveWindow cell))
  | .plain (.packet layout content) => return (layout, content)
  | _ => throw .noAttribute

/-- The bytes of a view, a packet or a bytes-like object. -/
def toBytes (o : Object) : Session Bytes := do
  match o with
  | .view _ | .plain (.packet _ _) => return (← withBytes o).2
  | o => bytesOf o

/-- The bytes of an instance of a packed model: those of its packet. -/
def instanceBytes (target : Object) : Session Bytes := do
  callable target "to_bytes"
  toBytes (← packInstance target)

/-- The value of a view or packet. -/
def unpack (o : Object) : Session Object := do
  let (layout, content) ← withBytes o
  unpackBytes layout content

/-- A packet with the bytes of a view or packet. -/
def copied (o : Object) : Session Object := do
  let (layout, content) ← withBytes o
  return .plain (.packet layout content)

/-- A packet with the bytes of a view. -/
def toOwned (o : Object) : Session Object := do
  discard (asView o)
  copied o

/-- The value of a view. -/
def unpackView (o : Object) : Session Object := do
  discard (asView o)
  unpack o

/-- The bytes of a view, of which nothing can be written. -/
def asSlice (o : Object) : Session Bytes := do read (← liveWindow (← asView o))

/-- Ends a view. -/
def release (o : Object) : Session Unit := do
  discard (asView o)
  match o with
  | .view id => modify fun w => { w with store := w.store.release id }
  | _ => pure ()

/-- A session with a view that is ended afterwards. -/
def during {α : Type} (o : Object) (body : Session α) : Session α := do
  match o with
  | .view _ =>
    let r ← outcome body
    release o
    lift id r
  | _ => throw .unsuitable

/-! ### Parts of views -/

/-- The view of a slot of a view. -/
def child (cell : ViewCell) (slot : Slot) : Session Object := do
  let window ← liveWindow cell
  return .view (← onStore (Store.newView slot.layout (window.slice slot.start slot.stop)))

/-- The view of the field that an accessor reaches. -/
def field (o : Object) (name : String) : Session Object := do
  let cell ← asView o
  match cell.layout.accessor? name with
  | some slot => child cell slot
  | none => throw (.noAccessor cell.layout.typeName name)

/-- What a name after a dot stands for: an operation, or a field. -/
inductive Selected
  | operation
  | part (o : Object)

/-- What a name after a dot stands for. -/
def select (o : Object) (name : String) : Session Selected := do
  match o with
  | .view _ =>
    if viewOperations.contains name then return .operation
    else if name.startsWith "_" then throw (.hiddenName name)
    else return .part (← field o name)
  | .plain (.packet _ _) =>
    if packetOperations.contains name then return .operation else throw .noAttribute
  | o => return .part (← getField o name)

/-- The item of a list of objects that a value reaches. -/
def itemAt (os : List Object) (i : Value) : Session Object := do
  match i.integerOrBool? with
  | none => throw .unsuitable
  | some n =>
    let n := if n < 0 then n + os.length else n
    if n < 0 then throw .noEntry
    else
      match os[n.toNat]? with
      | some o => return o
      | none => throw .noEntry

/-- The entry of a view, of a tuple model or of a list that an index reaches. -/
def index (o : Object) (i : Value) : Session Object := do
  match o with
  | .view view =>
    let cell ← viewCell view
    child cell (← lift id (cell.layout.entryAt i))
  | .record id =>
    if (← instanceFields id).1.positional then itemAt (← astuple o) i else throw .unsuitable
  | .list os | .tuple os => itemAt os i
  | _ => throw .unsuitable

/-- The views of the entries of a view with the given numbers. -/
def children (cell : ViewCell) (numbers : List Nat) : Session (List Object) :=
  numbers.mapM fun (n : Nat) => do
    child cell (← lift Layout.EntryFault.toFault (cell.layout.entry n))

/-- The numbers of the entries of a layout. -/
def entryNumbers (l : Layout) : Session (List Nat) :=
  match l.entryCount? with
  | some n => return List.range n.toNat
  | none => throw (.noEntries l.typeName)

/-- The entries of a view, or the items of another object that can be gone through. -/
def entries (o : Object) : Session (List Object) := do
  match o with
  | .view id =>
    let cell ← viewCell id
    children cell (← entryNumbers cell.layout)
  | .list os | .tuple os => return os
  | o => (← lift SequenceFault.toFault (← value o).items).mapM place

/-- The entries from the last one to the first. -/
def reversedEntries (o : Object) : Session (List Object) := do
  match o with
  | .view id =>
    let cell ← viewCell id
    children cell (← entryNumbers cell.layout).reverse
  | .record id =>
    if (← instanceFields id).1.positional then return (← astuple o).reverse else throw .unsuitable
  | o => return (← entries o).reverse

/-- The values of the entries. -/
def entryValues (o : Object) : Session (List Object) := do (← entries o).mapM unpack

/-- The number of entries of a view or tuple model, of bytes of a packet, of items of a list. -/
def length (o : Object) : Session Nat := do
  match (← value o).extent with
  | .count n => return n
  | .fault fault => throw fault.toFault
  | .unsized => throw .unsuitable

/-- Whether an object counts as true: a view always does, a packet or a tuple model if it is not
empty. -/
def truth (o : Object) : Session Bool := do
  match ← value o with
  | .null => return false
  | .bool b => return b
  | .int n => return n ≠ 0
  | .view _ _ => return true
  | .float x => return !(x.magnitude?.any (·.eq (.ratio 0 1)))
  | v =>
    match v.extent with
    | .count n => return n ≠ 0
    | _ => return true

/-! ### Views of packets -/

/-- A view of a packet's own bytes. A view has no such operation, but it may have a field of that
name, which cannot be called. -/
def borrow (o : Object) : Session Object := do
  match o with
  | .plain (.packet layout content) =>
    let window ← onStore (Store.newWindow content)
    return .view (← onStore (Store.newView layout window))
  | .view _ =>
    discard (field o "view")
    throw .unsuitable
  | .record _ => throw .unsuitable
  | _ => throw .noAttribute

end Session

end FixedLayout
