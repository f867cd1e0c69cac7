import FixedLayout.Value.Equal

/-!
# Objects and the store

Some values have an identity: a buffer is seen changed by all who hold it, a released view is
released for everyone. An `Object` refers to such a value by its number in a `Store`; everything
else it holds in place.

* `Window`: a run of bytes of a buffer;
* `Object`: a value some parts of which live in a store;
* `ViewCell`, `Store`: a view, and all buffers, instances and views made so far;
* `Store.read`, `Store.write`: the bytes of a window, and a store with others in their place;
* `Store.valueOf`: what an object looks like now;
* `Store.place`: a new object that looks like a value;
* `Store.adopt`: an object that looks like a value which was made from another object, and shares
  with that one what the two have in common;
* `Store.borrows`: whether an unreleased view that an object holds depends on a buffer.
-/

namespace FixedLayout

/-- A run of `count` bytes of a buffer from position `start` on. -/
structure Window where
  buffer : Nat
  start : Nat
  count : Nat
  deriving DecidableEq, Repr

/-- The part of a window between two bounds. -/
def Window.slice (w : Window) (lo hi : Int) : Window :=
  let start := Bytes.bound w.count lo
  ⟨w.buffer, w.start + start, Bytes.bound w.count hi - start⟩

/-- A value some parts of which are in a store. -/
inductive Object
  /-- A value that never changes. -/
  | plain (v : Value)
  | list (items : List Object)
  | tuple (items : List Object)
  | dict (items : List (Object × Object))
  | buffer (id : Nat)
  /-- A window of a buffer, seen as items of a format, in rows if there are two dimensions. -/
  | memory (window : Window) (format : ItemFormat) (rows : Option Nat)
  | record (id : Nat)
  | view (id : Nat)

instance : Inhabited Object := ⟨.plain .null⟩

/-- A view: the layout of its bytes, where they are, and whether it has been released. -/
structure ViewCell where
  layout : Layout
  window : Window
  released : Bool

/-- The buffers, instances and views made so far. -/
structure Store where
  buffers : List Bytes
  records : List (ModelClass × List (String × Object))
  views : List ViewCell

namespace Store

/-- A store without anything in it. -/
def empty : Store := ⟨[], [], []⟩

/-! ### Buffers -/

/-- The content of a buffer. -/
def content (s : Store) (id : Nat) : Bytes := s.buffers.getD id []

/-- The bytes of a window. -/
def read (s : Store) (w : Window) : Bytes := ((s.content w.buffer).drop w.start).take w.count

/-- A store with another content of a buffer. -/
def setContent (s : Store) (id : Nat) (content : Bytes) : Store :=
  { s with buffers := s.buffers.set id content }

/-- A buffer has the content that it was given last. -/
theorem content_setContent {s : Store} {id : Nat} (h : id < s.buffers.length) (content : Bytes) :
    (s.setContent id content).content id = content := by
  simp [setContent, Store.content, h]

/-- All other buffers keep theirs. -/
theorem content_setContent_of_ne (s : Store) {id other : Nat} (h : id ≠ other) (content : Bytes) :
    (s.setContent id content).content other = s.content other := by
  simp [setContent, Store.content, List.getD_eq_getElem?_getD, List.getElem?_set_ne h]

/-- A store with other bytes in place of those of a window. -/
def write (s : Store) (w : Window) (data : Bytes) : Store :=
  s.setContent w.buffer (Bytes.overwrite (s.content w.buffer) w.start data)

/-- A new buffer. -/
def newBuffer (content : Bytes) : StateM Store Nat := fun s =>
  (s.buffers.length, { s with buffers := s.buffers ++ [content] })

/-- A window of all bytes of a new buffer. -/
def newWindow (content : Bytes) : StateM Store Window := do
  let id ← newBuffer content
  return ⟨id, 0, content.length⟩

/-! ### Instances and views -/

/-- A new instance. -/
def newRecord (cls : ModelClass) (fields : List (String × Object)) : StateM Store Nat := fun s =>
  (s.records.length, { s with records := s.records ++ [(cls, fields)] })

/-- A store with other fields of an instance. -/
def setFields (s : Store) (id : Nat) (fields : List (String × Object)) : Store :=
  { s with records := s.records.modify id fun (cls, _) => (cls, fields) }

/-- A new view. -/
def newView (layout : Layout) (window : Window) : StateM Store Nat := fun s =>
  (s.views.length, { s with views := s.views ++ [⟨layout, window, false⟩] })

/-- A store in which a view is released. -/
def release (s : Store) (id : Nat) : Store :=
  { s with views := s.views.modify id fun cell => { cell with released := true } }

/-- The value of a view. -/
def viewValue (s : Store) (id : Nat) : Value :=
  match s.views[id]? with
  | some cell => .view cell.layout (if cell.released then none else some (s.read cell.window))
  | none => .null

/-! ### Objects as values -/

end Store

mutual

/-- What an object looks like, given what instances look like. -/
def Object.value (s : Store) (record : Nat → Value) : Object → Value
  | .plain v => v
  | .list items => .list (Object.values s record items)
  | .tuple items => .tuple (Object.values s record items)
  | .dict items => .dict (Object.pairs s record items)
  | .buffer id => .bytearray (s.content id)
  | .memory window format rows => .memory ⟨s.read window, format, rows⟩
  | .record id => record id
  | .view id => s.viewValue id

/-- What several objects look like. -/
def Object.values (s : Store) (record : Nat → Value) : List Object → List Value
  | [] => []
  | o :: rest => o.value s record :: Object.values s record rest

/-- What the entries of a dictionary look like. -/
def Object.pairs (s : Store) (record : Nat → Value) : List (Object × Object) → List (Value × Value)
  | [] => []
  | (k, v) :: rest => (k.value s record, v.value s record) :: Object.pairs s record rest

end

namespace Store

/-- What an instance looks like, where instances are followed a number of steps. -/
def recordValue (s : Store) : Nat → Nat → Value
  | 0, _ => .null
  | depth + 1, id =>
    match s.records[id]? with
    | some (cls, fields) =>
      .record cls (fields.map fun f => (f.1, f.2.value s (s.recordValue depth)))
    | none => .null

/-- What an object looks like now. No chain of instances is longer than there are instances. -/
def valueOf (s : Store) (o : Object) : Value := o.value s (s.recordValue s.records.length)

/-! ### Values as objects -/

mutual

/-- A new object that looks like a value. -/
def place : Value → StateM Store Object
  | .list items => do return .list (← placeEach items)
  | .tuple items => do return .tuple (← placeEach items)
  | .dict items => do return .dict (← placePairs items)
  | .bytearray content => do return .buffer (← newBuffer content)
  | .memory m => do return .memory (← newWindow m.bytes) m.format m.rows
  | .record cls fields => do
    let fields ← placeFields fields
    return .record (← newRecord cls fields)
  | .view layout (some content) => do
    let window ← newWindow content
    return .view (← newView layout window)
  | v => return .plain v

/-- New objects that look like values. -/
def placeEach : List Value → StateM Store (List Object)
  | [] => return []
  | v :: rest => do
    let o ← place v
    return o :: (← placeEach rest)

/-- New entries of a dictionary. -/
def placePairs : List (Value × Value) → StateM Store (List (Object × Object))
  | [] => return []
  | (k, v) :: rest => do
    let key ← place k
    let o ← place v
    return (key, o) :: (← placePairs rest)

/-- New fields of an instance. -/
def placeFields : List (String × Value) → StateM Store (List (String × Object))
  | [] => return []
  | (name, v) :: rest => do
    let o ← place v
    return (name, o) :: (← placeFields rest)

end

/-- The object that a dictionary holds for a text. -/
def entryNamed (items : List (Object × Object)) (name : String) : Option Object :=
  (items.find? fun e =>
    match e.1 with
    | .plain (.text key) => key == name
    | _ => false).map (·.2)

mutual

/-- An object that looks like a value made from another object. Instances, buffers and views are
kept as they are; lists and tuples are made anew. -/
def adopt : Value → Object → StateM Store Object
  | .record _ _, .record id => return .record id
  | .record cls fields, .dict items => do
    let fields ← adoptFields (entryNamed items) fields
    return .record (← newRecord cls fields)
  | .list vs, .list os => do return .list (← adoptEach vs os)
  | .list vs, .tuple os => do return .list (← adoptEach vs os)
  | .tuple vs, .list os => do return .tuple (← adoptEach vs os)
  | .tuple vs, .tuple os => do return .tuple (← adoptEach vs os)
  | .dict _, .dict items => return .dict items
  | .bytearray _, .buffer id => return .buffer id
  | .memory _, .memory window format rows => return .memory window format rows
  | .view _ _, .view id => return .view id
  | v, _ => place v

/-- Objects that look like values made from other objects. -/
def adoptEach : List Value → List Object → StateM Store (List Object)
  | [], _ => return []
  | v :: vs, [] => do
    let o ← place v
    return o :: (← placeEach vs)
  | v :: vs, o :: os => do
    let o ← adopt v o
    return o :: (← adoptEach vs os)

/-- Fields made from the objects that were given for them; other fields are new. -/
def adoptFields (given : String → Option Object) :
    List (String × Value) → StateM Store (List (String × Object))
  | [] => return []
  | (name, v) :: rest => do
    let o ←
      match given name with
      | some o => adopt v o
      | none => place v
    return (name, o) :: (← adoptFields given rest)

end

end Store

/-! ### Borrowed buffers -/

mutual

/-- Whether an object holds an unreleased view or a window of a buffer, given whether instances
do. -/
def Object.borrows (s : Store) (buffer : Nat) (record : Nat → Bool) : Object → Bool
  | .plain _ => false
  | .list items => Object.anyBorrows s buffer record items
  | .tuple items => Object.anyBorrows s buffer record items
  | .dict items => Object.pairBorrows s buffer record items
  | .buffer _ => false
  | .memory window _ _ => window.buffer == buffer
  | .record id => record id
  | .view id =>
    match s.views[id]? with
    | some cell => !cell.released && cell.window.buffer == buffer
    | none => false

/-- Whether one of several objects does. -/
def Object.anyBorrows (s : Store) (buffer : Nat) (record : Nat → Bool) : List Object → Bool
  | [] => false
  | o :: rest => o.borrows s buffer record || Object.anyBorrows s buffer record rest

/-- Whether an entry of a dictionary does. -/
def Object.pairBorrows (s : Store) (buffer : Nat) (record : Nat → Bool) :
    List (Object × Object) → Bool
  | [] => false
  | (k, v) :: rest =>
    k.borrows s buffer record || v.borrows s buffer record ||
      Object.pairBorrows s buffer record rest

end

namespace Store

/-- Whether an instance does, where instances are followed a number of steps. -/
def recordBorrows (s : Store) (buffer : Nat) : Nat → Nat → Bool
  | 0, _ => false
  | depth + 1, id =>
    match s.records[id]? with
    | some (_, fields) => fields.any fun f => f.2.borrows s buffer (s.recordBorrows buffer depth)
    | none => false

/-- Whether an object holds an unreleased view or a window of a buffer. -/
def borrows (s : Store) (buffer : Nat) (o : Object) : Bool :=
  o.borrows s buffer (s.recordBorrows buffer s.records.length)

end Store

end FixedLayout
