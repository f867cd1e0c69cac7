import Mathlib.Data.List.Forall2
import FixedLayout.Proofs.Buffers
import FixedLayout.Workspace.Handles

/-!
# Objects that look like values

A value that is placed in a store becomes an object that looks like it, and stays so while things
are added to the store. A view looks like the bytes of its window.

* `Store.Extends`: a store to which buffers, instances and views have been added;
* `Store.Shows`: an object looks like a value, whatever is added;
* `Store.place_spec`: placing a value only adds to the store, and the object looks like the value;
* `Object.lends?`: the bytes that a bytes-like object lends. `Session.windowOf_of_lends`,
  `Session.exists_lent`: they are at hand for what follows;
* `Session.Returns`: a computation returns an object that looks like a value;
* `Session.unpackBytes_of_ok`, `Session.unpack_view`: what bytes and views are unpacked to.
-/

namespace FixedLayout

namespace Store

/-- A store with further buffers, instances and views. -/
structure Extends (s after : Store) : Prop where
  buffers : s.buffers <+: after.buffers
  records : s.records <+: after.records
  views : s.views <+: after.views

variable {s after last : Store}

theorem Extends.refl (s : Store) : s.Extends s :=
  ⟨List.prefix_refl _, List.prefix_refl _, List.prefix_refl _⟩

theorem Extends.trans (h : s.Extends after) (h' : after.Extends last) : s.Extends last :=
  ⟨h.buffers.trans h'.buffers, h.records.trans h'.records, h.views.trans h'.views⟩

/-- Something that is in a list is in the same place of a longer one. -/
theorem getElem?_of_prefix {α : Type} {xs ys : List α} (h : xs <+: ys) {i : Nat} {x : α}
    (hx : xs[i]? = some x) : ys[i]? = some x := by
  obtain ⟨rest, rfl⟩ := h
  obtain ⟨hi, -⟩ := List.getElem?_eq_some_iff.1 hx
  rw [List.getElem?_append_left hi, hx]

theorem content_of_extends (h : s.Extends after) {id : Nat} {content : Bytes}
    (hid : s.buffers[id]? = some content) : after.content id = content := by
  rw [Store.content, List.getD_eq_getElem?_getD, getElem?_of_prefix h.buffers hid]
  rfl

/-- An object looks like a value, whatever is added to the store. -/
def Shows (s : Store) (o : Object) (v : Value) : Prop :=
  ∀ after depth, s.Extends after → s.records.length ≤ depth →
    o.value after (after.recordValue depth) = v

theorem Shows.valueOf {o : Object} {v : Value} (h : s.Shows o v) : s.valueOf o = v :=
  h s s.records.length (.refl s) (Nat.le_refl _)

theorem Shows.mono {o : Object} {v : Value} (h : s.Shows o v) (hafter : s.Extends after) :
    after.Shows o v :=
  fun last depth hlast hdepth =>
    h last depth (hafter.trans hlast) (Nat.le_trans hafter.records.length_le hdepth)

theorem shows_plain (s : Store) (v : Value) : s.Shows (.plain v) v := fun _ _ _ _ => rfl

/-! ### Several objects -/

/-- Objects look like values, one by one. -/
def ShowsEach (s : Store) : List Object → List Value → Prop := List.Forall₂ s.Shows

/-- Fields look like named values, one by one. -/
def ShowsFields (s : Store) : List (String × Object) → List (String × Value) → Prop :=
  List.Forall₂ fun f g => f.1 = g.1 ∧ s.Shows f.2 g.2

/-- Entries look like pairs of values, one by one. -/
def ShowsPairs (s : Store) : List (Object × Object) → List (Value × Value) → Prop :=
  List.Forall₂ fun e p => s.Shows e.1 p.1 ∧ s.Shows e.2 p.2

theorem ShowsEach.values {os : List Object} {vs : List Value} (h : s.ShowsEach os vs)
    (hafter : s.Extends after) {depth : Nat} (hdepth : s.records.length ≤ depth) :
    Object.values after (after.recordValue depth) os = vs := by
  induction h with
  | nil => rfl
  | cons ho _ ih => rw [Object.values, ho after depth hafter hdepth, ih]

theorem ShowsPairs.pairs {es : List (Object × Object)} {ps : List (Value × Value)}
    (h : s.ShowsPairs es ps) (hafter : s.Extends after) {depth : Nat}
    (hdepth : s.records.length ≤ depth) :
    Object.pairs after (after.recordValue depth) es = ps := by
  induction h with
  | nil => rfl
  | cons he _ ih =>
    rw [Object.pairs, he.1 after depth hafter hdepth, he.2 after depth hafter hdepth, ih]

theorem ShowsFields.map {fs : List (String × Object)} {gs : List (String × Value)}
    (h : s.ShowsFields fs gs) (hafter : s.Extends after) {depth : Nat}
    (hdepth : s.records.length ≤ depth) :
    fs.map (fun f => (f.1, f.2.value after (after.recordValue depth))) = gs := by
  induction h with
  | nil => rfl
  | cons hf _ ih => rw [List.map_cons, hf.2 after depth hafter hdepth, hf.1, ih]

/-! ### What is added -/

theorem extends_newBuffer (s : Store) (content : Bytes) : s.Extends (newBuffer content s).2 :=
  ⟨List.prefix_append _ _, List.prefix_refl _, List.prefix_refl _⟩

/-- A new buffer has its content, whatever is added to the store. -/
theorem content_newBuffer (s : Store) (content : Bytes)
    (hafter : (newBuffer content s).2.Extends after) :
    after.content (newBuffer content s).1 = content :=
  content_of_extends hafter List.getElem?_concat_length

theorem extends_newWindow (s : Store) (content : Bytes) : s.Extends (newWindow content s).2 :=
  extends_newBuffer s content

theorem read_newWindow (s : Store) (content : Bytes)
    (hafter : (newWindow content s).2.Extends after) :
    after.read (newWindow content s).1 = content := by
  have hcontent : after.content s.buffers.length = content := content_newBuffer s content hafter
  show ((after.content s.buffers.length).drop 0).take content.length = content
  rw [hcontent, List.drop_zero, List.take_length]

theorem extends_newView (s : Store) (layout : Layout) (window : Window) :
    s.Extends (newView layout window s).2 :=
  ⟨List.prefix_refl _, List.prefix_refl _, List.prefix_append _ _⟩

/-- A new view is there, whatever is added to the store. -/
theorem views_newView (s : Store) (layout : Layout) (window : Window)
    (hafter : (newView layout window s).2.Extends after) :
    after.views[(newView layout window s).1]? = some ⟨layout, window, false⟩ :=
  getElem?_of_prefix hafter.views List.getElem?_concat_length

/-- A new view looks like the bytes of its window, as long as these stay. -/
theorem shows_newView (layout : Layout) {window : Window} {content : Bytes}
    (h : ∀ after, s.Extends after → after.read window = content) :
    (newView layout window s).2.Shows (.view (newView layout window s).1)
      (.view layout (some content)) := by
  intro after depth hafter _
  show after.viewValue _ = _
  unfold viewValue
  rw [views_newView s layout window hafter]
  exact congrArg (fun content => Value.view layout (some content))
    (h after ((extends_newView s layout window).trans hafter))

theorem extends_newRecord (s : Store) (cls : ModelClass) (fields : List (String × Object)) :
    s.Extends (newRecord cls fields s).2 :=
  ⟨List.prefix_refl _, List.prefix_append _ _, List.prefix_refl _⟩

/-- One step leads from an instance to its fields. -/
theorem recordValue_succ {id : Nat} {cls : ModelClass} {fields : List (String × Object)}
    (h : s.records[id]? = some (cls, fields)) (depth : Nat) : s.recordValue (depth + 1) id =
      .record cls (fields.map fun f => (f.1, f.2.value s (s.recordValue depth))) := by
  rw [recordValue, h]

/-- A new instance looks like its fields. -/
theorem shows_newRecord {cls : ModelClass} {fs : List (String × Object)}
    {gs : List (String × Value)} (h : s.ShowsFields fs gs) :
    (newRecord cls fs s).2.Shows (.record (newRecord cls fs s).1) (.record cls gs) := by
  intro after depth hafter hdepth
  have hlen : (newRecord cls fs s).2.records.length = s.records.length + 1 := List.length_append
  have hrecord : after.records[s.records.length]? = some (cls, fs) :=
    getElem?_of_prefix hafter.records List.getElem?_concat_length
  obtain ⟨depth, rfl⟩ : ∃ d, depth = d + 1 := ⟨depth - 1, by omega⟩
  show after.recordValue (depth + 1) s.records.length = _
  rw [recordValue_succ hrecord, h.map ((extends_newRecord s cls fs).trans hafter) (by omega)]

/-! ### Placing -/

mutual

/-- Placing a value only adds to the store, and the new object looks like the value. -/
theorem place_spec : ∀ (v : Value) (s : Store),
    s.Extends (place v s).2 ∧ (place v s).2.Shows (place v s).1 v
  | .null, s => ⟨.refl s, shows_plain s _⟩
  | .bool _, s => ⟨.refl s, shows_plain s _⟩
  | .int _, s => ⟨.refl s, shows_plain s _⟩
  | .float _, s => ⟨.refl s, shows_plain s _⟩
  | .text _, s => ⟨.refl s, shows_plain s _⟩
  | .bytes _, s => ⟨.refl s, shows_plain s _⟩
  | .member _ _ _ _, s => ⟨.refl s, shows_plain s _⟩
  | .packet _ _, s => ⟨.refl s, shows_plain s _⟩
  | .view _ none, s => ⟨.refl s, shows_plain s _⟩
  | .list items, s => by
    obtain ⟨hextends, hshows⟩ := placeEach_spec items s
    exact ⟨hextends, fun after depth hafter hdepth =>
      congrArg Value.list (hshows.values hafter hdepth)⟩
  | .tuple items, s => by
    obtain ⟨hextends, hshows⟩ := placeEach_spec items s
    exact ⟨hextends, fun after depth hafter hdepth =>
      congrArg Value.tuple (hshows.values hafter hdepth)⟩
  | .dict items, s => by
    obtain ⟨hextends, hshows⟩ := placePairs_spec items s
    exact ⟨hextends, fun after depth hafter hdepth =>
      congrArg Value.dict (hshows.pairs hafter hdepth)⟩
  | .bytearray content, s =>
    ⟨extends_newBuffer s content, fun after depth hafter _ =>
      congrArg Value.bytearray (content_newBuffer s content hafter)⟩
  | .memory m, s =>
    ⟨extends_newWindow s m.bytes, fun after depth hafter _ =>
      congrArg (fun content => Value.memory ⟨content, m.format, m.rows⟩)
        (read_newWindow s m.bytes hafter)⟩
  | .record cls fields, s => by
    obtain ⟨hextends, hshows⟩ := placeFields_spec fields s
    exact ⟨hextends.trans (extends_newRecord _ cls _), shows_newRecord hshows⟩
  | .view layout (some content), s => by
    exact ⟨(extends_newWindow s content).trans (extends_newView _ layout _),
      shows_newView layout fun after hafter => read_newWindow s content hafter⟩

theorem placeEach_spec : ∀ (vs : List Value) (s : Store),
    s.Extends (placeEach vs s).2 ∧ (placeEach vs s).2.ShowsEach (placeEach vs s).1 vs
  | [], s => ⟨.refl s, .nil⟩
  | v :: vs, s => by
    obtain ⟨hfirst, hshows⟩ := place_spec v s
    obtain ⟨hrest, hothers⟩ := placeEach_spec vs (place v s).2
    exact ⟨hfirst.trans hrest, .cons (hshows.mono hrest) hothers⟩

theorem placePairs_spec : ∀ (ps : List (Value × Value)) (s : Store),
    s.Extends (placePairs ps s).2 ∧ (placePairs ps s).2.ShowsPairs (placePairs ps s).1 ps
  | [], s => ⟨.refl s, .nil⟩
  | (k, v) :: ps, s => by
    obtain ⟨hkey, hshowsKey⟩ := place_spec k s
    obtain ⟨hvalue, hshows⟩ := place_spec v (place k s).2
    obtain ⟨hrest, hothers⟩ := placePairs_spec ps (place v (place k s).2).2
    exact ⟨(hkey.trans hvalue).trans hrest,
      .cons ⟨hshowsKey.mono (hvalue.trans hrest), hshows.mono hrest⟩ hothers⟩

theorem placeFields_spec : ∀ (fs : List (String × Value)) (s : Store),
    s.Extends (placeFields fs s).2 ∧ (placeFields fs s).2.ShowsFields (placeFields fs s).1 fs
  | [], s => ⟨.refl s, .nil⟩
  | (name, v) :: fs, s => by
    obtain ⟨hfirst, hshows⟩ := place_spec v s
    obtain ⟨hrest, hothers⟩ := placeFields_spec fs (place v s).2
    exact ⟨hfirst.trans hrest, .cons ⟨rfl, hshows.mono hrest⟩ hothers⟩

end

end Store

/-- The bytes that an object lends to whoever looks at them. -/
def Object.lends? (s : Store) : Object → Option Bytes
  | .buffer id => some (s.content id)
  | .memory window _ _ => some (s.read window)
  | .plain (.bytes content) => some content
  | _ => none

/-! ### Sessions -/

namespace Session

variable {w : Workspace} {l : Layout} {data : Bytes}

/-- A computation returns an object that looks like a value. -/
def Returns (m : Session Object) (w : Workspace) (v : Value) : Prop :=
  ∃ o after, m w = (.ok o, after) ∧ after.store.valueOf o = v

theorem compile_of_ok {t : TypeExpr} (h : (w.catalog.compile t w.cache).1 = .ok l) :
    compile t w = (.ok l, { w with cache := (w.catalog.compile t w.cache).2 }) := by
  have hcompile : compile t w = ((w.catalog.compile t w.cache).1.mapError SchemaFault.toFault,
      { w with cache := (w.catalog.compile t w.cache).2 }) := rfl
  rw [hcompile, h]
  rfl

theorem read_eq {window : Window} (h : w.store.read window = data) :
    read window w = (.ok data, w) := by
  subst h
  rfl

/-- The window of a bytes-like object has the bytes that the object lends. Only a buffer is added,
if anything. -/
theorem windowOf_of_lends {o : Object} (h : o.lends? w.store = some data) :
    ∃ window store, windowOf o w = (.ok window, { w with store }) ∧ w.store.Extends store ∧
      store.read window = data := by
  cases o with
  | buffer id =>
    cases h
    refine ⟨⟨id, 0, (w.store.content id).length⟩, w.store, rfl, .refl _, ?_⟩
    unfold Store.read
    rw [List.drop_zero, List.take_length]
  | memory window format rows =>
    cases h
    exact ⟨window, w.store, rfl, .refl _, rfl⟩
  | plain v =>
    cases v with
    | bytes content =>
      cases h
      exact ⟨_, _, rfl, Store.extends_newWindow _ _, Store.read_newWindow _ _ (.refl _)⟩
    | _ => cases h
  | _ => cases h

/-- What is done with a layout and the bytes that an object lends starts with both at hand. -/
theorem exists_lent {t : TypeExpr} {o : Object} (hlayout : (w.catalog.compile t w.cache).1 = .ok l)
    (ho : o.lends? w.store = some data) :
    ∃ window between, between.store.read window = data ∧
      ∀ {α : Type} (f : Layout → Window → Session α),
        (do f (← compile t) (← windowOf o)) w = f l window between := by
  obtain ⟨window, store, hwindow, -, hread⟩ :=
    windowOf_of_lends (w := { w with cache := (w.catalog.compile t w.cache).2 }) ho
  refine ⟨window, { w with cache := (w.catalog.compile t w.cache).2, store }, hread, fun f => ?_⟩
  rw [bind_of_ok (compile_of_ok hlayout), bind_of_ok hwindow]

/-- Bytes are unpacked to a new object for the value that they are decoded to. -/
theorem unpackBytes_eq {v : Value} (h : l.decode data = .ok v) : unpackBytes l data w =
    (.ok (Store.place v w.store).1, { w with store := (Store.place v w.store).2 }) := by
  have hlift : lift id (l.unpack data) w = (.ok v, w) := by
    unfold Layout.unpack
    rw [h]
    rfl
  unfold unpackBytes
  rw [bind_of_ok hlift]
  rfl

/-- Bytes are unpacked to an object that looks like the value that they are decoded to. -/
theorem unpackBytes_of_ok {v : Value} (h : l.decode data = .ok v) :
    (unpackBytes l data).Returns w v :=
  ⟨_, _, unpackBytes_eq h, (Store.place_spec v w.store).2.valueOf⟩

/-- Bytes that cannot be decoded are not unpacked. -/
theorem unpackBytes_of_error {fault : DecodeFault} (h : l.decode data = .error fault) :
    unpackBytes l data w = (.error fault.toFault, w) := by
  refine bind_of_error ?_
  unfold Layout.unpack
  rw [h]
  rfl

variable {id : Nat} {cell : ViewCell} (hcell : w.store.views[id]? = some cell)

include hcell

theorem viewCell_eq : viewCell id w = (.ok cell, w) := by
  have hasks : asks (·.views) w = (.ok w.store.views, w) := rfl
  unfold viewCell
  rw [bind_of_ok hasks, hcell]
  rfl

/-- A view that has not been released is unpacked from the bytes of its window. -/
theorem unpack_view (hlive : cell.released = false) :
    unpack (.view id) w = unpackBytes cell.layout (w.store.read cell.window) w := by
  have hwindow : liveWindow cell w = (.ok cell.window, w) := by
    unfold liveWindow
    rw [hlive]
    rfl
  have hbytes : withBytes (.view id) w = (.ok (cell.layout, w.store.read cell.window), w) := by
    unfold withBytes
    simp only
    rw [bind_of_ok (viewCell_eq hcell), bind_of_ok hwindow, bind_of_ok (read_eq rfl)]
    rfl
  unfold unpack
  rw [bind_of_ok hbytes]

end Session

end FixedLayout
