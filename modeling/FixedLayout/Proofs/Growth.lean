import FixedLayout.Proofs.Borrowing
import FixedLayout.Proofs.Handles

/-!
# Buffers and views that are added

The operations that make views and packets take nothing away. They add buffers, for bytes that
nobody else can write to, and views of bytes that are lent or of parts of other views.

* `Store.Grows`, `Session.Grows`: only buffers and views are added, and the new views are as
  described, with `Session.grows_pure` and `Session.Grows.bind`;
* `Object.Lends`: the window that a bytes-like object lends;
* `Session.grows_view`, `Session.grows_field`, …: what the operations add.
-/

namespace FixedLayout

/-! ### Computations that add buffers and views -/

/-- Buffers and views are added, and all others stay as they are. New views are as described. -/
structure Store.Grows (made : Store → ViewCell → Prop) (s now : Store) : Prop where
  buffers : s.buffers <+: now.buffers
  views : ∃ cells, now.views = s.views ++ cells ∧ ∀ cell ∈ cells, made now cell

/-- What is said of a view remains true when buffers are added. -/
def Lasting (made : Store → ViewCell → Prop) : Prop :=
  ∀ s now cell, s.buffers <+: now.buffers → made s cell → made now cell

section Stores

variable {made : Store → ViewCell → Prop} {s now last : Store} {window : Window}

theorem Store.Grows.refl (s : Store) : s.Grows made s :=
  ⟨List.prefix_refl _, [], (List.append_nil _).symm, by simp⟩

theorem Store.Grows.trans (hmade : Lasting made) (h : s.Grows made now)
    (h' : now.Grows made last) : s.Grows made last := by
  obtain ⟨cells, hcells, hall⟩ := h.views
  obtain ⟨others, hothers, hrest⟩ := h'.views
  refine ⟨h.buffers.trans h'.buffers, cells ++ others, ?_, ?_⟩
  · rw [hothers, hcells, List.append_assoc]
  · intro cell hcell
    rcases List.mem_append.1 hcell with hold | hnew
    · exact hmade _ _ cell h'.buffers (hall cell hold)
    · exact hrest cell hnew

/-- A part of a window lies inside the buffer, whatever its bounds are. -/
theorem Window.Within.slice (h : window.Within s) (lo hi : Int) :
    (window.slice lo hi).Within s := by
  obtain ⟨content, hcontent, hroom⟩ := h
  have hlo := Bytes.bound_le window.count lo
  have hhi := Bytes.bound_le window.count hi
  refine ⟨content, hcontent, ?_⟩
  simp only [Window.slice]
  omega

end Stores

namespace Session

/-- A computation only adds buffers and views. The new views and the result are as described. -/
structure Grows {α : Type} (made : Store → ViewCell → Prop) (m : Session α) (w : Workspace)
    (P : Workspace → α → Prop) : Prop where
  store : w.store.Grows made (m w).2.store
  result : ∀ a, (m w).1 = .ok a → P (m w).2 a

variable {α β : Type} {made : Store → ViewCell → Prop} {w : Workspace} {m : Session α}
  {f : α → Session β} {P : Workspace → α → Prop} {Q : Workspace → β → Prop}

/-- A computation leaves the store as it is. -/
theorem grows_of_store {r : Except Fault α} {after : Workspace} (hm : m w = (r, after))
    (hstore : after.store = w.store) (h : ∀ a, r = .ok a → P after a) : Grows made m w P := by
  constructor
  · rw [hm, hstore]
    exact .refl _
  · rw [hm]
    exact h

theorem grows_pure {a : α} (h : P w a) : Grows made (pure a) w P :=
  grows_of_store rfl rfl fun _ ha => by cases ha; exact h

theorem grows_throw (fault : Fault) : Grows made (throw fault) w P :=
  grows_of_store rfl rfl fun _ ha => by cases ha

theorem grows_lift {ε : Type} (toFault : ε → Fault) (r : Except ε α) (w : Workspace) :
    Grows made (lift toFault r) w fun after a => after = w ∧ r = .ok a := by
  cases r with
  | ok a => exact grows_pure ⟨rfl, rfl⟩
  | error e => exact grows_throw (toFault e)

theorem Grows.bind (hmade : Lasting made) (hm : Grows made m w P)
    (hf : ∀ a after, w.store.Grows made after.store → P after a → Grows made (f a) after Q) :
    Grows made (m >>= f) w Q := by
  cases hrun : m w with
  | mk r after =>
    have hstore := hm.store
    have hresult := hm.result
    rw [hrun] at hstore hresult
    cases r with
    | ok a =>
      obtain ⟨hlast, hQ⟩ := hf a after hstore (hresult a rfl)
      constructor
      · rw [bind_of_ok hrun]
        exact hstore.trans hmade hlast
      · rw [bind_of_ok hrun]
        exact hQ
    | error fault =>
      constructor
      · rw [bind_of_error hrun]
        exact hstore
      · rw [bind_of_error hrun]
        intro b hb
        cases hb

/-- What follows a computation that leaves the workspace as it is starts with what that one has
found. -/
theorem grows_bind_of_eq {r : Except Fault α} (hm : m w = (r, w))
    (hf : ∀ a, r = .ok a → Grows made (f a) w Q) : Grows made (m >>= f) w Q := by
  cases r with
  | ok a =>
    obtain ⟨hstore, hresult⟩ := hf a rfl
    exact ⟨by rw [bind_of_ok hm]; exact hstore, by rw [bind_of_ok hm]; exact hresult⟩
  | error fault =>
    exact grows_of_store (bind_of_error hm) rfl fun _ hb => by cases hb

theorem Grows.imp {R : Workspace → α → Prop} (hm : Grows made m w P)
    (h : ∀ after a, P after a → R after a) : Grows made m w R :=
  ⟨hm.store, fun a ha => h _ a (hm.result a ha)⟩

/-! ### What actions add -/

variable (hmade : Lasting made)

include hmade

theorem grows_newView {layout : Layout} {window : Window}
    (h : made w.store ⟨layout, window, false⟩) :
    Grows made (onStore (Store.newView layout window)) w fun _ _ => True := by
  refine ⟨⟨List.prefix_refl _, [⟨layout, window, false⟩], rfl, ?_⟩, fun _ _ => trivial⟩
  intro cell hcell
  rw [List.mem_singleton.1 hcell]
  exact hmade w.store _ _ (List.prefix_refl w.store.buffers) h

/-- The view of a part is added, if the whole has not been released. -/
theorem grows_child {cell : ViewCell} {slot : Slot} (h : cell.released = false →
      made w.store ⟨slot.layout, cell.window.slice slot.start slot.stop, false⟩) :
    Grows made (child cell slot) w fun _ _ => True := by
  unfold child
  cases hreleased : cell.released with
  | true => exact grows_of_store (child_of_released hreleased slot w) rfl fun _ _ => trivial
  | false =>
    refine grows_bind_of_eq (liveWindow_of_live hreleased w) fun window hwindow => ?_
    cases hwindow
    exact (grows_newView hmade (h hreleased)).bind hmade fun _ _ _ _ => grows_pure trivial

/-- The views of entries are added, if the whole has not been released. -/
theorem grows_children {cell : ViewCell} (numbers : List Nat)
    (h : ∀ (k : Nat) slot, cell.layout.entry k = .ok slot → cell.released = false →
      made w.store ⟨slot.layout, cell.window.slice slot.start slot.stop, false⟩) :
    Grows made (children cell numbers) w fun _ _ => True := by
  unfold children
  induction numbers generalizing w with
  | nil => exact grows_pure trivial
  | cons k rest ih =>
    rw [List.mapM_cons]
    have hfirst : Grows made (do
        child cell (← lift Layout.EntryFault.toFault (cell.layout.entry k))) w fun _ _ => True := by
      refine (grows_lift _ _ w).bind hmade fun slot after _ hslot => ?_
      obtain ⟨rfl, hslot⟩ := hslot
      exact grows_child hmade (h k slot hslot)
    refine hfirst.bind hmade fun o after hafter _ => ?_
    refine (ih fun k slot hslot hlive => ?_).bind hmade fun _ _ _ _ => grows_pure trivial
    exact hmade _ _ _ hafter.buffers (h k slot hslot hlive)

end Session

/-- A window is that of a bytes-like object. Immutable bytes are lent as a buffer of their own, with
a number that no other one has had. -/
def Object.Lends (s now : Store) (window : Window) : Object → Prop
  | .plain (.bytes content) => s.buffers.length ≤ window.buffer ∧ now.read window = content
  | data => data.target? s = some window

namespace Session

variable {made : Store → ViewCell → Prop} {w : Workspace} {data : Object}

theorem grows_compile (t : TypeExpr) (w : Workspace) :
    Grows made (compile t) w fun after _ => after.store = w.store := by
  have hcompile : compile t w = ((w.catalog.compile t w.cache).1.mapError SchemaFault.toFault,
      { w with cache := (w.catalog.compile t w.cache).2 }) := rfl
  exact grows_of_store hcompile rfl fun _ _ => rfl

theorem grows_newWindow (content : Bytes) (w : Workspace) :
    Grows made (onStore (Store.newWindow content)) w fun after window =>
      window.Within after.store ∧
        (Object.plain (.bytes content)).Lends w.store after.store window := by
  refine ⟨⟨List.prefix_append _ _, [], (List.append_nil _).symm, by simp⟩, fun window hwindow => ?_⟩
  cases hwindow
  exact ⟨Store.within_newWindow _ _, Nat.le_refl _, Store.read_newWindow _ _ (.refl _)⟩

/-- The window of a bytes-like object lies inside a buffer. -/
theorem grows_windowOf (hdata : data.Within w.store) :
    Grows made (windowOf data) w fun after window =>
      window.Within after.store ∧ data.Lends w.store after.store window := by
  cases data with
  | buffer id =>
    refine grows_of_store rfl rfl fun window hwindow => ?_
    cases hwindow
    have hid : id < w.store.buffers.length := hdata
    refine ⟨⟨_, List.getElem?_eq_getElem hid, ?_⟩, rfl⟩
    show 0 + (w.store.content id).length ≤ _
    rw [Store.content_of_getElem? (List.getElem?_eq_getElem hid), Nat.zero_add]
  | memory window format rows =>
    refine grows_of_store rfl rfl fun found hfound => ?_
    cases hfound
    exact ⟨hdata, rfl⟩
  | plain v =>
    cases v with
    | bytes content => exact grows_newWindow content w
    | _ => exact grows_throw _
  | _ => exact grows_throw _

/-- Leaving out the result of a computation that changes nothing. -/
theorem discard_eq {α : Type} {m : Session α} {r : Except Fault α} (h : m w = (r, w)) :
    discard m w = (r.map fun _ => (), w) := by
  have hrun : discard m w = (m >>= fun _ => pure ()) w := rfl
  rw [hrun]
  cases r with
  | ok a =>
    rw [bind_of_ok h]
    rfl
  | error fault => rw [bind_of_error h, Except.map]

/-- Looking for a view changes nothing. -/
theorem exists_viewCell (id : Nat) (w : Workspace) :
    ∃ r, viewCell id w = (r, w) ∧ ∀ cell, r = .ok cell → w.store.views[id]? = some cell := by
  cases hcell : w.store.views[id]? with
  | none => exact ⟨_, viewCell_of_none hcell, fun _ h => by cases h⟩
  | some cell => exact ⟨_, viewCell_eq hcell, fun _ h => congrArg some (Except.ok.inj h)⟩

theorem grows_toOwned (id : Nat) : Grows made (toOwned (.view id)) w fun _ _ => True := by
  have hcopied : Grows made (copied (.view id)) w fun _ _ => True :=
    grows_bind_of_eq (withBytes_eq (.view id) w) fun _ _ => grows_pure trivial
  obtain ⟨r, hr, -⟩ := exists_viewCell id w
  exact grows_bind_of_eq (discard_eq hr) fun _ _ => hcopied

variable (hmade : Lasting made)

include hmade

theorem grows_accepted (t : TypeExpr) (hdata : data.Within w.store) :
    Grows made (accepted t data) w fun after found =>
      found.2.Within after.store ∧ data.Lends w.store after.store found.2 := by
  refine (grows_compile t w).bind hmade fun l after _ hstore => ?_
  rw [← hstore] at hdata ⊢
  refine (grows_windowOf hdata).bind hmade fun window last _ hwindow => ?_
  refine grows_bind_of_eq (read_eq rfl) fun content _ => ?_
  refine (grows_lift _ _ last).bind hmade fun _ now _ hnow => ?_
  obtain ⟨rfl, -⟩ := hnow
  exact grows_pure hwindow

section Lent

variable (h : ∀ now layout window, w.store.buffers <+: now.buffers → window.Within now →
  data.Lends w.store now window → made now ⟨layout, window, false⟩) (t : TypeExpr)
  (hdata : data.Within w.store)

include h hdata

theorem grows_view : Grows made (view t data) w fun _ _ => True := by
  refine (grows_accepted hmade t hdata).bind hmade fun found after hafter hfound => ?_
  refine (grows_newView hmade (h _ _ _ hafter.buffers hfound.1 hfound.2)).bind hmade ?_
  exact fun _ _ _ _ => grows_pure trivial

theorem grows_unchecked : Grows made (unchecked t data) w fun _ _ => True := by
  refine (grows_compile t w).bind hmade fun l after _ hstore => ?_
  rw [← hstore] at hdata h
  refine (grows_windowOf hdata).bind hmade fun window last hlast hwindow => ?_
  refine (grows_newView hmade (h _ _ _ hlast.buffers hwindow.1 hwindow.2)).bind hmade ?_
  exact fun _ _ _ _ => grows_pure trivial

end Lent

/-- A packet is lent as a buffer of its own. -/
theorem grows_borrow {l : Layout} {content : Bytes}
    (h : ∀ now window, w.store.buffers <+: now.buffers → window.Within now →
      (Object.plain (.bytes content)).Lends w.store now window → made now ⟨l, window, false⟩) :
    Grows made (borrow (.plain (.packet l content))) w fun _ _ => True := by
  refine (grows_newWindow content w).bind hmade fun window after hafter hwindow => ?_
  refine (grows_newView hmade (h _ _ hafter.buffers hwindow.1 hwindow.2)).bind hmade ?_
  exact fun _ _ _ _ => grows_pure trivial

theorem grows_packet (t : TypeExpr) (hdata : data.Within w.store) :
    Grows made (packet t data) w fun _ _ => True := by
  refine (grows_accepted hmade t hdata).bind hmade fun found after _ _ => ?_
  exact grows_bind_of_eq (read_eq rfl) fun content _ => grows_pure trivial

theorem grows_pack (o : Object) (t : Option TypeExpr) :
    Grows made (pack o t) w fun _ _ => True := by
  have hlayout : Grows made (layoutFor (w.store.valueOf o) t) w fun _ _ => True := by
    refine (grows_lift _ _ w).bind hmade fun type after _ _ => ?_
    exact (grows_compile type after).imp fun _ _ _ => trivial
  refine grows_bind_of_eq (value_eq o w) fun v hv => ?_
  cases hv
  refine hlayout.bind hmade fun l after _ _ => ?_
  exact (grows_lift _ _ after).bind hmade fun _ _ _ _ => grows_pure trivial

section Parts

variable {id : Nat} (h : ∀ cell step slot, w.store.views[id]? = some cell →
  cell.released = false → cell.layout.slotAt step = some slot →
    made w.store ⟨slot.layout, cell.window.slice slot.start slot.stop, false⟩)

include h

theorem grows_field (name : String) : Grows made (field (.view id) name) w fun _ _ => True := by
  obtain ⟨r, hr, hcell⟩ := exists_viewCell id w
  refine grows_bind_of_eq hr fun cell hfound => ?_
  cases hslot : cell.layout.accessor? name with
  | none => exact grows_throw _
  | some slot =>
    exact grows_child hmade fun hlive => h cell (.field name) slot (hcell cell hfound) hlive hslot

theorem grows_index (i : Value) : Grows made (index (.view id) i) w fun _ _ => True := by
  obtain ⟨r, hr, hcell⟩ := exists_viewCell id w
  refine grows_bind_of_eq hr fun cell hfound => ?_
  refine (grows_lift _ _ w).bind hmade fun slot after _ hslot => ?_
  obtain ⟨rfl, hslot⟩ := hslot
  obtain ⟨n, hn⟩ := Layout.entry_of_entryAt hslot
  exact grows_child hmade fun hlive =>
    h cell (.entry n) slot (hcell cell hfound) hlive (Layout.slotAt_of_entry hn)

/-- The views of entries are added, in whatever order these are gone through. -/
theorem grows_entriesBy (order : List Nat → List Nat) : Grows made (do
    let cell ← viewCell id
    children cell (order (← entryNumbers cell.layout))) w fun _ _ => True := by
  obtain ⟨r, hr, hcell⟩ := exists_viewCell id w
  refine grows_bind_of_eq hr fun cell hfound => ?_
  have hnumbers : ∃ r, entryNumbers cell.layout w = (r, w) := by
    unfold entryNumbers
    cases cell.layout.entryCount? with
    | some n => exact ⟨_, rfl⟩
    | none => exact ⟨_, rfl⟩
  obtain ⟨r, hr⟩ := hnumbers
  refine grows_bind_of_eq hr fun numbers _ => ?_
  exact grows_children hmade _ fun k slot hslot hlive =>
    h cell (.entry k) slot (hcell cell hfound) hlive (Layout.slotAt_of_entry hslot)

end Parts

end Session

end FixedLayout
