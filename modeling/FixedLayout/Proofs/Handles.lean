import FixedLayout.Proofs.Views

/-!
# What a handle shows

A view shows the bytes of its window until it is released, and a packet its own bytes. Whatever is
read through a handle depends on nothing else.

* `Object.IsHandle`, `Store.handle`: views and packets, their layouts and bytes.
  `Session.withBytes_eq`;
* `Session.unpacked_eq`, `Session.toBytes_eq`: what is unpacked and copied;
* `Session.child_of_live`, `Session.child_of_released`: the view of a part of a view;
* `Session.field_eq`, `Session.index_eq`: fields and entries are such parts.
-/

namespace FixedLayout

/-- The layout and the bytes of a view or packet, which a released view does not give away. -/
def Store.handle (s : Store) : Object → Except Fault (Layout × Bytes)
  | .view id =>
    match s.views[id]? with
    | some cell =>
      if cell.released then .error (.released cell.layout.typeName)
      else .ok (cell.layout, s.read cell.window)
    | none => .error .noAttribute
  | .plain (.packet layout content) => .ok (layout, content)
  | _ => .error .noAttribute

/-- Whether an object is a view or a packet. -/
def Object.IsHandle : Object → Prop
  | .view _ => True
  | .plain (.packet _ _) => True
  | _ => False

/-- A workspace with one more view. -/
def Workspace.addView (w : Workspace) (cell : ViewCell) : Workspace :=
  { w with store := { w.store with views := w.store.views ++ [cell] } }

namespace Store

variable {s : Store} {id : Nat} {cell : ViewCell} (hcell : s.views[id]? = some cell)

include hcell

theorem handle_of_live (hlive : cell.released = false) :
    s.handle (.view id) = .ok (cell.layout, s.read cell.window) := by
  simp [handle, hcell, hlive]

theorem handle_of_released (hreleased : cell.released = true) :
    s.handle (.view id) = .error (.released cell.layout.typeName) := by
  simp [handle, hcell, hreleased]

end Store

namespace Session

/-- The value that is unpacked from a view or packet. -/
def unpacked (o : Object) : Session Value := do value (← unpack o)

section Cells

variable {w : Workspace} {id : Nat} {cell : ViewCell}

theorem viewCell_of_none (h : w.store.views[id]? = none) :
    viewCell id w = (.error .noAttribute, w) := by
  have hasks : asks (·.views) w = (.ok w.store.views, w) := rfl
  unfold viewCell
  rw [bind_of_ok hasks, h]
  rfl

theorem liveWindow_of_live (h : cell.released = false) (w : Workspace) :
    liveWindow cell w = (.ok cell.window, w) := by
  unfold liveWindow
  rw [h]
  rfl

theorem liveWindow_of_released (h : cell.released = true) (w : Workspace) :
    liveWindow cell w = (.error (.released cell.layout.typeName), w) := by
  unfold liveWindow
  rw [h]
  rfl

/-! ### Bytes -/

/-- Asking for the bytes of a handle changes nothing. -/
theorem withBytes_eq (o : Object) (w : Workspace) : withBytes o w = (w.store.handle o, w) := by
  cases o with
  | view id =>
    unfold withBytes
    simp only
    cases hcell : w.store.views[id]? with
    | none =>
      rw [bind_of_error (viewCell_of_none hcell)]
      simp [Store.handle, hcell]
    | some cell =>
      rw [bind_of_ok (viewCell_eq hcell)]
      cases hreleased : cell.released with
      | true =>
        rw [bind_of_error (liveWindow_of_released hreleased w),
          Store.handle_of_released hcell hreleased]
      | false =>
        rw [bind_of_ok (liveWindow_of_live hreleased w), bind_of_ok (read_eq rfl),
          Store.handle_of_live hcell hreleased]
        rfl
  | plain v => cases v <;> rfl
  | _ => rfl

theorem withBytes_of_ok {o : Object} {p : Layout × Bytes} (h : w.store.handle o = .ok p) :
    withBytes o w = (.ok p, w) := by rw [withBytes_eq, h]

theorem withBytes_of_error {o : Object} {fault : Fault} (h : w.store.handle o = .error fault) :
    withBytes o w = (.error fault, w) := by rw [withBytes_eq, h]

/-- What is unpacked from a handle is what its bytes are decoded to. -/
theorem unpacked_eq (o : Object) (w : Workspace) : (unpacked o w).1 =
    (w.store.handle o).bind fun p => (p.1.decode p.2).mapError DecodeFault.toFault := by
  unfold unpacked
  cases hhandle : w.store.handle o with
  | error fault =>
    have hunpack : unpack o w = (.error fault, w) := bind_of_error (withBytes_of_error hhandle)
    rw [bind_of_error hunpack]
    rfl
  | ok p =>
    have hunpack : unpack o w = unpackBytes p.1 p.2 w := bind_of_ok (withBytes_of_ok hhandle)
    cases hdecode : p.1.decode p.2 with
    | error fault =>
      rw [bind_of_error (hunpack.trans (unpackBytes_of_error hdecode))]
      simp only [Except.bind, hdecode]
      rfl
    | ok v =>
      obtain ⟨made, after, hmade, hvalue⟩ := unpackBytes_of_ok (w := w) hdecode
      rw [bind_of_ok (hunpack.trans hmade), value_eq, hvalue]
      simp only [Except.bind, hdecode]
      rfl

/-- A copy of the bytes of a handle. -/
theorem toBytes_eq {o : Object} (ho : o.IsHandle) (w : Workspace) :
    toBytes o w = ((w.store.handle o).map (·.2), w) := by
  have hrun : toBytes o = (do return (← withBytes o).2) := by
    cases o with
    | view id => rfl
    | plain v =>
      cases v with
      | packet layout content => rfl
      | _ => exact ho.elim
    | _ => exact ho.elim
  rw [hrun]
  cases hhandle : w.store.handle o with
  | error fault => rw [bind_of_error (withBytes_of_error hhandle)]; rfl
  | ok p => rw [bind_of_ok (withBytes_of_ok hhandle)]; rfl

/-! ### Parts -/

/-- The view of a slot of an unreleased view has the part of the window that the slot occupies. -/
theorem child_of_live (h : cell.released = false) (slot : Slot) (w : Workspace) :
    child cell slot w = (.ok (.view w.store.views.length),
      w.addView ⟨slot.layout, cell.window.slice slot.start slot.stop, false⟩) := by
  unfold child
  rw [bind_of_ok (liveWindow_of_live h w)]
  rfl

theorem child_of_released (h : cell.released = true) (slot : Slot) (w : Workspace) :
    child cell slot w = (.error (.released cell.layout.typeName), w) :=
  bind_of_error (liveWindow_of_released h w)

variable (hcell : w.store.views[id]? = some cell)

include hcell

theorem field_eq {a : String} {slot : Slot} (hslot : cell.layout.accessor? a = some slot) :
    field (.view id) a w = child cell slot w := by
  have hview : asView (.view id) w = (.ok cell, w) := viewCell_eq hcell
  unfold field
  rw [bind_of_ok hview]
  simp only [hslot]

theorem index_eq {i : Value} {slot : Slot} (hslot : cell.layout.entryAt i = .ok slot) :
    index (.view id) i w = child cell slot w := by
  unfold index
  simp only
  rw [bind_of_ok (viewCell_eq hcell), hslot]
  rfl

end Cells

end Session

end FixedLayout
