import FixedLayout.Proofs.Outcomes
import FixedLayout.Proofs.Views

/-!
# Views and the buffers that they borrow

A view has a window into a buffer, with as many bytes as its layout. The bytes were checked when the
view was made, or are part of those of a view that was. They pass the check as long as nobody writes
to the buffer.

* `Window.Within`: a window lies inside a buffer;
* `Workspace.Sound`: all views have as many bytes as their layouts, and the bytes of those of given
  buffers pass the check;
* `Session.Safe`: a computation keeps the views sound, and gives a result of some kind;
* `Session.safe_accepted`, `Session.safe_child`, …: the operations that make views are safe.
-/

namespace FixedLayout

/-! ### Windows -/

/-- A window lies inside a buffer. -/
def Window.Within (s : Store) (window : Window) : Prop :=
  ∃ content, s.buffers[window.buffer]? = some content ∧ window.start + window.count ≤ content.length

namespace Store

variable {s after : Store} {window : Window}

theorem content_of_getElem? {id : Nat} {content : Bytes} (h : s.buffers[id]? = some content) :
    s.content id = content :=
  content_of_extends (.refl s) h

/-- A window inside a buffer has all of its bytes. -/
theorem length_read (h : window.Within s) : (s.read window).length = window.count := by
  obtain ⟨content, hcontent, hroom⟩ := h
  rw [read, content_of_getElem? hcontent, List.length_take, List.length_drop]
  omega

/-- A window inside a buffer is inside it and has the same bytes after buffers have been added. -/
theorem within_of_extends (h : window.Within s) (hafter : s.buffers <+: after.buffers) :
    window.Within after ∧ after.read window = s.read window := by
  obtain ⟨content, hcontent, hroom⟩ := h
  have hsame := getElem?_of_prefix hafter hcontent
  refine ⟨⟨content, hsame, hroom⟩, ?_⟩
  rw [read, read, content_of_getElem? hsame, content_of_getElem? hcontent]

theorem within_newWindow (s : Store) (content : Bytes) :
    (newWindow content s).1.Within (newWindow content s).2 :=
  ⟨content, List.getElem?_concat_length, Nat.le_of_eq (Nat.zero_add _)⟩

/-- A part of a window lies inside the buffer. -/
theorem within_slice (h : window.Within s) {lo hi : Int} (h0 : 0 ≤ lo) (h1 : lo ≤ hi)
    (h2 : hi ≤ window.count) :
    (window.slice lo hi).Within s ∧ (window.slice lo hi).buffer = window.buffer ∧
      ((window.slice lo hi).count : Int) = hi - lo ∧
      s.read (window.slice lo hi) = Bytes.slice (s.read window) lo hi := by
  have hlen := length_read h
  obtain ⟨hslice, hread⟩ := read_slice (rfl : s.read window = _) h0 h1 (by omega)
  obtain ⟨content, hcontent, hroom⟩ := h
  refine ⟨⟨content, ?_, ?_⟩, ?_, ?_, hread⟩
  · rw [hslice]
    exact hcontent
  · rw [hslice]
    show window.start + lo.toNat + (hi - lo).toNat ≤ content.length
    omega
  · rw [hslice]
  · rw [hslice]
    exact Int.toNat_of_nonneg (by omega)

end Store

/-- A bytes-like object lies in the buffers that there are. -/
def Object.Within (s : Store) : Object → Prop
  | .buffer id => id < s.buffers.length
  | .memory window _ _ => window.Within s
  | _ => True

/-! ### Parts of layouts -/

/-- An accessor that reaches a slot is one that the layout offers. -/
theorem Layout.offers_of_accessor? {l : Layout} {a : String} {slot : Slot}
    (h : l.accessor? a = some slot) : l.Offers (.field a) := by
  obtain ⟨hmem, ha⟩ := Layout.accessor?_eq_some h
  exact List.mem_filterMap.2 ⟨slot, hmem, ha⟩

/-- An index that reaches a slot is one that the layout offers. -/
theorem Layout.offers_of_entry {l : Layout} {i : Int} {slot : Slot} (h : l.entry i = .ok slot) :
    l.Offers (.entry i) := by
  have hcount : ∃ n, l.entryCount? = some n := by
    cases l with
    | array element n => exact ⟨n, rfl⟩
    | composite form fields =>
      by_cases hform : form.positional = true
      · exact ⟨fields.count, if_pos hform⟩
      · simp only [Layout.entry, hform] at h
        cases h
    | _ => cases h
  obtain ⟨n, hn⟩ := hcount
  refine ⟨n, hn, ?_⟩
  by_contra hout
  rcases Layout.entry_of_outside hn hout with hentry | ⟨typeName, index, hentry⟩
  · cases hentry.symm.trans h
  · cases hentry.symm.trans h

/-- No entry is reached by a float. -/
theorem Layout.entryAtFloat_ne_ok (l : Layout) (x : Binary64) (slot : Slot) :
    l.entryAtFloat x ≠ .ok slot := by
  have hboth : ∀ (inside : Bool) (a b : Fault),
      (if inside = true then .error a else .error b : Except Fault Slot) ≠ .ok slot := by
    intro inside a b
    cases inside <;> nofun
  intro h
  unfold Layout.entryAtFloat at h
  split at h
  · exact hboth _ _ _ h
  · split at h <;> cases h

/-- Whatever value is given as an index, what it reaches is reached by an integer. -/
theorem Layout.entry_of_entryAt {l : Layout} {v : Value} {slot : Slot}
    (h : l.entryAt v = .ok slot) : ∃ i, l.entry i = .ok slot := by
  unfold Layout.entryAt at h
  split at h
  · next n text _ =>
    refine ⟨n, ?_⟩
    split at h
    · cases h
    · cases hentry : l.entry n with
      | ok found =>
        rw [hentry] at h
        cases h
        rfl
      | error fault =>
        rw [hentry] at h
        cases h
  · exact absurd h (Layout.entryAtFloat_ne_ok l _ slot)
  · split at h <;> cases h

/-- A slot that a layout offers lies inside it, and its bytes pass the check if all bytes do. -/
theorem Layout.part_spec {l : Layout} (hl : l.Regular) {step : PathStep} (h : l.Offers step)
    {slot : Slot} (hslot : l.slotAt step = some slot) :
    slot.Inside l ∧ ∀ data : Bytes, (data.length : Int) = l.size → l.check data = .ok () →
      slot.layout.check (slot.range data) = .ok () := by
  obtain ⟨found, hfound, hinside⟩ := Layout.exists_slot hl h
  cases hfound.symm.trans hslot
  refine ⟨hinside, fun data hlen hcheck => ?_⟩
  obtain ⟨v, hv, -⟩ := l.exists_decode hl.lengths hl.names data hlen hcheck
  obtain ⟨found, part, hfound', -, -, hholds⟩ := Layout.exists_part hl hcheck hv h
  cases hfound'.symm.trans hslot
  exact hholds.check

/-! ### Sound workspaces -/

/-- A view has a window inside a buffer, with as many bytes as its layout. If the buffer is one that
nobody writes to, the bytes pass the check. -/
structure ViewCell.Sound (fixed : Nat → Prop) (s : Store) (cell : ViewCell) : Prop where
  regular : cell.layout.Regular
  within : cell.window.Within s
  size : (cell.window.count : Int) = cell.layout.size
  check : fixed cell.window.buffer → cell.layout.check (s.read cell.window) = .ok ()

/-- All views of a workspace are sound, whether they have been released or not. -/
structure Workspace.Sound (fixed : Nat → Prop) (w : Workspace) : Prop where
  cache : Cache.Reached w.cache
  views : ∀ cell ∈ w.store.views, cell.Sound fixed w.store

section Cells

variable {fixed : Nat → Prop} {s after : Store} {cell : ViewCell}

theorem ViewCell.Sound.length_read (h : cell.Sound fixed s) :
    ((s.read cell.window).length : Int) = cell.layout.size := by
  rw [Store.length_read h.within, h.size]

/-- A view stays sound when buffers are added. -/
theorem ViewCell.Sound.mono (h : cell.Sound fixed s) (hafter : s.buffers <+: after.buffers) :
    cell.Sound fixed after := by
  obtain ⟨hwithin, hread⟩ := Store.within_of_extends h.within hafter
  exact ⟨h.regular, hwithin, h.size, fun hfixed => by rw [hread]; exact h.check hfixed⟩

/-- The view of a part of a sound view is sound. -/
theorem ViewCell.Sound.part (h : cell.Sound fixed s) {step : PathStep}
    (hstep : cell.layout.Offers step) {slot : Slot} (hslot : cell.layout.slotAt step = some slot) :
    (ViewCell.mk slot.layout (cell.window.slice slot.start slot.stop) false).Sound fixed s := by
  obtain ⟨hinside, hcheck⟩ := Layout.part_spec h.regular hstep hslot
  have hsize := slot.layout.size_nonneg hinside.regular.lengths
  have hwidth := hinside.size
  have hstop := hinside.stop
  have hcount := h.size
  obtain ⟨hwithin, hbuffer, hlen, hread⟩ := Store.within_slice h.within hinside.start
    (by omega : slot.start ≤ slot.stop) (by omega)
  refine ⟨hinside.regular, hwithin, ?_, fun hfixed => ?_⟩
  · show ((cell.window.slice slot.start slot.stop).count : Int) = slot.layout.size
    omega
  · show slot.layout.check (s.read (cell.window.slice slot.start slot.stop)) = .ok ()
    rw [hread]
    exact hcheck _ h.length_read (h.check (hbuffer ▸ hfixed))

/-- Views stay sound when one of them is released. -/
theorem Store.sound_release (h : ∀ cell ∈ s.views, cell.Sound fixed s) (view : Nat) :
    ∀ cell ∈ (s.release view).views, cell.Sound fixed (s.release view) := by
  intro cell hcell
  unfold release at hcell
  obtain ⟨k, hk⟩ := List.getElem?_of_mem hcell
  rw [List.getElem?_modify] at hk
  obtain ⟨old, hold, rfl⟩ := Option.map_eq_some_iff.1 hk
  obtain ⟨hregular, hwithin, hsize, hcheck⟩ := h old (List.mem_of_getElem? hold)
  split
  · exact ⟨hregular, hwithin, hsize, hcheck⟩
  · exact ⟨hregular, hwithin, hsize, hcheck⟩

theorem Workspace.Sound.addBuffers {w : Workspace} {store : Store} (hw : w.Sound fixed)
    (hbuffers : w.store.buffers <+: store.buffers) (hviews : store.views = w.store.views) :
    ({ w with store } : Workspace).Sound fixed := by
  refine ⟨hw.cache, fun cell hcell => ?_⟩
  exact (hw.views cell (hviews ▸ hcell)).mono hbuffers

/-- What is asked of the views of some buffers can be asked of those of others that views have. -/
theorem Workspace.Sound.imp {w : Workspace} {others : Nat → Prop} (hw : w.Sound fixed)
    (h : ∀ cell ∈ w.store.views, others cell.window.buffer → fixed cell.window.buffer) :
    w.Sound others := by
  refine ⟨hw.cache, fun cell hcell => ?_⟩
  obtain ⟨hregular, hwithin, hsize, hcheck⟩ := hw.views cell hcell
  exact ⟨hregular, hwithin, hsize, fun hother => hcheck (h cell hcell hother)⟩

end Cells

namespace Session

variable {α β : Type} {fixed : Nat → Prop} {w : Workspace} {m : Session α} {f : α → Session β}
  {P : Workspace → α → Prop} {Q : Workspace → β → Prop}

/-! ### Safe computations -/

/-- A computation leaves the views sound and the buffers as they are, others apart that it may add,
and what it gives is as described. -/
structure Safe (fixed : Nat → Prop) (m : Session α) (w : Workspace) (P : Workspace → α → Prop) :
    Prop where
  sound : (m w).2.Sound fixed
  buffers : w.store.buffers <+: (m w).2.store.buffers
  result : ∀ a, (m w).1 = .ok a → P (m w).2 a

theorem safe_pure {a : α} (hw : w.Sound fixed) (h : P w a) : Safe fixed (pure a) w P :=
  ⟨hw, List.prefix_refl _, fun _ ha => by cases ha; exact h⟩

theorem safe_throw (hw : w.Sound fixed) (fault : Fault) : Safe fixed (throw fault) w P :=
  ⟨hw, List.prefix_refl _, fun _ ha => by cases ha⟩

theorem safe_lift {ε : Type} (hw : w.Sound fixed) (toFault : ε → Fault) {r : Except ε α}
    (h : ∀ a, r = .ok a → P w a) : Safe fixed (lift toFault r) w P := by
  cases r with
  | ok a => exact safe_pure hw (h a rfl)
  | error e => exact safe_throw hw (toFault e)

theorem Safe.bind (hm : Safe fixed m w P)
    (hf : ∀ a after, after.Sound fixed → w.store.buffers <+: after.store.buffers → P after a →
      Safe fixed (f a) after Q) : Safe fixed (m >>= f) w Q := by
  cases hrun : m w with
  | mk r after =>
    have hsound := hm.sound
    have hbuffers := hm.buffers
    have hresult := hm.result
    rw [hrun] at hsound hbuffers hresult
    cases r with
    | ok a =>
      have hrest := hf a after hsound hbuffers (hresult a rfl)
      have heq : (m >>= f) w = f a after := bind_of_ok hrun
      refine ⟨?_, ?_, ?_⟩
      · rw [heq]
        exact hrest.sound
      · rw [heq]
        exact hbuffers.trans hrest.buffers
      · rw [heq]
        exact hrest.result
    | error fault =>
      have heq : (m >>= f) w = (.error fault, after) := bind_of_error hrun
      refine ⟨?_, ?_, ?_⟩
      · rw [heq]
        exact hsound
      · rw [heq]
        exact hbuffers
      · rw [heq]
        intro b hb
        cases hb

theorem Safe.imp {R : Workspace → α → Prop} (hm : Safe fixed m w P)
    (h : ∀ after a, P after a → R after a) : Safe fixed m w R :=
  ⟨hm.sound, hm.buffers, fun a ha => h _ a (hm.result a ha)⟩

/-- What a computation gives is what it has given. -/
theorem Safe.self (hm : Safe fixed m w P) :
    Safe fixed m w fun after a => (m w).1 = .ok a ∧ P after a :=
  ⟨hm.sound, hm.buffers, fun a ha => ⟨ha, hm.result a ha⟩⟩

/-- A computation that only looks at the workspace. -/
theorem safe_of_eq {r : Except Fault α} (hw : w.Sound fixed) (hm : m w = (r, w))
    (h : ∀ a, r = .ok a → P w a) : Safe fixed m w P := by
  refine ⟨?_, ?_, ?_⟩
  · rw [hm]
    exact hw
  · rw [hm]
  · rw [hm]
    exact h

/-! ### Bytes that are lent -/

theorem safe_compile (hw : w.Sound fixed) (t : TypeExpr) :
    Safe fixed (compile t) w fun after l => (w.catalog.compile t w.cache).1 = .ok l ∧
      l.NamesNodup ∧ l.Fitting ∧ after.store = w.store := by
  have hcompile : compile t w = ((w.catalog.compile t w.cache).1.mapError SchemaFault.toFault,
      { w with cache := (w.catalog.compile t w.cache).2 }) := rfl
  refine ⟨?_, ?_, ?_⟩
  · rw [hcompile]
    exact ⟨.compile w.catalog t hw.cache, hw.views⟩
  · rw [hcompile]
  · rw [hcompile]
    intro l hl
    have hok : (w.catalog.compile t w.cache).1 = .ok l := mapError_eq_ok_iff.1 hl
    exact ⟨hok, Catalog.closed_of_compile closed_namesNodup hw.cache hok,
      Catalog.closed_of_compile closed_fitting hw.cache hok, rfl⟩

theorem safe_newWindow (hw : w.Sound fixed) (content : Bytes) :
    Safe fixed (onStore (Store.newWindow content)) w fun after window =>
      window = ⟨w.store.buffers.length, 0, content.length⟩ ∧ window.Within after.store ∧
        after.store.read window = content := by
  refine ⟨hw.addBuffers (List.prefix_append _ _) rfl, List.prefix_append _ _, ?_⟩
  intro window hwindow
  cases hwindow
  exact ⟨rfl, Store.within_newWindow w.store content, Store.read_newWindow _ _ (.refl _)⟩

/-- What a bytes-like object lends lies inside a buffer. -/
theorem safe_windowOf (hw : w.Sound fixed) {data : Object} (hdata : data.Within w.store) :
    Safe fixed (windowOf data) w fun after window => window.Within after.store := by
  cases data with
  | buffer id =>
    refine safe_of_eq hw rfl fun window hwindow => ?_
    cases hwindow
    have hid : id < w.store.buffers.length := hdata
    have hcontent := List.getElem?_eq_getElem hid
    refine ⟨_, hcontent, ?_⟩
    show 0 + (w.store.content id).length ≤ _
    rw [Store.content_of_getElem? hcontent, Nat.zero_add]
  | memory window format rows =>
    refine safe_of_eq hw rfl fun found hfound => ?_
    cases hfound
    exact hdata
  | plain v =>
    cases v with
    | bytes content => exact (safe_newWindow hw content).imp fun _ _ h => h.2.1
    | _ => exact safe_throw hw _
  | _ => exact safe_throw hw _

/-- Bytes that are accepted are as many as the layout has, and pass the check. -/
structure Accepted (w : Workspace) (l : Layout) (window : Window) : Prop where
  regular : l.Regular
  within : window.Within w.store
  size : (window.count : Int) = l.size
  check : l.check (w.store.read window) = .ok ()

theorem safe_accepted (hw : w.Sound fixed) {t : TypeExpr} {data : Object}
    (ht : ∀ l, (w.catalog.compile t w.cache).1 = .ok l → l.LengthsNonneg)
    (hdata : data.Within w.store) :
    Safe fixed (accepted t data) w fun after found => Accepted after found.1 found.2 := by
  refine (safe_compile hw t).bind fun l after hafter _ hl => ?_
  obtain ⟨hcompile, hnames, hfitting, hstore⟩ := hl
  refine (safe_windowOf hafter (hstore ▸ hdata)).bind fun window last hlast _ hwindow => ?_
  have hrest : (do
      lift CheckFault.toFault (l.accept (← read window))
      return (l, window) : Session (Layout × Window)) last =
        (((l.accept (last.store.read window)).mapError CheckFault.toFault).map
          fun _ => (l, window), last) := by
    rw [bind_of_ok (read_eq rfl)]
    cases l.accept (last.store.read window) with
    | ok u => rfl
    | error fault => rfl
  refine safe_of_eq hlast hrest fun found hfound => ?_
  cases haccept : l.accept (last.store.read window) with
  | error fault =>
    rw [haccept] at hfound
    cases hfound
  | ok u =>
    rw [haccept] at hfound
    cases hfound
    obtain ⟨hlen, hcheck⟩ := Layout.accept_eq_ok haccept
    rw [Store.length_read hwindow] at hlen
    exact ⟨⟨ht l hcompile, hnames, hfitting⟩, hwindow, hlen, hcheck⟩

/-! ### Views that are made -/

/-- A sound view is added. -/
theorem safe_newView (hw : w.Sound fixed) {layout : Layout} {window : Window}
    (h : (ViewCell.mk layout window false).Sound fixed w.store) :
    Safe fixed (onStore (Store.newView layout window)) w fun after id =>
      after.store.buffers = w.store.buffers ∧
        after.store.views[id]? = some ⟨layout, window, false⟩ := by
  refine ⟨⟨hw.cache, fun cell hcell => ?_⟩, List.prefix_refl _, fun id hid => ?_⟩
  · rcases List.mem_append.1 hcell with hold | hnew
    · exact (hw.views cell hold).mono (List.prefix_refl _)
    · rw [List.mem_singleton.1 hnew]
      exact h.mono (List.prefix_refl _)
  · cases hid
    exact ⟨rfl, List.getElem?_concat_length⟩

theorem safe_view (hw : w.Sound fixed) {t : TypeExpr} {data : Object}
    (ht : ∀ l, (w.catalog.compile t w.cache).1 = .ok l → l.LengthsNonneg)
    (hdata : data.Within w.store) :
    Safe fixed (view t data) w fun _ o => ∃ id, o = .view id := by
  refine (safe_accepted hw ht hdata).bind fun found after hafter _ h => ?_
  have hcell : (ViewCell.mk found.1 found.2 false).Sound fixed after.store :=
    ⟨h.regular, h.within, h.size, fun _ => h.check⟩
  exact (safe_newView hafter hcell).bind fun id last hlast _ _ => safe_pure hlast ⟨id, rfl⟩

theorem safe_viewCell (hw : w.Sound fixed) (view : Nat) :
    Safe fixed (viewCell view) w fun after cell =>
      after = w ∧ w.store.views[view]? = some cell := by
  cases hcell : w.store.views[view]? with
  | some cell =>
    refine safe_of_eq hw (viewCell_eq hcell) fun found hfound => ?_
    cases hfound
    exact ⟨rfl, rfl⟩
  | none =>
    have hasks : asks (·.views) w = (.ok w.store.views, w) := rfl
    have hrun : viewCell view w = (.error .noAttribute, w) := by
      unfold viewCell
      rw [bind_of_ok hasks, hcell]
      rfl
    refine safe_of_eq hw hrun fun found hfound => ?_
    cases hfound

theorem safe_liveWindow (hw : w.Sound fixed) (cell : ViewCell) :
    Safe fixed (liveWindow cell) w fun after window =>
      after = w ∧ cell.released = false ∧ window = cell.window := by
  unfold liveWindow
  split
  · exact safe_throw hw _
  · next hlive => exact safe_pure hw ⟨rfl, Bool.eq_false_iff.2 hlive, rfl⟩

/-- The view of a part of a view is sound. -/
theorem safe_child (hw : w.Sound fixed) {cell : ViewCell} (hcell : cell.Sound fixed w.store)
    {step : PathStep} (hstep : cell.layout.Offers step) {slot : Slot}
    (hslot : cell.layout.slotAt step = some slot) :
    Safe fixed (child cell slot) w fun _ o => ∃ view, o = .view view := by
  refine (safe_liveWindow hw cell).bind fun window after hafter _ h => ?_
  obtain ⟨rfl, -, rfl⟩ := h
  refine (safe_newView hafter (hcell.part hstep hslot)).bind fun view last hlast _ _ => ?_
  exact safe_pure hlast ⟨view, rfl⟩

theorem safe_field (hw : w.Sound fixed) (view : Nat) (name : String) :
    Safe fixed (field (.view view) name) w fun _ o => ∃ part, o = .view part := by
  refine (safe_viewCell hw view).bind fun cell after hafter _ h => ?_
  obtain ⟨rfl, hcell⟩ := h
  cases hslot : cell.layout.accessor? name with
  | none => exact safe_throw hafter _
  | some slot =>
    exact safe_child hafter (hafter.views cell (List.mem_of_getElem? hcell))
      (Layout.offers_of_accessor? hslot) hslot

theorem safe_index (hw : w.Sound fixed) (view : Nat) (i : Value) :
    Safe fixed (index (.view view) i) w fun _ o => ∃ part, o = .view part := by
  refine (safe_viewCell hw view).bind fun cell after hafter _ h => ?_
  obtain ⟨rfl, hcell⟩ := h
  refine (safe_lift hafter id (P := fun now slot => now = after ∧
    cell.layout.entryAt i = .ok slot) fun slot hslot => ⟨rfl, hslot⟩).bind ?_
  rintro slot last hlast - ⟨rfl, hslot⟩
  obtain ⟨n, hn⟩ := Layout.entry_of_entryAt hslot
  exact safe_child hlast (hlast.views cell (List.mem_of_getElem? hcell))
    (Layout.offers_of_entry hn) (Layout.slotAt_of_entry hn)

/-- The views of entries of a view are sound. -/
theorem safe_children {cell : ViewCell} (numbers : List Nat) (hw : w.Sound fixed)
    (hcell : cell.Sound fixed w.store) :
    Safe fixed (children cell numbers) w fun _ os => ∀ o ∈ os, ∃ part, o = .view part := by
  unfold children
  induction numbers generalizing w with
  | nil => exact safe_pure hw fun _ ho => absurd ho List.not_mem_nil
  | cons k rest ih =>
    rw [List.mapM_cons]
    have hfirst : Safe fixed (do
        child cell (← lift Layout.EntryFault.toFault (cell.layout.entry k))) w
          fun _ o => ∃ part, o = .view part := by
      refine (safe_lift hw _ (P := fun now slot => now = w ∧ cell.layout.entry k = .ok slot)
        fun slot hslot => ⟨rfl, hslot⟩).bind ?_
      rintro slot after hafter - ⟨rfl, hslot⟩
      exact safe_child hafter hcell (Layout.offers_of_entry hslot) (Layout.slotAt_of_entry hslot)
    refine hfirst.bind fun o after hafter hbuffers ho => ?_
    refine (ih hafter (hcell.mono hbuffers)).bind fun os last hlast _ hos => ?_
    exact safe_pure hlast (List.forall_mem_cons.2 ⟨ho, hos⟩)

theorem safe_entryNumbers (hw : w.Sound fixed) (l : Layout) :
    Safe fixed (entryNumbers l) w fun after _ => after = w := by
  unfold entryNumbers
  split
  · exact safe_pure hw rfl
  · exact safe_throw hw _

theorem safe_entries (hw : w.Sound fixed) (view : Nat) :
    Safe fixed (entries (.view view)) w fun _ os => ∀ o ∈ os, ∃ part, o = .view part := by
  refine (safe_viewCell hw view).bind fun cell after hafter _ h => ?_
  obtain ⟨rfl, hcell⟩ := h
  refine (safe_entryNumbers hafter cell.layout).bind fun numbers last hlast _ h => ?_
  obtain rfl := h
  exact safe_children numbers hlast (hlast.views cell (List.mem_of_getElem? hcell))

theorem safe_reversedEntries (hw : w.Sound fixed) (view : Nat) :
    Safe fixed (reversedEntries (.view view)) w fun _ os => ∀ o ∈ os, ∃ part, o = .view part := by
  refine (safe_viewCell hw view).bind fun cell after hafter _ h => ?_
  obtain ⟨rfl, hcell⟩ := h
  refine (safe_entryNumbers hafter cell.layout).bind fun numbers last hlast _ h => ?_
  obtain rfl := h
  exact safe_children numbers.reverse hlast (hlast.views cell (List.mem_of_getElem? hcell))

theorem safe_discard (hm : Safe fixed m w P) :
    Safe fixed (discard m) w fun after _ => ∃ a, P after a := by
  have hrun : (discard m) w = (m >>= fun _ => pure ()) w := by
    show (Functor.map (fun _ => ()) m) w = _
    rfl
  have hbind : Safe fixed (m >>= fun _ => pure ()) w fun after _ => ∃ a, P after a :=
    hm.bind fun a after hafter _ ha => safe_pure hafter ⟨a, ha⟩
  refine ⟨?_, ?_, ?_⟩
  · rw [hrun]
    exact hbind.sound
  · rw [hrun]
    exact hbind.buffers
  · rw [hrun]
    exact hbind.result

/-- A view of bytes on their own is sound if these are as many as the layout has, and pass the check
in case that nobody writes to their buffer. -/
theorem safe_borrow (hw : w.Sound fixed) {layout : Layout} {content : Bytes} (hl : layout.Regular)
    (hlen : (content.length : Int) = layout.size)
    (hcheck : fixed w.store.buffers.length → layout.check content = .ok ()) :
    Safe fixed (borrow (.plain (.packet layout content))) w fun after o => ∃ view, o = .view view ∧
      after.store.views[view]? =
        some ⟨layout, ⟨w.store.buffers.length, 0, content.length⟩, false⟩ := by
  refine (safe_newWindow hw content).bind fun window after hafter _ h => ?_
  obtain ⟨rfl, hwithin, hread⟩ := h
  have hcell : (ViewCell.mk layout _ false).Sound fixed after.store :=
    ⟨hl, hwithin, hlen, fun hfixed => (congrArg layout.check hread).trans (hcheck hfixed)⟩
  refine (safe_newView hafter hcell).bind fun view last hlast _ hview => ?_
  exact safe_pure hlast ⟨view, rfl, hview.2⟩

/-- Ending a view leaves all views sound. -/
theorem safe_release (hw : w.Sound fixed) (view : Nat) :
    Safe fixed (release (.view view)) w fun _ _ => True := by
  refine (safe_discard (safe_viewCell hw view)).bind fun _ after hafter _ _ => ?_
  exact ⟨⟨hafter.cache, Store.sound_release hafter.views view⟩, List.prefix_refl _,
    fun _ _ => trivial⟩

/-! ### Packets that are made -/

/-- A packet has the bytes of a value that its layout has packed. -/
theorem safe_pack (hw : w.Sound fixed) (o : Object) (t : Option TypeExpr) :
    Safe fixed (pack o t) w fun _ made => ∃ l content,
      (layoutFor (w.store.valueOf o) t w).1 = .ok l ∧ l.NamesNodup ∧ l.Fitting ∧
        l.pack (w.store.valueOf o) = .ok content ∧ made = .plain (.packet l content) := by
  have hlayout : Safe fixed (layoutFor (w.store.valueOf o) t) w fun _ l =>
      l.NamesNodup ∧ l.Fitting := by
    refine (safe_lift hw _ (P := fun _ _ => True) fun _ _ => trivial).bind ?_
    intro type after hafter _ _
    exact (safe_compile hafter type).imp fun _ _ h => ⟨h.2.1, h.2.2.1⟩
  have hvalue : Safe fixed (value o) w fun after v => after = w ∧ v = w.store.valueOf o :=
    safe_of_eq hw (value_eq o w) fun v hv => ⟨rfl, (Except.ok.inj hv).symm⟩
  refine hvalue.bind fun v after hafter _ hv => ?_
  obtain ⟨rfl, rfl⟩ := hv
  refine hlayout.self.bind fun l last hlast _ hl => ?_
  refine (safe_lift hlast _ (P := fun _ content => l.pack (after.store.valueOf o) = .ok content)
    fun _ h => h).bind fun content now hnow _ hcontent => ?_
  exact safe_pure hnow ⟨l, content, hl.1, hl.2.1, hl.2.2, hcontent, rfl⟩

/-- A packet of bytes that were accepted has bytes that pass the check. -/
theorem safe_packet (hw : w.Sound fixed) {t : TypeExpr} {data : Object}
    (ht : ∀ l, (w.catalog.compile t w.cache).1 = .ok l → l.LengthsNonneg)
    (hdata : data.Within w.store) :
    Safe fixed (packet t data) w fun _ made => ∃ l content, l.Regular ∧
      (content.length : Int) = l.size ∧ l.check content = .ok () ∧
        made = .plain (.packet l content) := by
  refine (safe_accepted hw ht hdata).bind fun found after hafter _ h => ?_
  have hlen : ((after.store.read found.2).length : Int) = found.1.size := by
    rw [Store.length_read h.within, h.size]
  refine (safe_of_eq hafter (read_eq rfl) (P := fun _ content => content = after.store.read found.2)
    fun content hcontent => (Except.ok.inj hcontent).symm).bind ?_
  rintro content last hlast - rfl
  exact safe_pure hlast ⟨found.1, _, h.regular, hlen, h.check, rfl⟩

/-- A packet of a view has the bytes that the view has at this time. -/
theorem safe_toOwned (hw : w.Sound fixed) (view : Nat) :
    Safe fixed (toOwned (.view view)) w fun _ made => ∃ cell,
      w.store.views[view]? = some cell ∧ cell.released = false ∧
        made = .plain (.packet cell.layout (w.store.read cell.window)) := by
  refine (safe_discard (safe_viewCell hw view)).bind fun _ after hafter _ h => ?_
  obtain ⟨_, rfl, -⟩ := h
  have hbytes : Safe fixed (withBytes (.view view)) after fun _ found => ∃ cell,
      after.store.views[view]? = some cell ∧ cell.released = false ∧
        found = (cell.layout, after.store.read cell.window) := by
    refine (safe_viewCell hafter view).bind fun cell last hlast _ h => ?_
    obtain ⟨rfl, hcell⟩ := h
    refine (safe_liveWindow hlast cell).bind fun window now hnow _ h => ?_
    obtain ⟨rfl, hlive, rfl⟩ := h
    refine (safe_of_eq hnow (read_eq rfl) (P := fun _ content =>
      content = now.store.read cell.window) fun content hcontent =>
        (Except.ok.inj hcontent).symm).bind ?_
    rintro content final hfinal - rfl
    exact safe_pure hfinal ⟨cell, hcell, hlive, rfl⟩
  refine hbytes.bind fun found last hlast _ h => ?_
  obtain ⟨cell, hcell, hlive, rfl⟩ := h
  exact safe_pure hlast ⟨cell, hcell, hlive, rfl⟩

end Session

end FixedLayout
