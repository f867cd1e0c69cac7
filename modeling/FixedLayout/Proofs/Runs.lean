import FixedLayout.Proofs.Growth
import FixedLayout.Proofs.Packets

/-!
# Runs of views and packets

Views and packets are made and views are ended one after another, in any order, while the buffers
behind them are written to. Nothing of this moves a window or takes back that a view has been
released.

* `Window.Disjoint`: windows without common bytes;
* `Event`, `Event.Possible`: actions, views without a check, and other changes of the workspace;
  `Event.Makes`: where the windows of the views come from that an event makes;
* `Course.after`, `Course.Run`: the course after an event, and after events of a kind;
* `Event.Spares`: an event does not change the bytes of a window. `Course.spares_write`,
  `Course.spares_splice`: writing to another part of a buffer does not;
* `Course.step_of_possible`: what an event does to views, packets and bytes;
* `Course.kept_of_run`, `Course.read_of_run`: what a run does to them.
-/

namespace FixedLayout

/-! ### Parts of buffers -/

/-- Two windows have no byte in common. -/
def Window.Disjoint (a b : Window) : Prop :=
  a.buffer = b.buffer → a.start + a.count ≤ b.start ∨ b.start + b.count ≤ a.start

/-- Bytes outside the run that is replaced are not overwritten. -/
theorem Bytes.getElem?_overwrite {xs piece : Bytes} {start k : Nat}
    (hroom : piece.length ≤ xs.length - start) (hk : k < start ∨ start + piece.length ≤ k) :
    (overwrite xs start piece)[k]? = xs[k]? := by
  unfold overwrite
  by_cases hin : k < xs.length
  · rcases hk with hbefore | hbehind
    · rw [List.append_assoc, List.getElem?_append_left (by rw [List.length_take]; omega),
        List.getElem?_take_of_lt hbefore]
    · have hpre : (xs.take start ++ piece).length = start + piece.length := by
        rw [List.length_append, List.length_take]
        omega
      rw [List.getElem?_append_right (by omega), hpre, List.getElem?_drop]
      congr 1
      omega
  · have hout : xs[k]? = none := List.getElem?_eq_none (by omega)
    rw [hout, List.getElem?_eq_none_iff]
    simp only [List.length_append, List.length_take, List.length_drop]
    omega

/-- Bytes that are put in place of as many others are written to the window that they occupy. -/
theorem Session.splice_eq_write {w : Workspace} {id start : Nat} {data : Bytes}
    (h : start + data.length ≤ (w.store.content id).length) :
    splice (.buffer id) start (start + data.length : Nat) data w =
      (.ok (.buffer id),
        { w with store := w.store.write ⟨id, start, data.length⟩ data }) := by
  have hnew : (w.store.content id).take start ++ data ++
      (w.store.content id).drop (start + data.length) =
        Bytes.overwrite (w.store.content id) start data := rfl
  have hlen := Bytes.length_overwrite h
  have hget : (get : Session Workspace) w = (.ok w, w) := rfl
  unfold splice
  simp only
  rw [bind_of_ok hget]
  simp only [Bytes.bound_natCast (by omega : start ≤ (w.store.content id).length),
    Bytes.bound_natCast h, Nat.max_eq_right (Nat.le_add_right start data.length), hnew, hlen, ne_eq,
    not_true_eq_false, false_and, if_false]
  rfl

/-! ### Events -/

/-- What happens while views and packets are in use: an action, a view of bytes that are not
checked, or any other change of the workspace, such as one of a buffer. -/
inductive Event
  | act (a : Action)
  | unchecked (t : TypeExpr) (data : Object)
  | rewrite (w : Workspace)

/-- A view is that of a part of another one, which has not been released. -/
def ViewCell.IsPartOf (s : Store) (id : Nat) (cell : ViewCell) : Prop :=
  ∃ whole step slot, s.views[id]? = some whole ∧ whole.released = false ∧
    whole.layout.slotAt step = some slot ∧ cell.layout = slot.layout ∧
      cell.window = whole.window.slice slot.start slot.stop

namespace Event

/-- An event can happen: bytes lie in the buffers that there are, packets are such that have been
made, and only buffers that can be written to are overwritten, and keep their lengths. -/
def Possible (s : Course) : Event → Prop
  | .act (.packet _ data) | .act (.view _ data) | .unchecked _ data =>
    data.Within s.workspace.store
  | .act (.borrow layout content) => (layout, content) ∈ s.packets
  | .act _ => True
  | .rewrite w => s.Rewrites w

/-- Where the window of a view comes from that an event has made. -/
def Makes (s now : Store) (cell : ViewCell) : Event → Prop
  | .act (.view _ data) | .unchecked _ data => data.Lends s now cell.window
  | .act (.field id _) | .act (.index id _) | .act (.entries id) | .act (.reversed id) =>
    cell.IsPartOf s id
  | .act (.borrow layout content) =>
    cell.layout = layout ∧ (Object.plain (.bytes content)).Lends s now cell.window
  | _ => False

/-- A view that an event has made: its window lies inside a buffer and comes from where it
should. -/
structure Made (e : Event) (s now : Store) (cell : ViewCell) : Prop where
  live : cell.released = false
  within : cell.window.Within now
  makes : e.Makes s now cell

/-- No byte of a window is changed. -/
def Spares (s : Course) (window : Window) : Event → Prop
  | .rewrite w => ∀ k, window.start ≤ k → k < window.start + window.count →
    (w.store.content window.buffer)[k]? = (s.workspace.store.content window.buffer)[k]?
  | _ => True

theorem lends_of_buffers {s now last : Store} {window : Window} {data : Object}
    (h : data.Lends s now window) (hwithin : window.Within now)
    (hlast : now.buffers <+: last.buffers) : data.Lends s last window := by
  have hread := (Store.within_of_extends hwithin hlast).2
  cases data with
  | plain v =>
    cases v with
    | bytes content => exact ⟨h.1, hread.trans h.2⟩
    | _ => exact h
  | _ => exact h

theorem lasting_made (e : Event) (s : Store) : Lasting (e.Made s) := by
  intro now last cell hlast h
  refine ⟨h.live, (Store.within_of_extends h.within hlast).1, ?_⟩
  have hmakes := h.makes
  cases e with
  | act a =>
    cases a with
    | view t data => exact lends_of_buffers hmakes h.within hlast
    | borrow l content => exact ⟨hmakes.1, lends_of_buffers hmakes.2 h.within hlast⟩
    | _ => exact hmakes
  | unchecked t data => exact lends_of_buffers hmakes h.within hlast
  | rewrite w => exact hmakes

end Event

/-! ### Single events -/

/-- The release of a view marks it. -/
theorem Store.getElem?_release (s : Store) (id other : Nat) : (s.release id).views[other]? =
    s.views[other]?.map fun cell =>
      if id = other then { cell with released := true } else cell := by
  unfold Store.release
  rw [List.getElem?_modify]
  by_cases hsame : id = other
  · simp [hsame]
  · simp [hsame]

namespace Course

/-- The windows of all views lie inside buffers. -/
def Placed (s : Course) : Prop :=
  ∀ cell ∈ s.workspace.store.views, cell.window.Within s.workspace.store

/-- The course after an event. Buffers of immutable bytes that are looked at, and of packets, are
not written to from then on. -/
def after (s : Course) : Event → Course
  | .act a => s.act a
  | .unchecked t data =>
    let w := (Session.unchecked t data s.workspace).2
    let old := s.workspace.store.buffers.length
    { s with workspace := w, frozen := s.frozen ++ List.range' old (w.store.buffers.length - old) }
  | .rewrite w => { s with workspace := w }

variable {s : Course}

/-- An action other than the release of a view only adds buffers and views. -/
theorem grows_of_action (hs : s.Placed) {a : Action} (ha : (Event.act a).Possible s)
    (hrelease : ∀ id, a ≠ .release id) :
    s.workspace.store.Grows ((Event.act a).Made s.workspace.store)
      (s.act a).workspace.store := by
  have hmade := Event.lasting_made (.act a) s.workspace.store
  -- a part lies inside the buffer of the whole, whatever the slots are
  have hparts : ∀ id, (∀ cell : ViewCell, cell.IsPartOf s.workspace.store id →
        (Event.act a).Makes s.workspace.store s.workspace.store cell) →
      ∀ cell step slot, s.workspace.store.views[id]? = some cell → cell.released = false →
        cell.layout.slotAt step = some slot → (Event.act a).Made s.workspace.store s.workspace.store
          ⟨slot.layout, cell.window.slice slot.start slot.stop, false⟩ := by
    intro id hmakes cell step slot hcell hlive hslot
    refine ⟨rfl, (hs cell (List.mem_of_getElem? hcell)).slice _ _, hmakes _ ?_⟩
    exact ⟨cell, step, slot, hcell, hlive, hslot, rfl, rfl⟩
  have hperform : Session.Grows ((Event.act a).Made s.workspace.store) a.perform s.workspace
      fun _ _ => True := by
    cases a with
    | pack o t =>
      exact (Session.grows_pack hmade o t).bind hmade fun _ _ _ _ => Session.grows_pure trivial
    | packet t data =>
      exact (Session.grows_packet hmade t ha).bind hmade fun _ _ _ _ => Session.grows_pure trivial
    | view t data =>
      refine (Session.grows_view hmade (fun now l window _ hwithin hlends => ?_) t ha).bind hmade
        fun _ _ _ _ => Session.grows_pure trivial
      exact ⟨rfl, hwithin, hlends⟩
    | field id name =>
      exact (Session.grows_field hmade (hparts id fun _ h => h) name).bind hmade
        fun _ _ _ _ => Session.grows_pure trivial
    | index id i =>
      exact (Session.grows_index hmade (hparts id fun _ h => h) i).bind hmade
        fun _ _ _ _ => Session.grows_pure trivial
    | entries id => exact Session.grows_entriesBy hmade (hparts id fun _ h => h) fun ks => ks
    | reversed id => exact Session.grows_entriesBy hmade (hparts id fun _ h => h) List.reverse
    | toOwned id =>
      exact (Session.grows_toOwned id).bind hmade fun _ _ _ _ => Session.grows_pure trivial
    | borrow l content =>
      refine (Session.grows_borrow hmade fun now window _ hwithin hlends => ?_).bind hmade
        fun _ _ _ _ => Session.grows_pure trivial
      exact ⟨rfl, hwithin, rfl, hlends⟩
    | release id => exact absurd rfl (hrelease id)
  exact hperform.store

/-- The release of a view does nothing else. -/
theorem store_of_release (s : Course) (id : Nat) :
    (s.act (.release id)).workspace =
      { s.workspace with store := s.workspace.store.release id } := by
  cases hcell : s.workspace.store.views[id]? with
  | none =>
    have hrun : Session.release (.view id) s.workspace = (.error .noAttribute, s.workspace) :=
      Session.bind_of_error (Session.discard_eq (Session.viewCell_of_none hcell))
    have hrelease : s.workspace.store.release id = s.workspace.store := by
      unfold Store.release
      rw [List.modify_eq_self (List.getElem?_eq_none_iff.1 hcell)]
    rw [hrelease]
    exact congrArg Prod.snd (Session.bind_of_error hrun)
  | some cell =>
    have hrun : Session.release (.view id) s.workspace =
        (.ok (), { s.workspace with store := s.workspace.store.release id }) :=
      Session.bind_of_ok (Session.discard_eq (Session.viewCell_eq hcell))
    exact congrArg Prod.snd (Session.bind_of_ok hrun)

/-- What an event does: no view is taken away or moved, and one is released exactly if the event
says so; new views are those that the event makes; packets remain; no bytes are changed but those of
buffers that can be written to, and only by writing to them. -/
structure Step (s : Course) (e : Event) : Prop where
  views : ∀ id cell, s.workspace.store.views[id]? = some cell → ∃ released,
    (s.after e).workspace.store.views[id]? = some { cell with released } ∧
      (released = true ↔ cell.released = true ∨ e = .act (.release id))
  made : ∀ id cell, (s.after e).workspace.store.views[id]? = some cell →
    s.workspace.store.views.length ≤ id →
      e.Made s.workspace.store (s.after e).workspace.store cell
  packets : s.packets <+: (s.after e).packets
  frozen : s.frozen <+: (s.after e).frozen
  within : ∀ window : Window, window.Within s.workspace.store →
    window.Within (s.after e).workspace.store
  read : ∀ window : Window, window.Within s.workspace.store →
    window.buffer ∈ s.frozen ∨ e.Spares s window →
      (s.after e).workspace.store.read window = s.workspace.store.read window

/-- What an event does that only adds buffers and views. -/
theorem step_of_grows {e : Event} (h : s.workspace.store.Grows (e.Made s.workspace.store)
      (s.after e).workspace.store) (hrelease : ∀ id, e ≠ .act (.release id))
    (hpackets : s.packets <+: (s.after e).packets) (hfrozen : s.frozen <+: (s.after e).frozen) :
    s.Step e := by
  obtain ⟨cells, hcells, hmade⟩ := h.views
  refine ⟨fun id cell hcell => ?_, fun id cell hcell hid => ?_, hpackets, hfrozen,
    fun window hwindow => (Store.within_of_extends hwindow h.buffers).1,
    fun window hwindow _ => (Store.within_of_extends hwindow h.buffers).2⟩
  · refine ⟨cell.released, ?_, by simp [hrelease]⟩
    rw [hcells]
    exact Store.getElem?_of_prefix (List.prefix_append _ _) hcell
  · rw [hcells, List.getElem?_append_right hid] at hcell
    exact hmade cell (List.mem_of_getElem? hcell)

theorem step_of_release (s : Course) (id : Nat) : s.Step (.act (.release id)) := by
  have hstore : (s.after (.act (.release id))).workspace.store = s.workspace.store.release id :=
    congrArg Workspace.store (s.store_of_release id)
  refine ⟨fun other cell hcell => ?_, fun other cell hcell hother => ?_, List.prefix_append _ _,
    List.prefix_append _ _, fun window hwindow => ?_, fun window _ _ => ?_⟩
  · rw [hstore]
    refine ⟨cell.released || decide (id = other), ?_, by simp⟩
    rw [Store.getElem?_release, hcell]
    by_cases hsame : id = other
    · simp [hsame]
    · simp [hsame]
  · rw [hstore] at hcell
    obtain ⟨hlt, -⟩ := List.getElem?_eq_some_iff.1 hcell
    unfold Store.release at hlt
    rw [List.length_modify] at hlt
    omega
  · rw [hstore]
    exact hwindow
  · rw [hstore]
    rfl

/-- The bytes of a window are the same if no byte inside it is changed. -/
theorem read_of_spares {w : Workspace} {window : Window}
    (h : (Event.rewrite w).Spares s window) :
    w.store.read window = s.workspace.store.read window := by
  unfold Store.read
  refine List.ext_getElem? fun k => ?_
  by_cases hk : k < window.count
  · rw [List.getElem?_take_of_lt hk, List.getElem?_take_of_lt hk, List.getElem?_drop,
      List.getElem?_drop]
    exact h _ (by omega) (by omega)
  · rw [List.getElem?_take_eq_none (by omega), List.getElem?_take_eq_none (by omega)]

/-- Writing to another part of a buffer changes no byte of a window. -/
theorem spares_write {window other : Window} (hdisjoint : window.Disjoint other) {data : Bytes}
    (hlen : data.length = (s.workspace.store.read other).length) :
    (Event.rewrite { s.workspace with store := s.workspace.store.write other data }).Spares s
      window := by
  intro k hlo hhi
  show ((s.workspace.store.write other data).content window.buffer)[k]? = _
  by_cases hbuffer : window.buffer = other.buffer
  · have hroom : data.length = min other.count
        ((s.workspace.store.content other.buffer).length - other.start) := by
      rw [hlen, Store.read, List.length_take, List.length_drop]
    rw [hbuffer, Store.content_write hlen]
    refine Bytes.getElem?_overwrite (by omega) ?_
    · rcases hdisjoint hbuffer with hbefore | hbehind
      · left
        omega
      · right
        omega
  · rw [Store.write, Store.content_setContent_of_ne _ (Ne.symm hbuffer)]

section Splices

variable {id start : Nat} {data : Bytes}
  (hroom : start + data.length ≤ (s.workspace.store.content id).length)

include hroom

theorem length_read_splice :
    data.length = (s.workspace.store.read ⟨id, start, data.length⟩).length := by
  simp only [Store.read, List.length_take, List.length_drop]
  omega

/-- Putting bytes in place of as many others is an event that can happen, if the buffer is one that
can be written to. -/
theorem possible_splice (hcache : Cache.Reached s.workspace.cache) (hid : id ∉ s.frozen) :
    (Event.rewrite (Session.splice (.buffer id) start (start + data.length : Nat) data
      s.workspace).2).Possible s := by
  rw [Session.splice_eq_write hroom]
  exact rewrites_write hcache hid (length_read_splice hroom)

/-- It does not change the bytes of other windows. -/
theorem spares_splice {window : Window} (hdisjoint : window.Disjoint ⟨id, start, data.length⟩) :
    (Event.rewrite (Session.splice (.buffer id) start (start + data.length : Nat) data
      s.workspace).2).Spares s window := by
  rw [Session.splice_eq_write hroom]
  exact spares_write hdisjoint (length_read_splice hroom)

end Splices

theorem step_of_rewrites {w : Workspace} (h : s.Rewrites w) : s.Step (.rewrite w) := by
  have hviews : (s.after (.rewrite w)).workspace.store.views = s.workspace.store.views := h.views
  refine ⟨fun id cell hcell => ?_, fun id cell hcell hid => ?_, List.prefix_refl _,
    List.prefix_refl _, fun window hwindow => ?_, fun window hwindow hsame => ?_⟩
  · rw [hviews]
    exact ⟨cell.released, hcell, by simp⟩
  · rw [hviews, List.getElem?_eq_none hid] at hcell
    cases hcell
  · obtain ⟨content, hcontent, hroom⟩ := hwindow
    obtain ⟨now, hnow, hlen, -⟩ := h.buffers _ content hcontent
    exact ⟨now, hnow, by omega⟩
  · rcases hsame with hfrozen | hspares
    · obtain ⟨content, hcontent, -⟩ := hwindow
      obtain ⟨now, hnow, -, hsame⟩ := h.buffers _ content hcontent
      obtain rfl := hsame hfrozen
      show w.store.read window = _
      rw [Store.read, Store.read, Store.content_of_getElem? hnow,
        Store.content_of_getElem? hcontent]
    · exact read_of_spares hspares

/-- What an event does that can happen. -/
theorem step_of_possible (hs : s.Placed) {e : Event} (he : e.Possible s) : s.Step e := by
  cases e with
  | act a =>
    by_cases hrelease : ∃ id, a = .release id
    · obtain ⟨id, rfl⟩ := hrelease
      exact s.step_of_release id
    · rw [not_exists] at hrelease
      refine step_of_grows (grows_of_action hs he hrelease) ?_ (List.prefix_append _ _)
        (List.prefix_append _ _)
      intro id heq
      cases heq
      exact hrelease id rfl
  | unchecked t data =>
    have hgrows := Session.grows_unchecked
      (Event.lasting_made (.unchecked t data) s.workspace.store)
      (fun now l window _ hwithin hlends => ⟨rfl, hwithin, hlends⟩) t he
    exact step_of_grows hgrows.store nofun (List.prefix_refl _) (List.prefix_append _ _)
  | rewrite w => exact step_of_rewrites he

/-- The windows of new views lie inside buffers as well. -/
theorem Step.placed {e : Event} (h : s.Step e) (hs : s.Placed) : (s.after e).Placed := by
  intro cell hcell
  obtain ⟨id, hid⟩ := List.mem_iff_getElem?.1 hcell
  by_cases hold : id < s.workspace.store.views.length
  · obtain ⟨released, hsame, -⟩ := h.views id _ (List.getElem?_eq_getElem hold)
    have hwithin := hs _ (List.getElem_mem hold)
    cases hsame.symm.trans hid
    exact h.within _ hwithin
  · exact (h.made id cell hid (by omega)).within

/-! ### Runs -/

/-- One event of a kind after another. -/
inductive Run (allowed : Course → Event → Prop) : Course → List Event → Course → Prop
  | nil (s : Course) : Run allowed s [] s
  | cons {s last : Course} {e : Event} {es : List Event} : allowed s e →
    Run allowed (s.after e) es last → Run allowed s (e :: es) last

/-- What a run does: no view is taken away or moved, and exactly those are released that events say;
packets remain, and so do the bytes that nobody writes to. -/
structure Kept (s : Course) (es : List Event) (last : Course) : Prop where
  views : ∀ id cell, s.workspace.store.views[id]? = some cell → ∃ released,
    last.workspace.store.views[id]? = some { cell with released } ∧
      (released = true ↔ cell.released = true ∨ .act (.release id) ∈ es)
  packets : s.packets <+: last.packets
  frozen : s.frozen <+: last.frozen
  within : ∀ window : Window, window.Within s.workspace.store → window.Within last.workspace.store
  read : ∀ window : Window, window.Within s.workspace.store → window.buffer ∈ s.frozen →
    last.workspace.store.read window = s.workspace.store.read window

variable {last : Course} {es : List Event}

/-- What a run of events does that can happen. -/
theorem kept_of_run (hs : s.Placed) (h : Run Event.Possible s es last) :
    last.Placed ∧ Kept s es last := by
  induction h with
  | nil s =>
    refine ⟨hs, fun id cell hcell => ⟨cell.released, hcell, by simp⟩, List.prefix_refl _,
      List.prefix_refl _, fun _ h => h, fun _ _ _ => rfl⟩
  | @cons s last e es he _ ih =>
    have hstep := step_of_possible hs he
    obtain ⟨hlast, hkept⟩ := ih (hstep.placed hs)
    refine ⟨hlast, fun id cell hcell => ?_, hstep.packets.trans hkept.packets,
      hstep.frozen.trans hkept.frozen, fun window hwindow => ?_, fun window hwindow hfrozen => ?_⟩
    · obtain ⟨between, hbetween, hfirst⟩ := hstep.views id cell hcell
      obtain ⟨released, hreleased, hrest⟩ := hkept.views id _ hbetween
      refine ⟨released, hreleased, ?_⟩
      rw [hrest, hfirst, List.mem_cons, or_assoc, @eq_comm _ e]
    · exact hkept.within window (hstep.within window hwindow)
    · rw [hkept.read window (hstep.within window hwindow) (hstep.frozen.subset hfrozen)]
      exact hstep.read window hwindow (.inl hfrozen)

/-- A run has no effect on the bytes of a window if none of its events has. -/
theorem read_of_run (hs : s.Placed) {window : Window} (hwindow : window.Within s.workspace.store)
    (h : Run Event.Possible s es last)
    (hspares : Run (fun s e => e.Spares s window) s es last) :
    last.workspace.store.read window = s.workspace.store.read window := by
  induction h with
  | nil s => rfl
  | @cons s last e es he _ ih =>
    cases hspares with
    | cons hfirst hrest =>
      have hstep := step_of_possible hs he
      rw [ih (hstep.placed hs) (hstep.within window hwindow) hrest]
      exact hstep.read window hwindow (.inr hfirst)

end Course

end FixedLayout
