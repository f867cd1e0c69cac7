import FixedLayout.Proofs.Attributes
import FixedLayout.Proofs.Comparisons
import FixedLayout.Proofs.Runs

/-!
# Released views, packets and views in use

Once a view has been released, nothing can be read through it any more, and nobody else takes
notice. A packet has the bytes that it was made with. A view that is in use shows what its window
holds at the time, and nothing else.

* `Attempt`: a way to read bytes through a view; `Attempt.fails`: none succeeds with a released one;
* `Session.Yields`: what is read through a view or packet. `Session.SameHandle`: it shows the same
  in two workspaces;
* `Session.EndsOnly`, `Session.endsOnly`: the end of a view, and all others;
* `Session.sameHandle_of_write`: what is written to other parts of buffers;
* `Course.Follows`, `Course.handles_of_run`: views and packets along all runs.
-/

namespace FixedLayout

/-! ### Attempts -/

/-- A way to read bytes through a view. -/
inductive Attempt
  | unpack
  | unpackView
  | toBytes
  | asSlice
  | copied
  | toOwned
  | field (a : String)
  | dotted (a : String)
  | index (i : Value)
  | entries
  | reversed
  | entryValues
  /-- A comparison with another object, which is on the right or on the left. -/
  | compare (c : Comparison) (other : Object)
  | compareTo (c : Comparison) (other : Object)
  | lookUp

namespace Attempt

/-- Tries to read bytes through a view. What comes of it is left out. -/
def perform (id : Nat) : Attempt → Session Unit
  | .unpack => discard (Session.unpack (.view id))
  | .unpackView => discard (Session.unpackView (.view id))
  | .toBytes => discard (Session.toBytes (.view id))
  | .asSlice => discard (Session.asSlice (.view id))
  | .copied => discard (Session.copied (.view id))
  | .toOwned => discard (Session.toOwned (.view id))
  | .field a => discard (Session.field (.view id) a)
  | .dotted a => discard (Session.select (.view id) a)
  | .index i => discard (Session.index (.view id) i)
  | .entries => discard (Session.entries (.view id))
  | .reversed => discard (Session.reversedEntries (.view id))
  | .entryValues => discard (Session.entryValues (.view id))
  | .compare c other => do
    let v ← Session.value (.view id)
    let u ← Session.value other
    discard (Session.lift OrderFault.toFault (v.holds c u))
  | .compareTo c other => do
    let v ← Session.value (.view id)
    let u ← Session.value other
    discard (Session.lift OrderFault.toFault (u.holds c v))
  | .lookUp => do
    let v ← Session.value (.view id)
    discard (Session.lift HashFault.toFault (Value.distinct [v]))

/-- An attempt gets as far as reading bytes: the field or entry is there, the name stands for a
field, there are entries at all, and the other object has bytes or is the view itself. -/
def Reads (s : Store) (id : Nat) (l : Layout) : Attempt → Prop
  | .field a => a ∈ l.accessors
  | .dotted a => a ∈ l.accessors ∧ IsAttribute a
  | .index i => ∃ slot, l.entryAt i = .ok slot
  | .entries | .reversed | .entryValues => ∃ n, l.entryCount? = some n ∧ 0 < n
  | .compare _ other | .compareTo _ other =>
    other = .view id ∨ ∃ content, (s.valueOf other).rawBytes? = some content
  | _ => True

end Attempt

/-- A comparison with a released view asks for its bytes. -/
theorem Value.handleBytes_of_released {l : Layout} {u : Value}
    (h : u = .view l none ∨ ∃ content, u.rawBytes? = some content) :
    (Value.view l none).handleBytes u = some (.error (.released l.typeName)) ∧
      u.handleBytes (.view l none) = some (.error (.released l.typeName)) := by
  rcases h with rfl | ⟨content, h⟩
  · exact ⟨rfl, rfl⟩
  · cases u with
    | view l' content' =>
      cases h
      exact ⟨rfl, rfl⟩
    | packet l' content' => exact ⟨rfl, rfl⟩
    | bytes content' => exact ⟨rfl, rfl⟩
    | bytearray content' => exact ⟨rfl, rfl⟩
    | memory m =>
      have hnone : (Value.view l none).rawBytes? = none := rfl
      simp [handleBytes, isHandle, releasedType?, h, hnone]
    | _ => cases h

namespace Session

variable {w : Workspace} {id : Nat} {cell : ViewCell}

/-- Nothing is left out of a computation that fails. -/
theorem discard_of_error {α : Type} {m : Session α} {fault : Fault} (h : m w = (.error fault, w)) :
    discard m w = (.error fault, w) := discard_eq h

/-- No view of an entry is made. -/
theorem children_of_released (hreleased : cell.released = true) {n : Int}
    (hn : cell.layout.entryCount? = some n) {numbers : List Nat} (hne : numbers ≠ [])
    (hnumbers : ∀ k ∈ numbers, (k : Int) < n) :
    children cell numbers w = (.error (.released cell.layout.typeName), w) := by
  cases numbers with
  | nil => exact absurd rfl hne
  | cons k rest =>
    have hk := hnumbers k (List.mem_cons_self ..)
    have hslot : ∃ slot, cell.layout.entry k = .ok slot := by
      rcases Layout.entry_cases hn (by omega : -n ≤ (k : Int)) hk with
        ⟨_, _, hentry⟩ | ⟨_, _, _, _, _, _, _, hentry⟩
      · exact ⟨_, hentry⟩
      · exact ⟨_, hentry⟩
    obtain ⟨slot, hslot⟩ := hslot
    -- the slot of the first entry is found, and then the view is asked for its bytes
    unfold children
    rw [List.mapM_cons]
    refine bind_of_error ?_
    rw [hslot]
    exact child_of_released hreleased slot w

section Released

variable (hcell : w.store.views[id]? = some cell) (hreleased : cell.released = true)

include hcell hreleased

theorem withBytes_of_released :
    withBytes (.view id) w = (.error (.released cell.layout.typeName), w) :=
  withBytes_of_error (Store.handle_of_released hcell hreleased)

theorem valueOf_released : w.store.valueOf (.view id) = .view cell.layout none := by
  show w.store.viewValue id = _
  unfold Store.viewValue
  rw [hcell]
  simp [hreleased]

theorem entries_of_released (order : List Nat → List Nat) (horder : ∀ ks, (order ks).Perm ks)
    (hn : ∃ n, cell.layout.entryCount? = some n ∧ 0 < n) : (do
      let cell ← viewCell id
      children cell (order (← entryNumbers cell.layout))) w =
        (.error (.released cell.layout.typeName), w) := by
  obtain ⟨n, hn, hpos⟩ := hn
  rw [bind_of_ok (viewCell_eq hcell), bind_of_ok (entryNumbers_eq hn w)]
  refine children_of_released hreleased hn ?_ ?_
  · intro hnil
    have hlen := (horder (List.range n.toNat)).length_eq
    rw [hnil, List.length_range, List.length_nil] at hlen
    omega
  · intro k hk
    have := List.mem_range.1 ((horder _).mem_iff.1 hk)
    omega

end Released

end Session

/-- No attempt to read bytes through a released view succeeds, and none changes anything. -/
theorem Attempt.fails {w : Workspace} {id : Nat} {cell : ViewCell}
    (hcell : w.store.views[id]? = some cell) (hreleased : cell.released = true) {attempt : Attempt}
    (h : attempt.Reads w.store id cell.layout) :
    attempt.perform id w = (.error (.released cell.layout.typeName), w) := by
  have hbytes := Session.withBytes_of_released hcell hreleased
  have hview : discard (Session.asView (.view id)) w = (.ok (), w) :=
    Session.discard_eq (Session.viewCell_eq hcell)
  have hvalue : Session.value (.view id) w = (.ok (.view cell.layout none), w) := by
    rw [Session.value_eq, Session.valueOf_released hcell hreleased]
  have hother : ∀ other, (other = .view id ∨
      ∃ content, (w.store.valueOf other).rawBytes? = some content) →
        w.store.valueOf other = .view cell.layout none ∨
          ∃ content, (w.store.valueOf other).rawBytes? = some content := by
    intro other h
    refine h.imp_left ?_
    rintro rfl
    exact Session.valueOf_released hcell hreleased
  cases attempt with
  | unpack => exact Session.discard_of_error (Session.bind_of_error hbytes)
  | unpackView =>
    refine Session.discard_of_error ((Session.bind_of_ok hview).trans ?_)
    exact Session.bind_of_error hbytes
  | toBytes => exact Session.discard_of_error (Session.bind_of_error hbytes)
  | asSlice =>
    refine Session.discard_of_error ((Session.bind_of_ok (Session.viewCell_eq hcell)).trans ?_)
    exact Session.bind_of_error (Session.liveWindow_of_released hreleased w)
  | copied => exact Session.discard_of_error (Session.bind_of_error hbytes)
  | toOwned =>
    refine Session.discard_of_error ((Session.bind_of_ok hview).trans ?_)
    exact Session.bind_of_error hbytes
  | field a =>
    obtain ⟨slot, hslot⟩ := Layout.exists_accessor h
    refine Session.discard_of_error ((Session.field_eq hcell hslot).trans ?_)
    exact Session.child_of_released hreleased slot w
  | dotted a =>
    obtain ⟨slot, hslot⟩ := Layout.exists_accessor h.1
    refine Session.discard_of_error ?_
    rw [Session.select_of_isAttribute h.2]
    exact Session.dotted_of_released hcell hreleased hslot
  | index i =>
    obtain ⟨slot, hslot⟩ := h
    refine Session.discard_of_error ((Session.index_eq hcell hslot).trans ?_)
    exact Session.child_of_released hreleased slot w
  | entries =>
    exact Session.discard_of_error
      (Session.entries_of_released hcell hreleased (fun ks => ks) (fun _ => .refl _) h)
  | reversed =>
    exact Session.discard_of_error
      (Session.entries_of_released hcell hreleased List.reverse List.reverse_perm h)
  | entryValues =>
    refine Session.discard_of_error (Session.bind_of_error ?_)
    exact Session.entries_of_released hcell hreleased (fun ks => ks) (fun _ => .refl _) h
  | compare c other =>
    refine (Session.bind_of_ok hvalue).trans ?_
    refine (Session.bind_of_ok (Session.value_eq other w)).trans ?_
    rw [Value.holds_of_handleBytes (Value.handleBytes_of_released (hother other h)).1]
    rfl
  | compareTo c other =>
    refine (Session.bind_of_ok hvalue).trans ?_
    refine (Session.bind_of_ok (Session.value_eq other w)).trans ?_
    rw [Value.holds_of_handleBytes (Value.handleBytes_of_released (hother other h)).2]
    rfl
  | lookUp =>
    refine (Session.bind_of_ok hvalue).trans ?_
    rfl

/-! ### Views and packets at one time -/

namespace Session

variable {w : Workspace} {id : Nat} {cell : ViewCell}

/-- A view or packet has bytes of a layout: they are copied from it, and what it is unpacked to is
what they are decoded to. -/
structure Yields (w : Workspace) (o : Object) (l : Layout) (data : Bytes) : Prop where
  handle : w.store.handle o = .ok (l, data)
  toBytes : toBytes o w = (.ok data, w)
  unpacked : (unpacked o w).1 = (l.decode data).mapError DecodeFault.toFault

theorem yields_of_handle {o : Object} (ho : o.IsHandle) {l : Layout} {data : Bytes}
    (h : w.store.handle o = .ok (l, data)) : Yields w o l data := by
  refine ⟨h, ?_, ?_⟩
  · rw [toBytes_eq ho, h]
    rfl
  · rw [unpacked_eq, h]
    rfl

/-- A view or packet shows the same in two workspaces. -/
structure SameHandle (o : Object) (w after : Workspace) : Prop where
  handle : after.store.handle o = w.store.handle o
  unpacked : (unpacked o after).1 = (unpacked o w).1

theorem sameHandle_of_handle {o : Object} {after : Workspace}
    (h : after.store.handle o = w.store.handle o) : SameHandle o w after :=
  ⟨h, by rw [unpacked_eq, unpacked_eq, h]⟩

/-- The end of a view marks it, and nothing else. Neither another view nor a packet shows anything
else afterwards, and ending the view once more changes nothing at all. -/
structure EndsOnly (w : Workspace) (id : Nat) (cell : ViewCell) : Prop where
  run : release (.view id) w = (.ok (), { w with store := w.store.release id })
  buffers : (w.store.release id).buffers = w.store.buffers
  own : (w.store.release id).views[id]? = some { cell with released := true }
  others : ∀ other, other ≠ id → (w.store.release id).views[other]? = w.store.views[other]?
  handles : ∀ o, o ≠ .view id → SameHandle o w { w with store := w.store.release id }
  again : cell.released = true → w.store.release id = w.store

theorem endsOnly (hcell : w.store.views[id]? = some cell) : EndsOnly w id cell := by
  have hview : discard (asView (.view id)) w = (.ok (), w) := discard_eq (viewCell_eq hcell)
  have hothers : ∀ other, other ≠ id →
      (w.store.release id).views[other]? = w.store.views[other]? := by
    intro other hne
    simp [Store.getElem?_release, Ne.symm hne]
  refine ⟨bind_of_ok hview, rfl, ?_, hothers, fun o ho => sameHandle_of_handle ?_, ?_⟩
  · simp [Store.getElem?_release, hcell]
  · cases o with
    | view other =>
      have hne : other ≠ id := fun heq => ho (congrArg Object.view heq)
      simp only [Store.handle, hothers other hne]
      rfl
    | plain v => cases v <;> rfl
    | _ => rfl
  · intro hreleased
    have hviews : (w.store.release id).views = w.store.views := by
      refine List.ext_getElem? fun other => ?_
      rw [Store.getElem?_release]
      by_cases hsame : id = other
      · subst hsame
        simp [hcell, ← hreleased]
      · simp [hsame]
    show { w.store with views := (w.store.release id).views } = w.store
    rw [hviews]

/-- What is written to other parts of buffers does not show in a view. -/
theorem sameHandle_of_write (hcell : w.store.views[id]? = some cell) {other : Window}
    (hdisjoint : cell.window.Disjoint other) {data : Bytes}
    (hlen : data.length = (w.store.read other).length) :
    SameHandle (.view id) w { w with store := w.store.write other data } := by
  refine sameHandle_of_handle ?_
  have hread := Course.read_of_spares
    (Course.spares_write (s := ⟨w, [], []⟩) hdisjoint hlen)
  have hviews : (w.store.write other data).views = w.store.views := rfl
  simp only [Store.handle, hviews, hcell, hread]

end Session

/-! ### Views and packets along runs -/

namespace Course

variable {start s last : Course} {before es : List Event}

theorem placed_of_run (hstart : start.workspace.store.views = [])
    (h : Run Event.Possible start before s) : s.Placed := by
  have hplaced : start.Placed := by
    intro cell hcell
    rw [hstart] at hcell
    cases hcell
  exact (kept_of_run hplaced h).1

/-- What becomes of a view, in a run of events that starts at any time after it has been made. -/
structure Follows (s : Course) (es : List Event) (last : Course) (id : Nat) (cell : ViewCell) :
    Prop where
  /-- A view that has been released, before or in the run, gives nothing away. -/
  ended : cell.released = true ∨ .act (.release id) ∈ es → ∀ attempt : Attempt,
    attempt.Reads last.workspace.store id cell.layout →
      attempt.perform id last.workspace =
        (.error (.released cell.layout.typeName), last.workspace)
  /-- Any other view yields what its window holds now, and the window is the same as ever. -/
  current : cell.released = false → .act (.release id) ∉ es →
    Session.Yields last.workspace (.view id) cell.layout
      (last.workspace.store.read cell.window)
  /-- If nothing in its window has been changed, it shows what it has always shown. -/
  same : cell.released = false → .act (.release id) ∉ es →
    Run (fun s e => e.Spares s cell.window) s es last →
      Session.SameHandle (.view id) s.workspace last.workspace
  /-- Writing to other parts of buffers does not show in it. -/
  apart : cell.released = false → .act (.release id) ∉ es →
    ∀ (other : Window) (data : Bytes), cell.window.Disjoint other →
      data.length = (last.workspace.store.read other).length →
        Session.SameHandle (.view id) last.workspace
          { last.workspace with store := last.workspace.store.write other data }
  /-- The bytes of a view of a packet, or of immutable bytes, are what they were. -/
  frozen : cell.window.buffer ∈ s.frozen →
    last.workspace.store.read cell.window = s.workspace.store.read cell.window

theorem follows_of_run (hs : s.Placed) (h : Run Event.Possible s es last) {id : Nat}
    {cell : ViewCell} (hcell : s.workspace.store.views[id]? = some cell) :
    Follows s es last id cell := by
  obtain ⟨-, hkept⟩ := kept_of_run hs h
  have hwithin := hs cell (List.mem_of_getElem? hcell)
  obtain ⟨released, hlast, hreleased⟩ := hkept.views id cell hcell
  have hlive : cell.released = false → .act (.release id) ∉ es → released = false := by
    intro hcell hes
    rw [Bool.eq_false_iff, ne_eq, hreleased]
    simp [hcell, hes]
  refine ⟨fun hended attempt hreads => ?_, fun hcell hes => ?_, fun hbefore hes hspares => ?_,
    fun hcell hes other data hdisjoint hlen => ?_, hkept.read _ hwithin⟩
  · exact Attempt.fails hlast (hreleased.2 hended) hreads
  · have hhandle := Store.handle_of_live hlast (hlive hcell hes)
    have ho : (Object.view id).IsHandle := trivial
    exact Session.yields_of_handle ho hhandle
  · refine Session.sameHandle_of_handle ?_
    rw [Store.handle_of_live hlast (hlive hbefore hes), Store.handle_of_live hcell hbefore,
      read_of_run hs hwithin h hspares]
  · exact Session.sameHandle_of_write hlast hdisjoint hlen

/-- Views and packets along all runs, from a workspace in which no view has been made. At any time
in such a run, and at any later time:

* a view that has been released in between gives nothing away, whatever is tried; a view in use
  yields the bytes of the window that it has had from the beginning, and only what is written there
  shows in it;
* the end of a view is noticed by no other view and by no packet, and another end by nobody;
* a packet has the bytes that it was made with;
* a further view has a window of the bytes that it was made of: of all of a bytes-like object, or of
  the part of the window of another view that is in use. -/
theorem handles_of_run (hstart : start.workspace.store.views = [])
    (hbefore : Run Event.Possible start before s) (h : Run Event.Possible s es last) :
    (∀ id cell, s.workspace.store.views[id]? = some cell → Follows s es last id cell) ∧
    (∀ id cell, last.workspace.store.views[id]? = some cell →
      Session.EndsOnly last.workspace id cell) ∧
    (∀ p ∈ s.packets, p ∈ last.packets ∧
      Session.Yields last.workspace (.plain (.packet p.1 p.2)) p.1 p.2) ∧
    ∀ e : Event, e.Possible last → ∀ id cell,
      (last.after e).workspace.store.views[id]? = some cell →
        last.workspace.store.views.length ≤ id →
          e.Made last.workspace.store (last.after e).workspace.store cell := by
  have hs := placed_of_run hstart hbefore
  obtain ⟨hplaced, hkept⟩ := kept_of_run hs h
  refine ⟨fun id cell hcell => follows_of_run hs h hcell, fun id cell hcell =>
    Session.endsOnly hcell, fun p hp => ⟨hkept.packets.subset hp, ?_⟩, fun e he => ?_⟩
  · have ho : (Object.plain (.packet p.1 p.2)).IsHandle := trivial
    exact Session.yields_of_handle ho rfl
  · exact (step_of_possible hplaced he).made

/-- A buffer with an instance of the class of headers. -/
def headerStart : Course :=
  ⟨⟨[.model Session.headerModel], [], ⟨[[7, 2]], [], []⟩, []⟩, [], []⟩

/-- A view of the header, one of its second field, and a packet have been made. -/
def headerViewed : Course :=
  ((headerStart.after (.act (.view (.named "Header") (.buffer 0)))).after
    (.act (.field 0 "size"))).after (.act (.toOwned 0))

/-- The first byte has been overwritten. -/
def headerPoked : Workspace :=
  (Session.splice (.buffer 0) 0 1 [9] headerViewed.workspace).2

theorem views_headerViewed : headerViewed.workspace.store.views =
    [⟨Session.headerLayout, ⟨0, 0, 2⟩, false⟩, ⟨.int .u8, ⟨0, 1, 1⟩, false⟩] := by cbv

theorem reached_headerViewed : Reached (fun _ _ => True) headerViewed := by
  have hlayout : (headerStart.workspace.catalog.compile (.named "Header") []).1 =
      .ok Session.headerLayout := by cbv
  have hview : (Action.view (.named "Header") (.buffer 0)).Possible headerStart := by
    refine ⟨Nat.zero_lt_one, fun l hl => ?_⟩
    cases hlayout.symm.trans hl
    exact ⟨trivial, trivial, trivial⟩
  have hviewed : Reached (fun _ _ => True) (headerStart.act _) :=
    .act (.start .empty rfl) hview trivial
  have hfield : Reached (fun _ _ => True) (Course.act _ _) :=
    .act (a := .field 0 "size") hviewed trivial trivial
  exact .act (a := .toOwned 0) hfield trivial trivial

/-- The field and the packet are what they were after the first byte has been overwritten and the
view of the header has been released, twice. -/
theorem field_outlives_header : ∃ last, Run Event.Possible headerViewed
      [.rewrite headerPoked, .act (.release 0), .act (.release 0)] last ∧
    Attempt.unpack.perform 0 last.workspace = (.error (.released "Header"), last.workspace) ∧
    Session.SameHandle (.view 1) headerViewed.workspace last.workspace ∧
    Session.Yields last.workspace (.plain (.packet Session.headerLayout [7, 2]))
      Session.headerLayout [7, 2] := by
  have hbefore : Run Event.Possible headerStart [.act (.view (.named "Header") (.buffer 0)),
      .act (.field 0 "size"), .act (.toOwned 0)] headerViewed :=
    .cons Nat.zero_lt_one (.cons trivial (.cons trivial (.nil _)))
  have hroom : 0 + ([9] : Bytes).length ≤ (headerViewed.workspace.store.content 0).length := by
    have hcontent : headerViewed.workspace.store.content 0 = [7, 2] := by cbv
    rw [hcontent]
    decide
  have hpoke : (Event.rewrite headerPoked).Possible headerViewed := by
    have hfrozen : headerViewed.frozen = [] := by cbv
    refine possible_splice hroom (sized_of_reached reached_headerViewed).workspace.cache ?_
    rw [hfrozen]
    exact List.not_mem_nil
  have hspares : (Event.rewrite headerPoked).Spares headerViewed ⟨0, 1, 1⟩ :=
    spares_splice hroom fun _ => .inr (Nat.le_refl 1)
  have hpackets : headerViewed.packets = [(Session.headerLayout, [7, 2])] := by cbv
  have hrun : ∀ {allowed : Course → Event → Prop},
      allowed headerViewed (.rewrite headerPoked) → (∀ s, allowed s (.act (.release 0))) →
        Run allowed headerViewed [.rewrite headerPoked, .act (.release 0), .act (.release 0)]
          (((headerViewed.after (.rewrite headerPoked)).after (.act (.release 0))).after
            (.act (.release 0))) := by
    intro allowed hfirst hrest
    exact .cons hfirst (.cons (hrest _) (.cons (hrest _) (.nil _)))
  obtain ⟨hviews, -, hmade, -⟩ :=
    handles_of_run rfl hbefore (hrun hpoke fun _ => trivial)
  refine ⟨_, hrun hpoke fun _ => trivial, ?_, ?_, ?_⟩
  · have hheader := hviews 0 _ (by rw [views_headerViewed]; rfl)
    exact hheader.ended (.inr (by simp)) .unpack trivial
  · have hfield := hviews 1 _ (by rw [views_headerViewed]; rfl)
    exact hfield.same rfl (by simp) (hrun hspares fun _ => trivial)
  · exact (hmade (Session.headerLayout, [7, 2]) (by rw [hpackets]; simp)).2

end Course

end FixedLayout
