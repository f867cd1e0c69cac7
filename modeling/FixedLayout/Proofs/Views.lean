import Mathlib
import FixedLayout.Proofs.Navigation
import FixedLayout.Proofs.Objects

/-!
# Views of parts

A view of a part has a window of its own into the same buffer, and its bytes are not checked again.
Still they are the bytes of the part: they pass the check of its layout, and they are unpacked to
the component of the value of the whole.

* `Session.IsView`: an object is a view of bytes in a buffer;
* `Session.AddsViews`: a computation that does nothing but add views, with its `pure` and `bind`;
* `Session.step`, `Session.walk`: views of parts, one after another;
* `Session.step_addsViews`, `Session.walk_addsViews`: where a step and a path lead;
* `Session.IsEntry`, `Session.HasEntries`: the views of the entries of a view;
* `Session.hasEntries`: all ways to reach entries agree;
* `Session.walk_reaches_component`: what is reached by a path is unpacked to the component of the
  value that the same path leads to.
-/

namespace FixedLayout

/-- The part of a window between two bounds has the slice of the bytes. -/
theorem Store.read_slice {s : Store} {window : Window} {data : Bytes} (hread : s.read window = data)
    {lo hi : Int} (h0 : 0 ≤ lo) (h1 : lo ≤ hi) (h2 : hi ≤ data.length) :
    window.slice lo hi = ⟨window.buffer, window.start + lo.toNat, (hi - lo).toNat⟩ ∧
      s.read (window.slice lo hi) = Bytes.slice data lo hi := by
  subst hread
  -- a window may be wider than what is left of its buffer
  have hcount : (s.read window).length ≤ window.count := List.length_take_le ..
  have hslice : window.slice lo hi =
      ⟨window.buffer, window.start + lo.toNat, (hi - lo).toNat⟩ := by
    have hlen : hi.toNat - lo.toNat = (hi - lo).toNat := by omega
    unfold Window.slice
    simp only
    rw [Bytes.bound_eq_toNat h0 (by omega), Bytes.bound_eq_toNat (by omega) (by omega), hlen]
  refine ⟨hslice, ?_⟩
  rw [hslice, Bytes.slice_eq h0 h1 h2]
  unfold read
  have hwidth : min (hi - lo).toNat (window.count - lo.toNat) = (hi - lo).toNat := by omega
  rw [List.drop_take, List.take_take, List.drop_drop, hwidth]

/-- Whether a fault is that of an index for which there is no entry. -/
def Fault.IsIndexFault : Fault → Prop
  | .noEntry => True
  | .outsideArray _ _ => True
  | _ => False

namespace Session

/-! ### Computations that add views -/

/-- A workspace with further views, and the same otherwise. -/
def Gains (w after : Workspace) : Prop :=
  ∃ views, after = { w with store := { w.store with views := w.store.views ++ views } }

variable {α β : Type} {w after last : Workspace}

theorem Gains.refl (w : Workspace) : Gains w w := by
  refine ⟨[], ?_⟩
  rw [List.append_nil]

theorem Gains.trans (h : Gains w after) (h' : Gains after last) : Gains w last := by
  obtain ⟨views, rfl⟩ := h
  obtain ⟨others, rfl⟩ := h'
  refine ⟨views ++ others, ?_⟩
  rw [← List.append_assoc]

/-- A computation succeeds and does nothing but add views; the result and the workspace that is left
are as described. -/
def AddsViews (m : Session α) (w : Workspace) (P : Workspace → α → Prop) : Prop :=
  ∃ a after, m w = (.ok a, after) ∧ Gains w after ∧ P after a

variable {m : Session α} {f : α → Session β} {P : Workspace → α → Prop}
  {Q : Workspace → β → Prop}

theorem addsViews_pure {a : α} (h : P w a) : AddsViews (pure a) w P :=
  ⟨a, w, rfl, .refl w, h⟩

theorem AddsViews.bind (hm : AddsViews m w P)
    (hf : ∀ after a, Gains w after → P after a → AddsViews (f a) after Q) :
    AddsViews (m >>= f) w Q := by
  obtain ⟨a, after, hrun, hafter, hP⟩ := hm
  obtain ⟨b, last, hrest, hlast, hQ⟩ := hf after a hafter hP
  exact ⟨b, last, (bind_of_ok hrun).trans hrest, hafter.trans hlast, hQ⟩

/-- What a computation that only looks at the workspace has found is at hand for the next one. -/
theorem addsViews_bind_of_ok {a : α} (hm : m w = (.ok a, w)) (hf : AddsViews (f a) w Q) :
    AddsViews (m >>= f) w Q := by
  unfold AddsViews
  rw [bind_of_ok hm]
  exact hf

/-- What follows a computation that succeeds has succeeded as well. -/
theorem exists_of_bind {b : β} (h : (m >>= f) w = (.ok b, last)) :
    ∃ a after, m w = (.ok a, after) ∧ f a after = (.ok b, last) := by
  cases hm : m w with
  | mk r after =>
    cases r with
    | ok a => exact ⟨a, after, rfl, (bind_of_ok hm).symm.trans h⟩
    | error fault =>
      rw [bind_of_error hm] at h
      cases h

/-! ### Views -/

/-- An object is a view that has not been released, of bytes that are in a buffer from an offset on;
there are as many of them as the layout has. -/
structure IsView (w : Workspace) (o : Object) (l : Layout) (buffer offset : Nat) (data : Bytes) :
    Prop where
  cell : ∃ id count, o = .view id ∧
    w.store.views[id]? = some ⟨l, ⟨buffer, offset, count⟩, false⟩ ∧
    w.store.read ⟨buffer, offset, count⟩ = data
  length : (data.length : Int) = l.size

variable {o : Object} {l : Layout} {buffer offset : Nat} {data : Bytes}

/-- A view is not changed by others. -/
theorem IsView.mono (h : IsView w o l buffer offset data) (hafter : Gains w after) :
    IsView after o l buffer offset data := by
  obtain ⟨id, count, ho, hcell, hread⟩ := h.cell
  obtain ⟨views, rfl⟩ := hafter
  exact ⟨⟨id, count, ho, Store.getElem?_of_prefix (List.prefix_append _ _) hcell, hread⟩, h.length⟩

/-- A view is unpacked to what its bytes are decoded to. -/
theorem IsView.returns_unpack (h : IsView w o l buffer offset data) {v : Value}
    (hv : l.decode data = .ok v) : Returns (unpack o) w v := by
  obtain ⟨id, count, rfl, hcell, hread⟩ := h.cell
  unfold Returns
  rw [unpack_view hcell rfl, hread]
  exact unpackBytes_of_ok hv

/-- An object is a view of a slot. -/
def IsPart (buffer offset : Nat) (data : Bytes) (slot : Slot) (w : Workspace) (o : Object) : Prop :=
  IsView w o slot.layout buffer (offset + slot.start.toNat) (slot.range data)

/-- A new view of a slot has the bytes of the slot. -/
theorem child_addsViews {count : Nat} (hread : w.store.read ⟨buffer, offset, count⟩ = data)
    (hlen : (data.length : Int) = l.size) {slot : Slot} (hslot : slot.Inside l) :
    AddsViews (child ⟨l, ⟨buffer, offset, count⟩, false⟩ slot) w
      (IsPart buffer offset data slot) := by
  have hsize := slot.layout.size_nonneg hslot.regular.lengths
  have hstop := hslot.stop
  have hwidth := hslot.size
  obtain ⟨hwindow, hslice⟩ :=
    Store.read_slice hread hslot.start (by omega : slot.start ≤ slot.stop) (by omega)
  rw [hwindow] at hslice
  refine ⟨_, _, rfl, ⟨_, rfl⟩, ⟨_, _, rfl, ?_, hslice⟩, hslot.length_range hlen⟩
  rw [List.getElem?_concat_length, hwindow]

/-! ### Steps and paths -/

/-- A step from a view: to the field of an accessor, or to the entry of an index. -/
def step (o : Object) : PathStep → Session Object
  | .field accessor => field o accessor
  | .entry i => index o (.int i)

/-- The steps of a path from a view. -/
def walk (o : Object) : List PathStep → Session Object
  | [] => return o
  | s :: rest => do walk (← step o s) rest

/-- An entry that there is is reached by its index. -/
theorem entryAt_of_ok {i : Int} {slot : Slot} (h : l.entry i = .ok slot) :
    l.entryAt (.int i) = .ok slot := by
  have hposition : Value.position? (.int i) = some (.whole i (Value.int i).plain) := rfl
  unfold Layout.entryAt
  simp only [hposition, h]
  rfl

/-- A step that a layout allows leads to a view of the slot. -/
theorem step_addsViews (h : IsView w o l buffer offset data) {s : PathStep} {slot : Slot}
    (hslot : l.slotAt s = some slot) (hinside : slot.Inside l) :
    AddsViews (step o s) w (IsPart buffer offset data slot) := by
  obtain ⟨id, count, rfl, hcell, hread⟩ := h.cell
  cases s with
  | field a =>
    have hfind : l.accessor? a = some slot := hslot
    refine addsViews_bind_of_ok (viewCell_eq hcell) ?_
    simp only [hfind]
    exact child_addsViews hread h.length hinside
  | entry i =>
    have hentry : l.entry i = .ok slot := Layout.entry_of_slotAt hslot
    refine addsViews_bind_of_ok (viewCell_eq hcell) ?_
    rw [entryAt_of_ok hentry]
    exact addsViews_bind_of_ok rfl (child_addsViews hread h.length hinside)

/-- A path that a layout allows leads to a view of the bytes at the sum of the offsets. -/
theorem walk_addsViews (h : IsView w o l buffer offset data) (hl : l.Regular)
    {path : List PathStep} (hpath : l.Admits path) {start : Int} {sub : Layout}
    (hfollow : l.follow path = some (start, sub)) :
    AddsViews (walk o path) w fun after part =>
      IsView after part sub buffer (offset + start.toNat)
        (Bytes.slice data start (start + sub.size)) := by
  induction path generalizing w o l offset data start with
  | nil =>
    cases hfollow
    rw [Int.zero_add, ← h.length, Bytes.slice_all]
    exact addsViews_pure h
  | cons s rest ih =>
    obtain ⟨slot, hslot, hinside⟩ := Layout.exists_slot hl hpath.1
    obtain ⟨start, hrest, rfl, h0, hsize, h1⟩ := Layout.follow_cons hpath hfollow hslot hinside
    have hstart := hinside.start
    have hsum : offset + (slot.start + start).toNat =
        offset + slot.start.toNat + start.toNat := by omega
    rw [hsum, Int.add_assoc, ← hinside.slice_range h.length h0 (by omega) h1]
    exact (step_addsViews h hslot hinside).bind fun after part _ hpart =>
      ih hpart hinside.regular (hpath.2 slot hslot) hrest

/-! ### Entries -/

/-- An object is a view of the entry of a number, and its bytes pass the check and are decoded to
the entry of the value. -/
def IsEntry (l : Layout) (buffer offset : Nat) (data : Bytes) (v : Value) (w : Workspace) (k : Nat)
    (o : Object) : Prop :=
  ∃ slot part, l.entry k = .ok slot ∧ v.entryAt? k = some part ∧ slot.Holds data part ∧
    IsPart buffer offset data slot w o

/-- A view has a number of entries: its length, going through it in either direction and its indices
agree. -/
structure HasEntries (w : Workspace) (o : Object) (l : Layout) (buffer offset : Nat) (data : Bytes)
    (v : Value) (n : Nat) : Prop where
  length : length o w = (.ok n, w)
  entries : AddsViews (entries o) w fun after =>
    List.Forall₂ (IsEntry l buffer offset data v after) (List.range n)
  reversed : AddsViews (reversedEntries o) w fun after =>
    List.Forall₂ (IsEntry l buffer offset data v after) (List.range n).reverse
  inside : ∀ i : Int, -n ≤ i → i < n → AddsViews (index o (.int i)) w fun after =>
    IsEntry l buffer offset data v after (entryIndex n i)
  outside : ∀ i : Int, ¬ (-n ≤ i ∧ i < n) → ∃ fault : Fault,
    index o (.int i) w = (.error fault, w) ∧ fault.IsIndexFault

/-- An index beyond the ends is a fault. -/
theorem entryAt_of_outside {n i : Int} (hn : l.entryCount? = some n) (h : ¬ (-n ≤ i ∧ i < n)) :
    ∃ fault : Fault, l.entryAt (.int i) = .error fault ∧ fault.IsIndexFault := by
  have hposition : Value.position? (.int i) = some (.whole i (Value.int i).plain) := rfl
  unfold Layout.entryAt
  simp only [hposition]
  rcases Layout.entry_of_outside hn h with hentry | ⟨typeName, index, hentry⟩
  · rw [hentry]
    exact ⟨_, rfl, trivial⟩
  · rw [hentry]
    exact ⟨_, rfl, trivial⟩

section Entries

variable {v : Value} {n : Int}

/-- The length of a view is the number of its entries. -/
theorem length_eq (h : IsView w o l buffer offset data) (hn : l.entryCount? = some n) (h0 : 0 ≤ n) :
    length o w = (.ok n.toNat, w) := by
  obtain ⟨id, count, rfl, hcell, hread⟩ := h.cell
  have hvalue : w.store.valueOf (.view id) = .view l (some data) := by
    show w.store.viewValue id = _
    unfold Store.viewValue
    rw [hcell, ← hread]
    rfl
  have hextent : Value.extent (.view l (some data)) = .count n.toNat := by
    show l.extent = _
    unfold Layout.extent
    simp only [hn]
    rw [if_neg (by omega)]
  unfold length
  rw [bind_of_ok (value_eq _ w), hvalue, hextent]
  rfl

/-- Only the entries that there are can be reached by an index. -/
theorem index_of_outside (h : IsView w o l buffer offset data) (hn : l.entryCount? = some n)
    {i : Int} (hi : ¬ (-n ≤ i ∧ i < n)) :
    ∃ fault : Fault, index o (.int i) w = (.error fault, w) ∧ fault.IsIndexFault := by
  obtain ⟨id, count, rfl, hcell, -⟩ := h.cell
  obtain ⟨fault, hentry, hfault⟩ := entryAt_of_outside hn hi
  refine ⟨fault, ?_, hfault⟩
  show (viewCell id >>= _) w = _
  rw [bind_of_ok (viewCell_eq hcell)]
  refine bind_of_error ?_
  rw [hentry]
  rfl

theorem entryNumbers_eq (hn : l.entryCount? = some n) (w : Workspace) :
    entryNumbers l w = (.ok (List.range n.toNat), w) := by
  unfold entryNumbers
  rw [hn]
  rfl

variable (hl : l.Regular) (hcheck : l.check data = .ok ()) (hv : l.decode data = .ok v)
  (hn : l.entryCount? = some n)

include hl hcheck hv hn

/-- The views of entries are made one after another. -/
theorem children_addsViews {count : Nat} {ks : List Nat} (hks : ∀ k ∈ ks, (k : Int) < n)
    (hread : w.store.read ⟨buffer, offset, count⟩ = data) (hlen : (data.length : Int) = l.size) :
    AddsViews (children ⟨l, ⟨buffer, offset, count⟩, false⟩ ks) w fun after =>
      List.Forall₂ (IsEntry l buffer offset data v after) ks := by
  unfold children
  induction ks generalizing w with
  | nil => exact addsViews_pure .nil
  | cons k rest ih =>
    obtain ⟨hk, hrest⟩ := List.forall_mem_cons.1 hks
    obtain ⟨slot, part, hentry, hpart, hinside, hholds⟩ := Layout.exists_entry hl hcheck hv hn hk
    rw [List.mapM_cons, hentry]
    refine AddsViews.bind (addsViews_bind_of_ok rfl (child_addsViews hread hlen hinside)) ?_
    intro after o hafter ho
    -- the new view does not touch the bytes, so the others are made from the same ones
    have hread' : after.store.read ⟨buffer, offset, count⟩ = data := by
      obtain ⟨views, rfl⟩ := hafter
      exact hread
    refine AddsViews.bind (ih hrest hread') fun last os hlast hos => addsViews_pure ?_
    exact .cons ⟨slot, part, hentry, hpart, hholds, ho.mono hlast⟩ hos

/-- An index that counts from either end reaches the entry. -/
theorem index_addsViews (h : IsView w o l buffer offset data) {i : Int} (h0 : -n ≤ i) (h1 : i < n) :
    AddsViews (index o (.int i)) w fun after =>
      IsEntry l buffer offset data v after (entryIndex n i) := by
  obtain ⟨slot, part, hentry, hpart, hinside, hholds⟩ :=
    Layout.exists_entry hl hcheck hv hn (entryIndex_lt h0 h1)
  have hslot := Layout.slotAt_of_entry ((Layout.entry_eq hn h0).trans hentry)
  obtain ⟨o, after, hrun, hafter, ho⟩ := step_addsViews h hslot hinside
  exact ⟨o, after, hrun, hafter, slot, part, hentry, hpart, hholds, ho⟩

/-- The length of a view is the number of its entries, which are gone through in either direction;
indices reach them from either end, and nothing else. -/
theorem hasEntries (h : IsView w o l buffer offset data) :
    HasEntries w o l buffer offset data v n.toNat := by
  have h0 := Layout.entryCount?_nonneg hl.lengths hn
  have hcast : (n.toNat : Int) = n := Int.toNat_of_nonneg h0
  have hrange : ∀ k ∈ List.range n.toNat, (k : Int) < n := fun k hk => by
    have hk := List.mem_range.1 hk
    omega
  have hview := h
  obtain ⟨id, count, rfl, hcell, hread⟩ := h.cell
  constructor
  case length => exact length_eq hview hn h0
  case entries =>
    refine addsViews_bind_of_ok (viewCell_eq hcell) (addsViews_bind_of_ok (entryNumbers_eq hn w) ?_)
    exact children_addsViews hl hcheck hv hn hrange hread h.length
  case reversed =>
    refine addsViews_bind_of_ok (viewCell_eq hcell) (addsViews_bind_of_ok (entryNumbers_eq hn w) ?_)
    refine children_addsViews hl hcheck hv hn (fun k hk => ?_) hread h.length
    exact hrange k (List.mem_reverse.1 hk)
  case inside =>
    intro i hlo hhi
    rw [hcast] at hlo hhi ⊢
    exact index_addsViews hl hcheck hv hn hview hlo hhi
  case outside =>
    intro i hi
    rw [hcast] at hi
    exact index_of_outside hview hn hi

end Entries

/-! ### Checked views -/

section Checked

variable {t : TypeExpr} {root : Object} (hlayout : (w.catalog.compile t w.cache).1 = .ok l)
  (ho : o.lends? w.store = some data)

include hlayout ho

/-- Bytes that are lent are accepted if the layout accepts them. -/
theorem accepted_of_lends : ∃ window after, after.store.read window = data ∧
    accepted t o w =
      (((l.accept data).mapError CheckFault.toFault).map fun _ => (l, window), after) := by
  obtain ⟨window, between, hread, hrun⟩ := exists_lent hlayout ho
  refine ⟨window, between, hread, (hrun _).trans ?_⟩
  rw [bind_of_ok (read_eq hread)]
  cases l.accept data with
  | ok u => rfl
  | error fault => rfl

/-- A view is made of bytes that the layout accepts. -/
theorem exists_view (haccept : l.accept data = .ok ()) : ∃ root after,
    view t o w = (.ok root, after) ∧ ∃ buffer offset, IsView after root l buffer offset data := by
  obtain ⟨window, between, hread, haccepted⟩ := accepted_of_lends hlayout ho
  rw [haccept] at haccepted
  refine ⟨_, _, bind_of_ok haccepted, window.buffer, window.start,
    ⟨_, window.count, rfl, ?_, hread⟩, (Layout.accept_eq_ok haccept).1⟩
  exact Store.views_newView between.store l window (.refl _)

/-- A view that is made with a check has bytes that pass the check. -/
theorem isView_of_view (hview : view t o w = (.ok root, after)) :
    l.check data = .ok () ∧ ∃ buffer offset, IsView after root l buffer offset data := by
  have haccept : l.accept data = .ok () := by
    obtain ⟨window, between, -, haccepted⟩ := accepted_of_lends hlayout ho
    cases haccept : l.accept data with
    | ok u => rfl
    | error fault =>
      rw [haccept] at haccepted
      obtain ⟨found, _, hfound, -⟩ := exists_of_bind hview
      rw [haccepted] at hfound
      cases hfound
  obtain ⟨root', after', hview', hroot⟩ := exists_view hlayout ho haccept
  cases hview.symm.trans hview'
  exact ⟨(Layout.accept_eq_ok haccept).2, hroot⟩

end Checked

/-- A view that is made with a check is unpacked without fail, now and as long as it has not been
released and the bytes are what they were. A path from it leads to a view of the slice of the bytes
at the sum of the offsets of the slots; there are as many of them as the layout of the part has,
they pass its check, and they are unpacked to the component of the value that the same path leads
to. Where a path ends at a view with entries, all ways to reach these agree. -/
theorem walk_reaches_component {t : TypeExpr} {root : Object} (hcache : Cache.Reached w.cache)
    (hlayout : (w.catalog.compile t w.cache).1 = .ok l) (hl : l.LengthsNonneg)
    (ho : o.lends? w.store = some data) (hview : view t o w = (.ok root, after)) :
    ∃ buffer offset whole, IsView after root l buffer offset data ∧ l.decode data = .ok whole ∧
      ∀ now, IsView now root l buffer offset data → Returns (unpack root) now whole ∧
        ∀ path, l.Admits path → ∃ start sub part reached final,
          l.follow path = some (start, sub) ∧ l.component whole path = some part ∧
          walk root path now = (.ok reached, final) ∧
          0 ≤ start ∧ start + sub.size ≤ data.length ∧
          IsView final reached sub buffer (offset + start.toNat)
            (Bytes.slice data start (start + sub.size)) ∧
          sub.check (Bytes.slice data start (start + sub.size)) = .ok () ∧
          Returns (unpack reached) final part ∧
          ∀ n, sub.entryCount? = some n → 0 ≤ n ∧
            HasEntries final reached sub buffer (offset + start.toNat)
              (Bytes.slice data start (start + sub.size)) part n.toNat := by
  have hregular : l.Regular :=
    ⟨hl, Catalog.closed_of_compile closed_namesNodup hcache hlayout,
      Catalog.closed_of_compile closed_fitting hcache hlayout⟩
  obtain ⟨hcheck, buffer, offset, hroot⟩ := isView_of_view hlayout ho hview
  obtain ⟨whole, hwhole, -⟩ := l.exists_decode hl hregular.names data hroot.length hcheck
  refine ⟨buffer, offset, whole, hroot, hwhole, fun now hnow =>
    ⟨hnow.returns_unpack hwhole, fun path hpath => ?_⟩⟩
  obtain ⟨start, sub, hfollow, h0, h1, hsub⟩ := Layout.exists_follow hregular hpath
  obtain ⟨part, hpart, hchecked, hdecoded⟩ :=
    Layout.follow_spec hregular hroot.length hcheck hwhole hpath hfollow
  obtain ⟨reached, final, hwalk, -, hreached⟩ := walk_addsViews hnow hregular hpath hfollow
  rw [← hroot.length] at h1
  exact ⟨start, sub, part, reached, final, hfollow, hpart, hwalk, h0, h1, hreached, hchecked,
    hreached.returns_unpack hdecoded, fun n hn => ⟨Layout.entryCount?_nonneg hsub.lengths hn,
      hasEntries hsub hchecked hdecoded hn hreached⟩⟩

/-- The number of the last pair of a message. -/
theorem walk_reaches_last_pair : ∃ root after reached final,
    view (.named "Message") (.plain (.bytes [255, 1, 0xC3, 0xA9, 2, 0xC3, 0xA9, 0, 128, 7]))
      messageWorkspace = (.ok root, after) ∧
    walk root [.field "body", .entry (-1), .field "left"] after = (.ok reached, final) ∧
    Returns (unpack reached) final (.int 2) := by
  have hbody : messageLayout.slotAt (.field "body") =
      some ⟨"body", 1, 1, 7, .array pairLayout 2, some "body"⟩ := by cbv
  have hpair : (Layout.array pairLayout 2).slotAt (.entry (-1)) =
      some ⟨"1", 1, 3, 6, pairLayout, none⟩ := by cbv
  have hpath : messageLayout.Admits [.field "body", .entry (-1), .field "left"] := by
    have hoffers : "body" ∈ messageLayout.accessors := by decide
    refine ⟨hoffers, fun slot hslot => ?_⟩
    cases hbody.symm.trans hslot
    refine ⟨⟨2, rfl, by decide, by decide⟩, fun slot hslot => ?_⟩
    cases hpair.symm.trans hslot
    have hoffers : "left" ∈ pairLayout.accessors := by decide
    exact ⟨hoffers, fun _ _ => trivial⟩
  have hlen : (([255, 1, 0xC3, 0xA9, 2, 0xC3, 0xA9, 0, 128, 7] : Bytes).length : Int) =
      messageLayout.size := by decide
  have hcheck : messageLayout.check [255, 1, 0xC3, 0xA9, 2, 0xC3, 0xA9, 0, 128, 7] = .ok () :=
    (Layout.check_eq_ok_iff lengthsNonneg_message hlen).2 (by decide)
  obtain ⟨root, after, hview, -⟩ := exists_view (w := messageWorkspace) (t := .named "Message")
    (o := .plain (.bytes [255, 1, 0xC3, 0xA9, 2, 0xC3, 0xA9, 0, 128, 7])) layoutOf_message rfl
    ((if_pos hlen).trans hcheck)
  obtain ⟨buffer, offset, whole, hroot, -, hnow⟩ := walk_reaches_component
    (w := messageWorkspace) .empty layoutOf_message lengthsNonneg_message rfl hview
  obtain ⟨start, sub, part, reached, final, hfollow, -, hwalk, -, -, hreached, -⟩ :=
    (hnow _ hroot).2 _ hpath
  refine ⟨root, after, reached, final, hview, hwalk, ?_⟩
  have hend : messageLayout.follow [.field "body", .entry (-1), .field "left"] =
      some (4, .int .u8) := by cbv
  cases hend.symm.trans hfollow
  exact hreached.returns_unpack rfl

end Session

end FixedLayout
