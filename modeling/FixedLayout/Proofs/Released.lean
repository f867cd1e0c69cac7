import FixedLayout.Proofs.Lending

/-!
# Released views

Nothing that needs the bytes of a view is possible any more once it has been released, in whatever
way. A released view still knows its layout, though. It has a length, and a view without entries can
be gone through: neither gets as far as asking for bytes.

* `Operation`: what is done with a view. `Operation.SkipsBytes`: it never asks for bytes;
* `Store.LikeBytes`: an object is compared with views by its bytes;
* `Attempt.reads_of_ok`: what has worked with a view reads bytes, or skips them;
* `Operation.fails_of_ok`, `Operation.perform_of_skipsBytes`: one and the same operation, before and
  after the end of a view;
* `Session.during_eq`: a block that ends with a view;
* `Course.ended_of_release`: views along all runs in which they are released.
-/

namespace FixedLayout

/-! ### Operations -/

/-- What is done with a view: something is read through it, or its entries are counted. -/
inductive Operation
  | read (attempt : Attempt)
  | length

/-- The object that a view is compared with. -/
def Attempt.other? : Attempt → Option Object
  | .compare _ other | .compareTo _ other => some other
  | _ => none

/-- An object is a view or packet, or bytes-like, and so it is compared with views by its bytes. -/
def Store.LikeBytes (s : Store) (o : Object) : Prop :=
  (s.valueOf o).isHandle = true ∨ ∃ content, (s.valueOf o).flatBytes? = some content

namespace Operation

/-- Does something with a view. What comes of it is left out. -/
def perform (id : Nat) : Operation → Session Unit
  | .read attempt => attempt.perform id
  | .length => discard (Session.length (.view id))

/-- An operation never asks for the bytes of a view: entries are only counted, there are none to go
through, or the name after a dot is not left to fields. -/
def SkipsBytes (l : Layout) : Operation → Prop
  | .length => True
  | .read .entries | .read .reversed | .read .entryValues => ∃ n, l.entryCount? = some n ∧ n ≤ 0
  | .read (.dotted a) => a ∈ viewOperations
  | .read _ => False

/-- If a view is compared with something, then with another view, a packet, or bytes. -/
def ComparesBytes (s : Store) : Operation → Prop
  | .read attempt => ∀ other, attempt.other? = some other → s.LikeBytes other
  | .length => True

end Operation

/-- A comparison with a released view fails, by whatever bytes. If the other one is a view that has
been released as well, it may be this one that is asked first. -/
theorem Value.exists_handleBytes_released (l : Layout) {u : Value}
    (h : u.isHandle = true ∨ ∃ content, u.flatBytes? = some content) :
    (∃ t, (Value.view l none).handleBytes u = some (.error (.released t))) ∧
      ∃ t, u.handleBytes (.view l none) = some (.error (.released t)) := by
  have hraw : (∃ l', u = .view l' none) ∨ ∃ content, u.rawBytes? = some content := by
    cases u with
    | view l' content =>
      cases content with
      | none => exact .inl ⟨l', rfl⟩
      | some content => exact .inr ⟨content, rfl⟩
    | packet l' content => exact .inr ⟨content, rfl⟩
    | _ => exact .inr (h.resolve_left nofun)
  rcases hraw with ⟨l', rfl⟩ | hraw
  · exact ⟨⟨_, rfl⟩, ⟨_, rfl⟩⟩
  · obtain ⟨hleft, hright⟩ := Value.handleBytes_of_released (l := l) (.inr hraw)
    exact ⟨⟨_, hleft⟩, ⟨_, hright⟩⟩

namespace Session

variable {w now : Workspace} {id : Nat} {cell : ViewCell}

theorem exists_of_discard {α : Type} {m : Session α} (h : (discard m w).1 = .ok ()) :
    ∃ a after, m w = (.ok a, after) := by
  have hrun : discard m w = (.ok (), (discard m w).2) := Prod.ext h rfl
  obtain ⟨a, after, hm, -⟩ := exists_of_bind hrun
  exact ⟨a, after, hm⟩

/-! ### What a layout tells -/

/-- The length of a view depends on its layout only. -/
theorem length_of_layout {other : ViewCell} (hcell : w.store.views[id]? = some cell)
    (hnow : now.store.views[id]? = some other) (hlayout : other.layout = cell.layout) :
    length (.view id) now = ((length (.view id) w).1, now) := by
  have hvalue : ∀ {u : Workspace} {c : ViewCell}, u.store.views[id]? = some c →
      (u.store.valueOf (.view id)).extent = c.layout.extent := by
    intro u c hc
    show (u.store.viewValue id).extent = _
    unfold Store.viewValue
    rw [hc]
    rfl
  unfold length
  rw [bind_of_ok (value_eq _ w), bind_of_ok (value_eq _ now), hvalue hcell, hvalue hnow, hlayout]
  cases cell.layout.extent <;> rfl

/-- Nothing is asked of a view that has no entries to go through. -/
theorem entries_of_none (hcell : w.store.views[id]? = some cell)
    (hn : ∃ n, cell.layout.entryCount? = some n ∧ n ≤ 0) :
    entries (.view id) w = (.ok [], w) ∧ reversedEntries (.view id) w = (.ok [], w) := by
  obtain ⟨n, hn, hle⟩ := hn
  have hnumbers := entryNumbers_eq hn w
  rw [Int.toNat_of_nonpos hle] at hnumbers
  have hrun : ∀ order : List Nat → List Nat, order [] = [] → (do
      let cell ← viewCell id
      children cell (order (← entryNumbers cell.layout))) w = (.ok [], w) := by
    intro order horder
    rw [bind_of_ok (viewCell_eq hcell), bind_of_ok hnumbers]
    show children cell (order []) w = _
    rw [horder]
    rfl
  exact ⟨hrun (fun ks => ks) rfl, hrun List.reverse rfl⟩

theorem exists_slot_of_field (hcell : w.store.views[id]? = some cell) {a : String} {part : Object}
    {after : Workspace} (h : field (.view id) a w = (.ok part, after)) :
    ∃ slot, cell.layout.accessor? a = some slot := by
  have hview : asView (.view id) w = (.ok cell, w) := viewCell_eq hcell
  unfold field at h
  rw [bind_of_ok hview] at h
  cases hslot : cell.layout.accessor? a with
  | some slot => exact ⟨slot, rfl⟩
  | none =>
    simp only [hslot] at h
    cases h

theorem exists_slot_of_index (hcell : w.store.views[id]? = some cell) {i : Value} {part : Object}
    {after : Workspace} (h : index (.view id) i w = (.ok part, after)) :
    ∃ slot, cell.layout.entryAt i = .ok slot := by
  unfold index at h
  simp only at h
  rw [bind_of_ok (viewCell_eq hcell)] at h
  cases hslot : cell.layout.entryAt i with
  | ok slot => exact ⟨slot, rfl⟩
  | error fault =>
    rw [hslot] at h
    cases h

theorem exists_count_of_entries (hcell : w.store.views[id]? = some cell)
    (order : List Nat → List Nat) {parts : List Object} {after : Workspace} (h : (do
      let cell ← viewCell id
      children cell (order (← entryNumbers cell.layout))) w = (.ok parts, after)) :
    ∃ n, cell.layout.entryCount? = some n := by
  rw [bind_of_ok (viewCell_eq hcell)] at h
  cases hn : cell.layout.entryCount? with
  | some n => exact ⟨n, rfl⟩
  | none =>
    have hnumbers : entryNumbers cell.layout w = (.error (.noEntries cell.layout.typeName), w) := by
      unfold entryNumbers
      rw [hn]
      rfl
    rw [bind_of_error hnumbers] at h
    cases h

end Session

/-! ### Before and after the end of a view -/

section Ends

variable {w now : Workspace} {id : Nat} {cell : ViewCell}
  (hcell : w.store.views[id]? = some cell)

include hcell

/-- What has worked with a view reads bytes, unless it does not need any. Comparisons, which depend
on another object, are left out here. -/
theorem Attempt.reads_of_ok {attempt : Attempt} (hok : (attempt.perform id w).1 = .ok ())
    (hskips : ¬ (Operation.read attempt).SkipsBytes cell.layout) (hother : attempt.other? = none)
    (s : Store) : attempt.Reads s id cell.layout := by
  -- entries have been gone through in one order or the other, and there are some
  have hentries : ∀ (order : List Nat → List Nat) {parts : List Object} {after : Workspace}, (do
      let cell ← Session.viewCell id
      Session.children cell (order (← Session.entryNumbers cell.layout))) w = (.ok parts, after) →
        ¬ (∃ n, cell.layout.entryCount? = some n ∧ n ≤ 0) →
          ∃ n, cell.layout.entryCount? = some n ∧ 0 < n := by
    intro order parts after h hnone
    obtain ⟨n, hn⟩ := Session.exists_count_of_entries hcell order h
    exact ⟨n, hn, not_le.1 fun hle => hnone ⟨n, hn, hle⟩⟩
  cases attempt with
  | field a =>
    obtain ⟨part, after, h⟩ := Session.exists_of_discard hok
    obtain ⟨slot, hslot⟩ := Session.exists_slot_of_field hcell h
    obtain ⟨hmem, ha⟩ := Layout.accessor?_eq_some hslot
    exact List.mem_filterMap.2 ⟨slot, hmem, ha⟩
  | dotted a =>
    have hop : a ∉ viewOperations := hskips
    obtain ⟨selected, after, h⟩ := Session.exists_of_discard hok
    have hattribute : IsAttribute a := by
      refine ⟨hop, Bool.eq_false_iff.2 fun hidden => ?_⟩
      rw [Session.select_of_hidden hop hidden] at h
      cases h
    rw [Session.select_of_isAttribute hattribute] at h
    obtain ⟨part, between, h, -⟩ := Session.exists_of_bind h
    obtain ⟨slot, hslot⟩ := Session.exists_slot_of_field hcell h
    obtain ⟨hmem, ha⟩ := Layout.accessor?_eq_some hslot
    exact ⟨List.mem_filterMap.2 ⟨slot, hmem, ha⟩, hattribute⟩
  | index i =>
    obtain ⟨part, after, h⟩ := Session.exists_of_discard hok
    exact Session.exists_slot_of_index hcell h
  | entries =>
    obtain ⟨parts, after, h⟩ := Session.exists_of_discard hok
    exact hentries (fun ks => ks) h hskips
  | reversed =>
    obtain ⟨parts, after, h⟩ := Session.exists_of_discard hok
    exact hentries List.reverse h hskips
  | entryValues =>
    obtain ⟨values, last, h⟩ := Session.exists_of_discard hok
    obtain ⟨parts, after, h, -⟩ := Session.exists_of_bind h
    exact hentries (fun ks => ks) h hskips
  | compare c other => cases hother
  | compareTo c other => cases hother
  | _ => trivial

/-- What has worked with a view and needs its bytes does not work with the released view. Nothing is
changed by the attempt. -/
theorem Operation.fails_of_ok (hnow : now.store.views[id]? = some { cell with released := true })
    {op : Operation} (hok : (op.perform id w).1 = .ok ()) (hskips : ¬ op.SkipsBytes cell.layout)
    (hbytes : op.ComparesBytes now.store) :
    ∃ t, op.perform id now = (.error (.released t), now) := by
  have hvalue : Session.value (.view id) now = (.ok (.view cell.layout none), now) := by
    rw [Session.value_eq, Session.valueOf_released hnow rfl]
  cases op with
  | length => exact absurd trivial hskips
  | read attempt =>
    cases hother : attempt.other? with
    | none => exact ⟨_, Attempt.fails hnow rfl (Attempt.reads_of_ok hcell hok hskips hother _)⟩
    | some other =>
      obtain ⟨⟨t, hleft⟩, ⟨t', hright⟩⟩ :=
        Value.exists_handleBytes_released cell.layout (hbytes other hother)
      cases attempt with
      | compare c _ =>
        cases hother
        refine ⟨t, (Session.bind_of_ok hvalue).trans ?_⟩
        refine (Session.bind_of_ok (Session.value_eq _ now)).trans ?_
        rw [Value.holds_of_handleBytes hleft]
        rfl
      | compareTo c _ =>
        cases hother
        refine ⟨t', (Session.bind_of_ok hvalue).trans ?_⟩
        refine (Session.bind_of_ok (Session.value_eq _ now)).trans ?_
        rw [Value.holds_of_handleBytes hright]
        rfl
      | _ => cases hother

/-- What needs no bytes has the same outcome as before. -/
theorem Operation.perform_of_skipsBytes {other : ViewCell}
    (hnow : now.store.views[id]? = some other) (hlayout : other.layout = cell.layout)
    {op : Operation} (hskips : op.SkipsBytes cell.layout) :
    op.perform id now = ((op.perform id w).1, now) := by
  have hskips' : op.SkipsBytes other.layout := by rwa [hlayout]
  -- both outcomes are known, and neither depends on whether the view is in use
  have hsame : ∀ {α : Type} {m : Session α} {r : Except Fault α}, m w = (r, w) → m now = (r, now) →
      discard m now = ((discard m w).1, now) := by
    intro α m r hw hn
    rw [Session.discard_eq hw, Session.discard_eq hn]
  cases op with
  | length =>
    exact hsame (Session.length_of_layout hcell hcell rfl)
      (Session.length_of_layout hcell hnow hlayout)
  | read attempt =>
    cases attempt with
    | dotted a =>
      exact hsame (Session.select_of_operation hskips id w)
        (Session.select_of_operation hskips id now)
    | entries =>
      exact hsame (Session.entries_of_none hcell hskips).1 (Session.entries_of_none hnow hskips').1
    | reversed =>
      exact hsame (Session.entries_of_none hcell hskips).2 (Session.entries_of_none hnow hskips').2
    | entryValues =>
      exact hsame (Session.bind_of_ok (Session.entries_of_none hcell hskips).1)
        (Session.bind_of_ok (Session.entries_of_none hnow hskips').1)
    | _ => exact hskips.elim

end Ends

/-! ### Ways to end a view -/

/-- A block that ends with a view is left with the outcome of its body, whether this has failed or
not, and the view has been released. -/
theorem Session.during_eq {α : Type} {w : Workspace} {id : Nat} (body : Session α)
    (h : ∃ cell, (body w).2.store.views[id]? = some cell) :
    during (.view id) body w =
      ((body w).1, { (body w).2 with store := (body w).2.store.release id }) := by
  obtain ⟨cell, hcell⟩ := h
  have hbody : outcome body w = (.ok (body w).1, (body w).2) := rfl
  have hrelease := (endsOnly hcell).run
  unfold during
  simp only
  rw [bind_of_ok hbody, bind_of_ok hrelease]
  cases (body w).1 <;> rfl

/-! ### Runs -/

/-- Instances are not compared with views by bytes. -/
theorem Store.not_likeBytes_record (s : Store) (id : Nat) : ¬ s.LikeBytes (.record id) := by
  have hvalue : ∀ depth, (s.recordValue depth id).isHandle = false ∧
      (s.recordValue depth id).flatBytes? = none := by
    intro depth
    cases depth with
    | zero => exact ⟨rfl, rfl⟩
    | succ depth =>
      unfold recordValue
      split
      · exact ⟨rfl, rfl⟩
      · exact ⟨rfl, rfl⟩
  obtain ⟨hhandle, hflat⟩ := hvalue s.records.length
  rintro (h | ⟨content, h⟩)
  · exact absurd (hhandle.symm.trans h) Bool.false_ne_true
  · cases hflat.symm.trans h

namespace Course

variable {start s last : Course} {before es : List Event}

/-- What is compared with views by its bytes stays so in all runs. -/
theorem Kept.likeBytes (h : Kept s es last) {o : Object} (ho : s.workspace.store.LikeBytes o) :
    last.workspace.store.LikeBytes o := by
  cases o with
  | plain v => exact ho
  | buffer id => exact .inr ⟨_, rfl⟩
  | memory window format rows => exact .inr ⟨_, rfl⟩
  | record id => exact absurd ho (Store.not_likeBytes_record _ id)
  | view id =>
    cases hcell : s.workspace.store.views[id]? with
    | none =>
      have hvalue : s.workspace.store.valueOf (.view id) = .null := by
        show s.workspace.store.viewValue id = _
        unfold Store.viewValue
        rw [hcell]
      unfold Store.LikeBytes at ho
      rw [hvalue] at ho
      rcases ho with ho | ⟨content, ho⟩ <;> cases ho
    | some cell =>
      obtain ⟨released, hlast, -⟩ := h.views id cell hcell
      left
      show (last.workspace.store.viewValue id).isHandle = true
      unfold Store.viewValue
      rw [hlast]
      rfl
  | _ => rcases ho with ho | ⟨content, ho⟩ <;> cases ho

/-- What is left of a view that was in use and has been released since. -/
structure Ended (s last : Course) (id : Nat) (cell : ViewCell) : Prop where
  /-- To release it again changes nothing. -/
  again : Session.release (.view id) last.workspace = (.ok (), last.workspace)
  /-- What needs its bytes is forbidden, although it has worked before. -/
  forbidden : ∀ op : Operation, (op.perform id s.workspace).1 = .ok () →
    op.ComparesBytes s.workspace.store → ¬ op.SkipsBytes cell.layout →
      ∃ t, op.perform id last.workspace = (.error (.released t), last.workspace)
  /-- What needs none has the same outcome as before. -/
  allowed : ∀ op : Operation, op.SkipsBytes cell.layout →
    op.perform id last.workspace = ((op.perform id s.workspace).1, last.workspace)
  length : Session.length (.view id) last.workspace =
    ((Session.length (.view id) s.workspace).1, last.workspace)
  empty : (∃ n, cell.layout.entryCount? = some n ∧ n ≤ 0) →
    Session.entries (.view id) last.workspace = (.ok [], last.workspace) ∧
      Session.reversedEntries (.view id) last.workspace = (.ok [], last.workspace)

/-- What is left of a view after a run in which it has been released. -/
theorem Kept.ended (h : Kept s es last) {id : Nat} {cell : ViewCell}
    (hcell : s.workspace.store.views[id]? = some cell) (hes : .act (.release id) ∈ es) :
    Ended s last id cell := by
  obtain ⟨released, hlast, hreleased⟩ := h.views id cell hcell
  obtain rfl := hreleased.2 (.inr hes)
  have hends := Session.endsOnly hlast
  refine ⟨?_, fun op hok hbytes hskips => ?_, fun op hskips => ?_, ?_, fun hn => ?_⟩
  · rw [hends.run, hends.again rfl]
  · refine Operation.fails_of_ok hcell hlast hok hskips ?_
    cases op with
    | length => trivial
    | read attempt => exact fun other hother => h.likeBytes (hbytes other hother)
  · exact Operation.perform_of_skipsBytes hcell hlast rfl hskips
  · exact Session.length_of_layout hcell hlast rfl
  · exact Session.entries_of_none hlast hn

/-- A run with one more event. -/
theorem Run.concat {allowed : Course → Event → Prop} {e : Event} (h : Run allowed s es last)
    (he : allowed last e) : Run allowed s (es ++ [e]) (last.after e) := by
  induction h with
  | nil s => exact .cons he (.nil _)
  | cons hfirst _ ih => exact .cons hfirst (ih he)

/-- Views that are released, along all runs from a workspace in which no view has been made. A block
that ends with a view releases it as the operation does, whatever its body has done until then. From
then on everything that has worked with the view and needs its bytes is forbidden. Only what needs
none is not: the length is what it was, and there are still no entries where there were none. -/
theorem ended_of_release (hstart : start.workspace.store.views = [])
    (hbefore : Run Event.Possible start before s) (h : Run Event.Possible s es last) {id : Nat}
    {cell : ViewCell} (hcell : s.workspace.store.views[id]? = some cell) :
    (.act (.release id) ∈ es → Ended s last id cell) ∧
    ∀ {α : Type} (body : Session α), (body s.workspace).2 = last.workspace →
      Session.during (.view id) body s.workspace =
          ((body s.workspace).1, (last.after (.act (.release id))).workspace) ∧
        Ended s (last.after (.act (.release id))) id cell := by
  have hs := placed_of_run hstart hbefore
  have hkept := (kept_of_run hs h).2
  refine ⟨hkept.ended hcell, fun body hbody => ⟨?_, ?_⟩⟩
  · obtain ⟨released, hlast, -⟩ := hkept.views id cell hcell
    rw [Session.during_eq body ⟨_, by rw [hbody]; exact hlast⟩, hbody]
    exact congrArg (Prod.mk _) (last.store_of_release id).symm
  · have hconcat : Run Event.Possible s (es ++ [.act (.release id)]) _ := h.concat trivial
    exact (kept_of_run hs hconcat).2.ended hcell (by simp)

/-- A buffer of two bytes. -/
def pairStart : Course := ⟨⟨[], [], ⟨[[1, 2]], [], []⟩, []⟩, [], []⟩

/-- Views of two bytes and of no bytes have been made. -/
def pairViewed : Course :=
  (pairStart.after (.act (.view (.fixedList (.fixedInt .u8) 2) (.buffer 0)))).after
    (.act (.view (.fixedList (.fixedInt .u8) 0) (.plain (.bytes []))))

/-- Both views have been released. -/
def pairReleased : Course :=
  (pairViewed.after (.act (.release 0))).after (.act (.release 1))

theorem views_pairViewed : pairViewed.workspace.store.views =
    [⟨.array (.int .u8) 2, ⟨0, 0, 2⟩, false⟩, ⟨.array (.int .u8) 0, ⟨1, 0, 0⟩, false⟩] := by cbv

/-- The last entry of the first view can be reached, and cannot any more after the view has been
released. -/
theorem last_entry_is_forbidden :
    ((Operation.read (.index (.int (-1)))).perform 0 pairViewed.workspace).1 = .ok () ∧
    ∃ t, (Operation.read (.index (.int (-1)))).perform 0 pairReleased.workspace =
      (.error (.released t), pairReleased.workspace) := by
  have hbefore : Run Event.Possible pairStart
      [.act (.view (.fixedList (.fixedInt .u8) 2) (.buffer 0)),
        .act (.view (.fixedList (.fixedInt .u8) 0) (.plain (.bytes [])))] pairViewed :=
    .cons Nat.zero_lt_one (.cons trivial (.nil _))
  have hrun : Run Event.Possible pairViewed [.act (.release 0), .act (.release 1)] pairReleased :=
    .cons trivial (.cons trivial (.nil _))
  have hcell : pairViewed.workspace.store.views[0]? =
      some ⟨.array (.int .u8) 2, ⟨0, 0, 2⟩, false⟩ := by rw [views_pairViewed]; rfl
  have hok : ((Operation.read (.index (.int (-1)))).perform 0 pairViewed.workspace).1 = .ok () := by
    cbv
  have hended := (ended_of_release rfl hbefore hrun hcell).1 (by simp)
  exact ⟨hok, hended.forbidden _ hok (fun _ hother => by cases hother) id⟩

/-- After both views have been released, the first one still has two entries, and the second one is
gone through without a complaint. -/
theorem released_views_are_counted :
    Session.length (.view 0) pairViewed.workspace = (.ok 2, pairViewed.workspace) ∧
    Session.entries (.view 1) pairViewed.workspace = (.ok [], pairViewed.workspace) ∧
    (∀ cell ∈ pairReleased.workspace.store.views, cell.released = true) ∧
    Session.length (.view 0) pairReleased.workspace = (.ok 2, pairReleased.workspace) ∧
    Session.entries (.view 1) pairReleased.workspace = (.ok [], pairReleased.workspace) := by
  have hreleased : pairReleased.workspace.store.views =
      [⟨.array (.int .u8) 2, ⟨0, 0, 2⟩, true⟩, ⟨.array (.int .u8) 0, ⟨1, 0, 0⟩, true⟩] := by cbv
  refine ⟨by cbv, by cbv, ?_, by cbv, by cbv⟩
  rw [hreleased]
  simp

end Course

end FixedLayout
