import FixedLayout.Proofs.Emission

/-!
# Where encoding stops

The error of a rejected value names the node that rejected it, by the fields and elements around
this node. Encoding stops there: the leaves before the node have been written, and nothing after
them.

* `Place`, `Layout.locate`: the node that an error names, and its offset in the layout;
* `Trace.StopsAt`: a trace that comes past the leaves before a node, which rejects a value at once;
* `Layout.stopsAt`: encoding stops at the node that the error names.
-/

namespace FixedLayout

/-- A node of a layout: its offset, and the error that it has by itself. -/
structure Place where
  node : Layout
  start : Int
  cause : EncodeError

/-- A node inside a child as a node inside the composite. -/
def Place.within (offset : Int) (place : Place) : Place :=
  { place with start := place.start + offset }

mutual

/-- The node that the fields and elements around an error lead to. -/
def Layout.locate : Layout → EncodeError → Option Place
  | .composite form fields, .inField name typeName e =>
    if typeName = (Layout.composite form fields).typeName then fields.locate 0 name e else none
  | .array element n, .inElement index typeName e =>
    if typeName = (Layout.array element n).typeName ∧ (index : Int) < n then
      (element.locate e).map (·.within (index * element.size))
    else none
  | l, e => some ⟨l, 0, e⟩

/-- The node that lies in the field of a given name. -/
def Fields.locate : Fields → Int → String → EncodeError → Option Place
  | .nil, _, _, _ => none
  | .cons field _ layout rest, start, name, e =>
    if field = name then (layout.locate e).map (·.within start)
    else rest.locate (start + layout.size) name e

end

/-! ### Traces that stop -/

/-- A trace that comes past the leaves between an offset and a node, and stops there, since the node
rejects a value without writing anything. -/
structure Trace.StopsAt (t : Trace) (lo : Int) (inside : Value → Prop) (place : Place) : Prop where
  tiles : Tiles lo place.start (t.visits.map (·.leaf))
  rejects : ∃ u, inside u ∧ ∀ region : Bytes, (region.length : Int) = place.node.size →
    place.node.encode u region = (.error (.rejected place.cause), region)

namespace Trace

variable {t tail : Trace} {lo : Int} {inside : Value → Prop} {place : Place}
  {node : EncodeError → EncodeError} {frame : Frame} {offset : Int}

/-- A rejection comes from the child, inside its node, or from what follows it. -/
theorem rejected_of_andThen {e : EncodeError}
    (h : ((t.within node frame offset).andThen tail).outcome = .error (.rejected e)) :
    (∃ cause, t.outcome = .error (.rejected cause) ∧ e = node cause) ∨
      (t.outcome = .ok () ∧ tail.outcome = .error (.rejected e)) := by
  cases hout : t.outcome with
  | ok u =>
    rw [outcome_andThen_of_ok (outcome_within_of_ok hout node frame offset)] at h
    exact Or.inr ⟨rfl, h⟩
  | error fault =>
    rw [outcome_andThen_of_error (outcome_within_of_error hout node frame offset)] at h
    cases fault with
    | rejected cause =>
      cases h
      exact Or.inl ⟨cause, rfl, rfl⟩
    | sequence fault => cases h
    | misfit => cases h

theorem StopsAt.imp {outside : Value → Prop} (h : t.StopsAt lo inside place)
    (himp : ∀ u, inside u → outside u) : t.StopsAt lo outside place := by
  obtain ⟨u, hu, hrejects⟩ := h.rejects
  exact ⟨h.tiles, u, himp u hu, hrejects⟩

/-- A child that stops is all that is visited. -/
theorem StopsAt.first (h : t.StopsAt 0 inside place) {fault : EncodeFault}
    (hout : t.outcome = .error fault) (node : EncodeError → EncodeError) (frame : Frame)
    (offset : Int) (tail : Trace) :
    ((t.within node frame offset).andThen tail).StopsAt offset inside (place.within offset) := by
  refine ⟨?_, h.rejects⟩
  have htiles := h.tiles.within frame offset
  rw [Int.zero_add] at htiles
  rw [visits_andThen_of_error (outcome_within_of_error hout node frame offset), leaves_within]
  exact htiles

/-- What stops after a child has all of the child's leaves before it. -/
theorem StopsAt.later {size : Int} (hout : t.outcome = .ok ())
    (hfirst : Tiles 0 size (t.visits.map (·.leaf))) (h : tail.StopsAt (offset + size) inside place)
    (node : EncodeError → EncodeError) (frame : Frame) :
    ((t.within node frame offset).andThen tail).StopsAt offset inside place := by
  refine ⟨?_, h.rejects⟩
  have htiles := hfirst.within frame offset
  rw [Int.zero_add, Int.add_comm] at htiles
  rw [visits_andThen_of_ok (outcome_within_of_ok hout node frame offset), List.map_append,
    leaves_within]
  exact htiles.append h.tiles

end Trace

/-- A layout that rejects a value at once stops where it starts. -/
theorem Layout.stopsAt_of_fail {l : Layout} (hl : l.LengthsNonneg) {v : Value} {e : EncodeError}
    (h : l.trace v = .fail (.rejected e)) : (l.trace v).StopsAt 0 v.Has ⟨l, 0, e⟩ := by
  constructor
  · rw [h]
    rfl
  · refine ⟨v, .self, fun region hregion => ?_⟩
    rw [Layout.encode_eq_trace hl v hregion, h]
    rfl

/-! ### Layouts -/

theorem Layout.stopsAt_of_isLeaf {l : Layout} (hl : l.LengthsNonneg)
    (htrace : ∀ v, l.trace v = .write l v) (hlocate : ∀ e, l.locate e = some ⟨l, 0, e⟩) {v : Value}
    {e : EncodeError} (h : (l.trace v).outcome = .error (.rejected e)) :
    ∃ place, l.locate e = some place ∧ (l.trace v).StopsAt 0 v.Has place := by
  refine ⟨_, hlocate e, Layout.stopsAt_of_fail hl ?_⟩
  rw [htrace, Trace.write] at *
  split at h
  · cases h
  · cases h
    rfl

/-- A composite that cannot take a value apart has an error of its own. -/
theorem Form.locate_of_split {form : Form} {fields : Fields} {typeName : String}
    {names : List String} {v : Value} {e : EncodeError}
    (h : form.split typeName names v = .error e) :
    (Layout.composite form fields).locate e = some ⟨.composite form fields, 0, e⟩ := by
  cases form with
  | model cls =>
    cases v with
    | record valueClass given =>
      simp only [Form.split] at h
      split at h
      · cases hlookup : lookupFields (.record valueClass given) names with
        | ok xs => rw [hlookup] at h; cases h
        | error missing => rw [hlookup] at h; cases h; rfl
      · cases h; rfl
    | _ => cases h; rfl
  | tuple =>
    cases v with
    | tuple items =>
      simp only [Form.split] at h
      split at h
      · cases h
      · cases h; rfl
    | list items =>
      simp only [Form.split] at h
      split at h
      · cases h
      · cases h; rfl
    | _ => cases h; rfl

/-- An array that cannot take elements from a value has an error of its own. -/
theorem locate_of_arrayElements {element : Layout} {n : Int} {typeName : String} {v : Value}
    {e : EncodeError} (h : arrayElements typeName n v = .error (.rejected e)) :
    (Layout.array element n).locate e = some ⟨.array element n, 0, e⟩ := by
  unfold arrayElements at h
  split at h
  · cases h; rfl
  · cases h; rfl
  · cases h; rfl
  · split at h
    · cases h; rfl
    · cases h
    · split at h
      · cases h; rfl
      · split at h
        · cases h
        · cases h

/-- The elements of an array stop at the element that the error names. -/
theorem stopsAt_traceRun {element : Layout} (he : element.LengthsNonneg)
    (h : ∀ v e, (element.trace v).outcome = .error (.rejected e) →
      ∃ place, element.locate e = some place ∧ (element.trace v).StopsAt 0 v.Has place)
    (typeName : String) (index n : Nat) (items : List Value) {e : EncodeError}
    (hout : (traceRun element.trace element.leaves typeName element.size index n items).outcome =
      .error (.rejected e)) :
    ∃ i cause place, e = .inElement i typeName cause ∧ i < index + n ∧
      element.locate cause = some place ∧
      (traceRun element.trace element.leaves typeName element.size index n items).StopsAt
        (index * element.size) (fun u => ∃ v ∈ items, v.Has u)
        (place.within (i * element.size)) := by
  induction n generalizing index items with
  | zero => cases hout
  | succ n ih =>
    cases items with
    | nil => cases hout
    | cons v items =>
      unfold traceRun at hout ⊢
      -- either this element rejects its value, or it is written and a later one does
      rcases Trace.rejected_of_andThen hout with ⟨cause, hfirst, rfl⟩ | ⟨hfirst, hrest⟩
      · obtain ⟨place, hplace, hstops⟩ := h v cause hfirst
        refine ⟨index, cause, place, rfl, by omega, hplace, ?_⟩
        exact (hstops.imp fun u hu => ⟨v, List.mem_cons_self .., hu⟩).first hfirst _ _ _ _
      · obtain ⟨i, cause, place, rfl, hi, hplace, hstops⟩ := ih (index + 1) items hrest
        have htiles := element.tiles_leaves he
        rw [← (element.fills_trace v).complete hfirst] at htiles
        rw [Int.natCast_add, Int.natCast_one, offset_succ] at hstops
        refine ⟨i, cause, place, rfl, by omega, hplace, ?_⟩
        refine (hstops.imp fun u hu => ?_).later hfirst htiles _ _
        obtain ⟨x, hx, hxu⟩ := hu
        exact ⟨x, List.mem_cons_of_mem v hx, hxu⟩

mutual

/-- Encoding that is rejected stops at the node that the error names. -/
theorem Layout.stopsAt : ∀ l : Layout, l.LengthsNonneg → l.NamesNodup →
    ∀ (v : Value) (e : EncodeError), (l.trace v).outcome = .error (.rejected e) →
      ∃ place, l.locate e = some place ∧ (l.trace v).StopsAt 0 v.Has place
  | .int _, hl, _, _, _, h => Layout.stopsAt_of_isLeaf hl (fun _ => rfl) (fun _ => rfl) h
  | .bytes _, hl, _, _, _, h => Layout.stopsAt_of_isLeaf hl (fun _ => rfl) (fun _ => rfl) h
  | .unit _ _, hl, _, _, _, h => Layout.stopsAt_of_isLeaf hl (fun _ => rfl) (fun _ => rfl) h
  | .enumeration _, hl, _, _, _, h => Layout.stopsAt_of_isLeaf hl (fun _ => rfl) (fun _ => rfl) h
  | .composite form fields, hl, ⟨hnodup, hnames⟩, v, e, h => by
    cases hsplit : form.split (Layout.composite form fields).typeName fields.names v with
    | error error =>
      have htrace := Layout.trace_composite_of_error hsplit
      rw [htrace] at h
      cases h
      exact ⟨_, Form.locate_of_split hsplit, Layout.stopsAt_of_fail hl htrace⟩
    | ok values =>
      rw [Layout.trace_composite hsplit] at h ⊢
      obtain ⟨name, cause, place, rfl, -, hplace, hstops⟩ :=
        fields.stopsAt hl hnodup hnames _ _ 0 0 values e h
      refine ⟨place, ?_, hstops.imp fun u hu => ?_⟩
      · rw [Layout.locate, if_pos rfl, hplace]
      · obtain ⟨x, hx, hxu⟩ := hu
        exact ((Form.split_eq_ok hsplit).2 x hx).trans hxu
  | .array element n, hl, hnames, v, e, h => by
    have ⟨he, hn⟩ := hl
    cases hitems : arrayElements (Layout.array element n).typeName n v with
    | error fault =>
      have htrace := Layout.trace_array_of_error hitems
      rw [htrace] at h
      cases h
      exact ⟨_, locate_of_arrayElements hitems, Layout.stopsAt_of_fail hl htrace⟩
    | ok items =>
      rw [Layout.trace_array hitems] at h ⊢
      obtain ⟨i, cause, place, rfl, hi, hplace, hstops⟩ :=
        stopsAt_traceRun he (element.stopsAt he hnames) _ 0 _ items h
      rw [Int.natCast_zero, Int.zero_mul] at hstops
      refine ⟨_, ?_, hstops.imp fun u hu => ?_⟩
      · rw [Layout.locate, if_pos ⟨rfl, by omega⟩, hplace]
        rfl
      · obtain ⟨x, hx, hxu⟩ := hu
        exact (Value.Has.self.item (arrayElements_eq_ok hitems).1 hx).trans hxu

/-- The fields of a composite stop in the field that the error names. -/
theorem Fields.stopsAt : ∀ fs : Fields, fs.LengthsNonneg → fs.names.Nodup → fs.NamesNodup →
    ∀ (typeName : String) (frame : String → Nat → Frame) (index : Nat) (start : Int)
      (values : List Value) (e : EncodeError),
      (fs.trace typeName frame index start values).outcome = .error (.rejected e) →
        ∃ name cause place, e = .inField name typeName cause ∧ name ∈ fs.names ∧
          fs.locate start name cause = some place ∧
          (fs.trace typeName frame index start values).StopsAt start
            (fun u => ∃ v ∈ values, v.Has u) place
  | .nil, _, _, _, _, _, _, _, _, _, h => by cases h
  | .cons _ _ _ _, _, _, _, _, _, _, _, [], _, h => by cases h
  | .cons field _ layout rest, ⟨hl, hr⟩, hnodup, ⟨hnl, hnr⟩, typeName, frame, index, start,
      v :: values, e, h => by
    obtain ⟨hfield, hnodup⟩ := List.nodup_cons.1 hnodup
    unfold Fields.trace at h ⊢
    rcases Trace.rejected_of_andThen h with ⟨cause, hfirst, rfl⟩ | ⟨hfirst, hrest⟩
    · obtain ⟨place, hplace, hstops⟩ := layout.stopsAt hl hnl v cause hfirst
      refine ⟨field, cause, place.within start, rfl, List.mem_cons_self .., ?_, ?_⟩
      · rw [Fields.locate, if_pos rfl, hplace]
        rfl
      · exact (hstops.imp fun u hu => ⟨v, List.mem_cons_self .., hu⟩).first hfirst _ _ _ _
    · obtain ⟨name, cause, place, rfl, hname, hplace, hstops⟩ :=
        rest.stopsAt hr hnodup hnr typeName frame (index + 1) (start + layout.size) values e hrest
      have htiles := layout.tiles_leaves hl
      rw [← (layout.fills_trace v).complete hfirst] at htiles
      refine ⟨name, cause, place, rfl, List.mem_cons_of_mem field hname, ?_, ?_⟩
      · -- the error names a later field, and no two fields share a name
        have hne : field ≠ name := fun heq => hfield (heq ▸ hname)
        rw [Fields.locate, if_neg hne, hplace]
      · refine (hstops.imp fun u hu => ?_).later hfirst htiles _ _
        obtain ⟨x, hx, hxu⟩ := hu
        exact ⟨x, List.mem_cons_of_mem v hx, hxu⟩

end

end FixedLayout
