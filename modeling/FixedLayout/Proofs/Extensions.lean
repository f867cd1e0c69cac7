import FixedLayout.Proofs.Canonical
import FixedLayout.Proofs.Partition
import FixedLayout.Proofs.Surroundings

/-!
# Extended models

A model that extends another one has the fields of the other one first. Its layout starts with the
layout of the other one, and so do the bytes of its instances.

* `ModelDef.Derives`: a model and those on top of it. `ModelDef.Extends`: those of them that keep
  its fields as they are; `ModelDef.Extends.isPrefix`: they have these fields first;
* `Fields.check_append`, `Fields.trace_append` and those like them: what a composite does, split in
  two;
* `Catalog.exists_extension`: the layouts of a model and of one that extends it;
* `PackError.retitled`: an error with another type in its outermost frame;
* `Session.extension_is_prefix`: the main result.
-/

namespace FixedLayout

/-! ### Models on top of others -/

/-- A model, and the models that extend it directly or through others. -/
inductive ModelDef.Derives (b : ModelDef) : ModelDef → Prop
  | self : Derives b b
  | extend {m : ModelDef} (name : String) (own : List FieldDecl) (value repr : Option Value) :
    Derives b m → Derives b (m.extend name own value repr)

/-- A model extends another one, directly or through others, and none of the fields of that one has
been declared anew. -/
structure ModelDef.Extends (d b : ModelDef) : Prop where
  derives : b.Derives d
  keeps : ∀ f ∈ b.fields, f ∈ d.fields

/-- An instance of a model, or of a model that extends it. -/
def Value.InstanceOf (v : Value) (m : ModelDef) : Prop :=
  ∃ (e : ModelDef) (given : List (String × Value)), m.Derives e ∧ v = .record e.cls given

theorem names_putField (fields : List FieldDecl) (f : FieldDecl) :
    fields.map (·.name) <+: (putField fields f).map (·.name) := by
  unfold putField
  split
  · have hnames : (fun g : FieldDecl => (if g.name = f.name then f else g).name) =
        fun g => g.name := by
      funext g
      split
      · next heq => exact heq.symm
      · rfl
    rw [List.map_map]
    show _ <+: fields.map fun g => (if g.name = f.name then f else g).name
    rw [hnames]
  · rw [List.map_append]
    exact List.prefix_append _ _

theorem names_overrideFields (inherited own : List FieldDecl) :
    inherited.map (·.name) <+: (overrideFields inherited own).map (·.name) := by
  unfold overrideFields
  induction own generalizing inherited with
  | nil => exact List.prefix_rfl
  | cons f own ih => exact (names_putField inherited f).trans (ih _)

/-- Fields that occur among others whose names start with theirs are the first ones of these. -/
theorem FieldDecl.isPrefix_of_names {fs gs : List FieldDecl}
    (hnames : fs.map (·.name) <+: gs.map (·.name)) (hnodup : (gs.map (·.name)).Nodup)
    (hmem : ∀ f ∈ fs, f ∈ gs) : fs <+: gs := by
  induction fs generalizing gs with
  | nil => exact List.nil_prefix
  | cons f fs ih =>
    cases gs with
    | nil => exact absurd (hmem f (List.mem_cons_self ..)) List.not_mem_nil
    | cons g gs =>
      obtain ⟨hname, hrest⟩ := List.cons_prefix_cons.1 hnames
      obtain ⟨hnew, hothers⟩ := List.nodup_cons.1 hnodup
      have hfirst : f = g := by
        rcases List.mem_cons.1 (hmem f (List.mem_cons_self ..)) with heq | hlater
        · exact heq
        · exact absurd (hname ▸ List.mem_map_of_mem hlater) hnew
      subst hfirst
      refine List.cons_prefix_cons.2 ⟨rfl, ih hrest hothers fun x hx => ?_⟩
      rcases List.mem_cons.1 (hmem x (List.mem_cons_of_mem f hx)) with rfl | hlater
      · exact absurd (hrest.subset (List.mem_map_of_mem hx)) hnew
      · exact hlater

namespace ModelDef

variable {b d e : ModelDef}

theorem Derives.trans (h : b.Derives d) (h' : d.Derives e) : b.Derives e := by
  induction h' with
  | self => exact h
  | extend name own value repr _ ih => exact .extend name own value repr ih

theorem Derives.kind_eq (h : b.Derives d) : d.kind = b.kind := by
  induction h with
  | self => rfl
  | extend name own value repr _ ih => exact ih

/-- Instances of a model are instances of those that it extends. -/
theorem Derives.isSubclassOf (h : b.Derives d) : d.cls.isSubclassOf b.cls = true := by
  have hbase : d.name = b.name ∨ b.name ∈ d.bases := by
    induction h with
    | self => exact .inl rfl
    | @extend m name own value repr _ ih =>
      refine .inr ?_
      show b.name ∈ m.name :: m.bases
      rcases ih with hname | hmem
      · exact hname ▸ List.mem_cons_self ..
      · exact List.mem_cons_of_mem _ hmem
  unfold ModelClass.isSubclassOf
  simpa [cls] using hbase

theorem Derives.names_prefix (h : b.Derives d) :
    b.fields.map (·.name) <+: d.fields.map (·.name) := by
  induction h with
  | self => exact List.prefix_rfl
  | @extend m name own value repr _ ih => exact ih.trans (names_overrideFields m.fields own)

/-- A model that keeps the fields of another one has them first. -/
theorem Extends.isPrefix (h : d.Extends b) : b.fields <+: d.fields :=
  FieldDecl.isPrefix_of_names h.derives.names_prefix d.names_nodup h.keeps

end ModelDef

/-! ### Composites split in two -/

namespace Fields

variable (fs gs : List (String × Option String × Layout))

theorem size_append : (ofList (fs ++ gs)).size = (ofList fs).size + (ofList gs).size := by
  induction fs with
  | nil => exact (Int.zero_add _).symm
  | cons f fs ih =>
    rw [List.cons_append, ofList, ofList, size, size, ih, Int.add_assoc]

theorem count_ofList : (ofList fs).count = fs.length := by
  rw [← length_toList, toList_ofList]

theorem place_append (index : Nat) (start : Int) :
    (ofList (fs ++ gs)).place index start = (ofList fs).place index start ++
      (ofList gs).place (index + fs.length) (start + (ofList fs).size) := by
  induction fs generalizing index start with
  | nil =>
    rw [List.nil_append, ofList, place, List.nil_append, size, Int.add_zero]
    rfl
  | cons f fs ih =>
    rw [List.cons_append, ofList, ofList, place, place, ih, List.cons_append, size,
      List.length_cons, Nat.add_assoc, Nat.add_comm 1, Int.add_assoc]

theorem check_append (frame : String → Nat → Frame) (index : Nat) (start : Int) (data : Bytes) :
    (ofList (fs ++ gs)).check frame index start data =
      ((ofList fs).check frame index start data).bind fun _ =>
        (ofList gs).check frame (index + fs.length) (start + (ofList fs).size) data := by
  induction fs generalizing index start with
  | nil =>
    rw [List.nil_append, ofList, check, size, Int.add_zero]
    rfl
  | cons f fs ih =>
    rw [List.cons_append, ofList, ofList, check, check, ih, size, List.length_cons,
      Nat.add_right_comm, ← Nat.add_assoc, Int.add_assoc]
    cases inFrame (frame f.1 index)
      (f.2.2.check (Bytes.slice data start (start + f.2.2.size))) <;> rfl

theorem lengthsNonneg_append :
    (ofList (fs ++ gs)).LengthsNonneg ↔ (ofList fs).LengthsNonneg ∧ (ofList gs).LengthsNonneg := by
  induction fs with
  | nil => exact (iff_of_eq (true_and _)).symm
  | cons f fs ih =>
    rw [List.cons_append, ofList, ofList, LengthsNonneg, LengthsNonneg, ih, and_assoc]

end Fields

namespace Trace

theorem skip_nil_andThen (t : Trace) : (skip []).andThen t = t := rfl

theorem andThen_assoc (t u v : Trace) : (t.andThen u).andThen v = t.andThen (u.andThen v) := by
  obtain ⟨visits, fault | _⟩ := t
  · rfl
  · obtain ⟨visits', fault | _⟩ := u
    · rfl
    · exact congrArg (Trace.mk · v.outcome) (List.append_assoc visits visits' v.visits)

end Trace

namespace Fields

variable {fs gs : List (String × Option String × Layout)}

theorem trace_append {vs : List Value} (hlen : vs.length = fs.length) (ws : List Value)
    (typeName : String) (frame : String → Nat → Frame) (index : Nat) (start : Int) :
    (ofList (fs ++ gs)).trace typeName frame index start (vs ++ ws) =
      ((ofList fs).trace typeName frame index start vs).andThen
        ((ofList gs).trace typeName frame (index + fs.length) (start + (ofList fs).size) ws) := by
  induction fs generalizing vs index start with
  | nil =>
    obtain rfl : vs = [] := List.eq_nil_of_length_eq_zero hlen
    rw [List.nil_append, List.nil_append, ofList, trace, Trace.skip_nil_andThen, size, Int.add_zero]
    rfl
  | cons f fs ih =>
    cases vs with
    | nil => cases hlen
    | cons v vs =>
      rw [List.cons_append, List.cons_append, ofList, ofList, trace, trace, ih (Nat.succ.inj hlen),
        size, List.length_cons, Nat.add_right_comm, ← Nat.add_assoc, Int.add_assoc,
        Trace.andThen_assoc]

/-- What is written does not depend on the type that the fields belong to, nor on where they are. -/
theorem trace_of_ok {typeName : String} {frame : String → Nat → Frame} (typeName' : String)
    (frame' : String → Nat → Frame) :
    ∀ {fs : Fields} {values : List Value} {index : Nat} {start : Int}, values.length = fs.count →
      (fs.trace typeName frame index start values).outcome = .ok () →
        ∀ (index' : Nat) (start' : Int),
          (fs.trace typeName' frame' index' start' values).outcome = .ok () ∧
            (fs.trace typeName' frame' index' start' values).patch =
              (fs.trace typeName frame index start values).patch
  | .nil, _, _, _, _, _, _, _ => ⟨rfl, rfl⟩
  | .cons _ _ _ _, [], _, _, hlen, _, _, _ => nomatch hlen
  | .cons name _ layout rest, v :: values, index, start, hlen, hok, index', start' => by
    unfold trace at hok ⊢
    cases hfirst : (layout.trace v).outcome with
    | error fault =>
      rw [Trace.outcome_andThen_of_error (Trace.outcome_within_of_error hfirst _ _ _)] at hok
      cases hok
    | ok u =>
      have hwithin := Trace.outcome_within_of_ok hfirst
      rw [Trace.outcome_andThen_of_ok (hwithin _ _ _)] at hok
      obtain ⟨hrest, hpatch⟩ := trace_of_ok typeName' frame' (Nat.succ.inj hlen) hok (index' + 1)
        (start' + layout.size)
      rw [Trace.outcome_andThen_of_ok (hwithin _ _ _), Trace.patch_andThen_of_ok (hwithin _ _ _),
        Trace.patch_andThen_of_ok (hwithin _ _ _), Trace.patch_within, Trace.patch_within, hpatch]
      exact ⟨hrest, rfl⟩

end Fields

/-! ### Checks under other frames -/

/-- Whether fields pass their check does not depend on the frames. -/
theorem Fields.check_of_ok {frame : String → Nat → Frame} {data : Bytes} :
    ∀ {fs : Fields} {index : Nat} {start : Int}, fs.check frame index start data = .ok () →
      ∀ frame', fs.check frame' index start data = .ok ()
  | .nil, _, _, _, _ => rfl
  | .cons _ _ layout rest, index, start, h, frame' => by
    unfold Fields.check at h ⊢
    obtain ⟨_, hfirst, hrest⟩ := bind_eq_ok h
    rw [inFrame_eq_ok hfirst]
    exact Fields.check_of_ok hrest frame'

/-- The failure of a check of fields is that of one of them, inside the frame of this field. -/
theorem Fields.check_of_error {frame : String → Nat → Frame} {data : Bytes} {fault : CheckFault} :
    ∀ {fs : Fields} {index : Nat} {start : Int}, fs.check frame index start data = .error fault →
      ∃ (own : CheckFault) (k : Nat) (name : String), fs.names[k]? = some name ∧
        fault = own.within (frame name (index + k)) ∧ ∀ frame' : String → Nat → Frame,
          fs.check frame' index start data = .error (own.within (frame' name (index + k)))
  | .nil, _, _, h => nomatch h
  | .cons name _ layout rest, index, start, h => by
    unfold Fields.check at h ⊢
    cases hfirst : layout.check (Bytes.slice data start (start + layout.size)) with
    | error own =>
      rw [hfirst] at h
      cases h
      exact ⟨own, 0, name, rfl, rfl, fun _ => rfl⟩
    | ok u =>
      rw [hfirst] at h
      obtain ⟨own, k, other, hname, hfault, hall⟩ := Fields.check_of_error h
      refine ⟨own, k + 1, other, hname, ?_, fun frame' => ?_⟩
      · rw [hfault, Nat.add_assoc, Nat.add_comm 1]
      · rw [← Nat.add_assoc, Nat.add_right_comm]
        exact hall frame'

section Composites

variable {form form' : Form} {fs gs : List (String × Option String × Layout)} {data : Bytes}
  {v : Value}

/-- The bytes of a value as fewer fields are the first ones of its bytes as all fields. -/
theorem Layout.pack_take (hl : (Fields.ofList (fs ++ gs)).LengthsNonneg) {vs ws : List Value}
    (hlen : vs.length = fs.length)
    (hall : form'.split (Layout.composite form' (.ofList (fs ++ gs))).typeName
      (Fields.ofList (fs ++ gs)).names v = .ok (vs ++ ws))
    (hfirst : form.split (Layout.composite form (.ofList fs)).typeName (Fields.ofList fs).names v =
      .ok vs)
    (h : (Layout.composite form' (.ofList (fs ++ gs))).pack v = .ok data) :
    (Layout.composite form (.ofList fs)).pack v =
      .ok (data.take (Layout.composite form (.ofList fs)).size.toNat) := by
  obtain ⟨hfs, hgs⟩ := (Fields.lengthsNonneg_append fs gs).1 hl
  have hlb : (Layout.composite form (.ofList fs)).LengthsNonneg := hfs
  have hld : (Layout.composite form' (.ofList (fs ++ gs))).LengthsNonneg := hl
  obtain ⟨hok, rfl⟩ := (Layout.pack_eq_ok_iff hld).1 h
  rw [Layout.trace_composite hall, Fields.trace_append hlen] at hok ⊢
  cases hpart : ((Fields.ofList fs).trace (Layout.composite form' (.ofList (fs ++ gs))).typeName
      (form'.frame (Layout.composite form' (.ofList (fs ++ gs))).typeName) 0 0 vs).outcome with
  | error fault =>
    rw [Trace.outcome_andThen_of_error hpart] at hok
    cases hok
  | ok u =>
    rw [Trace.patch_andThen_of_ok hpart]
    have hcount : vs.length = (Fields.ofList fs).count := by rw [hlen, Fields.count_ofList]
    obtain ⟨hoktrace, hpatch⟩ := Fields.trace_of_ok (Layout.composite form (.ofList fs)).typeName
      (form.frame (Layout.composite form (.ofList fs)).typeName) hcount hpart 0 0
    rw [← Layout.trace_composite hfirst] at hoktrace hpatch
    refine (Layout.pack_eq_ok_iff hlb).2 ⟨hoktrace, ?_⟩
    -- the other fields are written after the first ones
    have hsize : (Layout.composite form' (.ofList (fs ++ gs))).size.toNat =
        (Layout.composite form (.ofList fs)).size.toNat + (Fields.ofList gs).size.toNat := by
      have h0 := (Fields.ofList fs).size_nonneg hfs
      have h1 := (Fields.ofList gs).size_nonneg hgs
      rw [Layout.size, Layout.size, Fields.size_append]
      omega
    have hwidth := Layout.length_patch hlb v hoktrace
    rw [hpatch] at hwidth ⊢
    have hzeros : Bytes.zeros (Layout.composite form' (.ofList (fs ++ gs))).size.toNat =
        Bytes.zeros (Layout.composite form (.ofList fs)).size.toNat ++
          Bytes.zeros (Fields.ofList gs).size.toNat := by
      rw [hsize]
      exact (List.replicate_append_replicate).symm
    rw [hzeros, Bytes.overlay_append (by rw [Bytes.length_zeros]; omega), List.take_left']
    rw [Bytes.length_overlay, Bytes.length_zeros]

/-- Bytes of all fields are checked field by field. Either one of the first fields fails, and then
it fails as well where there are only these; or they pass, and what fails is another field. -/
theorem Layout.check_cases (form form' : Form) (hl : (Fields.ofList (fs ++ gs)).LengthsNonneg)
    (hlen : (Layout.composite form (.ofList fs)).size ≤ data.length) :
    (∃ (own : CheckFault) (k : Nat) (name : String), (Fields.ofList fs).names[k]? = some name ∧
      (Layout.composite form' (.ofList (fs ++ gs))).check data = .error (own.within
        (form'.frame (Layout.composite form' (.ofList (fs ++ gs))).typeName name k)) ∧
      (Layout.composite form (.ofList fs)).check
          (data.take (Layout.composite form (.ofList fs)).size.toNat) =
        .error (own.within (form.frame (Layout.composite form (.ofList fs)).typeName name k))) ∨
    ((Layout.composite form (.ofList fs)).check
        (data.take (Layout.composite form (.ofList fs)).size.toNat) = .ok () ∧
      ∀ fault, (Layout.composite form' (.ofList (fs ++ gs))).check data = .error fault →
        ∃ (own : CheckFault) (k : Nat) (name : String), (Fields.ofList gs).names[k]? = some name ∧
          fault = own.within (form'.frame (Layout.composite form' (.ofList (fs ++ gs))).typeName
            name (fs.length + k))) := by
  obtain ⟨hfs, -⟩ := (Fields.lengthsNonneg_append fs gs).1 hl
  have hsize := (Fields.ofList fs).size_nonneg hfs
  have htake : (Layout.composite form (.ofList fs)).check
      (data.take (Layout.composite form (.ofList fs)).size.toNat) =
        (Fields.ofList fs).check (form.frame (Layout.composite form (.ofList fs)).typeName) 0 0
          data := by
    rw [Layout.size] at hlen ⊢
    exact Fields.check_take (by omega) _ _ 0 0 hfs (Int.le_refl 0) (by omega)
  rw [htake, Layout.check, Fields.check_append, Nat.zero_add]
  cases hpart : (Fields.ofList fs).check
      (form'.frame (Layout.composite form' (.ofList (fs ++ gs))).typeName) 0 0 data with
  | error fault =>
    obtain ⟨own, k, name, hname, rfl, hall⟩ := Fields.check_of_error hpart
    have hfirst := hall (form.frame (Layout.composite form (.ofList fs)).typeName)
    rw [Nat.zero_add] at hfirst ⊢
    exact .inl ⟨own, k, name, hname, rfl, hfirst⟩
  | ok u =>
    refine .inr ⟨Fields.check_of_ok hpart _, fun fault h => ?_⟩
    obtain ⟨own, k, name, hname, hfault, -⟩ := Fields.check_of_error h
    exact ⟨own, k, name, hname, hfault⟩

end Composites

/-! ### Errors under another title -/

/-- A frame of another type. -/
def Frame.retitled (typeName : String) : Frame → Frame
  | .field _ name => .field typeName name
  | .entry _ index => .entry typeName index
  | .note _ message => .note typeName message

/-- An error with the name of another type in its outermost frame. -/
def PackError.retitled (e : PackError) (typeName : String) : PackError :=
  { e with frames := e.frames.dropLast ++ (e.frames.getLast?.map (Frame.retitled typeName)).toList }

theorem PackError.retitled_within (e : PackError) (frame : Frame) (typeName : String) :
    (e.within frame).retitled typeName = e.within (frame.retitled typeName) := by
  simp [retitled, within]

/-- The frames of a field in two forms that are both positional, or both not, differ in the type. -/
theorem Form.frame_retitled {form form' : Form} (h : form.positional = form'.positional)
    (typeName typeName' name : String) (index : Nat) :
    (form'.frame typeName' name index).retitled typeName = form.frame typeName name index := by
  unfold Form.frame
  rw [h]
  cases form'.positional <;> rfl

/-- A frame tells the field, by its name or by its index. -/
theorem Form.eq_of_frame {form : Form} {typeName typeName' name name' : String} {index index' : Nat}
    (h : form.frame typeName name index = form.frame typeName' name' index') :
    name = name' ∨ index = index' := by
  unfold Form.frame at h
  split at h
  · cases h
    exact .inr rfl
  · cases h
    exact .inl rfl

/-! ### Values of fields -/

theorem lookupFields_append {v : Value} {names others : List String} {values : List Value}
    (h : lookupFields v (names ++ others) = .ok values) : ∃ vs ws, values = vs ++ ws ∧
      vs.length = names.length ∧ lookupFields v names = .ok vs := by
  induction names generalizing values with
  | nil => exact ⟨[], values, rfl, rfl, rfl⟩
  | cons name names ih =>
    obtain ⟨x, rest, hfield, hrest, rfl⟩ := lookupFields_cons h
    obtain ⟨vs, ws, rfl, hlen, hvs⟩ := ih hrest
    refine ⟨x :: vs, ws, rfl, congrArg Nat.succ hlen, ?_⟩
    rw [lookupFields, hfield]
    simp only [hvs]
    rfl

theorem Fields.canonical_of_append {fs gs : List (String × Option String × Layout)}
    {vs ws : List Value} (hlen : vs.length = fs.length)
    (h : (ofList (fs ++ gs)).Canonical (vs ++ ws)) : (ofList fs).Canonical vs := by
  induction fs generalizing vs with
  | nil => exact List.eq_nil_of_length_eq_zero hlen
  | cons f fs ih =>
    cases vs with
    | nil => cases hlen
    | cons v vs =>
      obtain ⟨_, _, heq, hv, hrest⟩ := h
      cases heq
      exact ⟨v, vs, rfl, hv, ih (Nat.succ.inj hlen) hrest⟩

/-- Fields by the names of the values that they equal. -/
theorem Value.same_fields {cls : ModelClass} {given : List (String × Value)} {v : Value}
    {values : List Value} (hnodup : (given.map (·.1)).Nodup)
    (hlookup : lookupFields v (given.map (·.1)) = .ok values)
    (hsame : Value.sameEach (given.map (·.2)) values = true) :
    ∀ name ∈ given.map (·.1), ∃ x y, (Value.record cls given).field? name = some x ∧
      v.field? name = some y ∧ x.same y = true := by
  have hfields : ∀ g ∈ given, ∃ y, v.field? g.1 = some y ∧ g.2.same y = true := by
    -- only the values that are looked up are gone through here, not the instance
    clear hnodup
    induction given generalizing values with
    | nil => exact fun _ hg => absurd hg List.not_mem_nil
    | cons g given ih =>
      obtain ⟨y, others, hfield, hrest, rfl⟩ := lookupFields_cons hlookup
      rw [List.map_cons, sameEach, Bool.and_eq_true] at hsame
      exact List.forall_mem_cons.2 ⟨⟨y, hfield, hsame.1⟩, ih hrest hsame.2⟩
  intro name hname
  obtain ⟨g, hg, rfl⟩ := List.mem_map.1 hname
  obtain ⟨y, hy, heq⟩ := hfields g hg
  exact ⟨g.2, y, Value.field?_record hnodup hg, hy, heq⟩

/-- An instance of a class is taken apart into the values of its fields. -/
theorem Form.split_record {cls valueClass : ModelClass} (h : valueClass.isSubclassOf cls = true)
    (typeName : String) (names : List String) (given : List (String × Value)) :
    (Form.model cls).split typeName names (.record valueClass given) =
      (lookupFields (.record valueClass given) names).mapError
        (.missingField typeName valueClass.name) := if_pos h

/-- A value that is packed as a composite is taken apart into the values of the fields. -/
theorem Layout.exists_split_of_pack {form : Form} {fields : Fields} {v : Value} {data : Bytes}
    (hl : (Layout.composite form fields).LengthsNonneg)
    (h : (Layout.composite form fields).pack v = .ok data) :
    ∃ values, form.split (Layout.composite form fields).typeName fields.names v = .ok values := by
  obtain ⟨hok, -⟩ := (Layout.pack_eq_ok_iff hl).1 h
  cases hsplit : form.split (Layout.composite form fields).typeName fields.names v with
  | ok values => exact ⟨values, rfl⟩
  | error e =>
    rw [Layout.trace_composite_of_error hsplit] at hok
    cases hok

/-! ### Layouts of extended models -/

namespace Catalog

variable {c : Catalog} {b d : ModelDef} {lb ld : Layout}

theorem HasField.unique {f : FieldDecl} {x y : String × Option String × Layout}
    (h : c.HasField f x) (h' : c.HasField f y) : x = y := by
  obtain ⟨l, hl, options, hoptions, rfl⟩ := h
  obtain ⟨l', hl', options', hoptions', rfl⟩ := h'
  rw [hoptions] at hoptions'
  cases hoptions'
  rw [hl.unique hl']

/-- The layout of a model that extends another one has the fields of that one first. -/
theorem exists_extension (hbase : c.find? b.name = some (.model b)) (hkind : b.kind ≠ .unit)
    (hlb : c.layoutOf (.named b.name) = .ok lb) (hfind : c.find? d.name = some (.model d))
    (hext : d.Extends b) (hld : c.layoutOf (.named d.name) = .ok ld) :
    ∃ fs gs, lb = .composite (.model b.cls) (.ofList fs) ∧
      ld = .composite (.model d.cls) (.ofList (fs ++ gs)) ∧
      fs.map (·.1) = b.fields.map (·.name) := by
  obtain ⟨-, fs, hfs, -, rfl⟩ := (hasLayout_model_iff hbase hkind).1 (layoutOf_eq_ok_iff.1 hlb)
  obtain ⟨-, all, hall, -, rfl⟩ := (hasLayout_model_iff hfind (hext.derives.kind_eq ▸ hkind)).1
    (layoutOf_eq_ok_iff.1 hld)
  obtain ⟨own, hown⟩ := hext.isPrefix
  rw [← hown] at hall
  have hfirst := (List.forall₂_take_append all b.fields own hall.flip).flip
  have hunique : Relator.RightUnique c.HasField := fun _ _ _ h h' => h.unique h'
  have heq : all.take b.fields.length = fs := List.right_unique_forall₂' hunique hfirst hfs
  refine ⟨fs, all.drop b.fields.length, rfl, ?_, (names_of_hasField hfs).symm⟩
  rw [← heq, List.take_append_drop]

/-- An error with a frame comes from bytes of the right number. -/
theorem exists_check_of_frame {t : TypeExpr} {l : Layout} (hl : c.layoutOf t = .ok l)
    {data : Bytes} {e : PackError} (h : c.check t data = .error (.pack e)) {frame : Frame}
    (hframe : e.frames.getLast? = some frame) :
    (data.length : Int) = l.size ∧ l.check data = .error (.rejected e) := by
  rw [check_eq_accept hl] at h
  unfold Layout.accept at h
  split at h
  · refine ⟨‹_›, ?_⟩
    cases hcheck : l.check data with
    | ok u =>
      rw [hcheck] at h
      cases h
    | error fault =>
      rw [hcheck] at h
      cases fault with
      | noByte => cases h
      | rejected own =>
        cases h
        rfl
  · cases h
    cases hframe

section Extended

variable (hbase : c.find? b.name = some (.model b)) (hkind : b.kind ≠ .unit)
  (hlb : c.layoutOf (.named b.name) = .ok lb) (hfind : c.find? d.name = some (.model d))
  (hext : d.Extends b) (hld : c.layoutOf (.named d.name) = .ok ld)

include hbase hkind hlb hfind hext hld

/-- What is told of the fields of a model is told first of those of a model that extends it. -/
theorem byField_of_extension {α : Type} (answer : Slot → α) : ∃ told others,
    Session.byField answer lb = .ok told ∧ Session.byField answer ld = .ok (told ++ others) := by
  obtain ⟨fs, gs, rfl, rfl, -⟩ := exists_extension hbase hkind hlb hfind hext hld
  refine ⟨((Fields.ofList fs).place 0 0).map fun slot => (slot.name, answer slot),
    ((Fields.ofList gs).place (0 + fs.length) (0 + (Fields.ofList fs).size)).map
      fun slot => (slot.name, answer slot), rfl, ?_⟩
  rw [← List.map_append, ← Fields.place_append]
  rfl

/-- An instance of the extended model is encoded as the other model too, as its first bytes. -/
theorem encode_of_extension (hl : ld.LengthsNonneg) {v : Value} (hv : v.InstanceOf d)
    {data : Bytes} (h : c.encode v (some (.named d.name)) = .ok data) :
    c.encode v (some (.named b.name)) = .ok (data.take lb.size.toNat) := by
  obtain ⟨fs, gs, rfl, rfl, -⟩ := exists_extension hbase hkind hlb hfind hext hld
  rw [encode_eq_ok_iff hld] at h
  rw [encode_eq_ok_iff hlb]
  obtain ⟨e, given, hderives, rfl⟩ := hv
  obtain ⟨values, hsplit⟩ := Layout.exists_split_of_pack hl h
  have hall := hsplit
  rw [Form.split_record hderives.isSubclassOf] at hsplit
  cases hlookup : lookupFields (.record e.cls given) (Fields.ofList (fs ++ gs)).names with
  | error missing =>
    rw [hlookup] at hsplit
    cases hsplit
  | ok found =>
    rw [hlookup] at hsplit
    cases hsplit
    rw [Fields.names_ofList, List.map_append] at hlookup
    obtain ⟨vs, ws, rfl, hlen, hvs⟩ := lookupFields_append hlookup
    rw [List.length_map] at hlen
    refine Layout.pack_take hl hlen hall ?_ h
    rw [Form.split_record (hext.derives.trans hderives).isSubclassOf, Fields.names_ofList, hvs]
    rfl

/-- The first bytes of an instance in canonical form are decoded to an instance of the other model
with equal fields. -/
theorem decode_of_extension (hl : ld.LengthsNonneg) {v : Value} (hv : ld.Canonical v)
    {data : Bytes} (h : c.encode v (some (.named d.name)) = .ok data) :
    ∃ given, c.decode (.named b.name) (data.take lb.size.toNat) = .ok (.record b.cls given) ∧
      given.map (·.1) = b.fields.map (·.name) ∧ ∀ f ∈ b.fields, ∃ x y,
        (Value.record b.cls given).field? f.name = some x ∧ v.field? f.name = some y ∧
          x.same y = true := by
  have hlayouts := exists_extension hbase hkind hlb hfind hext hld
  have hinstance : v.InstanceOf d := by
    obtain ⟨fs, gs, -, rfl, -⟩ := hlayouts
    obtain ⟨present, values, rfl, -⟩ := hv
    exact ⟨d, present, .self, rfl⟩
  have hfirst := encode_of_extension hbase hkind hlb hfind hext hld hl hinstance h
  rw [encode_eq_ok_iff hlb] at hfirst
  obtain ⟨fs, gs, rfl, rfl, hnames⟩ := hlayouts
  obtain ⟨present, values, rfl, -, hlookup, hvalues⟩ := hv
  rw [Fields.names_ofList, List.map_append] at hlookup
  obtain ⟨vs, ws, rfl, hlen, hvs⟩ := lookupFields_append hlookup
  rw [List.length_map] at hlen
  obtain ⟨hfs, -⟩ := (Fields.lengthsNonneg_append fs gs).1 hl
  obtain ⟨hnodup, hinner⟩ := namesNodup_of_layoutOf hlb
  -- the values of the first fields are given back by these fields on their own
  obtain ⟨content, given, hcontent, hwrites, hkeys, hsame, hdecode⟩ :=
    (Fields.ofList fs).exists_encoding hfs hinner vs (Fields.canonical_of_append hlen hvalues)
      (Layout.composite (.model b.cls) (.ofList fs)).typeName
      ((Form.model b.cls).frame (Layout.composite (.model b.cls) (.ofList fs)).typeName) 0 0
  have hsplit : (Form.model b.cls).split (Layout.composite (.model b.cls) (.ofList fs)).typeName
      (Fields.ofList fs).names (.record d.cls present) = .ok vs := by
    rw [Form.split_record hext.derives.isSubclassOf, Fields.names_ofList, hvs]
    rfl
  rw [← Layout.trace_composite hsplit] at hwrites
  have hlb' : (Layout.composite (.model b.cls) (.ofList fs)).LengthsNonneg := hfs
  have hpack := Layout.pack_of_writes hlb' hcontent hwrites
  cases hfirst.symm.trans hpack
  have hcheck := Layout.check_of_writes hlb' hcontent hwrites
  have hall := hdecode [] [] rfl
  rw [List.nil_append, List.append_nil] at hall
  refine ⟨given, ?_, hkeys.trans ((Fields.names_ofList fs).trans hnames), fun f hf => ?_⟩
  · rw [decode_eq hlb hcontent hcheck, Layout.unpack, Layout.decode, hall]
    rfl
  · have hgiven : given.map (·.1) = fs.map (·.1) := hkeys.trans (Fields.names_ofList fs)
    rw [← hgiven] at hvs
    refine Value.same_fields ?_ hvs hsame f.name ?_
    · rw [hkeys]
      exact hnodup
    · rw [hgiven, hnames]
      exact List.mem_map_of_mem hf

/-- A check of the extended model that fails inside a field of the other model fails there as well,
with the same error under the title of that model. -/
theorem check_of_extension (hl : ld.LengthsNonneg) {data : Bytes} {e : PackError}
    (h : c.check (.named d.name) data = .error (.pack e)) {k : Nat} {f : FieldDecl}
    (hf : b.fields[k]? = some f)
    (hframe : e.frames.getLast? = some ((Form.model d.cls).frame d.name f.name k)) :
    c.check (.named b.name) (data.take lb.size.toNat) = .error (.pack (e.retitled b.name)) := by
  obtain ⟨hlen, hcheck⟩ := exists_check_of_frame hld h hframe
  obtain ⟨fs, gs, rfl, rfl, hnames⟩ := exists_extension hbase hkind hlb hfind hext hld
  obtain ⟨hfs, hgs⟩ := (Fields.lengthsNonneg_append fs gs).1 hl
  have hpositional : (Form.model b.cls).positional = (Form.model d.cls).positional := by
    show decide (b.kind = .tuple) = decide (d.kind = .tuple)
    rw [hext.derives.kind_eq]
  have hroom : (Layout.composite (.model b.cls) (.ofList fs)).size ≤ data.length := by
    have := (Fields.ofList gs).size_nonneg hgs
    rw [hlen, Layout.size, Layout.size, Fields.size_append]
    omega
  have hfirst :
      ((data.take (Layout.composite (.model b.cls) (.ofList fs)).size.toNat).length : Int) =
        (Layout.composite (.model b.cls) (.ofList fs)).size := by
    have := (Fields.ofList fs).size_nonneg hfs
    rw [Layout.size] at hroom ⊢
    rw [List.length_take]
    omega
  rw [check_eq hlb hfirst]
  rcases Layout.check_cases (.model b.cls) (.model d.cls) hl hroom with
    ⟨own, j, name, -, hall, hsame⟩ | ⟨-, hother⟩
  · rw [hcheck] at hall
    cases own with
    | noByte => cases hall
    | rejected cause =>
      cases hall
      rw [hsame, PackError.retitled_within, Form.frame_retitled hpositional]
      rfl
  · -- the outermost frame is not that of one of the other fields
    obtain ⟨own, j, name, hname, heq⟩ := hother _ hcheck
    cases own with
    | noByte => cases heq
    | rejected cause =>
      cases heq
      rw [PackError.frames_within, List.getLast?_concat, Option.some.injEq] at hframe
      have hnodup := (namesNodup_of_layoutOf hld).1
      rw [Fields.names_ofList, List.map_append, hnames] at hnodup
      rw [Fields.names_ofList] at hname
      have hmem : f.name ∈ b.fields.map (·.name) := List.mem_map_of_mem (List.mem_of_getElem? hf)
      rcases Form.eq_of_frame hframe with rfl | hindex
      · exact absurd rfl
          ((List.nodup_append.1 hnodup).2.2 _ hmem _ (List.mem_of_getElem? hname))
      · have hk := (List.getElem?_eq_some_iff.1 hf).1
        have hlength := congrArg List.length hnames
        rw [List.length_map, List.length_map] at hlength
        omega

end Extended

end Catalog

namespace Session

/-- The offsets of a class are told from any cache. -/
theorem offsets_of_layoutOf {w : Workspace} {history : List TypeExpr} {name : String} {l : Layout}
    (hcache : w.cache = w.catalog.cacheAfter history)
    (h : w.catalog.layoutOf (.named name) = .ok l) :
    (fieldOffsets (.named name) w).1 = byField (fun slot => (slot.start, slot.stop)) l := by
  have hsound := Catalog.sound_cacheAfter w.catalog history
  rw [← hcache] at hsound
  have hanswers : Answers w (.named name) l := answers_of_layoutOf hsound rfl h
  exact hanswers.offsets

/-- Let a model extend another one, directly or through others, without declaring any of its fields
anew, and let both have layouts. The offsets of the other model are the first ones of the extended
model, whatever has been compiled before each of them is asked for.

Let no length be negative. An instance that is encoded as the extended model is encoded as the other
one as well, and its bytes are the first ones then. If the instance has canonical form, these bytes
are decoded to an instance of the other model with the same fields. If bytes are rejected by the
extended model because of a field of the other one, which is the field that the outermost frame of
the error tells, the first bytes are rejected by the other model with the same error, except for the
type that the outermost frame tells.

No length is negative in a class that can be made, since the validation of fields refuses bounds
below zero. `Session.defineModel` does not repeat that test. -/
theorem extension_is_prefix {c : Catalog} {b d : ModelDef} {lb ld : Layout}
    (hbase : c.find? b.name = some (.model b)) (hkind : b.kind ≠ .unit)
    (hlb : c.layoutOf (.named b.name) = .ok lb) (hfind : c.find? d.name = some (.model d))
    (hext : d.Extends b) (hld : c.layoutOf (.named d.name) = .ok ld) :
    (∀ (w w' : Workspace) (history history' : List TypeExpr), w.catalog = c → w'.catalog = c →
      w.cache = c.cacheAfter history → w'.cache = c.cacheAfter history' →
        ∃ offsets others, (fieldOffsets (.named b.name) w).1 = .ok offsets ∧
          (fieldOffsets (.named d.name) w').1 = .ok (offsets ++ others)) ∧
    (ld.LengthsNonneg →
      (∀ v data, v.InstanceOf d → c.encode v (some (.named d.name)) = .ok data →
        c.encode v (some (.named b.name)) = .ok (data.take lb.size.toNat) ∧
        (ld.Canonical v → ∃ given,
          c.decode (.named b.name) (data.take lb.size.toNat) = .ok (.record b.cls given) ∧
          given.map (·.1) = b.fields.map (·.name) ∧ ∀ f ∈ b.fields, ∃ x y,
            (Value.record b.cls given).field? f.name = some x ∧ v.field? f.name = some y ∧
              x.same y = true)) ∧
      ∀ data e k f, c.check (.named d.name) data = .error (.pack e) → b.fields[k]? = some f →
        e.frames.getLast? = some ((Form.model d.cls).frame d.name f.name k) →
          c.check (.named b.name) (data.take lb.size.toNat) =
            .error (.pack (e.retitled b.name))) := by
  refine ⟨?_, fun hl => ⟨fun v data hv hencode => ⟨?_, fun hcanonical => ?_⟩, ?_⟩⟩
  · rintro w w' history history' rfl hcatalog hcache hcache'
    obtain ⟨offsets, others, hb, hd⟩ := Catalog.byField_of_extension hbase hkind hlb hfind hext hld
      fun slot => (slot.start, slot.stop)
    rw [← hcatalog] at hld hcache'
    exact ⟨offsets, others, (offsets_of_layoutOf hcache hlb).trans hb,
      (offsets_of_layoutOf hcache' hld).trans hd⟩
  · exact Catalog.encode_of_extension hbase hkind hlb hfind hext hld hl hv hencode
  · exact Catalog.decode_of_extension hbase hkind hlb hfind hext hld hl hcanonical hencode
  · exact fun data e k f h hf hframe =>
      Catalog.check_of_extension hbase hkind hlb hfind hext hld hl h hf hframe

/-- A model with a number and a sign. -/
def entryModel : ModelDef :=
  .root .struct "Entry" [⟨"id", .fixedInt .u8, none, .null⟩, ⟨"sign", .named "Sign", none, .null⟩]
    none none

/-- The model with a time on top, and with a mark on top of that. -/
def markedModel : ModelDef :=
  (entryModel.extend "Timed" [⟨"time", .fixedInt .u16, none, .null⟩] none none).extend "Marked"
    [⟨"mark", .fixedBytes 1, none, .null⟩] none none

/-- Definitions of the models, and of the sign. -/
def entryCatalog : Catalog :=
  [.model markedModel, .model entryModel,
   .enumeration
     (.declare "Sign" true (.text "i8") ["MINUS", "PLUS"] [.int (-1), .int 1] (by decide))]

/-- The layout of the sign. -/
def signLayout : Layout := .enumeration (.mk "Sign" true .i8 [("MINUS", -1), ("PLUS", 1)])

/-- The layout of the model. -/
def entryLayout : Layout :=
  .composite (.model ⟨"Entry", [], false, ["id", "sign"]⟩)
    (.cons "id" (some "id") (.int .u8) (.cons "sign" (some "sign") signLayout .nil))

/-- The layout of the model with a time and a mark. -/
def markedLayout : Layout :=
  .composite (.model ⟨"Marked", ["Timed", "Entry"], false, ["id", "sign", "time", "mark"]⟩)
    (.cons "id" (some "id") (.int .u8) (.cons "sign" (some "sign") signLayout
      (.cons "time" (some "time") (.int .u16) (.cons "mark" (some "mark") (.bytes 1) .nil))))

/-- An instance of the model with a time and a mark. -/
def markedEntry : Value :=
  .record ⟨"Marked", ["Timed", "Entry"], false, ["id", "sign", "time", "mark"]⟩
    [("id", .int 7), ("sign", .member "Sign" "PLUS" true (.int 1)), ("time", .int 258),
     ("mark", .bytes [9])]

/-- An instance with a time and a mark is encoded as an entry too, and an unknown sign is rejected
in the same way. -/
theorem marked_entry_is_entry :
    entryCatalog.find? "Entry" = some (.model entryModel) ∧
    entryCatalog.layoutOf (.named "Entry") = .ok entryLayout ∧
    entryCatalog.find? "Marked" = some (.model markedModel) ∧
    markedModel.Extends entryModel ∧
    entryCatalog.layoutOf (.named "Marked") = .ok markedLayout ∧ markedLayout.LengthsNonneg ∧
    entryCatalog.encode markedEntry (some (.named "Entry")) = .ok [7, 1] ∧
    entryCatalog.check (.named "Marked") [7, 5, 2, 1, 9] =
      .error (.pack ⟨"Sign", .discriminant (.int 5) [-1, 1], [.field "Marked" "sign"]⟩) ∧
    entryCatalog.check (.named "Entry") [7, 5] =
      .error (.pack ⟨"Sign", .discriminant (.int 5) [-1, 1], [.field "Entry" "sign"]⟩) := by
  have hlb : entryCatalog.layoutOf (.named "Entry") = .ok entryLayout := by cbv
  have hld : entryCatalog.layoutOf (.named "Marked") = .ok markedLayout := by cbv
  have hl : markedLayout.LengthsNonneg :=
    ⟨trivial, trivial, trivial, (by decide : (0 : Int) ≤ 1), trivial⟩
  have hext : markedModel.Extends entryModel := by
    refine ⟨.extend _ _ _ _ (.extend _ _ _ _ .self), ?_⟩
    have hfields : markedModel.fields = entryModel.fields ++
        [⟨"time", .fixedInt .u16, none, .null⟩, ⟨"mark", .fixedBytes 1, none, .null⟩] := by cbv
    rw [hfields]
    exact fun f hf => List.mem_append_left _ hf
  obtain ⟨-, hmarked⟩ := extension_is_prefix (b := entryModel) (d := markedModel) rfl (by decide)
    hlb rfl hext hld
  obtain ⟨hencode, hcheck⟩ := hmarked hl
  have hfails : entryCatalog.check (.named "Marked") [7, 5, 2, 1, 9] =
      .error (.pack ⟨"Sign", .discriminant (.int 5) [-1, 1], [.field "Marked" "sign"]⟩) := by cbv
  refine ⟨rfl, hlb, rfl, hext, hld, hl, ?_, hfails, ?_⟩
  · exact (hencode markedEntry [7, 1, 2, 1, 9] ⟨markedModel, _, .self, rfl⟩ (by cbv)).1
  · exact hcheck _ _ 1 ⟨"sign", .named "Sign", none, .null⟩ hfails rfl rfl

end Session

end FixedLayout
