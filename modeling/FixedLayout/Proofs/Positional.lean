import FixedLayout.Proofs.Agreement
import FixedLayout.Proofs.Arguments

/-!
# Instances of tuple models

An instance of a tuple model is built from arguments by position, and its fields are reached by
position. So are the entries of a view of its packet, and these are unpacked to the same values. A
field that has the name of one of these operations hides it.

* `Layout.Lasts`, `Layout.lasts`: what looks like a value in canonical form looks so, whatever is
  added;
* `Session.HasItems`, `Session.hasItems_record`: the items of an instance;
* `Session.packedEntry`, `Session.packedEntry_record`: the entries of its packet;
* `Session.construct_by_position`: what comes of arguments by position.
-/

namespace FixedLayout

/-! ### Values that last -/

section Lasting

variable {s after : Store}

namespace Store

/-- What looks like an instance has been reached with at least one step. -/
theorem exists_record_of_value {id depth : Nat} {cls : ModelClass} {values : List (String × Value)}
    (h : s.recordValue depth id = .record cls values) :
    ∃ left given, depth = left + 1 ∧ s.records[id]? = some (cls, given) ∧
      given.map (fun g => (g.1, g.2.value s (s.recordValue left))) = values := by
  cases depth with
  | zero => cases h
  | succ left =>
    rw [recordValue] at h
    split at h
    · next cls' given hrecord =>
      cases h
      exact ⟨left, given, rfl, hrecord, rfl⟩
    · cases h

end Store

/-- What looks like a value of a layout in canonical form still looks so when things have been added
to the store, and to whoever follows instances further. A value that is cut off where instances are
followed no further ends in a null, and is not in canonical form. -/
def Layout.Lasts (s after : Store) (l : Layout) : Prop :=
  ∀ (o : Object) (depth further : Nat), depth ≤ further →
    l.Canonical (o.value s (s.recordValue depth)) →
      o.value after (after.recordValue further) = o.value s (s.recordValue depth)

/-- What looks like a plain value that is no object of its own is that value. -/
theorem Layout.lasts_of_plain {l : Layout}
    (h : ∀ (o : Object) depth, l.Canonical (o.value s (s.recordValue depth)) → ∃ v, o = .plain v) :
    l.Lasts s after := by
  intro o depth further _ hv
  obtain ⟨v, rfl⟩ := h o depth hv
  rfl

/-- An instance lasts if its fields do. -/
theorem Layout.lasts_of_record (hextends : s.Extends after) {l : Layout} (cls : ModelClass)
    (hl : ∀ v, l.Canonical v → ∃ values, v = .record cls values)
    (h : ∀ (given : List (String × Object)) depth further, depth ≤ further →
      l.Canonical (.record cls (given.map fun g => (g.1, g.2.value s (s.recordValue depth)))) →
        ∀ g ∈ given, g.2.value after (after.recordValue further) =
          g.2.value s (s.recordValue depth)) : l.Lasts s after := by
  intro o depth further hle hv
  obtain ⟨values, hvalue⟩ := hl _ hv
  rcases Store.eq_of_value hvalue with rfl | ⟨id, rfl⟩
  · rfl
  · have hvalue : s.recordValue depth id = .record cls values := hvalue
    obtain ⟨left, given, rfl, hrecord, rfl⟩ := Store.exists_record_of_value hvalue
    obtain ⟨further, rfl⟩ : ∃ n, further = n + 1 := ⟨further - 1, by omega⟩
    show after.recordValue (further + 1) id = s.recordValue (left + 1) id
    have hv : l.Canonical (s.recordValue (left + 1) id) := hv
    rw [hvalue] at hv ⊢
    have hlater := Store.getElem?_of_prefix hextends.records hrecord
    rw [Store.recordValue_succ hlater]
    refine congrArg (Value.record cls) (List.map_congr_left fun g hg => ?_)
    rw [h given left further (by omega) hv g hg]

/-- Values in canonical form last if those of each field do. -/
theorem Fields.values_last {depth further : Nat} (hle : depth ≤ further) : ∀ {fs : Fields},
    (∀ f ∈ fs.toList, f.2.2.Lasts s after) → ∀ {os : List Object},
      fs.Canonical (Object.values s (s.recordValue depth) os) →
        Object.values after (after.recordValue further) os =
          Object.values s (s.recordValue depth) os
  | _, _, [], _ => rfl
  | .nil, _, _ :: _, h => by cases h
  | .cons _ _ _ _, hfields, o :: os, ⟨_, _, heq, hv, hrest⟩ => by
    obtain ⟨hlayout, hothers⟩ := List.forall_mem_cons.1 hfields
    cases heq
    rw [Object.values, Object.values, hlayout o depth further hle hv,
      Fields.values_last hle hothers hrest]

mutual

/-- Whatever looks like a value in canonical form lasts. -/
theorem Layout.lasts (hextends : s.Extends after) : ∀ l : Layout, l.NamesNodup → l.Lasts s after
  | .int r, _ => Layout.lasts_of_plain fun o depth hv => by
    obtain ⟨n, hn, -⟩ := hv
    cases hvalue : o.value s (s.recordValue depth) with
    | int n => exact ⟨_, (Store.eq_of_value hvalue).resolve_right id⟩
    | member => exact ⟨_, (Store.eq_of_value hvalue).resolve_right id⟩
    | _ =>
      rw [hvalue] at hn
      cases hn
  | .bytes _, _ => Layout.lasts_of_plain fun o depth hv => by
    obtain ⟨content, hvalue, -⟩ := hv
    exact ⟨_, (Store.eq_of_value hvalue).resolve_right id⟩
  | .enumeration e, _ => Layout.lasts_of_plain fun o depth hv => by
    obtain ⟨x, -, payload, hvalue, -⟩ := hv
    exact ⟨_, (Store.eq_of_value hvalue).resolve_right id⟩
  | .unit cls literal, _ => by
    refine Layout.lasts_of_record hextends cls (fun v hv => ⟨[], hv⟩) ?_
    intro given depth further _ hv g hg
    have hv : Value.record cls _ = .record cls [] := hv
    cases given with
    | nil => cases hg
    | cons g given => cases hv
  | .composite (.model cls) fields, ⟨hnodup, hnames⟩ => by
    refine Layout.lasts_of_record hextends cls (fun v hv => ?_) ?_
    · obtain ⟨given, values, rfl, -⟩ := hv
      exact ⟨given, rfl⟩
    · intro given depth further hle hv g hg
      obtain ⟨_, heq, hperm, hcanonical⟩ := (Layout.canonical_model_iff hnodup).1 hv
      cases heq
      have hmem := List.mem_map_of_mem (f := fun g : String × Object =>
        (g.1, g.2.value s (s.recordValue depth))) hg
      obtain ⟨f, hf, hname⟩ :=
        Fields.mem_names_iff.1 (hperm.mem_iff.1 (List.mem_map_of_mem (f := (·.1)) hmem))
      exact fields.lasts hextends hnames f hf g.2 depth further hle
        (hcanonical f hf _ (hname ▸ hmem))
  | .composite .tuple fields, ⟨_, hnames⟩ => by
    intro o depth further hle hv
    obtain ⟨items, hvalue, hitems⟩ := hv
    rcases Store.eq_of_value hvalue with rfl | ⟨os, rfl, rfl⟩
    · rfl
    · exact congrArg Value.tuple
        (Fields.values_last hle (fields.lasts hextends hnames) hitems)
  | .array element n, hnames => by
    intro o depth further hle hv
    obtain ⟨items, hvalue, -, hitems⟩ := hv
    rcases Store.eq_of_value hvalue with rfl | ⟨os, rfl, rfl⟩
    · rfl
    · have helement := element.lasts hextends hnames
      refine congrArg Value.list ?_
      rw [Store.values_eq_map] at hitems ⊢
      rw [Store.values_eq_map]
      exact List.map_congr_left fun o ho =>
        helement o depth further hle (hitems _ (List.mem_map_of_mem ho))

theorem Fields.lasts (hextends : s.Extends after) : ∀ fs : Fields, fs.NamesNodup →
    ∀ f ∈ fs.toList, f.2.2.Lasts s after
  | .nil, _ => fun _ h => absurd h List.not_mem_nil
  | .cons _ _ layout rest, ⟨hlayout, hrest⟩ =>
    List.forall_mem_cons.2 ⟨layout.lasts hextends hlayout, rest.lasts hextends hrest⟩

end

end Lasting

/-! ### Instances of tuple models -/

namespace Session

/-- An item of a list is reached by its index, counted from either end. -/
theorem itemAt_eq {os : List Object} {o : Object} {i : Int} (h0 : -(os.length : Int) ≤ i)
    (h : os[entryIndex os.length i]? = some o) (w : Workspace) :
    itemAt os (.int i) w = (.ok o, w) := by
  have hnumber : (Value.int i).integerOrBool? = some i := rfl
  have hpos : ¬ (if i < 0 then i + (os.length : Int) else i) < 0 := by
    split <;> omega
  unfold entryIndex at h
  unfold itemAt
  simp only [hnumber, if_neg hpos, h]
  rfl

/-- Only the items that there are can be reached by an index. -/
theorem itemAt_of_outside {os : List Object} {i : Int}
    (h : ¬ (-(os.length : Int) ≤ i ∧ i < os.length)) (w : Workspace) :
    itemAt os (.int i) w = (.error .noEntry, w) := by
  have hnumber : (Value.int i).integerOrBool? = some i := rfl
  unfold itemAt
  simp only [hnumber]
  by_cases hneg : (if i < 0 then i + (os.length : Int) else i) < 0
  · rw [if_pos hneg]
    rfl
  · have hbeyond : os.length ≤ (if i < 0 then i + (os.length : Int) else i).toNat := by
      split at hneg <;> split <;> omega
    rw [if_neg hneg, List.getElem?_eq_none hbeyond]
    rfl

/-- An object has a number of items, which are what is found by the names of the fields: its length,
the tuple of its items and its indices agree. Indices are looked for in the tuple of the items, and
there are no such operations if a field has the name of this one. -/
structure HasItems (w : Workspace) (o : Object) (names : List String) (items : List Object) :
    Prop where
  length : length o w = (.ok names.length, w)
  fields : names.mapM (getField o) w = (.ok items, w)
  astuple : "astuple" ∉ names → astuple o w = (.ok items, w)
  inside : "astuple" ∉ names → ∀ i : Int, -(names.length : Int) ≤ i → i < names.length → ∃ item,
    items[entryIndex names.length i]? = some item ∧ index o (.int i) w = (.ok item, w)
  outside : "astuple" ∉ names → ∀ i : Int, ¬ (-(names.length : Int) ≤ i ∧ i < names.length) →
    index o (.int i) w = (.error .noEntry, w)
  hidden : "astuple" ∈ names → Session.astuple o w = (.error .unsuitable, w) ∧
    ∀ i : Int, index o (.int i) w = (.error .unsuitable, w)

section Instance

variable {w : Workspace} {id : Nat} {cls : ModelClass} {given : List (String × Object)}
  (hrecord : w.store.records[id]? = some (cls, given))

include hrecord

/-- The fields of an instance are found by their names. -/
theorem getFields_record (hnames : given.map (·.1) = cls.fieldNames)
    (hnodup : cls.fieldNames.Nodup) :
    cls.fieldNames.mapM (getField (.record id)) w = (.ok (given.map (·.2)), w) := by
  rw [← hnames] at hnodup ⊢
  rw [List.mapM_map]
  refine mapM_eq fun g hg => ?_
  show getField (.record id) g.1 w = _
  unfold getField
  simp only
  rw [bind_of_ok (instanceFields_eq hrecord)]
  simp only [lookup_of_mem hnodup hg]
  rfl

/-- There are no items if a field hides the operation that lists them. -/
theorem astuple_of_hidden (h : "astuple" ∈ given.map (·.1)) :
    astuple (.record id) w = (.error .unsuitable, w) :=
  bind_of_error (callable_of_mem hrecord h)

variable (hpositional : cls.positional = true)

include hpositional

theorem length_record : length (.record id) w = (.ok cls.fieldNames.length, w) := by
  obtain ⟨values, hvalue⟩ := valueOf_record hrecord
  unfold length
  rw [bind_of_ok (value_eq _ w), hvalue]
  simp only [Value.extent, hpositional, if_true]
  rfl

/-- An index is looked for among the items. -/
theorem index_record (i : Int) :
    index (.record id) (.int i) w =
      (astuple (.record id) >>= fun os => itemAt os (.int i)) w := by
  unfold index
  simp only
  rw [bind_of_ok (instanceFields_eq hrecord)]
  simp only [hpositional, if_true]

variable (hnames : given.map (·.1) = cls.fieldNames) (hnodup : cls.fieldNames.Nodup)

include hnames hnodup

/-- The items of an instance are its fields, in order of declaration. -/
theorem astuple_record (h : "astuple" ∉ cls.fieldNames) :
    astuple (.record id) w = (.ok (given.map (·.2)), w) := by
  have hfields : cls.fieldNames.mapM (fun name => given.lookup name) = some (given.map (·.2)) := by
    rw [← hnames] at hnodup ⊢
    exact mapM_of_forall fun g hg => lookup_of_mem hnodup hg
  unfold astuple
  rw [bind_of_ok (callable_of_not_mem hrecord (hnames ▸ h))]
  simp only
  rw [bind_of_ok (instanceFields_eq hrecord)]
  simp only [hpositional, if_true, hfields]
  rfl

/-- The items of an instance are its fields in order of declaration. -/
theorem hasItems_record : HasItems w (.record id) cls.fieldNames (given.map (·.2)) := by
  have hlen : (given.map (·.2)).length = cls.fieldNames.length := by
    rw [← hnames, List.length_map, List.length_map]
  have hindex : "astuple" ∉ cls.fieldNames → ∀ i : Int,
      index (.record id) (.int i) w = itemAt (given.map (·.2)) (.int i) w := fun h i =>
    (index_record hrecord hpositional i).trans
      (bind_of_ok (astuple_record hrecord hpositional hnames hnodup h))
  constructor
  case length => exact length_record hrecord hpositional
  case fields => exact getFields_record hrecord hnames hnodup
  case astuple => exact astuple_record hrecord hpositional hnames hnodup
  case inside =>
    intro h i h0 h1
    have hplace := entryIndex_lt h0 h1
    rw [← hlen] at h0 hplace ⊢
    have hitem := List.getElem?_eq_getElem (l := given.map (·.2))
      (i := entryIndex (given.map (·.2)).length i) (by omega)
    exact ⟨_, hitem, (hindex h i).trans (itemAt_eq h0 hitem w)⟩
  case outside =>
    intro h i hi
    rw [← hlen] at hi
    exact (hindex h i).trans (itemAt_of_outside hi w)
  case hidden =>
    intro h
    have hnone := astuple_of_hidden hrecord (hnames ▸ h)
    exact ⟨hnone, fun i => (index_record hrecord hpositional i).trans (bind_of_error hnone)⟩

end Instance

/-! ### Entries of packets -/

/-- The value of an entry of a view of the packet of an instance. -/
def packedEntry (o : Object) (i : Int) : Session Object := do
  unpack (← index (← borrow (← packInstance o)) (.int i))

/-- Unpacking a view only adds the value. -/
theorem IsView.unpack_extends {w : Workspace} {o : Object} {l : Layout} {buffer offset : Nat}
    {data : Bytes} {v : Value} (h : IsView w o l buffer offset data) (hv : l.decode data = .ok v) :
    ∃ x after, unpack o w = (.ok x, after) ∧ w.store.Extends after.store ∧
      after.store.valueOf x = v := by
  obtain ⟨view, count, rfl, hcell, hread⟩ := h.cell
  obtain ⟨hextends, hshows⟩ := Store.place_spec v w.store
  rw [unpack_view hcell rfl, hread]
  exact ⟨_, _, unpackBytes_eq hv, hextends, hshows.valueOf⟩

theorem Gains.extends {w after : Workspace} (h : Gains w after) : w.store.Extends after.store := by
  obtain ⟨views, rfl⟩ := h
  exact ⟨List.prefix_refl _, List.prefix_refl _, List.prefix_append _ _⟩

section Packed

variable {w : Workspace} {id : Nat} {cls : ModelClass} {given : List (String × Object)}
  {fields : Fields} (hrecord : w.store.records[id]? = some (cls, given))
  (hl : (Layout.composite (.model cls) fields).Regular)
  (hcanonical : (Layout.composite (.model cls) fields).Canonical (w.store.valueOf (.record id)))

include hrecord hl hcanonical

/-- What the fields of an instance in canonical form look like is not changed by what is added. -/
theorem valueOf_fields {after : Store} (hextends : w.store.Extends after) :
    w.store.valueOf (.record id) =
      .record cls (given.map fun g => (g.1, after.valueOf g.2)) := by
  have hlast := Layout.lasts hextends _ hl.names (.record id) w.store.records.length
    (after.records.length + 1) (by have := hextends.records.length_le; omega) hcanonical
  have hlater := Store.getElem?_of_prefix hextends.records hrecord
  exact hlast.symm.trans (Store.recordValue_succ hlater _)

/-- An instance with the same fields in the same order that equals one in canonical form has equal
fields. -/
theorem same_field {after : Store} (hextends : w.store.Extends after)
    (hnodup : (given.map (·.1)).Nodup) {values : List (String × Value)}
    (hnames : values.map (·.1) = given.map (·.1))
    (hsame : (Value.record cls values).same (w.store.valueOf (.record id)) = true) {k : Nat}
    {g : String × Object} (hg : given[k]? = some g) {x : Value}
    (hx : (values.map (·.2))[k]? = some x) : x.same (after.valueOf g.2) = true := by
  obtain ⟨f, hf, rfl⟩ := Option.map_eq_some_iff.1 (List.getElem?_map .. ▸ hx)
  have hname : f.1 = g.1 := by
    have hplace := congrArg (fun names => names[k]?) hnames
    simp only [List.getElem?_map, hf, hg, Option.map_some] at hplace
    exact Option.some.inj hplace
  rw [valueOf_fields hrecord hl hcanonical hextends, Value.same, Bool.and_eq_true] at hsame
  obtain ⟨y, hy, hkey, hvalue⟩ :=
    Value.exists_of_sameFields hsame.2 f (List.mem_of_getElem? hf)
  obtain ⟨g', hg', rfl⟩ := List.mem_map.1 hy
  -- there is only one field of this name
  have hlookup := lookup_of_mem hnodup hg'
  have hkey : g'.1 = g.1 := hkey.symm.trans hname
  rw [hkey, lookup_of_mem hnodup (List.mem_of_getElem? hg)] at hlookup
  rw [Option.some.inj hlookup]
  exact hvalue

/-- The entries of a view of the packet of an instance in canonical form are the fields of the
instance. -/
theorem packedEntry_record (hcls : w.catalog.HasPacked cls.name)
    (hlayout : (w.catalog.compile (.named cls.name) w.cache).1 =
      .ok (.composite (.model cls) fields))
    (hpositional : cls.positional = true) (hnames : given.map (·.1) = cls.fieldNames)
    (hfree : "pack" ∉ cls.fieldNames) {i : Int} (h0 : -(cls.fieldNames.length : Int) ≤ i)
    (h1 : i < cls.fieldNames.length) {g : String × Object}
    (hg : given[entryIndex cls.fieldNames.length i]? = some g) :
    ∃ entry last, packedEntry (.record id) i w = (.ok entry, last) ∧
      w.store.Extends last.store ∧
      (last.store.valueOf entry).same (last.store.valueOf g.2) = true := by
  have hfields : fields.names = cls.fieldNames := hl.fitting.1
  have hcount : fields.count = cls.fieldNames.length := by rw [← hfields, fields.length_names]
  obtain ⟨content, back, hpack, hlen, haccept, hback, hsame⟩ :=
    Layout.exists_packed hl.lengths hl.names hcanonical
  obtain ⟨-, hcheck⟩ := Layout.accept_eq_ok haccept
  obtain ⟨values, rfl, hvalues⟩ := Layout.exists_values hcheck hback
  have hpacked := (packInstance_eq hrecord hcls (hnames ▸ hfree)).trans
    (pack_of_ok (inferType_record hrecord) hlayout hpack)
  obtain ⟨root, lent, hborrow, hlent, hroot⟩ := isView_borrow hlen
    { w with cache := (w.catalog.compile (.named cls.name) w.cache).2 }
  have hn : (Layout.composite (.model cls) fields).entryCount? =
      some (cls.fieldNames.length : Int) := by
    rw [← hcount]
    exact if_pos hpositional
  obtain ⟨part, reached, hindex, hgains, slot, x, -, hx, hholds, hpart⟩ :=
    index_addsViews hl hcheck hback hn hroot h0 h1
  obtain ⟨entry, last, hunpack, hplaced, hentry⟩ := hpart.unpack_extends hholds.decode
  have hextends : w.store.Extends last.store := (hlent.trans hgains.extends).trans hplaced
  refine ⟨entry, last, ?_, hextends, ?_⟩
  · unfold packedEntry
    rw [bind_of_ok hpacked, bind_of_ok hborrow, bind_of_ok hindex]
    exact hunpack
  · have hform : (Form.model cls).positional = true := hpositional
    have hentries := Form.entries?_build hform hl.fitting.1 hvalues.names hl.names.1
    rw [Value.entryAt?_of_entries? hentries (by omega), entryIndex_natCast] at hx
    rw [hentry]
    refine same_field hrecord hl hcanonical hextends ?_ ?_ hsame hg hx
    · rw [hnames, ← hfields]
      exact hl.names.1
    · rw [hvalues.names, hfields, hnames]

end Packed

/-- The entries of a view of the packet of an instance of a tuple model that has a layout. -/
theorem packedEntry_of_layoutOf {w : Workspace} {name : String} {m : ModelDef} {id : Nat}
    {given : List (String × Object)} {l : Layout} {i : Int}
    (hrecord : w.store.records[id]? = some (m.cls, given))
    (hnames : given.map (·.1) = m.fields.map (·.name))
    (hd : w.catalog.find? name = some (.model m)) (hkind : m.kind = .tuple)
    (hcache : w.cache.Sound w.catalog) (hl : w.catalog.layoutOf (.named name) = .ok l)
    (hlengths : l.LengthsNonneg) (hcanonical : l.Canonical (w.store.valueOf (.record id)))
    (hfree : "pack" ∉ m.fields.map (·.name))
    (h0 : -(m.fields.length : Int) ≤ i) (h1 : i < m.fields.length) :
    ∃ item entry last, (given.map (·.2))[entryIndex m.fields.length i]? = some item ∧
      packedEntry (.record id) i w = (.ok entry, last) ∧
      (last.store.valueOf entry).same (last.store.valueOf item) = true := by
  have hname : m.cls.name = name := Catalog.name_of_find hd
  have hregular := Catalog.regular_of_layoutOf hl hlengths
  have hlayout := Catalog.compile_of_layoutOf hcache hl
  obtain ⟨-, fields, -, -, rfl⟩ := (Catalog.hasLayout_model_iff hd (by rw [hkind]; nofun)).1
    (Catalog.layoutOf_eq_ok_iff.1 hl)
  have hlen : m.cls.fieldNames.length = m.fields.length := List.length_map _
  have hcount : given.length = m.fields.length := by
    rw [← List.length_map (·.1), hnames, List.length_map]
  have hplace := entryIndex_lt h0 h1
  obtain ⟨g, hg⟩ : ∃ g, given[entryIndex m.fields.length i]? = some g :=
    ⟨_, List.getElem?_eq_getElem (by omega)⟩
  rw [← hlen] at h0 h1 hg ⊢
  rw [← hname] at hd hlayout
  obtain ⟨entry, last, hrun, -, hsame⟩ := packedEntry_record hrecord hregular hcanonical
    ⟨m, hd, by rw [hkind]; nofun⟩ hlayout (decide_eq_true hkind) hnames hfree h0 h1 hg
  refine ⟨_, entry, last, ?_, hrun, hsame⟩
  rw [List.getElem?_map, hg]
  rfl

/-- A tuple model takes arguments by position as well as by name. Exactly if there are more of them
than fields, or if a field is given in both ways, an argument is in excess; the values do not matter
then. Nothing is changed by a construction that fails. In all other cases the arguments by position
might as well be given by the names of the first fields, in any order in which the arguments by name
keep their own: all of what comes of it is the same, be it an instance or a list of faults. A field
that has the name of the new instance cannot be given by name.

The instance has as many items as there are fields. They are what is found by the names of the
fields in order of declaration, and are reached by indices from either end, unless a field hides the
operation that lists them. If the instance has canonical form, they equal what is unpacked from the
entries of a view of its packet, unless a field hides the operation that packs it.

No length is negative in a class that can be made, since the validation of fields refuses bounds
below zero. `Session.defineModel` does not repeat that test. -/
theorem construct_by_position {w : Workspace} {name : String} {m : ModelDef}
    (hd : w.catalog.find? name = some (.model m)) (hkind : m.kind = .tuple) (args : List Object)
    {kwargs : List (String × Object)} (hkeys : (kwargs.map (·.1)).Nodup) :
    ((∃ fault after, construct name args kwargs w = (.error fault, after) ∧ fault.IsTypeFault) ↔
      m.Misbound args.length (kwargs.map (·.1))) ∧
    (∀ fault after, construct name args kwargs w = (.error fault, after) → after = w) ∧
    ("self" ∉ m.fields.map (·.name) → ¬ m.Misbound args.length (kwargs.map (·.1)) →
      ∀ keywords : List (String × Object),
        keywords.Perm ((m.fields.map (·.name)).zip args ++ kwargs) → kwargs.Sublist keywords →
          construct name args kwargs w = construct name [] keywords w) ∧
    ∀ o after, construct name args kwargs w = (.ok o, after) → ∃ items : List Object,
      HasItems after o (m.fields.map (·.name)) items ∧
      ("pack" ∈ m.fields.map (·.name) → packInstance o after = (.error .unsuitable, after)) ∧
      ∀ l, w.cache.Sound w.catalog → w.catalog.layoutOf (.named name) = .ok l → l.LengthsNonneg →
        l.Canonical (after.store.valueOf o) → "pack" ∉ m.fields.map (·.name) →
          ∀ i : Int, -(m.fields.length : Int) ≤ i → i < m.fields.length →
            ∃ item entry last, items[entryIndex m.fields.length i]? = some item ∧
              packedEntry o i after = (.ok entry, last) ∧
              (last.store.valueOf entry).same (last.store.valueOf item) = true := by
  refine ⟨construct_isTypeFault_iff hd hkind hkeys args,
    fun _ _ hrun => construct_of_error hd hkind hkeys hrun,
    fun hself hbound _ => construct_by_name hd hkind hkeys hself hbound, fun o after hrun => ?_⟩
  obtain ⟨id, store, given, rfl, rfl, hrecord, hnames⟩ :=
    exists_record_of_construct hd hkind hkeys hrun
  have hitems : HasItems { w with store } (.record id) m.cls.fieldNames (given.map (·.2)) :=
    hasItems_record hrecord (decide_eq_true hkind) hnames m.names_nodup
  refine ⟨_, hitems, fun hhides => packInstance_of_hidden hrecord (hnames ▸ hhides), ?_⟩
  intro l hcache hl hlengths hcanonical hfree i h0 h1
  exact packedEntry_of_layoutOf hrecord hnames hd hkind hcache hl hlengths hcanonical hfree h0 h1

/-- A pair of a number and an accent. -/
def pairModel : ModelDef :=
  .root .tuple "Pair"
    [⟨"left", .fixedInt .u8, none, .null⟩, ⟨"accent", .named "Accent", none, .null⟩] none none

/-- A workspace with the definitions of messages, and with instances. -/
def instanceWorkspace (records : List (ModelClass × List (String × Object))) : Workspace :=
  ⟨messageCatalog, [], ⟨[], records, []⟩, []⟩

/-- An accent, and a pair that has been made with it. -/
def pairedInstances : List (ModelClass × List (String × Object)) :=
  [(⟨"Accent", [], false, []⟩, []),
   (⟨"Pair", [], true, ["left", "accent"]⟩, [("left", .plain (.int 3)), ("accent", .record 0)])]

/-- A number by position and an accent by name make a pair, whose first entry is the number; a
number by position and one by name do not. -/
theorem pair_is_built_by_position :
    messageCatalog.find? "Pair" = some (.model pairModel) ∧ pairModel.kind = .tuple ∧
    construct "Pair" [.plain (.int 3)] [("accent", .record 0)]
        (instanceWorkspace (pairedInstances.take 1)) =
      construct "Pair" [] [("accent", .record 0), ("left", .plain (.int 3))]
        (instanceWorkspace (pairedInstances.take 1)) ∧
    (∃ fault after, construct "Pair" [.plain (.int 3)] [("left", .plain (.int 4))]
      (instanceWorkspace (pairedInstances.take 1)) = (.error fault, after) ∧ fault.IsTypeFault) ∧
    ∃ entry last, packedEntry (.record 1) (-2) (instanceWorkspace pairedInstances) =
      (.ok entry, last) ∧ (last.store.valueOf entry).same (.int 3) = true := by
  have hd : messageCatalog.find? "Pair" = some (.model pairModel) := by cbv
  have hmade : construct "Pair" [.plain (.int 3)] [("accent", .record 0)]
      (instanceWorkspace (pairedInstances.take 1)) =
        (.ok (.record 1), instanceWorkspace pairedInstances) := by cbv
  have haccent : ([("accent", .record 0)].map fun g : String × Object => g.1).Nodup := by decide
  have hleft : ([("left", .plain (.int 4))].map fun g : String × Object => g.1).Nodup := by decide
  obtain ⟨-, -, hnamed, hitems⟩ := construct_by_position
    (w := instanceWorkspace (pairedInstances.take 1)) hd rfl [.plain (.int 3)] haccent
  obtain ⟨hrejected, -⟩ := construct_by_position
    (w := instanceWorkspace (pairedInstances.take 1)) hd rfl [.plain (.int 3)] hleft
  refine ⟨hd, rfl, hnamed (by decide) ?_ _ ?_ ?_, hrejected.2 ?_, ?_⟩
  · rintro (h | ⟨key, hkey, hplace⟩)
    · exact absurd h (by decide)
    · cases List.mem_singleton.1 hkey
      exact absurd hplace (by decide)
  · exact .swap _ _ _
  · exact .cons_cons _ (List.nil_sublist _)
  · exact .inr ⟨"left", by decide, by decide⟩
  · obtain ⟨items, hhas, -, hpacked⟩ := hitems _ _ hmade
    have htuple : astuple (.record 1) (instanceWorkspace pairedInstances) =
        (.ok [.plain (.int 3), .record 0], instanceWorkspace pairedInstances) := by cbv
    cases (hhas.astuple (by decide)).symm.trans htuple
    have hcanonical : pairLayout.Canonical
        ((instanceWorkspace pairedInstances).store.valueOf (.record 1)) :=
      Catalog.canonical_pair (by decide) (by decide)
    obtain ⟨item, entry, last, hitem, hrun, hsame⟩ := hpacked pairLayout (Cache.sound_nil _)
      layoutOf_pair ⟨trivial, trivial, trivial⟩ hcanonical (by decide) (-2) (by decide) (by decide)
    obtain rfl : .plain (.int 3) = item := Option.some.inj hitem
    exact ⟨entry, last, hrun, hsame⟩

/-- A class with a field that has the name of the operation that lists the items. -/
def singleModel : ModelDef :=
  .root .tuple "Single" [⟨"astuple", .fixedInt .u8, some (.int 0), .null⟩] none none

/-- A workspace with the definition of the class, and with instances. -/
def singleWorkspace (records : List (ModelClass × List (String × Object))) : Workspace :=
  ⟨[.model singleModel], [], ⟨[], records, []⟩, []⟩

/-- An instance of the class. -/
def singleInstance : List (ModelClass × List (String × Object)) :=
  [(⟨"Single", [], true, ["astuple"]⟩, [("astuple", .plain (.int 5))])]

/-- A number by position makes an instance with one item, which is not listed and not reached by
its index. -/
theorem hidden_items_are_not_listed :
    construct "Single" [.plain (.int 5)] [] (singleWorkspace []) =
      (.ok (.record 0), singleWorkspace singleInstance) ∧
    length (.record 0) (singleWorkspace singleInstance) =
      (.ok 1, singleWorkspace singleInstance) ∧
    astuple (.record 0) (singleWorkspace singleInstance) =
      (.error .unsuitable, singleWorkspace singleInstance) ∧
    index (.record 0) (.int 0) (singleWorkspace singleInstance) =
      (.error .unsuitable, singleWorkspace singleInstance) :=
  ⟨by cbv, by cbv, by cbv, by cbv⟩

end Session

end FixedLayout
