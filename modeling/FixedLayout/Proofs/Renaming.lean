import FixedLayout.Proofs.Compilation
import FixedLayout.Proofs.Options
import FixedLayout.Codec

/-!
# Changed accessors

The accessors of fields say by which names parts of a view are reached. Nothing else depends on
them: catalogs that differ only in accessors have the same sizes, offsets, checks and encodings.

* `Layout.bare`: a layout without its accessors. `Layout.WorksLike`: layouts that work alike;
  `Layout.worksLike_of_bare`: those that differ in nothing but accessors do;
* `FieldDecl.exposed?`: the name by which a field can be reached, said without its options;
* `Catalog.Alike`: catalogs that differ only in accessors. `Catalog.Alike.bare_eq`: so do their
  layouts;
* `ModelDef.AccessorsFit`: accessors that do not get in each other's way;
  `Catalog.Alike.wellFormed_iff`: the changes of accessors that leave a type with a layout.
-/

namespace FixedLayout

/-! ### Layouts without accessors -/

mutual

/-- A layout without its accessors. -/
def Layout.bare : Layout → Layout
  | .int r => .int r
  | .bytes length => .bytes length
  | .unit cls literal => .unit cls literal
  | .enumeration e => .enumeration e
  | .composite form fields => .composite form fields.bare
  | .array element length => .array element.bare length

/-- Fields without their accessors. -/
def Fields.bare : Fields → Fields
  | .nil => .nil
  | .cons name _ layout rest => .cons name none layout.bare rest.bare

end

/-- The place of a slot: its name, its index, and where it starts and ends. -/
def Slot.place (slot : Slot) : String × Int × Int × Int :=
  (slot.name, slot.index, slot.start, slot.stop)

/-- Layouts that have the same name and the same slots in the same places, and do the same with all
bytes and with all values. -/
structure Layout.WorksLike (l l' : Layout) : Prop where
  typeName : l.typeName = l'.typeName
  size : l.size = l'.size
  places : l.slots.map Slot.place = l'.slots.map Slot.place
  check : l.check = l'.check
  decode : l.decode = l'.decode
  encode : l.encode = l'.encode

/-- Fields that have the same names and places, and do the same with all bytes and with all
values. -/
structure Fields.WorksLike (fs fs' : Fields) : Prop where
  names : fs.names = fs'.names
  typeNames : fs.typeNames = fs'.typeNames
  size : fs.size = fs'.size
  places : ∀ index start,
    (fs.place index start).map Slot.place = (fs'.place index start).map Slot.place
  check : ∀ frame, fs.check frame = fs'.check frame
  decode : fs.decode = fs'.decode
  encode : ∀ typeName, fs.encode typeName = fs'.encode typeName

theorem Layout.WorksLike.refl (l : Layout) : l.WorksLike l :=
  ⟨rfl, rfl, rfl, rfl, rfl, rfl⟩

theorem Layout.WorksLike.symm {l l' : Layout} (h : l.WorksLike l') :
    l'.WorksLike l :=
  ⟨h.typeName.symm, h.size.symm, h.places.symm, h.check.symm, h.decode.symm, h.encode.symm⟩

theorem Layout.WorksLike.trans {l l' l'' : Layout} (h : l.WorksLike l')
    (h' : l'.WorksLike l'') : l.WorksLike l'' :=
  ⟨h.typeName.trans h'.typeName, h.size.trans h'.size, h.places.trans h'.places,
    h.check.trans h'.check, h.decode.trans h'.decode, h.encode.trans h'.encode⟩

/-- Composites whose fields work alike do so too. -/
theorem Fields.WorksLike.composite {fs fs' : Fields} (h : fs.WorksLike fs')
    (form : Form) : (Layout.composite form fs).WorksLike (.composite form fs') := by
  have htypeName : (Layout.composite form fs).typeName = (Layout.composite form fs').typeName := by
    cases form with
    | model cls => rfl
    | tuple => rw [Layout.typeName, Layout.typeName, h.typeNames]
  refine ⟨htypeName, h.size, h.places 0 0, ?_, ?_, ?_⟩
  · funext data
    rw [Layout.check, Layout.check, htypeName, h.check]
  · funext data
    rw [Layout.decode, Layout.decode, h.decode]
  · funext v
    rw [Layout.encode, Layout.encode, htypeName, h.names, h.encode]

/-- Arrays whose elements work alike do so too. -/
theorem Layout.WorksLike.array {element element' : Layout}
    (h : element.WorksLike element') (n : Int) :
    (Layout.array element n).WorksLike (.array element' n) := by
  have htypeName : (Layout.array element n).typeName = (Layout.array element' n).typeName := by
    rw [Layout.typeName, Layout.typeName, h.typeName]
  refine ⟨htypeName, congrArg (· * n) h.size, rfl, ?_, ?_, ?_⟩
  · funext data
    rw [Layout.check, Layout.check, htypeName, h.check, h.size]
  · funext data
    rw [Layout.decode, Layout.decode, h.decode, h.size]
  · funext v
    rw [Layout.encode, Layout.encode, htypeName, h.encode, h.size]

theorem Fields.WorksLike.cons {layout layout' : Layout} {rest rest' : Fields}
    (h : layout.WorksLike layout') (hrest : rest.WorksLike rest') (name : String)
    (accessor accessor' : Option String) :
    (Fields.cons name accessor layout rest).WorksLike
      (.cons name accessor' layout' rest') where
  names := congrArg (name :: ·) hrest.names
  typeNames := by rw [Fields.typeNames, Fields.typeNames, h.typeName, hrest.typeNames]
  size := by rw [Fields.size, Fields.size, h.size, hrest.size]
  places index start := by
    rw [Fields.place, Fields.place, List.map_cons, List.map_cons, h.size, hrest.places]
    rfl
  check frame := by
    funext index start data
    rw [Fields.check, Fields.check, h.check, h.size, hrest.check]
  decode := by
    funext start data
    rw [Fields.decode, Fields.decode, h.decode, h.size, hrest.decode]
  encode typeName := by
    funext start values
    cases values with
    | nil => rfl
    | cons v values => rw [Fields.encode, Fields.encode, h.encode, h.size, hrest.encode]

mutual

/-- Accessors make no difference to what a layout does with bytes and values. -/
theorem Layout.worksLike_bare : ∀ l : Layout, l.bare.WorksLike l
  | .int r => .refl (.int r)
  | .bytes length => .refl (.bytes length)
  | .unit cls literal => .refl (.unit cls literal)
  | .enumeration e => .refl (.enumeration e)
  | .composite form fields => fields.worksLike_bare.composite form
  | .array element length => element.worksLike_bare.array length

theorem Fields.worksLike_bare (fs : Fields) : fs.bare.WorksLike fs := by
  cases fs with
  | nil => exact ⟨rfl, rfl, rfl, fun _ _ => rfl, fun _ => rfl, rfl, fun _ => rfl⟩
  | cons name accessor layout rest =>
    exact .cons layout.worksLike_bare rest.worksLike_bare name none accessor

end

theorem Layout.worksLike_of_bare {l l' : Layout} (h : l.bare = l'.bare) :
    l.WorksLike l' :=
  l.worksLike_bare.symm.trans (h ▸ l'.worksLike_bare)

/-! ### Accessors of fields -/

/-- The name by which a field can be reached: none if its accessor is `false`, the name that is set
if there is one, and its own name otherwise. -/
def FieldDecl.exposed? (f : FieldDecl) : Option String :=
  match f.accessor with
  | .bool false => none
  | .text custom => some custom
  | _ => some f.name

/-- Options of a field are accepted exactly if its accessor is legal or a zero. -/
theorem FieldDecl.exists_options_iff {f : FieldDecl} :
    (∃ options, f.options = .ok options) ↔ LegalAccessor f.accessor ∨ f.accessor.IsZero := by
  unfold FieldDecl.options
  rw [← Options.exists_reads_iff]
  constructor
  · rintro ⟨o, h⟩
    exact ⟨_, (Options.ofValues?_eq_ok_iff.1 h).2.2.1⟩
  · rintro ⟨read, h⟩
    exact ⟨⟨.null, read, .null⟩,
      Options.ofValues?_eq_ok_iff.2 ⟨.absent, ⟨nofun, nofun⟩, h, rfl, rfl⟩⟩

/-- Accepted options stand for the name by which the field can be reached. -/
theorem FieldDecl.accessorName?_eq {f : FieldDecl} {options : Options}
    (h : f.options = .ok options) : f.accessorName? = f.exposed? := by
  have hreads := (Options.ofValues?_eq_ok_iff.1 h).2.2.1
  rw [Catalog.accessorName?_of_options h]
  unfold Options.accessorName exposed?
  generalize options.accessor = read at hreads
  generalize f.accessor = given at hreads
  cases hreads with
  | zero hzero => cases hzero <;> rfl
  | _ => rfl

theorem filterMap_accessorName? {fs : List FieldDecl}
    (h : ∀ f ∈ fs, ∃ options, f.options = .ok options) :
    fs.filterMap FieldDecl.accessorName? = fs.filterMap FieldDecl.exposed? :=
  List.filterMap_congr fun f hf => by
    obtain ⟨options, hoptions⟩ := h f hf
    exact FieldDecl.accessorName?_eq hoptions

/-! ### Catalogs that differ in accessors -/

/-- Two fields that differ at most in their accessors. -/
structure FieldDecl.Alike (f f' : FieldDecl) : Prop where
  name : f.name = f'.name
  type : f.type = f'.type
  default : f.default = f'.default

/-- Two models that differ at most in the accessors of their fields. -/
structure ModelDef.Alike (m m' : ModelDef) : Prop where
  kind : m.kind = m'.kind
  name : m.name = m'.name
  bases : m.bases = m'.bases
  fields : List.Forall₂ FieldDecl.Alike m.fields m'.fields
  value : m.value = m'.value
  repr : m.repr = m'.repr

/-- Two definitions that differ at most in the accessors of fields. -/
inductive Definition.Alike : Definition → Definition → Prop
  | model {m m' : ModelDef} : m.Alike m' → Alike (.model m) (.model m')
  | enumeration (e : EnumDef) : Alike (.enumeration e) (.enumeration e)

/-- Two catalogs of the same definitions, which differ at most in the accessors of fields. -/
def Catalog.Alike (c c' : Catalog) : Prop := List.Forall₂ Definition.Alike c c'

theorem ModelDef.Alike.symm {m m' : ModelDef} (h : m.Alike m') : m'.Alike m :=
  ⟨h.kind.symm, h.name.symm, h.bases.symm,
    h.fields.flip.imp fun _ _ hf => ⟨hf.name.symm, hf.type.symm, hf.default.symm⟩,
    h.value.symm, h.repr.symm⟩

theorem FieldDecl.names_eq_of_alike {fs fs' : List FieldDecl} (h : List.Forall₂ Alike fs fs') :
    fs.map (·.name) = fs'.map (·.name) := by
  induction h with
  | nil => rfl
  | cons hf _ ih => rw [List.map_cons, List.map_cons, hf.name, ih]

/-- Each field of a model has a counterpart in one that is alike. -/
theorem ModelDef.Alike.exists_field {m m' : ModelDef} (h : m.Alike m') {f : FieldDecl}
    (hf : f ∈ m.fields) : ∃ f' ∈ m'.fields, f.Alike f' := by
  obtain ⟨f', hmem⟩ := Catalog.exists_mem_zip h.fields.length_eq hf
  exact ⟨f', (List.of_mem_zip hmem).2, List.forall₂_zip h.fields hmem⟩

/-- The class of instances is the same. -/
theorem ModelDef.Alike.cls_eq {m m' : ModelDef} (h : m.Alike m') : m.cls = m'.cls := by
  unfold cls
  rw [h.name, h.bases, h.kind, FieldDecl.names_eq_of_alike h.fields]

theorem Definition.Alike.name_eq {d d' : Definition} (h : d.Alike d') : d.name = d'.name := by
  cases h with
  | model hm => exact hm.name
  | enumeration e => rfl

namespace Catalog

variable {c c' : Catalog} {t : TypeExpr} {constraints : List Constraint}

theorem Alike.symm (h : c.Alike c') : c'.Alike c :=
  h.flip.imp fun _ _ hd => by
    cases hd with
    | model hm => exact .model hm.symm
    | enumeration e => exact .enumeration e

/-- What one catalog has for a name is like what the other one has. -/
theorem Alike.exists_find? (h : c.Alike c') {name : String} {d : Definition}
    (hd : c.find? name = some d) : ∃ d', c'.find? name = some d' ∧ d.Alike d' := by
  unfold find? at *
  induction h with
  | nil => cases hd
  | @cons first first' rest rest' hfirst _ ih =>
    have hname := hfirst.name_eq
    rw [List.find?_cons] at hd ⊢
    rw [← hname]
    cases hmatch : first.name == name with
    | true =>
      rw [hmatch] at hd
      cases hd
      exact ⟨first', rfl, hfirst⟩
    | false =>
      rw [hmatch] at hd
      exact ih hd

theorem Alike.exists_model (h : c.Alike c') {name : String} {m : ModelDef}
    (hd : c.find? name = some (.model m)) :
    ∃ m', c'.find? name = some (.model m') ∧ m.Alike m' := by
  obtain ⟨d', hd', halike⟩ := h.exists_find? hd
  cases halike with
  | model hm => exact ⟨_, hd', hm⟩

theorem Alike.find?_enumeration (h : c.Alike c') {name : String} {e : EnumDef}
    (hd : c.find? name = some (.enumeration e)) : c'.find? name = some (.enumeration e) := by
  obtain ⟨d', hd', halike⟩ := h.exists_find? hd
  cases halike with
  | enumeration => exact hd'

end Catalog

/-- Units that are alike have the same layout. -/
theorem ModelDef.Alike.compileUnit_eq {m m' : ModelDef} (h : m.Alike m') :
    m.compileUnit = m'.compileUnit := by
  have hempty : m.fields.isEmpty = m'.fields.isEmpty := by
    have hfields := h.fields
    generalize m.fields = fs, m'.fields = fs' at hfields
    cases hfields <;> rfl
  unfold compileUnit
  rw [hempty, h.name, h.value, h.repr, h.cls_eq]

/-! ### Layouts that differ in accessors -/

theorem entryFields_bare {ls ls' : List Layout}
    (h : List.Forall₂ (fun l l' : Layout => l.bare = l'.bare) ls ls') (index : Nat) :
    (entryFields index ls).bare = (entryFields index ls').bare := by
  induction h generalizing index with
  | nil => rfl
  | cons hl _ ih =>
    rw [entryFields, entryFields, Fields.bare, Fields.bare, hl, ih]

namespace Catalog

variable {c c' : Catalog} {t : TypeExpr} {constraints : List Constraint} {l l' : Layout}

/-- Fields whose layouts differ only in accessors do so together. -/
theorem ofList_bare {fs fs' : List FieldDecl} (h : List.Forall₂ FieldDecl.Alike fs fs')
    {ls : List Layout} (hlen : fs.length = ls.length)
    (hls : ∀ f l, (f, l) ∈ fs.zip ls → ∀ l', c'.HasLayout f.type [] l' → l.bare = l'.bare)
    {fields : List (String × Option String × Layout)}
    (hfields : List.Forall₂ c'.HasField fs' fields) :
    (Fields.ofList (fs.zipWith (fun f l => (f.name, f.accessorName?, l)) ls)).bare =
      (Fields.ofList fields).bare := by
  induction h generalizing ls fields with
  | nil =>
    cases hfields
    rw [List.zipWith_nil_left]
  | @cons f f' fs fs' hf _ ih =>
    cases hfields with
    | cons hfield hrest =>
      obtain ⟨l', hl', options, -, rfl⟩ := hfield
      cases ls with
      | nil => cases hlen
      | cons l ls =>
        have hfirst : l.bare = l'.bare := hls f l (List.mem_cons_self ..) l' (hf.type ▸ hl')
        have hothers := ih (Nat.succ.inj hlen)
          (fun g m hmem => hls g m (List.mem_cons_of_mem _ hmem)) hrest
        rw [List.zipWith_cons_cons, Fields.ofList, Fields.ofList, Fields.bare, Fields.bare, hf.name,
          hfirst, hothers]

/-- The layouts of a type differ only in accessors if the definitions do. -/
theorem Alike.bare_eq (hc : c.Alike c') (h : c.HasLayout t constraints l) :
    ∀ l', c'.HasLayout t constraints l' → l.bare = l'.bare := by
  induction h with
  | annotated _ ih => exact fun l' h' => ih l' (hasLayout_annotated_iff.1 h')
  | int hr =>
    intro l' h'
    obtain ⟨-, rfl⟩ := (hasLayout_iff_of_repr hr (by rintro _ _ ⟨⟩)).1 h'
    rfl
  | bytes hr hn =>
    intro l' h'
    obtain ⟨-, n, hn', rfl⟩ := (hasLayout_builtin_iff hr).1 h'
    rw [hn] at hn'
    cases hn'
    rfl
  | list hr _ hn ih =>
    intro l' h'
    obtain ⟨e, he, n, hn', rfl⟩ := (hasLayout_list_iff hr).1 h'
    rw [hn] at hn'
    cases hn'
    rw [Layout.bare, Layout.bare, ih e he]
  | @tuple elements _ ls hr _ hlen _ ih =>
    intro l' h'
    obtain ⟨-, ls', hls', rfl⟩ := (hasLayout_tuple_iff hr).1 h'
    have hbare : List.Forall₂ (fun l l' : Layout => l.bare = l'.bare) ls ls' := by
      refine List.forall₂_iff_get.2 ⟨hlen.symm.trans hls'.length_eq, fun i h1 h2 => ?_⟩
      have hi : i < elements.length := hlen ▸ h1
      have hmem : (elements[i], ls[i]) ∈ elements.zip ls :=
        List.mem_iff_getElem.2 ⟨i, by simp [hi, h1], by simp⟩
      exact ih _ _ hmem _ ((List.forall₂_iff_get.1 hls').2 i hi h2)
    rw [Layout.bare, Layout.bare, entryFields_bare hbare]
  | enumeration hr hd he =>
    intro l' h'
    have he' := (hasLayout_enumeration_iff (hc.find?_enumeration hd)).1
      ((hasLayout_named_iff hr).1 h')
    rw [he] at he'
    cases he'
    rfl
  | unit hr hd hkind hl =>
    intro l' h'
    obtain ⟨m', hd', halike⟩ := hc.exists_model hd
    have hl' := (hasLayout_unit_iff hd' (halike.kind ▸ hkind)).1 ((hasLayout_named_iff hr).1 h')
    rw [← halike.compileUnit_eq, hl] at hl'
    cases hl'
    rfl
  | model hr hd hkind _ _ hlen _ _ _ ih =>
    intro l' h'
    obtain ⟨m', hd', halike⟩ := hc.exists_model hd
    obtain ⟨-, fields, hfields, -, rfl⟩ :=
      (hasLayout_model_iff hd' (halike.kind ▸ hkind)).1 ((hasLayout_named_iff hr).1 h')
    rw [Layout.bare, Layout.bare, halike.cls_eq, ofList_bare halike.fields hlen ih hfields]

/-! ### Changes that leave a layout -/

/-- A class uses itself and what the types of its fields use. -/
theorem uses_named_iff {name other : String} : c.Uses (.named name) other ↔ other = name ∨
    ∃ m, c.find? name = some (.model m) ∧ ∃ f ∈ m.fields, c.Uses f.type other := by
  constructor
  · rintro ⟨first, hfirst, hreach⟩
    cases hfirst
    rcases hreach.cases_head with rfl | ⟨next, ⟨m, hd, f, hf, hmentions⟩, hrest⟩
    · exact .inl rfl
    · exact .inr ⟨m, hd, f, hf, next, hmentions, hrest⟩
  · rintro (rfl | ⟨m, hd, f, hf, next, hmentions, hrest⟩)
    · exact ⟨other, .named other, .refl⟩
    · exact ⟨name, .named name, .head ⟨m, hd, f, hf, hmentions⟩ hrest⟩

/-- What a type mentions, another one that mentions it uses too. -/
theorem Uses.of_mentions {t' : TypeExpr} {name : String} (h : c.Uses t name)
    (hmentions : ∀ first, t.Mentions first → t'.Mentions first) : c.Uses t' name := by
  obtain ⟨first, hfirst, hname⟩ := h
  exact ⟨first, hmentions first hfirst, hname⟩

theorem Alike.refers (hc : c.Alike c') {name other : String} (h : c.Refers name other) :
    c'.Refers name other := by
  obtain ⟨m, hd, f, hf, hmentions⟩ := h
  obtain ⟨m', hd', halike⟩ := hc.exists_model hd
  obtain ⟨f', hf', hff'⟩ := halike.exists_field hf
  exact ⟨m', hd', f', hf', hff'.type ▸ hmentions⟩

theorem Alike.uses (hc : c.Alike c') {name : String} (h : c.Uses t name) : c'.Uses t name := by
  obtain ⟨first, hfirst, hname⟩ := h
  exact ⟨first, hfirst, Relation.ReflTransGen.mono (fun _ _ => hc.refers) _ _ hname⟩

end Catalog

/-- The accessors of a model are accepted, and no two of its fields are reached by one name. -/
def ModelDef.AccessorsFit (m : ModelDef) : Prop :=
  (∀ f ∈ m.fields, LegalAccessor f.accessor ∨ f.accessor.IsZero) ∧
    (m.fields.filterMap FieldDecl.exposed?).Nodup

/-- What the accessors of a model have to meet for the model to have a layout. -/
theorem ModelDef.accessorsFit_iff {m : ModelDef} : m.AccessorsFit ↔
    (∀ f ∈ m.fields, ∃ options, f.options = .ok options) ∧
      (m.fields.filterMap FieldDecl.accessorName?).Nodup := by
  unfold AccessorsFit
  simp only [← FieldDecl.exists_options_iff]
  exact and_congr_right fun h => by rw [filterMap_accessorName? h]

/-- Suppressing accessors of fitting ones leaves fitting ones. -/
theorem ModelDef.AccessorsFit.of_suppressed {m m' : ModelDef} (h : m.AccessorsFit)
    (hfields : List.Forall₂ FieldDecl.Alike m.fields m'.fields)
    (hsuppressed : List.Forall₂
      (fun f f' : FieldDecl => f'.accessor = f.accessor ∨ f'.accessor = .bool false)
      m.fields m'.fields) : m'.AccessorsFit := by
  unfold AccessorsFit at h ⊢
  generalize m.fields = fs, m'.fields = fs' at h hfields hsuppressed
  suffices hsub : (fs'.filterMap FieldDecl.exposed?).Sublist (fs.filterMap FieldDecl.exposed?) ∧
      ∀ f' ∈ fs', LegalAccessor f'.accessor ∨ f'.accessor.IsZero from
    ⟨hsub.2, h.2.sublist hsub.1⟩
  have hlegal := h.1
  clear h
  induction hfields with
  | nil => exact ⟨.slnil, fun _ hf => absurd hf List.not_mem_nil⟩
  | @cons f f' fs fs' hf _ ih =>
    obtain ⟨hfirst, hrest⟩ := List.forall_mem_cons.1 hlegal
    cases hsuppressed with
    | cons hf' hfs' =>
      obtain ⟨hsub, hall⟩ := ih hfs' hrest
      rcases hf' with hsame | hfalse
      · have hexposed : f'.exposed? = f.exposed? := by
          unfold FieldDecl.exposed?
          rw [hsame, hf.name]
        rw [List.filterMap_cons, List.filterMap_cons, hexposed, List.forall_mem_cons, hsame]
        refine ⟨?_, hfirst, hall⟩
        cases f.exposed? with
        | none => exact hsub
        | some a => exact hsub.cons_cons a
      · have hexposed : f'.exposed? = none := by
          unfold FieldDecl.exposed?
          rw [hfalse]
        rw [List.filterMap_cons_none hexposed, List.forall_mem_cons, hfalse]
        refine ⟨hsub.trans ?_, .inl (.flag false), hall⟩
        rw [List.filterMap_cons]
        cases f.exposed? with
        | none => exact .refl _
        | some a => exact List.sublist_cons_self a _

namespace Catalog

variable {c c' : Catalog} {t : TypeExpr} {constraints : List Constraint}

/-- The accessors of all models that a type with a layout uses fit. -/
theorem WellFormed.accessorsFit (h : c.WellFormed t constraints) {name : String} {m : ModelDef}
    (huses : c.Uses t name) (hd : c.find? name = some (.model m)) : m.AccessorsFit := by
  induction h generalizing name m with
  | annotated _ ih =>
    refine ih (huses.of_mentions fun first hfirst => ?_) hd
    cases hfirst with
    | annotated hfirst => exact hfirst
  | int | bytes =>
    obtain ⟨first, hfirst, -⟩ := huses
    cases hfirst
  | list _ _ _ ih =>
    refine ih (huses.of_mentions fun first hfirst => ?_) hd
    cases hfirst with
    | list hfirst => exact hfirst
  | tuple _ _ _ ih =>
    obtain ⟨first, hfirst, hname⟩ := huses
    cases hfirst with
    | tuple ht hfirst => exact ih _ ht ⟨first, hfirst, hname⟩ hd
  | enumeration _ hd' =>
    rcases uses_named_iff.1 huses with rfl | ⟨m', hm', -⟩
    · rw [hd] at hd'
      cases hd'
    · rw [hd'] at hm'
      cases hm'
  | unit _ hd' _ hfields =>
    rcases uses_named_iff.1 huses with rfl | ⟨m', hm', f, hf, -⟩
    · rw [hd] at hd'
      cases hd'
      exact ⟨by simp [hfields], by simp [hfields]⟩
    · rw [hd'] at hm'
      cases hm'
      rw [hfields] at hf
      cases hf
  | model _ hd' _ _ _ _ hoptions hnodup ih =>
    rcases uses_named_iff.1 huses with rfl | ⟨m', hm', f, hf, hother⟩
    · rw [hd] at hd'
      cases hd'
      exact ModelDef.accessorsFit_iff.2 ⟨hoptions, hnodup⟩
    · rw [hd'] at hm'
      cases hm'
      exact ih f hf hother hd

/-- A change of accessors leaves a type with a layout exactly if the accessors of all models that
the type uses fit. -/
theorem Alike.wellFormed_iff (hc : c.Alike c') (h : c.WellFormed t constraints) :
    c'.WellFormed t constraints ↔
      ∀ name m', c.Uses t name → c'.find? name = some (.model m') → m'.AccessorsFit := by
  refine ⟨fun h' name m' huses hd' => h'.accessorsFit (hc.uses huses) hd', fun hfit => ?_⟩
  induction h with
  | annotated _ ih =>
    exact .annotated (ih fun name m' huses =>
      hfit name m' (huses.of_mentions fun _ hfirst => .annotated hfirst))
  | int hr => exact .int hr
  | bytes hr hn => exact .bytes hr hn
  | list hr hn _ ih =>
    exact .list hr hn (ih fun name m' huses =>
      hfit name m' (huses.of_mentions fun _ hfirst => .list hfirst))
  | tuple hr hne _ ih =>
    exact .tuple hr hne fun t ht => ih t ht fun name m' huses =>
      hfit name m' (huses.of_mentions fun _ hfirst => .tuple ht hfirst)
  | enumeration hr hd he => exact .enumeration hr (hc.find?_enumeration hd) he
  | unit hr hd hkind hfields hlegal =>
    obtain ⟨m', hd', halike⟩ := hc.exists_model hd
    have hfields' : m'.fields = [] := by
      have hforall := halike.fields
      rw [hfields] at hforall
      exact List.forall₂_nil_left_iff.1 hforall
    exact .unit hr hd' (halike.kind ▸ hkind) hfields' (halike.value ▸ halike.repr ▸ hlegal)
  | @model name _ m hr hd hkind hvalue hne _ _ _ ih =>
    obtain ⟨m', hd', halike⟩ := hc.exists_model hd
    have hne' : m'.fields ≠ [] := fun hnil => hne (by
      have hforall := halike.fields
      rw [hnil] at hforall
      exact List.forall₂_nil_right_iff.1 hforall)
    obtain ⟨hoptions, hnodup⟩ := ModelDef.accessorsFit_iff.1
      (hfit name m' (uses_named_iff.2 (.inl rfl)) hd')
    refine .model hr hd' (halike.kind ▸ hkind) (halike.value ▸ hvalue) hne' (fun f' hf' => ?_)
      hoptions hnodup
    obtain ⟨f, hf, hff'⟩ := halike.symm.exists_field hf'
    rw [hff'.type]
    exact ih f hf fun other m'' huses =>
      hfit other m'' (uses_named_iff.2 (.inr ⟨m, hd, f, hf, huses⟩))

/-- Suppressing accessors never takes its layout from a type. -/
theorem Alike.wellFormed_of_suppressed (hc : c.Alike c') (h : c.WellFormed t constraints)
    (hsuppressed : ∀ name m m', c.find? name = some (.model m) →
      c'.find? name = some (.model m') → List.Forall₂
        (fun f f' : FieldDecl => f'.accessor = f.accessor ∨ f'.accessor = .bool false)
        m.fields m'.fields) : c'.WellFormed t constraints := by
  refine (hc.wellFormed_iff h).2 fun name m' huses hd' => ?_
  obtain ⟨m, hd, halike⟩ := hc.symm.exists_model hd'
  exact (h.accessorsFit huses hd).of_suppressed halike.symm.fields (hsuppressed name m m' hd hd')

end Catalog

end FixedLayout
