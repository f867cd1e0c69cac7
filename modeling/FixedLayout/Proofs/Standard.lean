import FixedLayout.Proofs.Compilation
import FixedLayout.Proofs.Enumerations

/-!
# Standard types

The types that the fields of a class are usually declared with: integers of a width, bytes and lists
of a length, tuples, enumerations, units, and classes of such fields.

* `Catalog.Standard`: these types;
* `Catalog.StandardLayout`: these types together with their layouts. `Catalog.Standard.hasLayout`:
  what a layout of a standard type is made of;
* `Layout.canonical_model_iff`, `canonical_entryFields_iff`: instances and tuples in canonical form,
  entry by entry.
-/

namespace FixedLayout

/-! ### Lists side by side -/

section Lists

variable {α β γ : Type}

/-- Every item of the second of two lists of the same length has a partner in the first. -/
theorem exists_mem_zip_left {xs : List α} {ys : List β} (h : xs.length = ys.length) {y : β}
    (hy : y ∈ ys) : ∃ x, (x, y) ∈ xs.zip ys := by
  obtain ⟨x, hx⟩ := Catalog.exists_mem_zip h.symm hy
  rw [← List.zip_swap] at hx
  obtain ⟨p, hp, heq⟩ := List.mem_map.1 hx
  cases heq
  exact ⟨_, hp⟩

/-- Partners have the same key if the lists have the same keys. -/
theorem eq_of_mem_zip {f : α → γ} {g : β → γ} {xs : List α} {ys : List β}
    (h : xs.map f = ys.map g) {x : α} {y : β} (hmem : (x, y) ∈ xs.zip ys) : f x = g y := by
  induction xs generalizing ys with
  | nil => cases hmem
  | cons a xs ih =>
    cases ys with
    | nil => cases h
    | cons b ys =>
      rw [List.map_cons, List.map_cons, List.cons.injEq] at h
      rcases List.mem_cons.1 hmem with heq | hmem
      · cases heq
        exact h.1
      · exact ih h.2 hmem

theorem forall₂_replicate_iff {R : α → β → Prop} {a : α} {n : Nat} {bs : List β} :
    List.Forall₂ R (List.replicate n a) bs ↔ bs.length = n ∧ ∀ b ∈ bs, R a b := by
  induction n generalizing bs with
  | zero => cases bs <;> simp
  | succ n ih =>
    rw [List.replicate_succ, List.forall₂_cons_left_iff]
    simp only [ih]
    constructor
    · rintro ⟨b, rest, hb, ⟨hlen, hrest⟩, rfl⟩
      exact ⟨congrArg (· + 1) hlen, List.forall_mem_cons.2 ⟨hb, hrest⟩⟩
    · rintro ⟨hlen, hbs⟩
      cases bs with
      | nil => cases hlen
      | cons b rest =>
        obtain ⟨hb, hrest⟩ := List.forall_mem_cons.1 hbs
        exact ⟨b, rest, hb, ⟨Nat.succ.inj hlen, hrest⟩, rfl⟩

end Lists

/-- A field of a class is declared. -/
theorem exists_declared {decls : List FieldDecl} {fields : List (String × Option String × Layout)}
    (hnames : decls.map (·.name) = fields.map (·.1)) {name : String}
    (hname : name ∈ fields.map (·.1)) :
    ∃ f field, (f, field) ∈ decls.zip fields ∧ field.1 = name := by
  obtain ⟨field, hfield, rfl⟩ := List.mem_map.1 hname
  have hlen := congrArg List.length hnames
  rw [List.length_map, List.length_map] at hlen
  obtain ⟨f, hf⟩ := exists_mem_zip_left hlen hfield
  exact ⟨f, field, hf, rfl⟩

/-- What is declared is a field of the class, with the same name. -/
theorem exists_compiled {decls : List FieldDecl} {fields : List (String × Option String × Layout)}
    (hnames : decls.map (·.name) = fields.map (·.1)) {f : FieldDecl} (hf : f ∈ decls) :
    ∃ field, (f, field) ∈ decls.zip fields ∧ field ∈ fields ∧ f.name = field.1 := by
  have hlen := congrArg List.length hnames
  rw [List.length_map, List.length_map] at hlen
  obtain ⟨field, hmem⟩ := Catalog.exists_mem_zip hlen hf
  exact ⟨field, hmem, (List.of_mem_zip hmem).2, eq_of_mem_zip hnames hmem⟩

/-- A name has one field, so that what is true of this one is true of all fields of the name. -/
theorem forall_named {fields : List (String × Option String × Layout)} {P : Layout → Prop}
    (hnodup : (fields.map (·.1)).Nodup) {field : String × Option String × Layout}
    (hfield : field ∈ fields) (h : P field.2.2) : ∀ f ∈ fields, f.1 = field.1 → P f.2.2 := by
  intro f hf hname
  rw [List.inj_on_of_nodup_map hnodup hf hfield hname]
  exact h

/-! ### Entries in canonical form -/

theorem canonical_entryFields_iff {ls : List Layout} {values : List Value} (index : Nat) :
    (entryFields index ls).Canonical values ↔ List.Forall₂ Layout.Canonical ls values := by
  induction ls generalizing index values with
  | nil =>
    rw [List.forall₂_nil_left_iff]
    exact Iff.rfl
  | cons l ls ih =>
    rw [List.forall₂_cons_left_iff]
    constructor
    · rintro ⟨v, others, rfl, hv, hothers⟩
      exact ⟨v, others, hv, (ih _).1 hothers, rfl⟩
    · rintro ⟨v, others, hv, hothers, rfl⟩
      exact ⟨v, others, rfl, hv, (ih _).2 hothers⟩

/-- The fields of a value are in canonical form if each of them is. -/
theorem Fields.exists_canonical_iff {v : Value} : ∀ {fs : Fields},
    (∃ values, lookupFields v fs.names = .ok values ∧ fs.Canonical values) ↔
      ∀ f ∈ fs.toList, ∃ x, v.field? f.1 = some x ∧ f.2.2.Canonical x
  | .nil => ⟨fun _ _ hf => absurd hf List.not_mem_nil, fun _ => ⟨[], rfl, rfl⟩⟩
  | .cons name _ layout rest => by
    rw [Fields.toList, List.forall_mem_cons, ← Fields.exists_canonical_iff]
    constructor
    · rintro ⟨_, hlookup, x, others, rfl, hx, hothers⟩
      obtain ⟨_, _, hfield, hrest, heq⟩ := lookupFields_cons hlookup
      cases heq
      exact ⟨⟨x, hfield, hx⟩, others, hrest, hothers⟩
    · rintro ⟨⟨x, hfield, hx⟩, others, hrest, hothers⟩
      refine ⟨x :: others, ?_, x, others, rfl, hx, hothers⟩
      simp only [Fields.names, lookupFields, hfield, hrest]
      rfl

/-- A name is a field's exactly if it is in the list of fields. -/
theorem Fields.mem_names_iff {name : String} : ∀ {fs : Fields},
    name ∈ fs.names ↔ ∃ f ∈ fs.toList, f.1 = name
  | .nil => by simp [Fields.names, Fields.toList]
  | .cons _ _ _ rest => by
    rw [Fields.names, Fields.toList, List.mem_cons, List.exists_mem_cons_iff,
      Fields.mem_names_iff, eq_comm]

/-- An instance is in canonical form exactly if it is one of the class itself with the fields of the
class, in any order, and each of them is in canonical form. -/
theorem Layout.canonical_model_iff {cls : ModelClass} {fields : Fields} {v : Value}
    (hnodup : fields.names.Nodup) :
    (Layout.composite (.model cls) fields).Canonical v ↔ ∃ given : List (String × Value),
      v = .record cls given ∧ (given.map (·.1)).Perm fields.names ∧
        ∀ f ∈ fields.toList, ∀ x, (f.1, x) ∈ given → f.2.2.Canonical x := by
  constructor
  · rintro ⟨given, values, rfl, hcount, hvalues⟩
    have hfields := Fields.exists_canonical_iff.1 ⟨values, hvalues⟩
    have hsubset : fields.names ⊆ given.map (·.1) := by
      intro name hname
      obtain ⟨f, hf, rfl⟩ := Fields.mem_names_iff.1 hname
      obtain ⟨x, hx, -⟩ := hfields f hf
      obtain ⟨g, hg, -⟩ := Option.map_eq_some_iff.1 hx
      have hname : (g.1 == f.1) = true :=
        List.find?_some (p := fun g : String × Value => g.1 == f.1) hg
      exact eq_of_beq hname ▸ List.mem_map_of_mem (List.mem_of_find?_eq_some hg)
    have hlen : (given.map (·.1)).length ≤ fields.names.length := by
      rw [List.length_map, Fields.length_names, hcount]
    have hperm := ((List.subperm_of_subset hnodup hsubset).perm_of_length_le hlen).symm
    refine ⟨given, rfl, hperm, fun f hf x hx => ?_⟩
    obtain ⟨y, hy, hcanonical⟩ := hfields f hf
    rw [Value.field?_record (hperm.nodup_iff.2 hnodup) hx] at hy
    cases hy
    exact hcanonical
  · rintro ⟨given, rfl, hperm, hgiven⟩
    have hfields : ∀ f ∈ fields.toList, ∃ x,
        (Value.record cls given).field? f.1 = some x ∧ f.2.2.Canonical x := by
      intro f hf
      have hmem := hperm.mem_iff.2 (Fields.mem_names_iff.2 ⟨f, hf, rfl⟩)
      obtain ⟨g, hg, hname⟩ := List.mem_map.1 hmem
      have hfield : (Value.record cls given).field? g.1 = some g.2 :=
        Value.field?_record (hperm.nodup_iff.2 hnodup) hg
      rw [hname] at hfield
      exact ⟨g.2, hfield, hgiven f hf g.2 (hname ▸ hg)⟩
    obtain ⟨values, hvalues⟩ := Fields.exists_canonical_iff.2 hfields
    refine ⟨given, values, rfl, ?_, hvalues⟩
    rw [← fields.length_names, ← hperm.length_eq, List.length_map]

theorem Fields.lengthsNonneg_ofList {fs : List (String × Option String × Layout)}
    (h : ∀ f ∈ fs, f.2.2.LengthsNonneg) : (Fields.ofList fs).LengthsNonneg := by
  induction fs with
  | nil => trivial
  | cons f fs ih =>
    obtain ⟨hf, hfs⟩ := List.forall_mem_cons.1 h
    exact ⟨hf, ih hfs⟩

theorem lengthsNonneg_entryFields {ls : List Layout} (h : ∀ l ∈ ls, l.LengthsNonneg) (index : Nat) :
    (entryFields index ls).LengthsNonneg := by
  induction ls generalizing index with
  | nil => trivial
  | cons l ls ih =>
    obtain ⟨hl, hls⟩ := List.forall_mem_cons.1 h
    exact ⟨hl, ih hls (index + 1)⟩

/-! ### Types and their layouts -/

namespace Catalog

variable {c : Catalog} {t : TypeExpr} {l : Layout}

theorem layoutOf_eq_ok_iff : c.layoutOf t = .ok l ↔ c.HasLayout t [] l :=
  (c.settles_compile t).eq_ok_iff (Cache.sound_nil c) l

/-- A type compiles to its layout from any cache. -/
theorem compile_of_layoutOf {cache : Cache} (hcache : cache.Sound c) (h : c.layoutOf t = .ok l) :
    (c.compile t cache).1 = .ok l :=
  ((c.settles_compile t).eq_ok_iff hcache l).2 (layoutOf_eq_ok_iff.1 h)

/-- A type has no more than one layout. -/
theorem HasLayout.unique {l' : Layout} (h : c.HasLayout t [] l) (h' : c.HasLayout t [] l') :
    l = l' := by
  have heq := (layoutOf_eq_ok_iff.2 h).symm.trans (layoutOf_eq_ok_iff.2 h')
  cases heq
  rfl

/-- The class of a model bears the name that the model is found by. -/
theorem name_of_find {name : String} {m : ModelDef} (h : c.find? name = some (.model m)) :
    m.cls.name = name := by
  unfold find? at h
  have hname : ((Definition.model m).name == name) = true :=
    List.find?_some (p := fun d : Definition => d.name == name) h
  exact eq_of_beq hname

/-- The types that fields are usually declared with: integers, bytes and lists of a length that is
not negative, tuples, enumerations, units, and classes of such fields whose defaults, if there are
any, are in canonical form. -/
inductive Standard (c : Catalog) : TypeExpr → Prop
  | int (r : IntRepr) : Standard c (.fixedInt r)
  | bytes {n : Int} : 0 ≤ n → Standard c (.fixedBytes n)
  | list {t : TypeExpr} {n : Int} : Standard c t → 0 ≤ n → Standard c (.fixedList t n)
  | tuple {ts : List TypeExpr} : (∀ t ∈ ts, Standard c t) → Standard c (.tuple ts false)
  | enumeration {name : String} {e : EnumDef} : c.find? name = some (.enumeration e) → e.Orderly →
    Standard c (.named name)
  | unit {name : String} {m : ModelDef} : c.find? name = some (.model m) → m.kind = .unit →
    Standard c (.named name)
  | model {name : String} {m : ModelDef} : c.find? name = some (.model m) →
    m.kind = .struct ∨ m.kind = .tuple → (∀ f ∈ m.fields, Standard c f.type) →
    (∀ f ∈ m.fields, ∀ v l, f.default = some v → c.HasLayout f.type [] l → l.Canonical v) →
    Standard c (.named name)

/-- The standard types that have a layout, with this layout. -/
inductive StandardLayout (c : Catalog) : TypeExpr → Layout → Prop
  | int (r : IntRepr) : StandardLayout c (.fixedInt r) (.int r)
  | bytes {n : Int} : 0 ≤ n → StandardLayout c (.fixedBytes n) (.bytes n)
  | list {t : TypeExpr} {l : Layout} {n : Int} : StandardLayout c t l → 0 ≤ n →
    StandardLayout c (.fixedList t n) (.array l n)
  | tuple {ts : List TypeExpr} {ls : List Layout} : ts ≠ [] → ts.length = ls.length →
    (∀ t l, (t, l) ∈ ts.zip ls → StandardLayout c t l) →
    StandardLayout c (.tuple ts false) (.composite .tuple (entryFields 0 ls))
  | enumeration {name : String} {e : EnumDef} {l : Layout} :
    c.find? name = some (.enumeration e) → e.Orderly → e.compile = .ok l →
    StandardLayout c (.named name) l
  | unit {name : String} {m : ModelDef} {literal : Literal} : c.find? name = some (.model m) →
    m.kind = .unit → m.fields = [] → m.compileUnit = .ok (.unit m.cls literal) →
    StandardLayout c (.named name) (.unit m.cls literal)
  | model {name : String} {m : ModelDef} {fields : List (String × Option String × Layout)} :
    c.find? name = some (.model m) → m.kind = .struct ∨ m.kind = .tuple →
    c.HasLayout (.named name) [] (.composite (.model m.cls) (.ofList fields)) →
    m.fields.map (·.name) = fields.map (·.1) →
    (∀ f field, (f, field) ∈ m.fields.zip fields → StandardLayout c f.type field.2.2) →
    (∀ f field v, (f, field) ∈ m.fields.zip fields → f.default = some v →
      field.2.2.Canonical v) →
    StandardLayout c (.named name) (.composite (.model m.cls) (.ofList fields))

theorem fixedLength_fixed (t : TypeExpr) (n : Int) :
    fixedLength t ([.length (some n) (some n)] ++ []) = .ok n := by
  simp [fixedLength, lengthBounds]

theorem StandardLayout.hasLayout (h : c.StandardLayout t l) : c.HasLayout t [] l := by
  induction h with
  | int r => exact .annotated (.int rfl)
  | bytes _ => exact .annotated (.bytes rfl (fixedLength_fixed _ _))
  | list _ _ ih => exact .annotated (.list rfl ih (fixedLength_fixed _ _))
  | tuple hne hlen _ ih => exact .tuple rfl hne hlen ih
  | enumeration hd _ hl => exact .enumeration rfl hd hl
  | unit hd hkind _ hl => exact .unit rfl hd hkind hl
  | model _ _ hl => exact hl

theorem compileUnit_eq_ok {m : ModelDef} (h : m.compileUnit = .ok l) :
    m.fields = [] ∧ ∃ literal, l = .unit m.cls literal := by
  refine ⟨(ModelDef.exists_compileUnit_iff.1 ⟨l, h⟩).1, ?_⟩
  unfold ModelDef.compileUnit at h
  split at h
  · cases h
  · split at h
    · cases h
    · obtain ⟨literal, -, hl⟩ := map_eq_ok_iff.1 h
      exact ⟨literal, hl.symm⟩

theorem not_unit_of_composite {m : ModelDef} (h : m.kind = .struct ∨ m.kind = .tuple) :
    m.kind ≠ .unit := by
  intro hunit
  rw [hunit] at h
  rcases h with h | h <;> cases h

theorem names_of_hasField {fs : List FieldDecl} {fields : List (String × Option String × Layout)}
    (h : List.Forall₂ c.HasField fs fields) : fs.map (·.name) = fields.map (·.1) := by
  induction h with
  | nil => rfl
  | cons hfield _ ih =>
    obtain ⟨_, -, _, -, rfl⟩ := hfield
    rw [List.map_cons, List.map_cons, ih]

/-- The layout of a standard type is made of layouts of standard types. -/
theorem Standard.hasLayout (h : c.Standard t) (hl : c.HasLayout t [] l) : c.StandardLayout t l := by
  induction h generalizing l with
  | int r =>
    obtain ⟨-, rfl⟩ := (hasLayout_iff_of_repr rfl (by simp)).1 (hasLayout_annotated_iff.1 hl)
    exact .int r
  | bytes hn =>
    obtain ⟨-, n, hlen, rfl⟩ := (hasLayout_builtin_iff rfl).1 (hasLayout_annotated_iff.1 hl)
    rw [fixedLength_fixed] at hlen
    cases hlen
    exact .bytes hn
  | list _ hn ih =>
    obtain ⟨e, he, n, hlen, rfl⟩ := (hasLayout_list_iff rfl).1 (hasLayout_annotated_iff.1 hl)
    rw [fixedLength_fixed] at hlen
    cases hlen
    exact .list (ih he) hn
  | tuple _ ih =>
    obtain ⟨⟨hne, -⟩, ls, hls, rfl⟩ := (hasLayout_tuple_iff rfl).1 hl
    refine .tuple hne hls.length_eq fun t l hmem => ?_
    exact ih t (List.of_mem_zip hmem).1 (List.forall₂_zip hls hmem)
  | enumeration hd he => exact .enumeration hd he ((hasLayout_enumeration_iff hd).1 hl)
  | unit hd hkind =>
    have hunit := (hasLayout_unit_iff hd hkind).1 hl
    obtain ⟨hfields, literal, rfl⟩ := compileUnit_eq_ok hunit
    exact .unit hd hkind hfields hunit
  | @model name m hd hkind _ hdefault ih =>
    obtain ⟨-, fields, hfields, -, rfl⟩ :=
      (hasLayout_model_iff hd (not_unit_of_composite hkind)).1 hl
    have hfield : ∀ f field, (f, field) ∈ m.fields.zip fields → c.HasField f field :=
      fun f field hmem => List.forall₂_zip hfields hmem
    refine .model hd hkind hl (names_of_hasField hfields) (fun f field hmem => ?_)
      fun f field v hmem hv => ?_
    · obtain ⟨lf, hlf, _, -, rfl⟩ := hfield f field hmem
      exact ih f (List.of_mem_zip hmem).1 hlf
    · obtain ⟨lf, hlf, _, -, rfl⟩ := hfield f field hmem
      exact hdefault f (List.of_mem_zip hmem).1 v lf hv hlf

/-! ### Lengths -/

/-- No length in the layout of a standard type is negative. -/
theorem StandardLayout.lengthsNonneg (h : c.StandardLayout t l) : l.LengthsNonneg := by
  induction h with
  | int r => trivial
  | bytes hn => exact hn
  | list _ hn ih => exact ⟨ih, hn⟩
  | tuple _ hlen _ ih =>
    refine lengthsNonneg_entryFields (fun l hl => ?_) 0
    obtain ⟨t, ht⟩ := exists_mem_zip_left hlen hl
    exact ih t l ht
  | enumeration _ _ hl =>
    obtain ⟨enum, -, rfl⟩ := EnumDef.compile_eq_ok hl
    trivial
  | unit => trivial
  | model _ _ _ hnames _ _ ih =>
    refine Fields.lengthsNonneg_ofList fun field hfield => ?_
    have hlen := congrArg List.length hnames
    rw [List.length_map, List.length_map] at hlen
    obtain ⟨f, hf⟩ := exists_mem_zip_left hlen hfield
    exact ih f field hf

end Catalog

end FixedLayout
