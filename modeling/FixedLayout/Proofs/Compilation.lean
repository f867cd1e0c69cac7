import Mathlib
import FixedLayout.Proofs.Outcomes

/-!
# Compiling and the classes compiled before

Compiling a type gives the layout that the type has, or fails if it has none. What has been compiled
before makes no difference to it.

* `Catalog.hasLayout_list_iff` and those like it: what the layout of a type of each kind is made of;
* `Catalog.HasField`: the name, the accessor and the layout of a field;
* `TypeExpr.settles_compile`: a type compiles to its layout if the classes that it mentions do;
* `Catalog.settles_compileClass`: a class does, whatever is on the stack: a class that is met again
  reaches itself, and has no layout on any other stack either;
* `Catalog.cacheAfter`: what a sequence of compilations leaves in the cache;
* `Catalog.compile_decides_wellFormed`, `Catalog.compile_after_others`: the main results.
-/

namespace FixedLayout

open Compiler

/-- The representation that a definition sets. -/
def Definition.repr : Definition → Value
  | .model m => m.repr
  | .enumeration e => e.repr

/-! ### Layouts of types -/

namespace Catalog

variable {c : Catalog} {constraints : List Constraint} {l : Layout}

theorem hasLayout_annotated_iff {base : TypeExpr} {inner outer : List Constraint} :
    c.HasLayout (.annotated base inner) outer l ↔ c.HasLayout base (inner ++ outer) l := by
  constructor
  · intro h
    cases h with
    | annotated h => exact h
  · exact .annotated

/-- With an integer representation attached, only integers have a layout. -/
theorem hasLayout_iff_of_repr {t : TypeExpr} {r : IntRepr} (hr : reprOf? constraints = some r)
    (ht : ∀ base inner, t ≠ .annotated base inner) :
    c.HasLayout t constraints l ↔ t = .builtin .int ∧ l = .int r := by
  constructor
  · intro h
    cases h with
    | annotated => exact absurd rfl (ht _ _)
    | int hr' =>
      rw [hr] at hr'
      cases hr'
      exact ⟨rfl, rfl⟩
    | bytes hr' | list hr' | tuple hr' | enumeration hr' | unit hr' | model hr' =>
      rw [hr] at hr'
      cases hr'
  · rintro ⟨rfl, rfl⟩
    exact .int hr

theorem hasLayout_builtin_iff {b : Builtin} (hr : reprOf? constraints = none) :
    c.HasLayout (.builtin b) constraints l ↔
      b = .bytes ∧ ∃ n, fixedLength (.builtin b) constraints = .ok n ∧ l = .bytes n := by
  constructor
  · intro h
    cases h with
    | int hr' =>
      rw [hr] at hr'
      cases hr'
    | bytes _ hn => exact ⟨rfl, _, hn, rfl⟩
  · rintro ⟨rfl, n, hn, rfl⟩
    exact .bytes hr hn

theorem hasLayout_list_iff {element : TypeExpr} (hr : reprOf? constraints = none) :
    c.HasLayout (.list element) constraints l ↔
      ∃ e, c.HasLayout element [] e ∧ ∃ n, fixedLength (.list element) constraints = .ok n ∧
        l = .array e n := by
  constructor
  · intro h
    cases h with
    | list _ he hn => exact ⟨_, he, _, hn, rfl⟩
  · rintro ⟨e, he, n, hn, rfl⟩
    exact .list hr he hn

theorem hasLayout_tuple_iff {elements : List TypeExpr} {isOpen : Bool}
    (hr : reprOf? constraints = none) :
    c.HasLayout (.tuple elements isOpen) constraints l ↔
      (elements ≠ [] ∧ isOpen = false) ∧
        ∃ ls, List.Forall₂ (fun t l => c.HasLayout t [] l) elements ls ∧
          l = .composite .tuple (entryFields 0 ls) := by
  constructor
  · intro h
    cases h with
    | tuple _ hne hlen hls =>
      exact ⟨⟨hne, rfl⟩, _, List.forall₂_iff_zip.2 ⟨hlen, fun hmem => hls _ _ hmem⟩, rfl⟩
  · rintro ⟨⟨hne, rfl⟩, ls, hls, rfl⟩
    exact .tuple hr hne hls.length_eq fun t l hmem => List.forall₂_zip hls hmem

/-- Constraints without a representation have no effect on a class. -/
theorem hasLayout_named_iff {name : String} (hr : reprOf? constraints = none) :
    c.HasLayout (.named name) constraints l ↔ c.HasLayout (.named name) [] l := by
  constructor
  · intro h
    cases h with
    | enumeration _ hd he => exact .enumeration rfl hd he
    | unit _ hd hkind hl => exact .unit rfl hd hkind hl
    | model _ hd hkind hvalue hne hlen hls hoptions hnodup =>
      exact .model rfl hd hkind hvalue hne hlen hls hoptions hnodup
  · intro h
    cases h with
    | enumeration _ hd he => exact .enumeration hr hd he
    | unit _ hd hkind hl => exact .unit hr hd hkind hl
    | model _ hd hkind hvalue hne hlen hls hoptions hnodup =>
      exact .model hr hd hkind hvalue hne hlen hls hoptions hnodup

theorem not_hasLayout_literal {v : Value} : ¬ c.HasLayout (.literal v) constraints l := nofun

/-- The absent type has no layout. -/
theorem not_hasLayout_of_isNothing {t : TypeExpr} (h : t.isNothing = true) :
    ¬ c.HasLayout t [] l := by
  intro hl
  cases hl with
  | int hr => cases hr
  | annotated | bytes | list | tuple | enumeration | unit | model => cases h

theorem not_hasLayout_of_undefined {name : String} (hd : c.find? name = none) :
    ¬ c.HasLayout (.named name) [] l := by
  intro h
  cases h with
  | enumeration _ hd' | unit _ hd' | model _ hd' =>
    rw [hd] at hd'
    cases hd'

theorem hasLayout_enumeration_iff {name : String} {e : EnumDef}
    (hd : c.find? name = some (.enumeration e)) :
    c.HasLayout (.named name) [] l ↔ e.compile = .ok l := by
  constructor
  · intro h
    cases h with
    | enumeration _ hd' he =>
      rw [hd] at hd'
      cases hd'
      exact he
    | unit _ hd' | model _ hd' =>
      rw [hd] at hd'
      cases hd'
  · exact .enumeration rfl hd

theorem hasLayout_unit_iff {name : String} {m : ModelDef} (hd : c.find? name = some (.model m))
    (hkind : m.kind = .unit) : c.HasLayout (.named name) [] l ↔ m.compileUnit = .ok l := by
  constructor
  · intro h
    cases h with
    | enumeration _ hd' =>
      rw [hd] at hd'
      cases hd'
    | unit _ hd' _ hl =>
      rw [hd] at hd'
      cases hd'
      exact hl
    | model _ hd' hkind' =>
      rw [hd] at hd'
      cases hd'
      exact absurd hkind hkind'
  · exact .unit rfl hd hkind

/-- The name, the accessor and the layout of a field. -/
def HasField (c : Catalog) (f : FieldDecl) (field : String × Option String × Layout) : Prop :=
  ∃ l, c.HasLayout f.type [] l ∧
    ∃ options, f.options = .ok options ∧ field = (f.name, options.accessorName f.name, l)

theorem accessorName?_of_options {f : FieldDecl} {options : Options} (h : f.options = .ok options) :
    f.accessorName? = options.accessorName f.name := by
  unfold FieldDecl.accessorName?
  rw [h]

/-- Fields have names, accessors and layouts if all types have layouts and all options are
accepted. -/
theorem forall₂_hasField_iff {fs : List FieldDecl}
    {fields : List (String × Option String × Layout)} :
    List.Forall₂ c.HasField fs fields ↔
      ∃ ls, List.Forall₂ (fun (f : FieldDecl) l => c.HasLayout f.type [] l) fs ls ∧
        (∀ f ∈ fs, ∃ options, f.options = .ok options) ∧
        fields = fs.zipWith (fun f l => (f.name, f.accessorName?, l)) ls := by
  constructor
  · intro h
    induction h with
    | nil => exact ⟨[], .nil, fun _ hf => absurd hf List.not_mem_nil, rfl⟩
    | @cons f _ fs _ hfield _ ih =>
      obtain ⟨l, hl, options, hoptions, rfl⟩ := hfield
      obtain ⟨ls, hls, hall, rfl⟩ := ih
      refine ⟨l :: ls, .cons hl hls, List.forall_mem_cons.2 ⟨⟨options, hoptions⟩, hall⟩, ?_⟩
      rw [List.zipWith_cons_cons, accessorName?_of_options hoptions]
  · rintro ⟨ls, hls, hall, rfl⟩
    induction hls with
    | nil => exact .nil
    | cons hl _ ih =>
      obtain ⟨⟨options, hoptions⟩, hrest⟩ := List.forall_mem_cons.1 hall
      rw [List.zipWith_cons_cons, accessorName?_of_options hoptions]
      exact .cons ⟨_, hl, options, hoptions, rfl⟩ (ih hrest)

/-- Fields have the accessors that their declarations stand for. -/
theorem accessors_of_hasField {fs : List FieldDecl}
    {fields : List (String × Option String × Layout)} (h : List.Forall₂ c.HasField fs fields) :
    fields.filterMap (·.2.1) = fs.filterMap FieldDecl.accessorName? := by
  induction h with
  | nil => rfl
  | cons hfield _ ih =>
    obtain ⟨l, -, options, hoptions, rfl⟩ := hfield
    rw [List.filterMap_cons, List.filterMap_cons, ih, accessorName?_of_options hoptions]

theorem hasLayout_model_iff {name : String} {m : ModelDef} (hd : c.find? name = some (.model m))
    (hkind : m.kind ≠ .unit) :
    c.HasLayout (.named name) [] l ↔
      (m.value = .null ∧ m.fields ≠ []) ∧ ∃ fields, List.Forall₂ c.HasField m.fields fields ∧
        (fields.filterMap (·.2.1)).Nodup ∧ l = .composite (.model m.cls) (.ofList fields) := by
  constructor
  · intro h
    cases h with
    | enumeration _ hd' =>
      rw [hd] at hd'
      cases hd'
    | unit _ hd' hkind' =>
      rw [hd] at hd'
      cases hd'
      exact absurd hkind' hkind
    | model _ hd' _ hvalue hne hlen hls hoptions hnodup =>
      rw [hd] at hd'
      cases hd'
      have hfields := forall₂_hasField_iff.2
        ⟨_, List.forall₂_iff_zip.2 ⟨hlen, fun hmem => hls _ _ hmem⟩, hoptions, rfl⟩
      exact ⟨⟨hvalue, hne⟩, _, hfields, (accessors_of_hasField hfields).symm ▸ hnodup, rfl⟩
  · rintro ⟨⟨hvalue, hne⟩, fields, hfields, hnodup, rfl⟩
    have haccessors := accessors_of_hasField hfields
    obtain ⟨ls, hls, hoptions, rfl⟩ := forall₂_hasField_iff.1 hfields
    exact .model rfl hd hkind hvalue hne hls.length_eq (fun f l hmem => List.forall₂_zip hls hmem)
      hoptions (haccessors ▸ hnodup)

end Catalog

/-! ### What computations settle -/

section Types

variable {c : Catalog} {H : HashFault → Prop} {compileClass : String → Compiler Layout}

/-- The length that constraints declare is settled. -/
theorem settles_fixedLength (t : TypeExpr) (constraints : List Constraint) :
    Settles c H (fun n => fixedLength t constraints = .ok n)
      (lift ((fixedLength t constraints).mapError .rejected)) := by
  refine (settles_lift fun f hf => ?_).congr fun n => mapError_eq_ok_iff.symm
  obtain ⟨e, -, he⟩ := mapError_eq_error_iff.1 hf
  cases he

/-- An integer representation on anything but an integer is rejected. -/
theorem settles_reprOnOther {t : TypeExpr} {constraints : List Constraint} {r : IntRepr}
    (hr : reprOf? constraints = some r) (ht : ∀ base inner, t ≠ .annotated base inner)
    (hint : t ≠ .builtin .int) :
    Settles c H (c.HasLayout t constraints) (reject (.reprOnOther r.name t)) :=
  settles_reject fun _ hl => hint ((Catalog.hasLayout_iff_of_repr hr ht).1 hl).1

mutual

/-- A type compiles to its layout if the classes that it mentions do. -/
theorem TypeExpr.settles_compile : ∀ (t : TypeExpr) (constraints : List Constraint),
    (∀ name, t.Mentions name →
      Settles c H (c.HasLayout (.named name) []) (compileClass name)) →
    Settles c H (c.HasLayout t constraints) (t.compile compileClass constraints)
  | .annotated base inner, outer, hclass => by
    unfold TypeExpr.compile
    refine (TypeExpr.settles_compile base (inner ++ outer) fun name hname =>
      hclass name (.annotated hname)).congr fun l => Catalog.hasLayout_annotated_iff
  | .builtin b, constraints, _ => by
    unfold TypeExpr.compile
    cases hr : reprOf? constraints with
    | some r =>
      have hiff := fun l => Catalog.hasLayout_iff_of_repr (c := c) (l := l)
        (t := .builtin b) hr nofun
      show Settles c H _ (if b = .int then _ else _)
      by_cases hb : b = .int
      · rw [if_pos hb]
        exact settles_pure fun l => (hiff l).trans (by simp [hb])
      · rw [if_neg hb]
        exact settles_reject fun l hl => hb (TypeExpr.builtin.inj ((hiff l).1 hl).1)
    | none =>
      have hiff := fun l => Catalog.hasLayout_builtin_iff (c := c) (l := l) (b := b) hr
      by_cases hb : b = .bytes
      · subst hb
        refine (settles_lift fun f hf => ?_).congr fun l => ?_
        · obtain ⟨e, -, he⟩ := mapError_eq_error_iff.1 hf
          cases he
        · rw [hiff, mapError_eq_ok_iff, map_eq_ok_iff]
          simp [eq_comm]
      · have hnone : ∀ l, ¬ c.HasLayout (.builtin b) constraints l :=
          fun l hl => hb ((hiff l).1 hl).1
        cases b with
        | bytes => exact absurd rfl hb
        | _ => exact settles_reject hnone
  | .list element, constraints, hclass => by
    unfold TypeExpr.compile
    cases hr : reprOf? constraints with
    | some r => exact settles_reprOnOther hr (by simp) (by simp)
    | none =>
      show Settles c H _ (if element.isNothing then _ else _)
      have hiff : ∀ l, c.HasLayout (.list element) constraints l ↔ _ :=
        fun l => Catalog.hasLayout_list_iff hr
      by_cases hnothing : element.isNothing = true
      · rw [if_pos hnothing]
        refine settles_reject fun l hl => ?_
        obtain ⟨e, he, -⟩ := (hiff l).1 hl
        exact Catalog.not_hasLayout_of_isNothing hnothing he
      · rw [if_neg hnothing]
        refine Settles.congr ?_ hiff
        refine (TypeExpr.settles_compile element [] fun name hname =>
          hclass name (.list hname)).bind fun e _ => ?_
        exact (settles_fixedLength _ constraints).bind fun n _ => settles_pure fun l => Iff.rfl
  | .tuple elements isOpen, constraints, hclass => by
    unfold TypeExpr.compile
    cases hr : reprOf? constraints with
    | some r => exact settles_reprOnOther hr (by simp) (by simp)
    | none =>
      show Settles c H _ (if elements.isEmpty || isOpen then _ else _)
      have hiff : ∀ l, c.HasLayout (.tuple elements isOpen) constraints l ↔ _ :=
        fun l => Catalog.hasLayout_tuple_iff hr
      by_cases hentries : elements ≠ [] ∧ isOpen = false
      · obtain ⟨hne, rfl⟩ := hentries
        rw [if_neg (by simpa using hne)]
        refine Settles.congr ?_ fun l => (hiff l).trans (and_iff_right ⟨hne, rfl⟩)
        refine (settles_compileEach elements fun t ht name hname =>
          hclass name (.tuple ht hname)).bind fun ls _ => settles_pure fun l => Iff.rfl
      · have hcond : (elements.isEmpty || isOpen) = true := by
          cases elements <;> cases isOpen <;> simp_all
        rw [if_pos hcond]
        exact settles_reject fun l hl => hentries ((hiff l).1 hl).1
  | .named name, constraints, hclass => by
    unfold TypeExpr.compile
    cases hr : reprOf? constraints with
    | some r => exact settles_reprOnOther hr (by simp) (by simp)
    | none => exact (hclass name (.named name)).congr fun l => Catalog.hasLayout_named_iff hr
  | .literal v, constraints, _ => by
    unfold TypeExpr.compile
    cases reprOf? constraints <;>
      exact settles_reject fun l => Catalog.not_hasLayout_literal

/-- Types compile to their layouts, one after the other. -/
theorem settles_compileEach : ∀ ts : List TypeExpr,
    (∀ t ∈ ts, ∀ name, t.Mentions name →
      Settles c H (c.HasLayout (.named name) []) (compileClass name)) →
    Settles c H (List.Forall₂ (fun t l => c.HasLayout t [] l) ts) (compileEach compileClass ts)
  | [], _ => by
    unfold compileEach
    exact settles_pure fun ls => List.forall₂_nil_left_iff
  | t :: rest, hclass => by
    unfold compileEach
    obtain ⟨hfirst, hrest⟩ := List.forall_mem_cons.1 hclass
    have hiff : ∀ ls, List.Forall₂ (fun t l => c.HasLayout t [] l) (t :: rest) ls ↔
        ∃ l, c.HasLayout t [] l ∧ ∃ ls', List.Forall₂ (fun t l => c.HasLayout t [] l) rest ls' ∧
          ls = l :: ls' := by
      intro ls
      rw [List.forall₂_cons_left_iff]
      simp only [exists_and_left]
    refine Settles.congr ?_ hiff
    exact (TypeExpr.settles_compile t [] hfirst).bind fun l _ =>
      (settles_compileEach rest hrest).bind fun ls _ => settles_pure fun _ => Iff.rfl

end

/-- Fields compile to their names, accessors and layouts. -/
theorem settles_compileFields (model : String) {fs : List FieldDecl}
    (hclass : ∀ f ∈ fs, ∀ name, f.type.Mentions name →
      Settles c H (c.HasLayout (.named name) []) (compileClass name)) :
    Settles c H (List.Forall₂ c.HasField fs) (compileFields compileClass model fs) := by
  induction fs with
  | nil => exact settles_pure fun fields => List.forall₂_nil_left_iff
  | cons f fs ih =>
    unfold compileFields
    obtain ⟨hfirst, hrest⟩ := List.forall_mem_cons.1 hclass
    have hoptions : Settles c H (fun options => f.options = .ok options)
        (lift (f.options.mapError OptionFault.toSchemaFault)) := by
      refine (settles_lift fun h hh => ?_).congr fun options => mapError_eq_ok_iff.symm
      obtain ⟨fault, hfault, heq⟩ := mapError_eq_error_iff.1 hh
      rw [OptionFault.toSchemaFault_eq_hash_iff.1 heq] at hfault
      exact absurd hfault f.options_ne_hash
    have hiff : ∀ fields, List.Forall₂ c.HasField (f :: fs) fields ↔
        ∃ l, c.HasLayout f.type [] l ∧ ∃ options, f.options = .ok options ∧
          ∃ rest, List.Forall₂ c.HasField fs rest ∧
            fields = (f.name, options.accessorName f.name, l) :: rest := by
      intro fields
      rw [List.forall₂_cons_left_iff]
      constructor
      · rintro ⟨field, rest, ⟨l, hl, options, ho, rfl⟩, hfs, rfl⟩
        exact ⟨l, hl, options, ho, rest, hfs, rfl⟩
      · rintro ⟨l, hl, options, ho, rest, hfs, rfl⟩
        exact ⟨_, rest, ⟨l, hl, options, ho, rfl⟩, hfs, rfl⟩
    refine Settles.congr ?_ hiff
    refine ((TypeExpr.settles_compile f.type [] hfirst).inField f.name model).bind fun l _ => ?_
    exact hoptions.bind fun options _ => (ih hrest).bind fun rest _ => settles_pure fun _ => Iff.rfl

/-- A model compiles to the layout of its name, if what it refers to does. -/
theorem ModelDef.settles_compile {m : ModelDef} {name : String}
    (hd : c.find? name = some (.model m)) (hH : ∀ f, m.repr.hashFault? = some f → H f)
    (hclass : ∀ other, c.Refers name other →
      Settles c H (c.HasLayout (.named other) []) (compileClass other)) :
    Settles c H (c.HasLayout (.named name) []) (m.compile compileClass) := by
  unfold ModelDef.compile
  by_cases hkind : m.kind = .unit
  · rw [if_pos hkind]
    exact (settles_lift fun f hf => hH f (ModelDef.hashFault?_of_compileUnit hf)).congr fun l =>
      Catalog.hasLayout_unit_iff hd hkind
  rw [if_neg hkind]
  have hiff := fun l => Catalog.hasLayout_model_iff (l := l) hd hkind
  by_cases hvalue : m.value = .null
  · rw [if_neg (by simp [hvalue, Value.isNull])]
    by_cases hfields : m.fields = []
    · rw [if_pos (by simp [hfields])]
      exact settles_reject fun l hl => ((hiff l).1 hl).1.2 hfields
    · rw [if_neg (by simpa using hfields)]
      refine Settles.congr ?_ fun l => (hiff l).trans (and_iff_right ⟨hvalue, hfields⟩)
      refine (settles_compileFields m.name fun f hf other hother =>
        hclass other ⟨m, hd, f, hf, hother⟩).bind fun fields _ => ?_
      cases hduplicate : firstDuplicate? [] (fields.filterMap (·.2.1)) with
      | some accessor =>
        refine settles_reject fun l hl => ?_
        rw [firstDuplicate?_eq_none_iff.2 ⟨hl.1, fun _ _ => List.not_mem_nil⟩] at hduplicate
        cases hduplicate
      | none =>
        exact settles_pure fun l => and_iff_right (firstDuplicate?_eq_none_iff.1 hduplicate).1
  · have hnull : (!m.value.isNull) = true := by
      cases hv : m.value with
      | null => exact absurd hv hvalue
      | _ => rfl
    rw [if_pos hnull]
    exact settles_reject fun l hl => hvalue ((hiff l).1 hl).1.1

/-- What a definition defines compiles to the layout of its name, if what it refers to does. -/
theorem Definition.settles_compile {d : Definition} {name : String} (hd : c.find? name = some d)
    (hH : ∀ f, d.repr.hashFault? = some f → H f)
    (hclass : ∀ other, c.Refers name other →
      Settles c H (c.HasLayout (.named other) []) (compileClass other)) :
    Settles c H (c.HasLayout (.named name) []) (d.compile compileClass) := by
  cases d with
  | model m => exact ModelDef.settles_compile hd hH hclass
  | enumeration e =>
    exact (settles_lift fun f hf => hH f (EnumDef.hashFault?_of_compile hf)).congr fun l =>
      Catalog.hasLayout_enumeration_iff hd

end Types

namespace Catalog

variable {c : Catalog}

/-- From a class, one can get to a definition whose representation cannot be looked up in a
table. -/
def Unhashed (c : Catalog) (name : String) (f : HashFault) : Prop :=
  ∃ other d, Relation.ReflTransGen c.Refers name other ∧ c.find? other = some d ∧
    d.repr.hashFault? = some f

theorem Unhashed.of_refers {name other : String} {f : HashFault} (hrefers : c.Refers name other)
    (h : c.Unhashed other f) : c.Unhashed name f := by
  obtain ⟨last, d, hpath, hd, hf⟩ := h
  exact ⟨last, d, .head hrefers hpath, hd, hf⟩

/-- A class has no layout if it reaches itself. -/
theorem not_hasLayout_of_reaches {name : String} {l : Layout} (h : c.Reaches name name) :
    ¬ c.HasLayout (.named name) [] l :=
  fun hl => not_reaches_self (hl.wellFormed.ends (.named name)) h

/-- A class without a layout is in no sound cache. -/
theorem lookup_eq_none {name : String} {cache : Cache} (hcache : cache.Sound c)
    (h : ∀ l, ¬ c.HasLayout (.named name) [] l) : cache.lookup name = none := by
  cases hname : cache.lookup name with
  | none => rfl
  | some l => exact absurd (hcache name l hname) (h l)

/-- A class is settled by what settles its definition. -/
theorem settles_of_find {H : HashFault → Prop} {depth : Nat} {stack : List String} {name : String}
    {d : Definition} (hstack : name ∉ stack) (hd : c.find? name = some d)
    (h : Settles c H (c.HasLayout (.named name) [])
      (d.compile (c.compileClass depth (stack ++ [name])))) :
    Settles c H (c.HasLayout (.named name) []) (c.compileClass (depth + 1) stack name) := by
  cases h with
  | failure hnone hhash hyields =>
    refine .failure hnone hhash fun cache hcache => ?_
    obtain ⟨after, hrun, hafter, hwithin⟩ := hyields cache hcache
    refine ⟨after, ?_, hafter, hwithin⟩
    rw [compileClass_of_find (lookup_eq_none hcache hnone) hstack hd]
    exact remember_of_error hrun
  | @result l hunique hyields =>
    refine .result hunique fun cache hcache => ?_
    cases hname : cache.lookup name with
    | some earlier =>
      obtain rfl := (hunique earlier).1 (hcache name earlier hname)
      exact ⟨cache, compileClass_of_lookup hname, hcache, .refl cache⟩
    | none =>
      rw [compileClass_of_find hname hstack hd]
      obtain ⟨after, hrun, hafter, hwithin⟩ := hyields cache hcache
      -- compiling the definition may have put the class in the cache already
      cases hname' : after.lookup name with
      | some earlier =>
        obtain rfl := (hunique earlier).1 (hafter name earlier hname')
        exact ⟨after, remember_of_lookup hrun hname', hafter, hwithin⟩
      | none =>
        exact ⟨_, remember_of_new hrun hname', hafter.cons ((hunique l).2 rfl),
          hwithin.cons hname'⟩

/-- A class compiles to its layout, whichever classes from which it is reached are on the stack. The
induction is on the depth that is left. -/
theorem settles_compileClass (depth : Nat) {stack : List String} {name : String}
    (hstack : c.Nested stack) (hdepth : c.length < depth + stack.length)
    (hreach : ∀ s ∈ stack, c.Reaches s name) :
    Settles c (c.Unhashed name) (c.HasLayout (.named name) [])
      (c.compileClass depth stack name) := by
  induction depth generalizing stack name with
  | zero =>
    have hle := hstack.length_le
    omega
  | succ depth ih =>
    by_cases hmem : name ∈ stack
    · -- what is on the stack reaches the class, so the class reaches itself
      have hnone : ∀ l, ¬ c.HasLayout (.named name) [] l :=
        fun l => not_hasLayout_of_reaches (hreach name hmem)
      refine .failure hnone (fun f hf => ?_) fun cache hcache =>
        ⟨cache, compileClass_of_mem (lookup_eq_none hcache hnone) hmem, hcache, .refl cache⟩
      cases hf
    cases hd : c.find? name with
    | none =>
      have hnone : ∀ l, ¬ c.HasLayout (.named name) [] l := fun l => not_hasLayout_of_undefined hd
      refine .failure hnone (fun f hf => ?_) fun cache hcache => ⟨cache,
        compileClass_of_undefined (lookup_eq_none hcache hnone) hmem hd, hcache, .refl cache⟩
      cases hf
    | some d =>
      refine settles_of_find hmem hd (Definition.settles_compile hd ?_ ?_)
      · exact fun f hf => ⟨name, d, .refl, hd, hf⟩
      · intro other hrefers
        have hlen : (stack ++ [name]).length = stack.length + 1 := List.length_append
        refine (ih (hstack.push hd hmem) (by omega) ?_).mono fun f => .of_refers hrefers
        intro s hs
        rcases List.mem_append.1 hs with hs | hs
        · exact (hreach s hs).tail hrefers
        · rw [List.mem_singleton.1 hs]
          exact .single hrefers

/-- A type compiles to its layout, whatever has been compiled before. -/
theorem settles_compile (c : Catalog) (t : TypeExpr) :
    Settles c (fun f => ∃ name, t.Mentions name ∧ c.Unhashed name f) (c.HasLayout t [])
      (c.compile t) := by
  refine TypeExpr.settles_compile t [] fun name hname => ?_
  have hclass : Settles c (c.Unhashed name) (c.HasLayout (.named name) [])
      (c.compileClass (c.length + 1) [] name) :=
    settles_compileClass _ c.nested_nil (by simp) fun s hs => absurd hs List.not_mem_nil
  exact hclass.mono fun f hf => ⟨name, hname, hf⟩

/-! ### Sequences of compilations -/

/-- What compiling types, one after the other, leaves in a cache that is empty at first.
Compilations that fail count too. -/
def cacheAfter (c : Catalog) (history : List TypeExpr) : Cache :=
  history.foldl (fun cache t => (c.compile t cache).2) []

theorem cacheAfter_append (c : Catalog) (history more : List TypeExpr) :
    c.cacheAfter (history ++ more) =
      more.foldl (fun cache t => (c.compile t cache).2) (c.cacheAfter history) :=
  List.foldl_append

/-- Compiling one type after the other keeps a cache sound, and what is in it. -/
theorem sound_foldl {cache : Cache} (h : cache.Sound c) (ts : List TypeExpr) :
    (ts.foldl (fun cache t => (c.compile t cache).2) cache).Sound c ∧
      cache.Within (ts.foldl (fun cache t => (c.compile t cache).2) cache) := by
  induction ts generalizing cache with
  | nil => exact ⟨h, .refl cache⟩
  | cons t ts ih =>
    obtain ⟨r, hyields⟩ := (c.settles_compile t).exists_yields
    obtain ⟨after, hrun, hsound, hwithin⟩ := hyields cache h
    rw [List.foldl_cons, hrun]
    obtain ⟨hsound', hwithin'⟩ := ih hsound
    exact ⟨hsound', hwithin.trans hwithin'⟩

theorem sound_cacheAfter (c : Catalog) (history : List TypeExpr) : (c.cacheAfter history).Sound c :=
  (sound_foldl (Cache.sound_nil c) history).1

/-- After any sequence of compilations, compiling a type ends, however deep the classes refer to
each other: the bound on the depth of a compilation makes no difference as long as it leaves room
for all definitions. It gives a layout exactly if the type is well formed. Otherwise it rejects the
type, except where a representation cannot be looked up in a table. -/
theorem compile_decides_wellFormed (c : Catalog) (history : List TypeExpr) (t : TypeExpr) :
    (∀ depth, c.length < depth → t.compile (c.compileClass depth []) [] = c.compile t) ∧
      ((∃ l, (c.compile t (c.cacheAfter history)).1 = .ok l) ↔ c.WellFormed t []) ∧
      (¬ c.WellFormed t [] →
        (∃ e, (c.compile t (c.cacheAfter history)).1 = .error (.rejected e)) ∨
          ∃ f, (∃ name, t.Mentions name ∧ c.Unhashed name f) ∧
            (c.compile t (c.cacheAfter history)).1 = .error (.hash f)) := by
  have hsettles := c.settles_compile t
  have hsound := c.sound_cacheAfter history
  refine ⟨fun depth hdepth => compile_of_length_lt t hdepth, ?_, fun hnot => ?_⟩
  · rw [← exists_hasLayout_iff]
    exact exists_congr fun l => hsettles.eq_ok_iff hsound l
  · exact hsettles.fault hsound fun l hl => hnot hl.wellFormed

/-- An enumeration whose representation is a list. -/
def listReprCatalog : Catalog :=
  [.enumeration (.declare "Kind" false (.list [.text "u8"]) ["A"] [.int 1] (by decide))]

/-- A representation that is a list is no width. It is looked up in a table all the same, which
fails otherwise than by a rejection. -/
theorem list_repr_is_not_rejected :
    ¬ listReprCatalog.WellFormed (.named "Kind") [] ∧
      (listReprCatalog.compile (.named "Kind") (listReprCatalog.cacheAfter [])).1 =
        .error (.hash .unhashable) := by
  have hrun : (listReprCatalog.compile (.named "Kind") []).1 = .error (.hash .unhashable) := by cbv
  refine ⟨fun h => ?_, hrun⟩
  obtain ⟨l, hl⟩ := h.exists_hasLayout
  have hok := ((listReprCatalog.settles_compile _).eq_ok_iff (Cache.sound_nil _) l).2 hl
  rw [hrun] at hok
  cases hok

/-- After any sequence of compilations, failed ones included, a type has the outcome that it has
when nothing has been compiled before. What is in the cache for a class is the layout that the class
compiles to on its own; neither the class nor what it reaches contains itself; further compilations
leave it as it is, and compiling the class returns it. -/
theorem compile_after_others (c : Catalog) (history : List TypeExpr) :
    (∀ t, (c.compile t (c.cacheAfter history)).1 = c.layoutOf t) ∧
      ∀ name l, (c.cacheAfter history).lookup name = some l →
        c.layoutOf (.named name) = .ok l ∧
          (∀ other, other = name ∨ c.Reaches name other → ¬ c.Reaches other other) ∧
          (∀ more, (c.cacheAfter (history ++ more)).lookup name = some l) ∧
          c.compile (.named name) (c.cacheAfter history) = (.ok l, c.cacheAfter history) := by
  have hsound := c.sound_cacheAfter history
  refine ⟨fun t => ?_, fun name l hname => ⟨?_, fun other hother => ?_, fun more => ?_, ?_⟩⟩
  · obtain ⟨r, hyields⟩ := (c.settles_compile t).exists_yields
    obtain ⟨after, hrun, -⟩ := hyields _ hsound
    obtain ⟨fresh, hfresh, -⟩ := hyields [] (Cache.sound_nil c)
    show _ = (c.compile t []).1
    rw [hrun, hfresh]
  · exact ((c.settles_compile (.named name)).eq_ok_iff (Cache.sound_nil c) l).2
      (hsound name l hname)
  · have hends : c.Ends name := (hsound name l hname).wellFormed.ends (.named name)
    rcases hother with rfl | hreach
    · exact not_reaches_self hends
    · exact not_reaches_self (hends.of_reaches hreach)
  · rw [cacheAfter_append]
    exact (sound_foldl hsound more).2 name l hname
  · exact compileClass_of_lookup hname

end Catalog

end FixedLayout
