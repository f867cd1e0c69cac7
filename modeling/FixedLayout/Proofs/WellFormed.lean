import Mathlib.Data.List.Forall2
import FixedLayout.Proofs.References

/-!
# Types with a fixed form

Which types have a layout, said without compiling them, and which layout that is.

* `FixesLength`: constraints that leave a single length. `fixedLength_eq_ok_iff`;
* `LegalLiteral`, `EnumDef.Packable`: contents of units, and enumerations, that have a form;
* `FieldDecl.options`, `FieldDecl.accessorName?`: what the accessor of a field stands for;
* `Catalog.WellFormed`: the types that have a fixed form, the least such predicate;
* `Catalog.HasLayout`: the layout of a type, as a relation. There is one exactly for the well-formed
  types: `Catalog.exists_hasLayout_iff`;
* `Catalog.WellFormed.ends`: no chain of references from a well-formed type is infinite, so that
  none of its classes contains itself.
-/

namespace FixedLayout

/-! ### Lengths -/

/-- The lower bound of the length that a constraint sets. -/
def Constraint.min? : Constraint → Option Int
  | .length min _ => min
  | _ => none

/-- The upper bound of the length that a constraint sets. -/
def Constraint.max? : Constraint → Option Int
  | .length _ max => max
  | _ => none

/-- The last upper bound that constraints set is `n`, and so is the last lower bound, if there is
one. -/
def FixesLength (constraints : List Constraint) (n : Int) : Prop :=
  (constraints.filterMap Constraint.max?).getLast? = some n ∧
    ∀ m, (constraints.filterMap Constraint.min?).getLast? = some m → m = n

theorem getLast?_filterMap_cons {α β : Type} (f : α → Option β) (x : α) (xs : List α) :
    ((x :: xs).filterMap f).getLast? = ((xs.filterMap f).getLast?).or (f x) := by
  rw [List.filterMap_cons]
  cases f x with
  | none => simp
  | some y =>
    simp only [List.getLast?_cons]
    cases (xs.filterMap f).getLast? <;> rfl

/-- The bounds that count are the last ones. -/
theorem lengthBounds_eq (constraints : List Constraint) :
    lengthBounds constraints =
      ((constraints.filterMap Constraint.min?).getLast?,
        (constraints.filterMap Constraint.max?).getLast?) := by
  induction constraints with
  | nil => rfl
  | cons constraint rest ih =>
    rw [getLast?_filterMap_cons, getLast?_filterMap_cons]
    cases constraint <;> simp [lengthBounds, ih, Constraint.min?, Constraint.max?]

theorem fixedLength_eq_ok_iff {type : TypeExpr} {constraints : List Constraint} {n : Int} :
    fixedLength type constraints = .ok n ↔ FixesLength constraints n := by
  unfold fixedLength FixesLength
  rw [lengthBounds_eq]
  cases (constraints.filterMap Constraint.max?).getLast? with
  | none => simp
  | some max =>
    cases (constraints.filterMap Constraint.min?).getLast? with
    | none => simp
    | some min =>
      by_cases h : min = max
      · simp [h]
      · simp only [h, if_false, reduceCtorEq, Option.some.injEq, false_iff, not_and]
        intro hmax hmin
        exact h (hmin min rfl ▸ hmax.symm)

/-- No constraint is an integer representation. -/
def NoRepr (constraints : List Constraint) : Prop := ∀ r, Constraint.repr r ∉ constraints

theorem reprOf?_eq_none_iff {constraints : List Constraint} :
    reprOf? constraints = none ↔ NoRepr constraints := by
  unfold reprOf? NoRepr
  rw [List.findSome?_eq_none_iff]
  constructor
  · intro h r hr
    cases h _ hr
  · intro h constraint hmem
    cases constraint with
    | repr r => exact absurd hmem (h r)
    | _ => rfl

theorem exists_reprOf?_iff {constraints : List Constraint} :
    (∃ r, reprOf? constraints = some r) ↔ ∃ r, Constraint.repr r ∈ constraints := by
  rw [← Option.isSome_iff_exists, ← Option.ne_none_iff_isSome, Ne, reprOf?_eq_none_iff, NoRepr,
    not_forall_not]

theorem not_exists_ok {ε α : Type} {e : ε} : ¬ ∃ a : α, Except.error e = .ok a := nofun

theorem exists_map_ok_iff {ε α β : Type} {f : α → β} {r : Except ε α} :
    (∃ b, r.map f = .ok b) ↔ ∃ a, r = .ok a := by
  cases r with
  | ok a => exact iff_of_true ⟨_, rfl⟩ ⟨a, rfl⟩
  | error e => exact iff_of_false not_exists_ok not_exists_ok

/-! ### Units -/

/-- The pairs of a content and a representation that are the literal of a unit: bytes or a text on
their own, one character as `char`, and a number with a width that it fits. -/
inductive LegalLiteral : Value → Value → Prop
  | bytes (content : Bytes) : LegalLiteral (.bytes content) .null
  | text (s : String) : LegalLiteral (.text s) .null
  | char (ch : Char) : LegalLiteral (.text (String.ofList [ch])) (.text charRepr)
  | number {value repr : Value} {n : Int} {r : IntRepr} : value.integer? = some n →
    IntRepr.ofValue? repr = some r → r.fits n = true → LegalLiteral value repr

theorem exists_ofInt_iff {typeName : String} {n : Int} {label : Option (String × String)}
    {repr : Value} :
    (∃ literal, Literal.ofInt typeName n label repr = .ok literal) ↔
      ∃ r, IntRepr.ofValue? repr = some r ∧ r.fits n = true := by
  unfold Literal.ofInt
  simp only
  split
  · refine iff_of_false not_exists_ok ?_
    rintro ⟨r, hr, -⟩
    cases hr
  · cases hr : IntRepr.ofValue? repr with
    | some r =>
      simp only [Option.some.injEq, exists_eq_left']
      split
      · next hfits => exact iff_of_true ⟨_, rfl⟩ hfits
      · next hfits => exact iff_of_false not_exists_ok hfits
    | none =>
      refine iff_of_false ?_ (by simp)
      simp only
      split <;> exact not_exists_ok

theorem exists_ofValues_iff (typeName : String) {value repr : Value} :
    (∃ literal, Literal.ofValues typeName value repr = .ok literal) ↔ LegalLiteral value repr := by
  constructor
  · rintro ⟨literal, h⟩
    unfold Literal.ofValues at h
    split at h
    · next content =>
      cases repr <;> first | exact .bytes content | cases h
    · next s =>
      split at h
      · exact .text s
      · next name =>
        split at h
        · next hname =>
          split at h
          · next ch hs =>
            obtain rfl : s = String.ofList [ch] := by rw [← hs, String.ofList_toList]
            exact hname ▸ .char ch
          · cases h
        · cases h
      · cases h
    · split at h
      · next n hn =>
        obtain ⟨r, hr, hfits⟩ := exists_ofInt_iff.1 ⟨literal, h⟩
        exact .number hn hr hfits
      · cases h
  · intro h
    cases h with
    | bytes content => exact ⟨_, rfl⟩
    | text s => exact ⟨_, rfl⟩
    | char ch => exact ⟨.char ch, by simp [Literal.ofValues]⟩
    | @number _ _ n r hn hr hfits =>
      unfold Literal.ofValues
      split
      · cases hn
      · cases hn
      · simp only [hn]
        exact exists_ofInt_iff.2 ⟨r, hr, hfits⟩

/-- A unit has a layout exactly if it has no fields and its content is legal. -/
theorem ModelDef.exists_compileUnit_iff {m : ModelDef} :
    (∃ l, m.compileUnit = .ok l) ↔ m.fields = [] ∧ LegalLiteral m.value m.repr := by
  rw [← exists_ofValues_iff m.name]
  unfold ModelDef.compileUnit
  cases m.fields with
  | cons f fs => simp
  | nil =>
    simp only [List.isEmpty_nil, Bool.not_true, Bool.false_eq_true, if_false, true_and]
    split
    · next hvalue =>
      refine iff_of_false not_exists_ok ?_
      rw [exists_ofValues_iff, hvalue]
      intro h
      cases h with
      | number hn => cases hn
    · exact exists_map_ok_iff

/-! ### Enumerations -/

/-- The representation names a width, and there are members, all of which are integers that fit. -/
def EnumDef.Packable (e : EnumDef) : Prop :=
  ∃ r, IntRepr.ofValue? e.repr = some r ∧ e.members ≠ [] ∧
    ∀ m ∈ e.canonicalMembers, ∃ n, m.payload.integer? = some n ∧ r.fits n = true

theorem exists_variantsOf_iff (name : String) {r : IntRepr} {ms : List MemberDecl} :
    (∃ vs, variantsOf name r ms = .ok vs) ↔
      ∀ m ∈ ms, ∃ n, m.payload.integer? = some n ∧ r.fits n = true := by
  induction ms with
  | nil => exact ⟨fun _ _ h => absurd h List.not_mem_nil, fun _ => ⟨[], rfl⟩⟩
  | cons m ms ih =>
    rw [List.forall_mem_cons, ← ih]
    constructor
    · rintro ⟨vs, hvs⟩
      obtain ⟨n, rest, hn, hfits, hrest, -⟩ := variantsOf_cons hvs
      exact ⟨⟨n, hn, hfits⟩, rest, hrest⟩
    · rintro ⟨⟨n, hn, hfits⟩, rest, hrest⟩
      refine ⟨(m.name, n) :: rest, ?_⟩
      simp only [variantsOf, hn, hfits, if_true, hrest]
      rfl

theorem exists_ofDef_iff {e : EnumDef} {repr : Value} :
    (∃ enum, Enumeration.ofDef e repr = .ok enum) ↔
      ∃ r, IntRepr.ofValue? repr = some r ∧ e.members ≠ [] ∧
        ∀ m ∈ e.canonicalMembers, ∃ n, m.payload.integer? = some n ∧ r.fits n = true := by
  unfold Enumeration.ofDef
  split
  · next hr =>
    refine iff_of_false ?_ (by simp [hr])
    split <;> exact not_exists_ok
  · next r hr =>
    cases hmembers : e.members with
    | nil => simp
    | cons first rest =>
      simp only [List.isEmpty_cons, Bool.false_eq_true, if_false, hr, Option.some.injEq,
        exists_eq_left', ne_eq, reduceCtorEq, not_false_eq_true, true_and]
      rw [← exists_variantsOf_iff e.name]
      split
      · next fault h => exact iff_of_false not_exists_ok (h ▸ not_exists_ok)
      · next vs h => exact iff_of_true ⟨_, rfl⟩ ⟨vs, h⟩

/-- The name of a width is accepted as an option, and is not that of characters. -/
theorem ofValues?_of_ofValue? {repr : Value} {r : IntRepr} (h : IntRepr.ofValue? repr = some r) :
    ∃ name, repr = .text name ∧ name ≠ charRepr ∧
      Options.ofValues? .null .null repr = .ok ⟨.null, .null, repr⟩ := by
  cases repr with
  | text name =>
    have hname : IntRepr.ofName? name = some r := h
    refine ⟨name, rfl, ?_, ?_⟩
    · rintro rfl
      cases hname
    · simp [Options.ofValues?, Options.checkRepr, Options.checkValue, Options.readAccessor, hname,
        bind, Except.bind, pure, Except.pure]
  | _ => cases h

/-- An enumeration has a layout exactly if it is packable. -/
theorem EnumDef.exists_compile_iff {e : EnumDef} : (∃ l, e.compile = .ok l) ↔ e.Packable := by
  unfold EnumDef.Packable
  rw [← exists_ofDef_iff, ← exists_map_ok_iff (f := Layout.enumeration)]
  constructor
  · rintro ⟨l, h⟩
    unfold EnumDef.compile at h
    split at h
    · cases h
    · cases ho : (Options.ofValues? .null .null e.repr).mapError OptionFault.toSchemaFault with
      | error fault => rw [ho] at h; cases h
      | ok options =>
        rw [ho] at h
        simp only [bind, Except.bind] at h
        split at h
        · split at h
          · cases h
          · exact ⟨l, h⟩
        · exact ⟨l, h⟩
  · rintro ⟨l, h⟩
    obtain ⟨r, hr, -⟩ := exists_ofDef_iff.1 (exists_map_ok_iff.1 ⟨l, h⟩)
    obtain ⟨name, hrepr, hname, hoptions⟩ := ofValues?_of_ofValue? hr
    rw [hrepr] at hoptions h
    refine ⟨l, ?_⟩
    unfold EnumDef.compile
    simp only [hrepr, hoptions, bind, Except.bind, Except.mapError, hname, if_false]
    exact h

/-! ### Accessors -/

/-- The options of a field. -/
def FieldDecl.options (f : FieldDecl) : Except OptionFault Options :=
  Options.ofValues? .null f.accessor .null

/-- The name by which a field can be reached, if its accessor is not suppressed. -/
def FieldDecl.accessorName? (f : FieldDecl) : Option String :=
  match f.options with
  | .ok options => options.accessorName f.name
  | .error _ => none

/-- No name occurs again exactly if there are no duplicates. -/
theorem firstDuplicate?_eq_none_iff {seen names : List String} :
    firstDuplicate? seen names = none ↔ names.Nodup ∧ ∀ name ∈ names, name ∉ seen := by
  induction names generalizing seen with
  | nil => simp [firstDuplicate?]
  | cons name rest ih =>
    by_cases h : name ∈ seen
    · simp [firstDuplicate?, h]
    · simp only [firstDuplicate?, List.contains_eq_mem, h, decide_false, Bool.false_eq_true,
        if_false, ih, List.nodup_cons, List.mem_cons, not_or, forall_eq_or_imp]
      constructor
      · rintro ⟨hnodup, hseen⟩
        exact ⟨⟨fun hmem => (hseen name hmem).1 rfl, hnodup⟩, not_false, fun x hx => (hseen x hx).2⟩
      · rintro ⟨⟨hnew, hnodup⟩, -, hseen⟩
        exact ⟨hnodup, fun x hx => ⟨fun heq => hnew (heq ▸ hx), hseen x hx⟩⟩

/-! ### Types -/

namespace Catalog

/-- The types that have a fixed form, with constraints attached to them. Constraints of nested
annotations count together, the inner ones first. An integer representation among them makes an
integer of a fixed width; without one, a type has the form of what it is made of. -/
inductive WellFormed (c : Catalog) : TypeExpr → List Constraint → Prop
  | annotated {base : TypeExpr} {inner outer : List Constraint} :
    WellFormed c base (inner ++ outer) → WellFormed c (.annotated base inner) outer
  | int {constraints : List Constraint} :
    (∃ r, Constraint.repr r ∈ constraints) → WellFormed c (.builtin .int) constraints
  | bytes {constraints : List Constraint} {n : Int} :
    NoRepr constraints → FixesLength constraints n → WellFormed c (.builtin .bytes) constraints
  | list {element : TypeExpr} {constraints : List Constraint} {n : Int} :
    NoRepr constraints → FixesLength constraints n → WellFormed c element [] →
      WellFormed c (.list element) constraints
  | tuple {elements : List TypeExpr} {constraints : List Constraint} :
    NoRepr constraints → elements ≠ [] → (∀ t ∈ elements, WellFormed c t []) →
      WellFormed c (.tuple elements false) constraints
  | enumeration {name : String} {constraints : List Constraint} {e : EnumDef} :
    NoRepr constraints → c.find? name = some (.enumeration e) → e.Packable →
      WellFormed c (.named name) constraints
  | unit {name : String} {constraints : List Constraint} {m : ModelDef} :
    NoRepr constraints → c.find? name = some (.model m) → m.kind = .unit → m.fields = [] →
      LegalLiteral m.value m.repr → WellFormed c (.named name) constraints
  | model {name : String} {constraints : List Constraint} {m : ModelDef} :
    NoRepr constraints → c.find? name = some (.model m) → m.kind ≠ .unit → m.value = .null →
      m.fields ≠ [] → (∀ f ∈ m.fields, WellFormed c f.type []) →
      (∀ f ∈ m.fields, ∃ options, f.options = .ok options) →
      (m.fields.filterMap FieldDecl.accessorName?).Nodup → WellFormed c (.named name) constraints

/-- The layout of a type with constraints attached to it. -/
inductive HasLayout (c : Catalog) : TypeExpr → List Constraint → Layout → Prop
  | annotated {base : TypeExpr} {inner outer : List Constraint} {l : Layout} :
    HasLayout c base (inner ++ outer) l → HasLayout c (.annotated base inner) outer l
  | int {constraints : List Constraint} {r : IntRepr} :
    reprOf? constraints = some r → HasLayout c (.builtin .int) constraints (.int r)
  | bytes {constraints : List Constraint} {n : Int} : reprOf? constraints = none →
    fixedLength (.builtin .bytes) constraints = .ok n →
      HasLayout c (.builtin .bytes) constraints (.bytes n)
  | list {element : TypeExpr} {constraints : List Constraint} {l : Layout} {n : Int} :
    reprOf? constraints = none → HasLayout c element [] l →
      fixedLength (.list element) constraints = .ok n →
      HasLayout c (.list element) constraints (.array l n)
  | tuple {elements : List TypeExpr} {constraints : List Constraint} {layouts : List Layout} :
    reprOf? constraints = none → elements ≠ [] → elements.length = layouts.length →
      (∀ t l, (t, l) ∈ elements.zip layouts → HasLayout c t [] l) →
      HasLayout c (.tuple elements false) constraints (.composite .tuple (entryFields 0 layouts))
  | enumeration {name : String} {constraints : List Constraint} {e : EnumDef} {l : Layout} :
    reprOf? constraints = none → c.find? name = some (.enumeration e) → e.compile = .ok l →
      HasLayout c (.named name) constraints l
  | unit {name : String} {constraints : List Constraint} {m : ModelDef} {l : Layout} :
    reprOf? constraints = none → c.find? name = some (.model m) → m.kind = .unit →
      m.compileUnit = .ok l → HasLayout c (.named name) constraints l
  | model {name : String} {constraints : List Constraint} {m : ModelDef} {layouts : List Layout} :
    reprOf? constraints = none → c.find? name = some (.model m) → m.kind ≠ .unit →
      m.value = .null → m.fields ≠ [] → m.fields.length = layouts.length →
      (∀ f l, (f, l) ∈ m.fields.zip layouts → HasLayout c f.type [] l) →
      (∀ f ∈ m.fields, ∃ options, f.options = .ok options) →
      (m.fields.filterMap FieldDecl.accessorName?).Nodup →
      HasLayout c (.named name) constraints
        (.composite (.model m.cls)
          (.ofList (m.fields.zipWith (fun f l => (f.name, f.accessorName?, l)) layouts)))

variable {c : Catalog} {t : TypeExpr} {constraints : List Constraint}

/-- If every item has a partner, there is a list of partners. -/
theorem exists_zip_of_forall {α β : Type} {R : α → β → Prop} {xs : List α}
    (h : ∀ x ∈ xs, ∃ y, R x y) :
    ∃ ys : List β, xs.length = ys.length ∧ ∀ x y, (x, y) ∈ xs.zip ys → R x y := by
  induction xs with
  | nil => exact ⟨[], rfl, fun _ _ h => absurd h List.not_mem_nil⟩
  | cons x xs ih =>
    obtain ⟨⟨y, hy⟩, hrest⟩ := List.forall_mem_cons.1 h
    obtain ⟨ys, hlen, hys⟩ := ih hrest
    refine ⟨y :: ys, congrArg Nat.succ hlen, fun a b hab => ?_⟩
    rcases List.mem_cons.1 hab with heq | hmem
    · cases heq
      exact hy
    · exact hys a b hmem

/-- Every item of the first of two lists of the same length has a partner in the second. -/
theorem exists_mem_zip {α β : Type} {xs : List α} {ys : List β} (h : xs.length = ys.length) {x : α}
    (hx : x ∈ xs) : ∃ y, (x, y) ∈ xs.zip ys := by
  induction xs generalizing ys with
  | nil => cases hx
  | cons first xs ih =>
    cases ys with
    | nil => cases h
    | cons y ys =>
      rcases List.mem_cons.1 hx with rfl | hmem
      · exact ⟨y, List.mem_cons_self ..⟩
      · obtain ⟨z, hz⟩ := ih (Nat.succ.inj h) hmem
        exact ⟨z, List.mem_cons_of_mem _ hz⟩

theorem HasLayout.wellFormed {l : Layout} (h : c.HasLayout t constraints l) :
    c.WellFormed t constraints := by
  induction h with
  | annotated _ ih => exact .annotated ih
  | int hr => exact .int (exists_reprOf?_iff.1 ⟨_, hr⟩)
  | bytes hr hn => exact .bytes (reprOf?_eq_none_iff.1 hr) (fixedLength_eq_ok_iff.1 hn)
  | list hr _ hn ih => exact .list (reprOf?_eq_none_iff.1 hr) (fixedLength_eq_ok_iff.1 hn) ih
  | tuple hr hne hlen _ ih =>
    refine .tuple (reprOf?_eq_none_iff.1 hr) hne fun t ht => ?_
    obtain ⟨l, hl⟩ := exists_mem_zip hlen ht
    exact ih t l hl
  | enumeration hr hd hl =>
    exact .enumeration (reprOf?_eq_none_iff.1 hr) hd (EnumDef.exists_compile_iff.1 ⟨_, hl⟩)
  | unit hr hd hkind hl =>
    obtain ⟨hfields, hlegal⟩ := ModelDef.exists_compileUnit_iff.1 ⟨_, hl⟩
    exact .unit (reprOf?_eq_none_iff.1 hr) hd hkind hfields hlegal
  | model hr hd hkind hvalue hne hlen _ hoptions hnodup ih =>
    refine .model (reprOf?_eq_none_iff.1 hr) hd hkind hvalue hne (fun f hf => ?_) hoptions hnodup
    obtain ⟨l, hl⟩ := exists_mem_zip hlen hf
    exact ih f l hl

theorem WellFormed.exists_hasLayout (h : c.WellFormed t constraints) :
    ∃ l, c.HasLayout t constraints l := by
  induction h with
  | annotated _ ih =>
    obtain ⟨l, hl⟩ := ih
    exact ⟨l, .annotated hl⟩
  | int hr =>
    obtain ⟨r, hr⟩ := exists_reprOf?_iff.2 hr
    exact ⟨_, .int hr⟩
  | bytes hr hn => exact ⟨_, .bytes (reprOf?_eq_none_iff.2 hr) (fixedLength_eq_ok_iff.2 hn)⟩
  | list hr hn _ ih =>
    obtain ⟨l, hl⟩ := ih
    exact ⟨_, .list (reprOf?_eq_none_iff.2 hr) hl (fixedLength_eq_ok_iff.2 hn)⟩
  | tuple hr hne _ ih =>
    obtain ⟨layouts, hlen, hlayouts⟩ := exists_zip_of_forall ih
    exact ⟨_, .tuple (reprOf?_eq_none_iff.2 hr) hne hlen hlayouts⟩
  | enumeration hr hd he =>
    obtain ⟨l, hl⟩ := EnumDef.exists_compile_iff.2 he
    exact ⟨l, .enumeration (reprOf?_eq_none_iff.2 hr) hd hl⟩
  | unit hr hd hkind hfields hlegal =>
    obtain ⟨l, hl⟩ := ModelDef.exists_compileUnit_iff.2 ⟨hfields, hlegal⟩
    exact ⟨l, .unit (reprOf?_eq_none_iff.2 hr) hd hkind hl⟩
  | model hr hd hkind hvalue hne _ hoptions hnodup ih =>
    obtain ⟨layouts, hlen, hlayouts⟩ :=
      exists_zip_of_forall (R := fun (f : FieldDecl) l => c.HasLayout f.type [] l) ih
    exact ⟨_, .model (reprOf?_eq_none_iff.2 hr) hd hkind hvalue hne hlen hlayouts hoptions hnodup⟩

/-- Exactly the well-formed types have a layout. -/
theorem exists_hasLayout_iff : (∃ l, c.HasLayout t constraints l) ↔ c.WellFormed t constraints :=
  ⟨fun ⟨_, h⟩ => h.wellFormed, WellFormed.exists_hasLayout⟩

/-- All chains of references from the classes of a well-formed type end. -/
theorem WellFormed.ends (h : c.WellFormed t constraints) {name : String} (hname : t.Mentions name) :
    c.Ends name := by
  induction h generalizing name with
  | annotated _ ih =>
    cases hname with
    | annotated hname => exact ih hname
  | int => cases hname
  | bytes => cases hname
  | list _ _ _ ih =>
    cases hname with
    | list hname => exact ih hname
  | tuple _ _ _ ih =>
    cases hname with
    | tuple ht hname => exact ih _ ht hname
  | enumeration _ hd =>
    cases hname
    refine ⟨_, fun other hrefers => ?_⟩
    obtain ⟨m, hm, -⟩ := hrefers
    rw [hd] at hm
    cases hm
  | unit _ hd _ hfields =>
    cases hname
    refine ⟨_, fun other hrefers => ?_⟩
    obtain ⟨m, hm, f, hf, -⟩ := hrefers
    rw [hd] at hm
    cases hm
    rw [hfields] at hf
    cases hf
  | model _ hd _ _ _ _ _ _ ih =>
    cases hname
    refine ⟨_, fun other hrefers => ?_⟩
    obtain ⟨m, hm, f, hf, hother⟩ := hrefers
    rw [hd] at hm
    cases hm
    exact ih f hf hother

end Catalog

end FixedLayout
