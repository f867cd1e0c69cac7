import FixedLayout.Schema.Compile

/-!
# Compiled layouts

What holds of every layout that compiling makes. A property that the layouts of leaves have and that
composites and arrays take over from their parts holds of all compiled layouts, as long as it holds
of those that are already in the cache.

* `Layout.Closed`: a property that compiling takes over from the parts to the whole;
* `Compiler.Keeps`: a computation leaves the property true of the cache, and its result has another
  one;
* `Catalog.keeps_compile`: compiling any type keeps a closed property;
* `Cache.Reached`: the caches that sequences of compilations lead to, failed ones included;
* `Layout.NamesNodup`, `closed_namesNodup`: no two fields of a compiled composite share a name.
-/

namespace FixedLayout

/-- A property of layouts that every kind of compiled layout has if its parts do. -/
structure Layout.Closed (P : Layout → Prop) : Prop where
  int : ∀ r, P (.int r)
  bytes : ∀ length, P (.bytes length)
  unit : ∀ cls literal, P (.unit cls literal)
  enumeration : ∀ e, P (.enumeration e)
  model : ∀ (m : ModelDef) (fields : List (String × Option String × Layout)),
    fields.map (·.1) = m.fields.map (·.name) → (∀ f ∈ fields, P f.2.2) →
      P (.composite (.model m.cls) (.ofList fields))
  tuple : ∀ layouts, (∀ l ∈ layouts, P l) → P (.composite .tuple (entryFields 0 layouts))
  array : ∀ element length, P element → P (.array element length)

namespace Compiler

variable {α β : Type} {P : Layout → Prop} {Q : α → Prop} {R : β → Prop}

/-- From a cache whose layouts have the property `P`, a computation leads to such a cache, and what
it returns has the property `Q`. -/
def Keeps (P : Layout → Prop) (m : Compiler α) (Q : α → Prop) : Prop :=
  ∀ cache : Cache, (∀ e ∈ cache, P e.2) →
    (∀ e ∈ (m cache).2, P e.2) ∧ ∀ a, (m cache).1 = .ok a → Q a

theorem keeps_pure {a : α} (h : Q a) : Keeps P (pure a : Compiler α) Q := by
  intro cache hcache
  refine ⟨hcache, fun b hb => ?_⟩
  cases hb
  exact h

theorem keeps_throw (fault : SchemaFault) : Keeps P (throw fault : Compiler α) Q := by
  intro cache hcache
  refine ⟨hcache, fun b hb => ?_⟩
  cases hb

theorem keeps_reject (error : SchemaError) : Keeps P (reject error : Compiler α) Q :=
  keeps_throw (.rejected error)

theorem keeps_lift {r : Except SchemaFault α} (h : ∀ a, r = .ok a → Q a) : Keeps P (lift r) Q := by
  cases r with
  | ok a => exact keeps_pure (h a rfl)
  | error fault => exact keeps_throw fault

/-- One computation after another. -/
theorem Keeps.bind {m : Compiler α} {f : α → Compiler β} (hm : Keeps P m Q)
    (hf : ∀ a, Q a → Keeps P (f a) R) : Keeps P (m >>= f) R := by
  intro cache hcache
  obtain ⟨hkept, hresult⟩ := hm cache hcache
  have hrun : (m >>= f) cache = ExceptT.bindCont f (m cache).1 (m cache).2 := rfl
  rw [hrun]
  cases h : (m cache).1 with
  | ok a => exact hf a (hresult a h) (m cache).2 hkept
  | error fault => exact ⟨hkept, fun b hb => by cases hb⟩

theorem Keeps.inField {m : Compiler α} (hm : Keeps P m Q) (field model : String) :
    Keeps P (inField field model m) Q := by
  intro cache hcache
  obtain ⟨hkept, hresult⟩ := hm cache hcache
  refine ⟨hkept, fun a ha => hresult a ?_⟩
  have hmap : (m cache).1.mapError (·.inField field model) = .ok a := ha
  cases h : (m cache).1 with
  | ok b => rw [h] at hmap; cases hmap; rfl
  | error fault => rw [h] at hmap; cases hmap

end Compiler

open Compiler

section Types

variable {P : Layout → Prop} {compileClass : String → Compiler Layout}

mutual

/-- Compiling a type keeps a closed property if compiling classes does. -/
theorem TypeExpr.keeps_compile (hP : Layout.Closed P)
    (hclass : ∀ name, Keeps P (compileClass name) P) :
    ∀ (t : TypeExpr) (constraints : List Constraint), Keeps P (t.compile compileClass constraints) P
  | .annotated base constraints, outer => by
    unfold TypeExpr.compile
    exact TypeExpr.keeps_compile hP hclass base (constraints ++ outer)
  | .builtin b, constraints => by
    unfold TypeExpr.compile
    cases reprOf? constraints with
    | some r =>
      show Keeps P (if b = .int then _ else _) P
      split
      · exact keeps_pure (hP.int r)
      · exact keeps_reject _
    | none =>
      cases b with
      | bytes =>
        refine keeps_lift fun l hl => ?_
        cases h : fixedLength (.builtin .bytes) constraints with
        | error e => rw [h] at hl; cases hl
        | ok length => rw [h] at hl; cases hl; exact hP.bytes length
      | _ => exact keeps_reject _
  | .list element, constraints => by
    unfold TypeExpr.compile
    cases reprOf? constraints with
    | some r => exact keeps_reject _
    | none =>
      show Keeps P (if element.isNothing then _ else _) P
      split
      · exact keeps_reject _
      · refine (TypeExpr.keeps_compile hP hclass element []).bind fun l hl => ?_
        have hlength : Keeps P
            (lift ((fixedLength (.list element) constraints).mapError .rejected)) fun _ => True :=
          keeps_lift fun _ _ => trivial
        exact hlength.bind fun length _ => keeps_pure (hP.array l length hl)
  | .tuple elements isOpen, constraints => by
    unfold TypeExpr.compile
    cases reprOf? constraints with
    | some r => exact keeps_reject _
    | none =>
      show Keeps P (if elements.isEmpty || isOpen then _ else _) P
      split
      · exact keeps_reject _
      · exact (keeps_compileEach hP hclass elements).bind fun ls hls => keeps_pure (hP.tuple ls hls)
  | .named name, constraints => by
    unfold TypeExpr.compile
    cases reprOf? constraints with
    | some r => exact keeps_reject _
    | none => exact hclass name
  | .literal v, constraints => by
    unfold TypeExpr.compile
    cases reprOf? constraints <;> exact keeps_reject _

theorem keeps_compileEach (hP : Layout.Closed P)
    (hclass : ∀ name, Keeps P (compileClass name) P) :
    ∀ ts : List TypeExpr, Keeps P (compileEach compileClass ts) fun ls => ∀ l ∈ ls, P l
  | [] => by
    unfold compileEach
    exact keeps_pure fun _ hl => absurd hl List.not_mem_nil
  | t :: rest => by
    unfold compileEach
    refine (TypeExpr.keeps_compile hP hclass t []).bind fun l hl => ?_
    refine (keeps_compileEach hP hclass rest).bind fun ls hls => ?_
    exact keeps_pure (List.forall_mem_cons.2 ⟨hl, hls⟩)

end

/-- The compiled fields have the declared names, in order. -/
theorem keeps_compileFields (hP : Layout.Closed P)
    (hclass : ∀ name, Keeps P (compileClass name) P) (model : String) (fs : List FieldDecl) :
    Keeps P (compileFields compileClass model fs) fun fields =>
      fields.map (·.1) = fs.map (·.name) ∧ ∀ f ∈ fields, P f.2.2 := by
  induction fs with
  | nil => exact keeps_pure ⟨rfl, fun _ hf => absurd hf List.not_mem_nil⟩
  | cons f fs ih =>
    unfold compileFields
    refine ((TypeExpr.keeps_compile hP hclass f.type []).inField _ _).bind fun l hl => ?_
    have hoptions : Keeps P (lift ((Options.ofValues? .null f.accessor .null).mapError
        OptionFault.toSchemaFault)) fun _ => True := keeps_lift fun _ _ => trivial
    refine hoptions.bind fun options _ => ih.bind fun fields hfields => keeps_pure ?_
    obtain ⟨hnames, hlayouts⟩ := hfields
    exact ⟨congrArg (f.name :: ·) hnames, List.forall_mem_cons.2 ⟨hl, hlayouts⟩⟩

theorem ModelDef.keeps_compile (hP : Layout.Closed P)
    (hclass : ∀ name, Keeps P (compileClass name) P) (m : ModelDef) :
    Keeps P (m.compile compileClass) P := by
  unfold ModelDef.compile
  split
  · refine keeps_lift fun l hl => ?_
    unfold ModelDef.compileUnit at hl
    split at hl
    · cases hl
    · split at hl
      · cases hl
      · cases h : Literal.ofValues m.name m.value m.repr with
        | error fault => rw [h] at hl; cases hl
        | ok literal => rw [h] at hl; cases hl; exact hP.unit m.cls literal
  · split
    · exact keeps_reject _
    · split
      · exact keeps_reject _
      · refine (keeps_compileFields hP hclass m.name m.fields).bind fun fields hfields => ?_
        split
        · exact keeps_reject _
        · exact keeps_pure (hP.model m fields hfields.1 hfields.2)

theorem EnumDef.keeps_compile (hP : Layout.Closed P) (e : EnumDef) :
    Keeps P (Compiler.lift e.compile) P := by
  refine keeps_lift fun l hl => ?_
  have henum : ∀ r : Except SchemaFault Enumeration, r.map Layout.enumeration = .ok l → P l := by
    intro r hr
    cases r with
    | error fault => cases hr
    | ok enum => cases hr; exact hP.enumeration enum
  unfold EnumDef.compile at hl
  split at hl
  · cases hl
  · next repr hrepr =>
    cases h : (Options.ofValues? .null .null e.repr).mapError OptionFault.toSchemaFault with
    | error fault => rw [h] at hl; cases hl
    | ok options =>
      rw [h] at hl
      simp only [bind, Except.bind] at hl
      split at hl
      · split at hl
        · cases hl
        · exact henum _ hl
      · exact henum _ hl

end Types

namespace Catalog

variable {P : Layout → Prop}

theorem mem_of_lookup {cache : Cache} {name : String} {l : Layout}
    (h : cache.lookup name = some l) : (name, l) ∈ cache := by
  obtain ⟨before, after, rfl, -⟩ := List.lookup_eq_some_iff.1 h
  exact List.mem_append_right before (List.mem_cons_self ..)

/-- A class that has been compiled is put into the cache, unless it is there already. -/
theorem keeps_remember {build : Compiler Layout} (hbuild : Keeps P build P) (name : String) :
    Keeps P (fun cache =>
      match build cache with
      | (.error fault, cache) => (.error fault, cache)
      | (.ok layout, cache) =>
        match cache.lookup name with
        | some earlier => (.ok earlier, cache)
        | none => (.ok layout, (name, layout) :: cache)) P := by
  intro cache hcache
  obtain ⟨hkept, hresult⟩ := hbuild cache hcache
  cases hbuilt : build cache with
  | mk outcome after =>
    rw [hbuilt] at hkept hresult
    simp only [hbuilt]
    cases outcome with
    | error fault => exact ⟨hkept, fun a ha => by cases ha⟩
    | ok l =>
      cases h : after.lookup name with
      | some earlier =>
        simp only [h]
        exact ⟨hkept, fun a ha => by cases ha; exact hkept _ (mem_of_lookup h)⟩
      | none =>
        simp only [h]
        refine ⟨List.forall_mem_cons.2 ⟨hresult l rfl, hkept⟩, fun a ha => ?_⟩
        cases ha
        exact hresult l rfl

/-- Compiling a class keeps a closed property. The induction is on the bound of the depth, within
which the classes that the class refers to are compiled. -/
theorem keeps_compileClass (hP : Layout.Closed P) (c : Catalog) (depth : Nat) :
    ∀ (stack : List String) (name : String), Keeps P (c.compileClass depth stack name) P := by
  induction depth with
  | zero =>
    intro stack name cache hcache
    unfold compileClass
    split
    · next l h => exact ⟨hcache, fun a ha => by cases ha; exact hcache _ (mem_of_lookup h)⟩
    · split <;> exact ⟨hcache, fun a ha => by cases ha⟩
  | succ depth ih =>
    intro stack name cache hcache
    unfold compileClass
    split
    · next l h => exact ⟨hcache, fun a ha => by cases ha; exact hcache _ (mem_of_lookup h)⟩
    · split
      · exact ⟨hcache, fun a ha => by cases ha⟩
      · split
        · next d hdepth hd =>
          cases hdepth
          cases d with
          | model m =>
            exact keeps_remember (m.keeps_compile hP (ih (stack ++ [name]))) name cache hcache
          | enumeration e => exact keeps_remember (e.keeps_compile hP) name cache hcache
        · exact ⟨hcache, fun a ha => by cases ha⟩

/-- Compiling a type keeps a closed property. -/
theorem keeps_compile (hP : Layout.Closed P) (c : Catalog) (t : TypeExpr) :
    Keeps P (c.compile t) P :=
  t.keeps_compile hP (c.keeps_compileClass hP (c.length + 1) []) []

end Catalog

/-- The caches that sequences of compilations lead to, whatever has been defined at the time. -/
inductive Cache.Reached : Cache → Prop
  | empty : Reached []
  | compile {cache : Cache} (c : Catalog) (t : TypeExpr) :
    Reached cache → Reached (c.compile t cache).2

/-- A closed property holds of all layouts in a cache that has been reached. -/
theorem Cache.Reached.forall_mem {P : Layout → Prop} (hP : Layout.Closed P) {cache : Cache}
    (h : Cache.Reached cache) : ∀ e ∈ cache, P e.2 := by
  induction h with
  | empty => exact fun _ he => absurd he List.not_mem_nil
  | compile c t _ ih => exact (c.keeps_compile hP t _ ih).1

/-- A closed property holds of what is compiled from a cache that has been reached. -/
theorem Catalog.closed_of_compile {P : Layout → Prop} (hP : Layout.Closed P) {c : Catalog}
    {t : TypeExpr} {cache : Cache} {l : Layout} (hcache : Cache.Reached cache)
    (h : (c.compile t cache).1 = .ok l) : P l :=
  (c.keeps_compile hP t cache (hcache.forall_mem hP)).2 l h

/-! ### Names of fields -/

mutual

/-- No two fields of a composite have the same name. -/
def Layout.NamesNodup : Layout → Prop
  | .composite _ fields => fields.names.Nodup ∧ fields.NamesNodup
  | .array element _ => element.NamesNodup
  | _ => True

/-- No two fields of a composite inside the fields' layouts have the same name. -/
def Fields.NamesNodup : Fields → Prop
  | .nil => True
  | .cons _ _ layout rest => layout.NamesNodup ∧ rest.NamesNodup

end

theorem Fields.names_ofList (fs : List (String × Option String × Layout)) :
    (Fields.ofList fs).names = fs.map (·.1) := by
  induction fs with
  | nil => rfl
  | cons f fs ih => rw [Fields.ofList, Fields.names, ih, List.map_cons]

theorem Fields.namesNodup_ofList {fs : List (String × Option String × Layout)}
    (h : ∀ f ∈ fs, f.2.2.NamesNodup) : (Fields.ofList fs).NamesNodup := by
  induction fs with
  | nil => trivial
  | cons f fs ih =>
    obtain ⟨hf, hfs⟩ := List.forall_mem_cons.1 h
    exact ⟨hf, ih hfs⟩

/-- Entries are named by the indices from the first one on. -/
theorem names_entryFields (index : Nat) (ls : List Layout) :
    (entryFields index ls).names = (List.range' index ls.length).map toString := by
  induction ls generalizing index with
  | nil => rfl
  | cons l ls ih =>
    rw [entryFields, Fields.names, ih, List.length_cons, List.range'_succ, List.map_cons]

theorem namesNodup_entryFields {ls : List Layout} (h : ∀ l ∈ ls, l.NamesNodup) (index : Nat) :
    (entryFields index ls).NamesNodup := by
  induction ls generalizing index with
  | nil => trivial
  | cons l ls ih =>
    obtain ⟨hl, hls⟩ := List.forall_mem_cons.1 h
    exact ⟨hl, ih hls (index + 1)⟩

/-- Different indices have different texts. -/
theorem toString_nat_injective {m n : Nat} (h : toString m = toString n) : m = n := by
  have hdigits : Nat.toDigits 10 m = Nat.toDigits 10 n := by
    rw [← Nat.toList_repr, ← Nat.toList_repr]
    exact congrArg String.toList h
  rw [← Nat.ofDigitChars_ten_toDigits (n := m), hdigits, Nat.ofDigitChars_ten_toDigits]

/-- The fields of a compiled composite have different names. -/
theorem closed_namesNodup : Layout.Closed Layout.NamesNodup where
  int _ := trivial
  bytes _ := trivial
  unit _ _ := trivial
  enumeration _ := trivial
  model m fields hnames hlayouts := by
    refine ⟨?_, Fields.namesNodup_ofList hlayouts⟩
    rw [Fields.names_ofList, hnames]
    exact m.names_nodup
  tuple layouts hlayouts := by
    refine ⟨?_, namesNodup_entryFields hlayouts 0⟩
    rw [names_entryFields, List.Nodup, List.pairwise_map]
    exact (List.nodup_range' 1).imp fun hne heq => hne (toString_nat_injective heq)
  array _ _ h := h

end FixedLayout
