import FixedLayout.Proofs.Instances

/-!
# Validated objects

An object that is given for a field is validated by what it looks like, and becomes an object that
holds a value of the field's layout. Instances are shared, not copied. They have to be of the class
that the field declares: validation lets instances of extensions of this class pass, whose layout is
another one.

* `Layout.Takes`: the objects that may be given for a layout;
* `Store.makes_adopt`: those of them that pass validation are made into objects that hold values;
* `Store.makes_adoptFields`: the fields of a new instance.
-/

namespace FixedLayout

/-- The items of a list or tuple. -/
def Object.items? : Object → Option (List Object)
  | .list items => some items
  | .tuple items => some items
  | _ => none

/-- Lists, tuples, dictionaries and instances are objects of their own, and no plain values. -/
def Object.Proper : Object → Prop
  | .plain (.list _) => False
  | .plain (.tuple _) => False
  | .plain (.dict _) => False
  | .plain (.record _ _) => False
  | _ => True

/-- What is placed in a store is proper. -/
theorem Store.proper_place (v : Value) (s : Store) : (Store.place v s).1.Proper := by
  cases v with
  | view layout content => cases content <;> trivial
  | _ => trivial

mutual

/-- Whether an object may be given for a layout. Whatever it is otherwise, an instance in the place
of an instance is one of the class itself, and a member in the place of a member is a declared
one. -/
def Layout.Takes (s : Store) (first : Nat) : Layout → Object → Prop
  | .int _, _ => True
  | .bytes _, _ => True
  | .unit cls _, o => o.Proper ∧ ∀ id, o = .record id → s.IsInstance first cls id
  | .enumeration e, o => ∀ name integral payload,
      o = .plain (.member e.name name integral payload) →
        (Layout.enumeration e).Canonical (.member e.name name integral payload)
  | .composite (.model cls) fields, o => o.Proper ∧
      (∀ id, o = .record id → s.IsInstance first cls id) ∧
      ∀ items, o = .dict items → fields.TakeNamed s first (Store.entryNamed items)
  | .composite .tuple fields, o => o.Proper ∧
      ∀ items, o.items? = some items → fields.TakeEach s first items
  | .array element _, o => o.Proper ∧
      ∀ items, o.items? = some items → ∀ x ∈ items, element.Takes s first x

/-- Whether objects may be given for fields, as far as there are fields for them. -/
def Fields.TakeEach (s : Store) (first : Nat) : Fields → List Object → Prop
  | .cons _ _ layout rest, o :: others => layout.Takes s first o ∧ rest.TakeEach s first others
  | _, _ => True

/-- Whether what is given for the names of fields may be given for them. -/
def Fields.TakeNamed (s : Store) (first : Nat) (given : String → Option Object) : Fields → Prop
  | .nil => True
  | .cons name _ layout rest =>
    (∀ o, given name = some o → layout.Takes s first o) ∧ rest.TakeNamed s first given

end

theorem Fields.takeNamed_iff {s : Store} {first : Nat} {given : String → Option Object} :
    ∀ {fs : Fields}, fs.TakeNamed s first given ↔
      ∀ f ∈ fs.toList, ∀ o, given f.1 = some o → f.2.2.Takes s first o
  | .nil => ⟨fun _ _ hf => absurd hf List.not_mem_nil, fun _ => trivial⟩
  | .cons _ _ _ rest => by
    have hrest : rest.TakeNamed s first given ↔ _ := Fields.takeNamed_iff
    rw [Fields.toList, List.forall_mem_cons, ← hrest, Fields.TakeNamed]

/-! ### What objects look like -/

namespace Store

variable {c : Catalog} {first : Nat} {s : Store} {t : TypeExpr} {l : Layout} {n : Nat} {o : Object}

theorem recordValue_cases (s : Store) (n id : Nat) :
    s.recordValue n id = .null ∨ ∃ cls given, s.recordValue n id = .record cls given := by
  cases n with
  | zero => exact .inl rfl
  | succ n =>
    rw [recordValue]
    split
    · exact .inr ⟨_, _, rfl⟩
    · exact .inl rfl

theorem viewValue_cases (s : Store) (id : Nat) :
    s.viewValue id = .null ∨ ∃ l content, s.viewValue id = .view l content := by
  unfold viewValue
  split
  · exact .inr ⟨_, _, rfl⟩
  · exact .inl rfl

/-- What looks like an integer, bytes, a text or a member is one, and what looks like a collection
or an instance, and is no plain value, is one too. -/
theorem eq_of_value {v : Value} (h : o.value s (s.recordValue n) = v) :
    o = .plain v ∨ match v with
      | .list vs => ∃ os, o = .list os ∧ Object.values s (s.recordValue n) os = vs
      | .tuple vs => ∃ os, o = .tuple os ∧ Object.values s (s.recordValue n) os = vs
      | .dict ps => ∃ items, o = .dict items ∧ Object.pairs s (s.recordValue n) items = ps
      | .record _ _ => ∃ id, o = .record id
      | .int _ => False
      | .bytes _ => False
      | .text _ => False
      | .member _ _ _ _ => False
      | _ => True := by
  cases o with
  | plain v' => exact .inl (congrArg Object.plain h)
  | list items => subst h; exact .inr ⟨items, rfl, rfl⟩
  | tuple items => subst h; exact .inr ⟨items, rfl, rfl⟩
  | dict items => subst h; exact .inr ⟨items, rfl, rfl⟩
  | buffer id => subst h; exact .inr trivial
  | memory window format rows => subst h; exact .inr trivial
  | record id =>
    rcases s.recordValue_cases n id with hnull | ⟨cls, given, hrecord⟩
    · obtain rfl : Value.null = v := hnull.symm.trans h
      exact .inr trivial
    · obtain rfl : Value.record cls given = v := hrecord.symm.trans h
      exact .inr ⟨id, rfl⟩
  | view id =>
    rcases s.viewValue_cases id with hnull | ⟨l, content, hview⟩
    · obtain rfl : Value.null = v := hnull.symm.trans h
      exact .inr trivial
    · obtain rfl : Value.view l content = v := hview.symm.trans h
      exact .inr trivial

/-- What looks like a list or tuple has objects for its items. -/
theorem exists_items (ho : o.Proper) {vs : List Value}
    (h : o.value s (s.recordValue n) = .list vs ∨ o.value s (s.recordValue n) = .tuple vs) :
    ∃ os, o.items? = some os ∧ Object.values s (s.recordValue n) os = vs := by
  rcases h with h | h
  · rcases eq_of_value h with rfl | ⟨os, rfl, hos⟩
    · exact ho.elim
    · exact ⟨os, rfl, hos⟩
  · rcases eq_of_value h with rfl | ⟨os, rfl, hos⟩
    · exact ho.elim
    · exact ⟨os, rfl, hos⟩

/-- A dictionary gives objects for the names that it gives values for. -/
theorem lookup_toFields {items : List (Object × Object)} {given : List (String × Value)}
    (h : Value.toFields (Object.pairs s (s.recordValue n) items) = .ok given) (name : String) :
    given.lookup name = (entryNamed items name).map (·.value s (s.recordValue n)) := by
  induction items generalizing given with
  | nil => cases h; rfl
  | cons e items ih =>
    obtain ⟨k, x⟩ := e
    rw [Object.pairs] at h
    cases hk : k.value s (s.recordValue n) with
    | text key =>
      rcases eq_of_value hk with rfl | hfalse
      · obtain ⟨rest, hrest, rfl⟩ := map_eq_ok_iff.1 (hk ▸ h)
        rw [List.lookup_cons, ih hrest]
        unfold entryNamed
        rw [List.find?_cons]
        dsimp only
        by_cases hname : name = key
        · subst hname
          simp
        · rw [beq_false_of_ne hname, beq_false_of_ne (Ne.symm hname)]
      · exact hfalse.elim
    | _ =>
      rw [hk] at h
      cases h

/-! ### Adopting -/

theorem adopt_list {ws : List Value} {os : List Object} (h : o.items? = some os) :
    adopt (.list ws) o = (do return Object.list (← adoptEach ws os)) := by
  cases o <;> cases h <;> rfl

theorem adopt_tuple {ws : List Value} {os : List Object} (h : o.items? = some os) :
    adopt (.tuple ws) o = (do return Object.tuple (← adoptEach ws os)) := by
  cases o <;> cases h <;> rfl

/-- Items of a list that pass validation are made into objects that hold values. -/
theorem makes_adoptEach {validate : Value → Validated Value} {os : List Object}
    (h : ∀ o ∈ os, ∀ v, validate (o.value s (s.recordValue n)) = .ok v →
      Makes c first s (adopt v o) fun now x => l.Holds now first x)
    {index : Nat} {ws : List Value}
    (hws : validateEach validate index (Object.values s (s.recordValue n) os) = .ok ws) :
    Makes c first s (adoptEach ws os) fun now xs =>
      List.Forall₂ (fun l x => l.Holds now first x) (List.replicate ws.length l) xs := by
  induction os generalizing index ws with
  | nil =>
    cases hws
    exact makes_pure fun _ _ => .nil
  | cons o os ih =>
    obtain ⟨hfirst, hrest⟩ := List.forall_mem_cons.1 h
    obtain ⟨w, rest, hw, hothers, rfl⟩ := validateEach_cons hws
    exact (hfirst w hw).cons (ih hrest hothers)

/-- Entries of a tuple that pass validation are made into objects that hold values. -/
theorem makes_adoptEntries {validateClass : String → Value → Validated Value}
    {ts : List TypeExpr} {ls : List Layout} (hlen : ts.length = ls.length)
    (h : ∀ t l, (t, l) ∈ ts.zip ls → ∀ o v, l.Takes s first o →
      t.validate validateClass [] (o.value s (s.recordValue n)) = .ok v →
        Makes c first s (adopt v o) fun now x => l.Holds now first x)
    {index : Nat} {os : List Object} (hos : (entryFields index ls).TakeEach s first os)
    (hle : os.length ≤ ts.length) {start : Nat} {ws : List Value}
    (hws : validateEntries validateClass start ts (Object.values s (s.recordValue n) os) = .ok ws) :
    Makes c first s (adoptEach ws os) fun now xs =>
      List.Forall₂ (fun l x => l.Holds now first x) ls xs := by
  induction ts generalizing ls index os start ws with
  | nil =>
    cases ls with
    | cons l ls => cases hlen
    | nil =>
      cases hws
      exact makes_pure fun _ _ => .nil
  | cons t ts ih =>
    cases ls with
    | nil => cases hlen
    | cons l ls =>
      cases os with
      | nil => exact absurd hws validateEntries_nil
      | cons o os =>
        obtain ⟨w, rest, hw, hothers, rfl⟩ := validateEntries_cons hws
        have hfirst := h t l (List.mem_cons_self ..) o w hos.1 hw
        exact hfirst.cons (ih (Nat.succ.inj hlen)
          (fun t l hmem => h t l (List.mem_cons_of_mem _ hmem)) hos.2 (Nat.le_of_succ_le_succ hle)
          hothers)

/-- Fields that pass validation are made into objects that hold values, and so are the defaults of
those that are not given. -/
theorem makes_adoptFields {validate : TypeExpr → Value → Validated Value}
    {fields : List (String × Option String × Layout)} {decls : List FieldDecl}
    {given : String → Option Object} {values results : List (String × Value)}
    (hvalues : ∀ name, values.lookup name =
      (given name).map (·.value s (s.recordValue n)))
    (hgiven : ∀ f ∈ decls, ∀ o v, given f.name = some o →
      validate f.type (o.value s (s.recordValue n)) = .ok v →
        Makes c first s (adopt v o) fun now x =>
          ∀ field ∈ fields, field.1 = f.name → field.2.2.Holds now first x)
    (hdefault : ∀ f ∈ decls, ∀ v, f.default = some v →
      Makes c first s (place v) fun now x =>
        ∀ field ∈ fields, field.1 = f.name → field.2.2.Holds now first x)
    (h : validateFields validate values decls = .ok results) :
    Makes c first s (adoptFields given results) (FieldsHold first fields (decls.map (·.name))) := by
  induction decls generalizing results with
  | nil =>
    cases h
    exact makes_pure fun _ _ => ⟨rfl, fun _ _ _ h => absurd h List.not_mem_nil⟩
  | cons f decls ih =>
    obtain ⟨hgiven, hgivens⟩ := List.forall_mem_cons.1 hgiven
    obtain ⟨hdefault, hdefaults⟩ := List.forall_mem_cons.1 hdefault
    obtain ⟨w, rest, rfl, hrest, hvalidated, habsent⟩ := validateFields_cons h
    have hothers := ih hgivens hdefaults hrest
    have hlookup := hvalues f.name
    rw [adoptFields]
    cases hname : given f.name with
    | some o =>
      rw [hname] at hlookup
      exact (hgiven o w hname (hvalidated _ hlookup)).field hothers
    | none =>
      rw [hname] at hlookup
      exact (hdefault w (habsent hlookup)).field hothers

/-- An object for a class that passes validation is an instance of it, or is made into one from the
entries of a dictionary. -/
theorem makes_adopt_class {name : String} {m : ModelDef} (hd : c.find? name = some (.model m))
    (hl : c.StandardLayout (.named m.cls.name) l) (hfirst : first ≤ s.records.length)
    (hproper : o.Proper) (hrecord : ∀ id, o = .record id → s.IsInstance first m.cls id)
    (hdict : ∀ items depth values results, o = .dict items →
      (∀ name, values.lookup name =
        (entryNamed items name).map (·.value s (s.recordValue n))) →
      validateFields (fun t v => t.validate (c.validateClass depth) [] v) values m.fields =
        .ok results →
      Makes c first s (adoptFields (entryNamed items) results) fun now given =>
        l.Filled now first m.cls given)
    {depth : Nat} {v : Value}
    (h : c.validateClass depth name (o.value s (s.recordValue n)) = .ok v) :
    Makes c first s (adopt v o) fun now x =>
      ∃ id, x = .record id ∧ now.IsInstance first m.cls id := by
  rcases Catalog.validateClass_cases hd h with ⟨cls, fields, hv, rfl⟩ |
    ⟨items, given, depth', hv, hgiven, hfields⟩
  · -- an instance of the class stays the same object
    rcases eq_of_value hv with rfl | ⟨id, rfl⟩
    · exact hproper.elim
    · rw [hv]
      exact makes_pure fun now hnow => ⟨id, rfl, (hrecord id rfl).mono hnow.keeps⟩
  · -- a dictionary is replaced by a new instance
    rcases eq_of_value hv with rfl | ⟨entries, rfl, rfl⟩
    · exact hproper.elim
    · obtain ⟨results, rfl, hresults⟩ := ModelDef.exists_fields_of_validate hfields
      exact (hdict entries depth' given results rfl (lookup_toFields hgiven) hresults).record
        hfirst hl

/-- The validated fields of a model of standard types are made into fields that hold values. -/
theorem makes_modelFields {m : ModelDef} {fields : List (String × Option String × Layout)}
    (hnames : m.fields.map (·.name) = fields.map (·.1))
    (hparts : ∀ f field, (f, field) ∈ m.fields.zip fields → c.StandardLayout f.type field.2.2)
    (hdefaults : ∀ f field v, (f, field) ∈ m.fields.zip fields → f.default = some v →
      field.2.2.Canonical v)
    (hfirst : first ≤ s.records.length) {validate : TypeExpr → Value → Validated Value}
    (hadopt : ∀ f field, (f, field) ∈ m.fields.zip fields → ∀ o v, field.2.2.Takes s first o →
      validate f.type (o.value s (s.recordValue n)) = .ok v →
        Makes c first s (adopt v o) fun now x => field.2.2.Holds now first x)
    {given : String → Option Object} {values results : List (String × Value)}
    (hgiven : (Fields.ofList fields).TakeNamed s first given)
    (hvalues : ∀ name, values.lookup name = (given name).map (·.value s (s.recordValue n)))
    (h : validateFields validate values m.fields = .ok results) :
    Makes c first s (adoptFields given results) fun now xs =>
      (Layout.composite (.model m.cls) (.ofList fields)).Filled now first m.cls xs := by
  have hnodup : (fields.map (·.1)).Nodup := hnames ▸ m.names_nodup
  have htakes := Fields.takeNamed_iff.1 hgiven
  rw [Fields.toList_ofList] at htakes
  have hfields : Makes c first s (adoptFields given results)
      (FieldsHold first fields (m.fields.map (·.name))) := makes_adoptFields hvalues
    (fun f hf o v ho hv => by
      obtain ⟨field, hmem, hfield, hname⟩ := exists_compiled hnames hf
      have hmakes := hadopt f field hmem o v (htakes field hfield o (hname ▸ ho)) hv
      exact hname ▸ hmakes.imp fun now x _ hx =>
        forall_named (P := fun l => l.Holds now first x) hnodup hfield hx)
    (fun f hf v hv => by
      obtain ⟨field, hmem, hfield, hname⟩ := exists_compiled hnames hf
      have hmakes := makes_place (hparts f field hmem) (hdefaults f field v hmem hv) hfirst
      exact hname ▸ hmakes.imp fun now x _ hx =>
        forall_named (P := fun l => l.Holds now first x) hnodup hfield hx) h
  exact hfields.imp fun now xs _ hxs => hxs.filled (List.Perm.of_eq hnames)

/-- An object that may be given for a standard type, and passes validation, is made into an object
that holds a value. -/
theorem makes_adopt (ht : c.StandardLayout t l) (hfirst : first ≤ s.records.length)
    (ho : l.Takes s first o) {depth : Nat} {v : Value}
    (h : t.validate (c.validateClass depth) [] (o.value s (s.recordValue n)) = .ok v) :
    Makes c first s (adopt v o) fun now x => l.Holds now first x := by
  induction ht generalizing o depth v with
  | int r =>
    obtain ⟨k, rfl, hfits⟩ := exists_int_of_validate h
    exact makes_pure fun _ _ => ⟨.int k, rfl, k, rfl, hfits⟩
  | bytes _ =>
    obtain ⟨content, rfl, hlen⟩ := exists_bytes_of_validate h
    exact makes_pure fun _ _ => ⟨.bytes content, rfl, content, rfl, hlen⟩
  | @list t l len _ _ ih =>
    obtain ⟨vs, ws, hvs, rfl, hlen, hws⟩ := exists_list_of_validate h
    obtain ⟨os, hos, rfl⟩ := exists_items ho.1 hvs
    rw [adopt_list hos]
    refine (makes_adoptEach (fun x hx v hv => ih (ho.2 os hos x hx) hv) hws).bind ?_
    intro after xs _ hxs
    obtain ⟨hcount, hheld⟩ := forall₂_replicate_iff.1 hxs
    exact makes_pure fun now hnow =>
      ⟨xs, rfl, by rw [hcount, hlen], fun x hx => (hheld x hx).mono hnow.keeps⟩
  | @tuple ts ls _ hlen _ ih =>
    obtain ⟨vs, ws, hvs, rfl, hle, hws⟩ := exists_tuple_of_validate h
    obtain ⟨os, hos, rfl⟩ := exists_items ho.1 hvs
    rw [values_eq_map, List.length_map] at hle
    rw [adopt_tuple hos]
    refine (makes_adoptEntries hlen (fun t l hmem o v ho hv => ih t l hmem ho hv) (ho.2 os hos) hle
      hws).bind ?_
    intro after xs _ hxs
    exact makes_pure fun now hnow =>
      ⟨xs, rfl, ((holdEach_entryFields_iff 0).2 hxs).mono hnow.keeps⟩
  | @enumeration name e l hd he hl =>
    have hvalidate : e.validate (o.value s (s.recordValue n)) = .ok v := by
      rw [← h, TypeExpr.validate, Catalog.validateClass, hd]
    obtain ⟨enum, henum, rfl⟩ := EnumDef.compile_eq_ok hl
    obtain ⟨hname, -⟩ := Enumeration.ofDef_eq_ok henum
    -- a value is replaced by a declared member, while a member of the enumeration stays as it is
    rcases EnumDef.exists_member_of_validate hvalidate with ⟨m, hm, rfl⟩ |
      ⟨rfl, member, integral, payload, hv⟩
    · exact makes_pure fun _ _ => ⟨_, rfl, EnumDef.canonical_memberValue he hl hm⟩
    · rcases eq_of_value hv with rfl | hfalse
      · rw [hv, ← hname]
        exact makes_pure fun _ _ => ⟨_, rfl, ho _ _ _ (hname ▸ rfl)⟩
      · exact hfalse.elim
  | @unit name m literal hd hkind hfields hunit =>
    obtain rfl := Catalog.name_of_find hd
    refine makes_adopt_class hd (.unit hd hkind hfields hunit) hfirst ho.1 ho.2 ?_ h
    intro items depth values results _ _ hresults
    rw [hfields] at hresults
    cases hresults
    exact makes_pure fun _ _ => ⟨rfl, rfl⟩
  | @model name m fields hd hkind hl hnames hparts hdefaults ih =>
    obtain rfl := Catalog.name_of_find hd
    refine makes_adopt_class hd (.model hd hkind hl hnames hparts hdefaults) hfirst ho.1 ho.2.1 ?_ h
    intro items depth values results hitems hvalues hresults
    exact makes_modelFields hnames hparts hdefaults hfirst
      (fun f field hmem o v ho hv => ih f field hmem ho hv) (ho.2.2 items hitems) hvalues hresults

end Store

/-- Whether what is given for the names of fields may be given for those of a class. -/
def Layout.TakesFields (s : Store) (first : Nat) (given : String → Option Object) : Layout → Prop
  | .composite _ fields => fields.TakeNamed s first given
  | _ => True

/-- The validated fields of a class are made into fields that hold values. -/
theorem Store.makes_instanceFields {c : Catalog} {first : Nat} {s : Store} {l : Layout} {n : Nat}
    {name : String} {m : ModelDef} (hd : c.find? name = some (.model m))
    (hl : c.StandardLayout (.named name) l) (hfirst : first ≤ s.records.length)
    {given : String → Option Object} (hgiven : l.TakesFields s first given)
    {values results : List (String × Value)}
    (hvalues : ∀ name, values.lookup name = (given name).map (·.value s (s.recordValue n)))
    (h : validateFields (fun t v => c.validate t v) values m.fields = .ok results) :
    Makes c first s (adoptFields given results) fun now xs => l.Filled now first m.cls xs := by
  cases hl with
  | enumeration hd' =>
    rw [hd] at hd'
    cases hd'
  | unit hd' _ hfields _ =>
    rw [hd] at hd'
    cases hd'
    rw [hfields] at h
    cases h
    exact makes_pure fun _ _ => ⟨rfl, rfl⟩
  | model hd' _ _ hnames hparts hdefaults =>
    rw [hd] at hd'
    cases hd'
    exact makes_modelFields hnames hparts hdefaults hfirst
      (fun f field hmem o v ho hv => makes_adopt (hparts f field hmem) hfirst ho hv) hgiven hvalues
      h

end FixedLayout
