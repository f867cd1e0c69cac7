import FixedLayout.Proofs.Assignments

/-!
# Arguments by position

A tuple model takes arguments by position as well as by name. Too many of them, or a field that is
given in both ways, are found out before any value is looked at. Otherwise the arguments by position
might as well have been given by name, in any order.

* `ModelDef.Misbound`: arguments that cannot be told which fields they are for;
* `lookup_eq_of_perm`, `filter_eq_of_perm`: what is found by name, and what is left of named things,
  does not depend on their order;
* `bindArguments_cases`: arguments are bound to fields or not at all;
* `ModelDef.validate_of_perm`: an instance depends on what is given for each name, and on the order
  of names that are no fields;
* `Session.construct_cases`: what comes of a construction. `Session.construct_isTypeFault_iff`,
  `Session.construct_of_error`, `Session.exists_record_of_construct`: each of the three ends;
* `Session.construct_by_name`: arguments by position might as well be given by name.
-/

namespace FixedLayout

/-- Whether a fault is that of an argument which an operation has no use for, whatever its
content. -/
def Fault.IsTypeFault : Fault → Prop
  | .noEntries _ => True
  | .tooManyArguments _ _ _ => True
  | .repeatedArgument _ _ => True
  | .unsuitable => True
  | _ => False

/-- There are more arguments by position than fields, or a name is that of a field which one of them
is for. The new instance is an argument by position as well, ahead of all others, and has a name of
its own. -/
def ModelDef.Misbound (m : ModelDef) (count : Nat) (keys : List String) : Prop :=
  m.fields.length < count ∨ ∃ key ∈ keys, key ∈ "self" :: (m.fields.map (·.name)).take count

/-! ### Named things -/

section Named

variable {α : Type} {xs ys zs : List (String × α)}

/-- What is found by a name does not depend on the order, if no name is repeated. -/
theorem lookup_eq_of_perm (h : xs.Perm ys) (hnodup : (xs.map (·.1)).Nodup) (name : String) :
    xs.lookup name = ys.lookup name := by
  induction h with
  | nil => rfl
  | cons x _ ih => rw [List.lookup_cons, List.lookup_cons, ih (List.nodup_cons.1 hnodup).2]
  | swap x y xs =>
    obtain ⟨hnew, -⟩ := List.nodup_cons.1 hnodup
    have hne : y.1 ≠ x.1 := fun heq => hnew (List.mem_cons.2 (.inl heq))
    rw [List.lookup_cons, List.lookup_cons, List.lookup_cons, List.lookup_cons]
    by_cases hy : name = y.1
    · rw [hy, beq_self_eq_true, beq_false_of_ne hne]
    · rw [beq_false_of_ne hy]
  | trans hfirst _ ih ih' =>
    exact (ih hnodup).trans (ih' (((hfirst.map (·.1)).nodup_iff).1 hnodup))

/-- What has a name of its own is found by it. -/
theorem lookup_of_mem (hnodup : (xs.map (·.1)).Nodup) {x : String × α} (hx : x ∈ xs) :
    xs.lookup x.1 = some x.2 := by
  obtain ⟨pre, post, rfl⟩ := List.append_of_mem hx
  rw [lookup_eq_of_perm List.perm_middle hnodup, List.lookup_cons, beq_self_eq_true]

theorem lookup_reverse (hnodup : (xs.map (·.1)).Nodup) (name : String) :
    xs.reverse.lookup name = xs.lookup name :=
  (lookup_eq_of_perm (List.reverse_perm xs).symm hnodup name).symm

/-- What is left when some things are passed over keeps its order, whatever these are mixed in
with. -/
theorem filter_eq_of_perm {p : String × α → Bool} (hperm : ys.Perm (xs ++ zs))
    (hsub : zs.Sublist ys) (hxs : ∀ x ∈ xs, p x = false) : ys.filter p = zs.filter p := by
  have hnone : xs.filter p = [] := List.filter_eq_nil_iff.2 fun x hx => by simp [hxs x hx]
  have hlen := (hperm.filter p).length_eq
  rw [List.filter_append, hnone, List.nil_append] at hlen
  exact ((hsub.filter p).eq_of_length hlen.symm).symm

end Named

/-- Arguments whose names are all different stay as they are. -/
theorem lastValues_of_nodup {kwargs : List (String × Value)} (h : (kwargs.map (·.1)).Nodup) :
    lastValues kwargs = kwargs := by
  induction kwargs with
  | nil => rfl
  | cons x kwargs ih =>
    obtain ⟨hnew, hrest⟩ := List.nodup_cons.1 h
    rw [lastValues, ih hrest]
    simp only [lookup_eq_none_of_not_mem hnew]

/-! ### Binding -/

section Binding

variable {α : Type} {names : List String} {kwargs : List (String × α)}

theorem map_fst_zip (names : List String) (args : List α) :
    (names.zip args).map (·.1) = names.take args.length := by
  induction names generalizing args with
  | nil => rw [List.zip_nil_left, List.map_nil, List.take_nil]
  | cons name names ih =>
    cases args with
    | nil => rfl
    | cons o args =>
      rw [List.zip_cons_cons, List.map_cons, ih, List.length_cons, List.take_succ_cons]

theorem map_fst_named {β : Type} (f : α → β) (kwargs : List (String × α)) :
    (kwargs.map fun g => (g.1, f g.2)).map (·.1) = kwargs.map (·.1) := by
  rw [List.map_map]
  rfl

/-- No name is given twice, neither by position nor by name. -/
theorem nodup_bound (args : List α) (hnames : names.Nodup) (hkeys : (kwargs.map (·.1)).Nodup)
    (hbound : ∀ key ∈ kwargs.map (·.1), key ∉ names.take args.length) :
    ((kwargs ++ names.zip args).map (·.1)).Nodup := by
  rw [List.map_append, map_fst_zip]
  refine List.nodup_append.2 ⟨hkeys, hnames.sublist (List.take_sublist ..), ?_⟩
  rintro key hkey _ hname rfl
  exact hbound key hkey hname

end Binding

/-- Arguments are bound to the fields unless there are too many of them or a field is given
twice. -/
theorem ModelDef.bindArguments_cases (m : ModelDef) (args : List Value)
    (kwargs : List (String × Value)) :
    (m.Misbound args.length (kwargs.map (·.1)) ∧ ∃ fault : InstanceFault,
      bindArguments m.name (m.fields.map (·.name)) args kwargs = .error fault ∧
        fault.toFault.IsTypeFault) ∨
    ¬ m.Misbound args.length (kwargs.map (·.1)) ∧
      bindArguments m.name (m.fields.map (·.name)) args kwargs =
        .ok (kwargs ++ (m.fields.map (·.name)).zip args) := by
  unfold bindArguments
  by_cases hself : "self" ∈ kwargs.map (·.1)
  · rw [if_pos (isSome_lookup_iff.2 hself)]
    exact .inl ⟨.inr ⟨"self", hself, List.mem_cons_self⟩, _, rfl, trivial⟩
  rw [if_neg (mt isSome_lookup_iff.1 hself), List.length_map]
  by_cases hmany : m.fields.length < args.length
  · rw [if_pos hmany]
    exact .inl ⟨.inl hmany, _, rfl, trivial⟩
  · rw [if_neg hmany]
    cases htwice : ((m.fields.map (·.name)).zip args).find? fun b => (kwargs.lookup b.1).isSome with
    | some b =>
      have hgiven : (kwargs.lookup b.1).isSome = true :=
        List.find?_some (p := fun b : String × Value => (kwargs.lookup b.1).isSome) htwice
      have hplace := List.mem_map_of_mem (f := (·.1)) (List.mem_of_find?_eq_some htwice)
      rw [map_fst_zip] at hplace
      exact .inl ⟨.inr ⟨b.1, isSome_lookup_iff.1 hgiven, List.mem_cons_of_mem _ hplace⟩,
        .repeatedArgument m.name b.1, by simp only [htwice], trivial⟩
    | none =>
      refine .inr ⟨?_, by simp only [htwice]⟩
      rintro (h | ⟨key, hkey, hplace⟩)
      · exact hmany h
      · rcases List.mem_cons.1 hplace with rfl | hplace
        · exact hself hkey
        · rw [← map_fst_zip] at hplace
          obtain ⟨b, hb, rfl⟩ := List.mem_map.1 hplace
          exact List.find?_eq_none.1 htwice b hb (isSome_lookup_iff.2 hkey)

/-! ### Validation -/

/-- The values of fields depend only on what is given for their names. -/
theorem validateFields_congr {validate : TypeExpr → Value → Validated Value}
    {given given' : List (String × Value)} (h : ∀ name, given.lookup name = given'.lookup name)
    (fs : List FieldDecl) :
    validateFields validate given fs = validateFields validate given' fs := by
  induction fs with
  | nil => rfl
  | cons f fs ih => rw [validateFields, validateFields, h, ih]

/-- The names of validated fields are those of the fields. -/
theorem names_of_validateFields {validate : TypeExpr → Value → Validated Value}
    {given values : List (String × Value)} {fs : List FieldDecl}
    (h : validateFields validate given fs = .ok values) : values.map (·.1) = fs.map (·.name) := by
  induction fs generalizing values with
  | nil =>
    cases h
    rfl
  | cons f fs ih =>
    obtain ⟨w, rest, rfl, hrest, -⟩ := validateFields_cons h
    rw [List.map_cons, List.map_cons, ih hrest]

/-- The names that are no fields are reported in their order, whatever they are mixed in with. -/
theorem extraIssues_of_perm (m : ModelDef) {given bound kwargs : List (String × Value)}
    (hperm : given.Perm (bound ++ kwargs)) (hsub : kwargs.Sublist given)
    (hbound : ∀ b ∈ bound, b.1 ∈ m.fields.map (·.name)) :
    extraIssues m given = extraIssues m kwargs := by
  unfold extraIssues
  rw [filter_eq_of_perm hperm hsub fun b hb => ?_]
  simpa using hbound b hb

/-- Arguments by position may be given by name, anywhere among the other ones. -/
theorem ModelDef.validate_of_perm (m : ModelDef) {validate : TypeExpr → Value → Validated Value}
    {given bound kwargs : List (String × Value)} (hperm : given.Perm (bound ++ kwargs))
    (hsub : kwargs.Sublist given) (hbound : ∀ b ∈ bound, b.1 ∈ m.fields.map (·.name))
    (hnodup : (given.map (·.1)).Nodup) :
    m.validate validate given = m.validate validate (kwargs ++ bound) := by
  have hother : extraIssues m (kwargs ++ bound) = extraIssues m kwargs :=
    extraIssues_of_perm m List.perm_append_comm (List.sublist_append_left ..) hbound
  unfold ModelDef.validate
  rw [validateFields_congr (lookup_eq_of_perm (hperm.trans List.perm_append_comm) hnodup),
    extraIssues_of_perm m hperm hsub hbound, hother]

/-- Fields that are made have the names that they are made for. -/
theorem Store.names_adoptFields (given : String → Option Object) (values : List (String × Value))
    (s : Store) : (adoptFields given values s).1.map (·.1) = values.map (·.1) := by
  induction values generalizing s with
  | nil => rfl
  | cons f values ih =>
    obtain ⟨name, v⟩ := f
    rw [adoptFields]
    cases given name with
    | some o => exact congrArg (name :: ·) (ih _)
    | none => exact congrArg (name :: ·) (ih _)

namespace Catalog

variable {c : Catalog} {m : ModelDef} {kwargs : List (String × Value)}

/-- A tuple model rejects arguments that it cannot bind, and validates all others by name. -/
theorem constructModel_of_tuple (c : Catalog) (args : List Value) (hkind : m.kind = .tuple)
    (hkeys : (kwargs.map (·.1)).Nodup) :
    (m.Misbound args.length (kwargs.map (·.1)) ∧ ∃ fault : InstanceFault,
      c.constructModel m args kwargs = .error fault ∧ fault.toFault.IsTypeFault) ∨
    ¬ m.Misbound args.length (kwargs.map (·.1)) ∧ c.constructModel m args kwargs =
      (m.validate (fun t v => c.validate t v)
        (kwargs ++ (m.fields.map (·.name)).zip args)).mapError (.invalid m.name) := by
  unfold constructModel
  rw [lastValues_of_nodup hkeys, if_pos hkind]
  rcases m.bindArguments_cases args kwargs with ⟨hmis, fault, hbind, hfault⟩ | ⟨hnot, hbind⟩
  · rw [hbind]
    exact .inl ⟨hmis, fault, rfl, hfault⟩
  · rw [hbind]
    exact .inr ⟨hnot, rfl⟩

/-- Arguments that can be bound are validated by name. -/
theorem constructModel_of_bound {args : List Value} (hkind : m.kind = .tuple)
    (hkeys : (kwargs.map (·.1)).Nodup)
    (hbound : ¬ m.Misbound args.length (kwargs.map (·.1))) :
    c.constructModel m args kwargs =
      (m.validate (fun t v => c.validate t v)
        (kwargs ++ (m.fields.map (·.name)).zip args)).mapError (.invalid m.name) := by
  rcases c.constructModel_of_tuple args hkind hkeys with ⟨hmis, -⟩ | ⟨-, hrun⟩
  · exact absurd hmis hbound
  · exact hrun

end Catalog

/-! ### Constructions -/

namespace Session

variable {w : Workspace} {name : String} {m : ModelDef} {args : List Object}
  {kwargs keywords : List (String × Object)}

/-- What is given for a field is found among all that is bound. -/
theorem argumentFor_eq (hkeys : (kwargs.map (·.1)).Nodup) (names : List String) (field : String) :
    argumentFor names args kwargs field = (kwargs ++ names.zip args).lookup field := by
  unfold argumentFor lastNamed
  rw [lookup_reverse hkeys, List.lookup_append]

section Model

variable (hd : w.catalog.find? name = some (.model m))

include hd

/-- Constructions agree if their arguments are validated alike and the same objects are given for
the fields. -/
theorem construct_congr {args' : List Object}
    (hmodel : w.catalog.constructModel m (args.map w.store.valueOf)
        (kwargs.map fun g => (g.1, w.store.valueOf g.2)) =
      w.catalog.constructModel m (args'.map w.store.valueOf)
        (keywords.map fun g => (g.1, w.store.valueOf g.2)))
    (hgiven : ∀ field, argumentFor (m.fields.map (·.name)) args kwargs field =
      argumentFor (m.fields.map (·.name)) args' keywords field) :
    construct name args kwargs w = construct name args' keywords w := by
  rw [construct_eq hd, construct_eq hd, ← hmodel]
  cases hv : w.catalog.constructModel m (args.map w.store.valueOf)
      (kwargs.map fun g => (g.1, w.store.valueOf g.2)) with
  | error fault => rfl
  | ok v =>
    obtain ⟨given, hvalid, -⟩ := Catalog.exists_given_of_constructModel hv
    obtain ⟨values, rfl, -⟩ := ModelDef.exists_fields_of_validate hvalid
    have hsame : argumentFor m.cls.fieldNames args kwargs =
        argumentFor m.cls.fieldNames args' keywords := funext hgiven
    simp only [hsame]

variable (hkind : m.kind = .tuple) (hkeys : (kwargs.map (·.1)).Nodup)

include hkind hkeys

/-- Arguments that cannot be bound are rejected as such, whatever they are. All others are
validated: they are rejected for what they are, or an instance is made. -/
theorem construct_cases (args : List Object) :
    (m.Misbound args.length (kwargs.map (·.1)) ∧ ∃ fault,
      construct name args kwargs w = (.error fault, w) ∧ fault.IsTypeFault) ∨
    ¬ m.Misbound args.length (kwargs.map (·.1)) ∧
      ((∃ issues, construct name args kwargs w = (.error (.invalid m.name issues), w)) ∨
        ∃ id store given, construct name args kwargs w = (.ok (.record id), { w with store }) ∧
          store.records[id]? = some (m.cls, given) ∧
          given.map (·.1) = m.fields.map (·.name)) := by
  have hnames := map_fst_named w.store.valueOf kwargs
  have hcases := w.catalog.constructModel_of_tuple (args.map w.store.valueOf) hkind
    (hnames ▸ hkeys)
  rw [hnames, List.length_map] at hcases
  rw [construct_eq hd]
  rcases hcases with ⟨hmis, fault, hrun, hfault⟩ | ⟨hbound, hrun⟩
  · rw [hrun]
    exact .inl ⟨hmis, fault.toFault, rfl, hfault⟩
  · refine .inr ⟨hbound, ?_⟩
    rw [hrun]
    cases hvalid : m.validate (fun t v => w.catalog.validate t v)
        ((kwargs.map fun g => (g.1, w.store.valueOf g.2)) ++
          (m.fields.map (·.name)).zip (args.map w.store.valueOf)) with
    | error issues => exact .inl ⟨issues, rfl⟩
    | ok v =>
      obtain ⟨values, rfl, hvalues⟩ := ModelDef.exists_fields_of_validate hvalid
      refine .inr ⟨_, _, _, rfl, List.getElem?_concat_length, ?_⟩
      exact (Store.names_adoptFields _ values w.store).trans (names_of_validateFields hvalues)

/-- An argument is in excess exactly if the arguments cannot be bound. -/
theorem construct_isTypeFault_iff (args : List Object) :
    (∃ fault after, construct name args kwargs w = (.error fault, after) ∧ fault.IsTypeFault) ↔
      m.Misbound args.length (kwargs.map (·.1)) := by
  obtain ⟨hmis, fault, hfail, hfault⟩ | ⟨hbound, ⟨issues, hfail⟩ | ⟨id, store, given, hok, -⟩⟩ :=
    construct_cases hd hkind hkeys args
  · exact iff_of_true ⟨fault, w, hfail, hfault⟩ hmis
  · refine iff_of_false ?_ hbound
    rintro ⟨_, _, hrun, hfault⟩
    cases hfail.symm.trans hrun
    exact hfault
  · refine iff_of_false ?_ hbound
    rintro ⟨_, _, hrun, -⟩
    cases hok.symm.trans hrun

/-- A construction that fails changes nothing. -/
theorem construct_of_error {fault : Fault} {after : Workspace}
    (hrun : construct name args kwargs w = (.error fault, after)) : after = w := by
  obtain ⟨-, _, hfail, -⟩ | ⟨-, ⟨_, hfail⟩ | ⟨_, _, _, hok, -⟩⟩ :=
    construct_cases hd hkind hkeys args
  · cases hfail.symm.trans hrun
    rfl
  · cases hfail.symm.trans hrun
    rfl
  · cases hok.symm.trans hrun

/-- What is made is an instance with all fields of the class, and is all that is changed. -/
theorem exists_record_of_construct {o : Object} {after : Workspace}
    (hrun : construct name args kwargs w = (.ok o, after)) :
    ∃ id store given, o = .record id ∧ after = { w with store } ∧
      store.records[id]? = some (m.cls, given) ∧ given.map (·.1) = m.fields.map (·.name) := by
  obtain ⟨-, _, hfail, -⟩ | ⟨-, ⟨_, hfail⟩ | ⟨id, store, given, hok, hrecord, hnames⟩⟩ :=
    construct_cases hd hkind hkeys args
  · cases hfail.symm.trans hrun
  · cases hfail.symm.trans hrun
  · cases hok.symm.trans hrun
    exact ⟨id, store, given, rfl, rfl, hrecord, hnames⟩

/-- Arguments that can be bound might as well be given by name, in any order in which those that are
given by name keep their own, unless a field has the name of the new instance. -/
theorem construct_by_name (hself : "self" ∉ m.fields.map (·.name))
    (hbound : ¬ m.Misbound args.length (kwargs.map (·.1)))
    (hperm : keywords.Perm ((m.fields.map (·.name)).zip args ++ kwargs))
    (hsub : kwargs.Sublist keywords) :
    construct name args kwargs w = construct name [] keywords w := by
  have hnodup := nodup_bound args m.names_nodup hkeys fun key hkey hplace =>
    hbound (.inr ⟨key, hkey, List.mem_cons_of_mem _ hplace⟩)
  have hcomm := hperm.trans List.perm_append_comm
  have hkeywords := ((hcomm.map (·.1)).nodup_iff).2 hnodup
  have hnamed : ¬ m.Misbound 0 (keywords.map (·.1)) := by
    rintro (h | ⟨key, hkey, hplace⟩)
    · exact Nat.not_lt_zero _ h
    · obtain rfl := List.mem_singleton.1 hplace
      have hgiven := (hperm.map (·.1)).mem_iff.1 hkey
      rw [List.map_append, map_fst_zip, List.mem_append] at hgiven
      rcases hgiven with hfield | hgiven
      · exact hself (List.mem_of_mem_take hfield)
      · exact hbound (.inr ⟨"self", hgiven, List.mem_cons_self⟩)
  have hnames := map_fst_named w.store.valueOf kwargs
  have hnames' := map_fst_named w.store.valueOf keywords
  refine construct_congr hd ?_ fun field => ?_
  · have hzip : (m.fields.map (·.name)).zip (args.map w.store.valueOf) =
        ((m.fields.map (·.name)).zip args).map fun g => (g.1, w.store.valueOf g.2) :=
      List.zip_map_right ..
    rw [Catalog.constructModel_of_bound hkind (hnames ▸ hkeys)
        (by rwa [hnames, List.length_map]),
      Catalog.constructModel_of_bound hkind (hnames' ▸ hkeywords) (by rwa [hnames']),
      List.map_nil, List.zip_nil_right, List.append_nil, hzip,
      m.validate_of_perm ?_ (hsub.map _) ?_ (hnames' ▸ hkeywords)]
    · rw [← List.map_append]
      exact hperm.map _
    · rw [← hzip]
      intro b hb
      exact (List.of_mem_zip hb).1
  · rw [argumentFor_eq hkeys, argumentFor_eq hkeywords, List.zip_nil_right, List.append_nil]
    exact (lookup_eq_of_perm hcomm hkeywords field).symm

end Model

end Session

end FixedLayout
