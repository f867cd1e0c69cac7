import FixedLayout.Model.Instance
import FixedLayout.Proofs.Standard

/-!
# What passes validation

Validation has bounds and lengths of its own. For standard types they are those of the layouts.

* `exists_int_of_validate`, `exists_bytes_of_validate`: what is left of a value for an integer and
  for bytes;
* `exists_list_of_validate`, `exists_tuple_of_validate`, `validateFields_cons`: several values pass
  validation if each of them does;
* `Catalog.validateClass_cases`: an instance stays as it is, and the entries of a dictionary are
  validated as the fields of a new instance;
* `isSome_lookup_iff`, `lookup_lastValues`: what is found by a name;
* `Catalog.exists_given_of_constructModel`, `Catalog.exists_field_of_assignedValue`: what a
  construction and an assignment validate.
-/

namespace FixedLayout

namespace Validated

variable {α : Type}

theorem at_eq_ok_iff {step : Step} {r : Validated α} {a : α} :
    Validated.at step r = .ok a ↔ r = .ok a :=
  mapError_eq_ok_iff

theorem cons_eq_ok {r : Validated α} {rs : Validated (List α)} {as : List α}
    (h : Validated.cons r rs = .ok as) : ∃ a rest, r = .ok a ∧ rs = .ok rest ∧ as = a :: rest := by
  cases r <;> cases rs <;> cases h
  exact ⟨_, _, rfl, rfl, rfl⟩

end Validated

/-! ### Leaves -/

/-- A value for an integer is brought into the form of an integer that fits. -/
theorem exists_int_of_validate {validateClass : String → Value → Validated Value} {r : IntRepr}
    {v w : Value} (h : (TypeExpr.fixedInt r).validate validateClass [] v = .ok w) :
    ∃ n, w = .int n ∧ r.fits n = true := by
  have h : validateInteger [.range r.minValue r.maxValue, .repr r] v = .ok w := h
  unfold validateInteger at h
  cases hn : v.toInteger with
  | error issues => rw [hn] at h; cases h
  | ok n =>
    rw [hn] at h
    have h : (if n < r.minValue then Validated.fail .greaterThanEqual
      else if r.maxValue < n then Validated.fail .lessThanEqual else .ok (.int n)) = .ok w := h
    split at h
    · cases h
    · split at h
      · cases h
      · next hmin hmax =>
        cases h
        exact ⟨n, rfl, decide_eq_true ⟨Int.not_lt.1 hmin, Int.not_lt.1 hmax⟩⟩

/-- A value for bytes is brought into the form of as many bytes as there have to be. -/
theorem exists_bytes_of_validate {validateClass : String → Value → Validated Value} {n : Int}
    {v w : Value} (h : (TypeExpr.fixedBytes n).validate validateClass [] v = .ok w) :
    ∃ content : Bytes, w = .bytes content ∧ (content.length : Int) = n := by
  have h : validateBytes [.length (some n) (some n)] v = .ok w := h
  unfold validateBytes at h
  cases hcontent : v.toByteString with
  | error issues => rw [hcontent] at h; cases h
  | ok content =>
    rw [hcontent] at h
    have h : (if decide ((content.length : Int) < n) = true then Validated.fail .bytesTooShort
      else if decide (n < (content.length : Int)) = true then Validated.fail .bytesTooLong
      else .ok (.bytes content)) = .ok w := h
    split at h
    · cases h
    · split at h
      · cases h
      · next hmin hmax =>
        cases h
        rw [decide_eq_true_iff] at hmin hmax
        exact ⟨content, rfl, by omega⟩

/-! ### Several values -/

theorem validateEach_cons {validate : Value → Validated Value} {index : Nat} {v : Value}
    {vs ws : List Value} (h : validateEach validate index (v :: vs) = .ok ws) :
    ∃ w rest, validate v = .ok w ∧ validateEach validate (index + 1) vs = .ok rest ∧
      ws = w :: rest := by
  obtain ⟨w, rest, hw, hrest, rfl⟩ := Validated.cons_eq_ok h
  exact ⟨w, rest, Validated.at_eq_ok_iff.1 hw, hrest, rfl⟩

theorem length_validateEach {validate : Value → Validated Value} {index : Nat} {vs ws : List Value}
    (h : validateEach validate index vs = .ok ws) : ws.length = vs.length := by
  induction vs generalizing index ws with
  | nil => cases h; rfl
  | cons v vs ih =>
    obtain ⟨w, rest, -, hrest, rfl⟩ := validateEach_cons h
    rw [List.length_cons, List.length_cons, ih hrest]

/-- A value for a list is brought into the form of a list of as many items as there have to be. -/
theorem exists_list_of_validate {validateClass : String → Value → Validated Value} {t : TypeExpr}
    {n : Int} {v w : Value} (h : (TypeExpr.fixedList t n).validate validateClass [] v = .ok w) :
    ∃ vs ws : List Value, (v = .list vs ∨ v = .tuple vs) ∧ w = .list ws ∧
      (ws.length : Int) = n ∧ validateEach (t.validate validateClass []) 0 vs = .ok ws := by
  have h : validateList [.length (some n) (some n)] (t.validate validateClass []) v = .ok w := h
  unfold validateList at h
  cases hvs : v.toItems .listType with
  | error issues => rw [hvs] at h; cases h
  | ok vs =>
    rw [hvs] at h
    cases hws : validateEach (t.validate validateClass []) 0 vs with
    | error issues =>
      simp only [bind, Except.bind, hws] at h
      split at h <;> cases h
    | ok ws =>
      have hlen := length_validateEach hws
      simp only [bind, Except.bind, hws] at h
      have h : (if decide (n < (vs.length : Int)) = true then Validated.fail .tooLong
        else if decide ((ws.length : Int) < n) = true then Validated.fail .tooShort
        else .ok (.list ws)) = .ok w := h
      split at h
      · cases h
      · split at h
        · cases h
        · next hmax hmin =>
          cases h
          rw [decide_eq_true_iff] at hmin hmax
          refine ⟨vs, ws, ?_, rfl, by omega, hws⟩
          cases v <;> cases hvs
          · exact .inl rfl
          · exact .inr rfl

theorem validateEntries_cons {validateClass : String → Value → Validated Value} {index : Nat}
    {t : TypeExpr} {ts : List TypeExpr} {v : Value} {vs ws : List Value}
    (h : validateEntries validateClass index (t :: ts) (v :: vs) = .ok ws) :
    ∃ w rest, t.validate validateClass [] v = .ok w ∧
      validateEntries validateClass (index + 1) ts vs = .ok rest ∧ ws = w :: rest := by
  unfold validateEntries at h
  obtain ⟨w, rest, hw, hrest, rfl⟩ := Validated.cons_eq_ok h
  exact ⟨w, rest, Validated.at_eq_ok_iff.1 hw, hrest, rfl⟩

/-- An entry of a tuple cannot be missing. -/
theorem validateEntries_nil {validateClass : String → Value → Validated Value} {index : Nat}
    {t : TypeExpr} {ts : List TypeExpr} {ws : List Value} :
    validateEntries validateClass index (t :: ts) [] ≠ .ok ws := by
  intro h
  unfold validateEntries at h
  obtain ⟨_, _, hfirst, -⟩ := Validated.cons_eq_ok h
  cases hfirst

/-- A value for a tuple is brought into the form of a tuple. -/
theorem exists_tuple_of_validate {validateClass : String → Value → Validated Value}
    {ts : List TypeExpr} {v w : Value}
    (h : (TypeExpr.tuple ts false).validate validateClass [] v = .ok w) :
    ∃ vs ws : List Value, (v = .list vs ∨ v = .tuple vs) ∧ w = .tuple ws ∧
      vs.length ≤ ts.length ∧ validateEntries validateClass 0 ts vs = .ok ws := by
  unfold TypeExpr.validate at h
  cases hvs : v.toItems .tupleType with
  | error issues => rw [hvs] at h; cases h
  | ok vs =>
    rw [hvs] at h
    simp only [bind, Except.bind] at h
    split at h
    · cases h
    · cases hws : validateEntries validateClass 0 ts vs with
      | error issues => rw [hws] at h; cases h
      | ok ws =>
        rw [hws] at h
        cases h
        refine ⟨vs, ws, ?_, rfl, by omega, hws⟩
        cases v <;> cases hvs
        · exact .inl rfl
        · exact .inr rfl

/-! ### Fields -/

/-- The value of the first field is the one given for it, brought into the form of the field's type,
or its default as it is. -/
theorem validateFields_cons {validate : TypeExpr → Value → Validated Value}
    {given : List (String × Value)} {f : FieldDecl} {fs : List FieldDecl}
    {values : List (String × Value)} (h : validateFields validate given (f :: fs) = .ok values) :
    ∃ w rest, values = (f.name, w) :: rest ∧ validateFields validate given fs = .ok rest ∧
      (∀ v, given.lookup f.name = some v → validate f.type v = .ok w) ∧
      (given.lookup f.name = none → f.default = some w) := by
  unfold validateFields at h
  obtain ⟨_, rest, hfirst, hrest, rfl⟩ := Validated.cons_eq_ok h
  obtain ⟨w, hw, rfl⟩ := map_eq_ok_iff.1 hfirst
  refine ⟨w, rest, rfl, hrest, fun v hv => ?_, fun hnone => ?_⟩
  · rw [hv] at hw
    exact Validated.at_eq_ok_iff.1 hw
  · rw [hnone] at hw
    dsimp only at hw
    split at hw
    · next v hv =>
      cases hw
      exact hv
    · cases hw

/-- A validated instance is one of the class itself. -/
theorem ModelDef.exists_fields_of_validate {m : ModelDef}
    {validate : TypeExpr → Value → Validated Value} {given : List (String × Value)} {w : Value}
    (h : m.validate validate given = .ok w) :
    ∃ values, w = .record m.cls values ∧ validateFields validate given m.fields = .ok values := by
  unfold ModelDef.validate at h
  split at h
  · next values hvalues _ =>
    cases h
    exact ⟨values, rfl, hvalues⟩
  · cases h
  · cases h

/-- An instance stays as it is, and a dictionary has the fields of a new instance. -/
theorem Catalog.validateClass_cases {c : Catalog} {name : String} {m : ModelDef}
    (hd : c.find? name = some (.model m)) {depth : Nat} {v w : Value}
    (h : c.validateClass depth name v = .ok w) :
    (∃ cls fields, v = .record cls fields ∧ w = v) ∨
      ∃ items given depth', v = .dict items ∧ Value.toFields items = .ok given ∧
        m.validate (fun t v => t.validate (c.validateClass depth') [] v) given = .ok w := by
  unfold Catalog.validateClass at h
  rw [hd] at h
  dsimp only at h
  split at h
  · next cls fields =>
    split at h
    · cases h
      exact .inl ⟨cls, fields, rfl, rfl⟩
    · cases h
  · next items depth' =>
    split at h
    · cases h
    · next given hgiven => exact .inr ⟨items, given, depth', rfl, hgiven, h⟩
  · cases h

/-! ### Arguments -/

section Arguments

variable {α β : Type}

/-- A name that is there is found. -/
theorem isSome_lookup_iff {xs : List (String × α)} {name : String} :
    (xs.lookup name).isSome = true ↔ name ∈ xs.map (·.1) := by
  induction xs with
  | nil => simp
  | cons x xs ih =>
    rw [List.lookup_cons, List.map_cons, List.mem_cons]
    by_cases hname : name = x.1
    · simp [hname]
    · rw [beq_false_of_ne hname, ih, or_iff_right hname]

theorem lookup_eq_none_of_not_mem {xs : List (String × α)} {name : String}
    (h : name ∉ xs.map (·.1)) : xs.lookup name = none := by
  rwa [← isSome_lookup_iff, Option.not_isSome_iff_eq_none] at h

theorem lookup_map_snd (f : α → β) (name : String) (xs : List (String × α)) :
    (xs.map fun x => (x.1, f x.2)).lookup name = (xs.lookup name).map f := by
  induction xs with
  | nil => rfl
  | cons x xs ih =>
    rw [List.map_cons, List.lookup_cons, List.lookup_cons]
    cases name == x.1
    · exact ih
    · rfl

theorem lookup_filter_ne {name other : String} (h : name ≠ other) (xs : List (String × α)) :
    (xs.filter (·.1 != other)).lookup name = xs.lookup name := by
  induction xs with
  | nil => rfl
  | cons x xs ih =>
    rw [List.filter_cons, List.lookup_cons]
    by_cases hx : x.1 = other
    · have hname : (name == x.1) = false := beq_false_of_ne (hx ▸ h)
      rw [if_neg (by simp [hx]), hname, ih]
    · rw [if_pos (by simpa using hx), List.lookup_cons, ih]

/-- Of arguments with the same name, the last one counts. -/
theorem lookup_lastValues (name : String) (kwargs : List (String × Value)) :
    (lastValues kwargs).lookup name = kwargs.reverse.lookup name := by
  induction kwargs with
  | nil => rfl
  | cons x kwargs ih =>
    obtain ⟨key, v⟩ := x
    rw [List.reverse_cons, List.lookup_append, ← ih]
    rw [lastValues]
    by_cases hname : name = key
    · subst hname
      cases (lastValues kwargs).lookup name <;> simp
    · have hkey : (name == key) = false := beq_false_of_ne hname
      cases (lastValues kwargs).lookup key <;>
        simp [List.lookup_cons, hkey, lookup_filter_ne hname]

/-- Arguments that are bound are those given by name together with those given by position. -/
theorem eq_of_bindArguments {className : String} {names : List String} {args : List Value}
    {kwargs given : List (String × Value)}
    (h : bindArguments className names args kwargs = .ok given) :
    given = kwargs ++ names.zip args := by
  unfold bindArguments at h
  split at h
  · cases h
  · split at h
    · cases h
    · dsimp only at h
      split at h
      · cases h
      · exact (Except.ok.inj h).symm

end Arguments

/-- A construction validates the last value that is given for a field by name, or else the one given
by position. -/
theorem Catalog.exists_given_of_constructModel {c : Catalog} {m : ModelDef} {args : List Value}
    {kwargs : List (String × Value)} {w : Value} (h : c.constructModel m args kwargs = .ok w) :
    ∃ given, m.validate (fun t v => c.validate t v) given = .ok w ∧
      ∀ name, given.lookup name =
        (kwargs.reverse.lookup name).or (((m.fields.map (·.name)).zip args).lookup name) := by
  unfold Catalog.constructModel at h
  by_cases hkind : m.kind = .tuple
  · rw [if_pos hkind] at h
    cases hbind : bindArguments m.name (m.fields.map (·.name)) args (lastValues kwargs) with
    | error fault =>
      rw [hbind] at h
      cases h
    | ok given =>
      rw [hbind] at h
      obtain rfl := eq_of_bindArguments hbind
      refine ⟨_, mapError_eq_ok_iff.1 h, fun name => ?_⟩
      rw [List.lookup_append, lookup_lastValues]
  · rw [if_neg hkind] at h
    cases args with
    | nil =>
      refine ⟨lastValues kwargs, mapError_eq_ok_iff.1 h, fun name => ?_⟩
      rw [lookup_lastValues, List.zip_nil_right, List.lookup_nil, Option.or_none]
    | cons v args => cases h

/-- An assignment validates the value by the type of the field. -/
theorem Catalog.exists_field_of_assignedValue {c : Catalog} {m : ModelDef} {field : String}
    {v w : Value} (hkind : m.kind ≠ .plain) (h : c.assignedValue m field v = .ok w) :
    ∃ f ∈ m.fields, f.name = field ∧ c.validate f.type v = .ok w := by
  unfold Catalog.assignedValue at h
  split at h
  · rw [if_neg hkind] at h
    split at h <;> cases h
  · next f hf =>
    rw [if_neg hkind] at h
    have hname : (f.name == field) = true :=
      List.find?_some (p := fun f : FieldDecl => f.name == field) hf
    exact ⟨f, List.mem_of_find?_eq_some hf, eq_of_beq hname,
      Validated.at_eq_ok_iff.1 (mapError_eq_ok_iff.1 h)⟩

end FixedLayout
