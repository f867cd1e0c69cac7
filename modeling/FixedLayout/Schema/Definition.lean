import FixedLayout.Schema.Options
import FixedLayout.Schema.TypeExpr

/-!
# Definitions

A catalog holds the definitions that types refer to: models and enumerations.

* `FieldDecl`, `ModelDef`: a model with its fields, inherited ones first;
* `EnumDef`: an enumeration; two members of equal value are one member with two names;
* `EnumDef.declare`: the enumeration of given names and values;
* `Catalog`: the definitions made so far;
* `ModelDef.root`, `ModelDef.extend`: the model that a definition stands for, on its own or on top
  of another one.
-/

namespace FixedLayout

/-- The kinds of models. A plain model takes no part in the checks of packed ones. -/
inductive ModelKind
  | struct
  | tuple
  | unit
  | packed
  | plain
  deriving DecidableEq, Repr

/-- A field of a model. -/
structure FieldDecl where
  name : String
  type : TypeExpr
  /-- The value of a field that is not given: the one that is declared, or else an inherited
  attribute of its name. An inherited operation is no value, so that a field of its name declares
  one. -/
  default : Option Value
  /-- The accessor option, absent or null if none is set. -/
  accessor : Value

/-- A model. No two fields have the same name. -/
structure ModelDef where
  kind : ModelKind
  name : String
  /-- The names of the models that it extends. -/
  bases : List String
  fields : List FieldDecl
  names_nodup : (fields.map (·.name)).Nodup
  /-- The literal content, null if none is set. -/
  value : Value
  /-- The representation of the content, null if none is set. -/
  repr : Value

/-- The class of a model's instances. -/
def ModelDef.cls (m : ModelDef) : ModelClass :=
  ⟨m.name, m.bases, m.kind = .tuple, m.fields.map (·.name)⟩

/-- A member of an enumeration: its declared name, the name of the first member of equal value, and
the value. -/
structure MemberDecl where
  name : String
  canonical : String
  payload : Value

/-- An enumeration. No two members have the same name, and a member that bears its own name has
another value than all members before it. -/
structure EnumDef where
  name : String
  /-- Whether members are integers. -/
  integral : Bool
  /-- The representation of discriminants, null if none is set. -/
  repr : Value
  members : List MemberDecl
  names_nodup : (members.map (·.name)).Nodup
  canonical_mem : ∀ m ∈ members, m.canonical ∈ members.map (·.name)
  distinct : members.Pairwise fun a b => b.name = b.canonical → a.payload.same b.payload = false

namespace EnumDef

/-- The members that are the first of their value. -/
def canonicalMembers (e : EnumDef) : List MemberDecl :=
  e.members.filter fun m => m.name == m.canonical

/-- The value of a member. -/
def memberValue (e : EnumDef) (m : MemberDecl) : Value :=
  .member e.name m.canonical e.integral m.payload

/-- The member of a declared name. -/
def member? (e : EnumDef) (name : String) : Option Value :=
  (e.members.find? (·.name == name)).map e.memberValue

/-- The member of a given value. -/
def memberOf? (e : EnumDef) (payload : Value) : Option Value :=
  (e.members.find? fun m => m.payload.same payload).map e.memberValue

/-- No two members that bear their own names have equal values. -/
theorem pairwise_canonicalMembers (e : EnumDef) :
    e.canonicalMembers.Pairwise fun a b => a.payload.same b.payload = false := by
  unfold canonicalMembers
  rw [List.pairwise_filter]
  exact e.distinct.imp fun h _ hb => h (eq_of_beq hb)

/-- A further member: a value met before makes an alias. -/
def nextMember (e : EnumDef) (name : String) (payload : Value) : MemberDecl :=
  match e.members.find? fun m => m.payload.same payload with
  | some m => ⟨name, m.canonical, m.payload⟩
  | none => ⟨name, name, payload⟩

@[simp] theorem name_nextMember (e : EnumDef) (name : String) (payload : Value) :
    (e.nextMember name payload).name = name := by
  unfold nextMember
  split <;> rfl

theorem canonical_nextMember (e : EnumDef) (name : String) (payload : Value) :
    (e.nextMember name payload).canonical ∈ e.members.map (·.name) ++ [name] := by
  unfold nextMember
  split
  · next m hm =>
    exact List.mem_append_left _ (e.canonical_mem m (List.mem_of_find?_eq_some hm))
  · exact List.mem_append_right _ (List.mem_singleton.2 rfl)

/-- A further member of a new name that is no alias has a new value. -/
theorem distinct_nextMember (e : EnumDef) {name : String} (payload : Value)
    (h : name ∉ e.members.map (·.name)) (hname : name = (e.nextMember name payload).canonical) :
    ∀ m ∈ e.members, m.payload.same (e.nextMember name payload).payload = false := by
  unfold nextMember at *
  split at hname
  · next m hm =>
    -- an alias bears the name of an earlier member
    exact absurd (hname ▸ e.canonical_mem m (List.mem_of_find?_eq_some hm)) h
  · next hnone =>
    intro m hm
    exact Bool.eq_false_iff.2 (List.find?_eq_none.1 hnone m hm)

/-- The enumeration with one more member. -/
def addMember (e : EnumDef) (name : String) (payload : Value)
    (h : name ∉ e.members.map (·.name)) : EnumDef where
  name := e.name
  integral := e.integral
  repr := e.repr
  members := e.members ++ [e.nextMember name payload]
  names_nodup := by
    rw [List.map_append, List.map_singleton, name_nextMember]
    exact List.nodup_append.2 ⟨e.names_nodup, List.pairwise_singleton _ _, fun a ha b hb => by
      rintro rfl
      exact h (List.mem_singleton.1 hb ▸ ha)⟩
  canonical_mem m hm := by
    rw [List.map_append, List.map_singleton, name_nextMember]
    obtain hm | hm := List.mem_append.1 hm
    · exact List.mem_append_left _ (e.canonical_mem m hm)
    · obtain rfl := List.mem_singleton.1 hm
      exact e.canonical_nextMember name payload
  distinct := by
    refine List.pairwise_append.2 ⟨e.distinct, List.pairwise_singleton _ _, fun a ha b hb => ?_⟩
    obtain rfl := List.mem_singleton.1 hb
    intro hname
    rw [name_nextMember] at hname
    exact e.distinct_nextMember payload h hname a ha

/-- The enumeration with further members of given names and values. -/
def addMembers (e : EnumDef) : (names : List String) → List Value →
    (e.members.map (·.name) ++ names).Nodup → EnumDef
  | name :: names, payload :: payloads, h =>
    have hname : name ∉ e.members.map (·.name) := fun hmem =>
      (List.nodup_append.1 h).2.2 name hmem name (List.mem_cons_self ..) rfl
    (e.addMember name payload hname).addMembers names payloads (by
      rw [addMember, List.map_append, List.map_singleton, name_nextMember, List.append_assoc]
      exact h)
  | _, _, _ => e

/-- An enumeration of members of given names and values. -/
def declare (name : String) (integral : Bool) (repr : Value) (names : List String)
    (payloads : List Value) (h : names.Nodup) : EnumDef :=
  let e : EnumDef :=
    ⟨name, integral, repr, [], List.nodup_nil, fun _ hm => absurd hm List.not_mem_nil, .nil⟩
  e.addMembers names payloads h

end EnumDef

/-- A definition. -/
inductive Definition
  | model (m : ModelDef)
  | enumeration (e : EnumDef)

/-- The name of a definition. -/
def Definition.name : Definition → String
  | .model m => m.name
  | .enumeration e => e.name

/-- The definitions made so far. -/
abbrev Catalog := List Definition

namespace Catalog

/-- The definition of a name. -/
def find? (c : Catalog) (name : String) : Option Definition :=
  List.find? (fun d => d.name == name) c

/-- The model of a name. -/
def model? (c : Catalog) (name : String) : Option ModelDef :=
  match c.find? name with
  | some (.model m) => some m
  | _ => none

/-- The enumeration of a name. -/
def enum? (c : Catalog) (name : String) : Option EnumDef :=
  match c.find? name with
  | some (.enumeration e) => some e
  | _ => none

end Catalog

/-- Fields with one more: a field of a known name takes the place of the other one. -/
def putField (fields : List FieldDecl) (f : FieldDecl) : List FieldDecl :=
  if f.name ∈ fields.map (·.name) then fields.map fun g => if g.name = f.name then f else g
  else fields ++ [f]

theorem nodup_putField {fields : List FieldDecl} (h : (fields.map (·.name)).Nodup) (f : FieldDecl) :
    ((putField fields f).map (·.name)).Nodup := by
  unfold putField
  split
  · have hnames : ((fun g : FieldDecl => g.name) ∘ fun g => if g.name = f.name then f else g) =
        fun g => g.name := by
      funext g
      show (if g.name = f.name then f else g).name = g.name
      split
      · next heq => exact heq.symm
      · rfl
    rw [List.map_map, hnames]
    exact h
  · next hnew =>
    rw [List.map_append, List.map_singleton]
    exact List.nodup_append.2 ⟨h, List.pairwise_singleton _ _, fun a ha b hb => by
      rintro rfl
      exact hnew (List.mem_singleton.1 hb ▸ ha)⟩

/-- Fields with further ones: a field of a known name keeps its place, all others follow. -/
def overrideFields (inherited own : List FieldDecl) : List FieldDecl := own.foldl putField inherited

theorem nodup_overrideFields (inherited own : List FieldDecl)
    (h : (inherited.map (·.name)).Nodup) : ((overrideFields inherited own).map (·.name)).Nodup := by
  unfold overrideFields
  induction own generalizing inherited with
  | nil => exact h
  | cons f own ih => exact ih _ (nodup_putField h f)

/-- The model that extends another one: it has the kind of the other one, its fields and, unless set
anew, its content and representation. -/
def ModelDef.extend (base : ModelDef) (name : String) (own : List FieldDecl)
    (value repr : Option Value) : ModelDef where
  kind := base.kind
  name := name
  bases := base.name :: base.bases
  fields := overrideFields base.fields own
  names_nodup := nodup_overrideFields base.fields own base.names_nodup
  value := value.getD base.value
  repr := repr.getD base.repr

/-- A model that extends no other one. -/
def ModelDef.root (kind : ModelKind) (name : String) (fields : List FieldDecl)
    (value repr : Option Value) : ModelDef where
  kind := kind
  name := name
  bases := []
  fields := overrideFields [] fields
  names_nodup := nodup_overrideFields [] fields List.nodup_nil
  value := value.getD .null
  repr := repr.getD .null

end FixedLayout
