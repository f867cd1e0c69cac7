import FixedLayout.Schema.Definition
import FixedLayout.Schema.Error

/-!
# Units and enumerations

* `Literal.ofValues`: the literal that a content and a representation stand for: bytes or a text
  without a representation, a text of one character as `char`, or an integer that fits its width;
* `Enumeration.ofDef`: the enumeration of a definition and an integer width: there is at least one
  member, and every member is an integer that fits.
-/

namespace FixedLayout

/-- The integer representation that a value names. -/
def IntRepr.ofValue? : Value → Option IntRepr
  | .text name => IntRepr.ofName? name
  | _ => none

/-- The enumeration and member that a value is, by name. -/
def Value.memberLabel? : Value → Option (String × String)
  | .member enum name _ _ => some (enum, name)
  | _ => none

/-- Whether a value is absent. -/
def Value.isNull : Value → Bool
  | .null => true
  | _ => false

/-- The literal of an integer in the representation that a value names. -/
def Literal.ofInt (typeName : String) (n : Int) (label : Option (String × String)) (repr : Value) :
    Except SchemaFault Literal :=
  let rejected := fun e => Except.error (SchemaFault.rejected (.literal typeName e))
  match repr with
  | .null => rejected .missingRepr
  | repr =>
    match IntRepr.ofValue? repr with
    | some r => if h : r.fits n then .ok (.number r ⟨n, h⟩ label) else rejected (.unfit n r.name)
    | none =>
      match repr.hashFault? with
      | some fault => .error (.hash fault)
      | none => rejected (.unknownRepr repr)

/-- The literal that a content and a representation stand for. -/
def Literal.ofValues (typeName : String) (value repr : Value) : Except SchemaFault Literal :=
  let rejected := fun e => Except.error (SchemaFault.rejected (.literal typeName e))
  match value with
  | .bytes content => if repr.isNull then .ok (.bytes content) else rejected .reprOnBytes
  | .text s =>
    match repr with
    | .null => .ok (.text s)
    | .text name =>
      if name = charRepr then
        match s.toList with
        | [c] => .ok (.char c)
        | _ => rejected .notOneChar
      else rejected (.reprOnText repr)
    | repr => rejected (.reprOnText repr)
  | value =>
    match value.integer? with
    | some n => Literal.ofInt typeName n value.memberLabel? repr
    | none => rejected (.unsupported value)

/-- The content of a literal as a value. -/
def Literal.value : Literal → Value
  | .bytes content => .bytes content
  | .text s => .text s
  | .char c => .text (String.ofList [c])
  | .number _ n none => .int n.1
  | .number _ n (some (enum, name)) => .member enum name true (.int n.1)

/-- The variants of members, each with an integer that fits. -/
def variantsOf (name : String) (r : IntRepr) :
    List MemberDecl → Except SchemaFault (List (String × Int))
  | [] => .ok []
  | m :: rest =>
    match m.payload.integer? with
    | some d =>
      if r.fits d then (variantsOf name r rest).map ((m.name, d) :: ·)
      else .error (.rejected (.enumeration name (.unfit m.name d r.name)))
    | none => .error (.rejected (.enumeration name (.notInteger m.name m.payload)))

section Variants

variable {name : String} {r : IntRepr} {ms : List MemberDecl} {vs : List (String × Int)}

/-- The variants of one more member. -/
theorem variantsOf_cons {m : MemberDecl} (h : variantsOf name r (m :: ms) = .ok vs) :
    ∃ d rest, m.payload.integer? = some d ∧ r.fits d = true ∧ variantsOf name r ms = .ok rest ∧
      vs = (m.name, d) :: rest := by
  unfold variantsOf at h
  split at h
  · next d hd =>
    split at h
    · next hfits =>
      cases hrest : variantsOf name r ms with
      | error fault => rw [hrest] at h; cases h
      | ok rest =>
        rw [hrest] at h
        cases h
        exact ⟨d, rest, hd, hfits, rfl, rfl⟩
    · cases h
  · cases h

theorem names_variantsOf (h : variantsOf name r ms = .ok vs) :
    vs.map (·.1) = ms.map (·.name) := by
  induction ms generalizing vs with
  | nil => cases h; rfl
  | cons m ms ih =>
    obtain ⟨d, rest, -, -, hrest, rfl⟩ := variantsOf_cons h
    rw [List.map_cons, List.map_cons, ih hrest]

theorem integers_variantsOf (h : variantsOf name r ms = .ok vs) :
    vs.map (fun v => some v.2) = ms.map (·.payload.integer?) := by
  induction ms generalizing vs with
  | nil => cases h; rfl
  | cons m ms ih =>
    obtain ⟨d, rest, hd, -, hrest, rfl⟩ := variantsOf_cons h
    rw [List.map_cons, List.map_cons, ih hrest, hd]

theorem fits_variantsOf (h : variantsOf name r ms = .ok vs) : ∀ v ∈ vs, r.fits v.2 = true := by
  induction ms generalizing vs with
  | nil => cases h; exact fun _ hv => absurd hv List.not_mem_nil
  | cons m ms ih =>
    obtain ⟨d, rest, -, hfits, hrest, rfl⟩ := variantsOf_cons h
    exact List.forall_mem_cons.2 ⟨hfits, ih hrest⟩

/-- Members without equal values have different discriminants. -/
theorem nodup_variantsOf (h : variantsOf name r ms = .ok vs)
    (hms : ms.Pairwise fun a b => a.payload.same b.payload = false) : (vs.map (·.2)).Nodup := by
  have hints := integers_variantsOf h
  have hsome : (vs.map fun v => some v.2).Pairwise (· ≠ ·) := by
    rw [hints, List.pairwise_map]
    refine hms.imp_of_mem fun {a b} ha _ hab heq => ?_
    have hmem : a.payload.integer? ∈ vs.map fun v => some v.2 := by
      rw [hints]
      exact List.mem_map_of_mem ha
    obtain ⟨v, -, hv⟩ := List.mem_map.1 hmem
    have hsame := Value.same_of_integer? hv.symm (heq ▸ hv.symm)
    rw [hab] at hsame
    cases hsame
  rw [List.pairwise_map] at hsome
  rw [List.Nodup, List.pairwise_map]
  exact hsome.imp fun hne heq => hne (congrArg some heq)

end Variants

/-- The enumeration of a definition with discriminants in the width that a value names. -/
def Enumeration.ofDef (e : EnumDef) (repr : Value) : Except SchemaFault Enumeration :=
  match IntRepr.ofValue? repr with
  | none =>
    match repr.hashFault? with
    | some fault => .error (.hash fault)
    | none => .error (.rejected (.enumeration e.name (.unknownRepr repr)))
  | some r =>
    if e.members.isEmpty then .error (.rejected (.enumeration e.name .empty))
    else
      match h : variantsOf e.name r e.canonicalMembers with
      | .error fault => .error fault
      | .ok vs => .ok {
          name := e.name
          integral := e.integral
          repr := r
          variants := vs
          names_nodup := by
            rw [names_variantsOf h]
            exact e.names_nodup.sublist (List.filter_sublist.map _)
          discriminants_nodup := nodup_variantsOf h e.pairwise_canonicalMembers
          fits := fits_variantsOf h }

end FixedLayout
