import FixedLayout.Proofs.Outcomes
import FixedLayout.Proofs.RoundTrip

/-!
# Accepted options

Which values options are made of, whatever kind of value is given for each of them, and what an
accepted accessor stands for.

* `Value.IsZero`: the values that equal `false`. `Value.same_false_iff`;
* `LegalRepr`, `LegalContent`, `LegalAccessor`: the values that an option is meant to have;
* `Options.Reads`: the accessor that a value stands for. `Options.readAccessor_eq_ok_iff`;
* `Options.ofValues?_eq_ok_iff`, `Options.ofValues?_eq_hash_iff`: the options that are accepted, and
  those that fail otherwise than by a rejection;
* `Options.accessorName_of_reads_text`, `Options.forall_accessorName_iff`: the names for fields;
* `Options.accepted_iff`: any three values. A zero passes for an accessor, and a representation that
  cannot be looked up in a table is not rejected: `Options.zero_and_list_are_not_rejected`.
-/

namespace FixedLayout

/-! ### Zeros -/

/-- The values that equal the truth value `false`: itself, and zero in every kind of number. -/
inductive Value.IsZero : Value → Prop
  | bool : IsZero (.bool false)
  | int : IsZero (.int 0)
  | float (negative : Bool) (exponent : Int) : IsZero (.float (.finite negative 0 exponent))
  | member (enum name : String) : IsZero (.member enum name true (.int 0))

namespace Binary64

/-- A ratio equals zero exactly if its numerator is zero. -/
theorem Magnitude.eq_zero_iff {num : Int} {den : Nat} :
    (Magnitude.ratio num den).eq (.ratio 0 1) = true ↔ num = 0 := by
  simp only [eq, lt, Bool.and_eq_true, Bool.not_eq_true', decide_eq_false_iff_not]
  omega

/-- Powers of two make nothing of zero, and zero of nothing else. -/
theorem scale_eq_zero_iff {a b : Nat} {e : Int} : (scale a b e).1 = 0 ↔ a = 0 := by
  unfold scale
  split
  · rfl
  · rw [Nat.shiftLeft_eq, Nat.mul_eq_zero, or_iff_left (Nat.pow_pos (by decide)).ne']

/-- A float equals zero exactly if its mantissa is zero. -/
theorem exists_magnitude_eq_zero_iff {x : Binary64} :
    (∃ m, x.magnitude? = some m ∧ m.eq (.ratio 0 1) = true) ↔
      ∃ negative exponent, x = .finite negative 0 exponent := by
  cases x with
  | nan => simp [magnitude?]
  | infinite negative => cases negative <;> simp [magnitude?, Magnitude.eq, Magnitude.lt]
  | finite negative mantissa exponent =>
    have hmagnitude : (finite negative mantissa exponent).magnitude? =
      some (.ratio (if negative then -((scale mantissa 1 exponent).1 : Int)
        else (scale mantissa 1 exponent).1) (scale mantissa 1 exponent).2) := rfl
    rw [hmagnitude]
    simp only [Option.some.injEq, exists_eq_left', Magnitude.eq_zero_iff, finite.injEq]
    have hzero : ((if negative then -((scale mantissa 1 exponent).1 : Int)
        else (scale mantissa 1 exponent).1) = 0) ↔ mantissa = 0 := by
      rw [← scale_eq_zero_iff (a := mantissa) (b := 1) (e := exponent)]
      split <;> omega
    rw [hzero]
    constructor
    · intro h
      exact ⟨negative, exponent, rfl, h, rfl⟩
    · rintro ⟨_, _, -, h, -⟩
      exact h

end Binary64

/-- Only numbers equal a truth value. -/
theorem Value.same_false_eq (v : Value) : v.same (.bool false) =
    (v.isNumber && v.magnitude?.any (·.eq (.ratio 0 1))) := by
  have hfalse : (Value.bool false).magnitude? = some (.ratio 0 1) := rfl
  cases v with
  | bool b => simp [same, isNumber, magnitude?]
  | int n => simp [same, isNumber, magnitude?]
  | float x =>
    simp only [same, isNumber, Bool.true_and, if_true, hfalse]
    cases (float x).magnitude? <;> rfl
  | member enum name integral payload =>
    cases integral with
    | false => rw [same] <;> simp [isNumber, isHandle, window?, flatBytes?]
    | true =>
      rw [same] <;> simp [isNumber, hfalse]
      cases (member enum name true payload).magnitude? <;> rfl
  | _ => simp [same, isNumber, isHandle, rawBytes?, window?, flatBytes?]

theorem Value.same_false_iff {v : Value} : v.same (.bool false) = true ↔ v.IsZero := by
  rw [same_false_eq, Bool.and_eq_true, Option.any_eq_true]
  constructor
  · rintro ⟨hnumber, m, hm, hzero⟩
    cases v with
    | bool b =>
      cases hm
      cases b with
      | false => exact .bool
      | true => cases Binary64.Magnitude.eq_zero_iff.1 hzero
    | int n =>
      cases hm
      obtain rfl := Binary64.Magnitude.eq_zero_iff.1 hzero
      exact .int
    | float x =>
      obtain ⟨negative, exponent, rfl⟩ := Binary64.exists_magnitude_eq_zero_iff.1 ⟨m, hm, hzero⟩
      exact .float negative exponent
    | member enum name integral payload =>
      unfold magnitude? at hm
      split at hm
      · next heq => cases heq
      · next heq => cases heq
      · next heq => cases heq
      · next n heq =>
        cases heq
        cases hm
        obtain rfl := Binary64.Magnitude.eq_zero_iff.1 hzero
        exact .member enum name
      · cases hm
    | _ => cases hm
  · rintro (_ | _ | ⟨negative, exponent⟩ | _)
    · exact ⟨rfl, _, rfl, Binary64.Magnitude.eq_zero_iff.2 rfl⟩
    · exact ⟨rfl, _, rfl, Binary64.Magnitude.eq_zero_iff.2 rfl⟩
    · exact ⟨rfl, Binary64.exists_magnitude_eq_zero_iff.2 ⟨negative, exponent, rfl⟩⟩
    · exact ⟨rfl, _, rfl, Binary64.Magnitude.eq_zero_iff.2 rfl⟩
/-! ### Single options -/

/-- The representations that options are meant to name: none, that of characters, or a width. -/
inductive LegalRepr : Value → Prop
  | absent : LegalRepr .null
  | char : LegalRepr (.text charRepr)
  | width {name : String} : name ∈ IntRepr.all.map (·.name) → LegalRepr (.text name)

/-- The contents that options may set: all values but truth values and floats. -/
def LegalContent (v : Value) : Prop := (∀ b, v ≠ .bool b) ∧ ∀ x, v ≠ .float x

/-- The accessors that options are meant to set: none, a truth value, or a name that is an
identifier and not hidden. -/
inductive LegalAccessor : Value → Prop
  | absent : LegalAccessor .null
  | flag (b : Bool) : LegalAccessor (.bool b)
  | name {s : String} : Text.isIdentifier s = true → s.startsWith "_" = false →
    LegalAccessor (.text s)

theorem IntRepr.ofName?_isSome_iff {name : String} :
    (ofName? name).isSome = true ↔ name ∈ all.map (·.name) := by
  unfold ofName?
  rw [List.find?_isSome, List.mem_map]
  exact exists_congr fun r => and_congr_right fun _ => beq_iff_eq

namespace Options

theorem checkRepr_eq_ok_iff {repr : Value} : checkRepr repr = .ok () ↔ LegalRepr repr := by
  constructor
  · intro h
    unfold checkRepr at h
    split at h
    · exact .absent
    · next name =>
      split at h
      · next hname =>
        rcases hname with rfl | hwidth
        · exact .char
        · exact .width (IntRepr.ofName?_isSome_iff.1 hwidth)
      · cases h
    · split at h <;> cases h
  · rintro (_ | _ | hname)
    · rfl
    · rfl
    · exact if_pos (.inr (IntRepr.ofName?_isSome_iff.2 hname))

theorem checkRepr_eq_hash_iff {repr : Value} {f : HashFault} :
    checkRepr repr = .error (.hash f) ↔ repr.hashFault? = some f := by
  unfold checkRepr
  split
  · exact iff_of_false nofun nofun
  · next name =>
    refine iff_of_false ?_ nofun
    split <;> exact nofun
  · split
    · next fault hfault => simp [hfault]
    · next hnone => simp [hnone]

theorem checkValue_eq_ok_iff {value : Value} : checkValue value = .ok () ↔ LegalContent value := by
  cases value with
  | bool b => exact iff_of_false nofun fun h => h.1 b rfl
  | float x => exact iff_of_false nofun fun h => h.2 x rfl
  | _ => exact iff_of_true rfl ⟨nofun, nofun⟩

/-- The accessor that a value stands for. `true` is the same as none; a zero stays as it is. -/
inductive Reads : Value → Value → Prop
  | absent : Reads .null .null
  | shown : Reads (.bool true) .null
  | name {s : String} : Text.isIdentifier s = true → s.startsWith "_" = false →
    Reads (.text s) (.text s)
  | zero {v : Value} : v.IsZero → Reads v v

theorem readAccessor_eq_ok_iff {given accessor : Value} :
    readAccessor given = .ok accessor ↔ Reads given accessor := by
  constructor
  · intro h
    unfold readAccessor at h
    split at h
    · cases h
      exact .shown
    · split at h
      · cases h
      · next hidentifier =>
        split at h
        · cases h
        · next hshown =>
          cases h
          exact .name (by simpa using hidentifier) (Bool.eq_false_iff.2 hshown)
    · cases h
      exact .absent
    · split at h
      · next hsame =>
        cases h
        exact .zero (Value.same_false_iff.1 hsame)
      · cases h
  · rintro (_ | _ | ⟨hidentifier, hshown⟩ | hzero)
    · rfl
    · rfl
    · simp [readAccessor, hidentifier, hshown]
    · have hsame := Value.same_false_iff.2 hzero
      cases hzero <;> exact if_pos hsame

theorem exists_reads_iff {given : Value} :
    (∃ accessor, Reads given accessor) ↔ LegalAccessor given ∨ given.IsZero := by
  constructor
  · rintro ⟨accessor, _ | _ | ⟨hidentifier, hshown⟩ | hzero⟩
    · exact .inl .absent
    · exact .inl (.flag true)
    · exact .inl (.name hidentifier hshown)
    · exact .inr hzero
  · rintro ((_ | b | ⟨hidentifier, hshown⟩) | hzero)
    · exact ⟨_, .absent⟩
    · cases b with
      | false => exact ⟨_, .zero .bool⟩
      | true => exact ⟨_, .shown⟩
    · exact ⟨_, .name hidentifier hshown⟩
    · exact ⟨_, .zero hzero⟩

/-! ### All options together -/

variable {value accessor repr : Value} {o : Options}

theorem ofValues?_eq_ok_iff :
    ofValues? value accessor repr = .ok o ↔
      LegalRepr repr ∧ LegalContent value ∧ Reads accessor o.accessor ∧ o.value = value ∧
        o.repr = repr := by
  rw [← checkRepr_eq_ok_iff, ← checkValue_eq_ok_iff, ← readAccessor_eq_ok_iff]
  constructor
  · intro h
    obtain ⟨_, hrepr, h⟩ := bind_eq_ok h
    obtain ⟨_, hvalue, h⟩ := bind_eq_ok h
    obtain ⟨read, haccessor, h⟩ := bind_eq_ok h
    cases h
    exact ⟨hrepr, hvalue, haccessor, rfl, rfl⟩
  · rintro ⟨hrepr, hvalue, haccessor, rfl, rfl⟩
    unfold ofValues?
    rw [hrepr, hvalue, haccessor]
    rfl

/-- The representation is looked at first, so that one that cannot be looked up decides. -/
theorem ofValues?_eq_hash_iff {f : HashFault} :
    ofValues? value accessor repr = .error (.hash f) ↔ repr.hashFault? = some f := by
  refine ⟨hashFault?_of_ofValues?, fun h => ?_⟩
  unfold ofValues?
  rw [checkRepr_eq_hash_iff.2 h]
  rfl

theorem suppressed_iff : o.suppressed = true ↔ o.accessor = .bool false := by
  unfold suppressed
  split
  · next h => exact iff_of_true rfl h
  · next h => exact iff_of_false Bool.false_ne_true h

theorem accessorName_eq_none_iff (name : String) :
    o.accessorName name = none ↔ o.accessor = .bool false := by
  unfold accessorName
  split
  · next h => exact iff_of_true rfl h
  · next h => simp [h]
  · next h _ => exact iff_of_false nofun h

/-- Only `false` itself suppresses an accessor. -/
theorem Reads.eq_false_iff {given read : Value} (h : Reads given read) :
    read = .bool false ↔ given = .bool false := by
  cases h with
  | zero => rfl
  | _ => exact iff_of_false nofun nofun

/-- A name that is set is the accessor, whatever the field is called. -/
theorem accessorName_of_reads_text {s : String} (h : Reads (.text s) o.accessor) (name : String) :
    o.accessorName name = some s := by
  unfold accessorName
  generalize o.accessor = read at h
  cases h with
  | name => rfl
  | zero hzero => cases hzero

/-- The accessor is the name of the field exactly if none is set, or one that equals `false` without
being it. -/
theorem forall_accessorName_iff {given : Value} (h : Reads given o.accessor) :
    (∀ name, o.accessorName name = some name) ↔
      given = .null ∨ given = .bool true ∨ given.IsZero ∧ given ≠ .bool false := by
  unfold accessorName
  generalize o.accessor = read at h
  cases h with
  | absent => exact iff_of_true (fun _ => rfl) (.inl rfl)
  | shown => exact iff_of_true (fun _ => rfl) (.inr (.inl rfl))
  | @name s _ _ =>
    refine iff_of_false (fun hall => ?_) ?_
    · -- the name that is set would be that of every field
      have hlonger : s = s ++ "x" := Option.some.inj (hall (s ++ "x"))
      simpa using congrArg String.length hlonger
    · rintro (h | h | ⟨h, -⟩) <;> cases h
  | zero hzero =>
    cases hzero with
    | bool =>
      refine iff_of_false (fun hall => nomatch hall "x") ?_
      rintro (h | h | ⟨-, h⟩)
      · cases h
      · cases h
      · exact h rfl
    | int => exact iff_of_true (fun _ => rfl) (.inr (.inr ⟨.int, nofun⟩))
    | float negative exponent =>
      exact iff_of_true (fun _ => rfl) (.inr (.inr ⟨.float negative exponent, nofun⟩))
    | member enum name => exact iff_of_true (fun _ => rfl) (.inr (.inr ⟨.member enum name, nofun⟩))

/-- Three values of any kinds make options exactly if each of them is legal, where a zero passes for
an accessor. Otherwise they are rejected, unless the representation cannot even be looked up. An
accessor is suppressed exactly by `false`: then, and only then, there is no name for any field. A
name that is set is the name for all fields, and without one each field keeps its own. -/
theorem accepted_iff (value accessor repr : Value) :
    ((∃ o, ofValues? value accessor repr = .ok o) ↔
        LegalRepr repr ∧ LegalContent value ∧ (LegalAccessor accessor ∨ accessor.IsZero)) ∧
      ((∃ e, ofValues? value accessor repr = .error (.rejected e)) ↔
        repr.hashFault? = none ∧
          ¬ (LegalRepr repr ∧ LegalContent value ∧ (LegalAccessor accessor ∨ accessor.IsZero))) ∧
      (∀ f, ofValues? value accessor repr = .error (.hash f) ↔ repr.hashFault? = some f) ∧
      ∀ o, ofValues? value accessor repr = .ok o →
        (o.value = value ∧ o.repr = repr) ∧
        (o.suppressed = true ↔ accessor = .bool false) ∧
        (o.suppressed = true ↔ ∀ name, o.accessorName name = none) ∧
        (∀ s, accessor = .text s → ∀ name, o.accessorName name = some s) ∧
        ((∀ name, o.accessorName name = some name) ↔
          accessor = .null ∨ accessor = .bool true ∨ accessor.IsZero ∧ accessor ≠ .bool false) := by
  have hok : (∃ o, ofValues? value accessor repr = .ok o) ↔
      LegalRepr repr ∧ LegalContent value ∧ (LegalAccessor accessor ∨ accessor.IsZero) := by
    rw [← exists_reads_iff]
    constructor
    · rintro ⟨o, h⟩
      obtain ⟨hrepr, hvalue, hreads, -⟩ := ofValues?_eq_ok_iff.1 h
      exact ⟨hrepr, hvalue, _, hreads⟩
    · rintro ⟨hrepr, hvalue, read, hreads⟩
      exact ⟨⟨value, read, repr⟩, ofValues?_eq_ok_iff.2 ⟨hrepr, hvalue, hreads, rfl, rfl⟩⟩
  refine ⟨hok, ?_, fun f => ofValues?_eq_hash_iff, fun o h => ?_⟩
  · rw [← hok, Option.eq_none_iff_forall_ne_some]
    simp only [← @ofValues?_eq_hash_iff value accessor repr, ne_eq]
    -- accepted, rejected and not to be looked up are all that can happen
    cases ofValues? value accessor repr with
    | ok o => simp
    | error fault => cases fault <;> simp
  · obtain ⟨-, -, hreads, hvalue, hrepr⟩ := ofValues?_eq_ok_iff.1 h
    have hsuppressed := suppressed_iff.trans hreads.eq_false_iff
    refine ⟨⟨hvalue, hrepr⟩, hsuppressed, ?_, ?_, forall_accessorName_iff hreads⟩
    · rw [suppressed_iff]
      exact ⟨fun h name => (accessorName_eq_none_iff name).2 h,
        fun h => (accessorName_eq_none_iff "").1 (h "")⟩
    · rintro s rfl name
      exact accessorName_of_reads_text hreads name

/-- A width, bytes as a content and a name as an accessor are accepted, and the name counts. -/
theorem left_is_accepted : ∃ o, ofValues? (.bytes [1]) (.text "left") (.text "u8") = .ok o ∧
    o.suppressed = false ∧ o.accessorName "right" = some "left" := by
  obtain ⟨hok, -, -, hnames⟩ := accepted_iff (.bytes [1]) (.text "left") (.text "u8")
  obtain ⟨o, ho⟩ := hok.2 ⟨.width (by decide), ⟨nofun, nofun⟩, .inl (.name (by cbv) (by cbv))⟩
  obtain ⟨-, hsuppressed, -, hname, -⟩ := hnames o ho
  have hshown : o.suppressed = false := by
    rw [Bool.eq_false_iff]
    intro h
    cases hsuppressed.1 h
  exact ⟨o, ho, hshown, hname "left" rfl "right"⟩

/-- A zero is no legal accessor and is accepted all the same, as if none were set. A list is no
legal representation, and is not rejected: looking it up fails. -/
theorem zero_and_list_are_not_rejected :
    (¬ LegalAccessor (.int 0) ∧ ∃ o, ofValues? .null (.int 0) .null = .ok o ∧
      o.suppressed = false ∧ o.accessorName "left" = some "left") ∧
    ¬ LegalRepr (.list [.text "u8"]) ∧
      ofValues? .null .null (.list [.text "u8"]) = .error (.hash .unhashable) := by
  refine ⟨⟨nofun, ⟨.null, .int 0, .null⟩, ?_, rfl, rfl⟩, nofun, ofValues?_eq_hash_iff.2 rfl⟩
  exact ofValues?_eq_ok_iff.2 ⟨.absent, ⟨nofun, nofun⟩, .zero .int, rfl, rfl⟩

end Options

end FixedLayout
