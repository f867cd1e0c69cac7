import FixedLayout.Proofs.Canonical
import FixedLayout.Proofs.Enumerations

/-!
# Tables of discriminants

The members of an enumeration that are no aliases are in one-to-one correspondence with the numbers
that are legal in its bytes, whatever these numbers are, and in whatever width.

* `EnumDef.Declares`: an enumeration of members of given names and values, of which equal ones make
  aliases. `EnumDef.declares_declare`: what is declared is such an enumeration;
* `EnumDef.FitsWidth`, `Enumeration.ofDef_text_cases`: the widths that an enumeration fits;
* `Enumeration.check_eq`: what a check says about bytes;
* `Stands`: the one member that bytes stand for. `IsTable`: what an enumeration with a width does;
* `isTable_of_ofDef`: every enumeration with a width does it;
* `Session.enumerations_are_tables`: everything that is ever defined as an enumeration.
-/

namespace FixedLayout

namespace EnumDef

variable {e : EnumDef}

/-! ### Aliases -/

/-- A value has been met among all members exactly if it has been met among those that are no
aliases. -/
theorem Orderly.any_same_iff (he : e.Orderly) (v : Value) :
    (e.canonicalMembers.map (·.payload)).any (·.same v) = true ↔
      ∃ m ∈ e.members, m.payload.same v = true := by
  rw [List.any_map, List.any_eq_true]
  constructor
  · rintro ⟨k, hk, hsame⟩
    exact ⟨k, (mem_canonicalMembers.1 hk).1, hsame⟩
  · rintro ⟨m, hm, hsame⟩
    obtain ⟨k, hk, -, hpayload⟩ := he.origin m hm
    exact ⟨k, hk, by rwa [Function.comp_apply, hpayload]⟩

/-- A further member adds its value, unless it is an alias. -/
theorem payloads_addMember (he : e.Orderly) {name : String} {payload : Value}
    (h : name ∉ e.members.map (·.name)) :
    (e.addMember name payload h).canonicalMembers.map (·.payload) =
      if (e.canonicalMembers.map (·.payload)).any (·.same payload) then
        e.canonicalMembers.map (·.payload)
      else e.canonicalMembers.map (·.payload) ++ [payload] := by
  have hadded : (e.addMember name payload h).canonicalMembers =
      e.canonicalMembers ++
        [e.nextMember name payload].filter fun m => m.name == m.canonical :=
    List.filter_append ..
  rw [hadded, List.map_append]
  unfold nextMember
  cases hfind : e.members.find? fun m => m.payload.same payload with
  | some m =>
    have hm := List.mem_of_find?_eq_some hfind
    have hequal := List.find?_some (p := fun m : MemberDecl => m.payload.same payload) hfind
    have hsame := (he.any_same_iff payload).2 ⟨m, hm, hequal⟩
    -- an alias bears a new name, and the member that it stands for does not
    have hname : (name == m.canonical) = false := by
      rw [beq_eq_false_iff_ne]
      rintro rfl
      exact h (e.canonical_mem m hm)
    simp only [hsame, if_true, List.filter_singleton, hname, cond_false, List.map_nil,
      List.append_nil]
  | none =>
    have hnew : ¬ (e.canonicalMembers.map (·.payload)).any (·.same payload) = true := by
      rw [he.any_same_iff]
      rintro ⟨m, hm, hsame⟩
      exact List.find?_eq_none.1 hfind m hm hsame
    simp only [hnew, List.filter_singleton, beq_self_eq_true]
    rfl

theorem payloads_addMembers (he : e.Orderly) {names : List String} {payloads : List Value}
    (hlen : names.length = payloads.length) (h : (e.members.map (·.name) ++ names).Nodup)
    (hpayloads : e.integral = true → ∀ v ∈ payloads, ∃ n, v = .int n) :
    (e.addMembers names payloads h).canonicalMembers.map (·.payload) =
      payloads.foldl (fun seen v => if seen.any (·.same v) then seen else seen ++ [v])
        (e.canonicalMembers.map (·.payload)) := by
  induction names generalizing e payloads with
  | nil =>
    obtain rfl := List.length_eq_zero_iff.1 hlen.symm
    rfl
  | cons name names ih =>
    cases payloads with
    | nil => cases hlen
    | cons payload payloads =>
      have hname : name ∉ e.members.map (·.name) := fun hmem =>
        (List.nodup_append.1 h).2.2 name hmem name (List.mem_cons_self ..) rfl
      have hfirst : e.integral = true → ∃ n, payload = .int n := fun hintegral =>
        hpayloads hintegral payload (List.mem_cons_self ..)
      rw [List.foldl_cons, ← payloads_addMember he hname]
      refine ih (he.addMember hname hfirst) (Nat.succ.inj hlen) _ fun hintegral v hv => ?_
      exact hpayloads hintegral v (List.mem_cons_of_mem _ hv)

/-- A further member has the value that is given for it, or an equal one. -/
theorem payload_nextMember (e : EnumDef) (name : String) (payload : Value) :
    (e.nextMember name payload).payload = payload ∨
      (e.nextMember name payload).payload.same payload = true := by
  unfold nextMember
  split
  · next m hm =>
    have hsame : m.payload.same payload = true :=
      List.find?_some (p := fun m : MemberDecl => m.payload.same payload) hm
    exact .inr hsame
  · exact .inl rfl

theorem exists_added {names : List String} {payloads : List Value}
    (hlen : names.length = payloads.length) (h : (e.members.map (·.name) ++ names).Nodup) :
    (e.addMembers names payloads h).name = e.name ∧
      (e.addMembers names payloads h).integral = e.integral ∧
      ∃ added, (e.addMembers names payloads h).members = e.members ++ added ∧
        added.map (·.name) = names ∧
        List.Forall₂ (fun v m => m.payload = v ∨ m.payload.same v = true) payloads added := by
  induction names generalizing e payloads with
  | nil =>
    obtain rfl := List.length_eq_zero_iff.1 hlen.symm
    exact ⟨rfl, rfl, [], (List.append_nil _).symm, rfl, .nil⟩
  | cons name names ih =>
    cases payloads with
    | nil => cases hlen
    | cons payload payloads =>
      obtain ⟨hname, hintegral, added, hmembers, hnames, hvalues⟩ :=
        ih (e := e.addMember name payload _) (Nat.succ.inj hlen) _
      refine ⟨hname, hintegral, e.nextMember name payload :: added, hmembers.trans ?_, ?_,
        .cons (e.payload_nextMember name payload) hvalues⟩
      · exact List.append_assoc _ [e.nextMember name payload] added
      · rw [List.map_cons, name_nextMember, hnames]

/-- An enumeration has been declared with members of given names and values. A member whose value is
equal to an earlier one is an alias of that one, and all others have different values. -/
structure Declares (e : EnumDef) (name : String) (integral : Bool) (names : List String)
    (payloads : List Value) : Prop where
  name : e.name = name
  integral : e.integral = integral
  names : e.members.map (·.name) = names
  values : List.Forall₂ (fun v m => m.payload = v ∨ m.payload.same v = true) payloads e.members
  canonical : e.canonicalMembers.map (·.payload) = Value.firsts payloads

theorem declares_declare (name : String) (integral : Bool) (repr : Value) {names : List String}
    {payloads : List Value} (h : names.Nodup) (hlen : names.length = payloads.length)
    (hpayloads : integral = true → ∀ v ∈ payloads, ∃ n, v = .int n) :
    (declare name integral repr names payloads h).Declares name integral names payloads := by
  let empty : EnumDef :=
    ⟨name, integral, repr, [], List.nodup_nil, fun _ hm => absurd hm List.not_mem_nil, .nil⟩
  have horderly : empty.Orderly := orderly_of_members_eq_nil rfl
  obtain ⟨hname, hintegral, added, hmembers, hnames, hvalues⟩ := exists_added (e := empty) hlen h
  refine ⟨hname, hintegral, ?_, ?_, payloads_addMembers horderly hlen h hpayloads⟩
  · exact (congrArg (List.map (·.name)) hmembers).trans hnames
  · exact hmembers ▸ hvalues

end EnumDef

/-! ### Widths -/

/-- There are members, and all that are no aliases are integers that fit a width. -/
def EnumDef.FitsWidth (e : EnumDef) (r : IntRepr) : Prop :=
  e.members ≠ [] ∧ ∀ m ∈ e.canonicalMembers, ∃ n, m.payload.integer? = some n ∧ r.fits n = true

namespace Enumeration

variable {e : EnumDef} {enum : Enumeration} {repr : Value}

theorem repr_of_ofDef (h : ofDef e repr = .ok enum) : IntRepr.ofValue? repr = some enum.repr := by
  unfold ofDef at h
  split at h
  · split at h <;> cases h
  · next r hr =>
    split at h
    · cases h
    · split at h
      · cases h
      · cases h
        exact hr

theorem exists_rejected_of_variantsOf {name : String} {r : IntRepr} {ms : List MemberDecl}
    {fault : SchemaFault} (h : variantsOf name r ms = .error fault) :
    ∃ error, fault = .rejected (.enumeration name error) := by
  induction ms with
  | nil => cases h
  | cons m ms ih =>
    unfold variantsOf at h
    split at h
    · split at h
      · exact ih (map_eq_error_iff.1 h)
      · cases h
        exact ⟨_, rfl⟩
    · cases h
      exact ⟨_, rfl⟩

/-- With a text for its width, a definition that is not accepted is rejected. -/
theorem exists_rejected_of_ofDef {reprName : String} {fault : SchemaFault}
    (h : ofDef e (.text reprName) = .error fault) :
    ∃ error, fault = .rejected (.enumeration e.name error) := by
  unfold ofDef at h
  split at h
  · cases h
    exact ⟨_, rfl⟩
  · split at h
    · cases h
      exact ⟨_, rfl⟩
    · split at h
      · next hvariants =>
        cases h
        exact exists_rejected_of_variantsOf hvariants
      · cases h

/-- The enumerations with a width that a text names are those that fit it; all others are
rejected. -/
theorem ofDef_text_cases (e : EnumDef) (reprName : String) :
    (∃ enum, ofDef e (.text reprName) = .ok enum ∧
      IntRepr.ofName? reprName = some enum.repr ∧ e.FitsWidth enum.repr) ∨
    (¬ ∃ r, IntRepr.ofName? reprName = some r ∧ e.FitsWidth r) ∧
      ∃ error, ofDef e (.text reprName) = .error (.rejected (.enumeration e.name error)) := by
  have hiff : (∃ enum, ofDef e (.text reprName) = .ok enum) ↔
      ∃ r, IntRepr.ofName? reprName = some r ∧ e.FitsWidth r := exists_ofDef_iff
  cases hdef : ofDef e (.text reprName) with
  | ok enum =>
    have hrepr : IntRepr.ofName? reprName = some enum.repr := repr_of_ofDef hdef
    obtain ⟨r, hr, hfits⟩ := hiff.1 ⟨enum, hdef⟩
    obtain rfl := Option.some.inj (hrepr.symm.trans hr)
    exact .inl ⟨enum, rfl, hrepr, hfits⟩
  | error fault =>
    obtain ⟨error, rfl⟩ := exists_rejected_of_ofDef hdef
    refine .inr ⟨fun hfits => ?_, error, rfl⟩
    obtain ⟨enum, henum⟩ := hiff.2 hfits
    cases hdef.symm.trans henum

/-- The discriminants are the values of the members that are no aliases, in the same order. -/
theorem discriminants_of_ofDef (h : ofDef e repr = .ok enum) :
    enum.discriminants.map some = e.canonicalMembers.map (·.payload.integer?) := by
  obtain ⟨-, -, r, hvariants⟩ := ofDef_eq_ok h
  rw [← integers_variantsOf hvariants, discriminants, List.map_map]
  rfl

theorem mem_discriminants_iff (he : e.Orderly) (h : ofDef e repr = .ok enum) {d : Int} :
    d ∈ enum.discriminants ↔ ∃ m ∈ e.members, m.payload.integer? = some d := by
  have hsome : d ∈ enum.discriminants ↔ some d ∈ enum.discriminants.map some := by
    simp
  rw [hsome, discriminants_of_ofDef h, List.mem_map]
  constructor
  · rintro ⟨k, hk, hd⟩
    exact ⟨k, (EnumDef.mem_canonicalMembers.1 hk).1, hd⟩
  · rintro ⟨m, hm, hd⟩
    obtain ⟨k, hk, -, hpayload⟩ := he.origin m hm
    exact ⟨k, hk, hpayload ▸ hd⟩

/-- Bytes pass the check if the number that they denote is a discriminant. The error says which
number it is otherwise, and which ones there are. -/
theorem check_eq (enum : Enumeration) {data : Bytes} (hlen : data.length = enum.repr.width) :
    enum.check data =
      if enum.repr.fromBytes data ∈ enum.discriminants then .ok ()
      else .error (.rejected
        (.of enum.name (.discriminant (.int (enum.repr.fromBytes data)) enum.discriminants))) := by
  have hiff := enum.variant?_isSome_iff (enum.repr.fromBytes data)
  unfold Enumeration.check
  rw [enum.repr.read_of_length hlen]
  cases hvariant : enum.variant? (enum.repr.fromBytes data) with
  | some x =>
    rw [if_pos (hiff.1 ⟨x, hvariant⟩)]
    simp only [hvariant]
  | none =>
    have hnot : enum.repr.fromBytes data ∉ enum.discriminants := by
      intro hmem
      obtain ⟨x, hx⟩ := hiff.2 hmem
      cases hvariant.symm.trans hx
    rw [if_neg hnot]
    simp only [hvariant]

end Enumeration

/-! ### Members and bytes -/

/-- Two members that are no aliases have different numbers. -/
theorem EnumDef.eq_of_integer? {e : EnumDef} {enum : Enumeration} {repr : Value}
    (h : Enumeration.ofDef e repr = .ok enum) {k k' : MemberDecl} (hk : k ∈ e.canonicalMembers)
    (hk' : k' ∈ e.canonicalMembers) (hsame : k.payload.integer? = k'.payload.integer?) :
    k = k' := by
  have hnodup : (e.canonicalMembers.map (·.payload.integer?)).Nodup := by
    rw [← Enumeration.discriminants_of_ofDef h]
    exact enum.discriminants_nodup.map (Option.some_injective Int)
  exact List.inj_on_of_nodup_map hnodup hk hk' hsame

/-- Bytes stand for a member: it is the only one with the number that they denote, aliases apart.
It is what they are decoded to, and it is written as these bytes under any of its names. -/
structure Stands (e : EnumDef) (enum : Enumeration) (data : Bytes) (k : MemberDecl) : Prop where
  canonical : k ∈ e.canonicalMembers
  value : k.payload.integer? = some (enum.repr.fromBytes data)
  only : ∀ k' ∈ e.canonicalMembers,
    k'.payload.integer? = some (enum.repr.fromBytes data) → k' = k
  decode : (Layout.enumeration enum).decode data =
    .ok (.member e.name k.name e.integral (.int (enum.repr.fromBytes data)))
  same : (Value.member e.name k.name e.integral (.int (enum.repr.fromBytes data))).same
    (e.memberValue k) = true
  aliases : ∀ m ∈ e.members,
    m.canonical = k.name ↔ m.payload.integer? = some (enum.repr.fromBytes data)
  encode : ∀ m ∈ e.members, m.canonical = k.name → ∀ region : Bytes,
    region.length = enum.repr.width →
      (Layout.enumeration enum).encode (e.memberValue m) region = (.ok (), data)

/-- What an enumeration with a width does. -/
structure IsTable (e : EnumDef) (enum : Enumeration) : Prop where
  size : (Layout.enumeration enum).size = enum.repr.width
  options : enum.discriminants.map some = e.canonicalMembers.map (·.payload.integer?)
  distinct : enum.discriminants.Nodup
  check_iff : ∀ data : Bytes, data.length = enum.repr.width →
    ((Layout.enumeration enum).check data = .ok () ↔
      ∃ m ∈ e.members, m.payload.integer? = some (enum.repr.fromBytes data))
  member : ∀ data : Bytes, data.length = enum.repr.width →
    (Layout.enumeration enum).check data = .ok () → ∃ k, Stands e enum data k
  invalid : ∀ data : Bytes, data.length = enum.repr.width →
    (Layout.enumeration enum).check data ≠ .ok () →
      enum.repr.fromBytes data ∉ enum.discriminants ∧
      (Layout.enumeration enum).check data = .error (.rejected
        (.of e.name (.discriminant (.int (enum.repr.fromBytes data)) enum.discriminants)))

section Tables

variable {e : EnumDef} (he : e.Orderly) {enum : Enumeration} {repr : Value}
  (h : Enumeration.ofDef e repr = .ok enum)

include he h

theorem exists_stands {data : Bytes} (hlen : data.length = enum.repr.width)
    (hmem : ∃ m ∈ e.members, m.payload.integer? = some (enum.repr.fromBytes data)) :
    ∃ k, Stands e enum data k := by
  obtain ⟨hname, hintegral, r, hvariants⟩ := Enumeration.ofDef_eq_ok h
  obtain ⟨m, hm, hd⟩ := hmem
  obtain ⟨k, hk, -, hpayload⟩ := he.origin m hm
  rw [← hpayload] at hd
  obtain ⟨x, hx, hlabel, hx2⟩ := exists_variant_of_mem hvariants hk
  have hnumber : x.2 = enum.repr.fromBytes data := Option.some.inj (hx2.symm.trans hd)
  have hkmem := (EnumDef.mem_canonicalMembers.1 hk).1
  have honly : ∀ k' ∈ e.canonicalMembers,
      k'.payload.integer? = some (enum.repr.fromBytes data) → k' = k := fun k' hk' hd' =>
    EnumDef.eq_of_integer? h hk' hk (hd'.trans hd.symm)
  have haliases : ∀ m ∈ e.members,
      m.canonical = k.name ↔ m.payload.integer? = some (enum.repr.fromBytes data) := by
    intro m hm
    obtain ⟨k', hk', hcanonical, hpayload'⟩ := he.origin m hm
    rw [← hpayload', ← hcanonical]
    constructor
    · intro hsame
      have hkk : k' = k := List.inj_on_of_nodup_map e.names_nodup
        (EnumDef.mem_canonicalMembers.1 hk').1 hkmem hsame
      rw [hkk, hd]
    · intro hd'
      rw [honly k' hk' hd']
  refine ⟨k, hk, hd, honly, ?_, ?_, haliases, fun m hm hcanonical region hregion => ?_⟩
  · show enum.decode data = _
    unfold Enumeration.decode
    rw [enum.repr.read_of_length hlen, ← hnumber]
    simp only [enum.variant?_of_mem hx]
    rw [hlabel, hname, hintegral]
  · unfold EnumDef.memberValue
    rw [← (EnumDef.mem_canonicalMembers.1 hk).2]
    refine Value.same_member e.name k.name fun hint => ?_
    obtain ⟨n, hn⟩ := he.integer hint k hkmem
    rw [hn] at hd ⊢
    rw [Option.some.inj hd]
  · unfold EnumDef.memberValue Layout.encode
    rw [hcanonical, ← hlabel, ← hname, enum.encode_member hx, hnumber,
      enum.repr.toBytes_fromBytes hlen, Writer.put_apply (hregion.trans hlen.symm)]

theorem isTable_of_ofDef : IsTable e enum := by
  have hcheck : ∀ {data : Bytes}, data.length = enum.repr.width →
      ((Layout.enumeration enum).check data = .ok () ↔
        enum.repr.fromBytes data ∈ enum.discriminants) := by
    intro data hlen
    show enum.check data = .ok () ↔ _
    rw [enum.check_eq hlen]
    split
    · next hmem => exact iff_of_true rfl hmem
    · next hnot => exact iff_of_false nofun hnot
  have hmem := fun d => Enumeration.mem_discriminants_iff (d := d) he h
  refine ⟨rfl, Enumeration.discriminants_of_ofDef h, enum.discriminants_nodup,
    fun data hlen => (hcheck hlen).trans (hmem _), fun data hlen hok => ?_,
    fun data hlen hfail => ?_⟩
  · exact exists_stands he h hlen ((hmem _).1 ((hcheck hlen).1 hok))
  · have hnot : enum.repr.fromBytes data ∉ enum.discriminants := fun h => hfail ((hcheck hlen).2 h)
    refine ⟨hnot, ?_⟩
    show enum.check data = _
    rw [enum.check_eq hlen, if_neg hnot, (Enumeration.ofDef_eq_ok h).1]

end Tables

/-! ### Definitions -/

namespace Session

variable {w after : Workspace}

/-- The members of a plain enumeration have the values that are given for them. -/
theorem payloads_of_plain {members : List (String × Value)} {payloads : List Value}
    (h : List.Forall₂ (fun m v => IsPayload false m.2 v) members payloads) :
    payloads = members.map (·.2) := by
  induction h with
  | nil => rfl
  | cons hpayload _ ih =>
    obtain rfl := hpayload
    rw [ih, List.map_cons]

/-- What is ever defined as an enumeration, with any members and any representation of its own. With
a width that a text names, it has a form exactly if it has members and the values of those that are
no aliases are integers that fit, and is rejected otherwise. It is then a table of its members and
of the numbers in its bytes. -/
theorem enumerations_are_tables {integral : Bool} {name : String} {repr : Value}
    {members : List (String × Value)}
    (h : defineEnum integral name repr members w = (.ok (), after)) :
    ∃ e payloads, after.catalog = .enumeration e :: w.catalog ∧
      List.Forall₂ (fun m v => IsPayload integral m.2 v) members payloads ∧
      e.Declares name integral (members.map (·.1)) payloads ∧
      ∀ reprName : String,
        (∃ enum, Enumeration.ofDef e (.text reprName) = .ok enum ∧
          IntRepr.ofName? reprName = some enum.repr ∧ e.FitsWidth enum.repr ∧ IsTable e enum) ∨
        (¬ ∃ r, IntRepr.ofName? reprName = some r ∧ e.FitsWidth r) ∧
          ∃ error, Enumeration.ofDef e (.text reprName) =
            .error (.rejected (.enumeration name error)) := by
  obtain ⟨payloads, hnodup, hgiven, hints, horderly, hcatalog⟩ := orderly_defineEnum h
  have hlen : (members.map (·.1)).length = payloads.length := by
    rw [List.length_map, hgiven.length_eq]
  have hdeclares := EnumDef.declares_declare name integral repr hnodup hlen hints
  refine ⟨_, payloads, hcatalog, hgiven, hdeclares, fun reprName => ?_⟩
  rcases Enumeration.ofDef_text_cases _ reprName with
    ⟨enum, hdef, hrepr, hfits⟩ | ⟨hnot, error, herr⟩
  · exact .inl ⟨enum, hdef, hrepr, hfits, isTable_of_ofDef horderly hdef⟩
  · rw [hdeclares.name] at herr
    exact .inr ⟨hnot, error, herr⟩

/-- The members of an enumeration with a negative value and an alias. -/
def signMembers : List (String × Value) := [("PLUS", .int 1), ("MINUS", .int (-2)), ("POS", .int 1)]

/-- The two numbers of an enumeration of three names, in two bytes. Bytes of the first one are
written for both of its names, and others are told which numbers there are. -/
theorem signs_are_a_table : ∃ after e enum,
    defineEnum false "Sign" .null signMembers Workspace.empty = (.ok (), after) ∧
    after.catalog = [.enumeration e] ∧ Enumeration.ofDef e (.text "i16") = .ok enum ∧
    enum.discriminants = [1, -2] ∧ IsTable e enum := by
  have hok : (defineEnum false "Sign" .null signMembers Workspace.empty).1 = .ok () := by cbv
  have hdefine : defineEnum false "Sign" .null signMembers Workspace.empty =
      (.ok (), (defineEnum false "Sign" .null signMembers Workspace.empty).2) := Prod.ext hok rfl
  obtain ⟨e, payloads, hcatalog, hgiven, hdeclares, htext⟩ := enumerations_are_tables hdefine
  have hcanonical := hdeclares.canonical
  have hfirsts : Value.firsts payloads = [.int 1, .int (-2)] := by
    rw [payloads_of_plain hgiven]
    cbv
  have hfits : e.FitsWidth .i16 := by
    refine ⟨fun hnone => ?_, fun m hm => ?_⟩
    · have hnames := hdeclares.names
      rw [hnone] at hnames
      cases hnames
    · have hmem := List.mem_map_of_mem (f := (·.payload)) hm
      rw [hcanonical, hfirsts] at hmem
      rcases List.mem_pair.1 hmem with hm | hm
      · exact ⟨1, by rw [hm]; rfl, by decide⟩
      · exact ⟨-2, by rw [hm]; rfl, by decide⟩
  rcases htext "i16" with ⟨enum, hdef, -, -, htable⟩ | ⟨hnot, -⟩
  · refine ⟨_, e, enum, hdefine, hcatalog, hdef, ?_, htable⟩
    have hintegers : e.canonicalMembers.map (·.payload.integer?) =
        (e.canonicalMembers.map (·.payload)).map Value.integer? := by
      rw [List.map_map]
      rfl
    have hoptions := htable.options
    rw [hintegers, hcanonical, hfirsts] at hoptions
    exact List.map_injective_iff.2 (Option.some_injective Int) hoptions
  · exact absurd ⟨.i16, by decide, hfits⟩ hnot

end Session

end FixedLayout
