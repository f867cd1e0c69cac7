import FixedLayout.Proofs.Outcomes
import FixedLayout.Proofs.Views
import FixedLayout.Workspace.Definitions

/-!
# Members of enumerations

Every declared member stands for a member that bears its own name and has the same value, so that it
is written as a variant of the enumeration's layout.

* `EnumDef.Orderly`: aliases have the values of what they stand for, and integral members are
  integers. `EnumDef.orderly_addMembers`: so it is for everything that is ever declared;
* `EnumDef.canonical_memberValue`: a declared member is in canonical form;
* `EnumDef.exists_member_of_validate`: only declared members pass validation;
* `Session.IsPayload`, `Session.orderly_defineEnum`: the values that members get, and what is ever
  defined.
-/

namespace FixedLayout

namespace EnumDef

/-- Every member has the value of the member that it stands for, which bears its own name, and the
members of an integral enumeration are integers. -/
structure Orderly (e : EnumDef) : Prop where
  origin : ∀ m ∈ e.members, ∃ k ∈ e.canonicalMembers, k.name = m.canonical ∧ k.payload = m.payload
  integer : e.integral = true → ∀ m ∈ e.members, ∃ n, m.payload = .int n

variable {e : EnumDef}

/-! ### Declaring members -/

theorem mem_canonicalMembers {m : MemberDecl} :
    m ∈ e.canonicalMembers ↔ m ∈ e.members ∧ m.name = m.canonical := by
  unfold canonicalMembers
  rw [List.mem_filter, beq_iff_eq]

/-- A further member is an alias of an earlier one, or bears its own name. -/
theorem nextMember_cases (e : EnumDef) (name : String) (payload : Value) :
    (∃ m ∈ e.members, e.nextMember name payload = ⟨name, m.canonical, m.payload⟩) ∨
      e.nextMember name payload = ⟨name, name, payload⟩ := by
  unfold nextMember
  split
  · next m hm => exact .inl ⟨m, List.mem_of_find?_eq_some hm, rfl⟩
  · exact .inr rfl

theorem Orderly.addMember (he : e.Orderly) {name : String} {payload : Value}
    (h : name ∉ e.members.map (·.name)) (hpayload : e.integral = true → ∃ n, payload = .int n) :
    (e.addMember name payload h).Orderly where
  origin := by
    have hkeep : ∀ k ∈ e.canonicalMembers, k ∈ (e.addMember name payload h).canonicalMembers := by
      intro k hk
      obtain ⟨hmem, hname⟩ := mem_canonicalMembers.1 hk
      exact mem_canonicalMembers.2 ⟨List.mem_append_left _ hmem, hname⟩
    intro m hm
    rcases List.mem_append.1 hm with hm | hm
    · obtain ⟨k, hk, hnames⟩ := he.origin m hm
      exact ⟨k, hkeep k hk, hnames⟩
    · rw [List.mem_singleton] at hm
      rcases e.nextMember_cases name payload with ⟨m', hm', heq⟩ | heq
      · obtain ⟨k, hk, hname, hvalue⟩ := he.origin m' hm'
        rw [hm, heq]
        exact ⟨k, hkeep k hk, hname, hvalue⟩
      · refine ⟨m, mem_canonicalMembers.2 ⟨List.mem_append_right _ (hm ▸ List.mem_singleton_self _),
          ?_⟩, ?_, rfl⟩ <;> rw [hm, heq]
  integer hintegral m hm := by
    rcases List.mem_append.1 hm with hm | hm
    · exact he.integer hintegral m hm
    · rw [List.mem_singleton] at hm
      rcases e.nextMember_cases name payload with ⟨m', hm', heq⟩ | heq
      · rw [hm, heq]
        exact he.integer hintegral m' hm'
      · rw [hm, heq]
        exact hpayload hintegral

theorem orderly_addMembers {names : List String} {payloads : List Value} (he : e.Orderly)
    (h : (e.members.map (·.name) ++ names).Nodup)
    (hpayloads : e.integral = true → ∀ v ∈ payloads, ∃ n, v = .int n) :
    (e.addMembers names payloads h).Orderly := by
  induction names generalizing e payloads with
  | nil => cases payloads <;> exact he
  | cons name names ih =>
    cases payloads with
    | nil => exact he
    | cons payload payloads =>
      refine ih (he.addMember _ fun hintegral => ?_) _ fun hintegral v hv => ?_
      · exact hpayloads hintegral payload (List.mem_cons_self ..)
      · exact hpayloads hintegral v (List.mem_cons_of_mem _ hv)

theorem orderly_of_members_eq_nil {e : EnumDef} (h : e.members = []) : e.Orderly := by
  have hnone : ∀ m, m ∉ e.members := fun m hm => List.not_mem_nil (h ▸ hm)
  exact ⟨fun m hm => absurd hm (hnone m), fun _ m hm => absurd hm (hnone m)⟩

theorem orderly_declare {name : String} {integral : Bool} {repr : Value} {names : List String}
    {payloads : List Value} (h : names.Nodup)
    (hpayloads : integral = true → ∀ v ∈ payloads, ∃ n, v = .int n) :
    (declare name integral repr names payloads h).Orderly :=
  orderly_addMembers (orderly_of_members_eq_nil rfl) _ hpayloads

/-! ### Members as values of a layout -/

end EnumDef

/-- The members that bear their own names are the variants of a layout. -/
theorem Enumeration.ofDef_eq_ok {e : EnumDef} {repr : Value} {enum : Enumeration}
    (h : Enumeration.ofDef e repr = .ok enum) :
    enum.name = e.name ∧ enum.integral = e.integral ∧
      ∃ r, variantsOf e.name r e.canonicalMembers = .ok enum.variants := by
  unfold Enumeration.ofDef at h
  split at h
  · split at h <;> cases h
  · next r _ =>
    split at h
    · cases h
    · split at h
      · cases h
      · next vs hvs =>
        cases h
        exact ⟨rfl, rfl, r, hvs⟩

theorem exists_variant_of_mem {name : String} {r : IntRepr} {ms : List MemberDecl}
    {vs : List (String × Int)} (h : variantsOf name r ms = .ok vs) {m : MemberDecl} (hm : m ∈ ms) :
    ∃ x ∈ vs, x.1 = m.name ∧ m.payload.integer? = some x.2 := by
  induction ms generalizing vs with
  | nil => cases hm
  | cons first ms ih =>
    obtain ⟨d, rest, hd, -, hrest, rfl⟩ := variantsOf_cons h
    rcases List.mem_cons.1 hm with rfl | hm
    · exact ⟨_, List.mem_cons_self .., rfl, hd⟩
    · obtain ⟨x, hx, hvariant⟩ := ih hrest hm
      exact ⟨x, List.mem_cons_of_mem _ hx, hvariant⟩

namespace EnumDef

variable {e : EnumDef} {l : Layout}

theorem compile_eq_ok (h : e.compile = .ok l) :
    ∃ enum, Enumeration.ofDef e e.repr = .ok enum ∧ l = .enumeration enum := by
  have hmap : ∀ repr, (Enumeration.ofDef e repr).map Layout.enumeration = .ok l →
      ∃ enum, Enumeration.ofDef e repr = .ok enum ∧ l = .enumeration enum := by
    intro repr hl
    obtain ⟨enum, henum, hl⟩ := map_eq_ok_iff.1 hl
    exact ⟨enum, henum, hl.symm⟩
  unfold EnumDef.compile at h
  split at h
  · cases h
  · cases ho : (Options.ofValues? .null .null e.repr).mapError OptionFault.toSchemaFault with
    | error fault => rw [ho] at h; cases h
    | ok options =>
      rw [ho] at h
      simp only [bind, Except.bind] at h
      split at h
      · split at h
        · cases h
        · exact hmap _ h
      · exact hmap _ h

/-- A declared member is in canonical form. -/
theorem canonical_memberValue (he : e.Orderly) (h : e.compile = .ok l) {m : MemberDecl}
    (hm : m ∈ e.members) : l.Canonical (e.memberValue m) := by
  obtain ⟨enum, henum, rfl⟩ := compile_eq_ok h
  obtain ⟨hname, hintegral, r, hvariants⟩ := Enumeration.ofDef_eq_ok henum
  obtain ⟨k, hk, hcanonical, hpayload⟩ := he.origin m hm
  obtain ⟨x, hx, hlabel, hd⟩ := exists_variant_of_mem hvariants hk
  refine ⟨x, hx, m.payload, ?_, fun hint => ?_⟩
  · unfold memberValue
    rw [hname, hintegral, hlabel, hcanonical]
  · obtain ⟨n, hn⟩ := he.integer (hintegral ▸ hint) m hm
    rw [hpayload, hn] at hd
    rw [hn, Option.some.inj hd]

theorem exists_member_of_memberOf {payload v : Value} (h : e.memberOf? payload = some v) :
    ∃ m ∈ e.members, v = e.memberValue m := by
  obtain ⟨m, hm, rfl⟩ := Option.map_eq_some_iff.1 h
  exact ⟨m, List.mem_of_find?_eq_some hm, rfl⟩

/-- What passes validation is a declared member, or was given as a member. -/
theorem exists_member_of_validate {v w : Value} (h : e.validate v = .ok w) :
    (∃ m ∈ e.members, w = e.memberValue m) ∨
      w = v ∧ ∃ name integral payload, v = .member e.name name integral payload := by
  have hvalue : ∀ (payload : Option Value) (member : Value),
      payload.bind e.memberOf? = some member → ∃ m ∈ e.members, member = e.memberValue m := by
    intro payload member hmember
    obtain ⟨x, -, hx⟩ := Option.bind_eq_some_iff.1 hmember
    exact exists_member_of_memberOf hx
  unfold EnumDef.validate at h
  dsimp only at h
  split at h
  · next enum name integral payload =>
    split at h
    · next heq =>
      cases h
      exact .inr ⟨rfl, name, integral, payload, by rw [heq]⟩
    · split at h
      · next hmember =>
        cases h
        exact .inl (hvalue _ _ hmember)
      · cases h
  · split at h
    · next hmember =>
      cases h
      exact .inl (hvalue _ _ hmember)
    · cases h

end EnumDef

/-! ### Definitions -/

namespace Session

variable {w after : Workspace}

/-- The value that a member gets for a given one: that of an integral enumeration is brought into
the form of an integer. -/
def IsPayload (integral : Bool) (given payload : Value) : Prop :=
  if integral then ∃ n, memberInteger given = .ok n ∧ payload = .int n else payload = given

/-- Every member gets its value, one after another. -/
theorem payloads_of_mapM {integral : Bool} {members : List (String × Value)}
    {payloads : List Value}
    (h : (members.mapM fun m => if integral then do return .int (← lift id (memberInteger m.2))
      else pure m.2 : Session (List Value)) w = (.ok payloads, after)) :
    after = w ∧ List.Forall₂ (fun m v => IsPayload integral m.2 v) members payloads := by
  induction members generalizing payloads with
  | nil =>
    cases h
    exact ⟨rfl, .nil⟩
  | cons m members ih =>
    rw [List.mapM_cons] at h
    obtain ⟨v, between, hv, hrest⟩ := exists_of_bind h
    obtain ⟨vs, last, hvs, hpure⟩ := exists_of_bind hrest
    cases hpure
    have hfirst : between = w ∧ IsPayload integral m.2 v := by
      cases integral with
      | false =>
        cases hv
        exact ⟨rfl, rfl⟩
      | true =>
        cases hn : memberInteger m.2 with
        | ok n =>
          rw [hn] at hv
          cases hv
          exact ⟨rfl, n, hn, rfl⟩
        | error fault =>
          rw [hn] at hv
          cases hv
    obtain ⟨rfl, hpayload⟩ := hfirst
    obtain ⟨rfl, hpayloads⟩ := ih hvs
    exact ⟨rfl, .cons hpayload hpayloads⟩

theorem integers_of_payloads {members : List (String × Value)} {payloads : List Value}
    (h : List.Forall₂ (fun m v => IsPayload true m.2 v) members payloads) :
    ∀ v ∈ payloads, ∃ n, v = .int n := by
  induction h with
  | nil => exact fun v hv => absurd hv List.not_mem_nil
  | cons hpayload _ ih =>
    obtain ⟨n, -, hn⟩ := hpayload
    exact List.forall_mem_cons.2 ⟨⟨n, hn⟩, ih⟩

/-- What is defined as an enumeration is declared with the values that the members get, and is
orderly. -/
theorem orderly_defineEnum {integral : Bool} {name : String} {repr : Value}
    {members : List (String × Value)}
    (h : defineEnum integral name repr members w = (.ok (), after)) :
    ∃ payloads hnodup, List.Forall₂ (fun m v => IsPayload integral m.2 v) members payloads ∧
      (integral = true → ∀ v ∈ payloads, ∃ n, v = .int n) ∧
      (EnumDef.declare name integral repr (members.map (·.1)) payloads hnodup).Orderly ∧
      after.catalog =
        .enumeration (.declare name integral repr (members.map (·.1)) payloads hnodup) ::
          w.catalog := by
  unfold defineEnum at h
  split at h
  · next hnodup =>
    obtain ⟨payloads, between, hpayloads, hdefine⟩ := exists_of_bind h
    obtain ⟨rfl, hgiven⟩ := payloads_of_mapM hpayloads
    have hints : integral = true → ∀ v ∈ payloads, ∃ n, v = .int n := by
      rintro rfl
      exact integers_of_payloads hgiven
    cases hdefine
    exact ⟨payloads, hnodup, hgiven, hints, EnumDef.orderly_declare hnodup hints, rfl⟩
  · cases h

end Session

end FixedLayout
