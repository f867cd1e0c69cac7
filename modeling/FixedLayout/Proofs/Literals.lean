import FixedLayout.Proofs.Checks
import FixedLayout.Proofs.Outcomes

/-!
# Units and their literals

A unit is a content with a representation, and its only encoding is the bytes that the two stand
for. Numbers are compared after they have been read, and characters by the first one that is
decoded; yet no other bytes of the same number pass.

* `WrittenAs`: the bytes that a content and a representation stand for. `writtenAs_of_ofValues`:
  they are those of the literal;
* `Literal.reason_of_check`: why a check fails;
* `IsUnit`: what a unit does. `isUnit_of_ofValues`: every literal makes one;
* `unit_is_literal`: the contents and representations that make a unit, and the unit they make.
-/

namespace FixedLayout

/-- The bytes that a content and a representation stand for. -/
inductive WrittenAs : Value → Value → Bytes → Prop
  | bytes (content : Bytes) : WrittenAs (.bytes content) .null content
  | text (s : String) : WrittenAs (.text s) .null (Utf8.encode s)
  | char (c : Char) :
    WrittenAs (.text (String.ofList [c])) (.text charRepr) (Utf8.encode (String.ofList [c]))
  | number {value repr : Value} {n : Int} {r : IntRepr} : value.integer? = some n →
    IntRepr.ofValue? repr = some r → r.fits n = true → WrittenAs value repr (r.toBytes n)

section Literals

variable {typeName : String} {value repr : Value} {literal : Literal}

/-! ### Building a literal -/

/-- A number in a representation is a number. -/
theorem exists_number_of_ofInt {n : Int} {label : Option (String × String)}
    (h : Literal.ofInt typeName n label repr = .ok literal) :
    ∃ r hfits, IntRepr.ofValue? repr = some r ∧ literal = .number r ⟨n, hfits⟩ label := by
  unfold Literal.ofInt at h
  simp only at h
  split at h
  · cases h
  · split at h
    · next r hr =>
      split at h
      · next hfits =>
        cases h
        exact ⟨r, hfits, hr, rfl⟩
      · cases h
    · split at h <;> cases h

/-- A literal has the bytes that its content stands for, and it is a character exactly if the
representation says so. -/
theorem writtenAs_of_ofValues (h : Literal.ofValues typeName value repr = .ok literal) :
    WrittenAs value repr literal.packed ∧ (repr = .text charRepr ↔ ∃ c, literal = .char c) := by
  unfold Literal.ofValues at h
  split at h
  · next content =>
    cases repr with
    | null =>
      cases h
      exact ⟨.bytes content, by simp⟩
    | _ => cases h
  · next s =>
    split at h
    · cases h
      exact ⟨.text s, by simp⟩
    · next name =>
      split at h
      · next hname =>
        split at h
        · next c hs =>
          cases h
          obtain rfl : s = String.ofList [c] := by rw [← hs, String.ofList_toList]
          subst hname
          have hpacked : (Literal.char c).packed = Utf8.encode (String.ofList [c]) := by
            simp [Literal.packed, Utf8.encode]
          rw [hpacked]
          exact ⟨.char c, iff_of_true rfl ⟨c, rfl⟩⟩
        · cases h
      · cases h
    · cases h
  · split at h
    · next n hn =>
      obtain ⟨r, hfits, hr, rfl⟩ := exists_number_of_ofInt h
      refine ⟨.number hn hr hfits, iff_of_false ?_ (by simp)⟩
      -- no width has the name of the representation of characters
      rintro rfl
      have hnone : IntRepr.ofValue? (.text charRepr) = none := by decide
      cases hnone.symm.trans hr
    · cases h

/-- With a representation that is a text, or none, a definition that is not accepted is rejected. -/
theorem exists_rejected_of_ofValues (hrepr : repr = .null ∨ ∃ name, repr = .text name)
    {fault : SchemaFault} (h : Literal.ofValues typeName value repr = .error fault) :
    ∃ e, fault = .rejected (.literal typeName e) := by
  cases fault with
  | hash f =>
    have hf := Literal.hashFault?_of_ofValues h
    rcases hrepr with rfl | ⟨name, rfl⟩ <;> cases hf
  | rejected e =>
    have hint : ∀ n label, Literal.ofInt typeName n label repr = .error (.rejected e) →
        ∃ e', SchemaFault.rejected e = .rejected (.literal typeName e') := by
      intro n label h
      unfold Literal.ofInt at h
      simp only at h
      split at h
      · cases h
        exact ⟨_, rfl⟩
      · split at h
        · split at h <;> cases h
          exact ⟨_, rfl⟩
        · split at h <;> cases h
          exact ⟨_, rfl⟩
    unfold Literal.ofValues at h
    simp only at h
    split at h
    · split at h <;> cases h
      exact ⟨_, rfl⟩
    · split at h
      · cases h
      · split at h
        · split at h <;> cases h
          exact ⟨_, rfl⟩
        · cases h
          exact ⟨_, rfl⟩
      · cases h
        exact ⟨_, rfl⟩
    · split at h
      · exact hint _ _ h
      · cases h
        exact ⟨_, rfl⟩

/-! ### Comparing bytes with a literal -/

theorem PackError.exists_assumption_of_ensure {condition : Bool} {assumption detail : String}
    {e : PackError} (h : (PackError.ensure typeName condition assumption detail).mapError
      CheckFault.rejected = .error (.rejected e)) :
    ∃ assumption detail, e.reason = .assumption assumption detail := by
  cases condition with
  | true => cases h
  | false =>
    cases h
    exact ⟨assumption, detail, rfl⟩

/-- A check fails because the bytes are not the text of a character, or because they differ. -/
theorem Literal.reason_of_check {data : Bytes} {e : PackError}
    (h : literal.check typeName data = .error (.rejected e)) :
    (∃ c fault, literal = .char c ∧ Utf8.decode data = .error fault ∧
      e.reason = .custom (.ofUtf8 fault)) ∨
    (∀ c, literal = .char c → ∃ cs, Utf8.decode data = .ok cs) ∧
      ∃ assumption detail, e.reason = .assumption assumption detail := by
  unfold Literal.check at h
  cases literal with
  | bytes content => exact .inr ⟨nofun, PackError.exists_assumption_of_ensure h⟩
  | text s => exact .inr ⟨nofun, PackError.exists_assumption_of_ensure h⟩
  | char c =>
    cases hdecode : Utf8.decode data with
    | error fault =>
      simp only [hdecode] at h
      cases h
      exact .inl ⟨c, fault, rfl, rfl, rfl⟩
    | ok cs =>
      simp only [hdecode] at h
      exact .inr ⟨fun _ _ => ⟨cs, rfl⟩, PackError.exists_assumption_of_ensure h⟩
  | number r n label =>
    cases hread : r.read data with
    | none =>
      simp only [hread] at h
      cases h
    | some received =>
      simp only [hread] at h
      exact .inr ⟨nofun, PackError.exists_assumption_of_ensure h⟩

end Literals

/-! ### Units -/

/-- What a unit of a content and a representation does: its literal is the one form that passes the
check, and that any value is given. -/
structure IsUnit (cls : ModelClass) (value repr : Value) (literal : Literal) : Prop where
  writtenAs : WrittenAs value repr literal.packed
  size : (Layout.unit cls literal).size = literal.packed.length
  check_iff : ∀ data : Bytes, (data.length : Int) = (Layout.unit cls literal).size →
    ((Layout.unit cls literal).check data = .ok () ↔ data = literal.packed)
  /-- Bytes that are no text at all are told apart from a character in another way than all others
  are told apart from a literal. -/
  mismatch : ∀ data : Bytes, (data.length : Int) = (Layout.unit cls literal).size →
    data ≠ literal.packed → ∃ e, (Layout.unit cls literal).check data = .error (.rejected e) ∧
      e.typeName = cls.name ∧
      ((repr = .text charRepr ∧ (¬ ∃ s : String, data = Utf8.encode s) ∧
          ∃ cause, e.reason = .custom cause) ∨
        (¬ (repr = .text charRepr ∧ ¬ ∃ s : String, data = Utf8.encode s) ∧
          ∃ assumption detail, e.reason = .assumption assumption detail))
  encode : ∀ (v : Value) (region : Bytes),
    (region.length : Int) = (Layout.unit cls literal).size →
      (Layout.unit cls literal).encode v region = (.ok (), literal.packed)

theorem isUnit_of_ofValues {cls : ModelClass} {value repr : Value} {literal : Literal}
    (h : Literal.ofValues cls.name value repr = .ok literal) : IsUnit cls value repr literal := by
  obtain ⟨hwritten, hchar⟩ := writtenAs_of_ofValues h
  refine ⟨hwritten, rfl, fun data hlen => ?_, fun data hlen hne => ?_, fun v region hlen => ?_⟩
  · rcases literal.check_decides cls (Int.ofNat.inj hlen) with ⟨heq, hok⟩ | ⟨hne, e, herr, -, -⟩
    · exact iff_of_true hok heq
    · refine iff_of_false (fun hok => ?_) hne
      cases herr.symm.trans hok
  · rcases literal.check_decides cls (Int.ofNat.inj hlen) with ⟨heq, -⟩ | ⟨-, e, herr, hname, -⟩
    · exact absurd heq hne
    · refine ⟨e, herr, hname, ?_⟩
      rcases Literal.reason_of_check herr with
        ⟨c, fault, rfl, hdecode, hreason⟩ | ⟨hdecode, hreason⟩
      · exact .inl ⟨hchar.2 ⟨c, rfl⟩, Utf8.decode_fails_iff.1 ⟨fault, hdecode⟩, _, hreason⟩
      · refine .inr ⟨?_, hreason⟩
        rintro ⟨hrepr, hnot⟩
        obtain ⟨c, rfl⟩ := hchar.1 hrepr
        obtain ⟨cs, hcs⟩ := hdecode c rfl
        obtain ⟨fault, hfault⟩ := Utf8.decode_fails_iff.2 hnot
        cases hcs.symm.trans hfault
  · exact Writer.put_apply (Int.ofNat.inj hlen)

/-- A content and a representation, which is a text or none, make a unit exactly if they are bytes
or a text without a representation, one character as such, or a number that fits the width that the
representation names. All others are rejected. The unit is its literal: no other bytes pass the
check, and nothing else is ever written. -/
theorem unit_is_literal (cls : ModelClass) {value repr : Value}
    (hrepr : repr = .null ∨ ∃ name, repr = .text name) :
    (LegalLiteral value repr ∧
      ∃ literal, Literal.ofValues cls.name value repr = .ok literal ∧
        IsUnit cls value repr literal) ∨
    (¬ LegalLiteral value repr ∧
      ∃ e, Literal.ofValues cls.name value repr = .error (.rejected (.literal cls.name e))) := by
  rw [← exists_ofValues_iff cls.name]
  cases h : Literal.ofValues cls.name value repr with
  | ok literal => exact .inl ⟨⟨literal, rfl⟩, literal, rfl, isUnit_of_ofValues h⟩
  | error fault =>
    obtain ⟨e, rfl⟩ := exists_rejected_of_ofValues hrepr h
    exact .inr ⟨not_exists_ok, e, rfl⟩

/-- The class of a unit that is a character. -/
def accentClass : ModelClass := ⟨"Accent", [], false, []⟩

/-- Two bytes that are no text are rejected as such, and not only because they differ from the
character. -/
theorem accent_is_not_text : ∃ literal,
    Literal.ofValues accentClass.name (.text (String.ofList ['é'])) (.text charRepr) = .ok literal ∧
    literal.packed = [0xC3, 0xA9] ∧
    ∃ e, (Layout.unit accentClass literal).check [0xC3, 0x28] = .error (.rejected e) ∧
      ∃ cause, e.reason = .custom cause := by
  have hlegal : LegalLiteral (.text (String.ofList ['é'])) (.text charRepr) := .char 'é'
  have hnot : ¬ ∃ s : String, ([0xC3, 0x28] : Bytes) = Utf8.encode s :=
    Utf8.decode_fails_iff.1 ⟨_, rfl⟩
  rcases unit_is_literal accentClass (.inr ⟨charRepr, rfl⟩) with
    ⟨-, literal, hbuilt, hunit⟩ | ⟨hillegal, -⟩
  · have hchar : Literal.ofValues accentClass.name (.text (String.ofList ['é'])) (.text charRepr) =
        .ok (.char 'é') := by simp [Literal.ofValues]
    obtain rfl : literal = .char 'é' := Except.ok.inj (hbuilt.symm.trans hchar)
    have hpacked : (Literal.char 'é').packed = [0xC3, 0xA9] := by decide
    have hsize : ((2 : Nat) : Int) = (Layout.unit accentClass (.char 'é')).size := by decide
    obtain ⟨e, herr, -, hreason⟩ := hunit.mismatch [0xC3, 0x28] hsize (by decide)
    refine ⟨_, hbuilt, hpacked, e, herr, ?_⟩
    rcases hreason with ⟨-, -, hcause⟩ | ⟨hother, -⟩
    · exact hcause
    · exact absurd ⟨rfl, hnot⟩ hother
  · exact absurd hlegal hillegal

end FixedLayout
