import FixedLayout.Proofs.Compilation
import FixedLayout.Proofs.Validation

/-!
# Declared lengths

Constraints on bytes and lists declare bounds of a length, of which the last ones count. A type has
the length of its upper bound, and a lower bound, if there is one, has to be the same. Where there
is none, values that are shorter satisfy the constraints and are not encoded.

* `lastMin?`, `lastMax?`, `AdmitsLength`: the bounds that count, and the lengths between them;
* `FixesLength.forced_iff`: when a fixed length is the only one between the bounds;
* `TypeExpr.compile_of_strip`, `TypeExpr.compile_sized`: what bytes and lists under any number of
  constraints compile to;
* `TypeExpr.admits_of_validate`, `Layout.count_of_pack`: validation asks for a length between the
  bounds, encoding for the length of the layout;
* `TypeExpr.length_is_forced_iff`: declared bounds and compiled lengths.
-/

namespace FixedLayout

/-! ### Bounds -/

/-- The last lower bound of a length that constraints declare. -/
def lastMin? (constraints : List Constraint) : Option Int :=
  (constraints.filterMap Constraint.min?).getLast?

/-- The last upper bound of a length that constraints declare. -/
def lastMax? (constraints : List Constraint) : Option Int :=
  (constraints.filterMap Constraint.max?).getLast?

/-- A length lies between the last bounds that constraints declare. -/
structure AdmitsLength (constraints : List Constraint) (k : Int) : Prop where
  min : ∀ m, lastMin? constraints = some m → m ≤ k
  max : ∀ m, lastMax? constraints = some m → k ≤ m

section Bounds

variable {constraints : List Constraint} {n : Int}

theorem lengthBounds_eq_last (constraints : List Constraint) :
    lengthBounds constraints = (lastMin? constraints, lastMax? constraints) :=
  lengthBounds_eq constraints

/-- A fixed length is the only one between the bounds if a lower bound is declared. If none is, only
zero or less leaves no other length. -/
theorem FixesLength.forced_iff (h : FixesLength constraints n) :
    (∀ k : Nat, AdmitsLength constraints k → (k : Int) = n) ↔
      (∃ m, lastMin? constraints = some m) ∨ n ≤ 0 := by
  obtain ⟨hmax, hmin⟩ := h
  constructor
  · intro hforced
    by_contra hnone
    rw [not_or, not_exists, not_le] at hnone
    obtain ⟨hnone, hpos⟩ := hnone
    -- nothing keeps a value from being empty
    have hzero : AdmitsLength constraints (0 : Nat) := by
      constructor
      · intro m hm
        exact absurd hm (hnone m)
      · intro m hm
        cases hmax.symm.trans hm
        exact le_of_lt hpos
    have := hforced 0 hzero
    omega
  · rintro (⟨m, hm⟩ | hle) k hk
    · obtain rfl := hmin m hm
      exact le_antisymm (hk.max m hmax) (hk.min m hm)
    · have := hk.max n hmax
      omega

/-- With a lower bound, constraints that leave more than one length fix none. -/
theorem not_fixesLength_of_admits {i j : Nat} (hij : i ≠ j) (hi : AdmitsLength constraints i)
    (hj : AdmitsLength constraints j) (hmin : ∃ m, lastMin? constraints = some m) :
    ¬ FixesLength constraints n := by
  intro h
  have hforced := h.forced_iff.2 (.inl hmin)
  have := hforced i hi
  have := hforced j hj
  omega

end Bounds

/-! ### Compiling -/

/-- Bytes and lists, to which bounds of a length apply. -/
inductive TypeExpr.IsSized : TypeExpr → Prop
  | bytes : IsSized (.builtin .bytes)
  | list (element : TypeExpr) : IsSized (.list element)

/-- The number of bytes or elements of a layout. -/
def Layout.count? : Layout → Option Int
  | .bytes n => some n
  | .array _ n => some n
  | _ => none

/-- The number of bytes or items of a value. -/
def Value.count? : Value → Option Nat
  | .bytes content => some content.length
  | .list items => some items.length
  | _ => none

namespace TypeExpr

variable {compileClass : String → Compiler Layout} {cache : Cache} {t base element : TypeExpr}
  {outer constraints : List Constraint} {l : Layout} {n : Int}

/-- Constraints in layers are compiled as if they were attached at once, inner ones first. -/
theorem compile_of_strip (h : t.strip outer = (base, constraints)) :
    t.compile compileClass outer = base.compile compileClass constraints := by
  induction t, outer using TypeExpr.strip.induct with
  | case1 inner added outer ih =>
    have hlayer : (annotated inner added).compile compileClass outer =
        inner.compile compileClass (added ++ outer) := by simp only [TypeExpr.compile]
    exact hlayer.trans (ih h)
  | case2 t outer hplain =>
    cases t with
    | annotated inner added => exact absurd rfl (hplain inner added)
    | _ =>
      cases h
      rfl

theorem compile_of_repr (ht : base.IsSized) {r : IntRepr} (hr : reprOf? constraints = some r) :
    (base.compile compileClass constraints cache).1 =
      .error (.rejected (.reprOnOther r.name base)) := by
  cases ht with
  | bytes => simp only [TypeExpr.compile, hr]; rfl
  | list element => simp only [TypeExpr.compile, hr]; rfl

theorem compile_bytes (hr : reprOf? constraints = none) :
    ((builtin .bytes).compile compileClass constraints cache).1 =
      ((fixedLength (.builtin .bytes) constraints).map Layout.bytes).mapError .rejected := by
  simp only [TypeExpr.compile, hr]
  cases fixedLength (.builtin .bytes) constraints <;> rfl

/-- There are no lists of elements that are nothing. -/
theorem compile_list_of_isNothing (hr : reprOf? constraints = none)
    (h : element.isNothing = true) :
    ((list element).compile compileClass constraints cache).1 =
      .error (.rejected .elementMissing) := by
  simp only [TypeExpr.compile, hr, h, if_true]
  rfl

/-- The elements of a list are compiled before its length is looked at. -/
theorem compile_list (hr : reprOf? constraints = none) (h : element.isNothing = false) :
    ((list element).compile compileClass constraints cache).1 =
      (element.compile compileClass [] cache).1.bind fun layout =>
        ((fixedLength (.list element) constraints).map (Layout.array layout)).mapError
          .rejected := by
  have hlist : (list element).compile compileClass constraints = (do
      let layout ← element.compile compileClass []
      let length ← Compiler.lift ((fixedLength (.list element) constraints).mapError .rejected)
      return .array layout length) := by
    simp [TypeExpr.compile, hr, h]
  have hrun : ((list element).compile compileClass constraints cache) =
      ExceptT.bindCont (fun layout => (do
        let length ← Compiler.lift ((fixedLength (.list element) constraints).mapError .rejected)
        return Layout.array layout length : Compiler Layout))
      (element.compile compileClass [] cache).1 (element.compile compileClass [] cache).2 := by
    rw [hlist]
    rfl
  rw [hrun]
  cases (element.compile compileClass [] cache).1 with
  | error fault => rfl
  | ok layout => cases fixedLength (.list element) constraints <;> rfl

/-- The elements of a list have a layout; nothing is asked of bytes. -/
def ElementsCompile (compileClass : String → Compiler Layout) (cache : Cache) (base : TypeExpr) :
    Prop :=
  ∀ element, base = .list element → ∃ l, (element.compile compileClass [] cache).1 = .ok l

theorem isNothing_of_compile (h : (element.compile compileClass [] cache).1 = .ok l) :
    element.isNothing = false := by
  cases element with
  | builtin b =>
    cases b with
    | nothing => cases h
    | _ => rfl
  | literal v =>
    simp only [TypeExpr.compile, reprOf?, List.findSome?_nil] at h
    cases h
  | _ => rfl

/-- What bytes and lists under constraints compile to, if their elements have a layout. -/
theorem compile_sized (constraints : List Constraint) (ht : base.IsSized)
    (he : base.ElementsCompile compileClass cache) :
    (NoRepr constraints ∧ ∃ n l, FixesLength constraints n ∧ l.count? = some n ∧
      (base.compile compileClass constraints cache).1 = .ok l) ∨
    ¬ (NoRepr constraints ∧ ∃ n, FixesLength constraints n) ∧
      ∃ e, (base.compile compileClass constraints cache).1 = .error (.rejected e) := by
  cases hr : reprOf? constraints with
  | some r =>
    refine .inr ⟨?_, _, compile_of_repr ht hr⟩
    rintro ⟨hrepr, -⟩
    rw [reprOf?_eq_none_iff.2 hrepr] at hr
    cases hr
  | none =>
    have hrepr := reprOf?_eq_none_iff.1 hr
    cases hlength : fixedLength base constraints with
    | ok n =>
      refine .inl ⟨hrepr, n, ?_⟩
      have hfixes := fixedLength_eq_ok_iff.1 hlength
      cases ht with
      | bytes =>
        refine ⟨.bytes n, hfixes, rfl, ?_⟩
        rw [compile_bytes hr, hlength]
        rfl
      | list element =>
        obtain ⟨layout, hlayout⟩ := he element rfl
        refine ⟨.array layout n, hfixes, rfl, ?_⟩
        rw [compile_list hr (isNothing_of_compile hlayout), hlayout]
        simp only [Except.bind, hlength]
        rfl
    | error e =>
      refine .inr ⟨?_, e, ?_⟩
      · rintro ⟨-, n, hfixes⟩
        rw [fixedLength_eq_ok_iff.2 hfixes] at hlength
        cases hlength
      · cases ht with
        | bytes =>
          rw [compile_bytes hr, hlength]
          rfl
        | list element =>
          obtain ⟨layout, hlayout⟩ := he element rfl
          rw [compile_list hr (isNothing_of_compile hlayout), hlayout]
          simp only [Except.bind, hlength]
          rfl

/-- The elements of a list that has a layout have one. -/
theorem elementsCompile_of_ok
    (h : (base.compile compileClass constraints cache).1 = .ok l) :
    base.ElementsCompile compileClass cache := by
  rintro element rfl
  cases hr : reprOf? constraints with
  | some r =>
    rw [compile_of_repr (.list element) hr] at h
    cases h
  | none =>
    cases hnothing : element.isNothing with
    | true =>
      rw [compile_list_of_isNothing hr hnothing] at h
      cases h
    | false =>
      rw [compile_list hr hnothing] at h
      cases helement : (element.compile compileClass [] cache).1 with
      | ok layout => exact ⟨layout, rfl⟩
      | error fault =>
        rw [helement] at h
        cases h

theorem exists_count_of_ok (ht : base.IsSized)
    (h : (base.compile compileClass constraints cache).1 = .ok l) :
    ∃ n, l.count? = some n ∧ FixesLength constraints n := by
  rcases compile_sized constraints ht (elementsCompile_of_ok h) with
    ⟨-, n, l', hfixes, hcount, hok⟩ | ⟨-, e, herr⟩
  · cases h.symm.trans hok
    exact ⟨n, hcount, hfixes⟩
  · cases h.symm.trans herr

/-! ### Validation and encoding -/

theorem validate_of_strip {validateClass : String → Value → Validated Value}
    (h : t.strip outer = (base, constraints)) (v : Value) :
    t.validate validateClass outer v = base.validate validateClass constraints v := by
  induction t, outer using TypeExpr.strip.induct with
  | case1 inner added outer ih =>
    have hlayer : (annotated inner added).validate validateClass outer v =
        inner.validate validateClass (added ++ outer) v := by simp only [TypeExpr.validate]
    exact hlayer.trans (ih h)
  | case2 t outer hplain =>
    cases t with
    | annotated inner added => exact absurd rfl (hplain inner added)
    | _ =>
      cases h
      rfl

end TypeExpr

/-- A length that neither bound rules out lies between them. -/
theorem admitsLength_of_bounds {constraints : List Constraint} {k : Nat}
    (hmin : ¬ (lastMin? constraints).any fun m => decide ((k : Int) < m))
    (hmax : ¬ (lastMax? constraints).any fun m => decide (m < (k : Int))) :
    AdmitsLength constraints k := by
  constructor
  · intro m hm
    simpa [hm] using hmin
  · intro m hm
    simpa [hm] using hmax

theorem admits_of_validateBytes {constraints : List Constraint} {v u : Value}
    (h : validateBytes constraints v = .ok u) :
    ∃ k, u.count? = some k ∧ AdmitsLength constraints k := by
  unfold validateBytes at h
  obtain ⟨content, -, hrest⟩ := bind_eq_ok h
  rw [lengthBounds_eq_last] at hrest
  simp only at hrest
  split at hrest
  · cases hrest
  · split at hrest
    · cases hrest
    · next hmin hmax =>
      cases hrest
      exact ⟨content.length, rfl, admitsLength_of_bounds hmin hmax⟩

theorem admits_of_validateList {constraints : List Constraint} {validate : Value → Validated Value}
    {v u : Value} (h : validateList constraints validate v = .ok u) :
    ∃ k, u.count? = some k ∧ AdmitsLength constraints k := by
  unfold validateList at h
  obtain ⟨items, -, hrest⟩ := bind_eq_ok h
  rw [lengthBounds_eq_last] at hrest
  simp only at hrest
  split at hrest
  · cases hrest
  · next hmax =>
    obtain ⟨made, hmade, hlast⟩ := bind_eq_ok hrest
    have hlen := length_validateEach hmade
    split at hlast
    · cases hlast
    · next hmin =>
      cases hlast
      rw [← hlen] at hmax
      exact ⟨made.length, rfl, admitsLength_of_bounds hmin hmax⟩

/-- What passes validation has a length between the bounds. -/
theorem TypeExpr.admits_of_validate {base : TypeExpr} (ht : base.IsSized)
    {validateClass : String → Value → Validated Value} {constraints : List Constraint} {v u : Value}
    (h : base.validate validateClass constraints v = .ok u) :
    ∃ k, u.count? = some k ∧ AdmitsLength constraints k := by
  cases ht with
  | bytes => exact admits_of_validateBytes h
  | list element => exact admits_of_validateList h

/-- Only a value with the length of the layout is encoded. -/
theorem Layout.count_of_pack {l : Layout} {u : Value} {n : Int} {k : Nat} {data : Bytes}
    (hl : l.count? = some n) (hu : u.count? = some k) (h : l.pack u = .ok data) :
    (k : Int) = n := by
  unfold pack at h
  split at h
  · cases h
  next hsize =>
  obtain ⟨region, hencode, -⟩ := map_eq_ok_iff.1 h
  cases l with
  | bytes width =>
    cases hl
    have hwidth : ¬ n < 0 := hsize
    cases u with
    | bytes content =>
      cases hu
      by_contra hne
      have hwrong : content.length ≠ n.toNat := by omega
      simp [Layout.encode, encodeBytes, Value.flatBytes?, Writer.ofFn, Layout.size, hwrong]
        at hencode
    | list items => cases hencode
    | _ => cases hu
  | array element length =>
    cases hl
    cases u with
    | bytes content => cases hencode
    | list items =>
      cases hu
      by_contra hne
      simp [Layout.encode, arrayElements, Value.extent, hne, Writer.fail, Writer.ofFn] at hencode
    | _ => cases hu
  | _ => cases hl

/-! ### Declared lengths -/

/-- What the constraints on bytes or on a list declare, in any number of layers, against the length
that these compile to. An accepted length is the last upper bound, and the last lower bound, if
there is one. What passes validation has a length between the bounds, and is encoded only if this is
the accepted one; no other length is left exactly if a lower bound is declared, or the upper one is
not above zero. With a lower bound, constraints that leave more than one length are rejected. -/
theorem TypeExpr.length_is_forced_iff {t base : TypeExpr} {constraints : List Constraint}
    (hstrip : t.strip [] = (base, constraints)) (ht : base.IsSized)
    (compileClass : String → Compiler Layout) (cache : Cache) :
    (∀ l, (t.compile compileClass [] cache).1 = .ok l → ∃ n, l.count? = some n ∧
      lastMax? constraints = some n ∧ (∀ m, lastMin? constraints = some m → m = n) ∧
      ((∀ k : Nat, AdmitsLength constraints k → (k : Int) = n) ↔
        (∃ m, lastMin? constraints = some m) ∨ n ≤ 0) ∧
      ∀ validateClass v u, t.validate validateClass [] v = .ok u →
        ∃ k, u.count? = some k ∧ AdmitsLength constraints k ∧
          ∀ data, l.pack u = .ok data → (k : Int) = n) ∧
    (∀ i j : Nat, i ≠ j → AdmitsLength constraints i → AdmitsLength constraints j →
      (∃ m, lastMin? constraints = some m) →
        (∀ l, (t.compile compileClass [] cache).1 ≠ .ok l) ∧
        (base.ElementsCompile compileClass cache →
          ∃ e, (t.compile compileClass [] cache).1 = .error (.rejected e))) ∧
    (base.ElementsCompile compileClass cache →
      ((∃ l, (t.compile compileClass [] cache).1 = .ok l) ↔
        NoRepr constraints ∧ ∃ n, lastMax? constraints = some n ∧
          ∀ m, lastMin? constraints = some m → m = n)) := by
  rw [compile_of_strip hstrip]
  refine ⟨fun l hl => ?_, fun i j hij hi hj hmin => ?_, fun helements => ?_⟩
  · obtain ⟨n, hcount, hfixes⟩ := exists_count_of_ok ht hl
    refine ⟨n, hcount, hfixes.1, hfixes.2, hfixes.forced_iff, fun validateClass v u hu => ?_⟩
    rw [validate_of_strip hstrip] at hu
    obtain ⟨k, hk, hadmits⟩ := admits_of_validate ht hu
    exact ⟨k, hk, hadmits, fun data hdata => Layout.count_of_pack hcount hk hdata⟩
  · constructor
    · intro l hl
      obtain ⟨n, -, hfixes⟩ := exists_count_of_ok ht hl
      exact not_fixesLength_of_admits hij hi hj hmin hfixes
    · intro helements
      rcases compile_sized constraints ht helements with
        ⟨-, n, l, hfixes, -, -⟩ | ⟨-, hrejected⟩
      · exact absurd hfixes (not_fixesLength_of_admits hij hi hj hmin)
      · exact hrejected
  · rcases compile_sized constraints ht helements with
      ⟨hrepr, n, l, hfixes, -, hok⟩ | ⟨hnot, e, herr⟩
    · exact iff_of_true ⟨l, hok⟩ ⟨hrepr, n, hfixes⟩
    · rw [herr]
      exact iff_of_false nofun hnot

/-- Two layers of constraints on bytes, of which the outer one decides. -/
theorem outer_length_counts :
    (∃ l, (Catalog.compile [] (.annotated (.annotated (.builtin .bytes)
      [.length (some 1) (some 9), .remark]) [.length (some 4) none, .length none (some 4)]) []).1 =
        .ok l ∧ l.count? = some 4) ∧
    ∀ k : Nat, AdmitsLength [.length (some 1) (some 9), .remark, .length (some 4) none,
      .length none (some 4)] k → (k : Int) = 4 := by
  obtain ⟨haccepted, -, hiff⟩ := TypeExpr.length_is_forced_iff
    (t := .annotated (.annotated (.builtin .bytes) [.length (some 1) (some 9), .remark])
      [.length (some 4) none, .length none (some 4)]) rfl .bytes (Catalog.compileClass [] 1 []) []
  have helements : TypeExpr.ElementsCompile (Catalog.compileClass [] 1 []) []
      (.builtin .bytes) := nofun
  obtain ⟨l, hl⟩ := (hiff helements).2 ⟨nofun, 4, by decide, by decide⟩
  obtain ⟨n, hcount, hmax, -, hforced, -⟩ := haccepted l hl
  cases hmax
  exact ⟨⟨l, hl, hcount⟩, hforced.2 (.inl ⟨4, rfl⟩)⟩

/-- Bytes with nothing but an upper bound have a layout, although shorter ones satisfy the
constraint: these pass validation and are not encoded. -/
theorem upper_bound_is_taken_for_length :
    (Catalog.compile [] (.annotated (.builtin .bytes) [.length none (some 4)]) []).1 =
      .ok (.bytes 4) ∧
    AdmitsLength [.length none (some 4)] (2 : Nat) ∧
    lastMin? [.length none (some 4)] = none ∧
    Catalog.validate [] (.annotated (.builtin .bytes) [.length none (some 4)]) (.bytes [1, 2]) =
      .ok (.bytes [1, 2]) ∧
    ∀ data, (Layout.bytes 4).pack (.bytes [1, 2]) ≠ .ok data := by
  refine ⟨rfl, ⟨nofun, ?_⟩, rfl, by cbv, ?_⟩
  · intro m hm
    cases hm
    decide
  · intro data hdata
    have hlength : ((2 : Nat) : Int) = 4 := Layout.count_of_pack rfl rfl hdata
    exact absurd hlength (by decide)

end FixedLayout
