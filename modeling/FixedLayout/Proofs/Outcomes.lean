import FixedLayout.Proofs.WellFormed

/-!
# Outcomes that do not depend on the cache

Compiling reads a cache of classes and adds to it. As long as every class in the cache is there with
the layout that it has, this makes no difference to the outcome.

* `Cache.Sound`: each class of a cache is there with the layout that it has;
* `Cache.Within`: what is in one cache is in the other one too;
* `Compiler.Yields`: a computation that has the same outcome from all sound caches, leads to sound
  caches and drops nothing;
* `Compiler.Settles`: a computation that yields the one result with a property, or yields a fault
  and nothing has the property;
* `Options.hashFault?_of_ofValues?` and what follows: only a representation that cannot be looked up
  in a table makes a definition fail otherwise than by a rejection.
-/

namespace FixedLayout

/-! ### Caches -/

namespace Cache

/-- Every class in a cache is there with the layout that it has. -/
def Sound (c : Catalog) (cache : Cache) : Prop :=
  ∀ name l, cache.lookup name = some l → c.HasLayout (.named name) [] l

/-- What is in a cache is in the other one too. -/
def Within (cache after : Cache) : Prop :=
  ∀ name l, cache.lookup name = some l → after.lookup name = some l

variable {c : Catalog} {cache after last : Cache} {name : String} {l : Layout}

theorem sound_nil (c : Catalog) : Sound c [] := nofun

theorem Within.refl (cache : Cache) : cache.Within cache := fun _ _ h => h

theorem Within.trans (h : cache.Within after) (h' : after.Within last) : cache.Within last :=
  fun name l hname => h' name l (h name l hname)

/-- The layout of a class can be put into a cache. -/
theorem Sound.cons (h : cache.Sound c) (hl : c.HasLayout (.named name) [] l) :
    Sound c ((name, l) :: cache) := by
  intro other l' hother
  by_cases heq : other = name
  · subst heq
    rw [List.lookup_cons_self] at hother
    cases hother
    exact hl
  · rw [List.lookup_cons, beq_eq_false_iff_ne.2 heq] at hother
    exact h other l' hother

/-- A cache is within the one that has another class. -/
theorem Within.cons (h : cache.Within after) (hname : after.lookup name = none) :
    cache.Within ((name, l) :: after) := by
  intro other l' hother
  have hafter := h other l' hother
  by_cases heq : other = name
  · rw [heq, hname] at hafter
    cases hafter
  · rw [List.lookup_cons, beq_eq_false_iff_ne.2 heq]
    exact hafter

end Cache

/-! ### Outcomes -/

namespace Compiler

variable {α β : Type} {c : Catalog}

/-- From any sound cache, a computation has the outcome `r` and leads to a sound cache that still
has everything that was there. -/
def Yields (c : Catalog) (m : Compiler α) (r : Except SchemaFault α) : Prop :=
  ∀ cache, cache.Sound c → ∃ after, m cache = (r, after) ∧ after.Sound c ∧ cache.Within after

theorem yields_pure (a : α) : Yields c (pure a : Compiler α) (.ok a) :=
  fun cache h => ⟨cache, rfl, h, .refl cache⟩

theorem yields_throw (fault : SchemaFault) : Yields c (throw fault : Compiler α) (.error fault) :=
  fun cache h => ⟨cache, rfl, h, .refl cache⟩

theorem Yields.bind {m : Compiler α} {f : α → Compiler β} {a : α} {r : Except SchemaFault β}
    (hm : Yields c m (.ok a)) (hf : Yields c (f a) r) : Yields c (m >>= f) r := by
  intro cache hcache
  obtain ⟨middle, hrun, hmiddle, hwithin⟩ := hm cache hcache
  obtain ⟨after, hrun', hafter, hwithin'⟩ := hf middle hmiddle
  have hbind : (m >>= f) cache = ExceptT.bindCont f (m cache).1 (m cache).2 := rfl
  refine ⟨after, ?_, hafter, hwithin.trans hwithin'⟩
  rw [hbind, hrun]
  exact hrun'

theorem Yields.bind_error {m : Compiler α} {fault : SchemaFault} (f : α → Compiler β)
    (hm : Yields c m (.error fault)) : Yields c (m >>= f) (.error fault) := by
  intro cache hcache
  obtain ⟨after, hrun, hafter, hwithin⟩ := hm cache hcache
  have hbind : (m >>= f) cache = ExceptT.bindCont f (m cache).1 (m cache).2 := rfl
  refine ⟨after, ?_, hafter, hwithin⟩
  rw [hbind, hrun]
  rfl

theorem Yields.inField {m : Compiler α} {r : Except SchemaFault α} (hm : Yields c m r)
    (field model : String) :
    Yields c (inField field model m) (r.mapError (·.inField field model)) := by
  intro cache hcache
  obtain ⟨after, hrun, hafter, hwithin⟩ := hm cache hcache
  refine ⟨after, ?_, hafter, hwithin⟩
  unfold Compiler.inField
  rw [hrun]

/-- From any sound cache, a computation returns the only result with the property `P`; or it fails
from any sound cache with the same fault, and nothing has the property. A fault other than a
rejection is one of `H`. -/
inductive Settles (c : Catalog) (H : HashFault → Prop) (P : α → Prop) (m : Compiler α) : Prop
  | result {a : α} : (∀ b, P b ↔ b = a) → Yields c m (.ok a) → Settles c H P m
  | failure {fault : SchemaFault} : (∀ a, ¬ P a) → (∀ h, fault = .hash h → H h) →
      Yields c m (.error fault) → Settles c H P m

variable {H : HashFault → Prop} {P Q : α → Prop} {m : Compiler α}

theorem Settles.congr (h : Settles c H P m) (hPQ : ∀ a, Q a ↔ P a) : Settles c H Q m := by
  cases h with
  | result hunique hyields => exact .result (fun b => (hPQ b).trans (hunique b)) hyields
  | failure hnone hhash hyields => exact .failure (fun a ha => hnone a ((hPQ a).1 ha)) hhash hyields

theorem Settles.mono {H' : HashFault → Prop} (h : Settles c H P m) (hH : ∀ f, H f → H' f) :
    Settles c H' P m := by
  cases h with
  | result hunique hyields => exact .result hunique hyields
  | failure hnone hhash hyields => exact .failure hnone (fun f hf => hH f (hhash f hf)) hyields

theorem settles_pure {a : α} (h : ∀ b, P b ↔ b = a) : Settles c H P (pure a : Compiler α) :=
  .result h (yields_pure a)

theorem settles_reject {error : SchemaError} (h : ∀ a, ¬ P a) :
    Settles c H P (reject error : Compiler α) := by
  refine .failure h (fun f hf => ?_) (yields_throw (.rejected error))
  cases hf

theorem settles_lift {r : Except SchemaFault α} (h : ∀ f, r = .error (.hash f) → H f) :
    Settles c H (fun a => r = .ok a) (lift r) := by
  cases r with
  | ok a => exact .result (fun b => by simp [eq_comm]) (yields_pure a)
  | error fault => exact .failure nofun (fun f hf => h f (congrArg _ hf)) (yields_throw fault)

theorem Settles.bind {R : α → β → Prop} {f : α → Compiler β} (hm : Settles c H P m)
    (hf : ∀ a, P a → Settles c H (R a) (f a)) :
    Settles c H (fun b => ∃ a, P a ∧ R a b) (m >>= f) := by
  cases hm with
  | failure hnone hhash hyields =>
    exact .failure (fun _ ⟨a, ha, _⟩ => hnone a ha) hhash (hyields.bind_error f)
  | @result a hunique hyields =>
    have hR : ∀ b, (∃ a, P a ∧ R a b) ↔ R a b := fun b => by simp [hunique]
    refine Settles.congr ?_ hR
    cases hf a ((hunique a).2 rfl) with
    | result hunique' hyields' => exact .result hunique' (hyields.bind hyields')
    | failure hnone hhash hyields' => exact .failure hnone hhash (hyields.bind hyields')

theorem Settles.inField (hm : Settles c H P m) (field model : String) :
    Settles c H P (inField field model m) := by
  cases hm with
  | result hunique hyields => exact .result hunique (hyields.inField field model)
  | @failure fault hnone hhash hyields =>
    refine .failure hnone (fun f hf => hhash f ?_) (hyields.inField field model)
    cases fault with
    | rejected e => cases hf
    | hash f' => exact hf

/-- A computation that settles something has the same outcome from all sound caches. -/
theorem Settles.exists_yields (h : Settles c H P m) : ∃ r, Yields c m r := by
  cases h with
  | result _ hyields => exact ⟨_, hyields⟩
  | failure _ _ hyields => exact ⟨_, hyields⟩

/-- From a sound cache, what a computation returns is what has the property. -/
theorem Settles.eq_ok_iff (h : Settles c H P m) {cache : Cache} (hcache : cache.Sound c) (a : α) :
    (m cache).1 = .ok a ↔ P a := by
  cases h with
  | @result b hunique hyields =>
    obtain ⟨after, hrun, -⟩ := hyields cache hcache
    rw [hrun, hunique, Except.ok.injEq, eq_comm]
  | failure hnone _ hyields =>
    obtain ⟨after, hrun, -⟩ := hyields cache hcache
    rw [hrun]
    exact iff_of_false nofun (hnone a)

/-- From a sound cache, a computation fails exactly if nothing has the property, and then by a
rejection or by one of the other faults that it may have. -/
theorem Settles.fault (h : Settles c H P m) {cache : Cache} (hcache : cache.Sound c)
    (hnone : ∀ a, ¬ P a) :
    (∃ e, (m cache).1 = .error (.rejected e)) ∨ ∃ f, H f ∧ (m cache).1 = .error (.hash f) := by
  cases h with
  | @result a hunique _ => exact absurd ((hunique a).2 rfl) (hnone a)
  | @failure fault _ hhash hyields =>
    obtain ⟨after, hrun, -⟩ := hyields cache hcache
    rw [hrun]
    cases fault with
    | rejected e => exact .inl ⟨e, rfl⟩
    | hash f => exact .inr ⟨f, hhash f rfl, rfl⟩

end Compiler

/-! ### Faults of definitions -/

theorem mapError_eq_ok_iff {ε δ α : Type} {r : Except ε α} {g : ε → δ} {a : α} :
    r.mapError g = .ok a ↔ r = .ok a := by
  cases r with
  | ok b => simp [Except.mapError]
  | error e => exact iff_of_false nofun nofun

theorem mapError_eq_error_iff {ε δ α : Type} {r : Except ε α} {g : ε → δ} {d : δ} :
    r.mapError g = .error d ↔ ∃ e, r = .error e ∧ g e = d := by
  cases r with
  | ok b => exact iff_of_false nofun nofun
  | error e => simp [Except.mapError]

theorem map_eq_ok_iff {ε α β : Type} {r : Except ε α} {f : α → β} {b : β} :
    r.map f = .ok b ↔ ∃ a, r = .ok a ∧ f a = b := by
  cases r with
  | ok a => simp [Except.map]
  | error e => exact iff_of_false nofun nofun

theorem map_eq_error_iff {ε α β : Type} {r : Except ε α} {f : α → β} {e : ε} :
    r.map f = .error e ↔ r = .error e := by
  cases r with
  | ok a => exact iff_of_false nofun nofun
  | error e' => simp [Except.map]

section Hash

variable {f : HashFault}

/-- Only the representation among options is looked up in a table. -/
theorem Options.hashFault?_of_ofValues? {value accessor repr : Value}
    (h : Options.ofValues? value accessor repr = .error (.hash f)) : repr.hashFault? = some f := by
  cases hrepr : Options.checkRepr repr with
  | error fault =>
    simp only [Options.ofValues?, hrepr, bind, Except.bind, Except.error.injEq] at h
    subst h
    unfold Options.checkRepr at hrepr
    split at hrepr
    · cases hrepr
    · split at hrepr <;> cases hrepr
    · split at hrepr
      · next fault hfault =>
        cases hrepr
        exact hfault
      · cases hrepr
  | ok =>
    exfalso
    simp only [Options.ofValues?, hrepr, bind, Except.bind] at h
    cases hvalue : Options.checkValue value with
    | error fault =>
      simp only [hvalue, Except.error.injEq] at h
      subst h
      unfold Options.checkValue at hvalue
      split at hvalue <;> cases hvalue
    | ok =>
      simp only [hvalue] at h
      cases haccessor : Options.readAccessor accessor with
      | ok => rw [haccessor] at h; cases h
      | error fault =>
        simp only [haccessor, Except.error.injEq] at h
        subst h
        unfold Options.readAccessor at haccessor
        split at haccessor
        · cases haccessor
        · split at haccessor
          · cases haccessor
          · split at haccessor <;> cases haccessor
        · cases haccessor
        · split at haccessor <;> cases haccessor

/-- The options of a field set no representation. -/
theorem FieldDecl.options_ne_hash (field : FieldDecl) : field.options ≠ .error (.hash f) := by
  intro h
  cases Options.hashFault?_of_ofValues? h

theorem OptionFault.toSchemaFault_eq_hash_iff {fault : OptionFault} :
    fault.toSchemaFault = .hash f ↔ fault = .hash f := by
  cases fault <;> simp [OptionFault.toSchemaFault]

theorem Literal.hashFault?_of_ofValues {typeName : String} {value repr : Value}
    (h : Literal.ofValues typeName value repr = .error (.hash f)) : repr.hashFault? = some f := by
  have hint : ∀ n label, Literal.ofInt typeName n label repr = .error (.hash f) →
      repr.hashFault? = some f := by
    intro n label h
    unfold Literal.ofInt at h
    simp only at h
    split at h
    · cases h
    · split at h
      · split at h <;> cases h
      · split at h
        · next fault hfault =>
          cases h
          exact hfault
        · cases h
  unfold Literal.ofValues at h
  simp only at h
  split at h
  · split at h <;> cases h
  · split at h
    · cases h
    · split at h
      · split at h <;> cases h
      · cases h
    · cases h
  · split at h
    · exact hint _ _ h
    · cases h

theorem ModelDef.hashFault?_of_compileUnit {m : ModelDef} (h : m.compileUnit = .error (.hash f)) :
    m.repr.hashFault? = some f := by
  unfold ModelDef.compileUnit at h
  split at h
  · cases h
  · split at h
    · cases h
    · exact Literal.hashFault?_of_ofValues (map_eq_error_iff.1 h)

theorem variantsOf_ne_hash {name : String} {r : IntRepr} {ms : List MemberDecl} :
    variantsOf name r ms ≠ .error (.hash f) := by
  induction ms with
  | nil => nofun
  | cons m ms ih =>
    unfold variantsOf
    split
    · split
      · exact fun h => ih (map_eq_error_iff.1 h)
      · nofun
    · nofun

theorem Enumeration.hashFault?_of_ofDef {e : EnumDef} {repr : Value}
    (h : Enumeration.ofDef e repr = .error (.hash f)) : repr.hashFault? = some f := by
  unfold Enumeration.ofDef at h
  split at h
  · split at h
    · next fault hfault =>
      cases h
      exact hfault
    · cases h
  · split at h
    · cases h
    · split at h
      · next fault hfault =>
        cases h
        exact absurd hfault variantsOf_ne_hash
      · cases h

theorem EnumDef.hashFault?_of_compile {e : EnumDef} (h : e.compile = .error (.hash f)) :
    e.repr.hashFault? = some f := by
  unfold EnumDef.compile at h
  split at h
  · cases h
  · cases ho : (Options.ofValues? .null .null e.repr).mapError OptionFault.toSchemaFault with
    | error fault =>
      rw [ho] at h
      cases h
      obtain ⟨fault, hfault, heq⟩ := mapError_eq_error_iff.1 ho
      rw [OptionFault.toSchemaFault_eq_hash_iff.1 heq] at hfault
      exact Options.hashFault?_of_ofValues? hfault
    | ok options =>
      rw [ho] at h
      simp only [bind, Except.bind] at h
      split at h
      · split at h
        · cases h
        · exact Enumeration.hashFault?_of_ofDef (map_eq_error_iff.1 h)
      · exact Enumeration.hashFault?_of_ofDef (map_eq_error_iff.1 h)

end Hash

end FixedLayout
