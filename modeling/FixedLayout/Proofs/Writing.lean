import FixedLayout.Proofs.Objects
import FixedLayout.Proofs.Validation

/-!
# Ways to write an object

An object is encoded, or packed into a packet. An instance of a packed model has operations of its
own for both, which are called by their names. A field of such a name hides the operation, and what
is in a field cannot be called. Otherwise all ways come to the same.

* `Session.callable_of_not_mem`, `Session.callable_of_mem`: a field hides the operation of its name;
* `Session.encode_eq_toBytes_pack`: an object is encoded as the bytes of its packet;
* `Session.packInstance_eq`, `Session.instanceBytes_eq`: an instance is written by its operations as
  it is without them;
* `Session.packInstance_of_hidden`, `Session.instanceBytes_of_hidden`: nothing is written by an
  operation that is hidden;
* `Session.WrittenAlike`, `Session.writtenAlike`: all ways to write an object.
-/

namespace FixedLayout

/-- A name stands for a packed class: for a unit, a struct or a tuple model. -/
def Catalog.HasPacked (c : Catalog) (name : String) : Prop :=
  ∃ m, c.find? name = some (.model m) ∧ m.kind ≠ .plain

namespace Session

variable {w : Workspace} {o : Object} {type : TypeExpr} {α β : Type}

/-- What follows computations that end alike ends alike. -/
theorem bind_of_eq {m m' : Session α} (h : m w = m' w) (f : α → Session β) :
    (m >>= f) w = (m' >>= f) w := by
  cases hm : m w with
  | mk r after =>
    have hm' := h.symm.trans hm
    cases r with
    | ok a => rw [bind_of_ok hm, bind_of_ok hm']
    | error fault => rw [bind_of_error hm, bind_of_error hm']

/-! ### Bytes and packets -/

/-- A packet of an object has the bytes that encoding the object gives, or fails as this does. -/
theorem encode_eq_toBytes_pack (o : Object) (t : Option TypeExpr) (w : Workspace) :
    encode o t w = (do toBytes (← pack o t)) w := by
  have hbytes : ∀ l content, toBytes (.plain (.packet l content)) = pure content :=
    fun _ _ => rfl
  unfold encode pack
  simp only [bind_assoc, pure_bind, hbytes, bind_pure]

/-- A type that is inferred can be given as well. -/
theorem inferType_of_inferred {v : Value} (h : inferType v none = .ok type) :
    inferType v (some type) = .ok type := by
  cases v with
  | record cls fields =>
    cases h
    rfl
  | member enum name payload aliasName =>
    cases h
    rfl
  | _ => cases h

section Inferred

variable (h : inferType (w.store.valueOf o) none = .ok type)

include h

theorem layoutFor_of_inferred :
    layoutFor (w.store.valueOf o) none = layoutFor (w.store.valueOf o) (some type) := by
  unfold layoutFor
  rw [h, inferType_of_inferred h]

theorem encode_of_inferred : encode o none w = encode o (some type) w := by
  unfold encode
  rw [bind_of_ok (value_eq o w), bind_of_ok (value_eq o w), layoutFor_of_inferred h]

theorem pack_of_inferred : pack o none w = pack o (some type) w := by
  unfold pack
  rw [bind_of_ok (value_eq o w), bind_of_ok (value_eq o w), layoutFor_of_inferred h]

end Inferred

/-! ### Instances -/

theorem instanceFields_eq {id : Nat} {cell : ModelClass × List (String × Object)}
    (h : w.store.records[id]? = some cell) : instanceFields id w = (.ok cell, w) := by
  have hasks : asks (·.records) w = (.ok w.store.records, w) := rfl
  unfold instanceFields
  rw [bind_of_ok hasks, h]
  rfl

theorem packedModel_eq {name : String} (h : w.catalog.HasPacked name) :
    (discard (packedModel name) : Session Unit) w = (.ok (), w) := by
  obtain ⟨m, hd, hkind⟩ := h
  have hget : (get : Session Workspace) w = (.ok w, w) := rfl
  have hmodel : packedModel name w = (.ok m, w) := by
    unfold packedModel
    rw [bind_of_ok hget]
    unfold Catalog.model?
    rw [hd]
    simp only
    rw [if_neg hkind]
    rfl
  exact (bind_of_ok hmodel).trans rfl

section Instance

variable {id : Nat} {cls : ModelClass} {given : List (String × Object)} {operation : String}
  (hrecord : w.store.records[id]? = some (cls, given))

include hrecord

/-- An operation that no field hides can be called. -/
theorem callable_of_not_mem (h : operation ∉ given.map (·.1)) :
    callable (.record id) operation w = (.ok (), w) := by
  unfold callable
  simp only
  rw [bind_of_ok (instanceFields_eq hrecord), lookup_eq_none_of_not_mem h]
  rfl

/-- An operation cannot be called if there is a field of its name. -/
theorem callable_of_mem (h : operation ∈ given.map (·.1)) :
    callable (.record id) operation w = (.error .unsuitable, w) := by
  unfold callable
  simp only
  rw [bind_of_ok (instanceFields_eq hrecord)]
  simp only
  rw [if_pos (isSome_lookup_iff.2 h)]
  rfl

/-- An instance looks like its fields. -/
theorem valueOf_record : ∃ values, w.store.valueOf (.record id) = .record cls values := by
  obtain ⟨depth, hdepth⟩ : ∃ depth, w.store.records.length = depth + 1 := by
    obtain ⟨hlt, -⟩ := List.getElem?_eq_some_iff.1 hrecord
    exact ⟨w.store.records.length - 1, by omega⟩
  have hvalue : w.store.valueOf (.record id) =
      w.store.recordValue w.store.records.length id := rfl
  rw [hvalue, hdepth, Store.recordValue_succ hrecord]
  exact ⟨_, rfl⟩

/-- The type that is inferred from an instance is its class. -/
theorem inferType_record :
    inferType (w.store.valueOf (.record id)) none = .ok (.named cls.name) := by
  obtain ⟨values, hvalue⟩ := valueOf_record hrecord
  rw [hvalue]
  rfl

/-- Nothing is packed by an operation that is hidden. -/
theorem packInstance_of_hidden (h : "pack" ∈ given.map (·.1)) :
    packInstance (.record id) w = (.error .unsuitable, w) :=
  bind_of_error (callable_of_mem hrecord h)

/-- No bytes are given by an operation that is hidden, or that calls one that is. -/
theorem instanceBytes_of_hidden
    (h : "pack" ∈ given.map (·.1) ∨ "to_bytes" ∈ given.map (·.1)) :
    instanceBytes (.record id) w = (.error .unsuitable, w) := by
  by_cases hbytes : "to_bytes" ∈ given.map (·.1)
  · exact bind_of_error (callable_of_mem hrecord hbytes)
  · unfold instanceBytes
    rw [bind_of_ok (callable_of_not_mem hrecord hbytes)]
    exact bind_of_error (packInstance_of_hidden hrecord (h.resolve_right hbytes))

variable (hcls : w.catalog.HasPacked cls.name)

include hcls

/-- The class of an instance of a packed model is the type of that name. -/
theorem packedClass_eq : packedClass (.record id) w = (.ok (.named cls.name), w) := by
  unfold packedClass
  simp only
  rw [bind_of_ok (instanceFields_eq hrecord)]
  simp only
  rw [bind_of_ok (packedModel_eq hcls)]
  rfl

variable (hpack : "pack" ∉ given.map (·.1))

include hpack

/-- An instance is packed by its own operation as it is without. -/
theorem packInstance_eq : packInstance (.record id) w = pack (.record id) none w := by
  unfold packInstance
  rw [bind_of_ok (callable_of_not_mem hrecord hpack), bind_of_ok (packedClass_eq hrecord hcls)]
  exact (pack_of_inferred (inferType_record hrecord)).symm

/-- An instance is written by its own operation as it is without. -/
theorem instanceBytes_eq (hbytes : "to_bytes" ∉ given.map (·.1)) :
    instanceBytes (.record id) w = encode (.record id) none w := by
  unfold instanceBytes
  rw [bind_of_ok (callable_of_not_mem hrecord hbytes), encode_eq_toBytes_pack]
  exact bind_of_eq (packInstance_eq hrecord hcls hpack) toBytes

end Instance

/-- All ways to write an object agree, whether its type is given or inferred from it, and if it is
an instance of a packed class, by the operations of its own that no field hides. Those that are
hidden, and the one that calls another that is hidden, fail for being no operations. -/
structure WrittenAlike (w : Workspace) (o : Object) : Prop where
  packed : ∀ t, encode o t w = (do toBytes (← pack o t)) w
  inferred : ∀ type, inferType (w.store.valueOf o) none = .ok type →
    encode o none w = encode o (some type) w ∧ pack o none w = pack o (some type) w
  instance_packed : ∀ id cls given, o = .record id → w.store.records[id]? = some (cls, given) →
    w.catalog.HasPacked cls.name →
      inferType (w.store.valueOf o) none = .ok (.named cls.name) ∧
      ("pack" ∉ given.map (·.1) → packInstance o w = pack o none w ∧
        ("to_bytes" ∉ given.map (·.1) → instanceBytes o w = encode o none w))
  instance_hidden : ∀ id cls given, o = .record id → w.store.records[id]? = some (cls, given) →
    ("pack" ∈ given.map (·.1) → packInstance o w = (.error .unsuitable, w)) ∧
    ("pack" ∈ given.map (·.1) ∨ "to_bytes" ∈ given.map (·.1) →
      instanceBytes o w = (.error .unsuitable, w))

theorem writtenAlike (w : Workspace) (o : Object) : WrittenAlike w o where
  packed t := encode_eq_toBytes_pack o t w
  inferred _ htype := ⟨encode_of_inferred htype, pack_of_inferred htype⟩
  instance_packed := by
    rintro id cls given rfl hrecord hcls
    exact ⟨inferType_record hrecord, fun hpack => ⟨packInstance_eq hrecord hcls hpack,
      instanceBytes_eq hrecord hcls hpack⟩⟩
  instance_hidden := by
    rintro id cls given rfl hrecord
    exact ⟨packInstance_of_hidden hrecord, instanceBytes_of_hidden hrecord⟩

end Session

end FixedLayout
