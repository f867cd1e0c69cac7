import FixedLayout.Proofs.Adoption
import FixedLayout.Proofs.Writing

/-!
# Instances that stay encodable

Constructions and assignments are validated with bounds and lengths that the declared types set. The
layouts, by which instances are written, have bounds and lengths of their own. For classes of
standard types they agree, so that whatever passes validation can be written, and stays so.

* `Change`, `Change.Allowed`: constructions and assignments. An instance that is given for a field
  has been made by an earlier one, and is of the class that the field declares;
* `Run`: sequences of changes, successful or not;
* `Session.construct_spec`, `Session.setField_spec`: what one change does to a sound store;
* `Steady`, `Run.steady`: what holds along every run;
* `ModelClass.HidesBytes`: classes with a field that hides the operation by which instances are
  written;
* `Workspace.ComesBack`: an instance can be written, and what is written is read as an equal one;
* `Run.instances_come_back`: the instances made in a run can be written at any time, and what is
  written is read as an equal instance.
-/

namespace FixedLayout

/-! ### Changes -/

/-- A validated construction or assignment. -/
inductive Change
  | construct (name : String) (args : List Object) (kwargs : List (String × Object))
  | assign (id : Nat) (field : String) (o : Object)

/-- What is given for a single field. -/
def onlyField (field : String) (o : Object) (name : String) : Option Object :=
  if name = field then some o else none

namespace Change

/-- Makes an instance, or sets a field of one. -/
def perform : Change → Session Object
  | .construct name args kwargs => Session.construct name args kwargs
  | .assign id field o => Session.setField (.record id) field o

/-- A class of standard types that has a layout is constructed, or a field of an instance of such a
class is set. Every instance that is given has been made since a certain one, and is of exactly the
class that is declared in its place. -/
def Allowed (c : Catalog) (first : Nat) (s : Store) : Change → Prop
  | .construct name args kwargs => ∃ m l, c.find? name = some (.model m) ∧
    c.Standard (.named name) ∧ c.layoutOf (.named name) = .ok l ∧
    l.TakesFields s first (Session.argumentFor m.cls.fieldNames args kwargs)
  | .assign id field o => ∃ cls l, s.IsInstance first cls id ∧
    c.layoutOf (.named cls.name) = .ok l ∧ l.TakesFields s first (onlyField field o)

end Change

/-- The workspaces that changes lead to, whether they succeed or fail. -/
inductive Run (start : Workspace) : Workspace → Prop
  | start : Run start start
  | step {w : Workspace} {x : Change} : Run start w →
    x.Allowed start.catalog start.store.records.length w.store → Run start (x.perform w).2

/-! ### Fields that are set -/

section SetNamed

variable {α : Type} {name key : String} {v x : α} {xs : List (String × α)}

theorem keys_setNamed (h : name ∈ xs.map (·.1)) :
    (setNamed name v xs).map (·.1) = xs.map (·.1) := by
  induction xs with
  | nil => cases h
  | cons y xs ih =>
    rw [setNamed]
    by_cases hname : y.1 = name
    · rw [if_pos hname]
      rfl
    · rw [if_neg hname, List.map_cons, List.map_cons, ih]
      exact (List.mem_cons.1 h).resolve_left (Ne.symm hname)

theorem mem_setNamed (h : (key, x) ∈ setNamed name v xs) :
    key = name ∧ x = v ∨ (key, x) ∈ xs := by
  induction xs with
  | nil =>
    cases List.mem_singleton.1 h
    exact .inl ⟨rfl, rfl⟩
  | cons y xs ih =>
    rw [setNamed] at h
    split at h
    · next hname =>
      rcases List.mem_cons.1 h with heq | h
      · obtain ⟨rfl, rfl⟩ := Prod.mk.inj heq
        exact .inl ⟨hname, rfl⟩
      · exact .inr (List.mem_cons_of_mem _ h)
    · rcases List.mem_cons.1 h with heq | h
      · exact .inr (heq ▸ List.mem_cons_self ..)
      · exact (ih h).imp_right (List.mem_cons_of_mem _)

end SetNamed

namespace Store

variable {c : Catalog} {s : Store} {first id : Nat} {cls : ModelClass} {l : Layout}
  {given : List (String × Object)}

theorem records_setFields (hrecord : s.records[id]? = some (cls, given))
    (now : List (String × Object)) (other : Nat) :
    (s.setFields id now).records[other]? =
      if other = id then some (cls, now) else s.records[other]? := by
  show (s.records.modify id _)[other]? = _
  rw [List.getElem?_modify]
  by_cases hid : other = id
  · subst hid
    simp [hrecord]
  · simp [hid, Ne.symm hid]

theorem keeps_setFields (hrecord : s.records[id]? = some (cls, given))
    (now : List (String × Object)) : s.Keeps (s.setFields id now) := by
  intro other cls' given' hother
  rw [records_setFields hrecord]
  split
  · next heq =>
    subst heq
    rw [hrecord] at hother
    cases hother
    exact ⟨now, rfl⟩
  · exact ⟨given', hother⟩

/-- An instance may be given other fields that hold values. -/
theorem Sound.setFields (hs : s.Sound c first) (hrecord : s.records[id]? = some (cls, given))
    (hl : c.StandardLayout (.named cls.name) l) {now : List (String × Object)}
    (hnow : l.Filled s first cls now) : (s.setFields id now).Sound c first := by
  have hkeeps := keeps_setFields hrecord now
  intro other cls' given' hfirst hother
  rw [records_setFields hrecord] at hother
  split at hother
  · cases hother
    exact ⟨l, hl, hnow.mono hkeeps⟩
  · obtain ⟨l', hl', hfilled⟩ := hs other cls' given' hfirst hother
    exact ⟨l', hl', hfilled.mono hkeeps⟩

end Store

theorem Layout.Filled.setNamed {s : Store} {first : Nat} {own cls : ModelClass} {fields : Fields}
    {given : List (String × Object)} {field : String} {o : Object}
    (h : (Layout.composite (.model own) fields).Filled s first cls given)
    (hfield : field ∈ fields.names)
    (ho : ∀ f ∈ fields.toList, f.1 = field → f.2.2.Holds s first o) :
    (Layout.composite (.model own) fields).Filled s first cls (setNamed field o given) := by
  obtain ⟨hcls, hperm, hgiven⟩ := h
  refine ⟨hcls, ?_, fun f hf x hx => ?_⟩
  · rw [keys_setNamed (hperm.mem_iff.2 hfield)]
    exact hperm
  · rcases mem_setNamed hx with ⟨hname, rfl⟩ | hx
    · exact ho f hf hname
    · exact hgiven f hf x hx

/-! ### One change -/

namespace Session

variable {c : Catalog} {w after : Workspace} {first : Nat} {l : Layout}

/-- Computations that change nothing, one after another. -/
theorem mapM_eq {α β : Type} {f : α → Session β} {g : α → β} {xs : List α} {w : Workspace}
    (h : ∀ x ∈ xs, f x w = (.ok (g x), w)) : xs.mapM f w = (.ok (xs.map g), w) := by
  induction xs with
  | nil => rfl
  | cons x xs ih =>
    obtain ⟨hfirst, hrest⟩ := List.forall_mem_cons.1 h
    rw [List.mapM_cons, bind_of_ok hfirst, bind_of_ok (ih hrest)]
    rfl

theorem mapM_value (os : List Object) (w : Workspace) :
    os.mapM value w = (.ok (os.map w.store.valueOf), w) :=
  mapM_eq fun o _ => value_eq o w

theorem namedValues_eq (given : List (String × Object)) (w : Workspace) :
    namedValues given w = (.ok (given.map fun g => (g.1, w.store.valueOf g.2)), w) :=
  mapM_eq fun _ _ => rfl

/-- An assignment stores what the value is brought into the form of, or changes nothing. -/
theorem setField_eq {id : Nat} {cls : ModelClass} {given : List (String × Object)} {m : ModelDef}
    (hrecord : w.store.records[id]? = some (cls, given))
    (hm : w.catalog.model? cls.name = some m) (field : String) (o : Object) :
    setField (.record id) field o w =
      match w.catalog.assignedValue m field (w.store.valueOf o) with
      | .error fault => (.error fault.toFault, w)
      | .ok v =>
        let made := Store.adopt v o w.store
        let store := made.2.setFields id (setNamed field made.1 given)
        (.ok (.record id), { w with store }) := by
  have hget : (get : Session Workspace) w = (.ok w, w) := rfl
  unfold setField
  simp only
  rw [bind_of_ok (instanceFields_eq hrecord)]
  simp only
  rw [bind_of_ok hget, hm]
  simp only
  rw [bind_of_ok hget, bind_of_ok (value_eq o w)]
  cases w.catalog.assignedValue m field (w.store.valueOf o) with
  | error fault => rfl
  | ok v => rfl

/-- An assignment that fails changes nothing. -/
theorem setField_of_error {target o : Object} {field : String} {fault : Fault}
    (h : setField target field o w = (.error fault, after)) : after = w := by
  cases target with
  | record id =>
    cases hrecord : w.store.records[id]? with
    | none =>
      have hfields : instanceFields id w = (.error .noAttribute, w) := by
        have hasks : asks (·.records) w = (.ok w.store.records, w) := rfl
        unfold instanceFields
        rw [bind_of_ok hasks, hrecord]
        rfl
      rw [show setField (.record id) field o w = (.error .noAttribute, w) from
        bind_of_error hfields] at h
      cases h
      rfl
    | some cell =>
      obtain ⟨cls, given⟩ := cell
      cases hm : w.catalog.model? cls.name with
      | none =>
        have hget : (get : Session Workspace) w = (.ok w, w) := rfl
        unfold setField at h
        simp only at h
        rw [bind_of_ok (instanceFields_eq hrecord)] at h
        simp only at h
        rw [bind_of_ok hget, hm] at h
        cases h
        rfl
      | some m =>
        rw [setField_eq hrecord hm] at h
        split at h <;> cases h
        rfl
  | _ =>
    cases h
    rfl

/-- A construction makes an instance of validated fields, or changes nothing. -/
theorem construct_eq {name : String} {m : ModelDef}
    (hd : w.catalog.find? name = some (.model m)) (args : List Object)
    (kwargs : List (String × Object)) :
    construct name args kwargs w =
      match w.catalog.constructModel m (args.map w.store.valueOf)
        (kwargs.map fun g => (g.1, w.store.valueOf g.2)) with
      | .error fault => (.error fault.toFault, w)
      | .ok (.record cls fields) =>
        let make : StateM Store Object := do
          let given ← Store.adoptFields (argumentFor cls.fieldNames args kwargs) fields
          return .record (← Store.newRecord cls given)
        (.ok (make w.store).1, { w with store := (make w.store).2 })
      | .ok v => (.ok (.plain v), w) := by
  have hget : (get : Session Workspace) w = (.ok w, w) := rfl
  unfold construct
  rw [bind_of_ok (mapM_value args w), bind_of_ok (namedValues_eq kwargs w), bind_of_ok hget]
  unfold Catalog.construct
  rw [hd]
  simp only
  cases w.catalog.constructModel m (args.map w.store.valueOf)
      (kwargs.map fun g => (g.1, w.store.valueOf g.2)) with
  | error fault => rfl
  | ok v => cases v <;> rfl

/-- The values of arguments are those of the objects that are given for the fields. -/
theorem lookup_arguments (s : Store) (names : List String) (args : List Object)
    (kwargs : List (String × Object)) (name : String) :
    ((kwargs.map fun g => (g.1, s.valueOf g.2)).reverse.lookup name).or
        ((names.zip (args.map s.valueOf)).lookup name) =
      (argumentFor names args kwargs name).map s.valueOf := by
  have hzip : names.zip (args.map s.valueOf) =
      (names.zip args).map fun g => (g.1, s.valueOf g.2) := List.zip_map_right ..
  unfold argumentFor lastNamed
  rw [← List.map_reverse, lookup_map_snd, hzip, lookup_map_snd, Option.map_or]

/-- A construction adds an instance of the class to a sound store, or changes nothing. -/
theorem construct_spec {name : String} {m : ModelDef} {args : List Object}
    {kwargs : List (String × Object)} (hs : w.store.Sound w.catalog first)
    (hfirst : first ≤ w.store.records.length) (hd : w.catalog.find? name = some (.model m))
    (hl : w.catalog.StandardLayout (.named name) l)
    (hgiven : l.TakesFields w.store first (argumentFor m.cls.fieldNames args kwargs)) :
    (∃ fault, construct name args kwargs w = (.error fault, w)) ∨
      ∃ id store, construct name args kwargs w = (.ok (.record id), { w with store }) ∧
        w.store.Extends store ∧ store.Sound w.catalog first ∧ store.IsInstance first m.cls id := by
  rw [construct_eq hd]
  cases hv : w.catalog.constructModel m (args.map w.store.valueOf)
      (kwargs.map fun g => (g.1, w.store.valueOf g.2)) with
  | error fault => exact .inl ⟨_, rfl⟩
  | ok v =>
    obtain ⟨given, hvalid, hlookup⟩ := Catalog.exists_given_of_constructModel hv
    obtain ⟨results, rfl, hresults⟩ := ModelDef.exists_fields_of_validate hvalid
    have hfields := Store.makes_instanceFields hd hl hfirst hgiven
      (fun name => (hlookup name).trans (lookup_arguments _ _ _ _ name)) hresults
    have hname := Catalog.name_of_find hd
    obtain ⟨hextends, hsound, id, hid, hinstance⟩ :=
      (hfields.record hfirst (hname ▸ hl)) w.store (.refl _) hs
    refine .inr ⟨id, _, ?_, hextends, hsound, hinstance⟩
    simp only [hid]

/-- An assignment sets a field of an instance in a sound store, or changes nothing. -/
theorem setField_spec {id : Nat} {cls : ModelClass} {field : String} {o : Object}
    (hs : w.store.Sound w.catalog first) (hfirst : first ≤ w.store.records.length)
    (hid : w.store.IsInstance first cls id) (hl : w.catalog.StandardLayout (.named cls.name) l)
    (ho : l.TakesFields w.store first (onlyField field o)) :
    (∃ fault, setField (.record id) field o w = (.error fault, w)) ∨
      ∃ store, setField (.record id) field o w = (.ok (.record id), { w with store }) ∧
        w.store.Keeps store ∧ store.Sound w.catalog first := by
  obtain ⟨given, hrecord, hfilled⟩ := hs.filled hl hid
  obtain ⟨m, hd, hkind⟩ := hl.exists_model hfilled
  have hm : w.catalog.model? cls.name = some m := by
    unfold Catalog.model?
    rw [hd]
  rw [setField_eq hrecord hm]
  cases hv : w.catalog.assignedValue m field (w.store.valueOf o) with
  | error fault => exact .inl ⟨_, rfl⟩
  | ok v =>
    obtain ⟨f, hf, hname, hvalid⟩ := Catalog.exists_field_of_assignedValue hkind hv
    cases hl with
    | enumeration hd' =>
      rw [hd] at hd'
      cases hd'
    | unit hd' _ hfields _ =>
      rw [hd] at hd'
      cases hd'
      rw [hfields] at hf
      cases hf
    | @model _ m' fields hd' hkind' hl' hnames hparts hdefaults =>
      rw [hd] at hd'
      cases hd'
      have hnodup : (fields.map (·.1)).Nodup := hnames ▸ m.names_nodup
      obtain ⟨part, hmem, hpart, hkey⟩ := exists_compiled hnames hf
      have htakes := Fields.takeNamed_iff.1 ho
      rw [Fields.toList_ofList] at htakes
      have hmakes := Store.makes_adopt (hparts f part hmem) hfirst
        (htakes part hpart o (if_pos (hkey.symm.trans hname))) hvalid
      obtain ⟨hextends, hsound, hheld⟩ := hmakes w.store (.refl _) hs
      have hrecord' := Store.getElem?_of_prefix hextends.records hrecord
      refine .inr ⟨_, rfl, ?_, ?_⟩
      · intro id' cls' given' hid'
        obtain ⟨now, hnow⟩ := hextends.keeps id' cls' given' hid'
        exact Store.keeps_setFields hrecord' _ id' cls' now hnow
      · refine hsound.setFields hrecord' (.model hd hkind' hl' hnames hparts hdefaults) ?_
        refine (hfilled.mono hextends.keeps).setNamed ?_ ?_
        · rw [Fields.names_ofList, ← hname, hkey]
          exact List.mem_map_of_mem hpart
        · rw [Fields.toList_ofList, ← hname, hkey]
          exact forall_named (P := fun l => l.Holds _ first _) hnodup hpart hheld

/-! ### Writing and reading an instance -/

section Instance

variable {id : Nat} {cls : ModelClass} {given : List (String × Object)} {content : Bytes}
  {v : Value} (hcls : w.catalog.HasPacked cls.name)
  (hlayout : (w.catalog.compile (.named cls.name) w.cache).1 = .ok l)

include hcls hlayout

theorem packedSize_eq : (packedSize cls.name w).1 = .ok l.size := by
  unfold packedSize
  rw [bind_of_ok (packedModel_eq hcls), bind_of_ok (compile_of_ok hlayout)]
  rfl

/-- Bytes that the layout of a class accepts are read as a new object that looks like the value that
they are decoded to. -/
theorem decodeAs_of_accept (haccept : l.accept content = .ok ())
    (hdecode : l.decode content = .ok v) : ∃ o last,
      decodeAs cls.name (.plain (.bytes content)) w = (.ok o, last) ∧
        w.store.Extends last.store ∧ last.store.valueOf o = v := by
  obtain ⟨window, store, hwindow, hextends, hread⟩ := windowOf_of_lends
    (w := { w with cache := (w.catalog.compile (.named cls.name) w.cache).2 })
    (o := .plain (.bytes content)) rfl
  have haccepted : accepted (.named cls.name) (.plain (.bytes content)) w = (.ok (l, window),
      { w with cache := (w.catalog.compile (.named cls.name) w.cache).2, store }) := by
    unfold accepted
    rw [bind_of_ok (compile_of_ok hlayout), bind_of_ok hwindow, bind_of_ok (read_eq hread), haccept]
    rfl
  have hplace := Store.place_spec v store
  refine ⟨(Store.place v store).1, { w with
    cache := (w.catalog.compile (.named cls.name) w.cache).2, store := (Store.place v store).2 },
    ?_, hextends.trans hplace.1, hplace.2.valueOf⟩
  unfold decodeAs
  rw [bind_of_ok (packedModel_eq hcls)]
  unfold decode
  rw [bind_of_ok haccepted]
  simp only
  rw [bind_of_ok (read_eq hread)]
  unfold unpackBytes Layout.unpack
  rw [hdecode]
  rfl

end Instance

end Session

/-- A value in canonical form is packed into bytes that are accepted, and are decoded to an equal
value. -/
theorem Layout.exists_packed {l : Layout} (hl : l.LengthsNonneg) (hnames : l.NamesNodup) {v : Value}
    (hv : l.Canonical v) : ∃ content back, l.pack v = .ok content ∧
      (content.length : Int) = l.size ∧ l.accept content = .ok () ∧
        l.decode content = .ok back ∧ back.same v = true := by
  obtain ⟨content, back, hreturns⟩ := l.exists_encoding hl hnames v hv
  have hpack := Layout.pack_of_writes hl hreturns.length hreturns.writes
  have hcheck := Layout.check_of_writes hl hreturns.length hreturns.writes
  exact ⟨content, back, hpack, hreturns.length, (if_pos hreturns.length).trans hcheck,
    hreturns.decode, hreturns.same⟩

/-! ### Runs -/

/-- What changes keep of a workspace: its definitions, its compiled classes and the classes of its
instances. All that they add is sound. -/
structure Steady (start w : Workspace) : Prop where
  catalog : w.catalog = start.catalog
  cache : w.cache = start.cache
  keeps : start.store.Keeps w.store
  first : start.store.records.length ≤ w.store.records.length
  sound : w.store.Sound start.catalog start.store.records.length

theorem steady_refl (w : Workspace) : Steady w w where
  catalog := rfl
  cache := rfl
  keeps := (Store.Extends.refl _).keeps
  first := Nat.le_refl _
  sound _ _ _ hid hrecord :=
    absurd (List.getElem?_eq_some_iff.1 hrecord).1 (Nat.not_lt.2 hid)

namespace Store.Keeps

theorem trans {s after last : Store} (h : s.Keeps after) (h' : after.Keeps last) : s.Keeps last :=
  fun id cls given hid => (h id cls given hid).elim fun now hnow => h' id cls now hnow

theorem length_le {s after : Store} (h : s.Keeps after) :
    s.records.length ≤ after.records.length := by
  by_contra hlt
  have hbound : after.records.length < s.records.length := Nat.lt_of_not_le hlt
  obtain ⟨now, hnow⟩ := h after.records.length _ _ (List.getElem?_eq_getElem hbound)
  exact absurd (List.getElem?_eq_some_iff.1 hnow).1 (Nat.lt_irrefl _)

end Store.Keeps

/-- A change is rejected and leaves everything as it is, or it keeps all instances and adds sound
ones. -/
theorem Steady.perform {start w : Workspace} {x : Change} (h : Steady start w)
    (hx : x.Allowed start.catalog start.store.records.length w.store) :
    (x.perform w).2 = w ∨ ∃ id store, x.perform w = (.ok (.record id), { w with store }) ∧
      w.store.Keeps store ∧ store.Sound start.catalog start.store.records.length ∧
        (∃ cls, store.IsInstance start.store.records.length cls id) := by
  have hsound := h.sound
  cases x with
  | construct name args kwargs =>
    obtain ⟨m, l, hd, hstandard, hlayout, hgiven⟩ := hx
    have hl := hstandard.hasLayout (Catalog.layoutOf_eq_ok_iff.1 hlayout)
    rw [← h.catalog] at hd hl hsound ⊢
    rcases Session.construct_spec hsound h.first hd hl hgiven with ⟨fault, hrun⟩ |
      ⟨id, store, hrun, hextends, hafter, hid⟩
    · exact .inl (congrArg Prod.snd hrun)
    · exact .inr ⟨id, store, hrun, hextends.keeps, hafter, m.cls, hid⟩
  | assign id field o =>
    obtain ⟨cls, l, hid, hlayout, ho⟩ := hx
    have hl : start.catalog.StandardLayout (.named cls.name) l := by
      obtain ⟨l', hl', -⟩ := hsound id cls _ hid.1 hid.2.choose_spec
      rwa [(Catalog.layoutOf_eq_ok_iff.1 hlayout).unique hl'.hasLayout]
    rw [← h.catalog] at hl hsound ⊢
    rcases Session.setField_spec hsound h.first hid hl ho with ⟨fault, hrun⟩ |
      ⟨store, hrun, hkeeps, hafter⟩
    · exact .inl (congrArg Prod.snd hrun)
    · exact .inr ⟨id, store, hrun, hkeeps, hafter, cls, hid.mono hkeeps⟩

/-- What holds along every run. -/
theorem Run.steady {start w : Workspace} (h : Run start w) : Steady start w := by
  induction h with
  | start => exact steady_refl start
  | step _ hx ih =>
    rcases ih.perform hx with heq | ⟨id, store, hrun, hkeeps, hsound, -⟩
    · rw [heq]
      exact ih
    · rw [hrun]
      have hall := ih.keeps.trans hkeeps
      exact ⟨ih.catalog, ih.cache, hall, hall.length_le, hsound⟩

/-- A field of a class hides the operation that gives the bytes of an instance, or the one that this
calls. -/
def ModelClass.HidesBytes (cls : ModelClass) : Prop :=
  "pack" ∈ cls.fieldNames ∨ "to_bytes" ∈ cls.fieldNames

instance : DecidablePred ModelClass.HidesBytes := fun _ => inferInstanceAs (Decidable (_ ∨ _))

/-- An instance is written as just the bytes that its class has, and these are read as an instance
that equals it. Its own operation gives these bytes, unless a field of the class hides it: then it
fails for being no operation. -/
def Workspace.ComesBack (w : Workspace) (cls : ModelClass) (id : Nat) : Prop :=
  ∃ size content between o after, (Session.packedSize cls.name w).1 = .ok size ∧
    Session.encode (.record id) none w = (.ok content, between) ∧ (content.length : Int) = size ∧
    (¬ cls.HidesBytes → Session.instanceBytes (.record id) w = (.ok content, between)) ∧
    (cls.HidesBytes → Session.instanceBytes (.record id) w = (.error .unsuitable, w)) ∧
    Session.decodeAs cls.name (.plain (.bytes content)) between = (.ok o, after) ∧
    (after.store.valueOf o).same (after.store.valueOf (.record id)) = true

/-- The fields of an instance of a standard class have the names of the fields of the class. -/
theorem Layout.Filled.mem_names {c : Catalog} {s : Store} {first : Nat} {name : String} {l : Layout}
    {cls : ModelClass} {given : List (String × Object)} (hl : c.StandardLayout (.named name) l)
    (h : l.Filled s first cls given) (field : String) :
    field ∈ given.map (·.1) ↔ field ∈ cls.fieldNames := by
  cases hl with
  | enumeration _ _ hl =>
    obtain ⟨enum, -, rfl⟩ := EnumDef.compile_eq_ok hl
    exact h.elim
  | @unit _ m _ _ _ hfields =>
    obtain ⟨rfl, rfl⟩ := h
    have hnames : m.cls.fieldNames = m.fields.map (·.name) := rfl
    rw [hnames, hfields]
    exact Iff.rfl
  | @model _ m fields _ _ _ hnames =>
    obtain ⟨rfl, hperm, -⟩ := h
    rw [hperm.mem_iff, Fields.names_ofList, ← hnames]
    exact Iff.rfl

theorem Steady.comesBack {start w : Workspace} (h : Steady start w)
    (hcache : start.cache.Sound start.catalog) {cls : ModelClass} {id : Nat}
    (hid : w.store.IsInstance start.store.records.length cls id) : w.ComesBack cls id := by
  obtain ⟨hfirst, given, hrecord⟩ := hid
  have hsound := h.sound
  rw [← h.catalog, ← h.cache] at hcache
  rw [← h.catalog] at hsound
  obtain ⟨l, hl, hfilled⟩ := hsound id cls given hfirst hrecord
  obtain ⟨m, hd, hkind⟩ := hl.exists_model hfilled
  obtain ⟨v, hv, hshows⟩ := Store.exists_canonical hl hsound
    (hfilled.holds ⟨hfirst, given, hrecord⟩) (Store.around_nil _ _ _)
  have hvalue : w.store.valueOf (.record id) = v := hshows w.store _ (.refl _) (Nat.le_refl _)
  have hlayout := Catalog.layoutOf_eq_ok_iff.2 hl.hasLayout
  obtain ⟨content, back, hpack, hlen, haccept, hdecode, hsame⟩ :=
    Layout.exists_packed hl.lengthsNonneg (Catalog.namesNodup_of_layoutOf hlayout) hv
  have hcompile := Catalog.compile_of_layoutOf hcache hlayout
  have hcls : w.catalog.HasPacked cls.name := ⟨m, hd, hkind⟩
  have hnames := hfilled.mem_names hl
  have hbytes := Session.encode_of_ok (Session.inferType_record hrecord) hcompile (hvalue ▸ hpack)
  -- the bytes are read with the cache that writing them has left
  have hbetween := (Catalog.sound_foldl hcache [.named cls.name]).1
  obtain ⟨o, after, hrun, hextends, hback⟩ := Session.decodeAs_of_accept
    (w := { w with cache := (w.catalog.compile (.named cls.name) w.cache).2 }) hcls
    (Catalog.compile_of_layoutOf hbetween hlayout) haccept hdecode
  refine ⟨l.size, content, _, o, after, Session.packedSize_eq hcls hcompile, hbytes, hlen,
    fun hfree => ?_, fun hhides => ?_, hrun, ?_⟩
  · obtain ⟨hfreePack, hfreeBytes⟩ := not_or.1 hfree
    rw [Session.instanceBytes_eq hrecord hcls (mt (hnames _).1 hfreePack)
      (mt (hnames _).1 hfreeBytes)]
    exact hbytes
  · exact Session.instanceBytes_of_hidden hrecord
      (hhides.imp (hnames "pack").2 (hnames "to_bytes").2)
  · have hstays : after.store.valueOf (.record id) = v :=
      hshows after.store _ hextends hextends.records.length_le
    rw [hback, hstays]
    exact hsame

/-- What is constructed in a run is an instance of the class. All instances that are made in a run
can be written at any time, as the number of bytes that their class has, and are read as equal
instances. Their own operation gives the same bytes, if no field of the class hides it. They stay,
whatever is constructed and assigned next. An assignment that is rejected leaves everything as it
is. -/
theorem Run.instances_come_back {start w : Workspace} (hcache : start.cache.Sound start.catalog)
    (h : Run start w) :
    (∀ name args kwargs o after,
      (Change.construct name args kwargs).Allowed start.catalog start.store.records.length w.store →
      Session.construct name args kwargs w = (.ok o, after) →
        ∃ id cls, o = .record id ∧ cls.name = name ∧
          after.store.IsInstance start.store.records.length cls id) ∧
    (∀ cls id, w.store.IsInstance start.store.records.length cls id →
      w.ComesBack cls id ∧ ∀ x : Change,
        x.Allowed start.catalog start.store.records.length w.store →
          (x.perform w).2.store.IsInstance start.store.records.length cls id) ∧
    ∀ target field o fault after,
      Session.setField target field o w = (.error fault, after) → after = w := by
  have hsteady := h.steady
  refine ⟨fun name args kwargs o after hx hrun => ?_, fun cls id hid => ⟨?_, fun x hx => ?_⟩, ?_⟩
  · obtain ⟨m, l, hd, hstandard, hlayout, hgiven⟩ := hx
    have hname := Catalog.name_of_find hd
    have hl := hstandard.hasLayout (Catalog.layoutOf_eq_ok_iff.1 hlayout)
    rw [← hsteady.catalog] at hd hl
    have hsound := hsteady.sound
    rw [← hsteady.catalog] at hsound
    rcases Session.construct_spec hsound hsteady.first hd hl hgiven with ⟨fault, herror⟩ |
      ⟨id, store, hok, -, -, hid⟩
    · rw [herror] at hrun
      cases hrun
    · rw [hok] at hrun
      cases hrun
      exact ⟨id, m.cls, rfl, hname, hid⟩
  · exact hsteady.comesBack hcache hid
  · rcases hsteady.perform hx with heq | ⟨_, store, hrun, hkeeps, -⟩
    · rw [heq]
      exact hid
    · rw [hrun]
      exact hid.mono hkeeps
  · exact fun _ _ _ _ _ => Session.setField_of_error

/-- A character and a pair are made, then a field of the pair is set to a text of digits, and to a
number that does not fit. -/
def pairChanges : List Change :=
  [.construct "Accent" [] [], .construct "Pair" [.plain (.int 3), .record 0] [],
    .assign 1 "left" (.plain (.text "7")), .assign 1 "left" (.plain (.int 256))]

/-- The workspace after some changes. -/
def Workspace.afterChanges (w : Workspace) (xs : List Change) : Workspace :=
  xs.foldl (fun w x => (x.perform w).2) w

/-- A workspace with the definitions of messages. -/
def messageWorkspace : Workspace := ⟨messageCatalog, [], .empty, []⟩

theorem standard_accent : messageCatalog.Standard (.named "Accent") :=
  .unit (m := .root .unit "Accent" [] (some (.text "é")) (some (.text "char"))) rfl rfl

theorem standard_pair : messageCatalog.Standard (.named "Pair") := by
  refine .model (m := .root .tuple "Pair" [⟨"left", .fixedInt .u8, none, .null⟩,
     ⟨"accent", .named "Accent", none, .null⟩] none none) rfl (.inr rfl) ?_ ?_
  · exact List.forall_mem_cons.2 ⟨.int .u8, List.forall_mem_singleton.2 standard_accent⟩
  · exact List.forall_mem_cons.2 ⟨nofun, List.forall_mem_singleton.2 nofun⟩

theorem layoutOf_accent : messageCatalog.layoutOf (.named "Accent") = .ok accentLayout := by cbv

theorem pair_comes_back :
    Run messageWorkspace (messageWorkspace.afterChanges pairChanges) ∧
      (messageWorkspace.afterChanges pairChanges).ComesBack
        ⟨"Pair", [], true, ["left", "accent"]⟩ 1 ∧
      ¬ ModelClass.HidesBytes ⟨"Pair", [], true, ["left", "accent"]⟩ ∧
      (messageWorkspace.afterChanges pairChanges).store.valueOf (.record 1) =
        .record ⟨"Pair", [], true, ["left", "accent"]⟩
          [("left", .int 7), ("accent", .record ⟨"Accent", [], false, []⟩ [])] := by
  have h1 : Run messageWorkspace (messageWorkspace.afterChanges (pairChanges.take 1)) :=
    .step .start ⟨_, _, rfl, standard_accent, layoutOf_accent, trivial⟩
  have h2 : Run messageWorkspace (messageWorkspace.afterChanges (pairChanges.take 2)) := by
    refine .step h1 ⟨_, _, rfl, standard_pair, layoutOf_pair, fun _ _ => trivial, ?_, trivial⟩
    intro o ho
    obtain rfl : .record 0 = o := Option.some.inj ho
    refine ⟨trivial, ?_⟩
    rintro id ⟨⟩
    exact ⟨Nat.le_refl _, [], by cbv⟩
  have hmade : (messageWorkspace.afterChanges (pairChanges.take 2)).store.IsInstance 0
      ⟨"Pair", [], true, ["left", "accent"]⟩ 1 :=
    ⟨Nat.zero_le _, [("left", .plain (.int 3)), ("accent", .record 0)], by cbv⟩
  have h3 : Run messageWorkspace (messageWorkspace.afterChanges (pairChanges.take 3)) := by
    refine .step h2 ⟨_, _, hmade, layoutOf_pair, fun _ _ => trivial, ?_, trivial⟩
    rintro o ⟨⟩
  have hset : (messageWorkspace.afterChanges (pairChanges.take 3)).store.IsInstance 0
      ⟨"Pair", [], true, ["left", "accent"]⟩ 1 :=
    ⟨Nat.zero_le _, [("left", .plain (.int 7)), ("accent", .record 0)], by cbv⟩
  have h4 : Run messageWorkspace (messageWorkspace.afterChanges pairChanges) := by
    refine .step h3 ⟨_, _, hset, layoutOf_pair, fun _ _ => trivial, ?_, trivial⟩
    rintro o ⟨⟩
  refine ⟨h4, ((Run.instances_come_back (Cache.sound_nil _) h4).2.1 _ 1 ?_).1, by decide, by cbv⟩
  exact ⟨Nat.zero_le _, [("left", .plain (.int 7)), ("accent", .record 0)], by cbv⟩

/-- A class with a field that has the name of an operation. -/
def boxModel : ModelDef :=
  .root .struct "Box" [⟨"pack", .fixedInt .u8, some (.int 0), .null⟩] none none

/-- A workspace with the definition of the class. -/
def boxWorkspace : Workspace := ⟨[.model boxModel], [], .empty, []⟩

/-- The layout of the class. -/
def boxLayout : Layout :=
  .composite (.model ⟨"Box", [], false, ["pack"]⟩) (.cons "pack" (some "pack") (.int .u8) .nil)

/-- An instance is constructed. -/
def boxChanges : List Change := [.construct "Box" [] [("pack", .plain (.int 7))]]

/-- An instance that has been constructed is encoded, but the operation of its own that gives its
bytes calls what the field holds, and fails. -/
theorem hidden_bytes_are_not_given :
    Run boxWorkspace (boxWorkspace.afterChanges boxChanges) ∧
      (boxWorkspace.afterChanges boxChanges).store.IsInstance 0 ⟨"Box", [], false, ["pack"]⟩ 0 ∧
      (Session.encode (.record 0) none (boxWorkspace.afterChanges boxChanges)).1 = .ok [7] ∧
      (Session.instanceBytes (.record 0) (boxWorkspace.afterChanges boxChanges)).1 =
        .error .unsuitable := by
  have hstandard : boxWorkspace.catalog.Standard (.named "Box") := by
    refine .model (m := boxModel) rfl (.inl rfl) ?_ ?_
    · exact List.forall_mem_singleton.2 (.int .u8)
    · refine List.forall_mem_singleton.2 ?_
      rintro _ l ⟨⟩ hl
      cases (Catalog.layoutOf_eq_ok_iff.2 hl).symm.trans
        (by cbv : boxWorkspace.catalog.layoutOf (.fixedInt .u8) = .ok (.int .u8))
      exact ⟨0, rfl, by decide⟩
  have hlayout : boxWorkspace.catalog.layoutOf (.named "Box") = .ok boxLayout := by cbv
  refine ⟨.step .start ⟨_, _, rfl, hstandard, hlayout, ?_, trivial⟩,
    ⟨Nat.le_refl 0, [("pack", .plain (.int 7))], by cbv⟩, by cbv, by cbv⟩
  exact fun _ _ => trivial

end FixedLayout
