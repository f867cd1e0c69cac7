import FixedLayout.Proofs.Objects
import FixedLayout.Proofs.Validation

/-!
# Instances that hold values of their fields

An instance refers to other instances, which may be changed on their own. What its fields hold is
therefore said object by object: a field whose layout is that of a class holds some instance of this
very class, and the fields of this instance are looked after in the same way.

* `Layout.Holds`, `Layout.Filled`, `Store.Sound`: an object that holds a value of a layout, an
  instance whose fields do, and a store all of whose instances from a certain one on are such;
* `Store.Makes`: a computation that adds to a sound store and leaves it sound;
* `Store.makes_place`: placing a value in canonical form;
* `Store.Around`: the instances on the way to an object. They are different, so that there is always
  room for one more step;
* `Store.exists_canonical`: what holds a value looks like one in canonical form, whatever is added.
-/

namespace FixedLayout

namespace Store

/-- An instance of exactly the given class, one of those made from a certain one on. -/
def IsInstance (s : Store) (first : Nat) (cls : ModelClass) (id : Nat) : Prop :=
  first ≤ id ∧ ∃ given, s.records[id]? = some (cls, given)

/-- All instances are still there, and of the same class. -/
def Keeps (s after : Store) : Prop :=
  ∀ (id : Nat) (cls : ModelClass) (given : List (String × Object)),
    s.records[id]? = some (cls, given) → ∃ now, after.records[id]? = some (cls, now)

variable {s after last : Store} {first : Nat} {cls : ModelClass} {id : Nat}

theorem Extends.keeps (h : s.Extends after) : s.Keeps after :=
  fun _ _ given hid => ⟨given, getElem?_of_prefix h.records hid⟩

theorem IsInstance.mono (h : s.IsInstance first cls id) (hkeeps : s.Keeps after) :
    after.IsInstance first cls id :=
  ⟨h.1, h.2.elim fun given hgiven => hkeeps id cls given hgiven⟩

end Store

mutual

/-- Whether an object holds a value of a layout: a value in canonical form, a list or tuple of
objects that do, or an instance of the class itself. -/
def Layout.Holds (s : Store) (first : Nat) : Layout → Object → Prop
  | .int r, o => ∃ v, o = .plain v ∧ (Layout.int r).Canonical v
  | .bytes length, o => ∃ v, o = .plain v ∧ (Layout.bytes length).Canonical v
  | .enumeration e, o => ∃ v, o = .plain v ∧ (Layout.enumeration e).Canonical v
  | .unit cls _, o => ∃ id, o = .record id ∧ s.IsInstance first cls id
  | .composite (.model cls) _, o => ∃ id, o = .record id ∧ s.IsInstance first cls id
  | .composite .tuple fields, o => ∃ items, o = .tuple items ∧ fields.HoldEach s first items
  | .array element length, o => ∃ items : List Object, o = .list items ∧
      (items.length : Int) = length ∧ ∀ x ∈ items, element.Holds s first x

/-- Whether there is one object for each field, which holds a value of the field's layout. -/
def Fields.HoldEach (s : Store) (first : Nat) : Fields → List Object → Prop
  | .nil, os => os = []
  | .cons _ _ layout rest, os => ∃ o others,
      os = o :: others ∧ layout.Holds s first o ∧ rest.HoldEach s first others

end

/-- Whether an instance has just the fields of its class, each of which holds a value of the field's
layout. -/
def Layout.Filled (s : Store) (first : Nat) (cls : ModelClass) (given : List (String × Object)) :
    Layout → Prop
  | .unit own _ => own = cls ∧ given = []
  | .composite (.model own) fields => own = cls ∧ (given.map (·.1)).Perm fields.names ∧
      ∀ f ∈ fields.toList, ∀ o, (f.1, o) ∈ given → f.2.2.Holds s first o
  | _ => False

/-- All instances from a certain one on are of standard classes, and hold values of their fields. -/
def Store.Sound (c : Catalog) (first : Nat) (s : Store) : Prop :=
  ∀ (id : Nat) (cls : ModelClass) (given : List (String × Object)),
    first ≤ id → s.records[id]? = some (cls, given) →
    ∃ l, c.StandardLayout (.named cls.name) l ∧ l.Filled s first cls given

variable {c : Catalog} {first : Nat} {s after : Store} {t : TypeExpr} {l : Layout}

mutual

theorem Layout.Holds.mono (h : s.Keeps after) : ∀ {l : Layout} {o : Object},
    l.Holds s first o → l.Holds after first o
  | .int _, _, ho => ho
  | .bytes _, _, ho => ho
  | .enumeration _, _, ho => ho
  | .unit _ _, _, ⟨id, ho, hid⟩ => ⟨id, ho, hid.mono h⟩
  | .composite (.model _) _, _, ⟨id, ho, hid⟩ => ⟨id, ho, hid.mono h⟩
  | .composite .tuple _, _, ⟨items, ho, hitems⟩ => ⟨items, ho, Fields.HoldEach.mono h hitems⟩
  | .array _ _, _, ⟨items, ho, hlen, hitems⟩ =>
    ⟨items, ho, hlen, fun x hx => Layout.Holds.mono h (hitems x hx)⟩

theorem Fields.HoldEach.mono (h : s.Keeps after) : ∀ {fs : Fields} {os : List Object},
    fs.HoldEach s first os → fs.HoldEach after first os
  | .nil, _, hos => hos
  | .cons _ _ _ _, _, ⟨o, others, hos, ho, hothers⟩ =>
    ⟨o, others, hos, Layout.Holds.mono h ho, Fields.HoldEach.mono h hothers⟩

end

theorem Layout.Filled.mono {cls : ModelClass} {given : List (String × Object)}
    (h : l.Filled s first cls given) (hkeeps : s.Keeps after) : l.Filled after first cls given := by
  cases l with
  | unit own _ => exact h
  | composite form fields =>
    cases form with
    | model own => exact ⟨h.1, h.2.1, fun f hf o ho => (h.2.2 f hf o ho).mono hkeeps⟩
    | tuple => exact h.elim
  | _ => exact h.elim

/-- A reference to an instance whose fields hold values holds a value of the instance's layout. -/
theorem Layout.Filled.holds {cls : ModelClass} {given : List (String × Object)} {id : Nat}
    (h : l.Filled s first cls given) (hid : s.IsInstance first cls id) :
    l.Holds s first (.record id) := by
  cases l with
  | unit own _ =>
    obtain ⟨rfl, -⟩ := h
    exact ⟨id, rfl, hid⟩
  | composite form fields =>
    cases form with
    | model own =>
      obtain ⟨rfl, -⟩ := h
      exact ⟨id, rfl, hid⟩
    | tuple => exact h.elim
  | _ => exact h.elim

/-- Only models have instances, and the standard ones take part in all checks. -/
theorem Catalog.StandardLayout.exists_model {name : String} {cls : ModelClass}
    {given : List (String × Object)} (hl : c.StandardLayout (.named name) l)
    (h : l.Filled s first cls given) :
    ∃ m, c.find? name = some (.model m) ∧ m.kind ≠ .plain := by
  cases hl with
  | enumeration _ _ hl =>
    obtain ⟨enum, -, rfl⟩ := EnumDef.compile_eq_ok hl
    exact h.elim
  | unit hd hkind => exact ⟨_, hd, by rw [hkind]; nofun⟩
  | model hd hkind =>
    refine ⟨_, hd, fun hplain => ?_⟩
    rw [hplain] at hkind
    rcases hkind with h | h <;> cases h

theorem holdEach_entryFields_iff {ls : List Layout} {os : List Object} (index : Nat) :
    (entryFields index ls).HoldEach s first os ↔
      List.Forall₂ (fun l o => l.Holds s first o) ls os := by
  induction ls generalizing index os with
  | nil =>
    rw [List.forall₂_nil_left_iff]
    exact Iff.rfl
  | cons l ls ih =>
    rw [List.forall₂_cons_left_iff]
    constructor
    · rintro ⟨o, others, rfl, ho, hothers⟩
      exact ⟨o, others, ho, (ih _).1 hothers, rfl⟩
    · rintro ⟨o, others, ho, hothers, rfl⟩
      exact ⟨o, others, rfl, ho, (ih _).2 hothers⟩

/-! ### New objects -/

namespace Store

/-- From any sound store that has grown from a given one, a computation leads to a sound store that
has grown further, and gives something with a property there. -/
def Makes {α : Type} (c : Catalog) (first : Nat) (s : Store) (m : StateM Store α)
    (Q : Store → α → Prop) : Prop :=
  ∀ now : Store, s.Extends now → now.Sound c first →
    now.Extends (m now).2 ∧ (m now).2.Sound c first ∧ Q (m now).2 (m now).1

theorem makes_pure {α : Type} {Q : Store → α → Prop} {a : α}
    (h : ∀ now, s.Extends now → Q now a) : Makes c first s (pure a) Q :=
  fun now hnow hsound => ⟨.refl now, hsound, h now hnow⟩

theorem Makes.imp {α : Type} {m : StateM Store α} {Q R : Store → α → Prop}
    (h : Makes c first s m Q) (hQ : ∀ now a, s.Extends now → Q now a → R now a) :
    Makes c first s m R := by
  intro now hnow hsound
  obtain ⟨hafter, hsound', hQ'⟩ := h now hnow hsound
  exact ⟨hafter, hsound', hQ _ _ (hnow.trans hafter) hQ'⟩

/-- A computation that works from a store works from what the store grows to. -/
theorem Makes.later {α : Type} {m : StateM Store α} {Q : Store → α → Prop}
    (h : Makes c first s m Q) (hafter : s.Extends after) : Makes c first after m Q :=
  fun now hnow => h now (hafter.trans hnow)

theorem Makes.bind {α β : Type} {m : StateM Store α} {f : α → StateM Store β}
    {P : Store → α → Prop} {Q : Store → β → Prop} (hm : Makes c first s m P)
    (hf : ∀ after a, s.Extends after → P after a → Makes c first after (f a) Q) :
    Makes c first s (m >>= f) Q := by
  intro now hnow hsound
  obtain ⟨hafter, hsound', hP⟩ := hm now hnow hsound
  obtain ⟨hlast, hsound'', hQ⟩ := hf _ _ (hnow.trans hafter) hP _ (.refl _) hsound'
  exact ⟨hafter.trans hlast, hsound'', hQ⟩

/-- A new instance of a standard class whose fields hold values. -/
theorem makes_newRecord {cls : ModelClass} {given : List (String × Object)}
    (hfirst : first ≤ s.records.length) (hl : c.StandardLayout (.named cls.name) l)
    (hgiven : l.Filled s first cls given) :
    Makes c first s (newRecord cls given) fun now id => now.IsInstance first cls id := by
  intro now hnow hsound
  have hafter := extends_newRecord now cls given
  have hnew : (newRecord cls given now).2.records[now.records.length]? = some (cls, given) :=
    List.getElem?_concat_length
  refine ⟨hafter, fun id cls' given' hid hrecord => ?_,
    Nat.le_trans hfirst hnow.records.length_le, given, hnew⟩
  -- an instance has been there before, or it is the new one, which comes last
  by_cases hlt : id < now.records.length
  · have hold : now.records[id]? = some (cls', given') := by
      rw [← hrecord]
      exact (List.getElem?_append_left hlt).symm
    obtain ⟨l', hl', hfilled⟩ := hsound id cls' given' hid hold
    exact ⟨l', hl', hfilled.mono hafter.keeps⟩
  · have hlen : (newRecord cls given now).2.records.length = now.records.length + 1 :=
      List.length_append
    obtain ⟨hbound, -⟩ := List.getElem?_eq_some_iff.1 hrecord
    obtain rfl : id = now.records.length := by omega
    rw [hnew] at hrecord
    cases hrecord
    exact ⟨l, hl, hgiven.mono (hnow.trans hafter).keeps⟩

/-- Objects that are made one after the other. -/
theorem Makes.cons {m : StateM Store Object} {ms : StateM Store (List Object)} {ls : List Layout}
    (hm : Makes c first s m fun now o => l.Holds now first o)
    (hms : Makes c first s ms fun now os => List.Forall₂ (fun l o => l.Holds now first o) ls os) :
    Makes c first s (do let o ← m; return o :: (← ms)) fun now os =>
      List.Forall₂ (fun l o => l.Holds now first o) (l :: ls) os := by
  refine hm.bind fun after o hafter ho => ?_
  refine (hms.later hafter).bind fun last os hlast hos => ?_
  exact makes_pure fun now hnow => .cons (ho.mono (hlast.trans hnow).keeps)
    (hos.imp fun _ _ h => h.mono hnow.keeps)

/-- Fields have given names, and those that a class has hold values of their layouts. -/
def FieldsHold (first : Nat) (fields : List (String × Option String × Layout)) (names : List String)
    (now : Store) (given : List (String × Object)) : Prop :=
  given.map (·.1) = names ∧ ∀ f ∈ fields, ∀ o, (f.1, o) ∈ given → f.2.2.Holds now first o

/-- Fields that are made one after the other. -/
theorem Makes.field {m : StateM Store Object} {ms : StateM Store (List (String × Object))}
    {fields : List (String × Option String × Layout)} {name : String} {names : List String}
    (hm : Makes c first s m fun now o => ∀ f ∈ fields, f.1 = name → f.2.2.Holds now first o)
    (hms : Makes c first s ms (FieldsHold first fields names)) :
    Makes c first s (do let o ← m; return (name, o) :: (← ms))
      (FieldsHold first fields (name :: names)) := by
  refine hm.bind fun after o hafter ho => ?_
  refine (hms.later hafter).bind fun last given hlast hgiven => ?_
  refine makes_pure fun now hnow => ⟨congrArg (name :: ·) hgiven.1, fun f hf x hx => ?_⟩
  rcases List.mem_cons.1 hx with heq | hx
  · cases heq
    exact (ho f hf rfl).mono (hlast.trans hnow).keeps
  · exact (hgiven.2 f hf x hx).mono hnow.keeps

/-! ### Placing -/

theorem place_of_integer {v : Value} {n : Int} (h : v.integer? = some n) :
    place v = pure (.plain v) := by
  cases v <;> first | rfl | cases h

/-- Values that are made from values, one after the other. -/
theorem makes_placeEach {ls : List Layout} {vs : List Value}
    (h : ∀ l ∈ ls, ∀ v, l.Canonical v → Makes c first s (place v) fun now o => l.Holds now first o)
    (hvs : List.Forall₂ Layout.Canonical ls vs) :
    Makes c first s (placeEach vs) fun now os =>
      List.Forall₂ (fun l o => l.Holds now first o) ls os := by
  induction hvs with
  | nil => exact makes_pure fun _ _ => .nil
  | cons hv _ ih =>
    obtain ⟨hfirst, hrest⟩ := List.forall_mem_cons.1 h
    exact (hfirst _ hv).cons (ih hrest)

theorem makes_placeFields {fields : List (String × Option String × Layout)}
    {given : List (String × Value)}
    (h : ∀ g ∈ given, Makes c first s (place g.2) fun now o =>
      ∀ f ∈ fields, f.1 = g.1 → f.2.2.Holds now first o) :
    Makes c first s (placeFields given) (FieldsHold first fields (given.map (·.1))) := by
  induction given with
  | nil => exact makes_pure fun _ _ => ⟨rfl, fun _ _ _ h => absurd h List.not_mem_nil⟩
  | cons g given ih =>
    obtain ⟨hfirst, hrest⟩ := List.forall_mem_cons.1 h
    exact hfirst.field (ih hrest)

/-- An instance of a standard class is made from fields that hold values. -/
theorem Makes.record {cls : ModelClass} {ms : StateM Store (List (String × Object))}
    (hfirst : first ≤ s.records.length) (hl : c.StandardLayout (.named cls.name) l)
    (hms : Makes c first s ms fun now given => l.Filled now first cls given) :
    Makes c first s (do let given ← ms; return Object.record (← newRecord cls given)) fun now o =>
      ∃ id, o = .record id ∧ now.IsInstance first cls id := by
  refine hms.bind fun after given hafter hgiven => ?_
  refine (makes_newRecord (Nat.le_trans hfirst hafter.records.length_le) hl hgiven).bind ?_
  intro last id _ hid
  exact makes_pure fun now hnow => ⟨id, rfl, hid.mono hnow.keeps⟩

theorem FieldsHold.filled {cls : ModelClass} {fields : List (String × Option String × Layout)}
    {names : List String} {given : List (String × Object)}
    (h : FieldsHold first fields names s given) (hnames : names.Perm (fields.map (·.1))) :
    (Layout.composite (.model cls) (.ofList fields)).Filled s first cls given := by
  refine ⟨rfl, ?_, ?_⟩
  · rw [h.1, Fields.names_ofList]
    exact hnames
  · rw [Fields.toList_ofList]
    exact h.2

theorem makes_place (ht : c.StandardLayout t l) {v : Value} (hv : l.Canonical v)
    (hfirst : first ≤ s.records.length) :
    Makes c first s (place v) fun now o => l.Holds now first o := by
  induction ht generalizing v with
  | int r =>
    obtain ⟨n, hn, hfits⟩ := hv
    rw [place_of_integer hn]
    exact makes_pure fun _ _ => ⟨v, rfl, n, hn, hfits⟩
  | bytes _ =>
    obtain ⟨content, rfl, hlen⟩ := hv
    exact makes_pure fun _ _ => ⟨_, rfl, content, rfl, hlen⟩
  | @list t l n _ _ ih =>
    obtain ⟨items, rfl, hlen, hitems⟩ := hv
    have hall := forall₂_replicate_iff.2 ⟨rfl, hitems⟩
    refine (makes_placeEach (fun l' hl' v hv => ?_) hall).bind fun after os _ hos => ?_
    · rw [List.eq_of_mem_replicate hl'] at hv ⊢
      exact ih hv
    · refine makes_pure fun now hnow => ?_
      obtain ⟨hcount, hheld⟩ := forall₂_replicate_iff.1 hos
      exact ⟨os, rfl, by rw [hcount, hlen], fun x hx => (hheld x hx).mono hnow.keeps⟩
  | @tuple ts ls _ hlen _ ih =>
    obtain ⟨items, rfl, hitems⟩ := hv
    refine (makes_placeEach (fun l hl v hv => ?_) ((canonical_entryFields_iff 0).1 hitems)).bind
      fun after os _ hos => makes_pure fun now hnow => ⟨os, rfl, ?_⟩
    · obtain ⟨t, ht⟩ := exists_mem_zip_left hlen hl
      exact ih t l ht hv
    · exact ((holdEach_entryFields_iff 0).2 hos).mono hnow.keeps
  | enumeration _ _ hl =>
    obtain ⟨enum, -, rfl⟩ := EnumDef.compile_eq_ok hl
    obtain ⟨x, hx, payload, rfl, hpayload⟩ := hv
    exact makes_pure fun _ _ => ⟨_, rfl, x, hx, payload, rfl, hpayload⟩
  | @unit name m literal hd hkind hfields hunit =>
    obtain rfl : v = .record m.cls [] := hv
    obtain rfl := Catalog.name_of_find hd
    have hnone : Makes c first s (placeFields []) fun now given =>
        (Layout.unit m.cls literal).Filled now first m.cls given :=
      makes_pure fun _ _ => ⟨rfl, rfl⟩
    exact hnone.record hfirst (.unit hd hkind hfields hunit)
  | @model name m fields hd hkind hl hnames hparts hdefaults ih =>
    obtain rfl := Catalog.name_of_find hd
    have hnodup : (fields.map (·.1)).Nodup := hnames ▸ m.names_nodup
    rw [← Fields.names_ofList] at hnodup
    obtain ⟨given, rfl, hperm, hgiven⟩ := (Layout.canonical_model_iff hnodup).1 hv
    rw [Fields.names_ofList] at hnodup hperm
    rw [Fields.toList_ofList] at hgiven
    have hfields : ∀ g ∈ given, Makes c first s (place g.2) fun now o =>
        ∀ f ∈ fields, f.1 = g.1 → f.2.2.Holds now first o := by
      intro g hg
      obtain ⟨f, field, hf, hname⟩ :=
        exists_declared hnames (hperm.mem_iff.1 (List.mem_map_of_mem hg))
      have hfield := (List.of_mem_zip hf).2
      have hmakes := ih f field hf (hgiven field hfield g.2 (hname ▸ hg))
      exact hname ▸ hmakes.imp fun now o _ ho =>
        forall_named (P := fun l => l.Holds now first o) hnodup hfield ho
    exact ((makes_placeFields hfields).imp fun now given _ h => h.filled hperm).record hfirst
      (.model hd hkind hl hnames hparts hdefaults)

end Store

/-! ### What instances look like -/

/-- Instances that are around an object of a type: they are different, and of classes that the type
does not use. -/
structure Store.Around (s : Store) (c : Catalog) (t : TypeExpr) (trail : List Nat) : Prop where
  nodup : trail.Nodup
  apart : ∀ id ∈ trail, ∃ cls given, s.records[id]? = some (cls, given) ∧ ¬ c.Uses t cls.name

namespace Store

variable {trail : List Nat}

theorem around_nil (s : Store) (c : Catalog) (t : TypeExpr) : s.Around c t [] :=
  ⟨List.nodup_nil, fun _ h => absurd h List.not_mem_nil⟩

theorem Around.imp {t' : TypeExpr} (h : s.Around c t trail)
    (huses : ∀ name, c.Uses t' name → c.Uses t name) : s.Around c t' trail := by
  refine ⟨h.nodup, fun id hid => ?_⟩
  obtain ⟨cls, given, hrecord, hnot⟩ := h.apart id hid
  exact ⟨cls, given, hrecord, fun hused => hnot (huses _ hused)⟩

/-- There are no more instances around an object than there are instances. -/
theorem Around.length_le (h : s.Around c t trail) : trail.length ≤ s.records.length := by
  have hsubset : trail ⊆ List.range s.records.length := by
    intro id hid
    obtain ⟨_, _, hrecord, -⟩ := h.apart id hid
    exact List.mem_range.2 (List.getElem?_eq_some_iff.1 hrecord).1
  have hle := (List.subperm_of_subset h.nodup hsubset).length_le
  rwa [List.length_range] at hle

/-- An instance is around what its fields hold, together with all that is around it. -/
theorem Around.push {cls : ModelClass} {given : List (String × Object)} {id : Nat}
    (h : s.Around c (.named cls.name) trail) (hrecord : s.records[id]? = some (cls, given))
    (huses : ∀ name, c.Uses t name → c.Uses (.named cls.name) name)
    (hself : ¬ c.Uses t cls.name) : s.Around c t (id :: trail) where
  nodup := by
    refine List.nodup_cons.2 ⟨fun hid => ?_, h.nodup⟩
    obtain ⟨cls', given', hrecord', hnot⟩ := h.apart id hid
    rw [hrecord] at hrecord'
    cases hrecord'
    exact hnot ⟨_, .named _, .refl⟩
  apart := List.forall_mem_cons.2 ⟨⟨cls, given, hrecord, hself⟩, (h.imp huses).apart⟩

/-- An object looks like a value, whatever is added to the store, to whoever follows as many steps
as there are instances, apart from a number that are around it. -/
def ShowsInside (s : Store) (around : Nat) (o : Object) (v : Value) : Prop :=
  ∀ after depth, s.Extends after → s.records.length ≤ depth + around →
    o.value after (after.recordValue depth) = v

theorem values_eq_map (s : Store) (record : Nat → Value) (os : List Object) :
    Object.values s record os = os.map (·.value s record) := by
  induction os with
  | nil => rfl
  | cons o os ih => rw [Object.values, ih, List.map_cons]

theorem values_of_showsInside {around depth : Nat} {os : List Object} {vs : List Value}
    (h : List.Forall₂ (s.ShowsInside around) os vs) (hafter : s.Extends after)
    (hdepth : s.records.length ≤ depth + around) :
    Object.values after (after.recordValue depth) os = vs := by
  induction h with
  | nil => rfl
  | cons ho _ ih => rw [Object.values, ho after depth hafter hdepth, ih]

/-- Objects that look like values in canonical form, one by one. -/
theorem exists_values {around : Nat} {ls : List Layout} {os : List Object}
    (h : ∀ l ∈ ls, ∀ o, l.Holds s first o → ∃ v, l.Canonical v ∧ s.ShowsInside around o v)
    (hos : List.Forall₂ (fun l o => l.Holds s first o) ls os) :
    ∃ vs, List.Forall₂ Layout.Canonical ls vs ∧ List.Forall₂ (s.ShowsInside around) os vs := by
  induction hos with
  | nil => exact ⟨[], .nil, .nil⟩
  | cons ho _ ih =>
    obtain ⟨hfirst, hrest⟩ := List.forall_mem_cons.1 h
    obtain ⟨v, hv, hshows⟩ := hfirst _ ho
    obtain ⟨vs, hvs, hall⟩ := ih hrest
    exact ⟨v :: vs, .cons hv hvs, .cons hshows hall⟩

/-- Fields look like named values in canonical form, one by one. -/
theorem exists_fieldValues {around : Nat} {fields : List (String × Option String × Layout)}
    {given : List (String × Object)}
    (h : ∀ g ∈ given, ∃ v, s.ShowsInside around g.2 v ∧
      ∀ f ∈ fields, f.1 = g.1 → f.2.2.Canonical v) :
    ∃ values : List (String × Value), values.map (·.1) = given.map (·.1) ∧
      (∀ f ∈ fields, ∀ x, (f.1, x) ∈ values → f.2.2.Canonical x) ∧
      ∀ after depth, s.Extends after → s.records.length ≤ depth + around →
        given.map (fun g => (g.1, g.2.value after (after.recordValue depth))) = values := by
  induction given with
  | nil => exact ⟨[], rfl, fun _ _ _ h => absurd h List.not_mem_nil, fun _ _ _ _ => rfl⟩
  | cons g given ih =>
    obtain ⟨⟨v, hshows, hv⟩, hrest⟩ := List.forall_mem_cons.1 h
    obtain ⟨values, hnames, hcanonical, hvalues⟩ := ih hrest
    refine ⟨(g.1, v) :: values, congrArg (g.1 :: ·) hnames, fun f hf x hx => ?_, ?_⟩
    · rcases List.mem_cons.1 hx with heq | hx
      · obtain ⟨hname, rfl⟩ := Prod.mk.inj heq
        exact hv f hf hname
      · exact hcanonical f hf x hx
    · intro after depth hafter hdepth
      rw [List.map_cons, hshows after depth hafter hdepth, hvalues after depth hafter hdepth]

/-- The fields of an instance of a standard class hold values. -/
theorem Sound.filled {cls : ModelClass} {id : Nat} (hs : s.Sound c first)
    (hl : c.StandardLayout (.named cls.name) l) (hid : s.IsInstance first cls id) :
    ∃ given, s.records[id]? = some (cls, given) ∧ l.Filled s first cls given := by
  obtain ⟨hfirst, given, hrecord⟩ := hid
  obtain ⟨l', hl', hfilled⟩ := hs id cls given hfirst hrecord
  obtain rfl := hl.hasLayout.unique hl'.hasLayout
  exact ⟨given, hrecord, hfilled⟩

/-- One step leads from an instance to its fields. -/
theorem showsInside_record {cls : ModelClass} {given : List (String × Object)}
    {values : List (String × Value)} {id : Nat} (ha : s.Around c (.named cls.name) trail)
    (hrecord : s.records[id]? = some (cls, given))
    (h : ∀ after depth, s.Extends after → s.records.length ≤ depth + (trail.length + 1) →
      given.map (fun g => (g.1, g.2.value after (after.recordValue depth))) = values) :
    s.ShowsInside trail.length (.record id) (.record cls values) := by
  -- the instance differs from all those around it, so that there is a step left for it
  have hnone : ∀ name, ¬ c.Uses (.builtin .int) name :=
    fun name ⟨_, hmentions, _⟩ => nomatch hmentions
  have hroom := (ha.push hrecord (t := .builtin .int) (fun name h => absurd h (hnone name))
    (hnone _)).length_le
  rw [List.length_cons] at hroom
  intro after depth hafter hdepth
  obtain ⟨depth, rfl⟩ : ∃ d, depth = d + 1 := ⟨depth - 1, by omega⟩
  show after.recordValue (depth + 1) id = _
  have hlater := getElem?_of_prefix hafter.records hrecord
  rw [recordValue_succ hlater, h after depth hafter (by omega)]

/-- What holds a value of the layout of a standard type looks like one in canonical form. -/
theorem exists_canonical (ht : c.StandardLayout t l) (hs : s.Sound c first) {o : Object}
    (ho : l.Holds s first o) (ha : s.Around c t trail) :
    ∃ v, l.Canonical v ∧ s.ShowsInside trail.length o v := by
  induction ht generalizing o trail with
  | int r =>
    obtain ⟨v, rfl, hv⟩ := ho
    exact ⟨v, hv, fun _ _ _ _ => rfl⟩
  | bytes _ =>
    obtain ⟨v, rfl, hv⟩ := ho
    exact ⟨v, hv, fun _ _ _ _ => rfl⟩
  | @list t l n _ _ ih =>
    obtain ⟨items, rfl, hlen, hitems⟩ := ho
    have hinside : s.Around c t trail := ha.imp fun name ⟨other, hother, hreach⟩ =>
      ⟨other, .annotated (.list hother), hreach⟩
    have hlooks : ∀ l' ∈ List.replicate items.length l, ∀ o, l'.Holds s first o →
        ∃ v, l'.Canonical v ∧ s.ShowsInside trail.length o v := by
      intro l' hl' o ho
      rw [List.eq_of_mem_replicate hl'] at ho ⊢
      exact ih ho hinside
    obtain ⟨vs, hvs, hshows⟩ := exists_values hlooks (forall₂_replicate_iff.2 ⟨rfl, hitems⟩)
    obtain ⟨hcount, hcanonical⟩ := forall₂_replicate_iff.1 hvs
    refine ⟨.list vs, ⟨vs, rfl, by rw [hcount, hlen], hcanonical⟩, ?_⟩
    exact fun after depth hafter hdepth =>
      congrArg Value.list (values_of_showsInside hshows hafter hdepth)
  | @tuple ts ls _ hlen _ ih =>
    obtain ⟨items, rfl, hitems⟩ := ho
    have hlooks : ∀ l ∈ ls, ∀ o, l.Holds s first o →
        ∃ v, l.Canonical v ∧ s.ShowsInside trail.length o v := by
      intro l hl o ho
      obtain ⟨t, ht⟩ := exists_mem_zip_left hlen hl
      exact ih t l ht ho (ha.imp fun name ⟨other, hother, hreach⟩ =>
        ⟨other, .tuple (List.of_mem_zip ht).1 hother, hreach⟩)
    obtain ⟨vs, hvs, hshows⟩ := exists_values hlooks ((holdEach_entryFields_iff 0).1 hitems)
    refine ⟨.tuple vs, ⟨vs, rfl, (canonical_entryFields_iff 0).2 hvs⟩, ?_⟩
    exact fun after depth hafter hdepth =>
      congrArg Value.tuple (values_of_showsInside hshows hafter hdepth)
  | enumeration _ _ hl =>
    obtain ⟨enum, -, rfl⟩ := EnumDef.compile_eq_ok hl
    obtain ⟨v, rfl, hv⟩ := ho
    exact ⟨v, hv, fun _ _ _ _ => rfl⟩
  | @unit name m literal hd hkind hfields hunit =>
    obtain rfl := Catalog.name_of_find hd
    obtain ⟨id, rfl, hid⟩ := ho
    obtain ⟨given, hrecord, -, rfl⟩ := hs.filled (.unit hd hkind hfields hunit) hid
    exact ⟨.record m.cls [], rfl, showsInside_record ha hrecord fun _ _ _ _ => rfl⟩
  | @model name m fields hd hkind hl hnames hparts hdefaults ih =>
    obtain rfl := Catalog.name_of_find hd
    obtain ⟨id, rfl, hid⟩ := ho
    obtain ⟨given, hrecord, -, hperm, hgiven⟩ :=
      hs.filled (.model hd hkind hl hnames hparts hdefaults) hid
    have hnodup : (fields.map (·.1)).Nodup := hnames ▸ m.names_nodup
    rw [Fields.names_ofList] at hperm
    rw [Fields.toList_ofList] at hgiven
    have hlooks : ∀ g ∈ given, ∃ v, s.ShowsInside (trail.length + 1) g.2 v ∧
        ∀ f ∈ fields, f.1 = g.1 → f.2.2.Canonical v := by
      intro g hg
      obtain ⟨f, field, hf, hname⟩ :=
        exists_declared hnames (hperm.mem_iff.1 (List.mem_map_of_mem hg))
      have hfield := (List.of_mem_zip hf).2
      have hrefers : ∀ other, f.type.Mentions other → c.Refers m.cls.name other :=
        fun other hother => ⟨m, hd, f, (List.of_mem_zip hf).1, hother⟩
      have hinside : s.Around c f.type (id :: trail) := by
        refine ha.push hrecord (fun name ⟨other, hother, hreach⟩ => ?_)
          fun ⟨other, hother, hreach⟩ => ?_
        · exact ⟨_, .named _, .head (hrefers other hother) hreach⟩
        · -- a class that its fields use again would contain itself
          exact Catalog.not_reaches_self (hl.wellFormed.ends (.named _))
            (.head' (hrefers other hother) hreach)
      obtain ⟨v, hv, hshows⟩ := ih f field hf (hgiven field hfield g.2 (hname ▸ hg)) hinside
      exact ⟨v, hshows, hname ▸ forall_named (P := fun l => l.Canonical v) hnodup hfield hv⟩
    obtain ⟨values, hkeys, hcanonical, hmap⟩ := exists_fieldValues hlooks
    refine ⟨.record m.cls values, ?_, showsInside_record ha hrecord hmap⟩
    rw [Layout.canonical_model_iff (by rw [Fields.names_ofList]; exact hnodup),
      Fields.names_ofList, Fields.toList_ofList]
    exact ⟨values, rfl, hkeys ▸ hperm, hcanonical⟩

end Store

end FixedLayout
