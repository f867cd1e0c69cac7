import Mathlib.Data.List.Forall2
import FixedLayout.Proofs.RoundTrip

/-!
# Parts of a layout

A step leads from a layout to one of its slots, and from a value of the layout to one of its parts:
by an accessor to a field, or by an index to an entry. A path is a sequence of steps.

* `PathStep`, `Layout.Offers`, `Layout.Admits`: steps, and the steps and paths that a layout allows;
* `Layout.slotAt`, `Layout.follow`: the slot that a step leads to, the offset and the layout that a
  path leads to;
* `Value.entryAt?`, `Layout.partAt`, `Layout.component`: the same for values;
* `Layout.Regular`: what is known of all compiled layouts without negative lengths;
* `Layout.entry_cases`, `Layout.entry_of_outside`: which indices reach entries;
* `Layout.exists_slot`, `Layout.exists_part`: an allowed step leads to a slot inside the layout,
  whose bytes pass their check and are decoded to the part of the value that the step leads to;
* `Layout.follow_spec`: so does an allowed path.
-/

namespace FixedLayout

/-- A step to a part: to the field that an accessor reaches, or to the entry of an index. -/
inductive PathStep
  | field (accessor : String)
  | entry (index : Int)

/-! ### Parts of values -/

/-- The position of an entry among `n`, where a negative index counts from the end. -/
def entryIndex (n i : Int) : Nat := (if i < 0 then i + n else i).toNat

namespace Value

/-- The entries of a list, of a tuple, or of an instance of a positional model, which are the values
of its fields in order of declaration. -/
def entries? : Value → Option (List Value)
  | .list items => some items
  | .tuple items => some items
  | .record cls fields =>
    if cls.positional then cls.fieldNames.mapM (Value.record cls fields).field? else none
  | _ => none

/-- The entry of an index. -/
def entryAt? (v : Value) (i : Int) : Option Value :=
  v.entries?.bind fun items => if i < -items.length then none else items[entryIndex items.length i]?

end Value

/-! ### Parts of layouts -/

namespace Layout

/-- The slot that a step leads to. -/
def slotAt (l : Layout) : PathStep → Option Slot
  | .field accessor => l.accessor? accessor
  | .entry i => (l.entry i).toOption

/-- The steps that a layout allows: to its accessors, and to as many entries as there are, counted
from either end. -/
def Offers (l : Layout) : PathStep → Prop
  | .field accessor => accessor ∈ l.accessors
  | .entry i => ∃ n, l.entryCount? = some n ∧ -n ≤ i ∧ i < n

/-- The part of a value that a step leads to: the field that is declared with an accessor, or an
entry. -/
def partAt (l : Layout) (v : Value) : PathStep → Option Value
  | .field accessor => (l.accessor? accessor).bind fun slot => v.field? slot.name
  | .entry i => v.entryAt? i

/-- The paths that a layout allows: each step is allowed where the steps before it lead. -/
def Admits : Layout → List PathStep → Prop
  | _, [] => True
  | l, step :: rest => l.Offers step ∧ ∀ slot, l.slotAt step = some slot → slot.layout.Admits rest

/-- The offset and the layout that a path leads to. The offset is the sum of those of the slots. -/
def follow : Layout → List PathStep → Option (Int × Layout)
  | l, [] => some (0, l)
  | l, step :: rest => do
    let slot ← l.slotAt step
    let (start, sub) ← slot.layout.follow rest
    return (slot.start + start, sub)

/-- The component of a value that a path leads to. -/
def component : Layout → Value → List PathStep → Option Value
  | _, v, [] => some v
  | l, v, step :: rest => do
    let slot ← l.slotAt step
    let part ← l.partAt v step
    slot.layout.component part rest

end Layout

/-! ### Regular layouts -/

/-- The fields of a composite are those of its model, in order; those of a tuple have no
accessors. -/
def Form.Fits : Form → Fields → Prop
  | .model cls, fields => fields.names = cls.fieldNames
  | .tuple, fields => ∀ f ∈ fields.toList, f.2.1 = none

mutual

/-- The fields of each composite are those of its form. -/
def Layout.Fitting : Layout → Prop
  | .composite form fields => form.Fits fields ∧ fields.Fitting
  | .array element _ => element.Fitting
  | _ => True

/-- The fields of each composite inside the fields' layouts are those of its form. -/
def Fields.Fitting : Fields → Prop
  | .nil => True
  | .cons _ _ layout rest => layout.Fitting ∧ rest.Fitting

end

theorem Fields.fitting_ofList {fs : List (String × Option String × Layout)}
    (h : ∀ f ∈ fs, f.2.2.Fitting) : (Fields.ofList fs).Fitting := by
  induction fs with
  | nil => trivial
  | cons f fs ih =>
    obtain ⟨hf, hfs⟩ := List.forall_mem_cons.1 h
    exact ⟨hf, ih hfs⟩

theorem fitting_entryFields {ls : List Layout} (h : ∀ l ∈ ls, l.Fitting) (index : Nat) :
    (entryFields index ls).Fitting := by
  induction ls generalizing index with
  | nil => trivial
  | cons l ls ih =>
    obtain ⟨hl, hls⟩ := List.forall_mem_cons.1 h
    exact ⟨hl, ih hls (index + 1)⟩

/-- Entries have no accessors. -/
theorem accessor_of_mem_entryFields (ls : List Layout) (index : Nat) :
    ∀ f ∈ (entryFields index ls).toList, f.2.1 = none := by
  induction ls generalizing index with
  | nil => exact fun _ hf => absurd hf List.not_mem_nil
  | cons l ls ih => exact List.forall_mem_cons.2 ⟨rfl, ih (index + 1)⟩

/-- The fields of compiled composites are those of their forms. -/
theorem closed_fitting : Layout.Closed Layout.Fitting where
  int _ := trivial
  bytes _ := trivial
  unit _ _ := trivial
  enumeration _ := trivial
  model _ fields hnames hlayouts :=
    ⟨(Fields.names_ofList fields).trans hnames, Fields.fitting_ofList hlayouts⟩
  tuple layouts hlayouts :=
    ⟨accessor_of_mem_entryFields layouts 0, fitting_entryFields hlayouts 0⟩
  array _ _ h := h

/-- What is known of compiled layouts without negative lengths. -/
structure Layout.Regular (l : Layout) : Prop where
  lengths : l.LengthsNonneg
  names : l.NamesNodup
  fitting : l.Fitting

/-- The layout of a type is regular if no length in it is negative. -/
theorem Catalog.regular_of_layoutOf {c : Catalog} {t : TypeExpr} {l : Layout}
    (h : c.layoutOf t = .ok l) (hl : l.LengthsNonneg) : l.Regular :=
  ⟨hl, namesNodup_of_layoutOf h, closed_of_compile closed_fitting .empty h⟩

/-- What is known of their fields. -/
structure Fields.Regular (fs : Fields) : Prop where
  lengths : fs.LengthsNonneg
  names : fs.NamesNodup
  fitting : fs.Fitting

theorem Fields.Regular.head {name : String} {accessor : Option String} {layout : Layout}
    {rest : Fields} (h : (Fields.cons name accessor layout rest).Regular) : layout.Regular :=
  ⟨h.lengths.1, h.names.1, h.fitting.1⟩

theorem Fields.Regular.tail {name : String} {accessor : Option String} {layout : Layout}
    {rest : Fields} (h : (Fields.cons name accessor layout rest).Regular) : rest.Regular :=
  ⟨h.lengths.2, h.names.2, h.fitting.2⟩

theorem Layout.Regular.fields {form : Form} {fields : Fields}
    (h : (Layout.composite form fields).Regular) : fields.Regular :=
  ⟨h.lengths, h.names.2, h.fitting.2⟩

theorem Layout.Regular.element {element : Layout} {n : Int} (h : (Layout.array element n).Regular) :
    element.Regular :=
  ⟨h.lengths.1, h.names, h.fitting⟩

/-! ### Slots -/

/-- The bytes of a slot. -/
def Slot.range (slot : Slot) (data : Bytes) : Bytes := Bytes.slice data slot.start slot.stop

/-- A slot lies inside a layout. -/
structure Slot.Inside (slot : Slot) (l : Layout) : Prop where
  start : 0 ≤ slot.start
  size : slot.stop = slot.start + slot.layout.size
  stop : slot.stop ≤ l.size
  regular : slot.layout.Regular

/-- The bytes of a slot pass their check and are decoded to a value. -/
structure Slot.Holds (slot : Slot) (data : Bytes) (part : Value) : Prop where
  check : slot.layout.check (slot.range data) = .ok ()
  decode : slot.layout.decode (slot.range data) = .ok part

section Ranges

variable {l : Layout} {slot : Slot} {data : Bytes} (h : slot.Inside l)
  (hlen : (data.length : Int) = l.size)

include h hlen

/-- There are as many bytes in a slot as its layout has. -/
theorem Slot.Inside.length_range : ((slot.range data).length : Int) = slot.layout.size := by
  have hsize := slot.layout.size_nonneg h.regular.lengths
  have hwidth := h.size
  have hstop := h.stop
  rw [range, Bytes.length_slice_of_le h.start (by omega) (by omega)]
  omega

/-- A slice of the bytes of a slot is a slice of the whole. -/
theorem Slot.Inside.slice_range {lo hi : Int} (h0 : 0 ≤ lo) (h1 : lo ≤ hi)
    (h2 : hi ≤ slot.layout.size) :
    Bytes.slice (slot.range data) lo hi =
      Bytes.slice data (slot.start + lo) (slot.start + hi) := by
  have hwidth := h.size
  have hstop := h.stop
  rw [range, Bytes.slice_slice h.start (by omega) h0 h1 (by omega), Int.add_comm lo,
    Int.add_comm hi]

end Ranges

theorem Fields.inside_place {l : Layout} : ∀ (fs : Fields) (index : Nat) (start : Int), fs.Regular →
    0 ≤ start → start + fs.size ≤ l.size → ∀ slot ∈ fs.place index start, slot.Inside l
  | .nil, _, _, _, _, _ => fun _ h => absurd h List.not_mem_nil
  | .cons name accessor layout rest, index, start, hfs, h0, h1 => by
    have hsize := layout.size_nonneg hfs.head.lengths
    have hrest := rest.size_nonneg hfs.tail.lengths
    rw [Fields.size] at h1
    refine List.forall_mem_cons.2 ⟨⟨h0, rfl, ?_, hfs.head⟩, ?_⟩
    · show start + layout.size ≤ l.size
      omega
    · exact rest.inside_place (index + 1) (start + layout.size) hfs.tail (by omega) (by omega)

theorem Fields.accessor_of_mem_place : ∀ (fs : Fields), (∀ f ∈ fs.toList, f.2.1 = none) →
    ∀ (index : Nat) (start : Int), ∀ slot ∈ fs.place index start, slot.accessor = none
  | .nil, _, _, _ => fun _ h => absurd h List.not_mem_nil
  | .cons name accessor layout rest, h, index, start => by
    obtain ⟨hfirst, hothers⟩ := List.forall_mem_cons.1 h
    exact List.forall_mem_cons.2
      ⟨hfirst, rest.accessor_of_mem_place hothers (index + 1) (start + layout.size)⟩

/-- The slots of a composite lie inside it. -/
theorem Layout.Regular.inside_slots {l : Layout} (hl : l.Regular) :
    ∀ slot ∈ l.slots, slot.Inside l := by
  cases l with
  | composite form fields =>
    refine fields.inside_place 0 0 hl.fields (Int.le_refl 0) ?_
    rw [Int.zero_add]
    exact Int.le_refl _
  | _ => exact fun _ h => absurd h List.not_mem_nil

/-- The slots of fields hold the values that the fields are decoded to, one by one. -/
theorem Fields.forall₂_place {frame : String → Nat → Frame} {data : Bytes} :
    ∀ (fs : Fields) (index : Nat) (start : Int) {values : List (String × Value)},
      fs.check frame index start data = .ok () → fs.decode start data = .ok values →
        List.Forall₂ (fun slot f => slot.name = f.1 ∧ slot.Holds data f.2) (fs.place index start)
          values
  | .nil, _, _, _, _, hdecode => by
    cases hdecode
    exact .nil
  | .cons name accessor layout rest, index, start, values, hcheck, hdecode => by
    obtain ⟨u, hfirst, hothers⟩ := bind_eq_ok hcheck
    obtain ⟨v, hv, hrest⟩ := bind_eq_ok hdecode
    obtain ⟨vs, hvs, hvalues⟩ := bind_eq_ok hrest
    cases hvalues
    exact .cons ⟨rfl, inFrame_eq_ok hfirst, hv⟩
      (rest.forall₂_place (index + 1) (start + layout.size) hothers hvs)

/-- Of lists that are related item by item, the items in the same place are related. -/
theorem exists_getElem?_of_forall₂ {α β : Type} {R : α → β → Prop} {xs : List α} {ys : List β}
    (h : List.Forall₂ R xs ys) {i : Nat} {x : α} (hx : xs[i]? = some x) :
    ∃ y, ys[i]? = some y ∧ R x y := by
  induction h generalizing i with
  | nil => cases hx
  | cons hxy _ ih =>
    cases i with
    | zero =>
      cases hx
      exact ⟨_, rfl, hxy⟩
    | succ i => exact ih hx

/-! ### Elements -/

theorem check_of_checkRun {check : Bytes → Except CheckFault Unit} {frame : Int → Frame}
    {size : Int} {data : Bytes} {index n : Nat}
    (h : checkRun check frame size data index n = .ok ()) {k : Nat} (hk : k < n) :
    check (Bytes.slice data ((index + k : Nat) * size) (((index + k : Nat) + 1) * size)) =
      .ok () := by
  induction n generalizing index k with
  | zero => cases hk
  | succ n ih =>
    obtain ⟨u, hfirst, hrest⟩ := bind_eq_ok h
    cases k with
    | zero => exact inFrame_eq_ok hfirst
    | succ k =>
      have hlater := ih hrest (Nat.lt_of_succ_lt_succ hk)
      rwa [Nat.add_right_comm] at hlater

theorem decode_of_decodeRun {decode : Bytes → Except DecodeFault Value} {size : Int} {data : Bytes}
    {index n : Nat} {vs : List Value} (h : decodeRun decode size data index n = .ok vs) {k : Nat}
    (hk : k < n) :
    ∃ v, vs[k]? = some v ∧
      decode (Bytes.slice data ((index + k : Nat) * size) (((index + k : Nat) + 1) * size)) =
        .ok v := by
  induction n generalizing index k vs with
  | zero => cases hk
  | succ n ih =>
    obtain ⟨v, hv, hrest⟩ := bind_eq_ok h
    obtain ⟨others, hothers, hvs⟩ := bind_eq_ok hrest
    cases hvs
    cases k with
    | zero => exact ⟨v, rfl, hv⟩
    | succ k =>
      obtain ⟨v', hv', hdecode⟩ := ih hothers (Nat.lt_of_succ_lt_succ hk)
      rw [Nat.add_right_comm] at hdecode
      exact ⟨v', hv', hdecode⟩

/-! ### Entries -/

section Entries

variable {n i : Int}

theorem entryIndex_lt (h0 : -n ≤ i) (h1 : i < n) : (entryIndex n i : Int) < n := by
  unfold entryIndex
  split <;> omega

theorem entryIndex_natCast (n : Int) (k : Nat) : entryIndex n k = k := by
  unfold entryIndex
  rw [if_neg (by omega), Int.toNat_natCast]

/-- The entry of an index, counted from either end. -/
theorem Value.entryAt?_of_entries? {v : Value} {items : List Value} (hv : v.entries? = some items)
    (h0 : -(items.length : Int) ≤ i) : v.entryAt? i = items[entryIndex items.length i]? := by
  unfold Value.entryAt?
  rw [hv, Option.bind_some, if_neg (by omega)]

/-- The layouts with entries are arrays and positional composites. -/
theorem Layout.entryCount?_cases {l : Layout} (hn : l.entryCount? = some n) :
    (∃ element, l = .array element n) ∨
      ∃ form fields, l = .composite form fields ∧ form.positional = true ∧
        n = (fields.count : Int) := by
  cases l with
  | array element length =>
    cases hn
    exact .inl ⟨element, rfl⟩
  | composite form fields =>
    have hif : (if form.positional then some (fields.count : Int) else none) = some n := hn
    by_cases hform : form.positional = true
    · rw [if_pos hform] at hif
      exact .inr ⟨form, fields, rfl, hform, (Option.some.inj hif).symm⟩
    · rw [if_neg hform] at hif
      cases hif
  | _ => cases hn

theorem Layout.entryCount?_nonneg {l : Layout} (hl : l.LengthsNonneg)
    (hn : l.entryCount? = some n) : 0 ≤ n := by
  rcases Layout.entryCount?_cases hn with ⟨element, rfl⟩ | ⟨form, fields, rfl, -, rfl⟩
  · exact hl.2
  · exact Int.natCast_nonneg _

/-- A negative index reaches the same entry as one that is counted from the start. -/
theorem Layout.entry_eq {l : Layout} (hn : l.entryCount? = some n) (h0 : -n ≤ i) :
    l.entry i = l.entry (entryIndex n i : Nat) := by
  have hcast : ((entryIndex n i : Nat) : Int) = if i < 0 then i + n else i := by
    unfold entryIndex
    split <;> omega
  have hpos : ¬ ((entryIndex n i : Nat) : Int) < 0 := by omega
  rcases Layout.entryCount?_cases hn with ⟨element, rfl⟩ | ⟨form, fields, rfl, hform, rfl⟩
  · unfold Layout.entry
    simp only [hpos, if_false]
    rw [hcast]
  · unfold Layout.entry
    simp only [hform, if_true, hpos, if_false]
    rw [hcast, if_neg (by split <;> omega)]

/-- The entries of an array are its elements. -/
theorem Layout.entry_array (element : Layout) {k : Nat} (hk : (k : Int) < n) :
    (Layout.array element n).entry k = .ok (elementSlot element k) := by
  have hpos : ¬ (k : Int) < 0 := by omega
  have hinside : (0 : Int) ≤ k ∧ (k : Int) < n := by omega
  unfold Layout.entry
  simp only [hpos, if_false, hinside, and_self, if_true]

/-- The entries of a positional composite are its slots. -/
theorem Layout.entry_composite {form : Form} {fields : Fields} (hform : form.positional = true)
    {k : Nat} {slot : Slot} (hk : fields.slots[k]? = some slot) :
    (Layout.composite form fields).entry k = .ok slot := by
  have hpos : ¬ (k : Int) < 0 := by omega
  unfold Layout.entry
  simp only [hform, if_true, hpos, if_false, Int.toNat_natCast, hk]

/-- An index between the ends reaches an element of an array or a slot of a composite. -/
theorem Layout.entry_cases {l : Layout} (hn : l.entryCount? = some n) (h0 : -n ≤ i) (h1 : i < n) :
    (∃ element, l = .array element n ∧
        l.entry i = .ok (elementSlot element (entryIndex n i : Nat))) ∨
      ∃ form fields slot, l = .composite form fields ∧ form.positional = true ∧
        n = (fields.count : Int) ∧ fields.slots[entryIndex n i]? = some slot ∧
        l.entry i = .ok slot := by
  have hk := entryIndex_lt h0 h1
  rw [Layout.entry_eq hn h0]
  rcases Layout.entryCount?_cases hn with ⟨element, rfl⟩ | ⟨form, fields, rfl, hform, rfl⟩
  · exact .inl ⟨element, rfl, Layout.entry_array element hk⟩
  · have hlen : fields.slots.length = fields.count := fields.length_place 0 0
    have hslot := List.getElem?_eq_getElem (l := fields.slots) (i := entryIndex fields.count i)
      (by omega)
    exact .inr ⟨form, fields, _, rfl, hform, rfl, hslot, Layout.entry_composite hform hslot⟩

/-- No entry is reached by an index beyond the ends. -/
theorem Layout.entry_of_outside {l : Layout} (hn : l.entryCount? = some n)
    (h : ¬ (-n ≤ i ∧ i < n)) :
    l.entry i = .error .outsideTuple ∨
      ∃ typeName index, l.entry i = .error (.outsideArray typeName index) := by
  rcases Layout.entryCount?_cases hn with ⟨element, rfl⟩ | ⟨form, fields, rfl, hform, rfl⟩
  · have hout : ¬ (0 ≤ (if i < 0 then i + n else i) ∧ (if i < 0 then i + n else i) < n) := by
      split <;> omega
    refine .inr ⟨s!"{element.typeName}[{n}]", if i < 0 then i + n else i, ?_⟩
    unfold Layout.entry
    simp only [hout, if_false]
  · left
    unfold Layout.entry
    simp only [hform, if_true]
    by_cases hneg : (if i < 0 then i + (fields.count : Int) else i) < 0
    · rw [if_pos hneg]
    · have hlen : fields.slots.length = fields.count := fields.length_place 0 0
      have hbeyond : fields.slots.length ≤
          (if i < 0 then i + (fields.count : Int) else i).toNat := by
        split at hneg <;> split <;> omega
      rw [if_neg hneg, List.getElem?_eq_none hbeyond]

end Entries

/-! ### Single steps -/

theorem Layout.accessor?_eq_some {l : Layout} {a : String} {slot : Slot}
    (h : l.accessor? a = some slot) : slot ∈ l.slots ∧ slot.accessor = some a := by
  unfold accessor? at h
  have hfound := List.find?_some h
  exact ⟨List.mem_of_find?_eq_some h, eq_of_beq hfound⟩

/-- An accessor reaches a slot. -/
theorem Layout.exists_accessor {l : Layout} {a : String} (h : a ∈ l.accessors) :
    ∃ slot, l.accessor? a = some slot := by
  obtain ⟨slot, hslot, ha⟩ := List.mem_filterMap.1 h
  rw [← Option.isSome_iff_exists]
  unfold accessor?
  rw [List.find?_isSome]
  exact ⟨slot, hslot, beq_iff_eq.2 ha⟩

theorem Layout.slotAt_of_entry {l : Layout} {i : Int} {slot : Slot} (h : l.entry i = .ok slot) :
    l.slotAt (.entry i) = some slot := by
  unfold slotAt
  simp only [h]
  rfl

theorem Layout.entry_of_slotAt {l : Layout} {i : Int} {slot : Slot}
    (h : l.slotAt (.entry i) = some slot) : l.entry i = .ok slot := by
  have hentry : (l.entry i).toOption = some slot := h
  cases hresult : l.entry i with
  | ok found =>
    rw [hresult] at hentry
    exact congrArg _ (Option.some.inj hentry)
  | error fault =>
    rw [hresult] at hentry
    cases hentry

/-- The slot of an element lies inside the array. -/
theorem Layout.Regular.inside_element {element : Layout} {n : Int}
    (hl : (Layout.array element n).Regular) {k : Nat} (hk : (k : Int) < n) :
    (elementSlot element k).Inside (.array element n) := by
  have hsize := element.size_nonneg hl.lengths.1
  refine ⟨Int.mul_nonneg (Int.natCast_nonneg k) hsize, rfl, ?_, hl.element⟩
  show (k : Int) * element.size + element.size ≤ element.size * n
  rw [← offset_succ, Int.mul_comm]
  exact Int.mul_le_mul_of_nonneg_left (by omega) hsize

/-- A step that a layout allows leads to a slot inside it. -/
theorem Layout.exists_slot {l : Layout} (hl : l.Regular) {step : PathStep} (h : l.Offers step) :
    ∃ slot, l.slotAt step = some slot ∧ slot.Inside l := by
  cases step with
  | field a =>
    obtain ⟨slot, hslot⟩ := Layout.exists_accessor h
    exact ⟨slot, hslot, hl.inside_slots slot (Layout.accessor?_eq_some hslot).1⟩
  | entry i =>
    obtain ⟨n, hn, h0, h1⟩ := h
    rcases Layout.entry_cases hn h0 h1 with
      ⟨element, rfl, hentry⟩ | ⟨form, fields, slot, rfl, -, -, hslot, hentry⟩
    · exact ⟨_, Layout.slotAt_of_entry hentry, hl.inside_element (entryIndex_lt h0 h1)⟩
    · exact ⟨slot, Layout.slotAt_of_entry hentry, hl.inside_slots _ (List.mem_of_getElem? hslot)⟩

/-- Things that are found by their names, one after another. -/
theorem mapM_of_forall {α : Type} {find : String → Option α} {values : List (String × α)}
    (h : ∀ f ∈ values, find f.1 = some f.2) :
    (values.map (·.1)).mapM find = some (values.map (·.2)) := by
  induction values with
  | nil => rfl
  | cons f rest ih =>
    obtain ⟨hf, hrest⟩ := List.forall_mem_cons.1 h
    rw [List.map_cons, List.mapM_cons, hf, ih hrest]
    rfl

/-- The entries of what a positional composite is decoded to are the values of its fields. -/
theorem Form.entries?_build {form : Form} {fields : Fields} {values : List (String × Value)}
    (hform : form.positional = true) (hfits : form.Fits fields)
    (hnames : values.map (·.1) = fields.names) (hnodup : fields.names.Nodup) :
    (form.build values).entries? = some (values.map (·.2)) := by
  cases form with
  | tuple => rfl
  | model cls =>
    have hfields : fields.names = cls.fieldNames := hfits
    have hpositional : cls.positional = true := hform
    show (if cls.positional then cls.fieldNames.mapM (Value.record cls values).field? else none) = _
    rw [if_pos hpositional, ← hfields, ← hnames]
    exact mapM_of_forall fun f hf => Value.field?_record (hnames ▸ hnodup) hf

section Parts

variable {data : Bytes} {form : Form} {fields : Fields} {values : List (String × Value)}
  {slot : Slot} {i : Int}

/-- The slots of fields hold named values, one by one. -/
def Fields.Hold (fields : Fields) (data : Bytes) (values : List (String × Value)) : Prop :=
  List.Forall₂ (fun slot f => slot.name = f.1 ∧ slot.Holds data f.2) fields.slots values

/-- The slots of a composite hold the values that it is built from. -/
theorem Layout.exists_values {v : Value}
    (hcheck : (Layout.composite form fields).check data = .ok ())
    (hv : (Layout.composite form fields).decode data = .ok v) :
    ∃ values, v = form.build values ∧ fields.Hold data values := by
  obtain ⟨values, hvalues, hbuild⟩ := bind_eq_ok hv
  cases hbuild
  exact ⟨values, rfl, fields.forall₂_place 0 0 hcheck hvalues⟩

/-- The values have the names of the fields. -/
theorem Fields.Hold.names (h : fields.Hold data values) : values.map (·.1) = fields.names := by
  have hslots : ∀ {slots : List Slot} {values : List (String × Value)},
      List.Forall₂ (fun slot f => slot.name = f.1 ∧ slot.Holds data f.2) slots values →
        values.map (·.1) = slots.map (·.name) := by
    intro slots values h
    induction h with
    | nil => rfl
    | cons hf _ ih => rw [List.map_cons, List.map_cons, hf.1, ih]
  exact (hslots h).trans (fields.map_name_place 0 0)

/-- The field that an accessor reaches holds the field of the instance that is declared with it. -/
theorem Form.exists_field (hl : (Layout.composite form fields).Regular)
    (hvalues : fields.Hold data values) {a : String}
    (hslot : (Layout.composite form fields).accessor? a = some slot) :
    ∃ part, (form.build values).field? slot.name = some part ∧ slot.Holds data part := by
  obtain ⟨hmem, haccessor⟩ := Layout.accessor?_eq_some hslot
  obtain ⟨k, hk⟩ := List.mem_iff_getElem?.1 hmem
  obtain ⟨f, hf, hname, hholds⟩ := exists_getElem?_of_forall₂ hvalues hk
  refine ⟨f.2, ?_, hholds⟩
  cases form with
  | model cls =>
    rw [hname]
    exact Value.field?_record (hvalues.names ▸ hl.names.1) (List.mem_of_getElem? hf)
  | tuple =>
    -- the entries of a tuple have no accessors
    have hnone := fields.accessor_of_mem_place hl.fitting.1 0 0 slot hmem
    rw [haccessor] at hnone
    cases hnone

/-- The slot of an index holds the entry of that index. -/
theorem Form.exists_entry (hl : (Layout.composite form fields).Regular)
    (hform : form.positional = true) (hvalues : fields.Hold data values)
    (h0 : -(fields.count : Int) ≤ i)
    (hslot : fields.slots[entryIndex fields.count i]? = some slot) :
    ∃ part, (form.build values).entryAt? i = some part ∧ slot.Holds data part := by
  obtain ⟨f, hf, -, hholds⟩ := exists_getElem?_of_forall₂ hvalues hslot
  have hentries := Form.entries?_build hform hl.fitting.1 hvalues.names hl.names.1
  have hlen : (values.map (·.2)).length = fields.count := by
    rw [List.length_map, ← List.length_map (·.1), hvalues.names, fields.length_names]
  refine ⟨f.2, ?_, hholds⟩
  rw [Value.entryAt?_of_entries? hentries (by rw [hlen]; exact h0), hlen, List.getElem?_map, hf]
  rfl

/-- The slot of an element holds the item of the list. -/
theorem Layout.exists_element {element : Layout} {n : Int} {items : List Value}
    (hcheck : (Layout.array element n).check data = .ok ())
    (hitems : decodeRun element.decode element.size data 0 n.toNat = .ok items) (h0 : -n ≤ i)
    (h1 : i < n) :
    ∃ part, (Value.list items).entryAt? i = some part ∧
      (elementSlot element (entryIndex n i : Nat)).Holds data part := by
  have hk := entryIndex_lt h0 h1
  have hlen : (items.length : Int) = n := by
    rw [length_of_decodeRun hitems]
    omega
  obtain ⟨part, hpart, hdecode⟩ := decode_of_decodeRun hitems (k := entryIndex n i) (by omega)
  have hcheck := check_of_checkRun hcheck (k := entryIndex n i) (by omega)
  rw [Nat.zero_add, offset_succ] at hdecode hcheck
  refine ⟨part, ?_, hcheck, hdecode⟩
  rw [Value.entryAt?_of_entries? rfl (by rw [hlen]; exact h0), hlen]
  exact hpart

end Parts

/-- The slot that a step leads to holds the part of the value that the step leads to, in bytes that
pass the check and are decoded to the value. -/
theorem Layout.exists_part {l : Layout} (hl : l.Regular) {data : Bytes} {v : Value}
    (hcheck : l.check data = .ok ()) (hv : l.decode data = .ok v) {step : PathStep}
    (h : l.Offers step) :
    ∃ slot part, l.slotAt step = some slot ∧ l.partAt v step = some part ∧ slot.Inside l ∧
      slot.Holds data part := by
  obtain ⟨slot, hslot, hinside⟩ := Layout.exists_slot hl h
  suffices hpart : ∃ part, l.partAt v step = some part ∧ slot.Holds data part by
    obtain ⟨part, hpart, hholds⟩ := hpart
    exact ⟨slot, part, hslot, hpart, hinside, hholds⟩
  cases step with
  | field a =>
    have hfind : l.accessor? a = some slot := hslot
    unfold partAt
    simp only [hfind, Option.bind_some]
    cases l with
    | composite form fields =>
      obtain ⟨values, rfl, hvalues⟩ := Layout.exists_values hcheck hv
      exact Form.exists_field hl hvalues hfind
    | _ => exact absurd (accessor?_eq_some hfind).1 List.not_mem_nil
  | entry i =>
    obtain ⟨n, hn, h0, h1⟩ := h
    have hfound := Layout.entry_of_slotAt hslot
    show ∃ part, v.entryAt? i = some part ∧ _
    rcases Layout.entry_cases hn h0 h1 with
      ⟨element, rfl, hentry⟩ | ⟨form, fields, entry, rfl, hform, rfl, hget, hentry⟩
    · cases hentry.symm.trans hfound
      obtain ⟨items, hitems, hbuild⟩ := bind_eq_ok hv
      cases hbuild
      exact Layout.exists_element hcheck hitems h0 h1
    · cases hentry.symm.trans hfound
      obtain ⟨values, rfl, hvalues⟩ := Layout.exists_values hcheck hv
      exact Form.exists_entry hl hform hvalues h0 hget

/-- The slot of a number holds the entry of that number. -/
theorem Layout.exists_entry {l : Layout} (hl : l.Regular) {data : Bytes} {v : Value}
    (hcheck : l.check data = .ok ()) (hv : l.decode data = .ok v) {n : Int}
    (hn : l.entryCount? = some n) {k : Nat} (hk : (k : Int) < n) :
    ∃ slot part, l.entry k = .ok slot ∧ v.entryAt? k = some part ∧ slot.Inside l ∧
      slot.Holds data part := by
  have hoffers : l.Offers (.entry k) := ⟨n, hn, by omega, hk⟩
  obtain ⟨slot, part, hslot, hpart, hinside, hholds⟩ := Layout.exists_part hl hcheck hv hoffers
  exact ⟨slot, part, Layout.entry_of_slotAt hslot, hpart, hinside, hholds⟩

/-! ### Paths -/

/-- A path that a layout allows leads to a layout inside it. -/
theorem Layout.exists_follow {l : Layout} (hl : l.Regular) {path : List PathStep}
    (h : l.Admits path) :
    ∃ start sub, l.follow path = some (start, sub) ∧ 0 ≤ start ∧ start + sub.size ≤ l.size ∧
      sub.Regular := by
  induction path generalizing l with
  | nil => exact ⟨0, l, rfl, Int.le_refl 0, by rw [Int.zero_add], hl⟩
  | cons step rest ih =>
    obtain ⟨slot, hslot, hinside⟩ := Layout.exists_slot hl h.1
    obtain ⟨start, sub, hfollow, h0, h1, hsub⟩ := ih hinside.regular (h.2 slot hslot)
    have hsize := hinside.size
    have hstart := hinside.start
    have hstop := hinside.stop
    refine ⟨slot.start + start, sub, ?_, by omega, by omega, hsub⟩
    rw [follow, hslot, Option.bind_eq_bind, Option.bind_some, hfollow]
    rfl

/-- Where a path leads is inside the slot that its first step leads to. -/
theorem Layout.follow_cons {l sub : Layout} {step : PathStep} {rest : List PathStep}
    (h : l.Admits (step :: rest)) {start : Int}
    (hfollow : l.follow (step :: rest) = some (start, sub)) {slot : Slot}
    (hslot : l.slotAt step = some slot) (hinside : slot.Inside l) :
    ∃ offset, slot.layout.follow rest = some (offset, sub) ∧ start = slot.start + offset ∧
      0 ≤ offset ∧ 0 ≤ sub.size ∧ offset + sub.size ≤ slot.layout.size := by
  obtain ⟨offset, sub', hrest, h0, h1, hsub⟩ :=
    Layout.exists_follow hinside.regular (h.2 slot hslot)
  rw [follow, hslot, Option.bind_eq_bind, Option.bind_some, hrest] at hfollow
  cases hfollow
  exact ⟨offset, hrest, rfl, h0, sub.size_nonneg hsub.lengths, h1⟩

/-- The bytes at the end of a path pass their check, and are decoded to the component of the value
that the path leads to. -/
theorem Layout.follow_spec {l : Layout} (hl : l.Regular) {data : Bytes} {v : Value}
    (hlen : (data.length : Int) = l.size) (hcheck : l.check data = .ok ())
    (hv : l.decode data = .ok v) {path : List PathStep} (h : l.Admits path) {start : Int}
    {sub : Layout} (hfollow : l.follow path = some (start, sub)) :
    ∃ part, l.component v path = some part ∧
      sub.check (Bytes.slice data start (start + sub.size)) = .ok () ∧
      sub.decode (Bytes.slice data start (start + sub.size)) = .ok part := by
  induction path generalizing l data v start with
  | nil =>
    cases hfollow
    rw [Int.zero_add, ← hlen, Bytes.slice_all]
    exact ⟨v, rfl, hcheck, hv⟩
  | cons step rest ih =>
    obtain ⟨slot, part, hslot, hpart, hinside, hholds⟩ := Layout.exists_part hl hcheck hv h.1
    obtain ⟨offset, hrest, rfl, h0, hsize, h1⟩ := Layout.follow_cons h hfollow hslot hinside
    obtain ⟨component, hcomponent, hchecked, hdecoded⟩ :=
      ih hinside.regular (hinside.length_range hlen) hholds.check hholds.decode (h.2 slot hslot)
        hrest
    -- the induction speaks of a slice of the slot, which is a slice of the whole
    rw [hinside.slice_range hlen h0 (by omega) h1, ← Int.add_assoc] at hchecked hdecoded
    refine ⟨component, ?_, hchecked, hdecoded⟩
    rw [Layout.component, hslot, Option.bind_eq_bind, Option.bind_some, hpart, Option.bind_eq_bind,
      Option.bind_some, hcomponent]

end FixedLayout
