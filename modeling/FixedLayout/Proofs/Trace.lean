import FixedLayout.Proofs.Leaves
import FixedLayout.Codec

/-!
# Encoding as a trace

Encoding a value goes through the leaves of a layout from left to right. The trace says which leaves
are reached and what is written to them, and how it ends, without mention of the region that is
written. A leaf may also be passed over: an array counts the fields of a positional instance as
elements, but goes only through those fields that are present.

* `Visit`, `Visit.patch`: a leaf that was reached, and the bytes that this puts over the old ones;
* `Trace`, `Trace.andThen`, `Trace.within`: the visits and the outcome; one trace after another, and
  the trace of a child as part of that of the composite;
* `Layout.trace`, `Fields.trace`: the trace of a value;
* `Trace.Every`, `Layout.every_trace`: properties of all visits;
* `Trace.Fills`, `Layout.fills_trace`: the leaves visited are the first ones of the layout, and all
  of them if encoding succeeds;
* `Layout.encode_eq_trace`: encoding puts the patch of the trace over the region and ends as the
  trace does.
-/

namespace FixedLayout

/-- A leaf that encoding has come past, with the value that was written to it, if any. -/
structure Visit where
  leaf : Leaf
  value : Option Value

namespace Visit

/-- A visit inside a child as a visit inside the composite. -/
def within (frame : Frame) (offset : Int) (x : Visit) : Visit :=
  ⟨x.leaf.within frame offset, x.value⟩

/-- The bytes that a visit writes: those of the value, or none for each byte that stays. -/
def patch (x : Visit) : List (Option UInt8) :=
  match x.value.bind fun v => (x.leaf.layout.pack v).toOption with
  | some content => content.map some
  | none => List.replicate x.leaf.layout.size.toNat none

/-- A value that the leaf takes is written. -/
theorem patch_of_pack {leaf : Leaf} {v : Value} {content : Bytes}
    (h : leaf.layout.pack v = .ok content) : (Visit.mk leaf (some v)).patch = content.map some := by
  simp only [patch, Option.bind_some, h]
  rfl

/-- A leaf that is passed over keeps its bytes. -/
theorem patch_of_none (leaf : Leaf) :
    (Visit.mk leaf none).patch = List.replicate leaf.layout.size.toNat none := rfl

end Visit

/-- What encoding a value does: the leaves that it comes past, and how it ends. -/
structure Trace where
  visits : List Visit
  outcome : Except EncodeFault Unit

namespace Trace

/-- The bytes that a trace writes, from the first leaf on. -/
def patch (t : Trace) : List (Option UInt8) := t.visits.flatMap Visit.patch

/-- The trace of a value that is rejected at once. -/
def fail (fault : EncodeFault) : Trace := ⟨[], .error fault⟩

/-- The trace of a value at a leaf. -/
def write (l : Layout) (v : Value) : Trace :=
  match l.pack v with
  | .ok _ => ⟨[⟨⟨l, 0, []⟩, some v⟩], .ok ()⟩
  | .error fault => fail fault

/-- The trace that passes over leaves. -/
def skip (leaves : List Leaf) : Trace := ⟨leaves.map fun leaf => ⟨leaf, none⟩, .ok ()⟩

/-- One trace after another, unless the first one fails. -/
def andThen (t next : Trace) : Trace :=
  match t.outcome with
  | .ok () => ⟨t.visits ++ next.visits, next.outcome⟩
  | .error fault => ⟨t.visits, .error fault⟩

/-- The trace of a child as part of that of the composite. -/
def within (node : EncodeError → EncodeError) (frame : Frame) (offset : Int) (t : Trace) : Trace :=
  ⟨t.visits.map (·.within frame offset), t.outcome.mapError (·.wrap node)⟩

end Trace

/-- The trace of values as the elements of an array from an index on, of which `n` are left. Where
there are too few values, the other elements are passed over. -/
def traceRun (trace : Value → Trace) (leaves : List Leaf) (typeName : String) (size : Int) :
    Nat → Nat → List Value → Trace
  | _, 0, _ => .skip []
  | index, n + 1, [] => .skip (leavesOfRun leaves (.entry typeName) size index (n + 1))
  | index, n + 1, v :: items =>
    ((trace v).within (.inElement index typeName) (.entry typeName index) (index * size)).andThen
      (traceRun trace leaves typeName size (index + 1) n items)

mutual

/-- The trace of a value. -/
def Layout.trace : Layout → Value → Trace
  | .composite form fields, v =>
    let typeName := (Layout.composite form fields).typeName
    match form.split typeName fields.names v with
    | .error e => .fail (.rejected e)
    | .ok values => fields.trace typeName (form.frame typeName) 0 0 values
  | .array element length, v =>
    let typeName := (Layout.array element length).typeName
    match arrayElements typeName length v with
    | .error fault => .fail fault
    | .ok items => traceRun element.trace element.leaves typeName element.size 0 length.toNat items
  | l, v => .write l v

/-- The trace of values as the fields from a given index and offset on. -/
def Fields.trace (typeName : String) (frame : String → Nat → Frame) :
    Fields → Nat → Int → List Value → Trace
  | .nil, _, _, _ => .skip []
  | .cons name accessor layout rest, index, start, [] =>
    .skip ((Fields.cons name accessor layout rest).leaves frame index start)
  | .cons name _ layout rest, index, start, v :: values =>
    ((layout.trace v).within (.inField name typeName) (frame name index) start).andThen
      (rest.trace typeName frame (index + 1) (start + layout.size) values)

end

section Composites

variable {form : Form} {fields : Fields} {element : Layout} {n : Int} {v : Value}

/-- A composite goes through its fields. -/
theorem Layout.trace_composite {values : List Value}
    (h : form.split (Layout.composite form fields).typeName fields.names v = .ok values) :
    (Layout.composite form fields).trace v =
      fields.trace (Layout.composite form fields).typeName
        (form.frame (Layout.composite form fields).typeName) 0 0 values := by
  rw [trace]
  simp only [h]

theorem Layout.trace_composite_of_error {e : EncodeError}
    (h : form.split (Layout.composite form fields).typeName fields.names v = .error e) :
    (Layout.composite form fields).trace v = .fail (.rejected e) := by
  rw [trace]
  simp only [h]

/-- An array goes through its elements. -/
theorem Layout.trace_array {items : List Value}
    (h : arrayElements (Layout.array element n).typeName n v = .ok items) :
    (Layout.array element n).trace v =
      traceRun element.trace element.leaves (Layout.array element n).typeName element.size 0 n.toNat
        items := by
  rw [trace]
  simp only [h]

theorem Layout.trace_array_of_error {fault : EncodeFault}
    (h : arrayElements (Layout.array element n).typeName n v = .error fault) :
    (Layout.array element n).trace v = .fail fault := by
  rw [trace]
  simp only [h]

/-- A list of the right length gives an array its items. -/
theorem arrayElements_list (typeName : String) {items : List Value} (h : (items.length : Int) = n) :
    arrayElements typeName n (.list items) = .ok items := by
  simp [arrayElements, Value.extent, Value.items, h]

end Composites

/-! ### The parts of a trace -/

namespace Trace

variable {t : Trace}

theorem outcome_within_of_ok (h : t.outcome = .ok ()) (node : EncodeError → EncodeError)
    (frame : Frame) (offset : Int) : (t.within node frame offset).outcome = .ok () := by
  rw [within, h]
  rfl

theorem outcome_within_of_error {fault : EncodeFault} (h : t.outcome = .error fault)
    (node : EncodeError → EncodeError) (frame : Frame) (offset : Int) :
    (t.within node frame offset).outcome = .error (fault.wrap node) := by
  rw [within, h]
  rfl

theorem leaves_within (node : EncodeError → EncodeError) (frame : Frame) (offset : Int)
    (t : Trace) : (t.within node frame offset).visits.map (·.leaf) =
      (t.visits.map (·.leaf)).map (·.within frame offset) := by
  rw [within, List.map_map, List.map_map]
  rfl

theorem visits_andThen_of_ok (h : t.outcome = .ok ()) (tail : Trace) :
    (t.andThen tail).visits = t.visits ++ tail.visits := by
  unfold andThen
  rw [h]

theorem outcome_andThen_of_ok (h : t.outcome = .ok ()) (tail : Trace) :
    (t.andThen tail).outcome = tail.outcome := by
  unfold andThen
  rw [h]

theorem patch_andThen_of_ok (h : t.outcome = .ok ()) (tail : Trace) :
    (t.andThen tail).patch = t.patch ++ tail.patch := by
  unfold patch
  rw [visits_andThen_of_ok h, List.flatMap_append]

theorem visits_andThen_of_error {fault : EncodeFault} (h : t.outcome = .error fault)
    (tail : Trace) : (t.andThen tail).visits = t.visits := by
  unfold andThen
  rw [h]

theorem patch_andThen_of_error {fault : EncodeFault} (h : t.outcome = .error fault)
    (tail : Trace) : (t.andThen tail).patch = t.patch := by
  unfold patch
  rw [visits_andThen_of_error h]

theorem outcome_andThen_of_error {fault : EncodeFault} (h : t.outcome = .error fault)
    (tail : Trace) : (t.andThen tail).outcome = .error fault := by
  unfold andThen
  rw [h]

end Trace

/-! ### The leaves of a trace -/

namespace Trace

/-- The leaves visited are the first ones of given leaves, and all of them on success. -/
structure Fills (t : Trace) (leaves : List Leaf) : Prop where
  isPrefix : t.visits.map (·.leaf) <+: leaves
  complete : t.outcome = .ok () → t.visits.map (·.leaf) = leaves

theorem fills_fail (fault : EncodeFault) (leaves : List Leaf) : (fail fault).Fills leaves := by
  refine ⟨?_, nofun⟩
  exact List.nil_prefix

theorem fills_write (l : Layout) (v : Value) : (write l v).Fills [⟨l, 0, []⟩] := by
  unfold write
  cases l.pack v with
  | ok content => exact ⟨List.prefix_rfl, fun _ => rfl⟩
  | error fault => exact fills_fail fault _

theorem fills_skip (leaves : List Leaf) : (skip leaves).Fills leaves := by
  have hleaves : (skip leaves).visits.map (·.leaf) = leaves := by
    rw [skip, List.map_map]
    exact List.map_id leaves
  exact ⟨⟨[], by rw [List.append_nil, hleaves]⟩, fun _ => hleaves⟩

theorem Fills.andThen {t next : Trace} {xs ys : List Leaf} (ht : t.Fills xs) (hn : next.Fills ys) :
    (t.andThen next).Fills (xs ++ ys) := by
  obtain ⟨visits, fault | u⟩ := t
  · exact ⟨ht.isPrefix.trans (List.prefix_append xs ys), nofun⟩
  · have hvisits : visits.map (·.leaf) = xs := ht.complete rfl
    unfold Trace.andThen
    refine ⟨?_, fun h => ?_⟩
    · rw [List.map_append, hvisits]
      exact List.prefix_append_right_inj xs |>.2 hn.isPrefix
    · rw [List.map_append, hvisits, hn.complete h]

theorem Fills.within {t : Trace} {leaves : List Leaf} (h : t.Fills leaves)
    (node : EncodeError → EncodeError) (frame : Frame) (offset : Int) :
    (t.within node frame offset).Fills (leaves.map (·.within frame offset)) := by
  constructor
  · rw [leaves_within]
    exact h.isPrefix.map _
  · intro hok
    cases ho : t.outcome with
    | ok u => rw [leaves_within, h.complete ho]
    | error fault =>
      rw [outcome_within_of_error ho] at hok
      cases hok

end Trace

theorem fills_traceRun {trace : Value → Trace} {leaves : List Leaf}
    (h : ∀ v, (trace v).Fills leaves) (typeName : String) (size : Int) (index n : Nat)
    (items : List Value) :
    (traceRun trace leaves typeName size index n items).Fills
      (leavesOfRun leaves (.entry typeName) size index n) := by
  induction n generalizing index items with
  | zero => exact Trace.fills_skip []
  | succ n ih =>
    cases items with
    | nil => exact Trace.fills_skip _
    | cons v items => exact ((h v).within _ _ _).andThen (ih (index + 1) items)

mutual

/-- Encoding comes past the leaves of a layout in order. -/
theorem Layout.fills_trace : ∀ (l : Layout) (v : Value), (l.trace v).Fills l.leaves
  | .int _, v => Trace.fills_write _ v
  | .bytes _, v => Trace.fills_write _ v
  | .unit _ _, v => Trace.fills_write _ v
  | .enumeration _, v => Trace.fills_write _ v
  | .composite form fields, v => by
    unfold Layout.trace
    simp only
    split
    · exact Trace.fills_fail _ _
    · exact fields.fills_trace _ _ 0 0 _
  | .array element n, v => by
    unfold Layout.trace
    simp only
    split
    · exact Trace.fills_fail _ _
    · exact fills_traceRun element.fills_trace _ _ 0 _ _

theorem Fields.fills_trace : ∀ (fs : Fields) (typeName : String) (frame : String → Nat → Frame)
    (index : Nat) (start : Int) (values : List Value),
      (fs.trace typeName frame index start values).Fills (fs.leaves frame index start)
  | .nil, _, _, _, _, _ => Trace.fills_skip []
  | .cons _ _ _ _, _, _, _, _, [] => Trace.fills_skip _
  | .cons _ _ layout rest, _, _, _, _, v :: values =>
    ((layout.fills_trace v).within _ _ _).andThen (rest.fills_trace _ _ _ _ values)

end

/-! ### Properties of all visits -/

section Visits

variable {P : Visit → Prop}

/-- A property of visits holds of a trace if it holds of each. -/
def Trace.Every (P : Visit → Prop) (t : Trace) : Prop := ∀ x ∈ t.visits, P x

namespace Trace

theorem every_fail (fault : EncodeFault) : (fail fault).Every P :=
  fun _ hx => absurd hx List.not_mem_nil

theorem every_skip {leaves : List Leaf} (h : ∀ leaf ∈ leaves, P ⟨leaf, none⟩) :
    (skip leaves).Every P := by
  intro x hx
  obtain ⟨leaf, hleaf, rfl⟩ := List.mem_map.1 hx
  exact h leaf hleaf

theorem every_write {l : Layout} {v : Value}
    (h : ∀ content, l.pack v = .ok content → P ⟨⟨l, 0, []⟩, some v⟩) : (write l v).Every P := by
  unfold write
  cases hpack : l.pack v with
  | ok content => exact List.forall_mem_singleton.2 (h content hpack)
  | error fault => exact every_fail fault

theorem Every.andThen {t tail : Trace} (ht : t.Every P) (htail : tail.Every P) :
    (t.andThen tail).Every P := by
  unfold Trace.andThen
  split
  · intro x hx
    rcases List.mem_append.1 hx with hx | hx
    · exact ht x hx
    · exact htail x hx
  · exact ht

theorem Every.within {t : Trace} (ht : t.Every P)
    (hwithin : ∀ x frame offset, P x → P (x.within frame offset)) (node : EncodeError → EncodeError)
    (frame : Frame) (offset : Int) : (t.within node frame offset).Every P := by
  intro x hx
  obtain ⟨y, hy, rfl⟩ := List.mem_map.1 hx
  exact hwithin y frame offset (ht y hy)

end Trace

theorem every_traceRun {trace : Value → Trace} (h : ∀ v, (trace v).Every P)
    (hwithin : ∀ x frame offset, P x → P (x.within frame offset)) {leaves : List Leaf}
    (hskip : ∀ leaf ∈ leaves, P ⟨leaf, none⟩) (typeName : String) (size : Int) (index n : Nat)
    (items : List Value) : (traceRun trace leaves typeName size index n items).Every P := by
  induction n generalizing index items with
  | zero => exact Trace.every_skip fun _ hleaf => absurd hleaf List.not_mem_nil
  | succ n ih =>
    cases items with
    | nil =>
      refine Trace.every_skip (forall_mem_leavesOfRun (P := fun leaf => P ⟨leaf, none⟩) ?_ _ _)
      exact fun leaf hleaf i => hwithin ⟨leaf, none⟩ _ _ (hskip leaf hleaf)
    | cons v items => exact ((h v).within hwithin _ _ _).andThen (ih (index + 1) items)

mutual

/-- A property of the visits of single leaves that is kept on the way up holds of all visits. -/
theorem Layout.every_trace
    (hwrite : ∀ (l : Layout) v content, l.IsLeaf → l.pack v = .ok content → P ⟨⟨l, 0, []⟩, some v⟩)
    (hskip : ∀ l : Layout, l.IsLeaf → P ⟨⟨l, 0, []⟩, none⟩)
    (hwithin : ∀ x frame offset, P x → P (x.within frame offset)) :
    ∀ (l : Layout) (v : Value), (l.trace v).Every P
  | .int _, v => Trace.every_write fun content h => hwrite _ v content trivial h
  | .bytes _, v => Trace.every_write fun content h => hwrite _ v content trivial h
  | .unit _ _, v => Trace.every_write fun content h => hwrite _ v content trivial h
  | .enumeration _, v => Trace.every_write fun content h => hwrite _ v content trivial h
  | .composite form fields, v => by
    unfold Layout.trace
    simp only
    split
    · exact Trace.every_fail _
    · exact fields.every_trace hwrite hskip hwithin _ _ 0 0 _
  | .array element n, v => by
    unfold Layout.trace
    simp only
    split
    · exact Trace.every_fail _
    · refine every_traceRun (element.every_trace hwrite hskip hwithin) hwithin ?_ _ _ 0 _ _
      exact Layout.forall_mem_leaves (P := fun leaf => P ⟨leaf, none⟩) hskip
        (fun leaf frame offset => hwithin ⟨leaf, none⟩ frame offset) element

theorem Fields.every_trace
    (hwrite : ∀ (l : Layout) v content, l.IsLeaf → l.pack v = .ok content → P ⟨⟨l, 0, []⟩, some v⟩)
    (hskip : ∀ l : Layout, l.IsLeaf → P ⟨⟨l, 0, []⟩, none⟩)
    (hwithin : ∀ x frame offset, P x → P (x.within frame offset)) :
    ∀ (fs : Fields) (typeName : String) (frame : String → Nat → Frame) (index : Nat) (start : Int)
      (values : List Value), (fs.trace typeName frame index start values).Every P
  | .nil, _, _, _, _, _ => Trace.every_skip fun _ hleaf => absurd hleaf List.not_mem_nil
  | .cons _ _ _ _, _, _, _, _, [] => by
    refine Trace.every_skip
      (Fields.forall_mem_leaves (P := fun leaf => P ⟨leaf, none⟩) hskip ?_ _ _ _ _)
    exact fun leaf frame offset => hwithin ⟨leaf, none⟩ frame offset
  | .cons _ _ layout rest, _, _, _, _, v :: values =>
    ((layout.every_trace hwrite hskip hwithin v).within hwithin _ _ _).andThen
      (rest.every_trace hwrite hskip hwithin _ _ _ _ values)

end

end Visits

/-! ### Single leaves -/

namespace Writer

/-- A writer that fills every region of `n` bytes with the same content, or leaves every one. -/
def Whole (n : Int) (w : Writer) : Prop :=
  (∃ content : Bytes, (content.length : Int) = n ∧
    ∀ region : Bytes, (region.length : Int) = n → w region = (.ok (), content)) ∨
  ∃ fault, ∀ region : Bytes, (region.length : Int) = n → w region = (.error fault, region)

theorem whole_put {content : Bytes} {n : Int} (h : (content.length : Int) = n) :
    (put content).Whole n :=
  Or.inl ⟨content, h, fun _ hr => put_apply (Int.ofNat.inj (hr.trans h.symm))⟩

theorem whole_fail (fault : EncodeFault) (n : Int) : (fail fault).Whole n :=
  Or.inr ⟨fault, fun _ _ => rfl⟩

end Writer

theorem IntRepr.whole_encode (r : IntRepr) (v : Value) : (r.encode v).Whole r.width := by
  unfold IntRepr.encode
  split
  · exact Writer.whole_fail _ _
  · next n _ =>
    split
    · exact Writer.whole_put (by rw [r.length_toBytes])
    · exact Writer.whole_fail _ _

/-- Bytes are written if there are as many as the region has. -/
theorem whole_encodeBytes (typeName : String) (v : Value) (n : Int) :
    (encodeBytes typeName v).Whole n := by
  unfold encodeBytes
  split
  · exact Writer.whole_fail _ _
  · next content _ =>
    by_cases h : (content.length : Int) = n
    · refine Or.inl ⟨content, h, fun region hr => ?_⟩
      exact if_pos (Int.ofNat.inj (h.trans hr.symm))
    · refine Or.inr ⟨.rejected (.byteCount typeName n.toNat content.length), fun region hr => ?_⟩
      have hn : n.toNat = region.length := by omega
      rw [hn]
      exact if_neg fun heq => h (by omega)

theorem Enumeration.whole_encode (e : Enumeration) (v : Value) :
    (e.encode v).Whole e.repr.width := by
  unfold Enumeration.encode
  simp only
  split
  · split
    · split
      · exact Writer.whole_put (by rw [e.repr.length_toBytes])
      · exact Writer.whole_fail _ _
    · exact Writer.whole_fail _ _
  · exact Writer.whole_fail _ _

/-- A leaf is written as a whole, or not at all. -/
theorem Layout.whole_encode {l : Layout} (hl : l.IsLeaf) (v : Value) :
    (l.encode v).Whole l.size := by
  cases l with
  | int r => exact r.whole_encode v
  | bytes n => exact whole_encodeBytes _ v n
  | unit cls literal => exact Writer.whole_put rfl
  | enumeration e => exact e.whole_encode v
  | composite form fields => exact hl.elim
  | array element n => exact hl.elim

theorem Layout.length_zeros {l : Layout} (h : 0 ≤ l.size) :
    ((Bytes.zeros l.size.toNat).length : Int) = l.size := by
  rw [Bytes.length_zeros]
  omega

/-- A value is packed into a region of zeros. -/
theorem Layout.pack_eq {l : Layout} (h : 0 ≤ l.size) (v : Value) :
    l.pack v = (l.encode v (Bytes.zeros l.size.toNat)).1.map fun _ =>
      (l.encode v (Bytes.zeros l.size.toNat)).2 :=
  if_neg (by omega)

/-- What a leaf's writer leaves in a region is what the value is packed into. -/
theorem Layout.encode_of_isLeaf {l : Layout} (hl : l.IsLeaf) (hn : 0 ≤ l.size) (v : Value) :
    (∃ content : Bytes, (content.length : Int) = l.size ∧ l.pack v = .ok content ∧
      ∀ region : Bytes, (region.length : Int) = l.size → l.encode v region = (.ok (), content)) ∨
    ∃ fault, l.pack v = .error fault ∧
      ∀ region : Bytes, (region.length : Int) = l.size →
        l.encode v region = (.error fault, region) := by
  have hpack := Layout.pack_eq hn v
  rcases Layout.whole_encode hl v with ⟨content, hc, hw⟩ | ⟨fault, hw⟩
  · refine Or.inl ⟨content, hc, ?_, hw⟩
    rw [hpack, hw _ (Layout.length_zeros hn)]
    rfl
  · refine Or.inr ⟨fault, ?_, hw⟩
    rw [hpack, hw _ (Layout.length_zeros hn)]
    rfl

/-- The trace of a leaf says what its writer does. -/
theorem Layout.encode_eq_write {l : Layout} (hl : l.IsLeaf) (hn : 0 ≤ l.size) (v : Value)
    {region : Bytes} (h : (region.length : Int) = l.size) :
    l.encode v region =
      ((Trace.write l v).outcome, Bytes.overlay (Trace.write l v).patch region) := by
  rcases Layout.encode_of_isLeaf hl hn v with ⟨content, hc, hpack, hw⟩ | ⟨fault, hpack, hw⟩
  · have hpatch : (Trace.write l v).patch = content.map some := by
      unfold Trace.write Trace.patch
      rw [hpack]
      exact (List.append_nil _).trans (Visit.patch_of_pack hpack)
    rw [hw region h, hpatch, Bytes.overlay_map_some (Int.ofNat.inj (hc.trans h.symm))]
    unfold Trace.write
    rw [hpack]
  · rw [hw region h]
    unfold Trace.write
    rw [hpack]
    rfl

/-! ### Patches -/

namespace Trace

@[simp] theorem patch_within (node : EncodeError → EncodeError) (frame : Frame) (offset : Int)
    (t : Trace) : (t.within node frame offset).patch = t.patch := by
  unfold patch within
  rw [List.flatMap_map]
  rfl

end Trace

/-- A visit has a byte or a gap for every byte of its leaf. -/
theorem Visit.length_patch {x : Visit} (hleaf : x.leaf.layout.IsLeaf) (h : 0 ≤ x.leaf.layout.size) :
    (x.patch.length : Int) = x.leaf.layout.size := by
  unfold Visit.patch
  split
  · next content hcontent =>
    obtain ⟨v, -, hv⟩ := Option.bind_eq_some_iff.1 hcontent
    rcases Layout.encode_of_isLeaf hleaf h v with ⟨packed, hlen, hpack, -⟩ | ⟨fault, hpack, -⟩
    · rw [hpack] at hv
      cases hv
      rw [List.length_map, hlen]
    · rw [hpack] at hv
      cases hv
  · rw [List.length_replicate]
    omega

/-- The patch of visits is as long as the part of the layout that they tile. -/
theorem length_patch_of_tiles {lo hi : Int} {visits : List Visit}
    (h : Tiles lo hi (visits.map (·.leaf))) (hleaf : ∀ x ∈ visits, x.leaf.layout.IsLeaf) :
    ((visits.flatMap Visit.patch).length : Int) = hi - lo := by
  refine h.length_flatMap fun x hx => Visit.length_patch (hleaf x hx) ?_
  exact h.size_nonneg (List.mem_map_of_mem hx)

namespace Trace

variable {t : Trace} {leaves : List Leaf} {lo hi : Int}

/-- A trace writes no more than the leaves that it fills. -/
theorem Fills.length_patch_le (h : t.Fills leaves) (ht : Tiles lo hi leaves)
    (hleaf : ∀ leaf ∈ leaves, leaf.layout.IsLeaf) : (t.patch.length : Int) ≤ hi - lo := by
  obtain ⟨rest, rfl⟩ := h.isPrefix
  obtain ⟨mid, hfirst, hrest⟩ := ht.split
  have hlen := length_patch_of_tiles hfirst fun x hx =>
    hleaf x.leaf (List.mem_append_left rest (List.mem_map_of_mem hx))
  have hle := hrest.le
  unfold patch
  omega

/-- A trace that succeeds writes, or passes over, all of the leaves. -/
theorem Fills.length_patch (h : t.Fills leaves) (ht : Tiles lo hi leaves)
    (hleaf : ∀ leaf ∈ leaves, leaf.layout.IsLeaf) (hok : t.outcome = .ok ()) :
    (t.patch.length : Int) = hi - lo := by
  have hleaves := h.complete hok
  exact length_patch_of_tiles (hleaves ▸ ht) fun x hx =>
    hleaf x.leaf (hleaves ▸ List.mem_map_of_mem hx)

/-- Leaves that are passed over stay as they are. -/
theorem overlay_skip (leaves : List Leaf) (xs : Bytes) :
    Bytes.overlay (skip leaves).patch xs = xs := by
  refine Bytes.overlay_eq_self (fun b hb => ?_) xs
  obtain ⟨x, hx, hb⟩ := List.mem_flatMap.1 hb
  obtain ⟨leaf, -, rfl⟩ := List.mem_map.1 hx
  exact List.eq_of_mem_replicate hb

end Trace

section Length

variable {l : Layout} (hl : l.LengthsNonneg) (v : Value)

include hl

theorem Layout.length_patch_le : ((l.trace v).patch.length : Int) ≤ l.size := by
  have h := (l.fills_trace v).length_patch_le (l.tiles_leaves hl)
    fun _ => Layout.isLeaf_of_mem_leaves
  rwa [Int.sub_zero] at h

theorem Layout.length_patch (hok : (l.trace v).outcome = .ok ()) :
    ((l.trace v).patch.length : Int) = l.size := by
  have h := (l.fills_trace v).length_patch (l.tiles_leaves hl)
    (fun _ => Layout.isLeaf_of_mem_leaves) hok
  rwa [Int.sub_zero] at h

end Length

/-! ### Encoding -/

/-- A writer of regions of `n` bytes that does what a trace says. -/
structure Writer.Follows (w : Writer) (t : Trace) (n : Int) : Prop where
  apply : ∀ region : Bytes, (region.length : Int) = n →
    w region = (t.outcome, Bytes.overlay t.patch region)
  length_le : (t.patch.length : Int) ≤ n
  length_eq : t.outcome = .ok () → (t.patch.length : Int) = n

namespace Writer

variable {w next : Writer} {r : Except EncodeFault Unit} {region after : Bytes}

theorem wrap_apply (node : EncodeError → EncodeError) (h : w region = (r, after)) :
    wrap node w region = (r.mapError (·.wrap node), after) := by
  show ((w region).1.mapError _, (w region).2) = _
  rw [h]

theorem andThen_of_ok (h : w region = (.ok (), after)) : w.andThen next region = next after := by
  simp only [andThen, ofFn, h]

theorem andThen_of_error {fault : EncodeFault} (h : w region = (.error fault, after)) :
    w.andThen next region = (.error fault, after) := by
  simp only [andThen, ofFn, h]

/-- Writing a part of the region leaves what is before and after that part. -/
theorem within_apply {n start : Int} {pre rest piece : Bytes} (h0 : start = pre.length) (h1 : 0 ≤ n)
    (h2 : n ≤ rest.length) (h : w (rest.take n.toNat) = (r, piece))
    (hpiece : piece.length = (rest.take n.toNat).length) :
    within start (start + n) w (pre ++ rest) = (r, pre ++ piece ++ rest.drop n.toNat) := by
  have hcut : pre ++ rest.take n.toNat ++ rest.drop n.toNat = pre ++ rest := by
    rw [List.append_assoc, List.take_append_drop]
  have hbound : Bytes.bound (pre ++ rest).length start = pre.length := by
    rw [h0, Bytes.bound_natCast (by rw [List.length_append]; omega)]
  have hmid : Bytes.overwrite (pre ++ rest.take n.toNat ++ rest.drop n.toNat) pre.length piece =
      pre ++ piece ++ rest.drop n.toNat := Bytes.overwrite_mid rfl hpiece
  rw [hcut] at hmid
  show ((w _).1, Bytes.overwrite (pre ++ rest) _ (w _).2) = _
  rw [Bytes.slice_append_take h0 h1 h2, h, hbound, hmid]

/-- A child is written into its part of the region, and what follows it into the rest. -/
theorem Follows.andThen {t tail : Trace} {n start : Int} {pre rest : Bytes}
    (hw : w.Follows t n) (h0 : start = pre.length) (h1 : 0 ≤ n) (h2 : n ≤ rest.length)
    (hnext : ∀ piece : Bytes, (piece.length : Int) = n →
      next (pre ++ piece ++ rest.drop n.toNat) =
        (tail.outcome, pre ++ piece ++ Bytes.overlay tail.patch (rest.drop n.toNat)))
    (node : EncodeError → EncodeError) (frame : Frame) :
    ((wrap node (within start (start + n) w)).andThen next) (pre ++ rest) =
      (((t.within node frame start).andThen tail).outcome,
        pre ++ Bytes.overlay ((t.within node frame start).andThen tail).patch rest) := by
  have htake : ((rest.take n.toNat).length : Int) = n := by
    rw [List.length_take]
    omega
  have hchild := wrap_apply node (within_apply h0 h1 h2 (hw.apply _ htake)
    (Bytes.length_overlay t.patch (rest.take n.toNat)))
  cases ho : t.outcome with
  | error fault =>
    -- what the child has written before it failed is all that is written
    have hle := hw.length_le
    have hfault := Trace.outcome_within_of_error ho node frame start
    rw [ho] at hchild
    rw [andThen_of_error hchild, Trace.outcome_andThen_of_error hfault,
      Trace.patch_andThen_of_error hfault, Trace.patch_within, List.append_assoc,
      Bytes.overlay_take_append_drop (by omega)]
  | ok u =>
    have hok := Trace.outcome_within_of_ok ho node frame start
    have hlen : t.patch.length = (rest.take n.toNat).length := by
      have heq := hw.length_eq ho
      omega
    have hpiece : ((Bytes.overlay t.patch (rest.take n.toNat)).length : Int) = n := by
      rw [Bytes.length_overlay, htake]
    have hsplit : Bytes.overlay (t.patch ++ tail.patch) (rest.take n.toNat ++ rest.drop n.toNat) =
        Bytes.overlay t.patch (rest.take n.toNat) ++ Bytes.overlay tail.patch (rest.drop n.toNat) :=
      Bytes.overlay_append hlen
    rw [List.take_append_drop] at hsplit
    rw [ho] at hchild
    rw [andThen_of_ok hchild, hnext _ hpiece, Trace.outcome_andThen_of_ok hok,
      Trace.patch_andThen_of_ok hok, Trace.patch_within, hsplit, List.append_assoc]

end Writer

theorem Layout.follows_of_isLeaf {l : Layout} (hl : l.LengthsNonneg) (hleaf : l.IsLeaf)
    (htrace : ∀ v, l.trace v = .write l v) (v : Value) :
    (l.encode v).Follows (l.trace v) l.size := by
  refine ⟨fun region h => ?_, l.length_patch_le hl v, l.length_patch hl v⟩
  rw [htrace]
  exact Layout.encode_eq_write hleaf (l.size_nonneg hl) v h

/-- The elements of an array are written one after another. -/
theorem encodeRun_eq {encode : Value → Writer} {trace : Value → Trace} {size : Int}
    (h : ∀ v, (encode v).Follows (trace v) size) (hsize : 0 ≤ size) (leaves : List Leaf)
    (typeName : String) (index n : Nat) (items : List Value) (pre rest : Bytes)
    (h0 : (index : Int) * size = pre.length) (h1 : n * size ≤ rest.length) :
    encodeRun encode typeName size index (items.take n) (pre ++ rest) =
      ((traceRun trace leaves typeName size index n items).outcome,
        pre ++ Bytes.overlay (traceRun trace leaves typeName size index n items).patch rest) := by
  -- what has been written so far is `pre`, and the next element starts where it ends
  induction n generalizing index items pre rest with
  | zero =>
    rw [List.take_zero, traceRun, Trace.overlay_skip]
    rfl
  | succ n ih =>
    cases items with
    | nil =>
      rw [List.take_nil, traceRun, Trace.overlay_skip]
      rfl
    | cons v items =>
      have hn : 0 ≤ (n : Int) * size := Int.mul_nonneg (Int.natCast_nonneg n) hsize
      have hstop := offset_succ index size
      have hroom : ((n + 1 : Nat) : Int) * size = n * size + size := offset_succ n size
      rw [List.take_succ_cons, encodeRun, traceRun, hstop]
      refine (h v).andThen h0 hsize (by omega) (fun piece hpiece => ?_) _ _
      refine ih (index + 1) items (pre ++ piece) (rest.drop size.toNat) ?_ ?_
      · rw [Int.natCast_add, Int.natCast_one, hstop, List.length_append]
        omega
      · rw [List.length_drop]
        omega

section Parts

variable (v : Value) {region : Bytes}

/-- A composite writes what its trace says if its fields do, whatever the values. -/
theorem Layout.encode_composite_eq {form : Form} {fields : Fields}
    (h : ∀ values, fields.encode (Layout.composite form fields).typeName 0 values region =
      ((fields.trace (Layout.composite form fields).typeName
          (form.frame (Layout.composite form fields).typeName) 0 0 values).outcome,
        Bytes.overlay (fields.trace (Layout.composite form fields).typeName
          (form.frame (Layout.composite form fields).typeName) 0 0 values).patch region)) :
    (Layout.composite form fields).encode v region =
      (((Layout.composite form fields).trace v).outcome,
        Bytes.overlay ((Layout.composite form fields).trace v).patch region) := by
  unfold Layout.encode Layout.trace
  simp only
  cases form.split (Layout.composite form fields).typeName fields.names v with
  | error e => rfl
  | ok values => exact h values

/-- An array writes what its trace says if its elements do, whatever the items. -/
theorem Layout.encode_array_eq {element : Layout} {n : Int}
    (h : ∀ items : List Value, encodeRun element.encode (Layout.array element n).typeName
        element.size 0 (items.take n.toNat) region =
      ((traceRun element.trace element.leaves (Layout.array element n).typeName element.size 0
          n.toNat items).outcome,
        Bytes.overlay (traceRun element.trace element.leaves (Layout.array element n).typeName
          element.size 0 n.toNat items).patch region)) :
    (Layout.array element n).encode v region =
      (((Layout.array element n).trace v).outcome,
        Bytes.overlay ((Layout.array element n).trace v).patch region) := by
  unfold Layout.encode Layout.trace
  simp only
  cases arrayElements (Layout.array element n).typeName n v with
  | error fault => rfl
  | ok items => exact h items

end Parts

mutual

/-- Encoding a value writes what its trace says. -/
theorem Layout.follows_trace : ∀ l : Layout, l.LengthsNonneg → ∀ v : Value,
    (l.encode v).Follows (l.trace v) l.size
  | .int r, hl, v => Layout.follows_of_isLeaf hl trivial (fun _ => rfl) v
  | .bytes n, hl, v => Layout.follows_of_isLeaf hl trivial (fun _ => rfl) v
  | .unit cls literal, hl, v => Layout.follows_of_isLeaf hl trivial (fun _ => rfl) v
  | .enumeration e, hl, v => Layout.follows_of_isLeaf hl trivial (fun _ => rfl) v
  | .composite form fields, hl, v => by
    refine ⟨fun region h => ?_, Layout.length_patch_le hl v, Layout.length_patch hl v⟩
    exact Layout.encode_composite_eq v fun values =>
      fields.encode_eq_trace hl _ _ 0 0 values [] region rfl (Int.le_of_eq h.symm)
  | .array element n, hl, v => by
    have ⟨he, hn⟩ := hl
    refine ⟨fun region h => ?_, Layout.length_patch_le hl v, Layout.length_patch hl v⟩
    rw [Layout.size_array element hn] at h
    exact Layout.encode_array_eq v fun items =>
      encodeRun_eq (element.follows_trace he) (element.size_nonneg he) _ _ 0 _ items []
        region (Int.zero_mul _) (Int.le_of_eq h.symm)

theorem Fields.encode_eq_trace : ∀ fs : Fields, fs.LengthsNonneg →
    ∀ (typeName : String) (frame : String → Nat → Frame) (index : Nat) (start : Int)
      (values : List Value) (pre rest : Bytes), start = pre.length → fs.size ≤ rest.length →
        fs.encode typeName start values (pre ++ rest) =
          ((fs.trace typeName frame index start values).outcome,
            pre ++ Bytes.overlay (fs.trace typeName frame index start values).patch rest)
  | .nil, _, _, _, _, _, _, _, _, _, _ => by
    unfold Fields.encode Fields.trace
    rw [Trace.overlay_skip]
    rfl
  | .cons _ _ _ _, _, _, _, _, _, [], _, _, _, _ => by
    unfold Fields.encode Fields.trace
    rw [Trace.overlay_skip]
    rfl
  | .cons name _ layout rest, ⟨hl, hr⟩, typeName, frame, index, start, v :: values, pre, room, h0,
      h1 => by
    have hsize := layout.size_nonneg hl
    have hrest := rest.size_nonneg hr
    rw [Fields.size] at h1
    unfold Fields.encode Fields.trace
    refine (layout.follows_trace hl v).andThen h0 hsize (by omega) (fun piece hpiece => ?_) _ _
    refine rest.encode_eq_trace hr typeName frame (index + 1) _ values (pre ++ piece) _ ?_ ?_
    · rw [List.length_append]
      omega
    · rw [List.length_drop]
      omega

end

/-- Encoding a value writes the patch of its trace, and ends as the trace does. -/
theorem Layout.encode_eq_trace {l : Layout} (hl : l.LengthsNonneg) (v : Value) {region : Bytes}
    (h : (region.length : Int) = l.size) :
    l.encode v region = ((l.trace v).outcome, Bytes.overlay (l.trace v).patch region) :=
  (l.follows_trace hl v).apply region h

/-- The bytes of a value are the patch of its trace over zeros. -/
theorem Layout.pack_eq_trace {l : Layout} (hl : l.LengthsNonneg) (v : Value) :
    l.pack v = (l.trace v).outcome.map fun _ =>
      Bytes.overlay (l.trace v).patch (Bytes.zeros l.size.toNat) := by
  have hsize := l.size_nonneg hl
  rw [Layout.pack_eq hsize, Layout.encode_eq_trace hl v (Layout.length_zeros hsize)]

theorem Layout.pack_eq_ok_iff {l : Layout} (hl : l.LengthsNonneg) {v : Value} {data : Bytes} :
    l.pack v = .ok data ↔ (l.trace v).outcome = .ok () ∧
      data = Bytes.overlay (l.trace v).patch (Bytes.zeros l.size.toNat) := by
  rw [Layout.pack_eq_trace hl]
  cases (l.trace v).outcome with
  | ok u => exact ⟨fun h => ⟨rfl, (Except.ok.inj h).symm⟩, fun h => congrArg Except.ok h.2.symm⟩
  | error fault => exact ⟨nofun, fun h => nomatch h.1⟩

end FixedLayout
