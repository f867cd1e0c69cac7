import FixedLayout.Proofs.RoundTrip

/-!
# What encoding emits

Whatever value is encoded, every leaf that is written gets bytes that it accepts. The only bytes
that a check can reject are those of leaves that were passed over, which are left as they were
before.

* `Layout.accepts_of_pack`: a leaf accepts what it is written;
* `Trace.passedOver`: the leaves that a trace came past without writing them;
* `Trace.Wrote`, `Layout.wrote_overlay`: what encoding leaves in place of old bytes;
* `Layout.check_overlay_iff`: when the bytes that encoding leaves pass the check;
* `Value.Has`, `Value.Whole`: values inside a value, and values without a positional instance that
  lacks fields. `Layout.passedOver_of_whole`: encoding such a value passes over nothing.
-/

namespace FixedLayout

/-! ### Single leaves -/

/-- A writer that fills a region has filled it with its content. -/
theorem Writer.eq_of_put {content region after : Bytes}
    (h : Writer.put content region = (.ok (), after)) : after = content := by
  simp only [Writer.put, Writer.ofFn] at h
  split at h
  · exact (congrArg Prod.snd h).symm
  · cases h

/-- An enumeration writes declared discriminants only. -/
theorem Enumeration.exists_discriminant_of_encode (e : Enumeration) {v : Value}
    {region after : Bytes} (h : e.encode v region = (.ok (), after)) :
    ∃ x ∈ e.variants, after = e.repr.toBytes x.2 := by
  cases v with
  | member enum name integral payload =>
    unfold Enumeration.encode at h
    by_cases henum : enum = e.name
    · cases hd : e.discriminant? name with
      | some d =>
        simp only [henum, if_true, hd] at h
        obtain ⟨x, hx, rfl⟩ := Option.map_eq_some_iff.1 hd
        exact ⟨x, List.mem_of_find?_eq_some hx, Writer.eq_of_put h⟩
      | none =>
        simp only [henum, if_true, hd] at h
        cases h
    · simp only [henum, if_false] at h
      cases h
  | _ => cases h

/-- A leaf accepts what it is written. -/
theorem Layout.accepts_of_pack {l : Layout} (hl : l.IsLeaf) (hn : 0 ≤ l.size) {v : Value}
    {content : Bytes} (h : l.pack v = .ok content) : l.Accepts content := by
  have hzeros := Layout.length_zeros hn
  have hwrites : l.encode v (Bytes.zeros l.size.toNat) = (.ok (), content) := by
    rcases Layout.encode_of_isLeaf hl hn v with ⟨packed, -, hpack, hw⟩ | ⟨fault, hpack, -⟩
    · rw [hpack] at h
      cases h
      exact hw _ hzeros
    · rw [hpack] at h
      cases h
  cases l with
  | int r => trivial
  | bytes n => trivial
  | unit cls literal => exact Writer.eq_of_put hwrites
  | enumeration e =>
    obtain ⟨x, hx, rfl⟩ := e.exists_discriminant_of_encode hwrites
    show e.repr.fromBytes _ ∈ e.discriminants
    rw [e.repr.fromBytes_toBytes (e.fits x hx)]
    exact List.mem_map_of_mem hx
  | composite form fields => exact hl.elim
  | array element n => exact hl.elim

/-! ### Ranges -/

/-- Where a trace came past a leaf, it leaves the patch of that visit. -/
theorem range_overlay_patch {visits before after : List Visit} {x : Visit} {hi : Int}
    (hsplit : visits = before ++ x :: after) (h : Tiles 0 hi (visits.map (·.leaf)))
    (hleaf : ∀ y ∈ visits, y.leaf.layout.IsLeaf) {region : Bytes} (hlen : hi ≤ region.length) :
    x.leaf.range (Bytes.overlay (visits.flatMap Visit.patch) region) =
      Bytes.overlay x.patch (x.leaf.range region) := by
  subst hsplit
  rw [List.map_append, List.map_cons] at h
  obtain ⟨start, hbefore, hrest⟩ := h.split
  have hstart : x.leaf.start = start := hrest.1
  have hsize : 0 ≤ x.leaf.layout.size := hrest.2.1
  have hafter : x.leaf.stop ≤ hi := hrest.2.2.le
  have hbeforePatch := length_patch_of_tiles hbefore fun y hy => hleaf y (List.mem_append_left _ hy)
  have hpatch := Visit.length_patch
    (hleaf x (List.mem_append_right before (List.mem_cons_self ..))) hsize
  rw [List.flatMap_append, List.flatMap_cons, ← List.append_assoc]
  unfold Leaf.range Leaf.stop at *
  exact Bytes.slice_overlay (by omega) (by omega) (by omega)

/-! ### Whole layouts -/

/-- The leaves that a trace came past without writing them. -/
def Trace.passedOver (t : Trace) : List Leaf :=
  (t.visits.filter (·.value.isNone)).map (·.leaf)

theorem Trace.mem_passedOver {t : Trace} {leaf : Leaf} :
    leaf ∈ t.passedOver ↔ ⟨leaf, none⟩ ∈ t.visits := by
  unfold passedOver
  rw [List.mem_map]
  constructor
  · rintro ⟨⟨leaf, value⟩, hx, rfl⟩
    obtain ⟨hx, hnone⟩ := List.mem_filter.1 hx
    obtain rfl := Option.isNone_iff_eq_none.1 hnone
    exact hx
  · intro h
    exact ⟨_, List.mem_filter.2 ⟨h, rfl⟩, rfl⟩

/-- What a trace leaves in place of old bytes, at the leaves that it came past: the bytes of the
value that was written there, or the old ones. -/
structure Trace.Wrote (t : Trace) (old new : Bytes) : Prop where
  written : ∀ leaf u, ⟨leaf, some u⟩ ∈ t.visits → leaf.layout.pack u = .ok (leaf.range new)
  passed : ∀ leaf ∈ t.passedOver, leaf.range new = leaf.range old

/-- What is written in a visit has been packed. -/
def Visit.Packed (x : Visit) : Prop :=
  x.leaf.layout.IsLeaf ∧ ∀ v, x.value = some v → ∃ content, x.leaf.layout.pack v = .ok content

theorem Layout.every_packed (l : Layout) (v : Value) : (l.trace v).Every Visit.Packed := by
  refine Layout.every_trace (fun l v content hl h => ⟨hl, ?_⟩) (fun l hl => ⟨hl, nofun⟩)
    (fun x frame offset hx => hx) l v
  rintro u ⟨⟩
  exact ⟨content, h⟩

section Layouts

variable {l : Layout} {v : Value}

theorem Layout.mem_leaves_of_visit {x : Visit} (hx : x ∈ (l.trace v).visits) : x.leaf ∈ l.leaves :=
  (l.fills_trace v).isPrefix.mem (List.mem_map_of_mem hx)

/-- Where encoding came past a leaf, it leaves the patch of that visit. -/
theorem Layout.range_overlay (hl : l.LengthsNonneg) {region : Bytes}
    (hlen : (region.length : Int) = l.size) {x : Visit} (hx : x ∈ (l.trace v).visits) :
    x.leaf.range (Bytes.overlay (l.trace v).patch region) =
      Bytes.overlay x.patch (x.leaf.range region) := by
  obtain ⟨before, after, hsplit⟩ := List.append_of_mem hx
  -- the leaves visited so far tile the bytes up to some offset, also if encoding fails
  obtain ⟨rest, hrest⟩ := (l.fills_trace v).isPrefix
  have htiles := l.tiles_leaves hl
  rw [← hrest] at htiles
  obtain ⟨mid, hvisited, hothers⟩ := htiles.split
  have hle := hothers.le
  exact range_overlay_patch hsplit hvisited (fun y hy => (l.every_packed v y hy).1) (by omega)

/-- Encoding leaves the bytes of each value that it writes, and the old ones of the leaves that it
passes over. -/
theorem Layout.wrote_overlay (hl : l.LengthsNonneg) (v : Value) {region : Bytes}
    (hlen : (region.length : Int) = l.size) :
    (l.trace v).Wrote region (Bytes.overlay (l.trace v).patch region) := by
  constructor
  · intro leaf u hx
    obtain ⟨hleaf, hpacked⟩ := l.every_packed v _ hx
    obtain ⟨content, hpack⟩ := hpacked u rfl
    have hmem := Layout.mem_leaves_of_visit hx
    have hold := Layout.length_range hl hlen hmem
    have hcontent := Visit.length_patch hleaf ((l.tiles_leaves hl).size_nonneg hmem)
    have hrange := Layout.range_overlay hl hlen hx
    rw [Visit.patch_of_pack hpack, List.length_map] at hcontent
    rw [Visit.patch_of_pack hpack,
      Bytes.overlay_map_some (Int.ofNat.inj (hcontent.trans hold.symm))] at hrange
    rw [hrange, hpack]
  · intro leaf hleaf
    rw [Layout.range_overlay hl hlen (Trace.mem_passedOver.1 hleaf), Visit.patch_of_none,
      Bytes.overlay_eq_self fun b hb => List.eq_of_mem_replicate hb]

/-- A leaf that was written holds. -/
theorem Layout.holds_of_written (hl : l.LengthsNonneg) {old new : Bytes}
    (h : (l.trace v).Wrote old new) {leaf : Leaf} {u : Value}
    (hx : ⟨leaf, some u⟩ ∈ (l.trace v).visits) : leaf.Holds new :=
  Layout.accepts_of_pack (l.every_packed v _ hx).1
    ((l.tiles_leaves hl).size_nonneg (Layout.mem_leaves_of_visit hx)) (h.written leaf u hx)

/-- A leaf that was passed over holds if it held before. -/
theorem Trace.Wrote.holds_iff {t : Trace} {old new : Bytes} (h : t.Wrote old new) {leaf : Leaf}
    (hleaf : leaf ∈ t.passedOver) : leaf.Holds new ↔ leaf.Holds old := by
  unfold Leaf.Holds
  rw [h.passed leaf hleaf]

/-- The bytes that a value puts over others pass the check exactly if the leaves that are passed
over held before. -/
theorem Layout.check_overlay_iff (hl : l.LengthsNonneg) (hok : (l.trace v).outcome = .ok ())
    {region : Bytes} (hlen : (region.length : Int) = l.size) :
    l.check (Bytes.overlay (l.trace v).patch region) = .ok () ↔
      ∀ leaf ∈ (l.trace v).passedOver, leaf.Holds region := by
  have hleaves := (l.fills_trace v).complete hok
  have hwrote := Layout.wrote_overlay hl v hlen
  rw [Layout.check_eq_ok_iff hl (by rw [Bytes.length_overlay, hlen]), ← hleaves]
  constructor
  · intro h leaf hleaf
    rw [← hwrote.holds_iff hleaf]
    exact h leaf (List.mem_map_of_mem (Trace.mem_passedOver.1 hleaf))
  · intro h leaf hleaf
    obtain ⟨⟨leaf, value⟩, hx, rfl⟩ := List.mem_map.1 hleaf
    cases value with
    | some u => exact Layout.holds_of_written hl hwrote hx
    | none =>
      have hpassed := Trace.mem_passedOver.2 hx
      exact (hwrote.holds_iff hpassed).2 (h leaf hpassed)

end Layouts

/-! ### Values that are passed over nowhere -/

theorem Memory.length_chunks (width n : Nat) (b : Bytes) : (chunks width n b).length = n := by
  induction n generalizing b with
  | zero => rfl
  | succ n ih => rw [chunks, List.length_cons, ih]

namespace Value

/-- A value that is found inside another one by going through it, item by item. -/
inductive Has (v : Value) : Value → Prop
  | self : v.Has v
  | item {w x : Value} {items : List Value} : v.Has w → w.items = .ok items → x ∈ items → v.Has x

theorem Has.trans {u v w : Value} (huv : u.Has v) (hvw : v.Has w) : u.Has w := by
  induction hvw with
  | self => exact huv
  | item _ hitems hx ih => exact ih.item hitems hx

/-- No instance of a positional class inside a value lacks a field of its class. -/
def Whole (v : Value) : Prop :=
  ∀ cls fields, v.Has (.record cls fields) → cls.positional = true →
    fields.length = cls.fieldNames.length

theorem Whole.of_has {v w : Value} (h : v.Whole) (hw : v.Has w) : w.Whole :=
  fun cls fields hr => h cls fields (hw.trans hr)

theorem has_field {cls : ModelClass} {fields : List (String × Value)} {name : String} {x : Value}
    (h : (Value.record cls fields).field? name = some x) : (Value.record cls fields).Has x := by
  obtain ⟨f, hf, rfl⟩ := Option.map_eq_some_iff.1 h
  -- an instance is gone through in pairs of a name and a value
  have hpair : (Value.record cls fields).Has (.tuple [.text f.1, f.2]) :=
    Has.self.item rfl (List.mem_map_of_mem (List.mem_of_find?_eq_some hf))
  exact hpair.item rfl (List.mem_cons_of_mem _ (List.mem_singleton.2 rfl))

/-- A view has an entry for every index below its length. -/
theorem isSome_entryView {l : Layout} {n : Nat} (h : l.extent = .count n) (content : Bytes)
    {index : Nat} (hi : index < n) : (entryView l content index).isSome = true := by
  have hentry : ∃ slot, l.entry index = .ok slot := by
    unfold Layout.extent at h
    cases l with
    | array element length =>
      simp only [Layout.entryCount?] at h
      split at h
      · cases h
      · cases h
        simp only [Layout.entry]
        rw [if_neg (show ¬ (index : Int) < 0 by omega), if_pos (by omega)]
        exact ⟨_, rfl⟩
    | composite form fields =>
      simp only [Layout.entryCount?] at h
      by_cases hpos : form.positional = true
      · simp only [hpos, if_true] at h
        split at h
        · cases h
        · cases h
          have hslot : index < fields.slots.length := by
            rw [Fields.slots, Fields.length_place]
            omega
          simp only [Layout.entry, hpos, if_true]
          rw [if_neg (show ¬ (index : Int) < 0 by omega),
            if_neg (show ¬ (index : Int) < 0 by omega), Int.toNat_natCast,
            List.getElem?_eq_getElem hslot]
          exact ⟨_, rfl⟩
      · simp only [hpos] at h
        cases h
    | _ => cases h
  obtain ⟨slot, hslot⟩ := hentry
  unfold entryView
  rw [hslot]
  rfl

/-- A value that has a length and can be gone through has as many items, unless it is an instance
that lacks fields. -/
theorem length_items {v : Value} (hv : v.Whole) {n : Nat} {items : List Value}
    (hextent : v.extent = .count n) (hitems : v.items = .ok items) : items.length = n := by
  cases v with
  | record cls fields =>
    -- the one kind of value whose length is not the number of its items
    cases hitems
    rw [List.length_map]
    by_cases hpos : cls.positional = true
    · rw [hv cls fields .self hpos]
      simp only [extent, hpos, if_true] at hextent
      exact Extent.count.inj hextent
    · simp only [extent, hpos] at hextent
      cases hextent
  | view l content =>
    have hl : l.extent = .count n := hextent
    simp only [Value.items, hl] at hitems
    cases n with
    | zero => cases hitems; rfl
    | succ n =>
      cases content with
      | none => cases hitems
      | some content =>
        cases hitems
        have hall : ∀ i ∈ List.range (n + 1), (entryView l content i).isSome = true :=
          fun i hi => isSome_entryView hl content (List.mem_range.1 hi)
        rw [List.length_filterMap_eq_countP, List.countP_eq_length.2 hall, List.length_range]
  | memory window =>
    simp only [Value.items] at hitems
    split at hitems
    · cases hitems
    · cases hitems
      rw [Memory.items, List.length_map, Memory.length_chunks]
      exact Extent.count.inj hextent
  | text s =>
    cases hitems
    rw [List.length_map, String.length_toList]
    exact Extent.count.inj hextent
  | list xs => cases hitems; exact Extent.count.inj hextent
  | tuple xs => cases hitems; exact Extent.count.inj hextent
  | dict xs => cases hitems; rw [List.length_map]; exact Extent.count.inj hextent
  | bytes content => cases hitems; rw [List.length_map]; exact Extent.count.inj hextent
  | bytearray content => cases hitems; rw [List.length_map]; exact Extent.count.inj hextent
  | packet l content => cases hitems
  | _ => cases hextent

end Value

theorem lookupFields_cons {v : Value} {name : String} {rest : List String} {values : List Value}
    (h : lookupFields v (name :: rest) = .ok values) :
    ∃ x others, v.field? name = some x ∧ lookupFields v rest = .ok others ∧
      values = x :: others := by
  unfold lookupFields at h
  cases hfield : v.field? name with
  | none =>
    rw [hfield] at h
    cases h
  | some x =>
    cases hrest : lookupFields v rest with
    | error missing =>
      simp only [hfield, hrest] at h
      cases h
    | ok others =>
      simp only [hfield, hrest] at h
      cases h
      exact ⟨x, others, rfl, rfl, rfl⟩

theorem lookupFields_eq_ok {v : Value} {names : List String} {values : List Value}
    (h : lookupFields v names = .ok values) :
    values.length = names.length ∧ ∀ x ∈ values, ∃ name, v.field? name = some x := by
  induction names generalizing values with
  | nil =>
    cases h
    exact ⟨rfl, fun _ hx => absurd hx List.not_mem_nil⟩
  | cons name rest ih =>
    obtain ⟨x, others, hfield, hrest, rfl⟩ := lookupFields_cons h
    obtain ⟨hlen, hothers⟩ := ih hrest
    exact ⟨congrArg (· + 1) hlen, List.forall_mem_cons.2 ⟨⟨name, hfield⟩, hothers⟩⟩

/-- A composite takes its value apart into one value for each field, which it has inside. -/
theorem Form.split_eq_ok {form : Form} {typeName : String} {names : List String} {v : Value}
    {values : List Value} (h : form.split typeName names v = .ok values) :
    values.length = names.length ∧ ∀ x ∈ values, v.Has x := by
  cases form with
  | model cls =>
    cases v with
    | record valueClass fields =>
      simp only [Form.split] at h
      split at h
      · cases hlookup : lookupFields (.record valueClass fields) names with
        | error missing =>
          rw [hlookup] at h
          cases h
        | ok xs =>
          rw [hlookup] at h
          cases h
          obtain ⟨hlen, hxs⟩ := lookupFields_eq_ok hlookup
          refine ⟨hlen, fun x hx => ?_⟩
          obtain ⟨name, hname⟩ := hxs x hx
          exact Value.has_field hname
      · cases h
    | _ => cases h
  | tuple =>
    cases v with
    | tuple items =>
      simp only [Form.split] at h
      split at h
      · next hlen => cases h; exact ⟨hlen, fun x hx => Value.Has.self.item rfl hx⟩
      · cases h
    | list items =>
      simp only [Form.split] at h
      split at h
      · next hlen => cases h; exact ⟨hlen, fun x hx => Value.Has.self.item rfl hx⟩
      · cases h
    | _ => cases h

/-- An array takes as elements the items of a value whose length is the declared one. -/
theorem arrayElements_eq_ok {typeName : String} {length : Int} {v : Value} {items : List Value}
    (h : arrayElements typeName length v = .ok items) :
    v.items = .ok items ∧ ∃ n : Nat, v.extent = .count n ∧ (n : Int) = length := by
  unfold arrayElements at h
  split at h
  · cases h
  · cases h
  · cases h
  · split at h
    · cases h
    · cases h
    · next n hextent =>
      split at h
      · cases h
      · next hn =>
        split at h
        · next xs hitems =>
          cases h
          exact ⟨hitems, n, hextent, Decidable.not_not.1 hn⟩
        · cases h

theorem traceRun_complete {trace : Value → Trace} {items : List Value}
    (h : ∀ v ∈ items, (trace v).Every (·.value ≠ none)) (leaves : List Leaf) (typeName : String)
    (size : Int) (index n : Nat) (hn : items.length = n) :
    (traceRun trace leaves typeName size index n items).Every (·.value ≠ none) := by
  induction n generalizing index items with
  | zero => exact Trace.every_skip fun _ hleaf => absurd hleaf List.not_mem_nil
  | succ n ih =>
    cases items with
    | nil => cases hn
    | cons v items =>
      obtain ⟨hv, hrest⟩ := List.forall_mem_cons.1 h
      exact (hv.within (fun _ _ _ hx => hx) _ _ _).andThen (ih hrest (index + 1) (Nat.succ.inj hn))

mutual

/-- Encoding a value in which no positional instance lacks fields passes over nothing. -/
theorem Layout.trace_complete : ∀ (l : Layout), l.LengthsNonneg → ∀ v : Value, v.Whole →
    (l.trace v).Every (·.value ≠ none)
  | .int _, _, _, _ => Trace.every_write fun _ _ => nofun
  | .bytes _, _, _, _ => Trace.every_write fun _ _ => nofun
  | .unit _ _, _, _, _ => Trace.every_write fun _ _ => nofun
  | .enumeration _, _, _, _ => Trace.every_write fun _ _ => nofun
  | .composite form fields, hl, v, hv => by
    unfold Layout.trace
    simp only
    split
    · exact Trace.every_fail _
    · next values h =>
      obtain ⟨hlen, hvalues⟩ := Form.split_eq_ok h
      rw [fields.length_names] at hlen
      exact fields.trace_complete hl _ _ 0 0 values hlen fun x hx => hv.of_has (hvalues x hx)
  | .array element n, ⟨he, hn⟩, v, hv => by
    unfold Layout.trace
    simp only
    split
    · exact Trace.every_fail _
    · next items h =>
      obtain ⟨hitems, count, hextent, hcount⟩ := arrayElements_eq_ok h
      refine traceRun_complete (fun x hx => ?_) _ _ _ 0 _ ?_
      · exact element.trace_complete he x (hv.of_has (Value.Has.self.item hitems hx))
      · rw [Value.length_items hv hextent hitems]
        omega

theorem Fields.trace_complete : ∀ fs : Fields, fs.LengthsNonneg →
    ∀ (typeName : String) (frame : String → Nat → Frame) (index : Nat) (start : Int)
      (values : List Value), values.length = fs.count → (∀ v ∈ values, v.Whole) →
        (fs.trace typeName frame index start values).Every (·.value ≠ none)
  | .nil, _, _, _, _, _, _, _, _ => Trace.every_skip fun _ hleaf => absurd hleaf List.not_mem_nil
  | .cons _ _ _ _, _, _, _, _, _, [], hlen, _ => by cases hlen
  | .cons _ _ layout rest, ⟨hl, hr⟩, _, _, _, _, v :: values, hlen, hv => by
    obtain ⟨hfirst, hrest⟩ := List.forall_mem_cons.1 hv
    exact ((layout.trace_complete hl v hfirst).within (fun _ _ _ hx => hx) _ _ _).andThen
      (rest.trace_complete hr _ _ _ _ values (Nat.succ.inj hlen) hrest)

end

theorem Layout.passedOver_of_whole {l : Layout} (hl : l.LengthsNonneg) {v : Value} (hv : v.Whole) :
    (l.trace v).passedOver = [] := by
  refine List.eq_nil_iff_forall_not_mem.2 fun leaf hleaf => ?_
  exact l.trace_complete hl v hv _ (Trace.mem_passedOver.1 hleaf) rfl

end FixedLayout
