import FixedLayout.Proofs.Canonical
import FixedLayout.Proofs.Navigation

/-!
# Layouts with the same leaves

How leaves are grouped into composites and arrays makes no difference to the bytes. Two types with
the same sequence of leaves have the same size and accept the same bytes, and they encode values
with the same values of leaves as the same bytes: those of the leaves, one after another.

* `Fields.layouts_leaves`, `Layout.layouts_leaves_composite`: the leaves of a composite are those of
  its fields, whatever its form and their names are;
* `Leaf.Aligned`, `Tiles.aligned`: leaves in the same places;
* `Catalog.FailsAt`: a check that fails because of a leaf;
* `Layout.leafValues`, `Fields.leafValues`: the values of the leaves inside a value;
* `Packs`: bytes that are those of leaves, one after another. `Layout.exists_packs`: those of a
  value in canonical form are, `Packs.eq_of_same`: equal values have the same;
* `Catalog.same_wire_form`: types with the same leaves.
-/

namespace FixedLayout

/-! ### Leaves in the same places -/

/-- The leaves of fields are those of their layouts, whatever the fields are called and wherever
they are placed. -/
theorem Fields.layouts_leaves (frame : String → Nat → Frame) :
    ∀ (fs : Fields) (index : Nat) (start : Int), (fs.leaves frame index start).map (·.layout) =
      fs.toList.flatMap fun f => f.2.2.leaves.map (·.layout)
  | .nil, _, _ => rfl
  | .cons _ _ layout rest, index, start => by
    rw [Fields.leaves, Fields.toList, List.flatMap_cons, List.map_append, rest.layouts_leaves,
      List.map_map]
    rfl

/-- Composites of the same layouts have the same leaves. Neither their forms nor the names and
accessors of their fields count. -/
theorem Layout.layouts_leaves_composite {form form' : Form} {fields fields' : Fields}
    (h : fields.toList.map (·.2.2) = fields'.toList.map (·.2.2)) :
    (composite form fields).leaves.map (·.layout) =
      (composite form' fields').leaves.map (·.layout) := by
  have hflat : ∀ fs : Fields, (fs.toList.flatMap fun f => f.2.2.leaves.map (·.layout)) =
      (fs.toList.map (·.2.2)).flatMap fun l => l.leaves.map (·.layout) :=
    fun fs => (List.flatMap_map (·.2.2) (fun l : Layout => l.leaves.map (·.layout)) fs.toList).symm
  unfold leaves
  rw [Fields.layouts_leaves, Fields.layouts_leaves, hflat, hflat, h]

/-- Two leaves of the same kind in the same place, maybe inside different frames. -/
structure Leaf.Aligned (x y : Leaf) : Prop where
  layout : x.layout = y.layout
  start : x.start = y.start

namespace Leaf

variable {x y : Leaf} {data : Bytes}

theorem Aligned.range_eq (h : x.Aligned y) (data : Bytes) : x.range data = y.range data := by
  unfold range stop
  rw [h.layout, h.start]

theorem Aligned.holds_iff (h : x.Aligned y) : x.Holds data ↔ y.Holds data := by
  unfold Holds
  rw [h.layout, h.range_eq]

end Leaf

/-- Tilings by the same leaves that start together end together. -/
theorem Tiles.aligned {lo hi hi' : Int} {xs ys : List Leaf} (hx : Tiles lo hi xs)
    (hy : Tiles lo hi' ys) (h : xs.map (·.layout) = ys.map (·.layout)) :
    hi = hi' ∧ List.Forall₂ Leaf.Aligned xs ys := by
  induction xs generalizing lo ys with
  | nil =>
    obtain rfl : ys = [] := List.map_eq_nil_iff.1 h.symm
    have hend : lo = hi := hx
    have hend' : lo = hi' := hy
    exact ⟨hend.symm.trans hend', .nil⟩
  | cons x xs ih =>
    cases ys with
    | nil => cases h
    | cons y ys =>
      obtain ⟨hstart, -, hrest⟩ := hx
      obtain ⟨hstart', -, hrest'⟩ := hy
      rw [List.map_cons, List.map_cons, List.cons.injEq] at h
      have hfirst : x.Aligned y := ⟨h.1, hstart.trans hstart'.symm⟩
      have hstop : x.stop = y.stop := by
        unfold Leaf.stop
        rw [hfirst.layout, hfirst.start]
      rw [hstop] at hrest
      obtain ⟨hend, hothers⟩ := ih hrest hrest' h.2
      exact ⟨hend, .cons hfirst hothers⟩

/-! ### Checks -/

namespace Catalog

variable {c c' : Catalog} {t t' : TypeExpr} {l l' : Layout} {data : Bytes}

/-- The check of a type fails because of the leaf of an index, the first one that does not hold. The
error is the one that the leaf has by itself, inside the frames around it. -/
structure FailsAt (c : Catalog) (t : TypeExpr) (l : Layout) (data : Bytes) (i : Nat) (leaf : Leaf)
    (e : PackError) : Prop where
  place : l.leaves[i]? = some leaf
  before : ∀ j x, j < i → l.leaves[j]? = some x → x.Holds data
  own : leaf.layout.check (leaf.range data) = .error (.rejected e)
  check : c.check t data = .error (.pack { e with frames := e.frames ++ leaf.frames })

/-- A check fails because of the first leaf that does not hold. -/
theorem exists_failsAt (h : c.layoutOf t = .ok l) (hl : l.LengthsNonneg)
    (hlen : (data.length : Int) = l.size) {i : Nat} {leaf : Leaf} (hleaf : l.leaves[i]? = some leaf)
    (hbefore : ∀ j x, j < i → l.leaves[j]? = some x → x.Holds data) (hfails : ¬ leaf.Holds data) :
    ∃ e, c.FailsAt t l data i leaf e := by
  obtain ⟨hi, hget⟩ := List.getElem?_eq_some_iff.1 hleaf
  have hsplit : l.leaves = l.leaves.take i ++ leaf :: l.leaves.drop (i + 1) := by
    rw [← hget, ← List.drop_eq_getElem_cons hi, List.take_append_drop]
  have hholds : ∀ x ∈ l.leaves.take i, x.Holds data := by
    intro x hx
    obtain ⟨j, hj⟩ := List.mem_iff_getElem?.1 hx
    rw [List.getElem?_take] at hj
    split at hj
    · exact hbefore j x ‹_› hj
    · cases hj
  obtain ⟨e, hown, -, -, hcheck⟩ := Layout.check_eq_error hl hlen hsplit hholds hfails
  refine ⟨e, hleaf, hbefore, hown, ?_⟩
  rw [check_eq h hlen, hcheck]
  rfl

/-- Types whose leaves are in the same places accept the same bytes. Where they do not, they reject
them because of the same leaf, with errors that differ only in the frames around it. -/
theorem check_of_aligned (h : c.layoutOf t = .ok l) (h' : c'.layoutOf t' = .ok l')
    (hl : l.LengthsNonneg) (hl' : l'.LengthsNonneg) (hlen : (data.length : Int) = l.size)
    (hlen' : (data.length : Int) = l'.size)
    (haligned : List.Forall₂ Leaf.Aligned l.leaves l'.leaves) :
    (c.check t data = .ok () ∧ c'.check t' data = .ok ()) ∨
      ∃ i leaf leaf' e, leaf.Aligned leaf' ∧ c.FailsAt t l data i leaf e ∧
        c'.FailsAt t' l' data i leaf' e := by
  by_cases hall : ∃ (i : Nat) (leaf : Leaf), l.leaves[i]? = some leaf ∧ ¬ leaf.Holds data
  · right
    classical
    obtain ⟨leaf, hleaf, hfails⟩ := Nat.find_spec hall
    have hbefore : ∀ j x, j < Nat.find hall → l.leaves[j]? = some x → x.Holds data := by
      intro j x hj hx
      by_contra hnot
      exact Nat.find_min hall hj ⟨x, hx, hnot⟩
    obtain ⟨leaf', hleaf', hsame⟩ := exists_getElem?_of_forall₂ haligned hleaf
    have hbefore' : ∀ j y, j < Nat.find hall → l'.leaves[j]? = some y → y.Holds data := by
      intro j y hj hy
      obtain ⟨x, hx, hxy⟩ := exists_getElem?_of_forall₂ haligned.flip hy
      exact hxy.holds_iff.1 (hbefore j x hj hx)
    obtain ⟨e, he⟩ := exists_failsAt h hl hlen hleaf hbefore hfails
    obtain ⟨e', he'⟩ := exists_failsAt h' hl' hlen' hleaf' hbefore'
      (fun hholds => hfails (hsame.holds_iff.2 hholds))
    -- both errors are that of the leaf by itself
    have hown := he.own
    rw [hsame.layout, hsame.range_eq, he'.own] at hown
    cases hown
    exact ⟨_, leaf, leaf', e, hsame, he, he'⟩
  · left
    push Not at hall
    have hleaves : ∀ leaf ∈ l.leaves, leaf.Holds data := fun leaf hmem => by
      obtain ⟨i, hi⟩ := List.mem_iff_getElem?.1 hmem
      exact hall i leaf hi
    have hleaves' : ∀ leaf ∈ l'.leaves, leaf.Holds data := fun leaf hmem => by
      obtain ⟨i, hi⟩ := List.mem_iff_getElem?.1 hmem
      obtain ⟨x, hx, hsame⟩ := exists_getElem?_of_forall₂ haligned.flip hi
      exact hsame.holds_iff.1 (hall i x hx)
    rw [check_eq h hlen, check_eq h' hlen', (Layout.check_eq_ok_iff hl hlen).2 hleaves,
      (Layout.check_eq_ok_iff hl' hlen').2 hleaves']
    exact ⟨rfl, rfl⟩

end Catalog

/-! ### Values of leaves -/

mutual

/-- The values that the leaves of a layout get from a value, from left to right. -/
def Layout.leafValues : Layout → Value → List Value
  | .composite form fields, v =>
    match form.split (Layout.composite form fields).typeName fields.names v with
    | .ok values => fields.leafValues values
    | .error _ => []
  | .array element length, v =>
    match arrayElements (Layout.array element length).typeName length v with
    | .ok items => items.flatMap element.leafValues
    | .error _ => []
  | _, v => [v]

/-- The values that the leaves of fields get from the values of the fields. -/
def Fields.leafValues : Fields → List Value → List Value
  | .cons _ _ layout rest, v :: values => layout.leafValues v ++ rest.leafValues values
  | _, _ => []

end

/-- Bytes are those of values in canonical form that are packed one after another, each by its own
layout. -/
inductive Packs : List Layout → List Value → Bytes → Prop
  | nil : Packs [] [] []
  | cons {l : Layout} {v : Value} {part : Bytes} {layouts : List Layout} {values : List Value}
      {data : Bytes} : l.Canonical v → l.pack v = .ok part → Packs layouts values data →
        Packs (l :: layouts) (v :: values) (part ++ data)

namespace Packs

variable {l : Layout} {layouts others : List Layout} {us vs : List Value} {xs ys : Bytes}

theorem append (hx : Packs layouts us xs) (hy : Packs others vs ys) :
    Packs (layouts ++ others) (us ++ vs) (xs ++ ys) := by
  induction hx with
  | nil => exact hy
  | cons hv hpack _ ih =>
    rw [List.append_assoc]
    exact .cons hv hpack ih

end Packs

/-- A leaf is packed by itself. -/
theorem Layout.exists_packs_of_isLeaf {l : Layout} (hleaf : l.IsLeaf) (hl : l.LengthsNonneg)
    {v : Value} (hv : l.Canonical v) : ∃ data, Packs [l] [v] data ∧ (l.trace v).Writes data := by
  obtain ⟨data, w, hreturns⟩ := Layout.exists_encoding_of_isLeaf hleaf hv
  have hpack := Layout.pack_of_writes hl hreturns.length hreturns.writes
  have hpacks := Packs.cons hv hpack .nil
  rw [List.append_nil] at hpacks
  exact ⟨data, hpacks, hreturns.writes⟩

/-- The elements of an array are packed one after another. -/
theorem exists_packs_of_run {trace : Value → Trace} {leafValues : Value → List Value}
    {leaves : List Leaf} {items : List Value}
    (h : ∀ v ∈ items, ∃ data, Packs (leaves.map (·.layout)) (leafValues v) data ∧
      (trace v).Writes data) (typeName : String) (size : Int) (index : Nat) :
    ∃ data, Packs ((leavesOfRun leaves (.entry typeName) size index items.length).map (·.layout))
        (items.flatMap leafValues) data ∧
      (traceRun trace leaves typeName size index items.length items).Writes data := by
  induction items generalizing index with
  | nil => exact ⟨[], .nil, Trace.writes_skip_nil⟩
  | cons v items ih =>
    obtain ⟨⟨xs, hxs, hwrites⟩, hitems⟩ := List.forall_mem_cons.1 h
    obtain ⟨ys, hys, htail⟩ := ih hitems (index + 1)
    refine ⟨xs ++ ys, ?_, hwrites.andThen htail _ _ _⟩
    rw [List.length_cons, leavesOfRun, List.map_append, List.map_map, List.flatMap_cons]
    exact hxs.append hys

mutual

/-- A value in canonical form is written as the bytes of its leaves, one after another. -/
theorem Layout.exists_packs : ∀ l : Layout, l.LengthsNonneg → ∀ v : Value, l.Canonical v →
    ∃ data, Packs (l.leaves.map (·.layout)) (l.leafValues v) data ∧ (l.trace v).Writes data
  | .int r, hl, _, hv => Layout.exists_packs_of_isLeaf (l := .int r) trivial hl hv
  | .bytes n, hl, _, hv => Layout.exists_packs_of_isLeaf (l := .bytes n) trivial hl hv
  | .unit cls literal, hl, _, hv =>
    Layout.exists_packs_of_isLeaf (l := .unit cls literal) trivial hl hv
  | .enumeration e, hl, _, hv => Layout.exists_packs_of_isLeaf (l := .enumeration e) trivial hl hv
  | .composite form fields, hl, v, hv => by
    obtain ⟨values, hsplit, hvalues, -⟩ := form.split_of_canonical hv
    obtain ⟨data, hpacks, hwrites⟩ :=
      fields.exists_packs hl values hvalues (Layout.composite form fields).typeName
        (form.frame (Layout.composite form fields).typeName) 0 0
    refine ⟨data, ?_, ?_⟩
    · unfold Layout.leafValues
      simp only [hsplit]
      exact hpacks
    · rw [Layout.trace_composite hsplit]
      exact hwrites
  | .array element n, ⟨he, hn⟩, v, ⟨items, hv, hlen, hitems⟩ => by
    subst hv
    -- a canonical list has as many items as the array has elements, so that none is passed over
    obtain ⟨data, hpacks, hwrites⟩ := exists_packs_of_run
      (fun x hx => element.exists_packs he x (hitems x hx)) (Layout.array element n).typeName
      element.size 0
    have hcount : n.toNat = items.length := by omega
    have helements := arrayElements_list (Layout.array element n).typeName hlen
    refine ⟨data, ?_, ?_⟩
    · unfold Layout.leafValues Layout.leaves
      simp only [helements, hcount]
      exact hpacks
    · rw [Layout.trace_array helements, hcount]
      exact hwrites

/-- Values in canonical form are written as the bytes of the leaves of the fields. -/
theorem Fields.exists_packs : ∀ fs : Fields, fs.LengthsNonneg → ∀ values : List Value,
    fs.Canonical values →
      ∀ (typeName : String) (frame : String → Nat → Frame) (index : Nat) (start : Int),
        ∃ data, Packs ((fs.leaves frame index start).map (·.layout)) (fs.leafValues values) data ∧
          (fs.trace typeName frame index start values).Writes data
  | .nil, _, _, hvalues, _, _, _, _ => by
    obtain rfl := hvalues
    exact ⟨[], .nil, Trace.writes_skip_nil⟩
  | .cons _ _ layout rest, ⟨hl, hr⟩, _, ⟨v, values, hvalues, hv, hothers⟩, typeName, frame, index,
      start => by
    subst hvalues
    obtain ⟨xs, hxs, hwrites⟩ := layout.exists_packs hl v hv
    obtain ⟨ys, hys, htail⟩ := rest.exists_packs hr values hothers typeName frame (index + 1)
      (start + layout.size)
    refine ⟨xs ++ ys, ?_, hwrites.andThen htail _ _ _⟩
    rw [Fields.leaves, Fields.leafValues, List.map_append, List.map_map]
    exact hxs.append hys

end

/-! ### Equal values of leaves -/

/-- Equal integers are the same integer. -/
theorem Value.integer?_of_same {u v : Value} {m n : Int} (hu : u.integer? = some m)
    (hv : v.integer? = some n) (h : u.same v = true) : m = n := by
  unfold integer? at hu hv
  split at hu <;> cases hu <;> split at hv <;> cases hv <;>
    simp [same, isNumber, magnitude?, Binary64.Magnitude.eq, Binary64.Magnitude.lt] at h <;> omega

/-- Equal byte strings have the same content. -/
theorem Value.bytes_of_same {xs ys : Bytes} (h : (Value.bytes xs).same (.bytes ys) = true) :
    xs = ys := by
  simpa [same, isNumber, isHandle, window?, flatBytes?, sameWindow] using h

/-- Equal members have the same variant. -/
theorem Enumeration.variant_of_same (e : Enumeration) {x y : String × Int} (hx : x ∈ e.variants)
    (hy : y ∈ e.variants) {p q : Value} (hp : e.integral = true → p = .int x.2)
    (hq : e.integral = true → q = .int y.2)
    (h : (Value.member e.name x.1 e.integral p).same (.member e.name y.1 e.integral q) = true) :
    x = y := by
  -- integral members are compared by their discriminants, others by their names
  cases hintegral : e.integral with
  | true =>
    obtain rfl := hp hintegral
    obtain rfl := hq hintegral
    rw [hintegral] at h
    exact List.inj_on_of_nodup_map e.discriminants_nodup hx hy (Value.integer?_of_same rfl rfl h)
  | false =>
    rw [hintegral, Value.same, Bool.and_eq_true] at h
    exact List.inj_on_of_nodup_map e.names_nodup hx hy (eq_of_beq h.2)

/-- A leaf writes equal values in the same way. -/
theorem Layout.encode_of_same {l : Layout} (hleaf : l.IsLeaf) {u v : Value} (hu : l.Canonical u)
    (hv : l.Canonical v) (h : u.same v = true) : l.encode u = l.encode v := by
  cases l with
  | int r =>
    obtain ⟨m, hm, -⟩ := hu
    obtain ⟨n, hn, -⟩ := hv
    obtain rfl := Value.integer?_of_same hm hn h
    show r.encode u = r.encode v
    unfold IntRepr.encode
    simp only [hm, hn]
  | bytes n =>
    obtain ⟨xs, rfl, -⟩ := hu
    obtain ⟨ys, rfl, -⟩ := hv
    rw [Value.bytes_of_same h]
  | unit cls literal => rfl
  | enumeration e =>
    obtain ⟨x, hx, p, rfl, hp⟩ := hu
    obtain ⟨y, hy, q, rfl, hq⟩ := hv
    obtain rfl := e.variant_of_same hx hy hp hq h
    exact (e.encode_member hx e.integral p).trans (e.encode_member hx e.integral q).symm
  | composite form fields => exact hleaf.elim
  | array element n => exact hleaf.elim

theorem Layout.pack_of_same {l : Layout} (hleaf : l.IsLeaf) {u v : Value} (hu : l.Canonical u)
    (hv : l.Canonical v) (h : u.same v = true) : l.pack u = l.pack v := by
  unfold pack
  rw [Layout.encode_of_same hleaf hu hv h]

/-- Equal values of the same leaves are packed into the same bytes. -/
theorem Packs.eq_of_same {layouts : List Layout} {us vs : List Value} {xs ys : Bytes}
    (hx : Packs layouts us xs) (hy : Packs layouts vs ys) (hleaf : ∀ l ∈ layouts, l.IsLeaf)
    (h : List.Forall₂ (fun u v => u.same v = true) us vs) : xs = ys := by
  induction hx generalizing vs ys with
  | nil =>
    cases hy
    rfl
  | cons hu hpack _ ih =>
    obtain ⟨hfirst, hothers⟩ := List.forall_mem_cons.1 hleaf
    cases hy with
    | cons hv hpack' hrest =>
      cases h with
      | cons hsame hsames =>
        rw [Layout.pack_of_same hfirst hu hv hsame, hpack'] at hpack
        cases hpack
        rw [ih hrest hothers hsames]

/-! ### Types -/

namespace Catalog

variable {c c' : Catalog} {t t' : TypeExpr} {l l' : Layout}

/-- A value in canonical form is encoded as the bytes of its leaves, one after another. -/
theorem exists_encode_packs (h : c.layoutOf t = .ok l) (hl : l.LengthsNonneg) {v : Value}
    (hv : l.Canonical v) :
    ∃ data, Packs (l.leaves.map (·.layout)) (l.leafValues v) data ∧
      c.encode v (some t) = .ok data := by
  obtain ⟨data, hpacks, hwrites⟩ := l.exists_packs hl v hv
  have hlen := Layout.length_patch hl v hwrites.outcome
  rw [hwrites.patch, List.length_map] at hlen
  refine ⟨data, hpacks, ?_⟩
  rw [encode_eq h, Layout.pack_of_writes hl hlen hwrites]
  rfl

/-- Two types with the same leaves from left to right have the same size. They accept the same
bytes, and reject others because of the same leaf, with errors that differ only in the frames around
it. They encode values in canonical form whose leaves have equal values as the same bytes, those of
the leaves one after another. -/
theorem same_wire_form (h : c.layoutOf t = .ok l) (h' : c'.layoutOf t' = .ok l')
    (hl : l.LengthsNonneg) (hl' : l'.LengthsNonneg)
    (hleaves : l.leaves.map (·.layout) = l'.leaves.map (·.layout)) :
    l.size = l'.size ∧
      (∀ data : Bytes, (data.length : Int) = l.size →
        (c.check t data = .ok () ∧ c'.check t' data = .ok ()) ∨
          ∃ i leaf leaf' e, leaf.Aligned leaf' ∧ c.FailsAt t l data i leaf e ∧
            c'.FailsAt t' l' data i leaf' e) ∧
      ∀ v v', l.Canonical v → l'.Canonical v' →
        List.Forall₂ (fun u u' => u.same u' = true) (l.leafValues v) (l'.leafValues v') →
          ∃ data, Packs (l.leaves.map (·.layout)) (l.leafValues v) data ∧
            Packs (l'.leaves.map (·.layout)) (l'.leafValues v') data ∧
            c.encode v (some t) = .ok data ∧ c'.encode v' (some t') = .ok data := by
  -- both tilings start at zero, and the leaves alone decide how they go on
  obtain ⟨hsize, haligned⟩ := (l.tiles_leaves hl).aligned (l'.tiles_leaves hl') hleaves
  refine ⟨hsize, fun data hlen => ?_, fun v v' hv hv' hsame => ?_⟩
  · exact check_of_aligned h h' hl hl' hlen (hlen.trans hsize) haligned
  · obtain ⟨data, hpacks, hencode⟩ := exists_encode_packs h hl hv
    obtain ⟨data', hpacks', hencode'⟩ := exists_encode_packs h' hl' hv'
    have hisLeaf : ∀ x ∈ l.leaves.map (·.layout), x.IsLeaf := fun x hx => by
      obtain ⟨leaf, hleaf, rfl⟩ := List.mem_map.1 hx
      exact Layout.isLeaf_of_mem_leaves hleaf
    have hpacks'' := hpacks'
    rw [← hleaves] at hpacks''
    obtain rfl := hpacks.eq_of_same hpacks'' hisLeaf hsame
    exact ⟨data, hpacks, hpacks', hencode, hencode'⟩

/-- A pair of numbers and characters as a tuple whose number is in a tuple of its own. -/
def regroupedType : TypeExpr := .tuple [.tuple [.fixedInt .u8] false, .named "Accent"] false

/-- The layout of the regrouped pair. -/
def regroupedLayout : Layout :=
  .composite .tuple
    (.cons "0" none (.composite .tuple (.cons "0" none (.int .u8) .nil))
      (.cons "1" none accentLayout .nil))

/-- A pair and a regrouped one are encoded as the same bytes. -/
theorem regrouped_pair_is_encoded_alike :
    pairLayout.leaves.map (·.layout) = regroupedLayout.leaves.map (·.layout) ∧
      ∃ data, messageCatalog.encode
          (.record ⟨"Pair", [], true, ["left", "accent"]⟩
            [("left", .int 7), ("accent", .record ⟨"Accent", [], false, []⟩ [])])
          (some (.named "Pair")) = .ok data ∧
        messageCatalog.encode
          (.tuple [.tuple [.int 7], .record ⟨"Accent", [], false, []⟩ []])
          (some regroupedType) = .ok data := by
  have hleaves : pairLayout.leaves.map (·.layout) = regroupedLayout.leaves.map (·.layout) := rfl
  have hregrouped : messageCatalog.layoutOf regroupedType = .ok regroupedLayout := by cbv
  obtain ⟨-, -, hencode⟩ := same_wire_form layoutOf_pair hregrouped ⟨trivial, trivial, trivial⟩
    ⟨⟨trivial, trivial⟩, trivial, trivial⟩ hleaves
  have hseven : ∃ n : Int, (Value.int 7).integer? = some n ∧ IntRepr.u8.fits n = true :=
    ⟨7, rfl, rfl⟩
  have hcanonical : pairLayout.Canonical (.record ⟨"Pair", [], true, ["left", "accent"]⟩
      [("left", .int 7), ("accent", .record ⟨"Accent", [], false, []⟩ [])]) :=
    ⟨_, _, rfl, rfl, rfl, _, _, rfl, hseven, _, _, rfl, rfl, rfl⟩
  have hcanonical' : regroupedLayout.Canonical
      (.tuple [.tuple [.int 7], .record ⟨"Accent", [], false, []⟩ []]) :=
    ⟨_, rfl, _, _, rfl, ⟨_, rfl, _, _, rfl, hseven, rfl⟩, _, _, rfl, rfl, rfl⟩
  have hsame : List.Forall₂ (fun u v : Value => u.same v = true)
      [.int 7, .record ⟨"Accent", [], false, []⟩ []]
      [.int 7, .record ⟨"Accent", [], false, []⟩ []] :=
    .cons (Value.same_of_integer? rfl rfl) (.cons (by cbv) .nil)
  obtain ⟨data, -, -, h, h'⟩ := hencode _ _ hcanonical hcanonical' hsame
  exact ⟨hleaves, data, h, h'⟩

end Catalog

end FixedLayout
