import FixedLayout.Proofs.Slices
import FixedLayout.PackError
import FixedLayout.Layout.Check

/-!
# The leaves of a layout

A layout is a tree; its leaves from left to right, each with the bytes that it occupies and the
frames around it, say all there is to say about the bytes.

* `Leaf`: a leaf with its offset and the frames on the way up, innermost first;
* `Layout.leaves`, `Fields.leaves`: all leaves, depth first;
* `Layout.LengthsNonneg`: no declared length is negative;
* `Tiles`: leaves that follow each other without gaps from one offset to another;
* `Layout.tiles_leaves`: the leaves of a layout tile its bytes;
* `Layout.isLeaf_of_mem_leaves`: leaves are integers, byte strings, units and enumerations;
* `Layout.rootName_of_mem_leaves`: the outermost frame of every leaf belongs to the layout itself.
-/

namespace FixedLayout

/-- A leaf of a layout: what it holds, the offset of its first byte, and the frames on the way from
it up to the layout, innermost first. -/
structure Leaf where
  layout : Layout
  start : Int
  frames : List Frame

namespace Leaf

/-- The offset after the last byte. -/
def stop (leaf : Leaf) : Int := leaf.start + leaf.layout.size

/-- The type that the outermost frame belongs to; without frames, that of the leaf itself. -/
def rootName (leaf : Leaf) : String :=
  match leaf.frames.getLast? with
  | some frame => frame.typeName
  | none => leaf.layout.typeName

/-- The bytes of a leaf. -/
def range (leaf : Leaf) (data : Bytes) : Bytes := Bytes.slice data leaf.start leaf.stop

/-- A leaf of a child as a leaf of the composite that has the child at an offset. -/
def within (frame : Frame) (offset : Int) (leaf : Leaf) : Leaf :=
  ⟨leaf.layout, leaf.start + offset, leaf.frames ++ [frame]⟩

@[simp] theorem layout_within (frame : Frame) (offset : Int) (leaf : Leaf) :
    (leaf.within frame offset).layout = leaf.layout := rfl

@[simp] theorem start_within (frame : Frame) (offset : Int) (leaf : Leaf) :
    (leaf.within frame offset).start = leaf.start + offset := rfl

@[simp] theorem frames_within (frame : Frame) (offset : Int) (leaf : Leaf) :
    (leaf.within frame offset).frames = leaf.frames ++ [frame] := rfl

@[simp] theorem rootName_within (frame : Frame) (offset : Int) (leaf : Leaf) :
    (leaf.within frame offset).rootName = frame.typeName := by
  rw [rootName, frames_within, List.getLast?_concat]

theorem stop_within (frame : Frame) (offset : Int) (leaf : Leaf) :
    (leaf.within frame offset).stop = leaf.stop + offset := by
  simp only [stop, layout_within, start_within]
  omega

end Leaf

/-- The leaves of `n` elements of a given size from an index on. -/
def leavesOfRun (leaves : List Leaf) (frame : Int → Frame) (size : Int) : Nat → Nat → List Leaf
  | _, 0 => []
  | index, n + 1 =>
    leaves.map (·.within (frame index) (index * size)) ++
      leavesOfRun leaves frame size (index + 1) n

mutual

/-- The leaves of a layout from left to right. -/
def Layout.leaves : Layout → List Leaf
  | .composite form fields =>
    fields.leaves (form.frame (Layout.composite form fields).typeName) 0 0
  | .array element length =>
    leavesOfRun element.leaves (.entry (Layout.array element length).typeName) element.size 0
      length.toNat
  | l => [⟨l, 0, []⟩]

/-- The leaves of the fields from a given index and offset on. -/
def Fields.leaves (frame : String → Nat → Frame) : Fields → Nat → Int → List Leaf
  | .nil, _, _ => []
  | .cons name _ layout rest, index, start =>
    layout.leaves.map (·.within (frame name index) start) ++
      rest.leaves frame (index + 1) (start + layout.size)

end

mutual

/-- No length that a layout declares is negative. -/
def Layout.LengthsNonneg : Layout → Prop
  | .bytes length => 0 ≤ length
  | .composite _ fields => fields.LengthsNonneg
  | .array element length => element.LengthsNonneg ∧ 0 ≤ length
  | _ => True

/-- No length that the fields' layouts declare is negative. -/
def Fields.LengthsNonneg : Fields → Prop
  | .nil => True
  | .cons _ _ layout rest => layout.LengthsNonneg ∧ rest.LengthsNonneg

end

/-- Whether a layout has no parts of its own. -/
def Layout.IsLeaf : Layout → Prop
  | .composite _ _ | .array _ _ => False
  | _ => True

/-! ### Properties of all leaves -/

theorem forall_mem_leavesOfRun {P : Leaf → Prop} {leaves : List Leaf} {frame : Int → Frame}
    {size : Int} (h : ∀ leaf ∈ leaves, ∀ i : Nat, P (leaf.within (frame i) (i * size)))
    (index n : Nat) : ∀ leaf ∈ leavesOfRun leaves frame size index n, P leaf := by
  induction n generalizing index with
  | zero => exact fun _ hleaf => absurd hleaf List.not_mem_nil
  | succ n ih =>
    intro leaf hleaf
    rcases List.mem_append.1 hleaf with hfirst | hrest
    · obtain ⟨inner, hinner, rfl⟩ := List.mem_map.1 hfirst
      exact h inner hinner index
    · exact ih (index + 1) leaf hrest

mutual

/-- A property of single leaves that is kept on the way up holds of all leaves of a layout. -/
theorem Layout.forall_mem_leaves {P : Leaf → Prop} (hleaf : ∀ l : Layout, l.IsLeaf → P ⟨l, 0, []⟩)
    (hwithin : ∀ leaf frame offset, P leaf → P (leaf.within frame offset)) :
    ∀ l : Layout, ∀ leaf ∈ l.leaves, P leaf
  | .int _ => List.forall_mem_singleton.2 (hleaf _ trivial)
  | .bytes _ => List.forall_mem_singleton.2 (hleaf _ trivial)
  | .unit _ _ => List.forall_mem_singleton.2 (hleaf _ trivial)
  | .enumeration _ => List.forall_mem_singleton.2 (hleaf _ trivial)
  | .composite _ fields => fields.forall_mem_leaves hleaf hwithin _ 0 0
  | .array element _ => forall_mem_leavesOfRun
      (fun leaf h _ => hwithin leaf _ _ (element.forall_mem_leaves hleaf hwithin leaf h)) 0 _

theorem Fields.forall_mem_leaves {P : Leaf → Prop} (hleaf : ∀ l : Layout, l.IsLeaf → P ⟨l, 0, []⟩)
    (hwithin : ∀ leaf frame offset, P leaf → P (leaf.within frame offset)) :
    ∀ (fs : Fields) (frame : String → Nat → Frame) (index : Nat) (start : Int),
      ∀ leaf ∈ fs.leaves frame index start, P leaf
  | .nil, _, _, _ => fun _ h => absurd h List.not_mem_nil
  | .cons name _ layout rest, frame, index, start => by
    intro leaf h
    rcases List.mem_append.1 h with hfirst | hrest
    · obtain ⟨inner, hinner, rfl⟩ := List.mem_map.1 hfirst
      exact hwithin inner _ _ (layout.forall_mem_leaves hleaf hwithin inner hinner)
    · exact rest.forall_mem_leaves hleaf hwithin frame _ _ leaf hrest

end

/-- Leaves are integers, byte strings, units and enumerations. -/
theorem Layout.isLeaf_of_mem_leaves {l : Layout} {leaf : Leaf} (h : leaf ∈ l.leaves) :
    leaf.layout.IsLeaf :=
  Layout.forall_mem_leaves (P := fun leaf => leaf.layout.IsLeaf) (fun _ hl => hl)
    (fun _ _ _ hl => hl) l leaf h

theorem Form.typeName_frame (form : Form) (typeName name : String) (index : Nat) :
    (form.frame typeName name index).typeName = typeName := by
  unfold Form.frame
  split <;> rfl

theorem Fields.rootName_of_mem_leaves {typeName : String} {frame : String → Nat → Frame}
    (hframe : ∀ name index, (frame name index).typeName = typeName) :
    ∀ (fs : Fields) (index : Nat) (start : Int),
      ∀ leaf ∈ fs.leaves frame index start, leaf.rootName = typeName
  | .nil, _, _ => fun _ h => absurd h List.not_mem_nil
  | .cons name _ layout rest, index, start => by
    intro leaf h
    rcases List.mem_append.1 h with hfirst | hrest
    · obtain ⟨inner, -, rfl⟩ := List.mem_map.1 hfirst
      rw [Leaf.rootName_within, hframe]
    · exact rest.rootName_of_mem_leaves hframe _ _ leaf hrest

/-- The outermost frame of every leaf belongs to the layout itself. -/
theorem Layout.rootName_of_mem_leaves (l : Layout) :
    ∀ leaf ∈ l.leaves, leaf.rootName = l.typeName := by
  cases l with
  | composite form fields =>
    exact fields.rootName_of_mem_leaves (form.typeName_frame _) 0 0
  | array element length =>
    exact forall_mem_leavesOfRun (fun leaf _ i => leaf.rootName_within _ _) 0 _
  | _ => exact List.forall_mem_singleton.2 rfl

/-! ### Sizes -/

mutual

theorem Layout.size_nonneg : ∀ l : Layout, l.LengthsNonneg → 0 ≤ l.size
  | .int r, _ => by
    simp only [Layout.size]
    omega
  | .bytes _, h => h
  | .unit _ literal, _ => by
    simp only [Layout.size]
    omega
  | .enumeration e, _ => by
    simp only [Layout.size]
    omega
  | .composite _ fields, h => fields.size_nonneg h
  | .array element _, ⟨he, hn⟩ => Int.mul_nonneg (element.size_nonneg he) hn

theorem Fields.size_nonneg : ∀ fs : Fields, fs.LengthsNonneg → 0 ≤ fs.size
  | .nil, _ => Int.le_refl 0
  | .cons _ _ layout rest, ⟨hl, hr⟩ => Int.add_nonneg (layout.size_nonneg hl) (rest.size_nonneg hr)

end

/-- The elements of an array fill it. -/
theorem Layout.size_array (element : Layout) {n : Int} (h : 0 ≤ n) :
    (Layout.array element n).size = n.toNat * element.size := by
  rw [Layout.size, Int.toNat_of_nonneg h, Int.mul_comm]

/-- An element ends where the next one starts. -/
theorem offset_succ (index : Nat) (size : Int) :
    ((index : Int) + 1) * size = index * size + size := by
  rw [Int.add_mul, Int.one_mul]

/-- The offset of the element that lies `n` elements further on. -/
theorem offset_add (index n : Nat) (size : Int) :
    ((index + n : Nat) : Int) * size = index * size + n * size := by
  rw [Int.natCast_add, Int.add_mul]

/-- The first of several elements from an index on lies inside the bytes that have room for all of
them, and its slice has its size. -/
theorem element_bounds {size : Int} (hsize : 0 ≤ size) {data : Bytes} {index n : Nat}
    (h : ((index + (n + 1) : Nat) : Int) * size ≤ data.length) :
    0 ≤ (index : Int) * size ∧ ((index : Int) + 1) * size = index * size + size ∧
      ((index : Int) + 1) * size ≤ data.length ∧
      ((Bytes.slice data (index * size) ((index + 1) * size)).length : Int) = size := by
  have h0 : 0 ≤ (index : Int) * size := Int.mul_nonneg (Int.natCast_nonneg index) hsize
  have hrest : 0 ≤ (n : Int) * size := Int.mul_nonneg (Int.natCast_nonneg n) hsize
  have hstep := offset_succ index size
  have hend : ((index + (n + 1) : Nat) : Int) * size = index * size + (n * size + size) := by
    rw [offset_add, Int.natCast_add, Int.natCast_one, offset_succ]
  refine ⟨h0, hstep, by omega, ?_⟩
  rw [Bytes.length_slice_of_le h0 (by omega) (by omega)]
  omega

/-! ### Tilings -/

/-- Leaves that follow each other without gaps from one offset to another. -/
def Tiles : Int → Int → List Leaf → Prop
  | lo, hi, [] => lo = hi
  | lo, hi, leaf :: rest => leaf.start = lo ∧ 0 ≤ leaf.layout.size ∧ Tiles leaf.stop hi rest

theorem Tiles.le {lo hi : Int} {leaves : List Leaf} (h : Tiles lo hi leaves) : lo ≤ hi := by
  induction leaves generalizing lo with
  | nil => exact Int.le_of_eq h
  | cons leaf rest ih =>
    obtain ⟨hstart, hsize, hrest⟩ := h
    have hle := ih hrest
    unfold Leaf.stop at hle
    omega

/-- A leaf of a tiling lies between its ends. -/
theorem Tiles.bounds {lo hi : Int} {leaves : List Leaf} (h : Tiles lo hi leaves) {leaf : Leaf}
    (hmem : leaf ∈ leaves) : lo ≤ leaf.start ∧ leaf.start ≤ leaf.stop ∧ leaf.stop ≤ hi := by
  induction leaves generalizing lo with
  | nil => cases hmem
  | cons first rest ih =>
    obtain ⟨hstart, hsize, hrest⟩ := h
    have hle := hrest.le
    unfold Leaf.stop at *
    rcases List.mem_cons.1 hmem with rfl | hmem
    · omega
    · have := ih hrest hmem
      omega

theorem Tiles.size_nonneg {lo hi : Int} {leaves : List Leaf} (h : Tiles lo hi leaves) {leaf : Leaf}
    (hmem : leaf ∈ leaves) : 0 ≤ leaf.layout.size := by
  have hbounds := h.bounds hmem
  unfold Leaf.stop at hbounds
  omega

/-- Strings that agree on each leaf of a tiling agree between its ends. -/
theorem Tiles.slice_eq {lo hi : Int} {leaves : List Leaf} (h : Tiles lo hi leaves) (h0 : 0 ≤ lo)
    {xs ys : Bytes} (hxs : hi ≤ xs.length) (hys : hi ≤ ys.length)
    (heq : ∀ leaf ∈ leaves, leaf.range xs = leaf.range ys) :
    Bytes.slice xs lo hi = Bytes.slice ys lo hi := by
  induction leaves generalizing lo with
  | nil =>
    obtain rfl : lo = hi := h
    rw [Bytes.slice_self, Bytes.slice_self]
  | cons leaf rest ih =>
    obtain ⟨hstart, hsize, hrest⟩ := h
    obtain ⟨hleaf, hothers⟩ := List.forall_mem_cons.1 heq
    have hle := hrest.le
    have hstop : leaf.stop = lo + leaf.layout.size := by rw [Leaf.stop, hstart]
    unfold Leaf.range at hleaf
    rw [hstart] at hleaf
    -- the first leaf ends where the others start
    rw [← Bytes.slice_append_slice h0 (by omega) hle hxs, hleaf, ih hrest (by omega) hothers,
      Bytes.slice_append_slice h0 (by omega) hle hys]

theorem Tiles.append {lo mid hi : Int} {xs ys : List Leaf} (hx : Tiles lo mid xs)
    (hy : Tiles mid hi ys) : Tiles lo hi (xs ++ ys) := by
  induction xs generalizing lo with
  | nil =>
    cases hx
    exact hy
  | cons leaf rest ih =>
    obtain ⟨hstart, hsize, hrest⟩ := hx
    exact ⟨hstart, hsize, ih hrest⟩

/-- Items that are as long as the leaves of a tiling have together the length of what it covers. -/
theorem Tiles.length_flatMap {α β : Type} {leafOf : α → Leaf} {items : α → List β} {lo hi : Int}
    {xs : List α} (h : Tiles lo hi (xs.map leafOf))
    (hitems : ∀ x ∈ xs, ((items x).length : Int) = (leafOf x).layout.size) :
    ((xs.flatMap items).length : Int) = hi - lo := by
  induction xs generalizing lo with
  | nil =>
    have heq : lo = hi := h
    rw [heq, Int.sub_self]
    rfl
  | cons x rest ih =>
    have hstart : (leafOf x).start = lo := h.1
    have hrest : Tiles (leafOf x).stop hi (rest.map leafOf) := h.2.2
    obtain ⟨hx, hxs⟩ := List.forall_mem_cons.1 hitems
    rw [List.flatMap_cons, List.length_append, Int.natCast_add, hx, ih hrest hxs, Leaf.stop]
    omega

/-- Where the first leaves of a tiling end, the others start. -/
theorem Tiles.split {lo hi : Int} {xs ys : List Leaf} (h : Tiles lo hi (xs ++ ys)) :
    ∃ mid, Tiles lo mid xs ∧ Tiles mid hi ys := by
  induction xs generalizing lo with
  | nil => exact ⟨lo, rfl, h⟩
  | cons leaf xs ih =>
    obtain ⟨hstart, hsize, hrest⟩ := h
    obtain ⟨mid, hxs, hys⟩ := ih hrest
    exact ⟨mid, ⟨hstart, hsize, hxs⟩, hys⟩

/-- The tiling of a child is one of its place in the composite. -/
theorem Tiles.within {lo hi : Int} {leaves : List Leaf} (h : Tiles lo hi leaves) (frame : Frame)
    (offset : Int) : Tiles (lo + offset) (hi + offset) (leaves.map (·.within frame offset)) := by
  induction leaves generalizing lo with
  | nil => exact congrArg (· + offset) h
  | cons leaf rest ih =>
    obtain ⟨hstart, hsize, hrest⟩ := h
    refine ⟨congrArg (· + offset) hstart, hsize, ?_⟩
    rw [Leaf.stop_within]
    exact ih hrest

theorem tiles_leavesOfRun {leaves : List Leaf} {size : Int} (h : Tiles 0 size leaves)
    (frame : Int → Frame) (index n : Nat) :
    Tiles (index * size) ((index + n : Nat) * size) (leavesOfRun leaves frame size index n) := by
  induction n generalizing index with
  | zero => rfl
  | succ n ih =>
    have hfirst := h.within (frame index) (index * size)
    have hrest := ih (index + 1)
    rw [Int.zero_add] at hfirst
    have hmid : size + index * size = ((index + 1 : Nat) : Int) * size := by
      rw [Int.natCast_add, Int.natCast_one, offset_succ, Int.add_comm]
    rw [hmid] at hfirst
    rw [Nat.add_right_comm] at hrest
    exact hfirst.append hrest

mutual

/-- The leaves of a layout tile its bytes. -/
theorem Layout.tiles_leaves : ∀ l : Layout, l.LengthsNonneg → Tiles 0 l.size l.leaves
  | .int r, h => ⟨rfl, Layout.size_nonneg _ h, Int.zero_add _⟩
  | .bytes n, h => ⟨rfl, Layout.size_nonneg _ h, Int.zero_add _⟩
  | .unit cls literal, h => ⟨rfl, Layout.size_nonneg _ h, Int.zero_add _⟩
  | .enumeration e, h => ⟨rfl, Layout.size_nonneg _ h, Int.zero_add _⟩
  | .composite form fields, h => by
    have hfields := fields.tiles_leaves h (form.frame (Layout.composite form fields).typeName) 0 0
    rw [Int.zero_add] at hfields
    exact hfields
  | .array element n, ⟨he, hn⟩ => by
    have hrun := tiles_leavesOfRun (element.tiles_leaves he)
      (.entry (Layout.array element n).typeName) 0 n.toNat
    rw [Nat.zero_add, Int.natCast_zero, Int.zero_mul] at hrun
    rw [Layout.size_array element hn]
    exact hrun

/-- The leaves of fields tile the bytes from the first field's offset on. -/
theorem Fields.tiles_leaves : ∀ fs : Fields, fs.LengthsNonneg →
    ∀ (frame : String → Nat → Frame) (index : Nat) (start : Int),
      Tiles start (start + fs.size) (fs.leaves frame index start)
  | .nil, _, _, _, start => (Int.add_zero start).symm
  | .cons name _ layout rest, ⟨hl, hr⟩, frame, index, start => by
    have hfirst := (layout.tiles_leaves hl).within (frame name index) start
    have hrest := rest.tiles_leaves hr frame (index + 1) (start + layout.size)
    rw [Int.zero_add, Int.add_comm layout.size start] at hfirst
    rw [Int.add_assoc] at hrest
    exact hfirst.append hrest

end

/-- In a string of zeros every leaf has zeros. -/
theorem Layout.range_zeros {l : Layout} (hl : l.LengthsNonneg) {leaf : Leaf} (h : leaf ∈ l.leaves) :
    leaf.range (Bytes.zeros l.size.toNat) = Bytes.zeros leaf.layout.size.toNat := by
  have hbounds := (l.tiles_leaves hl).bounds h
  have hsize : leaf.stop - leaf.start = leaf.layout.size := by
    unfold Leaf.stop
    omega
  unfold Leaf.range
  rw [Bytes.slice_zeros hbounds.1 hbounds.2.1 (by omega), hsize]

end FixedLayout
