import FixedLayout.Proofs.Objects
import FixedLayout.Proofs.Outcomes

/-!
# Bytes that are decoded without a check

Decoding looks at every leaf but the units. On bytes that have not been checked it fails at the
first enumeration that holds no declared discriminant, and nowhere else; what it gives otherwise is
encoded as the same bytes with the literals of the units put in their place.

* `Leaf.Declared`: an enumeration leaf holds one of its discriminants;
* `decodeAll`, `Layout.decode_eq_decodeAll`: a layout is decoded as its leaves are, one after
  another;
* `Layout.decode_congr`: the bytes of units make no difference;
* `Layout.restore`: bytes with the literals of all units put in place;
* `Layout.decode_eq_ok_iff`, `Layout.decode_eq_error`: when decoding succeeds, and how it fails;
* `Session.decode_without_check`: all of this for a type, on bytes and on objects that lend them.
-/

namespace FixedLayout

/-- The bytes of a unit; other layouts are not bound to any bytes. -/
def Layout.literalBytes? : Layout → Option Bytes
  | .unit _ literal => some literal.packed
  | _ => none

/-! ### Leaves inside a child -/

/-- The bytes of a leaf of a child are those of the leaf of the composite that it is. -/
theorem Leaf.range_slice {data : Bytes} {start stop : Int} (h0 : 0 ≤ start)
    (h1 : stop ≤ data.length) {leaf : Leaf} (h2 : 0 ≤ leaf.start) (h3 : leaf.start ≤ leaf.stop)
    (h4 : leaf.stop ≤ stop - start) (frame : Frame) :
    leaf.range (Bytes.slice data start stop) = (leaf.within frame start).range data := by
  unfold Leaf.range
  rw [Bytes.slice_slice h0 h1 h2 h3 h4, Leaf.stop_within, Leaf.start_within]

/-- The only leaf of a layout without parts has all bytes. -/
theorem Leaf.range_all {l : Layout} {data : Bytes} (h : (data.length : Int) = l.size) :
    (⟨l, 0, []⟩ : Leaf).range data = data := by
  unfold Leaf.range Leaf.stop
  rw [Int.zero_add, ← h, Bytes.slice_all]

theorem Layout.leaves_of_isLeaf {l : Layout} (h : l.IsLeaf) : l.leaves = [⟨l, 0, []⟩] := by
  cases l with
  | composite form fields => exact h.elim
  | array element n => exact h.elim
  | _ => rfl

/-! ### Decoding leaf by leaf -/

/-- The decoding of one leaf in the bytes of the whole layout. -/
def Leaf.decode (leaf : Leaf) (data : Bytes) : Except DecodeFault Value :=
  leaf.layout.decode (leaf.range data)

/-- The decoding of leaves one after another, up to the first that fails. -/
def decodeAll (data : Bytes) : List Leaf → Except DecodeFault Unit
  | [] => .ok ()
  | leaf :: rest => do
    discard (leaf.decode data)
    decodeAll data rest

theorem decodeAll_append (data : Bytes) (xs ys : List Leaf) :
    decodeAll data (xs ++ ys) = (decodeAll data xs >>= fun _ => decodeAll data ys) := by
  induction xs with
  | nil => rfl
  | cons leaf xs ih =>
    rw [List.cons_append, decodeAll, decodeAll, ih]
    cases leaf.decode data <;> rfl

/-- The leaves of a child are decoded as the leaves of the composite that they are. -/
theorem decodeAll_slice {data : Bytes} {start stop : Int} (h0 : 0 ≤ start)
    (h1 : stop ≤ data.length) {lo hi : Int} (hlo : 0 ≤ lo) (hhi : hi ≤ stop - start)
    {leaves : List Leaf} (h : Tiles lo hi leaves) (frame : Frame) :
    decodeAll (Bytes.slice data start stop) leaves =
      decodeAll data (leaves.map (·.within frame start)) := by
  induction leaves generalizing lo with
  | nil => rfl
  | cons leaf rest ih =>
    have hbounds := h.bounds (List.mem_cons_self ..)
    have hrange := Leaf.range_slice h0 h1 (by omega : 0 ≤ leaf.start) (by omega) (by omega) frame
    rw [List.map_cons, decodeAll, decodeAll, ih (by omega) h.2.2, Leaf.decode, hrange]
    rfl

/-- Two computations one after another, without what they return. -/
theorem discard_bind₂ {ε α β γ : Type} (r : Except ε α) (s : Except ε β) (g : α → β → γ) :
    discard (do let a ← r; let b ← s; return g a b) =
      (discard r >>= fun _ => discard s : Except ε Unit) := by
  cases r with
  | error e => rfl
  | ok a => cases s <;> rfl

theorem Layout.decode_eq_decodeAll_of_isLeaf {l : Layout} (hl : l.IsLeaf) {data : Bytes}
    (h : (data.length : Int) = l.size) : discard (l.decode data) = decodeAll data l.leaves := by
  rw [Layout.leaves_of_isLeaf hl, decodeAll, Leaf.decode, Leaf.range_all h]
  cases l.decode data <;> rfl

/-- Elements are decoded as the leaves of the array. -/
theorem decodeRun_eq_decodeAll {decode : Bytes → Except DecodeFault Value} {leaves : List Leaf}
    {size : Int} (hleaves : Tiles 0 size leaves)
    (hdecode : ∀ data : Bytes, (data.length : Int) = size →
      discard (decode data) = decodeAll data leaves)
    (frame : Int → Frame) {data : Bytes} (index n : Nat)
    (h : ((index + n : Nat) : Int) * size ≤ data.length) :
    discard (decodeRun decode size data index n) =
      decodeAll data (leavesOfRun leaves frame size index n) := by
  induction n generalizing index with
  | zero => rfl
  | succ n ih =>
    obtain ⟨h0, hstep, hstop, hlen⟩ := element_bounds hleaves.le h
    have hfirst := decodeAll_slice h0 hstop (Int.le_refl 0) (by omega) hleaves (frame index)
    rw [decodeRun, leavesOfRun, decodeAll_append, ← hfirst, ← hdecode _ hlen,
      ← ih (index + 1) (by rwa [Nat.add_right_comm])]
    exact discard_bind₂ _ _ _

mutual

/-- A layout is decoded as its leaves are. -/
theorem Layout.decode_eq_decodeAll : ∀ l : Layout, l.LengthsNonneg →
    ∀ data : Bytes, (data.length : Int) = l.size →
      discard (l.decode data) = decodeAll data l.leaves
  | .int r, _, data, h => Layout.decode_eq_decodeAll_of_isLeaf (l := .int r) trivial h
  | .bytes n, _, data, h => Layout.decode_eq_decodeAll_of_isLeaf (l := .bytes n) trivial h
  | .unit cls literal, _, data, h =>
    Layout.decode_eq_decodeAll_of_isLeaf (l := .unit cls literal) trivial h
  | .enumeration e, _, data, h =>
    Layout.decode_eq_decodeAll_of_isLeaf (l := .enumeration e) trivial h
  | .composite form fields, hl, data, h => by
    have hfields := fields.decode_eq_decodeAll hl
      (form.frame (Layout.composite form fields).typeName) 0 0 data (Int.le_refl 0)
      (by rw [Int.zero_add]; exact Int.le_of_eq h.symm)
    unfold Layout.decode Layout.leaves
    rw [← hfields]
    cases fields.decode 0 data <;> rfl
  | .array element n, ⟨he, hn⟩, data, h => by
    have hroom : ((0 + n.toNat : Nat) : Int) * element.size ≤ data.length :=
      Int.le_of_eq (by rw [Nat.zero_add, ← Layout.size_array element hn, h])
    have hrun := decodeRun_eq_decodeAll (element.tiles_leaves he) (element.decode_eq_decodeAll he)
      (.entry (Layout.array element n).typeName) 0 n.toNat hroom
    unfold Layout.decode Layout.leaves
    rw [← hrun]
    cases decodeRun element.decode element.size data 0 n.toNat <;> rfl

/-- Fields are decoded as their leaves are. -/
theorem Fields.decode_eq_decodeAll : ∀ fs : Fields, fs.LengthsNonneg →
    ∀ (frame : String → Nat → Frame) (index : Nat) (start : Int) (data : Bytes), 0 ≤ start →
      start + fs.size ≤ data.length →
        discard (fs.decode start data) = decodeAll data (fs.leaves frame index start)
  | .nil, _, _, _, _, _, _, _ => rfl
  | .cons name _ layout rest, ⟨hl, hr⟩, frame, index, start, data, h0, h1 => by
    have hsize := layout.size_nonneg hl
    have hrest := rest.size_nonneg hr
    rw [Fields.size] at h1
    have hlen : ((Bytes.slice data start (start + layout.size)).length : Int) = layout.size := by
      rw [Bytes.length_slice_of_le h0 (by omega) (by omega)]
      omega
    have hfirst := decodeAll_slice h0 (by omega : start + layout.size ≤ data.length)
      (Int.le_refl 0) (by omega) (layout.tiles_leaves hl) (frame name index)
    rw [Fields.decode, Fields.leaves, decodeAll_append, ← hfirst,
      ← layout.decode_eq_decodeAll hl _ hlen,
      ← rest.decode_eq_decodeAll hr frame (index + 1) _ data (by omega) (by omega)]
    exact discard_bind₂ _ _ _

end

/-! ### Bytes that make no difference -/

theorem Layout.decode_congr_of_isLeaf {l : Layout} (hl : l.IsLeaf) {xs ys : Bytes}
    (hx : (xs.length : Int) = l.size) (hy : (ys.length : Int) = l.size)
    (h : ∀ leaf ∈ l.leaves, leaf.layout.literalBytes? = none → leaf.range xs = leaf.range ys) :
    l.decode xs = l.decode ys := by
  rw [Layout.leaves_of_isLeaf hl, List.forall_mem_singleton, Leaf.range_all hx,
    Leaf.range_all hy] at h
  cases l with
  | unit cls literal => rfl
  | composite form fields => exact hl.elim
  | array element n => exact hl.elim
  | _ => rw [h rfl]

theorem decodeRun_congr {decode : Bytes → Except DecodeFault Value} {leaves : List Leaf}
    {size : Int} (hleaves : Tiles 0 size leaves) {xs ys : Bytes} (hlen : xs.length = ys.length)
    (hdecode : ∀ xs ys : Bytes, (xs.length : Int) = size → (ys.length : Int) = size →
      (∀ leaf ∈ leaves, leaf.layout.literalBytes? = none → leaf.range xs = leaf.range ys) →
        decode xs = decode ys)
    (frame : Int → Frame) (index n : Nat) (hroom : ((index + n : Nat) : Int) * size ≤ xs.length)
    (h : ∀ leaf ∈ leavesOfRun leaves frame size index n, leaf.layout.literalBytes? = none →
      leaf.range xs = leaf.range ys) :
    decodeRun decode size xs index n = decodeRun decode size ys index n := by
  induction n generalizing index with
  | zero => rfl
  | succ n ih =>
    obtain ⟨h0, hstep, hstop, hx⟩ := element_bounds hleaves.le hroom
    obtain ⟨-, -, hstop', hy⟩ := element_bounds hleaves.le (hlen ▸ hroom)
    obtain ⟨hfirst, hothers⟩ := List.forall_mem_append.1 h
    have hsame := hdecode _ _ hx hy fun leaf hleaf hnone => by
      have hbounds := hleaves.bounds hleaf
      rw [Leaf.range_slice h0 hstop (by omega) (by omega) (by omega) (frame index),
        Leaf.range_slice h0 hstop' (by omega) (by omega) (by omega) (frame index)]
      exact hfirst _ (List.mem_map_of_mem hleaf) hnone
    rw [decodeRun, decodeRun, hsame, ih (index + 1) (by rwa [Nat.add_right_comm]) hothers]

mutual

/-- Bytes that agree in all leaves but the units are decoded alike. -/
theorem Layout.decode_congr : ∀ l : Layout, l.LengthsNonneg → ∀ xs ys : Bytes,
    (xs.length : Int) = l.size → (ys.length : Int) = l.size →
      (∀ leaf ∈ l.leaves, leaf.layout.literalBytes? = none → leaf.range xs = leaf.range ys) →
        l.decode xs = l.decode ys
  | .int r, _, _, _, hx, hy, h => Layout.decode_congr_of_isLeaf (l := .int r) trivial hx hy h
  | .bytes n, _, _, _, hx, hy, h => Layout.decode_congr_of_isLeaf (l := .bytes n) trivial hx hy h
  | .unit cls literal, _, _, _, hx, hy, h =>
    Layout.decode_congr_of_isLeaf (l := .unit cls literal) trivial hx hy h
  | .enumeration e, _, _, _, hx, hy, h =>
    Layout.decode_congr_of_isLeaf (l := .enumeration e) trivial hx hy h
  | .composite form fields, hl, xs, ys, hx, hy, h => by
    have hroom : 0 + fields.size ≤ xs.length := by
      rw [Int.zero_add]
      exact Int.le_of_eq hx.symm
    have hlen : xs.length = ys.length := Int.ofNat.inj (hx.trans hy.symm)
    unfold Layout.decode
    rw [fields.decode_congr hl _ 0 0 xs ys (Int.le_refl 0) hlen hroom h]
  | .array element n, ⟨he, hn⟩, xs, ys, hx, hy, h => by
    have hroom : ((0 + n.toNat : Nat) : Int) * element.size ≤ xs.length :=
      Int.le_of_eq (by rw [Nat.zero_add, ← Layout.size_array element hn, hx])
    have hlen : xs.length = ys.length := Int.ofNat.inj (hx.trans hy.symm)
    unfold Layout.decode
    rw [decodeRun_congr (element.tiles_leaves he) hlen (element.decode_congr he) _ 0 n.toNat hroom
      h]

theorem Fields.decode_congr : ∀ fs : Fields, fs.LengthsNonneg →
    ∀ (frame : String → Nat → Frame) (index : Nat) (start : Int) (xs ys : Bytes), 0 ≤ start →
      xs.length = ys.length → start + fs.size ≤ xs.length →
        (∀ leaf ∈ fs.leaves frame index start, leaf.layout.literalBytes? = none →
          leaf.range xs = leaf.range ys) → fs.decode start xs = fs.decode start ys
  | .nil, _, _, _, _, _, _, _, _, _, _ => rfl
  | .cons name _ layout rest, ⟨hl, hr⟩, frame, index, start, xs, ys, h0, hlen, h1, h => by
    have hsize := layout.size_nonneg hl
    have hrest := rest.size_nonneg hr
    rw [Fields.size] at h1
    obtain ⟨hfirst, hothers⟩ := List.forall_mem_append.1 h
    have hx : ((Bytes.slice xs start (start + layout.size)).length : Int) = layout.size := by
      rw [Bytes.length_slice_of_le h0 (by omega) (by omega)]
      omega
    have hy : ((Bytes.slice ys start (start + layout.size)).length : Int) = layout.size := by
      rw [Bytes.length_slice_of_le h0 (by omega) (by omega)]
      omega
    have hsame := layout.decode_congr hl _ _ hx hy fun leaf hleaf hnone => by
      have hbounds := (layout.tiles_leaves hl).bounds hleaf
      rw [Leaf.range_slice h0 (by omega) (by omega) (by omega) (by omega) (frame name index),
        Leaf.range_slice h0 (by omega) (by omega) (by omega) (by omega) (frame name index)]
      exact hfirst _ (List.mem_map_of_mem hleaf) hnone
    rw [Fields.decode, Fields.decode, hsame,
      rest.decode_congr hr frame (index + 1) _ xs ys (by omega) hlen (by omega) hothers]

end

/-! ### Literals put in place -/

namespace Leaf

/-- What a leaf puts over its bytes: a unit its literal, every other leaf nothing. -/
def literalPatch (leaf : Leaf) : List (Option UInt8) :=
  match leaf.layout.literalBytes? with
  | some content => content.map some
  | none => List.replicate leaf.layout.size.toNat none

/-- The bytes of a leaf once the literals of units have been put in place. -/
def restored (leaf : Leaf) (data : Bytes) : Bytes :=
  leaf.layout.literalBytes?.getD (leaf.range data)

end Leaf

theorem Layout.size_of_literalBytes? {l : Layout} {content : Bytes}
    (h : l.literalBytes? = some content) : l.size = content.length := by
  cases l with
  | unit cls literal => cases h; rfl
  | _ => cases h

theorem Leaf.length_literalPatch {leaf : Leaf} (h : 0 ≤ leaf.layout.size) :
    (leaf.literalPatch.length : Int) = leaf.layout.size := by
  unfold literalPatch
  cases hliteral : leaf.layout.literalBytes? with
  | some content =>
    simp only [List.length_map]
    exact (Layout.size_of_literalBytes? hliteral).symm
  | none =>
    simp only [List.length_replicate]
    exact Int.toNat_of_nonneg h

/-- Bytes with the literals of all units put in place. -/
def Layout.restore (l : Layout) (data : Bytes) : Bytes :=
  Bytes.overlay (l.leaves.flatMap Leaf.literalPatch) data

/-! ### What is decoded -/

/-- Whether the bytes of an enumeration are one of its discriminants; nothing is asked of other
leaves. -/
def Layout.Declares : Layout → Bytes → Prop
  | .enumeration e, data => e.repr.fromBytes data ∈ e.discriminants
  | _, _ => True

instance (l : Layout) (data : Bytes) : Decidable (l.Declares data) :=
  match l with
  | .enumeration e => inferInstanceAs (Decidable (e.repr.fromBytes data ∈ e.discriminants))
  | .int _ | .bytes _ | .unit _ _ | .composite _ _ | .array _ _ => inferInstanceAs (Decidable True)

/-- Whether a leaf holds a declared discriminant, if it is an enumeration. -/
def Leaf.Declared (leaf : Leaf) (data : Bytes) : Prop := leaf.layout.Declares (leaf.range data)

instance (leaf : Leaf) (data : Bytes) : Decidable (leaf.Declared data) :=
  inferInstanceAs (Decidable (leaf.layout.Declares _))

/-- A leaf accepts bytes that are those of its literal, if it is a unit, and that are declared, if
it is an enumeration. -/
theorem Layout.accepts_iff {l : Layout} {data : Bytes} :
    l.Accepts data ↔ (∀ content, l.literalBytes? = some content → data = content) ∧
      l.Declares data := by
  cases l with
  | unit cls literal =>
    constructor
    · exact fun h => ⟨fun content hcontent => Option.some.inj hcontent ▸ h, trivial⟩
    · exact fun h => h.1 _ rfl
  | enumeration e => exact ⟨fun h => ⟨nofun, h⟩, fun h => h.2⟩
  | _ => exact ⟨fun _ => ⟨nofun, trivial⟩, fun _ => trivial⟩

/-- A leaf is decoded if it declares its bytes. If not, it is an enumeration, and the error names it
and the discriminant. -/
theorem Layout.decode_of_isLeaf {l : Layout} (hl : l.IsLeaf) {data : Bytes}
    (hlen : (data.length : Int) = l.size) :
    (l.Declares data ∧ ∃ v, l.decode data = .ok v) ∨
      ¬ l.Declares data ∧ ∃ e, l = .enumeration e ∧
        l.decode data = .error (.unknown ⟨e.name, e.repr.fromBytes data⟩) := by
  cases l with
  | int r =>
    refine .inl ⟨trivial, .int (r.fromBytes data), ?_⟩
    rw [Layout.decode, r.read_of_length (Int.ofNat.inj hlen)]
  | bytes n => exact .inl ⟨trivial, _, rfl⟩
  | unit cls literal => exact .inl ⟨trivial, _, rfl⟩
  | enumeration e =>
    have hread := e.repr.read_of_length (Int.ofNat.inj hlen)
    have hdeclares := e.variant?_isSome_iff (e.repr.fromBytes data)
    cases hv : e.variant? (e.repr.fromBytes data) with
    | some v =>
      refine .inl ⟨hdeclares.1 ⟨v, hv⟩, .member e.name v.1 e.integral (.int v.2), ?_⟩
      rw [Layout.decode, Enumeration.decode, hread]
      simp only [hv]
    | none =>
      refine .inr ⟨fun h => ?_, e, rfl, ?_⟩
      · obtain ⟨v, hv'⟩ := hdeclares.2 h
        rw [hv] at hv'
        cases hv'
      · rw [Layout.decode, Enumeration.decode, hread]
        simp only [hv]
  | composite form fields => exact hl.elim
  | array element n => exact hl.elim

theorem discard_eq_ok_iff {ε α : Type} {r : Except ε α} :
    (discard r : Except ε Unit) = .ok () ↔ ∃ a, r = .ok a := by
  cases r with
  | ok a => exact iff_of_true rfl ⟨a, rfl⟩
  | error e => exact iff_of_false nofun nofun

theorem discard_eq_error_iff {ε α : Type} {r : Except ε α} {e : ε} :
    (discard r : Except ε Unit) = .error e ↔ r = .error e := by
  cases r with
  | ok a => exact iff_of_false nofun nofun
  | error e' =>
    exact ⟨fun h => congrArg _ (Except.error.inj h), fun h => congrArg _ (Except.error.inj h)⟩

theorem decodeAll_eq_ok_iff {data : Bytes} {leaves : List Leaf} :
    decodeAll data leaves = .ok () ↔ ∀ leaf ∈ leaves, ∃ v, leaf.decode data = .ok v := by
  induction leaves with
  | nil => exact ⟨fun _ _ h => absurd h List.not_mem_nil, fun _ => rfl⟩
  | cons leaf rest ih =>
    rw [List.forall_mem_cons, ← ih, decodeAll]
    cases leaf.decode data with
    | ok v => exact ⟨fun h => ⟨⟨v, rfl⟩, h⟩, fun h => h.2⟩
    | error fault => exact ⟨nofun, fun h => (nomatch h.1)⟩

/-- The first leaf that fails decides how all leaves together fail. -/
theorem decodeAll_eq_error {data : Bytes} {before after : List Leaf} {leaf : Leaf}
    {fault : DecodeFault} (hbefore : ∀ x ∈ before, ∃ v, x.decode data = .ok v)
    (hleaf : leaf.decode data = .error fault) :
    decodeAll data (before ++ leaf :: after) = .error fault := by
  rw [decodeAll_append, decodeAll_eq_ok_iff.2 hbefore]
  show decodeAll data (leaf :: after) = .error fault
  rw [decodeAll, hleaf]
  rfl

/-- Unless all leaves are declared, there is a first one that is not. -/
theorem exists_first_undeclared {leaves : List Leaf} {data : Bytes}
    (h : ¬ ∀ leaf ∈ leaves, leaf.Declared data) :
    ∃ before leaf after, leaves = before ++ leaf :: after ∧
      (∀ x ∈ before, x.Declared data) ∧ ¬ leaf.Declared data := by
  cases hfind : leaves.find? fun leaf => !decide (leaf.Declared data) with
  | none =>
    refine absurd (fun leaf hleaf => ?_) h
    simpa using List.find?_eq_none.1 hfind leaf hleaf
  | some leaf =>
    obtain ⟨hnot, before, after, hsplit, hbefore⟩ := List.find?_eq_some_iff_append.1 hfind
    exact ⟨before, leaf, after, hsplit, by simpa using hbefore, by simpa using hnot⟩

@[simp] theorem Layout.length_restore (l : Layout) (data : Bytes) :
    (l.restore data).length = data.length :=
  Bytes.length_overlay _ _

section Layouts

variable {l : Layout} {data : Bytes} (hl : l.LengthsNonneg) (hlen : (data.length : Int) = l.size)

include hl hlen

theorem Layout.leaf_decode_eq_ok_iff {leaf : Leaf} (h : leaf ∈ l.leaves) :
    (∃ v, leaf.decode data = .ok v) ↔ leaf.Declared data := by
  rcases Layout.decode_of_isLeaf (Layout.isLeaf_of_mem_leaves h)
      (Layout.length_range hl hlen h) with
    ⟨hdeclared, hv⟩ | ⟨hnot, e, -, herr⟩
  · exact iff_of_true hv hdeclared
  · refine iff_of_false ?_ hnot
    rintro ⟨v, hv⟩
    rw [Leaf.decode, herr] at hv
    cases hv

/-- Decoding succeeds exactly if all enumerations hold declared discriminants. -/
theorem Layout.decode_eq_ok_iff :
    (∃ v, l.decode data = .ok v) ↔ ∀ leaf ∈ l.leaves, leaf.Declared data := by
  rw [← discard_eq_ok_iff, l.decode_eq_decodeAll hl data hlen, decodeAll_eq_ok_iff]
  exact forall_congr' fun leaf => forall_congr' fun h => Layout.leaf_decode_eq_ok_iff hl hlen h

/-- Decoding that fails names the first enumeration whose discriminant is not declared. -/
theorem Layout.decode_eq_error {before after : List Leaf} {leaf : Leaf}
    (hsplit : l.leaves = before ++ leaf :: after) (hbefore : ∀ x ∈ before, x.Declared data)
    (hleaf : ¬ leaf.Declared data) :
    ∃ e : Enumeration, leaf.layout = .enumeration e ∧
      l.decode data = .error (.unknown ⟨e.name, e.repr.fromBytes (leaf.range data)⟩) := by
  have hmem : leaf ∈ l.leaves := by
    rw [hsplit]
    exact List.mem_append_right before (List.mem_cons_self ..)
  rcases Layout.decode_of_isLeaf (Layout.isLeaf_of_mem_leaves hmem)
    (Layout.length_range hl hlen hmem) with ⟨hdeclared, -⟩ | ⟨-, e, he, herr⟩
  · exact absurd hdeclared hleaf
  refine ⟨e, he, ?_⟩
  rw [← discard_eq_error_iff, l.decode_eq_decodeAll hl data hlen, hsplit]
  refine decodeAll_eq_error (fun x hx => ?_) herr
  have hx' : x ∈ l.leaves := by
    rw [hsplit]
    exact List.mem_append_left _ hx
  exact (Layout.leaf_decode_eq_ok_iff hl hlen hx').2 (hbefore x hx)

/-- Putting the literals of units in place changes nothing else. -/
theorem Layout.range_restore {leaf : Leaf} (h : leaf ∈ l.leaves) :
    leaf.range (l.restore data) = leaf.restored data := by
  obtain ⟨before, after, hsplit⟩ := List.append_of_mem h
  have htiles := l.tiles_leaves hl
  have hsize : ∀ x ∈ l.leaves, (x.literalPatch.length : Int) = x.layout.size :=
    fun x hx => Leaf.length_literalPatch (htiles.size_nonneg hx)
  have hbounds := htiles.bounds h
  have hpatch := hsize leaf h
  rw [hsplit] at htiles hsize
  obtain ⟨mid, hbefore, hstart, -⟩ := htiles.split
  have htiled : Tiles 0 mid (before.map id) := by rwa [List.map_id]
  have hpre : ((before.flatMap Leaf.literalPatch).length : Int) = mid - 0 :=
    htiled.length_flatMap fun x hx => hsize x (List.mem_append_left _ hx)
  unfold Layout.restore Leaf.range
  rw [hsplit, List.flatMap_append, List.flatMap_cons, ← List.append_assoc,
    Bytes.slice_overlay (by omega) (by unfold Leaf.stop; omega) (by omega)]
  have hrange : Bytes.slice data leaf.start leaf.stop = leaf.range data := rfl
  have hlength := Layout.length_range hl hlen h
  rw [hrange]
  unfold Leaf.restored Leaf.literalPatch at *
  cases hliteral : leaf.layout.literalBytes? with
  | some content =>
    have hcontent := Layout.size_of_literalBytes? hliteral
    exact Bytes.overlay_map_some (by omega)
  | none => exact Bytes.overlay_eq_self (fun b hb => List.eq_of_mem_replicate hb) _

/-- The literals are in place already exactly if each unit has the bytes of its literal. -/
theorem Layout.restore_eq_self_iff : l.restore data = data ↔
    ∀ leaf ∈ l.leaves, ∀ content, leaf.layout.literalBytes? = some content →
      leaf.range data = content := by
  have hrestored : ∀ leaf ∈ l.leaves, leaf.range (l.restore data) = leaf.restored data :=
    fun leaf hleaf => Layout.range_restore hl hlen hleaf
  constructor
  · intro h leaf hleaf content hcontent
    rw [← h, hrestored leaf hleaf, Leaf.restored, hcontent]
    rfl
  · intro h
    have hranges : ∀ leaf ∈ l.leaves, leaf.range (l.restore data) = leaf.range data := by
      intro leaf hleaf
      rw [hrestored leaf hleaf, Leaf.restored]
      cases hcontent : leaf.layout.literalBytes? with
      | some content => exact (h leaf hleaf content hcontent).symm
      | none => rfl
    have hall := (l.tiles_leaves hl).slice_eq (Int.le_refl 0)
      (by rw [Layout.length_restore]; omega) (by omega) hranges
    rw [← hlen, Bytes.slice_all] at hall
    rwa [← l.length_restore data, Bytes.slice_all] at hall

/-- Once the literals are in place, the check finds nothing but undeclared discriminants. -/
theorem Layout.check_restore :
    l.check (l.restore data) = .ok () ↔ ∀ leaf ∈ l.leaves, leaf.Declared data := by
  rw [Layout.check_eq_ok_iff hl (by rw [Layout.length_restore]; exact hlen)]
  refine forall_congr' fun leaf => forall_congr' fun hleaf => ?_
  unfold Leaf.Holds Leaf.Declared
  rw [Layout.accepts_iff, Layout.range_restore hl hlen hleaf, Leaf.restored]
  cases hcontent : leaf.layout.literalBytes? with
  | none => exact ⟨fun h => h.2, fun h => ⟨nofun, h⟩⟩
  | some content =>
    -- a unit declares all bytes
    have hdeclares : ∀ data, leaf.layout.Declares data := by
      intro data
      cases hlayout : leaf.layout with
      | enumeration e => rw [hlayout] at hcontent; cases hcontent
      | _ => trivial
    exact iff_of_true ⟨fun _ h => Option.some.inj h, hdeclares _⟩ (hdeclares _)

/-- Bytes pass the check exactly if they are decoded and the literals are in place. -/
theorem Layout.check_iff_restore :
    l.check data = .ok () ↔ (∀ leaf ∈ l.leaves, leaf.Declared data) ∧ l.restore data = data := by
  rw [Layout.check_eq_ok_iff hl hlen, Layout.restore_eq_self_iff hl hlen, ← forall₂_and]
  refine forall_congr' fun leaf => forall_congr' fun _ => ?_
  rw [Leaf.Holds, Layout.accepts_iff, and_comm]
  rfl

/-- What is decoded is packed into the same bytes with the literals put in place. -/
theorem Layout.pack_of_decode (hnames : l.NamesNodup) {v : Value} (hv : l.decode data = .ok v) :
    l.pack v = .ok (l.restore data) := by
  have hrestore : ((l.restore data).length : Int) = l.size := by
    rw [Layout.length_restore]
    exact hlen
  have hdeclared := (Layout.decode_eq_ok_iff hl hlen).1 ⟨v, hv⟩
  -- decoding does not see the difference, and what is left after it passes the check
  have hsame : l.decode (l.restore data) = l.decode data := by
    refine l.decode_congr hl _ _ hrestore hlen fun leaf hleaf hnone => ?_
    rw [Layout.range_restore hl hlen hleaf, Leaf.restored, hnone]
    rfl
  obtain ⟨v', hv', hwrites⟩ :=
    l.exists_decode hl hnames _ hrestore ((Layout.check_restore hl hlen).2 hdeclared)
  rw [hsame, hv] at hv'
  cases hv'
  exact Layout.pack_of_writes hl hrestore hwrites

end Layouts

/-! ### Sessions -/

namespace Session

variable {w : Workspace} {t : TypeExpr} {o : Object} {l : Layout} {data : Bytes}

section Lent

variable (hlayout : (w.catalog.compile t w.cache).1 = .ok l) (ho : o.lends? w.store = some data)

include hlayout ho

/-- A view that is not checked shows the bytes that are lent. -/
theorem unchecked_of_lends : ∃ id window after, unchecked t o w = (.ok (.view id), after) ∧
    after.store.views[id]? = some ⟨l, window, false⟩ ∧ after.store.read window = data := by
  obtain ⟨window, between, hread, hrun⟩ := exists_lent hlayout ho
  refine ⟨_, window, _, hrun _, ?_, hread⟩
  exact Store.views_newView between.store l window (.refl _)

/-- Unpacking a view that has not been checked is unpacking the bytes that are lent. -/
theorem unchecked_unpack : ∃ after, (unchecked t o >>= unpack) w = unpackBytes l data after := by
  obtain ⟨id, window, after, hrun, hcell, hread⟩ := unchecked_of_lends hlayout ho
  refine ⟨after, ?_⟩
  rw [bind_of_ok hrun, unpack_view hcell rfl, hread]

theorem layoutDecode_eq : ∃ after, layoutDecode t o w = unpackBytes l data after := by
  obtain ⟨window, between, hread, hrun⟩ := exists_lent hlayout ho
  exact ⟨between, (hrun _).trans (bind_of_ok (read_eq hread))⟩

end Lent

/-- Bytes of the right number that have not been checked are decoded, or an enumeration holds an
undeclared discriminant; the first one that does is named by the error. What is decoded is encoded
as the same bytes, except that the ranges of units hold their literals. So it is encoded as these
very bytes exactly if they pass the check. The same goes for objects that lend the bytes, decoded by
the layout or through a view that is not checked. -/
theorem decode_without_check {c : Catalog} (h : c.layoutOf t = .ok l) (hl : l.LengthsNonneg)
    (hlen : (data.length : Int) = l.size) :
    ((∃ v, l.decode data = .ok v) ∨ ∃ e, l.decode data = .error (.unknown e)) ∧
    ((∃ fault, l.decode data = .error fault) ↔ ∃ leaf ∈ l.leaves, ¬ leaf.Declared data) ∧
    (∀ before leaf after, l.leaves = before ++ leaf :: after → (∀ x ∈ before, x.Declared data) →
      ¬ leaf.Declared data → ∃ e : Enumeration, leaf.layout = .enumeration e ∧
        l.decode data = .error (.unknown ⟨e.name, e.repr.fromBytes (leaf.range data)⟩)) ∧
    (∀ v, l.decode data = .ok v → c.encode v (some t) = .ok (l.restore data) ∧
      (c.encode v (some t) = .ok data ↔ c.check t data = .ok ())) ∧
    (Tiles 0 l.size l.leaves ∧ (l.restore data).length = data.length ∧
      ∀ leaf ∈ l.leaves, leaf.range (l.restore data) = leaf.restored data) ∧
    ∀ (w : Workspace) (o : Object), (w.catalog.compile t w.cache).1 = .ok l →
      o.lends? w.store = some data →
        (∀ v, l.decode data = .ok v →
          Returns (layoutDecode t o) w v ∧ Returns (unchecked t o >>= unpack) w v) ∧
        ∀ fault, l.decode data = .error fault → (layoutDecode t o w).1 = .error fault.toFault ∧
          ((unchecked t o >>= unpack) w).1 = .error fault.toFault := by
  have hiff := Layout.decode_eq_ok_iff hl hlen
  refine ⟨?_, ?_, ?_, ?_, ⟨l.tiles_leaves hl, l.length_restore data, ?_⟩, ?_⟩
  · by_cases hdeclared : ∀ leaf ∈ l.leaves, leaf.Declared data
    · exact .inl (hiff.2 hdeclared)
    · obtain ⟨before, leaf, after, hsplit, hbefore, hleaf⟩ := exists_first_undeclared hdeclared
      obtain ⟨e, -, herr⟩ := Layout.decode_eq_error hl hlen hsplit hbefore hleaf
      exact .inr ⟨_, herr⟩
  · have hfails : (∃ fault, l.decode data = .error fault) ↔ ¬ ∃ v, l.decode data = .ok v := by
      cases l.decode data with
      | ok v => exact iff_of_false nofun fun hnot => hnot ⟨v, rfl⟩
      | error fault => exact iff_of_true ⟨fault, rfl⟩ nofun
    rw [hfails, hiff]
    simp only [not_forall, exists_prop]
  · intro before leaf after hsplit hbefore hleaf
    exact Layout.decode_eq_error hl hlen hsplit hbefore hleaf
  · intro v hv
    have hencode : c.encode v (some t) = .ok (l.restore data) := by
      rw [Catalog.encode_eq h, Layout.pack_of_decode hl hlen (Catalog.namesNodup_of_layoutOf h) hv]
      rfl
    refine ⟨hencode, ?_⟩
    rw [hencode, Except.ok.injEq, Catalog.check_eq h hlen, mapError_eq_ok_iff,
      Layout.check_iff_restore hl hlen]
    exact (and_iff_right (hiff.1 ⟨v, hv⟩)).symm
  · exact fun leaf hleaf => Layout.range_restore hl hlen hleaf
  · intro w o hlayout ho
    obtain ⟨after, hdecode⟩ := layoutDecode_eq hlayout ho
    obtain ⟨after', hunpack⟩ := unchecked_unpack hlayout ho
    refine ⟨fun v hv => ?_, fun fault hfault => ?_⟩
    · unfold Returns
      rw [hdecode, hunpack]
      exact ⟨unpackBytes_of_ok hv, unpackBytes_of_ok hv⟩
    · rw [hdecode, hunpack, unpackBytes_of_error hfault, unpackBytes_of_error hfault]
      exact ⟨rfl, rfl⟩

/-- A message whose characters are not in place. -/
theorem message_is_decoded_without_accents : ∃ v,
    Returns (unchecked (.named "Message") (.plain (.bytes [255, 1, 0, 0, 2, 9, 9, 0, 128, 7])) >>=
      unpack) messageWorkspace v ∧
    messageCatalog.encode v (some (.named "Message")) =
      .ok [255, 1, 0xC3, 0xA9, 2, 0xC3, 0xA9, 0, 128, 7] := by
  have hlen : (([255, 1, 0, 0, 2, 9, 9, 0, 128, 7] : Bytes).length : Int) = messageLayout.size := by
    decide
  obtain ⟨-, -, -, hencode, -, hsession⟩ :=
    decode_without_check layoutOf_message lengthsNonneg_message hlen
  obtain ⟨hreturns, -⟩ := hsession messageWorkspace (.plain (.bytes _)) layoutOf_message rfl
  have hrestore : messageLayout.restore [255, 1, 0, 0, 2, 9, 9, 0, 128, 7] =
      [255, 1, 0xC3, 0xA9, 2, 0xC3, 0xA9, 0, 128, 7] := by cbv
  have hok : ∃ v, messageLayout.decode [255, 1, 0, 0, 2, 9, 9, 0, 128, 7] = .ok v :=
    (Layout.decode_eq_ok_iff lengthsNonneg_message hlen).2 (by decide)
  obtain ⟨v, hv⟩ := hok
  refine ⟨v, (hreturns v hv).2, ?_⟩
  rw [(hencode v hv).1, hrestore]

end Session

end FixedLayout
