import Mathlib
import FixedLayout.Proofs.Integers
import FixedLayout.Proofs.Characters
import FixedLayout.Proofs.Leaves
import FixedLayout.Codec

/-!
# What a check decides

A check goes through the leaves from left to right and stops at the first one that fails, whose
error it gives inside the frames around that leaf.

* `Layout.Accepts`, `Leaf.Holds`: what the bytes of a leaf have to be;
* `Layout.ownFrames`: the frames that a leaf itself adds to its error;
* `Decides`: a check passes exactly if a condition holds, and otherwise has an error of a given type
  and frames. `Layout.check_decides`: the checks of leaves decide what the leaves accept;
* `checkAll`, `Layout.check_eq_checkAll`: a layout's check is that of its leaves, one after another;
* `Layout.check_eq_ok_iff`, `Layout.check_eq_error`: when it passes, and how it fails.
-/

namespace FixedLayout

/-! ### Single leaves -/

/-- Whether a leaf accepts bytes: a unit those of its literal, an enumeration those of its
discriminants, every other leaf all bytes. -/
def Layout.Accepts : Layout → Bytes → Prop
  | .unit _ literal, data => data = literal.packed
  | .enumeration e, data => e.repr.fromBytes data ∈ e.discriminants
  | _, _ => True

instance (l : Layout) (data : Bytes) : Decidable (l.Accepts data) := by
  unfold Layout.Accepts
  split <;> infer_instance

/-- The frames that a leaf itself adds to its error: a character has one for bytes that are not
UTF-8. -/
def Layout.ownFrames : Layout → Bytes → List Frame
  | .unit cls (.char _), data =>
    match Utf8.decode data with
    | .ok _ => []
    | .error _ => [.note cls.name "Failed to parse valid utf8 char from the slice"]
  | _, _ => []

theorem Layout.ownFrames_char_eq_nil_iff (cls : ModelClass) (c : Char) (data : Bytes) :
    (Layout.unit cls (.char c)).ownFrames data = [] ↔ ∃ s : String, data = Utf8.encode s := by
  have hfails := @Utf8.decode_fails_iff data
  show (match Utf8.decode data with
    | .ok _ => []
    | .error _ => [Frame.note cls.name "Failed to parse valid utf8 char from the slice"]) = [] ↔ _
  cases hd : Utf8.decode data with
  | ok cs =>
    rw [hd] at hfails
    refine ⟨fun _ => Classical.not_not.1 fun hnot => ?_, fun _ => rfl⟩
    obtain ⟨e, he⟩ := hfails.2 hnot
    cases he
  | error e =>
    rw [hd] at hfails
    exact ⟨nofun, fun htext => absurd htext (hfails.1 ⟨e, rfl⟩)⟩

/-- A check passes exactly if a condition holds, and otherwise rejects the bytes with an error of a
given type inside given frames. -/
def Decides (r : Except CheckFault Unit) (P : Prop) (typeName : String) (frames : List Frame) :
    Prop :=
  P ∧ r = .ok () ∨
    ¬ P ∧ ∃ e, r = .error (.rejected e) ∧ e.typeName = typeName ∧ e.frames = frames

theorem decides_ensure {P : Prop} (typeName : String) {condition : Bool}
    (h : condition = true ↔ P) (assumption detail : String) :
    Decides ((PackError.ensure typeName condition assumption detail).mapError .rejected) P typeName
      [] := by
  cases condition with
  | true => exact Or.inl ⟨h.1 rfl, rfl⟩
  | false =>
    refine Or.inr ⟨fun hP => ?_, _, rfl, rfl, rfl⟩
    cases h.2 hP

/-- A number is read from its own bytes only. -/
theorem IntRepr.fromBytes_eq_iff (r : IntRepr) {n : Int} (hn : r.fits n = true) {data : Bytes}
    (h : data.length = r.width) : r.fromBytes data = n ↔ data = r.toBytes n := by
  constructor
  · intro heq
    rw [← heq, r.toBytes_fromBytes h]
  · rintro rfl
    exact r.fromBytes_toBytes hn

/-- The first character is the given one only of the bytes that the character is written as. -/
theorem take_one_decoded_iff {data : Bytes} {c : Char} {received : List Char}
    (hd : Utf8.decode data = .ok received) (h : data.length = (String.utf8EncodeChar c).length) :
    (received.take 1 == [c]) = true ↔ data = String.utf8EncodeChar c := by
  rw [beq_iff_eq]
  constructor
  · intro htake
    cases received with
    | nil => cases htake
    | cons d ds =>
      cases htake
      exact Utf8.eq_utf8EncodeChar_of_decode hd h
  · rintro rfl
    rw [Utf8.decode_utf8EncodeChar] at hd
    cases hd
    rfl

/-- The check of a unit decides whether the bytes are those of the literal. -/
theorem Literal.check_decides (cls : ModelClass) (literal : Literal) {data : Bytes}
    (h : data.length = literal.packed.length) :
    Decides (literal.check cls.name data) (data = literal.packed) cls.name
      ((Layout.unit cls literal).ownFrames data) := by
  unfold Literal.check Layout.ownFrames
  cases literal with
  | bytes content => exact decides_ensure cls.name beq_iff_eq _ _
  | text s => exact decides_ensure cls.name beq_iff_eq _ _
  | char c =>
    simp only
    cases hd : Utf8.decode data with
    | ok received => exact decides_ensure cls.name (take_one_decoded_iff hd h) _ _
    | error e =>
      refine Or.inr ⟨?_, _, rfl, rfl, rfl⟩
      rintro rfl
      rw [Literal.packed, Utf8.decode_utf8EncodeChar] at hd
      cases hd
  | number r n label =>
    have hlen : data.length = r.width := h.trans (r.length_toBytes n.1)
    simp only [r.read_of_length hlen]
    exact decides_ensure cls.name (beq_iff_eq.trans (r.fromBytes_eq_iff n.2 hlen)) _ _

/-- A declared discriminant has a variant. -/
theorem Enumeration.variant?_isSome_iff (e : Enumeration) (d : Int) :
    (∃ v, e.variant? d = some v) ↔ d ∈ e.discriminants := by
  unfold variant? discriminants
  rw [← Option.isSome_iff_exists, List.find?_isSome, List.mem_map]
  simp only [beq_iff_eq]

/-- The check of an enumeration decides whether the bytes are a declared discriminant. -/
theorem Enumeration.check_decides (e : Enumeration) {data : Bytes}
    (h : data.length = e.repr.width) :
    Decides (e.check data) (e.repr.fromBytes data ∈ e.discriminants) e.name [] := by
  unfold Enumeration.check
  rw [e.repr.read_of_length h]
  rw [← e.variant?_isSome_iff]
  simp only
  cases hv : e.variant? (e.repr.fromBytes data) with
  | some v => exact Or.inl ⟨⟨v, rfl⟩, rfl⟩
  | none =>
    refine Or.inr ⟨?_, _, rfl, rfl, rfl⟩
    rintro ⟨v, hv⟩
    cases hv

/-- The check of a leaf decides whether the leaf accepts the bytes. -/
theorem Layout.check_decides {l : Layout} (hl : l.IsLeaf) {data : Bytes}
    (h : (data.length : Int) = l.size) :
    Decides (l.check data) (l.Accepts data) l.typeName (l.ownFrames data) := by
  cases l with
  | int r => exact Or.inl ⟨trivial, rfl⟩
  | bytes n => exact Or.inl ⟨trivial, rfl⟩
  | unit cls literal => exact literal.check_decides cls (Int.ofNat.inj h)
  | enumeration e => exact e.check_decides (Int.ofNat.inj h)
  | composite form fields => exact hl.elim
  | array element n => exact hl.elim

/-! ### All leaves, one after another -/

namespace CheckFault

/-- A fault inside several frames, innermost first. -/
def surround : CheckFault → List Frame → CheckFault
  | .rejected e, frames => .rejected { e with frames := e.frames ++ frames }
  | .noByte, _ => .noByte

@[simp] theorem surround_nil (fault : CheckFault) : fault.surround [] = fault := by
  cases fault with
  | rejected e => rw [surround, List.append_nil]
  | noByte => rfl

theorem within_surround (fault : CheckFault) (frames : List Frame) (frame : Frame) :
    (fault.surround frames).within frame = fault.surround (frames ++ [frame]) := by
  cases fault with
  | rejected e => simp only [surround, within, PackError.within, List.append_assoc]
  | noByte => rfl

end CheckFault

/-- The check of one leaf in the bytes of the whole layout. -/
def Leaf.check (leaf : Leaf) (data : Bytes) : Except CheckFault Unit :=
  (leaf.layout.check (leaf.range data)).mapError (·.surround leaf.frames)

/-- Whether the bytes of a leaf are what they have to be. -/
def Leaf.Holds (leaf : Leaf) (data : Bytes) : Prop := leaf.layout.Accepts (leaf.range data)

instance (leaf : Leaf) (data : Bytes) : Decidable (leaf.Holds data) :=
  inferInstanceAs (Decidable (leaf.layout.Accepts _))

/-- The checks of leaves one after another, up to the first that fails. -/
def checkAll (data : Bytes) : List Leaf → Except CheckFault Unit
  | [] => .ok ()
  | leaf :: rest => do
    leaf.check data
    checkAll data rest

theorem checkAll_append (data : Bytes) (xs ys : List Leaf) :
    checkAll data (xs ++ ys) = (checkAll data xs >>= fun _ => checkAll data ys) := by
  induction xs with
  | nil => rfl
  | cons leaf xs ih =>
    rw [List.cons_append, checkAll, checkAll, ih]
    cases leaf.check data <;> rfl

theorem checkAll_singleton (data : Bytes) (leaf : Leaf) :
    checkAll data [leaf] = leaf.check data := by
  unfold checkAll
  cases leaf.check data <;> rfl

/-- A leaf of a child is checked as the leaf of the composite that it is. -/
theorem inFrame_check {data : Bytes} {start stop : Int} (h0 : 0 ≤ start) (h1 : stop ≤ data.length)
    (leaf : Leaf) (h2 : 0 ≤ leaf.start) (h3 : leaf.start ≤ leaf.stop)
    (h4 : leaf.stop ≤ stop - start) (frame : Frame) :
    inFrame frame (leaf.check (Bytes.slice data start stop)) =
      (leaf.within frame start).check data := by
  have hrange : leaf.range (Bytes.slice data start stop) =
      (leaf.within frame start).range data := by
    unfold Leaf.range
    rw [Bytes.slice_slice h0 h1 h2 h3 h4, Leaf.stop_within, Leaf.start_within]
  unfold Leaf.check
  rw [hrange, Leaf.layout_within, Leaf.frames_within]
  cases leaf.layout.check ((leaf.within frame start).range data) with
  | ok u => rfl
  | error fault => exact congrArg Except.error (fault.within_surround leaf.frames frame)

/-- The leaves of a child are checked as the leaves of the composite that they are. -/
theorem inFrame_checkAll {data : Bytes} {start stop : Int} (h0 : 0 ≤ start)
    (h1 : stop ≤ data.length) {lo hi : Int} (hlo : 0 ≤ lo) (hhi : hi ≤ stop - start)
    {leaves : List Leaf} (h : Tiles lo hi leaves) (frame : Frame) :
    inFrame frame (checkAll (Bytes.slice data start stop) leaves) =
      checkAll data (leaves.map (·.within frame start)) := by
  induction leaves generalizing lo with
  | nil => rfl
  | cons leaf rest ih =>
    have hbounds := h.bounds (List.mem_cons_self ..)
    have hrest := ih (by omega) h.2.2
    have hleaf := inFrame_check h0 h1 leaf (by omega) (by omega) (by omega) frame
    rw [List.map_cons, checkAll, checkAll, ← hleaf, ← hrest]
    cases leaf.check (Bytes.slice data start stop) <;> rfl

/-- Elements are checked as the leaves of the array. -/
theorem checkRun_eq_checkAll {check : Bytes → Except CheckFault Unit} {leaves : List Leaf}
    {size : Int} (hleaves : Tiles 0 size leaves)
    (hcheck : ∀ data : Bytes, (data.length : Int) = size → check data = checkAll data leaves)
    (frame : Int → Frame) {data : Bytes} (index n : Nat)
    (h : ((index + n : Nat) : Int) * size ≤ data.length) :
    checkRun check frame size data index n =
      checkAll data (leavesOfRun leaves frame size index n) := by
  induction n generalizing index with
  | zero => rfl
  | succ n ih =>
    obtain ⟨h0, hstep, hstop, hlen⟩ := element_bounds hleaves.le h
    have hfirst := inFrame_checkAll h0 hstop (Int.le_refl 0) (by omega) hleaves (frame index)
    rw [checkRun, leavesOfRun, checkAll_append, ← hfirst, ← hcheck _ hlen,
      ih (index + 1) (by rwa [Nat.add_right_comm])]

theorem Layout.check_eq_checkAll_of_isLeaf {l : Layout} (hl : l.leaves = [⟨l, 0, []⟩])
    {data : Bytes}
    (h : (data.length : Int) = l.size) : l.check data = checkAll data l.leaves := by
  have hrange : (⟨l, 0, []⟩ : Leaf).range data = data := by
    unfold Leaf.range Leaf.stop
    rw [Int.zero_add, ← h, Bytes.slice_all]
  rw [hl, checkAll_singleton, Leaf.check, hrange]
  simp only [CheckFault.surround_nil]
  cases l.check data <;> rfl

mutual

/-- A layout's check is that of its leaves. -/
theorem Layout.check_eq_checkAll : ∀ l : Layout, l.LengthsNonneg →
    ∀ data : Bytes, (data.length : Int) = l.size → l.check data = checkAll data l.leaves
  | .int r, _, data, h => Layout.check_eq_checkAll_of_isLeaf rfl h
  | .bytes n, _, data, h => Layout.check_eq_checkAll_of_isLeaf rfl h
  | .unit cls literal, _, data, h => Layout.check_eq_checkAll_of_isLeaf rfl h
  | .enumeration e, _, data, h => Layout.check_eq_checkAll_of_isLeaf rfl h
  | .composite form fields, hl, data, h => by
    unfold Layout.check Layout.leaves
    refine fields.check_eq_checkAll hl _ 0 0 data (Int.le_refl 0) ?_
    rw [Int.zero_add]
    exact Int.le_of_eq h.symm
  | .array element n, ⟨he, hn⟩, data, h => by
    unfold Layout.check Layout.leaves
    refine checkRun_eq_checkAll (element.tiles_leaves he) (element.check_eq_checkAll he) _ 0 _ ?_
    exact Int.le_of_eq (by rw [Nat.zero_add, ← Layout.size_array element hn, h])

/-- The check of fields is that of their leaves. -/
theorem Fields.check_eq_checkAll : ∀ fs : Fields, fs.LengthsNonneg →
    ∀ (frame : String → Nat → Frame) (index : Nat) (start : Int) (data : Bytes), 0 ≤ start →
      start + fs.size ≤ data.length →
        fs.check frame index start data = checkAll data (fs.leaves frame index start)
  | .nil, _, _, _, _, _, _, _ => rfl
  | .cons name _ layout rest, ⟨hl, hr⟩, frame, index, start, data, h0, h1 => by
    have hsize := layout.size_nonneg hl
    have hrest := rest.size_nonneg hr
    rw [Fields.size] at h1
    have hlen : ((Bytes.slice data start (start + layout.size)).length : Int) = layout.size := by
      rw [Bytes.length_slice_of_le h0 (by omega) (by omega)]
      omega
    have hfirst := inFrame_checkAll h0 (by omega : start + layout.size ≤ data.length)
      (Int.le_refl 0) (by omega) (layout.tiles_leaves hl) (frame name index)
    rw [Fields.check, Fields.leaves, checkAll_append, ← hfirst,
      ← layout.check_eq_checkAll hl _ hlen,
      rest.check_eq_checkAll hr frame (index + 1) _ data (by omega) (by omega)]

end

/-! ### Success and failure -/

theorem checkAll_eq_ok_iff {data : Bytes} {leaves : List Leaf} :
    checkAll data leaves = .ok () ↔ ∀ leaf ∈ leaves, leaf.check data = .ok () := by
  induction leaves with
  | nil => exact ⟨fun _ _ h => absurd h List.not_mem_nil, fun _ => rfl⟩
  | cons leaf rest ih =>
    rw [List.forall_mem_cons, ← ih, checkAll]
    cases leaf.check data with
    | ok u => exact ⟨fun h => ⟨rfl, h⟩, fun h => h.2⟩
    | error fault => exact ⟨nofun, fun h => (nomatch h.1)⟩

/-- The first leaf that fails decides how all leaves together fail. -/
theorem checkAll_eq_error {data : Bytes} {before after : List Leaf} {leaf : Leaf}
    {fault : CheckFault} (hbefore : ∀ x ∈ before, x.check data = .ok ())
    (hleaf : leaf.check data = .error fault) :
    checkAll data (before ++ leaf :: after) = .error fault := by
  rw [checkAll_append, checkAll_eq_ok_iff.2 hbefore]
  show checkAll data (leaf :: after) = .error fault
  rw [checkAll, hleaf]
  rfl

section Leaves

variable {l : Layout} {data : Bytes}

/-- The range of a leaf has as many bytes as the leaf. -/
theorem Layout.length_range (hl : l.LengthsNonneg) (hlen : (data.length : Int) = l.size)
    {leaf : Leaf} (h : leaf ∈ l.leaves) : ((leaf.range data).length : Int) = leaf.layout.size := by
  obtain ⟨h0, h1, h2⟩ := (l.tiles_leaves hl).bounds h
  rw [Leaf.range, Bytes.length_slice_of_le h0 h1 (by omega), Leaf.stop]
  omega

/-- The check of a leaf decides whether the leaf holds. -/
theorem Layout.range_decides (hl : l.LengthsNonneg) (hlen : (data.length : Int) = l.size)
    {leaf : Leaf} (h : leaf ∈ l.leaves) :
    Decides (leaf.layout.check (leaf.range data)) (leaf.Holds data) leaf.layout.typeName
      (leaf.layout.ownFrames (leaf.range data)) :=
  Layout.check_decides (Layout.isLeaf_of_mem_leaves h) (Layout.length_range hl hlen h)

theorem Layout.leaf_check_eq_ok_iff (hl : l.LengthsNonneg) (hlen : (data.length : Int) = l.size)
    {leaf : Leaf} (h : leaf ∈ l.leaves) : leaf.check data = .ok () ↔ leaf.Holds data := by
  unfold Leaf.check
  rcases Layout.range_decides hl hlen h with ⟨hholds, hok⟩ | ⟨hnot, e, herr, -, -⟩
  · rw [hok]
    exact ⟨fun _ => hholds, fun _ => rfl⟩
  · rw [herr]
    exact ⟨nofun, fun h => absurd h hnot⟩

/-- A check passes exactly if all leaves hold. -/
theorem Layout.check_eq_ok_iff (hl : l.LengthsNonneg) (hlen : (data.length : Int) = l.size) :
    l.check data = .ok () ↔ ∀ leaf ∈ l.leaves, leaf.Holds data := by
  rw [l.check_eq_checkAll hl data hlen, checkAll_eq_ok_iff]
  exact forall_congr' fun leaf => forall_congr' fun h => Layout.leaf_check_eq_ok_iff hl hlen h

/-- A check that fails has the error of the first leaf that does not hold, inside the frames around
this leaf. -/
theorem Layout.check_eq_error (hl : l.LengthsNonneg) (hlen : (data.length : Int) = l.size)
    {before after : List Leaf} {leaf : Leaf} (hsplit : l.leaves = before ++ leaf :: after)
    (hbefore : ∀ x ∈ before, x.Holds data) (hleaf : ¬ leaf.Holds data) :
    ∃ e : PackError, leaf.layout.check (leaf.range data) = .error (.rejected e) ∧
      e.typeName = leaf.layout.typeName ∧ e.frames = leaf.layout.ownFrames (leaf.range data) ∧
      l.check data = .error (.rejected { e with frames := e.frames ++ leaf.frames }) := by
  have hmem : leaf ∈ l.leaves := by
    rw [hsplit]
    exact List.mem_append_right before (List.mem_cons_self ..)
  rcases Layout.range_decides hl hlen hmem with ⟨hholds, -⟩ | ⟨-, e, herr, hname, hframes⟩
  · exact absurd hholds hleaf
  refine ⟨e, herr, hname, hframes, ?_⟩
  rw [l.check_eq_checkAll hl data hlen, hsplit]
  refine checkAll_eq_error (fun x hx => ?_) ?_
  · rw [Layout.leaf_check_eq_ok_iff hl hlen (by rw [hsplit]; exact List.mem_append_left _ hx)]
    exact hbefore x hx
  · rw [Leaf.check, herr]
    rfl

end Leaves

/-! ### Paths -/

/-- The frames of a leaf itself do not show in a path. -/
theorem Layout.join_ownFrames (l : Layout) (data : Bytes) :
    String.join ((l.ownFrames data).reverse.map Frame.segment) = "" := by
  unfold Layout.ownFrames
  split
  · split <;> rfl
  · rfl

/-- The frames of a leaf itself belong to it. -/
theorem Layout.typeName_of_mem_ownFrames {l : Layout} {data : Bytes} {frame : Frame}
    (h : frame ∈ l.ownFrames data) : frame.typeName = l.typeName := by
  unfold Layout.ownFrames at h
  split at h
  · split at h
    · cases h
    · obtain rfl := List.mem_singleton.1 h
      rfl
  · cases h

/-- The path of a leaf's error starts with the outermost type and goes from there to the leaf. -/
theorem Leaf.path_eq {leaf : Leaf} {data : Bytes} {e : PackError}
    (hname : e.typeName = leaf.layout.typeName) (hframes : e.frames = leaf.layout.ownFrames data) :
    PackError.path { e with frames := e.frames ++ leaf.frames } =
      leaf.rootName ++ String.join (leaf.frames.reverse.map Frame.segment) := by
  have hroot : PackError.rootType { e with frames := e.frames ++ leaf.frames } = leaf.rootName := by
    unfold PackError.rootType Leaf.rootName
    simp only [List.getLast?_append]
    cases leaf.frames.getLast? with
    | some frame => rfl
    | none =>
      rw [Option.none_or]
      cases hlast : e.frames.getLast? with
      | none => exact hname
      | some frame =>
        rw [hframes] at hlast
        exact Layout.typeName_of_mem_ownFrames (List.mem_of_getLast? hlast)
  unfold PackError.path
  rw [hroot]
  simp only [List.reverse_append, List.map_append, String.join_append, hframes,
    Layout.join_ownFrames, String.append_empty]

/-! ### Types -/

/-- Bytes that are accepted are of the right number and pass the check. -/
theorem Layout.accept_eq_ok {l : Layout} {data : Bytes} (h : l.accept data = .ok ()) :
    (data.length : Int) = l.size ∧ l.check data = .ok () := by
  unfold accept at h
  split at h
  · exact ⟨‹_›, h⟩
  · cases h

/-- Bytes are accepted or rejected by the layout of the type. -/
theorem Catalog.check_eq_accept {c : Catalog} {t : TypeExpr} {l : Layout}
    (h : c.layoutOf t = .ok l) (data : Bytes) :
    c.check t data = (l.accept data).mapError CheckFault.toFault := by
  unfold Catalog.check Catalog.resolve
  rw [h]
  rfl

/-- Bytes of the right number are checked by the layout of the type. -/
theorem Catalog.check_eq {c : Catalog} {t : TypeExpr} {l : Layout} (h : c.layoutOf t = .ok l)
    {data : Bytes} (hlen : (data.length : Int) = l.size) :
    c.check t data = (l.check data).mapError CheckFault.toFault := by
  have haccept : l.accept data = l.check data := if_pos hlen
  rw [Catalog.check_eq_accept h, haccept]

/-- Bytes of the right number are an encoding of a type exactly if every leaf holds. Otherwise the
error is that of the first leaf that does not hold, checked on its own bytes, inside the frames on
the way up to the type; its path leads from the type to this leaf. -/
theorem Catalog.check_finds_first_failure {c : Catalog} {t : TypeExpr} {l : Layout}
    (h : c.layoutOf t = .ok l) (hl : l.LengthsNonneg) {data : Bytes}
    (hlen : (data.length : Int) = l.size) :
    Tiles 0 l.size l.leaves ∧
    (c.check t data = .ok () ↔ ∀ leaf ∈ l.leaves, leaf.Holds data) ∧
    ∀ before leaf after, l.leaves = before ++ leaf :: after → (∀ x ∈ before, x.Holds data) →
      ¬ leaf.Holds data →
        ∃ e : PackError, leaf.layout.check (leaf.range data) = .error (.rejected e) ∧
          e.frames = leaf.layout.ownFrames (leaf.range data) ∧
          c.check t data = .error (.pack { e with frames := e.frames ++ leaf.frames }) ∧
          PackError.path { e with frames := e.frames ++ leaf.frames } =
            l.typeName ++ String.join (leaf.frames.reverse.map Frame.segment) := by
  rw [Catalog.check_eq h hlen]
  refine ⟨l.tiles_leaves hl, ?_, ?_⟩
  · rw [← Layout.check_eq_ok_iff hl hlen]
    cases l.check data with
    | ok u => exact ⟨fun _ => rfl, fun _ => rfl⟩
    | error fault => exact ⟨nofun, nofun⟩
  · intro before leaf after hsplit hbefore hleaf
    obtain ⟨e, herr, hname, hframes, hcheck⟩ := Layout.check_eq_error hl hlen hsplit hbefore hleaf
    have hmem : leaf ∈ l.leaves := by
      rw [hsplit]
      exact List.mem_append_right before (List.mem_cons_self ..)
    refine ⟨e, herr, hframes, ?_, ?_⟩
    · rw [hcheck]
      rfl
    · rw [Leaf.path_eq hname hframes, l.rootName_of_mem_leaves leaf hmem]

/-- Definitions of an enumeration, a character, a pair that ends in it, and a message: a member, two
pairs and a tuple. -/
def messageCatalog : Catalog :=
  [.enumeration (.declare "Kind" true (.text "i8") ["OFF", "ON"] [.int (-1), .int 1] (by decide)),
   .model (.root .unit "Accent" [] (some (.text "é")) (some (.text "char"))),
   .model (.root .tuple "Pair" [⟨"left", .fixedInt .u8, none, .null⟩,
     ⟨"accent", .named "Accent", none, .null⟩] none none),
   .model (.root .struct "Message" [⟨"kind", .named "Kind", none, .null⟩,
     ⟨"body", .fixedList (.named "Pair") 2, none, .null⟩,
     ⟨"tail", .tuple [.fixedInt .i16, .fixedBytes 1] false, none, .null⟩] none none)]

/-- The layout of the character. -/
def accentLayout : Layout := .unit ⟨"Accent", [], false, []⟩ (.char 'é')

/-- The layout of the pair. -/
def pairLayout : Layout :=
  .composite (.model ⟨"Pair", [], true, ["left", "accent"]⟩)
    (.cons "left" (some "left") (.int .u8)
      (.cons "accent" (some "accent") accentLayout .nil))

/-- The layout of the message. -/
def messageLayout : Layout :=
  .composite (.model ⟨"Message", [], false, ["kind", "body", "tail"]⟩)
    (.cons "kind" (some "kind")
      (.enumeration (.mk "Kind" true .i8 [("OFF", -1), ("ON", 1)]))
    (.cons "body" (some "body") (.array pairLayout 2)
    (.cons "tail" (some "tail")
      (.composite .tuple (.cons "0" none (.int .i16) (.cons "1" none (.bytes 1) .nil)))
      .nil)))

theorem layoutOf_pair : messageCatalog.layoutOf (.named "Pair") = .ok pairLayout := by cbv

theorem layoutOf_message : messageCatalog.layoutOf (.named "Message") = .ok messageLayout := by cbv

theorem lengthsNonneg_message : messageLayout.LengthsNonneg :=
  ⟨trivial, ⟨⟨trivial, trivial, trivial⟩, by decide⟩,
    ⟨trivial, (by decide : (0 : Int) ≤ 1), trivial⟩, trivial⟩

/-- A message whose second character is ill-formed. -/
theorem check_message_finds_second_accent :
    ∃ e : PackError,
      e.frames = [.note "Accent" "Failed to parse valid utf8 char from the slice"] ∧
      messageCatalog.check (.named "Message") [255, 1, 0xC3, 0xA9, 2, 0xFF, 0xFE, 0, 128, 7] =
        .error (.pack { e with frames :=
          e.frames ++ [.entry "Pair" 1, .entry "Pair[2]" 1, .field "Message" "body"] }) ∧
      PackError.path { e with frames :=
          e.frames ++ [.entry "Pair" 1, .entry "Pair[2]" 1, .field "Message" "body"] } =
        "Message.body[1][1]" := by
  have hlen : (([255, 1, 0xC3, 0xA9, 2, 0xFF, 0xFE, 0, 128, 7] : Bytes).length : Int) =
      messageLayout.size := by decide
  obtain ⟨-, -, hfails⟩ :=
    Catalog.check_finds_first_failure layoutOf_message lengthsNonneg_message hlen
  have hsplit : messageLayout.leaves =
      [⟨.enumeration (.mk "Kind" true .i8 [("OFF", -1), ("ON", 1)]), 0,
        [.field "Message" "kind"]⟩,
       ⟨.int .u8, 1, [.entry "Pair" 0, .entry "Pair[2]" 0, .field "Message" "body"]⟩,
       ⟨accentLayout, 2, [.entry "Pair" 1, .entry "Pair[2]" 0, .field "Message" "body"]⟩,
       ⟨.int .u8, 4, [.entry "Pair" 0, .entry "Pair[2]" 1, .field "Message" "body"]⟩] ++
      ⟨accentLayout, 5, [.entry "Pair" 1, .entry "Pair[2]" 1, .field "Message" "body"]⟩ ::
      [⟨.int .i16, 7, [.entry "tuple[i16, bytes[1]]" 0, .field "Message" "tail"]⟩,
       ⟨.bytes 1, 9, [.entry "tuple[i16, bytes[1]]" 1, .field "Message" "tail"]⟩] := by
    cbv
  obtain ⟨e, -, hframes, hcheck, hpath⟩ := hfails _ _ _ hsplit (by decide) (by decide)
  exact ⟨e, hframes, hcheck, hpath⟩

end FixedLayout
