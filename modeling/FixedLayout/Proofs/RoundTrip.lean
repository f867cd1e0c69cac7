import FixedLayout.Proofs.Compiled
import FixedLayout.Proofs.Checks
import FixedLayout.Proofs.Trace

/-!
# Bytes that come back

Bytes that pass the check of a layout are decoded to a value that is encoded as these very bytes.

* `Trace.Writes`: a trace that succeeds and writes given bytes, all of them;
* `Value.field?_record`, `lookupFields_of_forall`: an instance has the fields that it was built
  with;
* `Layout.exists_decode`: the round trip for a layout whose fields have different names;
* `Catalog.decode_then_encode`: the round trip for a type.
-/

namespace FixedLayout

/-! ### Traces that write everything -/

namespace Trace

/-- A trace that succeeds and writes given bytes, passing over no leaf. -/
structure Writes (t : Trace) (data : Bytes) : Prop where
  outcome : t.outcome = .ok ()
  patch : t.patch = data.map some
  complete : ∀ x ∈ t.visits, x.value ≠ none

theorem writes_skip_nil : (skip []).Writes [] :=
  ⟨rfl, rfl, fun _ hx => absurd hx List.not_mem_nil⟩

theorem Writes.andThen {t tail : Trace} {xs ys : Bytes} (ht : t.Writes xs) (htail : tail.Writes ys)
    (node : EncodeError → EncodeError) (frame : Frame) (offset : Int) :
    ((t.within node frame offset).andThen tail).Writes (xs ++ ys) := by
  have hok := outcome_within_of_ok ht.outcome node frame offset
  constructor
  · rw [outcome_andThen_of_ok hok, htail.outcome]
  · rw [patch_andThen_of_ok hok, patch_within, ht.patch, htail.patch, List.map_append]
  · rw [visits_andThen_of_ok hok]
    intro x hx
    rcases List.mem_append.1 hx with hx | hx
    · obtain ⟨y, hy, rfl⟩ := List.mem_map.1 hx
      exact ht.complete y hy
    · exact htail.complete x hx

theorem writes_of_pack {l : Layout} {v : Value} {data : Bytes} (h : l.pack v = .ok data) :
    (write l v).Writes data := by
  unfold write
  rw [h]
  refine ⟨rfl, ?_, List.forall_mem_singleton.2 nofun⟩
  exact (List.append_nil _).trans (Visit.patch_of_pack h)

end Trace

/-- What a value is packed into, if its writer turns zeros into it. -/
theorem Layout.pack_eq_ok {l : Layout} {v : Value} {data : Bytes}
    (hlen : (data.length : Int) = l.size)
    (h : ∀ region : Bytes, region.length = data.length → l.encode v region = (.ok (), data)) :
    l.pack v = .ok data := by
  rw [Layout.pack_eq (by omega), h _ (by rw [Bytes.length_zeros]; omega)]
  rfl

/-- A value whose trace writes given bytes is packed into them. -/
theorem Layout.pack_of_writes {l : Layout} (hl : l.LengthsNonneg) {v : Value} {data : Bytes}
    (hlen : (data.length : Int) = l.size) (h : (l.trace v).Writes data) : l.pack v = .ok data := by
  refine (Layout.pack_eq_ok_iff hl).2 ⟨h.outcome, ?_⟩
  rw [h.patch, Bytes.overlay_map_some (by rw [Bytes.length_zeros]; omega)]

/-! ### Look-up by name -/

/-- Of items with different keys, the one of a key is found. -/
theorem find?_key_of_nodup {α β : Type} [BEq β] [LawfulBEq β] (key : α → β) {xs : List α}
    (h : (xs.map key).Nodup) {x : α} (hx : x ∈ xs) :
    xs.find? (fun y => key y == key x) = some x := by
  induction xs with
  | nil => cases hx
  | cons y rest ih =>
    rw [List.map_cons, List.nodup_cons] at h
    rcases List.mem_cons.1 hx with rfl | hrest
    · exact List.find?_cons_of_pos (beq_self_eq_true (key x))
    · have hne : ¬ (key y == key x) = true := fun heq =>
        h.1 (eq_of_beq heq ▸ List.mem_map_of_mem hrest)
      rw [List.find?_cons_of_neg (p := fun z => key z == key x) hne]
      exact ih h.2 hrest

/-- An instance has the fields that it was built with. -/
theorem Value.field?_record {cls : ModelClass} {fields : List (String × Value)}
    (h : (fields.map (·.1)).Nodup) {f : String × Value} (hf : f ∈ fields) :
    (Value.record cls fields).field? f.1 = some f.2 := by
  show (fields.find? fun g => g.1 == f.1).map (·.2) = some f.2
  rw [find?_key_of_nodup (fun g : String × Value => g.1) h hf]
  rfl

theorem lookupFields_of_forall {v : Value} {fields : List (String × Value)}
    (h : ∀ f ∈ fields, v.field? f.1 = some f.2) :
    lookupFields v (fields.map (·.1)) = .ok (fields.map (·.2)) := by
  induction fields with
  | nil => rfl
  | cons f rest ih =>
    obtain ⟨hf, hrest⟩ := List.forall_mem_cons.1 h
    rw [List.map_cons, List.map_cons, lookupFields, hf]
    simp only [ih hrest]
    rfl

/-- A composite takes its value apart into what the value was built from. -/
theorem Form.split_build (form : Form) (typeName : String) {names : List String}
    {values : List (String × Value)} (hnames : values.map (·.1) = names) (h : names.Nodup) :
    form.split typeName names (form.build values) = .ok (values.map (·.2)) := by
  subst hnames
  cases form with
  | model cls =>
    have hlookup := lookupFields_of_forall (v := .record cls values) fun f hf =>
      Value.field?_record h hf
    unfold Form.build Form.split
    simp only [ModelClass.isSubclassOf_self, if_true, hlookup]
    rfl
  | tuple =>
    unfold Form.build Form.split
    simp only [List.length_map, if_true]

/-! ### Leaves -/

theorem Decides.of_ok {r : Except CheckFault Unit} {P : Prop} {typeName : String}
    {frames : List Frame} (h : Decides r P typeName frames) (hok : r = .ok ()) : P := by
  rcases h with ⟨hP, -⟩ | ⟨-, e, herr, -, -⟩
  · exact hP
  · rw [herr] at hok
    cases hok

/-- The discriminant of a declared variant. -/
theorem Enumeration.discriminant?_of_mem (e : Enumeration) {v : String × Int}
    (h : v ∈ e.variants) : e.discriminant? v.1 = some v.2 := by
  unfold discriminant?
  rw [find?_key_of_nodup (fun v : String × Int => v.1) e.names_nodup h]
  rfl

/-- The variant of a declared discriminant. -/
theorem Enumeration.variant?_of_mem (e : Enumeration) {v : String × Int} (h : v ∈ e.variants) :
    e.variant? v.2 = some v :=
  find?_key_of_nodup (fun v : String × Int => v.2) e.discriminants_nodup h

/-- A declared member is written as its discriminant. -/
theorem Enumeration.encode_member (e : Enumeration) {v : String × Int} (h : v ∈ e.variants)
    (integral : Bool) (payload : Value) :
    e.encode (.member e.name v.1 integral payload) = Writer.put (e.repr.toBytes v.2) := by
  unfold Enumeration.encode
  simp only [if_true, e.discriminant?_of_mem h]

theorem put_writes {l : Layout} {v : Value} {data : Bytes} (hlen : (data.length : Int) = l.size)
    (h : l.encode v = Writer.put data) : (Trace.write l v).Writes data := by
  refine Trace.writes_of_pack (Layout.pack_eq_ok hlen fun region hregion => ?_)
  rw [h, Writer.put_apply hregion]

/-- Bytes that a leaf accepts are decoded to a value that is written as these bytes. -/
theorem Layout.exists_decode_of_isLeaf {l : Layout} (hl : l.IsLeaf) {data : Bytes}
    (hlen : (data.length : Int) = l.size) (hcheck : l.check data = .ok ()) :
    ∃ v, l.decode data = .ok v ∧ (Trace.write l v).Writes data := by
  have haccepts := (Layout.check_decides hl hlen).of_ok hcheck
  cases l with
  | int r =>
    have hwidth : data.length = r.width := Int.ofNat.inj hlen
    refine ⟨.int (r.fromBytes data), ?_, put_writes hlen ?_⟩
    · unfold Layout.decode
      rw [r.read_of_length hwidth]
    · show r.encode (.int (r.fromBytes data)) = Writer.put data
      unfold IntRepr.encode
      simp only [Value.integer?, r.fits_fromBytes hwidth, if_true, r.toBytes_fromBytes hwidth]
  | bytes n =>
    refine ⟨.bytes data, rfl, Trace.writes_of_pack (Layout.pack_eq_ok hlen ?_)⟩
    exact fun region hregion => if_pos hregion.symm
  | unit cls literal =>
    obtain rfl : data = literal.packed := haccepts
    exact ⟨.record cls [], rfl, put_writes hlen rfl⟩
  | enumeration e =>
    have hwidth : data.length = e.repr.width := Int.ofNat.inj hlen
    obtain ⟨v, hv, hd⟩ := List.mem_map.1 haccepts
    refine ⟨.member e.name v.1 e.integral (.int v.2), ?_, put_writes hlen ?_⟩
    · show e.decode data = _
      unfold Enumeration.decode
      rw [e.repr.read_of_length hwidth, ← hd]
      simp only [e.variant?_of_mem hv]
    · rw [Layout.encode, e.encode_member hv, hd, e.repr.toBytes_fromBytes hwidth]
  | composite form fields => exact hl.elim
  | array element n => exact hl.elim

/-! ### Layouts -/

theorem bind_eq_ok {ε α β : Type} {r : Except ε α} {f : α → Except ε β} {b : β}
    (h : (r >>= f) = .ok b) : ∃ a, r = .ok a ∧ f a = .ok b := by
  cases r with
  | ok a => exact ⟨a, rfl, h⟩
  | error e => cases h

theorem inFrame_eq_ok {frame : Frame} {r : Except CheckFault Unit} (h : inFrame frame r = .ok ()) :
    r = .ok () := by
  cases r with
  | ok u => rfl
  | error fault => cases h

/-- Elements that pass their checks are decoded to values that are written as their bytes. -/
theorem exists_decodeRun {check : Bytes → Except CheckFault Unit}
    {decode : Bytes → Except DecodeFault Value} {trace : Value → Trace} {size : Int}
    (hsize : 0 ≤ size)
    (h : ∀ data : Bytes, (data.length : Int) = size → check data = .ok () →
      ∃ v, decode data = .ok v ∧ (trace v).Writes data)
    (leaves : List Leaf) (typeName : String) {data : Bytes} (index n : Nat)
    (hroom : ((index + n : Nat) : Int) * size ≤ data.length)
    (hcheck : checkRun check (.entry typeName) size data index n = .ok ()) :
    ∃ vs, decodeRun decode size data index n = .ok vs ∧
      (traceRun trace leaves typeName size index n vs).Writes
        (Bytes.slice data (index * size) ((index + n : Nat) * size)) := by
  -- the bytes that are written are those from the current element on
  induction n generalizing index with
  | zero =>
    refine ⟨[], rfl, ?_⟩
    rw [Nat.add_zero, Bytes.slice_self]
    exact Trace.writes_skip_nil
  | succ n ih =>
    obtain ⟨h0, hstep, -, hlen⟩ := element_bounds hsize hroom
    have hn : 0 ≤ (n : Int) * size := Int.mul_nonneg (Int.natCast_nonneg n) hsize
    have hend : ((index + (n + 1) : Nat) : Int) * size = index * size + (n * size + size) := by
      rw [offset_add, Int.natCast_add, Int.natCast_one, offset_succ]
    obtain ⟨u, hfirst, hrest⟩ := bind_eq_ok hcheck
    obtain ⟨v, hv, hwrites⟩ := h _ hlen (inFrame_eq_ok hfirst)
    obtain ⟨vs, hvs, htail⟩ := ih (index + 1) (by rwa [Nat.add_right_comm]) hrest
    refine ⟨v :: vs, ?_, ?_⟩
    · rw [decodeRun, hv, hvs]
      rfl
    · have hjoin : Bytes.slice data (index * size) (((index : Int) + 1) * size) ++
            Bytes.slice data (((index : Int) + 1) * size) ((index + (n + 1) : Nat) * size) =
          Bytes.slice data (index * size) ((index + (n + 1) : Nat) * size) :=
        Bytes.slice_append_slice h0 (by omega) (by omega) hroom
      rw [Nat.add_right_comm] at htail
      rw [← hjoin]
      exact hwrites.andThen htail _ _ _

mutual

/-- Bytes that pass a layout's check are decoded to a value that is written as these bytes. -/
theorem Layout.exists_decode : ∀ l : Layout, l.LengthsNonneg → l.NamesNodup →
    ∀ data : Bytes, (data.length : Int) = l.size → l.check data = .ok () →
      ∃ v, l.decode data = .ok v ∧ (l.trace v).Writes data
  | .int r, _, _, data, hlen, hcheck =>
    Layout.exists_decode_of_isLeaf (l := .int r) trivial hlen hcheck
  | .bytes n, _, _, data, hlen, hcheck =>
    Layout.exists_decode_of_isLeaf (l := .bytes n) trivial hlen hcheck
  | .unit cls literal, _, _, data, hlen, hcheck =>
    Layout.exists_decode_of_isLeaf (l := .unit cls literal) trivial hlen hcheck
  | .enumeration e, _, _, data, hlen, hcheck =>
    Layout.exists_decode_of_isLeaf (l := .enumeration e) trivial hlen hcheck
  | .composite form fields, hl, ⟨hnodup, hnames⟩, data, hlen, hcheck => by
    have hroom : 0 + fields.size ≤ data.length := by
      rw [Int.zero_add]
      exact Int.le_of_eq hlen.symm
    obtain ⟨values, hvalues, hkeys, hwrites⟩ := fields.exists_decode hl hnames
      (Layout.composite form fields).typeName _ 0 0 data (Int.le_refl 0) hroom hcheck
    rw [Int.zero_add, show fields.size = data.length from hlen.symm, Bytes.slice_all] at hwrites
    refine ⟨form.build values, ?_, ?_⟩
    · rw [Layout.decode, hvalues]
      rfl
    · rw [Layout.trace_composite (form.split_build _ hkeys hnodup)]
      exact hwrites
  | .array element n, ⟨he, hn⟩, hnames, data, hlen, hcheck => by
    have htotal := Layout.size_array element hn
    have hroom : ((0 + n.toNat : Nat) : Int) * element.size ≤ data.length :=
      Int.le_of_eq (by rw [Nat.zero_add, ← htotal, hlen])
    obtain ⟨vs, hvs, hwrites⟩ := exists_decodeRun (element.size_nonneg he)
      (element.exists_decode he hnames) element.leaves _ 0 n.toNat hroom hcheck
    have hall : Bytes.slice data ((0 : Nat) * element.size) ((0 + n.toNat : Nat) * element.size) =
        data := by
      rw [Nat.zero_add, ← htotal, ← hlen, Int.natCast_zero, Int.zero_mul, Bytes.slice_all]
    rw [hall] at hwrites
    refine ⟨.list vs, ?_, ?_⟩
    · rw [Layout.decode, hvs]
      rfl
    · have hcount : (vs.length : Int) = n := by
        rw [length_of_decodeRun hvs, Int.toNat_of_nonneg hn]
      rw [Layout.trace_array (arrayElements_list _ hcount)]
      exact hwrites

/-- Bytes that pass the checks of fields are decoded to values that are written as these bytes. -/
theorem Fields.exists_decode : ∀ fs : Fields, fs.LengthsNonneg → fs.NamesNodup →
    ∀ (typeName : String) (frame : String → Nat → Frame) (index : Nat) (start : Int) (data : Bytes),
      0 ≤ start → start + fs.size ≤ data.length → fs.check frame index start data = .ok () →
        ∃ values, fs.decode start data = .ok values ∧ values.map (·.1) = fs.names ∧
          (fs.trace typeName frame index start (values.map (·.2))).Writes
            (Bytes.slice data start (start + fs.size))
  | .nil, _, _, _, _, _, start, data, _, _, _ => by
    refine ⟨[], rfl, rfl, ?_⟩
    rw [Fields.size, Int.add_zero, Bytes.slice_self]
    exact Trace.writes_skip_nil
  | .cons name _ layout rest, ⟨hl, hr⟩, ⟨hnl, hnr⟩, typeName, frame, index, start, data, h0, h1,
      hcheck => by
    have hsize := layout.size_nonneg hl
    have hrestSize := rest.size_nonneg hr
    rw [Fields.size] at h1
    obtain ⟨u, hfirst, hrest⟩ := bind_eq_ok hcheck
    have hlen : ((Bytes.slice data start (start + layout.size)).length : Int) = layout.size := by
      rw [Bytes.length_slice_of_le h0 (by omega) (by omega)]
      omega
    obtain ⟨v, hv, hwrites⟩ := layout.exists_decode hl hnl _ hlen (inFrame_eq_ok hfirst)
    obtain ⟨values, hvalues, hkeys, htail⟩ := rest.exists_decode hr hnr typeName frame (index + 1)
      (start + layout.size) data (by omega) (by omega) hrest
    refine ⟨(name, v) :: values, ?_, congrArg (name :: ·) hkeys, ?_⟩
    · rw [Fields.decode, hv, hvalues]
      rfl
    · have hjoin : Bytes.slice data start (start + layout.size) ++
            Bytes.slice data (start + layout.size) (start + layout.size + rest.size) =
          Bytes.slice data start (start + layout.size + rest.size) :=
        Bytes.slice_append_slice h0 (by omega) (by omega) (by omega)
      rw [Fields.size, ← Int.add_assoc, ← hjoin]
      exact hwrites.andThen htail _ _ _

end

/-! ### Types -/

namespace Catalog

variable {c : Catalog} {t : TypeExpr} {l : Layout}

/-- The absent type has no layout. -/
theorem isNothing_of_layoutOf (h : c.layoutOf t = .ok l) : t.isNothing = false := by
  unfold TypeExpr.isNothing
  split
  · cases h
  · cases h
  · rfl

/-- A value is packed by the layout of the type. -/
theorem encode_eq (h : c.layoutOf t = .ok l) (v : Value) :
    c.encode v (some t) = (l.pack v).mapError EncodeFault.toFault := by
  have hinfer : inferType v (some t) = .ok t := by
    unfold inferType
    rw [Option.filter_some, if_pos (by rw [isNothing_of_layoutOf h]; rfl)]
  unfold encode resolve
  rw [hinfer]
  show ((c.layoutOf t).mapError _ >>= _) = _
  rw [h]
  rfl

/-- Bytes that pass the check are decoded by the layout of the type. -/
theorem decode_eq (h : c.layoutOf t = .ok l) {data : Bytes} (hlen : (data.length : Int) = l.size)
    (hcheck : l.check data = .ok ()) : c.decode t data = l.unpack data := by
  have haccept : l.accept data = .ok () := (if_pos hlen).trans hcheck
  unfold decode resolve
  rw [h]
  show ((l.accept data).mapError _ >>= fun _ => l.unpack data) = _
  rw [haccept]
  rfl

/-- The layout of a type has different names for the fields of each composite. -/
theorem namesNodup_of_layoutOf (h : c.layoutOf t = .ok l) : l.NamesNodup :=
  closed_of_compile closed_namesNodup .empty h

/-- Bytes that pass the check of a type are decoded without fail, and the value that they are
decoded to is encoded as these very bytes. -/
theorem decode_then_encode (h : c.layoutOf t = .ok l) (hl : l.LengthsNonneg) {data : Bytes}
    (hlen : (data.length : Int) = l.size) (hcheck : l.check data = .ok ()) :
    ∃ v, l.decode data = .ok v ∧ c.decode t data = .ok v ∧ c.encode v (some t) = .ok data := by
  obtain ⟨v, hv, hwrites⟩ := l.exists_decode hl (namesNodup_of_layoutOf h) data hlen hcheck
  refine ⟨v, hv, ?_, ?_⟩
  · rw [decode_eq h hlen hcheck, Layout.unpack, hv]
    rfl
  · rw [encode_eq h, Layout.pack_of_writes hl hlen hwrites]
    rfl

/-- A message goes through its value and back. -/
theorem message_comes_back :
    ∃ v, messageCatalog.decode (.named "Message") [255, 1, 0xC3, 0xA9, 2, 0xC3, 0xA9, 0, 128, 7] =
        .ok v ∧
      messageCatalog.encode v (some (.named "Message")) =
        .ok [255, 1, 0xC3, 0xA9, 2, 0xC3, 0xA9, 0, 128, 7] := by
  have hlen : (([255, 1, 0xC3, 0xA9, 2, 0xC3, 0xA9, 0, 128, 7] : Bytes).length : Int) =
      messageLayout.size := by decide
  have hcheck : messageLayout.check [255, 1, 0xC3, 0xA9, 2, 0xC3, 0xA9, 0, 128, 7] = .ok () :=
    (Layout.check_eq_ok_iff lengthsNonneg_message hlen).2 (by decide)
  obtain ⟨v, -, hdecode, hencode⟩ :=
    decode_then_encode layoutOf_message lengthsNonneg_message hlen hcheck
  exact ⟨v, hdecode, hencode⟩

end Catalog

end FixedLayout
