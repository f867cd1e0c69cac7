import FixedLayout.Proofs.Emission

/-!
# Values that come back

A value in canonical form has just the shape that decoding gives to the values of its layout. It is
always encoded, and its bytes are decoded to a value that equals it.

* `Layout.Canonical`, `Fields.Canonical`: values in canonical form;
* `Layout.exists_encoding`: the round trip for a layout;
* `Catalog.encode_is_accepted_iff`: when the bytes of a value of any shape are an encoding of the
  type, and that those of a canonical value are, and are decoded to an equal value.
-/

namespace FixedLayout

mutual

/-- Whether a value has the form that decoding gives to the values of a layout: an integer that
fits, bytes of the right number, an instance of a unit, a declared member, an instance of the class
itself with every field in canonical form, a tuple or list of as many values in canonical form. -/
def Layout.Canonical : Layout → Value → Prop
  | .int r, v => ∃ n, v.integer? = some n ∧ r.fits n = true
  | .bytes length, v => ∃ content : Bytes, v = .bytes content ∧ (content.length : Int) = length
  | .unit cls _, v => v = .record cls []
  | .enumeration e, v => ∃ x ∈ e.variants, ∃ payload : Value,
      v = .member e.name x.1 e.integral payload ∧ (e.integral = true → payload = .int x.2)
  | .composite (.model cls) fields, v => ∃ (given : List (String × Value)) (values : List Value),
      v = .record cls given ∧ given.length = fields.count ∧
        lookupFields v fields.names = .ok values ∧ fields.Canonical values
  | .composite .tuple fields, v => ∃ items, v = .tuple items ∧ fields.Canonical items
  | .array element length, v => ∃ items : List Value, v = .list items ∧
      (items.length : Int) = length ∧ ∀ x ∈ items, element.Canonical x

/-- Whether there is one value in canonical form for each field. -/
def Fields.Canonical : Fields → List Value → Prop
  | .nil, values => values = []
  | .cons _ _ layout rest, values => ∃ v others,
      values = v :: others ∧ layout.Canonical v ∧ rest.Canonical others

end

theorem Fields.length_of_canonical : ∀ {fs : Fields} {values : List Value}, fs.Canonical values →
    values.length = fs.count
  | .nil, _, rfl => rfl
  | .cons _ _ _ _, _, ⟨_, _, rfl, _, hrest⟩ => congrArg (· + 1) (Fields.length_of_canonical hrest)

/-! ### Equal values -/

namespace Value

theorem same_bytes (content : Bytes) : (Value.bytes content).same (.bytes content) = true := by
  simp [same, isNumber, isHandle, window?, flatBytes?, sameWindow]

/-- Members of one name of an enumeration are equal. -/
theorem same_member (enum name : String) {integral : Bool} {d : Int} {payload : Value}
    (h : integral = true → payload = .int d) :
    (Value.member enum name integral (.int d)).same (.member enum name integral payload) =
      true := by
  cases integral with
  | true =>
    obtain rfl := h rfl
    exact same_of_integer? rfl rfl
  | false =>
    rw [same, beq_self_eq_true, beq_self_eq_true]
    rfl

theorem sameFields_of_forall {xs ys : List (String × Value)}
    (h : ∀ x ∈ xs, ∃ y ∈ ys, x.1 = y.1 ∧ x.2.same y.2 = true) : sameFields xs ys = true := by
  induction xs with
  | nil => rw [sameFields]
  | cons x xs ih =>
    obtain ⟨hx, hxs⟩ := List.forall_mem_cons.1 h
    obtain ⟨name, v⟩ := x
    obtain ⟨y, hy, rfl, hsame⟩ := hx
    have hany : ys.any (fun z => y.1 == z.1 && same v z.2) = true := by
      refine List.any_eq_true.2 ⟨y, hy, ?_⟩
      rw [beq_self_eq_true, hsame]
      rfl
    rw [sameFields, hany, ih hxs]
    rfl

/-- Equal instances have equal fields. -/
theorem exists_of_sameFields {xs ys : List (String × Value)} (h : sameFields xs ys = true) :
    ∀ x ∈ xs, ∃ y ∈ ys, x.1 = y.1 ∧ x.2.same y.2 = true := by
  induction xs with
  | nil => exact fun _ hx => absurd hx List.not_mem_nil
  | cons x xs ih =>
    obtain ⟨name, v⟩ := x
    rw [sameFields, Bool.and_eq_true, List.any_eq_true] at h
    obtain ⟨⟨y, hy, hfirst⟩, hrest⟩ := h
    rw [Bool.and_eq_true] at hfirst
    exact List.forall_mem_cons.2 ⟨⟨y, hy, eq_of_beq hfirst.1, hfirst.2⟩, ih hrest⟩

/-- Instances of one class are equal if they have as many fields and the values of these are
equal. -/
theorem same_record {cls : ModelClass} {xs ys : List (String × Value)} {names : List String}
    {values : List Value} (hnames : xs.map (·.1) = names) (hlen : ys.length = xs.length)
    (hlookup : lookupFields (.record cls ys) names = .ok values)
    (h : sameEach (xs.map (·.2)) values = true) :
    (Value.record cls xs).same (.record cls ys) = true := by
  have hfields : ∀ x ∈ xs, ∃ y ∈ ys, x.1 = y.1 ∧ x.2.same y.2 = true := by
    -- the fields shrink along the induction, the instance that they are looked up in does not
    clear hlen
    induction xs generalizing names values with
    | nil => exact fun _ hx => absurd hx List.not_mem_nil
    | cons x xs ih =>
      subst hnames
      rw [List.map_cons] at hlookup h
      obtain ⟨v, others, hfield, hrest, rfl⟩ := lookupFields_cons hlookup
      rw [sameEach, Bool.and_eq_true] at h
      refine List.forall_mem_cons.2 ⟨?_, ih rfl hrest h.2⟩
      obtain ⟨y, hy, rfl⟩ := Option.map_eq_some_iff.1 hfield
      have hname : (y.1 == x.1) = true :=
        List.find?_some (p := fun g : String × Value => g.1 == x.1) hy
      exact ⟨y, List.mem_of_find?_eq_some hy, (eq_of_beq hname).symm, h.1⟩
  rw [same, beq_self_eq_true, hlen, beq_self_eq_true, sameFields_of_forall hfields]
  rfl

end Value

/-! ### Leaves -/

/-- A value that is written as given bytes, which are decoded to an equal value. -/
structure Layout.Returns (l : Layout) (v w : Value) (data : Bytes) : Prop where
  length : (data.length : Int) = l.size
  writes : (l.trace v).Writes data
  decode : l.decode data = .ok w
  same : w.same v = true

/-- A leaf gives back a value in canonical form. -/
theorem Layout.exists_encoding_of_isLeaf {l : Layout} (hl : l.IsLeaf) {v : Value}
    (hv : l.Canonical v) : ∃ (data : Bytes) (w : Value), l.Returns v w data := by
  cases l with
  | int r =>
    obtain ⟨n, hn, hfits⟩ := hv
    have hlen := r.length_toBytes n
    have hsize : ((r.toBytes n).length : Int) = (Layout.int r).size := congrArg Int.ofNat hlen
    refine ⟨r.toBytes n, .int n, hsize, put_writes hsize ?_, ?_, Value.same_of_integer? rfl hn⟩
    · show r.encode v = Writer.put (r.toBytes n)
      unfold IntRepr.encode
      simp only [hn, hfits, if_true]
    · unfold Layout.decode
      simp only [r.read_of_length hlen, r.fromBytes_toBytes hfits]
  | bytes n =>
    obtain ⟨content, rfl, hlen⟩ := hv
    refine ⟨content, .bytes content, hlen, Trace.writes_of_pack (Layout.pack_eq_ok hlen ?_), rfl,
      Value.same_bytes content⟩
    exact fun region hregion => if_pos hregion.symm
  | unit cls literal =>
    obtain rfl : v = .record cls [] := hv
    have hsame : (Value.record cls []).same (.record cls []) = true := by
      have hlookup : lookupFields (.record cls []) [] = .ok [] := rfl
      exact Value.same_record rfl rfl hlookup (by rw [List.map_nil, Value.sameEach])
    exact ⟨literal.packed, .record cls [], rfl, put_writes rfl rfl, rfl, hsame⟩
  | enumeration e =>
    obtain ⟨x, hx, payload, rfl, hpayload⟩ := hv
    have hlen := e.repr.length_toBytes x.2
    have hsize : ((e.repr.toBytes x.2).length : Int) = (Layout.enumeration e).size :=
      congrArg Int.ofNat hlen
    refine ⟨e.repr.toBytes x.2, .member e.name x.1 e.integral (.int x.2), hsize,
      put_writes hsize ?_, ?_, Value.same_member e.name x.1 hpayload⟩
    · rw [Layout.encode, e.encode_member hx]
    · show e.decode (e.repr.toBytes x.2) = _
      unfold Enumeration.decode
      simp only [e.repr.read_of_length hlen, e.repr.fromBytes_toBytes (e.fits x hx),
        e.variant?_of_mem hx]
  | composite form fields => exact hl.elim
  | array element n => exact hl.elim

/-! ### Layouts -/

/-- A composite takes a value in canonical form apart into values in canonical form, and builds an
equal value from values that equal these. -/
theorem Form.split_of_canonical {form : Form} {fields : Fields} {v : Value}
    (hv : (Layout.composite form fields).Canonical v) : ∃ values : List Value,
      form.split (Layout.composite form fields).typeName fields.names v = .ok values ∧
      fields.Canonical values ∧
      ∀ given : List (String × Value), given.map (·.1) = fields.names →
        Value.sameEach (given.map (·.2)) values = true → (form.build given).same v = true := by
  cases form with
  | model cls =>
    obtain ⟨present, values, rfl, hcount, hlookup, hvalues⟩ := hv
    refine ⟨values, ?_, hvalues, fun given hkeys hsame => ?_⟩
    · unfold Form.split
      simp only [ModelClass.isSubclassOf_self, if_true, hlookup]
      rfl
    · have hlen := congrArg List.length hkeys
      rw [List.length_map, fields.length_names] at hlen
      exact Value.same_record hkeys (hcount.trans hlen.symm) hlookup hsame
  | tuple =>
    obtain ⟨items, rfl, hitems⟩ := hv
    refine ⟨items, ?_, hitems, fun given _ hsame => ?_⟩
    · have hlen : items.length = fields.names.length := by
        rw [Fields.length_of_canonical hitems, fields.length_names]
      unfold Form.split
      simp only [hlen, if_true]
    · show (Value.tuple (given.map (·.2))).same (.tuple items) = true
      rw [Value.same]
      exact hsame

/-- Values in canonical form are given back as the elements of an array, wherever the bytes are. -/
theorem exists_encodingRun {trace : Value → Trace} {decode : Bytes → Except DecodeFault Value}
    {size : Int} {items : List Value}
    (h : ∀ v ∈ items, ∃ (data : Bytes) (w : Value), (data.length : Int) = size ∧
      (trace v).Writes data ∧ decode data = .ok w ∧ w.same v = true)
    (leaves : List Leaf) (typeName : String) (index : Nat) :
    ∃ (content : Bytes) (ws : List Value), (content.length : Int) = items.length * size ∧
      (traceRun trace leaves typeName size index items.length items).Writes content ∧
      Value.sameEach ws items = true ∧
      ∀ pre post : Bytes, (index : Int) * size = pre.length →
        decodeRun decode size (pre ++ content ++ post) index items.length = .ok ws := by
  induction items generalizing index with
  | nil =>
    refine ⟨[], [], (Int.zero_mul size).symm, Trace.writes_skip_nil, ?_, fun _ _ _ => rfl⟩
    rw [Value.sameEach]
  | cons v items ih =>
    obtain ⟨hv, hitems⟩ := List.forall_mem_cons.1 h
    obtain ⟨data, w, hlen, hwrites, hdecode, hsame⟩ := hv
    obtain ⟨content, ws, hcontent, htail, hrest, hrun⟩ := ih hitems (index + 1)
    refine ⟨data ++ content, w :: ws, ?_, hwrites.andThen htail _ _ _, ?_, fun pre post hpre => ?_⟩
    · rw [List.length_append, Int.natCast_add, hlen, hcontent, List.length_cons, Int.natCast_add,
        Int.natCast_one, offset_succ, Int.add_comm]
    · rw [Value.sameEach, hsame, hrest]
      rfl
    · have hstop := offset_succ index size
      have hcut : pre ++ (data ++ content) ++ post = pre ++ data ++ (content ++ post) := by simp
      have hfirst : Bytes.slice (pre ++ data ++ (content ++ post)) (index * size)
          (((index : Int) + 1) * size) = data := Bytes.slice_mid hpre (by omega)
      have hothers := hrun (pre ++ data) post (by
        rw [Int.natCast_add, Int.natCast_one, hstop, List.length_append]
        omega)
      rw [List.append_assoc] at hothers
      rw [hcut, List.length_cons, decodeRun, hfirst, hdecode]
      show (decodeRun decode size _ _ _ >>= _) = _
      rw [hothers]
      rfl

mutual

/-- A value in canonical form is encoded, and its bytes are decoded to an equal value. -/
theorem Layout.exists_encoding : ∀ l : Layout, l.LengthsNonneg → l.NamesNodup →
    ∀ v : Value, l.Canonical v → ∃ (data : Bytes) (w : Value), l.Returns v w data
  | .int r, _, _, _, hv => Layout.exists_encoding_of_isLeaf (l := .int r) trivial hv
  | .bytes n, _, _, _, hv => Layout.exists_encoding_of_isLeaf (l := .bytes n) trivial hv
  | .unit cls literal, _, _, _, hv =>
    Layout.exists_encoding_of_isLeaf (l := .unit cls literal) trivial hv
  | .enumeration e, _, _, _, hv => Layout.exists_encoding_of_isLeaf (l := .enumeration e) trivial hv
  | .composite form fields, hl, ⟨hnodup, hnames⟩, v, hv => by
    obtain ⟨values, hsplit, hvalues, hbuild⟩ := form.split_of_canonical hv
    obtain ⟨content, given, hcontent, hwrites, hkeys, hsame, hdecode⟩ :=
      fields.exists_encoding hl hnames values hvalues (Layout.composite form fields).typeName
        (form.frame (Layout.composite form fields).typeName) 0 0
    refine ⟨content, form.build given, hcontent, ?_, ?_, hbuild given hkeys hsame⟩
    · rw [Layout.trace_composite hsplit]
      exact hwrites
    · have hall := hdecode [] [] rfl
      rw [List.nil_append, List.append_nil] at hall
      rw [Layout.decode, hall]
      rfl
  | .array element n, ⟨he, hn⟩, hnames, v, ⟨items, hv, hlen, hitems⟩ => by
    subst hv
    have helements : ∀ x ∈ items, ∃ (data : Bytes) (w : Value),
        (data.length : Int) = element.size ∧ (element.trace x).Writes data ∧
          element.decode data = .ok w ∧ w.same x = true := by
      intro x hx
      obtain ⟨data, w, hreturns⟩ := element.exists_encoding he hnames x (hitems x hx)
      exact ⟨data, w, hreturns.length, hreturns.writes, hreturns.decode, hreturns.same⟩
    obtain ⟨content, ws, hcontent, hwrites, hsame, hdecode⟩ :=
      exists_encodingRun helements element.leaves (Layout.array element n).typeName 0
    have hcount : n.toNat = items.length := by omega
    refine ⟨content, .list ws, ?_, ?_, ?_, ?_⟩
    · rw [hcontent, Layout.size_array element hn, hcount]
    · rw [Layout.trace_array (arrayElements_list _ hlen), hcount]
      exact hwrites
    · have hall := hdecode [] [] (Int.zero_mul _)
      rw [List.nil_append, List.append_nil] at hall
      rw [Layout.decode, hcount, hall]
      rfl
    · rw [Value.same]
      exact hsame

/-- Values in canonical form are given back as the fields of a composite, wherever the bytes are. -/
theorem Fields.exists_encoding : ∀ fs : Fields, fs.LengthsNonneg → fs.NamesNodup →
    ∀ values : List Value, fs.Canonical values →
      ∀ (typeName : String) (frame : String → Nat → Frame) (index : Nat) (start : Int),
        ∃ (content : Bytes) (given : List (String × Value)), (content.length : Int) = fs.size ∧
          (fs.trace typeName frame index start values).Writes content ∧
          given.map (·.1) = fs.names ∧ Value.sameEach (given.map (·.2)) values = true ∧
          ∀ pre post : Bytes, start = pre.length →
            fs.decode start (pre ++ content ++ post) = .ok given
  | .nil, _, _, _, hvalues, _, _, _, _ => by
    obtain rfl := hvalues
    refine ⟨[], [], rfl, Trace.writes_skip_nil, rfl, ?_, fun _ _ _ => rfl⟩
    rw [List.map_nil, Value.sameEach]
  | .cons name _ layout rest, ⟨hl, hr⟩, ⟨hnl, hnr⟩, _, ⟨v, values, hvalues, hv, hothers⟩, typeName,
      frame, index, start => by
    subst hvalues
    obtain ⟨data, w, hreturns⟩ := layout.exists_encoding hl hnl v hv
    have hlen := hreturns.length
    obtain ⟨content, given, hcontent, htail, hkeys, hsame, hdecode⟩ :=
      rest.exists_encoding hr hnr values hothers typeName frame (index + 1) (start + layout.size)
    refine ⟨data ++ content, (name, w) :: given, ?_, hreturns.writes.andThen htail _ _ _,
      congrArg (name :: ·) hkeys, ?_, fun pre post hpre => ?_⟩
    · rw [List.length_append, Int.natCast_add, hlen, hcontent, Fields.size]
    · rw [List.map_cons, Value.sameEach, hreturns.same, hsame]
      rfl
    · have hcut : pre ++ (data ++ content) ++ post = pre ++ data ++ (content ++ post) := by simp
      have hfirst : Bytes.slice (pre ++ data ++ (content ++ post)) start (start + layout.size) =
          data := Bytes.slice_mid hpre (by omega)
      have hrest := hdecode (pre ++ data) post (by
        rw [List.length_append]
        omega)
      rw [List.append_assoc] at hrest
      rw [hcut, Fields.decode, hfirst, hreturns.decode]
      show (Fields.decode _ _ _ >>= _) = _
      rw [hrest]
      rfl

end

/-- Bytes that are written without passing over a leaf are an encoding. -/
theorem Layout.check_of_writes {l : Layout} (hl : l.LengthsNonneg) {v : Value} {data : Bytes}
    (hlen : (data.length : Int) = l.size) (h : (l.trace v).Writes data) :
    l.check data = .ok () := by
  have hoverlay := ((Layout.pack_eq_ok_iff hl).1 (Layout.pack_of_writes hl hlen h)).2
  rw [hoverlay, Layout.check_overlay_iff hl h.outcome (Layout.length_zeros (l.size_nonneg hl))]
  intro leaf hleaf
  exact absurd rfl (h.complete _ (Trace.mem_passedOver.1 hleaf))

/-! ### Types -/

namespace Catalog

variable {c : Catalog} {t : TypeExpr} {l : Layout} {v : Value} {data : Bytes}

theorem encode_eq_ok_iff (h : c.layoutOf t = .ok l) :
    c.encode v (some t) = .ok data ↔ l.pack v = .ok data := by
  rw [encode_eq h]
  cases l.pack v with
  | ok content => exact ⟨fun h => congrArg Except.ok (Except.ok.inj h), fun h => congrArg _ h⟩
  | error fault => exact ⟨nofun, nofun⟩

theorem check_eq_ok_iff (h : c.layoutOf t = .ok l) (hlen : (data.length : Int) = l.size) :
    c.check t data = .ok () ↔ l.check data = .ok () := by
  rw [check_eq h hlen]
  cases l.check data with
  | ok u => exact ⟨fun _ => rfl, fun _ => rfl⟩
  | error fault => exact ⟨nofun, nofun⟩

/-- The bytes of a value are as many as the layout says. They are an encoding of the type exactly if
the leaves that were passed over accept zeros, and always if no positional instance lacks fields.
A value in canonical form is encoded, and its bytes are decoded to an equal value. -/
theorem encode_is_accepted_iff (h : c.layoutOf t = .ok l) (hl : l.LengthsNonneg) :
    (∀ v data, c.encode v (some t) = .ok data →
      (data.length : Int) = l.size ∧
      (c.check t data = .ok () ↔
        ∀ leaf ∈ (l.trace v).passedOver,
          leaf.layout.Accepts (Bytes.zeros leaf.layout.size.toNat)) ∧
      (v.Whole → c.check t data = .ok ())) ∧
    ∀ v, l.Canonical v → ∃ data w, c.encode v (some t) = .ok data ∧ c.check t data = .ok () ∧
      c.decode t data = .ok w ∧ w.same v = true := by
  have hsize := l.size_nonneg hl
  have hzeros := Layout.length_zeros hsize
  constructor
  · intro v data hencode
    rw [encode_eq_ok_iff h, Layout.pack_eq_ok_iff hl] at hencode
    obtain ⟨hok, rfl⟩ := hencode
    have hlen : ((Bytes.overlay (l.trace v).patch (Bytes.zeros l.size.toNat)).length : Int) =
        l.size := by rw [Bytes.length_overlay, hzeros]
    have hiff := Layout.check_overlay_iff hl hok hzeros
    refine ⟨hlen, ?_, fun hv => ?_⟩
    · rw [check_eq_ok_iff h hlen, hiff]
      refine forall_congr' fun leaf => forall_congr' fun hleaf => ?_
      have hmem := Layout.mem_leaves_of_visit (Trace.mem_passedOver.1 hleaf)
      rw [Leaf.Holds, Layout.range_zeros hl hmem]
    · rw [check_eq_ok_iff h hlen, hiff, Layout.passedOver_of_whole hl hv]
      exact fun _ hleaf => absurd hleaf List.not_mem_nil
  · intro v hv
    obtain ⟨data, w, hreturns⟩ := l.exists_encoding hl (namesNodup_of_layoutOf h) v hv
    have hpack := Layout.pack_of_writes hl hreturns.length hreturns.writes
    have hcheck := Layout.check_of_writes hl hreturns.length hreturns.writes
    refine ⟨data, w, (encode_eq_ok_iff h).2 hpack, (check_eq_ok_iff h hreturns.length).2 hcheck, ?_,
      hreturns.same⟩
    rw [decode_eq h hreturns.length hcheck, Layout.unpack, hreturns.decode]
    rfl

/-- A message in canonical form. -/
def messageValue : Value :=
  let pair (n : Int) : Value :=
    .record ⟨"Pair", [], true, ["left", "accent"]⟩
      [("left", .int n), ("accent", .record ⟨"Accent", [], false, []⟩ [])]
  .record ⟨"Message", [], false, ["kind", "body", "tail"]⟩
    [("kind", .member "Kind" "ON" true (.int 1)), ("body", .list [pair 3, pair 4]),
     ("tail", .tuple [.int (-2), .bytes [5]])]

theorem canonical_pair {n : Int} (h0 : 0 ≤ n) (h1 : n < 256) :
    pairLayout.Canonical (.record ⟨"Pair", [], true, ["left", "accent"]⟩
      [("left", .int n), ("accent", .record ⟨"Accent", [], false, []⟩ [])]) := by
  have hfits : IntRepr.u8.fits n = true := (IntRepr.u8.fits_unsigned_iff rfl n).2 ⟨h0, h1⟩
  exact ⟨_, _, rfl, rfl, rfl, _, _, rfl, ⟨n, rfl, hfits⟩, _, _, rfl, rfl, rfl⟩

theorem canonical_message : messageLayout.Canonical messageValue := by
  refine ⟨_, _, rfl, rfl, rfl, _, _, rfl, ?_, _, _, rfl, ?_, _, _, rfl, ?_, rfl⟩
  · exact ⟨("ON", 1), by decide, .int 1, rfl, fun _ => rfl⟩
  · refine ⟨_, rfl, rfl, List.forall_mem_cons.2 ⟨canonical_pair (by decide) (by decide), ?_⟩⟩
    exact List.forall_mem_singleton.2 (canonical_pair (by decide) (by decide))
  · exact ⟨_, rfl, _, _, rfl, ⟨-2, rfl, by decide⟩, _, _, rfl, ⟨[5], rfl, rfl⟩, rfl⟩

/-- A message in canonical form is encoded, and its bytes are decoded to an equal one. -/
theorem canonical_message_is_accepted :
    ∃ data w, messageCatalog.encode messageValue (some (.named "Message")) = .ok data ∧
      messageCatalog.check (.named "Message") data = .ok () ∧
      messageCatalog.decode (.named "Message") data = .ok w ∧ w.same messageValue = true :=
  (encode_is_accepted_iff layoutOf_message lengthsNonneg_message).2 messageValue canonical_message

/-- Definitions of a unit of two bytes and of a pair of bytes. -/
def markCatalog : Catalog :=
  [.model (.root .unit "Mark" [] (some (.bytes [0x61, 0x62])) none),
   .model (.root .tuple "Pair" [⟨"left", .fixedInt .u8, none, .null⟩,
     ⟨"right", .fixedInt .u8, none, .null⟩] none none)]

/-- Two marks. -/
def marksType : TypeExpr := .fixedList (.named "Mark") 2

/-- An instance of the pair that lacks one of its fields. -/
def partialPair : Value := .record ⟨"Pair", [], true, ["left", "right"]⟩ [("left", .int 1)]

/-- The pair counts for two elements but is gone through as one, so that the second mark is never
written. -/
theorem partial_pair_is_not_accepted :
    ∃ data, markCatalog.encode partialPair (some marksType) = .ok data ∧
      markCatalog.check marksType data ≠ .ok () := by
  refine ⟨[0x61, 0x62, 0, 0], by cbv, fun h => ?_⟩
  have hcheck : (markCatalog.check marksType [0x61, 0x62, 0, 0]).isOk = false := by cbv
  rw [h] at hcheck
  cases hcheck

end Catalog

end FixedLayout
