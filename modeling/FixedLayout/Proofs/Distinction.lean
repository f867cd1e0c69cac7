import FixedLayout.Proofs.Comparisons
import FixedLayout.Proofs.Flattening
import FixedLayout.Proofs.Standard

/-!
# Packets tell values apart

Values in canonical form for one layout are packed into the same bytes exactly if they are equal.
This needs no condition on the lengths in the layout: where a negative length counts, there are no
values in canonical form.

* `Layout.Stores`, `Fields.Stores`, `Layout.StoresEach`: the bytes that values are written as, by a
  layout, by the fields of a composite and by the elements of an array;
* `Value.same_record_iff`: equal instances. `Form.same_iff_of_split`: equal values of composites;
* `Layout.distinguishes`, `Fields.exists_stores`, `Layout.exists_storesEach`: different values,
  different bytes;
* `Session.handles_stand_as_their_bytes`: comparisons, order, hashes and packets.
-/

namespace FixedLayout

/-! ### Bytes that a value is stored as -/

/-- A value is written as given bytes into every region of the right size. -/
structure Layout.Stores (l : Layout) (v : Value) (data : Bytes) : Prop where
  length : (data.length : Int) = l.size
  encode : ∀ region : Bytes, (region.length : Int) = l.size → l.encode v region = (.ok (), data)

/-- Values are written as given bytes by the fields, wherever these start. -/
structure Fields.Stores (fs : Fields) (values : List Value) (data : Bytes) : Prop where
  length : (data.length : Int) = fs.size
  encode : ∀ (typeName : String) (start : Int) (pre rest : Bytes), start = pre.length →
    (rest.length : Int) = fs.size →
      fs.encode typeName start values (pre ++ rest) = (.ok (), pre ++ data)

/-- Values are written as given bytes by elements of one layout, wherever these start. -/
structure Layout.StoresEach (element : Layout) (items : List Value) (data : Bytes) : Prop where
  length : (data.length : Int) = items.length * element.size
  encode : ∀ (typeName : String) (index : Nat) (pre rest : Bytes),
    (index : Int) * element.size = pre.length → (rest.length : Int) = items.length * element.size →
      encodeRun element.encode typeName element.size index items (pre ++ rest) =
        (.ok (), pre ++ data)

namespace Layout.Stores

variable {l : Layout} {v : Value} {data : Bytes}

theorem pack (h : l.Stores v data) : l.pack v = .ok data :=
  Layout.pack_eq_ok h.length fun region hregion => h.encode region (by rw [hregion, h.length])

theorem of_put (hlen : (data.length : Int) = l.size) (h : l.encode v = Writer.put data) :
    l.Stores v data := by
  refine ⟨hlen, fun region hregion => ?_⟩
  rw [h, Writer.put_apply (by omega)]

/-- A child puts its bytes in place, and what follows goes on behind them. -/
theorem andThen_apply (h : l.Stores v data) {start : Int} {pre rest : Bytes}
    (h0 : start = pre.length) (hroom : l.size ≤ rest.length) (node : EncodeError → EncodeError)
    (next : Writer) :
    ((Writer.wrap node (.within start (start + l.size) (l.encode v))).andThen next) (pre ++ rest) =
      next (pre ++ data ++ rest.drop data.length) := by
  have hlen := h.length
  have hn : l.size.toNat = data.length := by omega
  have htake : (rest.take l.size.toNat).length = data.length := by
    rw [List.length_take]
    omega
  have hchild := Writer.wrap_apply node (Writer.within_apply h0 (by omega) hroom
    (h.encode _ (by omega)) htake.symm)
  rw [hn] at hchild
  exact Writer.andThen_of_ok hchild

end Layout.Stores

theorem Fields.stores_nil : Fields.nil.Stores [] [] := by
  refine ⟨rfl, fun typeName start pre rest _ hrest => ?_⟩
  obtain rfl : rest = [] := List.length_eq_zero_iff.1 (Int.ofNat.inj hrest)
  rfl

theorem Fields.Stores.cons {layout : Layout} {rest : Fields} {v : Value} {values : List Value}
    {x y : Bytes} (hv : layout.Stores v x) (hvalues : rest.Stores values y) (name : String)
    (accessor : Option String) :
    (Fields.cons name accessor layout rest).Stores (v :: values) (x ++ y) := by
  have hx := hv.length
  have hy := hvalues.length
  refine ⟨?_, fun typeName start pre room h0 hroom => ?_⟩
  · rw [List.length_append, Fields.size]
    omega
  · rw [Fields.size] at hroom
    rw [Fields.encode, hv.andThen_apply h0 (by omega), hvalues.encode, List.append_assoc]
    · rw [List.length_append]
      omega
    · rw [List.length_drop]
      omega

theorem Layout.storesEach_nil (element : Layout) : element.StoresEach [] [] := by
  refine ⟨(Int.zero_mul _).symm, fun typeName index pre rest _ hrest => ?_⟩
  obtain rfl : rest = [] := List.length_eq_zero_iff.1 (Int.ofNat.inj (hrest.trans (Int.zero_mul _)))
  rfl

theorem Layout.StoresEach.cons {element : Layout} {v : Value} {items : List Value} {x y : Bytes}
    (hv : element.Stores v x) (hitems : element.StoresEach items y) :
    element.StoresEach (v :: items) (x ++ y) := by
  have hx := hv.length
  have hy := hitems.length
  have hcount : ((v :: items).length : Int) * element.size =
      items.length * element.size + element.size := offset_succ items.length element.size
  refine ⟨?_, fun typeName index pre room h0 hroom => ?_⟩
  · rw [List.length_append, hcount]
    omega
  · have hstop := offset_succ index element.size
    have hrest : 0 ≤ (items.length : Int) * element.size := by omega
    rw [hcount] at hroom
    rw [encodeRun, hstop, hv.andThen_apply h0 (by omega), hitems.encode, List.append_assoc]
    · rw [Int.natCast_add, Int.natCast_one, hstop, List.length_append]
      omega
    · rw [List.length_drop]
      omega

/-- A composite is stored as its fields are. -/
theorem Fields.Stores.composite {form : Form} {fields : Fields} {v : Value} {values : List Value}
    {data : Bytes} (h : fields.Stores values data)
    (hsplit : form.split (Layout.composite form fields).typeName fields.names v = .ok values) :
    (Layout.composite form fields).Stores v data := by
  refine ⟨h.length, fun region hregion => ?_⟩
  unfold Layout.encode
  simp only [hsplit]
  exact h.encode _ 0 [] region rfl hregion

/-- An array is stored as its elements are. -/
theorem Layout.StoresEach.array {element : Layout} {items : List Value} {data : Bytes} {n : Int}
    (h : element.StoresEach items data) (hlen : (items.length : Int) = n) :
    (Layout.array element n).Stores (.list items) data := by
  have hsize : (Layout.array element n).size = items.length * element.size := by
    rw [Layout.size, hlen, Int.mul_comm]
  have hcount : n.toNat = items.length := by omega
  refine ⟨by rw [h.length, hsize], fun region hregion => ?_⟩
  unfold Layout.encode
  simp only [arrayElements_list _ hlen, hcount, List.take_length]
  exact h.encode _ 0 [] region (Int.zero_mul _) (by rw [hregion, hsize])

/-! ### Equal instances -/

section Records

variable {u v : Value} {us vs : List Value}

theorem sameEach_iff_of_lookup {names : List String} (hu : lookupFields u names = .ok us)
    (hv : lookupFields v names = .ok vs) :
    Value.sameEach us vs = true ↔
      ∀ name ∈ names, ∃ x y, u.field? name = some x ∧ v.field? name = some y ∧ x.same y = true := by
  induction names generalizing us vs with
  | nil =>
    cases hu
    cases hv
    simp [Value.sameEach]
  | cons name names ih =>
    obtain ⟨x, us, hx, hus, rfl⟩ := lookupFields_cons hu
    obtain ⟨y, vs, hy, hvs, rfl⟩ := lookupFields_cons hv
    rw [Value.sameEach, Bool.and_eq_true, List.forall_mem_cons, ih hus hvs, hx, hy]
    simp

/-- Instances of one class with the same fields, in whatever order, are equal exactly if these are
equal one by one. -/
theorem Value.same_record_iff {cls : ModelClass} {xs ys : List (String × Value)}
    {names : List String} (hnames : names.Nodup) (hx : (xs.map (·.1)).Perm names)
    (hy : (ys.map (·.1)).Perm names) :
    (Value.record cls xs).same (.record cls ys) = true ↔
      ∀ name ∈ names, ∃ x y, (Value.record cls xs).field? name = some x ∧
        (Value.record cls ys).field? name = some y ∧ x.same y = true := by
  have hxs : (xs.map (·.1)).Nodup := hx.nodup_iff.2 hnames
  have hys : (ys.map (·.1)).Nodup := hy.nodup_iff.2 hnames
  have hlen : xs.length = ys.length := by
    have := (hx.trans hy.symm).length_eq
    rwa [List.length_map, List.length_map] at this
  have hsame : (Value.record cls xs).same (.record cls ys) = sameFields xs ys := by
    rw [same, beq_self_eq_true, hlen, beq_self_eq_true]
    rfl
  rw [hsame]
  constructor
  · intro h name hname
    obtain ⟨x, hmem, rfl⟩ := List.mem_map.1 (hx.mem_iff.2 hname)
    obtain ⟨y, hmem', hkey, heq⟩ := exists_of_sameFields h x hmem
    refine ⟨x.2, y.2, field?_record hxs hmem, ?_, heq⟩
    rw [hkey]
    exact field?_record hys hmem'
  · refine fun h => sameFields_of_forall fun x hmem => ?_
    obtain ⟨_, y, hfield, hfield', heq⟩ := h x.1 (hx.mem_iff.1 (List.mem_map_of_mem hmem))
    rw [field?_record hxs hmem] at hfield
    cases hfield
    obtain ⟨z, hfind, rfl⟩ := Option.map_eq_some_iff.1 hfield'
    have hname : (z.1 == x.1) = true :=
      List.find?_some (p := fun g : String × Value => g.1 == x.1) hfind
    exact ⟨z, List.mem_of_find?_eq_some hfind, (eq_of_beq hname).symm, heq⟩

end Records

/-- Composites take equal values apart into equal ones, and others into others. -/
theorem Form.same_iff_of_split {form : Form} {fields : Fields} (hnodup : fields.names.Nodup)
    {v w : Value} (hv : (Layout.composite form fields).Canonical v)
    (hw : (Layout.composite form fields).Canonical w) {typeName : String} {vs ws : List Value}
    (hvs : form.split typeName fields.names v = .ok vs)
    (hws : form.split typeName fields.names w = .ok ws) :
    v.same w = true ↔ Value.sameEach vs ws = true := by
  unfold Form.split at hvs hws
  cases form with
  | model cls =>
    obtain ⟨given, rfl, hgiven, -⟩ := (Layout.canonical_model_iff hnodup).1 hv
    obtain ⟨given', rfl, hgiven', -⟩ := (Layout.canonical_model_iff hnodup).1 hw
    simp only [ModelClass.isSubclassOf_self, if_true, mapError_eq_ok_iff] at hvs hws
    rw [Value.same_record_iff hnodup hgiven hgiven', sameEach_iff_of_lookup hvs hws]
  | tuple =>
    obtain ⟨items, rfl, hitems⟩ := hv
    obtain ⟨items', rfl, hitems'⟩ := hw
    simp only [Fields.length_of_canonical hitems, Fields.length_of_canonical hitems',
      Fields.length_names, if_true, Except.ok.injEq] at hvs hws
    rw [Value.same, hvs, hws]

/-! ### Different values, different bytes -/

/-- Two values are stored as bytes that are the same exactly if the values are equal. -/
def Layout.Distinguishes (l : Layout) (v w : Value) : Prop :=
  ∃ x y : Bytes, l.Stores v x ∧ l.Stores w y ∧ (x = y ↔ v.same w = true)

theorem append_eq_iff_of_length {α : Type} {x x' y y' : List α} (h : x.length = x'.length) :
    x ++ y = x' ++ y' ↔ x = x' ∧ y = y' := by
  constructor
  · exact fun heq => List.append_inj heq h
  · rintro ⟨rfl, rfl⟩
    rfl

/-- Numbers that fit are the same if their bytes are. -/
theorem IntRepr.toBytes_inj (r : IntRepr) {m n : Int} (hm : r.fits m = true)
    (hn : r.fits n = true) : r.toBytes m = r.toBytes n ↔ m = n := by
  constructor
  · intro h
    rw [← r.fromBytes_toBytes hm, h, r.fromBytes_toBytes hn]
  · rintro rfl
    rfl

/-- An integer that fits is stored as its bytes. -/
theorem IntRepr.stores (r : IntRepr) {v : Value} {n : Int} (hv : v.integer? = some n)
    (hfits : r.fits n = true) : (Layout.int r).Stores v (r.toBytes n) := by
  refine .of_put (congrArg Int.ofNat (r.length_toBytes n)) ?_
  show r.encode v = Writer.put (r.toBytes n)
  unfold IntRepr.encode
  simp only [hv, hfits, if_true]

theorem Layout.distinguishes_int (r : IntRepr) {v w : Value} (hv : (Layout.int r).Canonical v)
    (hw : (Layout.int r).Canonical w) : (Layout.int r).Distinguishes v w := by
  obtain ⟨m, hm, hfits⟩ := hv
  obtain ⟨n, hn, hfits'⟩ := hw
  refine ⟨r.toBytes m, r.toBytes n, r.stores hm hfits, r.stores hn hfits', ?_⟩
  rw [r.toBytes_inj hfits hfits']
  constructor
  · rintro rfl
    exact Value.same_of_integer? hm hn
  · exact Value.integer?_of_same hm hn

theorem Layout.distinguishes_bytes (n : Int) {v w : Value} (hv : (Layout.bytes n).Canonical v)
    (hw : (Layout.bytes n).Canonical w) : (Layout.bytes n).Distinguishes v w := by
  obtain ⟨x, rfl, hx⟩ := hv
  obtain ⟨y, rfl, hy⟩ := hw
  have hstores : ∀ data : Bytes, (data.length : Int) = n →
      (Layout.bytes n).Stores (.bytes data) data := by
    refine fun data hlen => ⟨hlen, fun region hregion => if_pos ?_⟩
    exact Int.ofNat.inj (hlen.trans hregion.symm)
  refine ⟨x, y, hstores x hx, hstores y hy, ?_⟩
  constructor
  · rintro rfl
    exact Value.same_bytes x
  · exact Value.bytes_of_same

/-- All values of a unit are equal, and are stored as its literal. -/
theorem Layout.distinguishes_unit (cls : ModelClass) (literal : Literal) {v w : Value}
    (hv : (Layout.unit cls literal).Canonical v) (hw : (Layout.unit cls literal).Canonical w) :
    (Layout.unit cls literal).Distinguishes v w := by
  obtain rfl : v = .record cls [] := hv
  obtain rfl : w = .record cls [] := hw
  have hstores : (Layout.unit cls literal).Stores (.record cls []) literal.packed := .of_put rfl rfl
  exact ⟨_, _, hstores, hstores, iff_of_true rfl (by simp [Value.same, Value.sameFields])⟩

theorem Layout.distinguishes_enumeration (e : Enumeration) {v w : Value}
    (hv : (Layout.enumeration e).Canonical v) (hw : (Layout.enumeration e).Canonical w) :
    (Layout.enumeration e).Distinguishes v w := by
  obtain ⟨x, hx, p, rfl, hp⟩ := hv
  obtain ⟨y, hy, q, rfl, hq⟩ := hw
  have hstores : ∀ x ∈ e.variants, ∀ p : Value, (Layout.enumeration e).Stores
      (.member e.name x.1 e.integral p) (e.repr.toBytes x.2) := fun x hx p =>
    .of_put (congrArg Int.ofNat (e.repr.length_toBytes x.2)) (e.encode_member hx e.integral p)
  refine ⟨_, _, hstores x hx p, hstores y hy q, ?_⟩
  rw [e.repr.toBytes_inj (e.fits x hx) (e.fits y hy)]
  constructor
  · intro h
    obtain rfl := List.inj_on_of_nodup_map e.discriminants_nodup hx hy h
    cases hintegral : e.integral with
    | true =>
      obtain rfl := hp hintegral
      obtain rfl := hq hintegral
      exact Value.same_of_integer? rfl rfl
    | false => simp [Value.same]
  · intro h
    rw [e.variant_of_same hx hy hp hq h]

/-- Elements of one layout are stored as different bytes exactly if one of them differs. -/
theorem Layout.exists_storesEach {element : Layout} {us vs : List Value}
    (h : ∀ u ∈ us, ∀ v ∈ vs, element.Distinguishes u v) (hlen : us.length = vs.length) :
    ∃ x y : Bytes, element.StoresEach us x ∧ element.StoresEach vs y ∧
      (x = y ↔ Value.sameEach us vs = true) := by
  induction us generalizing vs with
  | nil =>
    obtain rfl : vs = [] := List.length_eq_zero_iff.1 hlen.symm
    exact ⟨[], [], element.storesEach_nil, element.storesEach_nil, by simp [Value.sameEach]⟩
  | cons u us ih =>
    obtain ⟨v, vs, rfl⟩ := List.exists_cons_of_length_eq_add_one hlen.symm
    obtain ⟨hfirst, hothers⟩ := List.forall_mem_cons.1 h
    obtain ⟨x, y, hx, hy, hiff⟩ := hfirst v (List.mem_cons_self ..)
    obtain ⟨xs, ys, hxs, hys, hrest⟩ :=
      ih (fun u hu v hv => hothers u hu v (List.mem_cons_of_mem _ hv)) (Nat.succ.inj hlen)
    refine ⟨x ++ xs, y ++ ys, .cons hx hxs, .cons hy hys, ?_⟩
    have hsize : x.length = y.length := Int.ofNat.inj (hx.length.trans hy.length.symm)
    rw [append_eq_iff_of_length hsize, hiff, hrest, Value.sameEach, Bool.and_eq_true]

mutual

/-- Values in canonical form are stored as different bytes exactly if they differ. -/
theorem Layout.distinguishes : ∀ l : Layout, l.NamesNodup → ∀ v w : Value, l.Canonical v →
    l.Canonical w → l.Distinguishes v w
  | .int r, _, _, _, hv, hw => Layout.distinguishes_int r hv hw
  | .bytes n, _, _, _, hv, hw => Layout.distinguishes_bytes n hv hw
  | .unit cls literal, _, _, _, hv, hw => Layout.distinguishes_unit cls literal hv hw
  | .enumeration e, _, _, _, hv, hw => Layout.distinguishes_enumeration e hv hw
  | .composite form fields, ⟨hnodup, hnames⟩, v, w, hv, hw => by
    obtain ⟨vs, hvs, hcanonical, -⟩ := form.split_of_canonical hv
    obtain ⟨ws, hws, hcanonical', -⟩ := form.split_of_canonical hw
    obtain ⟨x, y, hx, hy, hiff⟩ := fields.exists_stores hnames vs ws hcanonical hcanonical'
    refine ⟨x, y, hx.composite hvs, hy.composite hws, ?_⟩
    rw [hiff, form.same_iff_of_split hnodup hv hw hvs hws]
  | .array element n, hnames, v, w, ⟨items, hv, hlen, hitems⟩, ⟨items', hw, hlen', hitems'⟩ => by
    subst hv
    subst hw
    obtain ⟨x, y, hx, hy, hiff⟩ := Layout.exists_storesEach
      (fun u hu v hv => element.distinguishes hnames u v (hitems u hu) (hitems' v hv))
      (Int.ofNat.inj (hlen.trans hlen'.symm))
    exact ⟨x, y, hx.array hlen, hy.array hlen', by rw [hiff, Value.same]⟩

/-- Fields are stored as different bytes exactly if one of their values differs. -/
theorem Fields.exists_stores : ∀ fs : Fields, fs.NamesNodup → ∀ us vs : List Value,
    fs.Canonical us → fs.Canonical vs → ∃ x y : Bytes, fs.Stores us x ∧ fs.Stores vs y ∧
      (x = y ↔ Value.sameEach us vs = true)
  | .nil, _, _, _, hus, hvs => by
    obtain rfl := hus
    obtain rfl := hvs
    exact ⟨[], [], Fields.stores_nil, Fields.stores_nil, by simp [Value.sameEach]⟩
  | .cons name accessor layout rest, ⟨hl, hr⟩, _, _, ⟨u, us, hus, hu, hothers⟩,
      ⟨v, vs, hvs, hv, hothers'⟩ => by
    subst hus
    subst hvs
    obtain ⟨x, y, hx, hy, hiff⟩ := layout.distinguishes hl u v hu hv
    obtain ⟨xs, ys, hxs, hys, hrest⟩ := rest.exists_stores hr us vs hothers hothers'
    refine ⟨x ++ xs, y ++ ys, .cons hx hxs name accessor, .cons hy hys name accessor, ?_⟩
    have hsize : x.length = y.length := Int.ofNat.inj (hx.length.trans hy.length.symm)
    rw [append_eq_iff_of_length hsize, hiff, hrest, Value.sameEach, Bool.and_eq_true]

end

/-! ### Packets -/

/-- A value in canonical form is no view or packet. -/
theorem Layout.not_isHandle_of_canonical {l : Layout} {v : Value} (h : l.Canonical v) :
    v.isHandle = false := by
  cases l with
  | int r =>
    obtain ⟨n, hn, -⟩ := h
    cases v with
    | view l content => cases hn
    | packet l content => cases hn
    | _ => rfl
  | bytes n =>
    obtain ⟨content, rfl, -⟩ := h
    rfl
  | unit cls literal =>
    obtain rfl : v = .record cls [] := h
    rfl
  | enumeration e =>
    obtain ⟨x, -, payload, rfl, -⟩ := h
    rfl
  | composite form fields =>
    cases form with
    | model cls =>
      obtain ⟨given, values, rfl, -⟩ := h
      rfl
    | tuple =>
      obtain ⟨items, rfl, -⟩ := h
      rfl
  | array element n =>
    obtain ⟨items, rfl, -⟩ := h
    rfl

/-- Values in canonical form can be compared. -/
theorem Layout.holds_eq_of_canonical {l : Layout} {v w : Value} (hv : l.Canonical v)
    (hw : l.Canonical w) : v.holds .eq w = .ok (v.same w) := by
  have hnone : v.handleBytes w = none := by
    unfold Value.handleBytes
    rw [not_isHandle_of_canonical hv, not_isHandle_of_canonical hw]
    rfl
  show v.equals w = .ok (v.same w)
  unfold Value.equals
  rw [hnone]

/-- The packets of values in canonical form are equal exactly if the values are. -/
theorem Layout.operator_of_stores {l : Layout} {v w : Value} (hv : l.Canonical v)
    (hw : l.Canonical w) {x y : Bytes} (h : x = y ↔ v.same w = true) :
    (Value.packet l x).operator .eq (.packet l y) = v.holds .eq w := by
  have hpackets := Value.Shows.operator_eq (a := .packet l x) (b := .packet l y) ⟨rfl, rfl⟩
    ⟨rfl, rfl⟩ .eq
  rw [hpackets, holds_eq_of_canonical hv hw]
  congr 1
  rw [Bool.eq_iff_iff, decide_eq_true_iff, ← h]
  rfl

namespace Session

variable {w : Workspace} {o : Object} {t : Option TypeExpr} {type : TypeExpr} {l : Layout}
  {data : Bytes}

/-- An object is packed into a packet of the bytes that its value is stored as. -/
theorem pack_of_stores (htype : inferType (w.store.valueOf o) t = .ok type)
    (hlayout : (w.catalog.compile type w.cache).1 = .ok l) (h : l.Stores (w.store.valueOf o) data) :
    (pack o t w).1 = .ok (.plain (.packet l data)) :=
  congrArg Prod.fst (pack_of_ok htype hlayout h.pack)

/-- Operators between views in use, packets and other values that have bytes say what is true of
these bytes, equal or in lexicographic order, whichever operand is asked and whatever the layouts.
So views and packets are in total order up to equality, and can be sorted. Those that are equal have
the hash of their bytes, so that a table has one for each byte string. Objects whose values are in
canonical form for one type are packed into packets that are equal exactly if the values are. -/
theorem handles_stand_as_their_bytes :
    (∀ (a b : Value) (x y : Bytes), a.isHandle = true ∨ b.isHandle = true →
      a.rawBytes? = some x → b.rawBytes? = some y → ∀ c : Comparison,
        a.operator c b = .ok (decide (c.Relates x y)) ∧ a.holds c b = a.operator c b) ∧
    (Value.TotallyOrdered fun v => ∃ x, v.Shows x) ∧
    (∀ {α : Type} (value : α → Value) (key : α → Bytes) (items : List α),
      (∀ i ∈ items, (value i).Shows (key i)) →
        ∃ sorted, Value.sort value items = .ok sorted ∧ sorted.Perm items ∧
          sorted.Pairwise (fun i j => key i ≤ key j) ∧
          ∀ i j, key i ≤ key j → [i, j].Sublist items → [i, j].Sublist sorted) ∧
    (∀ {η : Type} (hashBytes : Bytes → η) (a b : Value) (x y : Bytes), a.Shows x → b.Shows y →
      a.operator .eq b = .ok true → a.hash? hashBytes = b.hash? hashBytes ∧
        a.hash? hashBytes = (Value.bytes x).hash? hashBytes ∧
        a.hash? hashBytes = some (hashBytes x)) ∧
    (∀ (vs : List Value) (keys : List Bytes), List.Forall₂ Value.Keyed vs keys →
      Value.distinct vs = .ok keys.toFinset.card ∧
        ∀ {η : Type} [BEq η] [ReflBEq η] (hashBytes : Bytes → η),
          Value.firstsHashed hashBytes vs = Value.firsts vs) ∧
    ∀ (w : Workspace) (type : TypeExpr) (l : Layout), w.cache.Reached →
      (w.catalog.compile type w.cache).1 = .ok l → ∀ (o p : Object) (t t' : Option TypeExpr),
        inferType (w.store.valueOf o) t = .ok type → inferType (w.store.valueOf p) t' = .ok type →
        l.Canonical (w.store.valueOf o) → l.Canonical (w.store.valueOf p) →
          ∃ (x y : Bytes) (equal : Bool), (pack o t w).1 = .ok (.plain (.packet l x)) ∧
            (pack p t' w).1 = .ok (.plain (.packet l y)) ∧
            (Value.packet l x).operator .eq (.packet l y) = .ok equal ∧
            (w.store.valueOf o).holds .eq (w.store.valueOf p) = .ok equal := by
  refine ⟨fun a b x y h ha hb c => ⟨Value.operator_of_bytes h ha hb c,
      (Value.operator_eq_holds h c).symm⟩, Value.totallyOrdered_shows,
    fun value key items h => Value.exists_sort h, fun hashBytes a b x y ha hb heq => ?_,
    fun vs keys h => Value.distinct_eq_card h, ?_⟩
  · obtain rfl : x = y := (ha.operator_iff hb).1 heq
    rw [ha.keyed.hash?_eq, hb.keyed.hash?_eq, (Value.keyed_bytes x).hash?_eq]
    exact ⟨rfl, rfl, rfl⟩
  · intro w type l hcache hlayout o p t t' ho hp hv hv'
    obtain ⟨x, y, hx, hy, hiff⟩ := l.distinguishes
      (Catalog.closed_of_compile closed_namesNodup hcache hlayout) _ _ hv hv'
    have hsame := Layout.holds_eq_of_canonical hv hv'
    refine ⟨x, y, _, pack_of_stores ho hlayout hx, pack_of_stores hp hlayout hy, ?_, hsame⟩
    rw [Layout.operator_of_stores hv hv' hiff, hsame]

/-- A pair with a given number. -/
def numberedPair (n : Int) : Value :=
  .record ⟨"Pair", [], true, ["left", "accent"]⟩
    [("left", .int n), ("accent", .record ⟨"Accent", [], false, []⟩ [])]

theorem canonical_numberedPair {n : Int} (h0 : 0 ≤ n) (h1 : n < 256) :
    pairLayout.Canonical (numberedPair n) := Catalog.canonical_pair h0 h1

/-- A view and a packet of different layouts, in a table and in order, and the packets of two pairs
that differ in their numbers. -/
theorem pairs_and_numbers_are_compared :
    (Value.view (.bytes 2) (some [1, 0])).operator .lt (.packet (.int .u16) [2, 0]) = .ok true ∧
    (Value.bytearray [1, 0]).operator .ge (.view (.bytes 2) (some [1, 0])) = .ok true ∧
    Value.distinct [.view (.bytes 2) (some [1, 0]), .packet (.int .u16) [1, 0], .bytes [1, 0]] =
      .ok 1 ∧
    ∃ x y, (Value.packet pairLayout x).operator .eq (.packet pairLayout y) = .ok false := by
  obtain ⟨hcompare, -, -, -, htable, hpack⟩ := handles_stand_as_their_bytes
  obtain ⟨x, y, equal, -, -, hpackets, hpairs⟩ := hpack messageWorkspace (.named "Pair") pairLayout
    .empty layoutOf_pair (.plain (numberedPair 3)) (.plain (numberedPair 4)) none none rfl rfl
    (canonical_numberedPair (by decide) (by decide))
    (canonical_numberedPair (by decide) (by decide))
  have hdiffer : (numberedPair 3).holds .eq (numberedPair 4) = .ok false := by cbv
  cases hpairs.symm.trans hdiffer
  have hone := htable [.view (.bytes 2) (some [1, 0]), .packet (.int .u16) [1, 0], .bytes [1, 0]]
    [[1, 0], [1, 0], [1, 0]] (.cons ⟨rfl, rfl⟩ (.cons ⟨rfl, rfl⟩ (.cons ⟨rfl, rfl⟩ .nil)))
  exact ⟨(hcompare _ _ [1, 0] [2, 0] (.inl rfl) rfl rfl .lt).1,
    (hcompare _ _ [1, 0] [1, 0] (.inr rfl) rfl rfl .ge).1, hone.1, x, y, hpackets⟩

end Session

end FixedLayout
