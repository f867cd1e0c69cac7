import FixedLayout.Proofs.Canonical
import FixedLayout.Proofs.Rejection
import FixedLayout.Workspace.Coding

/-!
# Encoding into buffers

What `Session.encodeInto` leaves in the buffer, whether it succeeds or not.

* `Layout.Overwrites`, `Layout.overwrites_overlay`: the bytes that encoding a value leaves in place
  of old ones;
* `Layout.packInto_eq`: only the bytes from the offset on, as many as the layout has, are written;
* `Store.write_read`, `Store.read_write`: windows of a store;
* `Object.target?`, `Session.encodeInto_eq`: encoding into a writable object;
* `Session.encodeInto_overwrites`: the outcome and the bytes that are left.
-/

namespace FixedLayout

/-! ### Bytes in place of old ones -/

/-- What encoding a value leaves in place of old bytes. On success these are the bytes of the value,
unless a leaf is passed over that was not zero before. When the value is rejected, it is the node
named by the error that rejects it; the leaves before this node have been written, and everything
from the node on is as before. -/
structure Layout.Overwrites (l : Layout) (v : Value) (old new : Bytes) : Prop where
  length : new.length = old.length
  visited : (l.trace v).visits.map (·.leaf) <+: l.leaves
  wrote : (l.trace v).Wrote old new
  whole : v.Whole → ∀ x ∈ (l.trace v).visits, x.value ≠ none
  packed : ∀ data, l.pack v = .ok data →
    (new = data ↔ ∀ leaf ∈ (l.trace v).passedOver,
      leaf.range old = Bytes.zeros leaf.layout.size.toNat)
  rejected : ∀ e, l.pack v = .error (.rejected e) →
    ∃ place, l.locate e = some place ∧ (l.trace v).StopsAt 0 v.Has place ∧
      new.drop place.start.toNat = old.drop place.start.toNat

/-- Encoding leaves the same bytes in place of different ones if those of the leaves that are passed
over are the same. -/
theorem Layout.overlay_eq_iff {l : Layout} (hl : l.LengthsNonneg) {v : Value}
    (hok : (l.trace v).outcome = .ok ()) {xs ys : Bytes} (hxs : (xs.length : Int) = l.size)
    (hys : (ys.length : Int) = l.size) :
    Bytes.overlay (l.trace v).patch xs = Bytes.overlay (l.trace v).patch ys ↔
      ∀ leaf ∈ (l.trace v).passedOver, leaf.range xs = leaf.range ys := by
  have hx := Layout.wrote_overlay hl v hxs
  have hy := Layout.wrote_overlay hl v hys
  constructor
  · intro heq leaf hleaf
    rw [← hx.passed leaf hleaf, ← hy.passed leaf hleaf, heq]
  · intro heq
    -- the leaves tile the bytes, so it is enough to compare what is left in each of them
    have hranges : ∀ leaf ∈ l.leaves,
        leaf.range (Bytes.overlay (l.trace v).patch xs) =
          leaf.range (Bytes.overlay (l.trace v).patch ys) := by
      rw [← (l.fills_trace v).complete hok]
      intro leaf hleaf
      obtain ⟨⟨leaf, value⟩, hvisit, rfl⟩ := List.mem_map.1 hleaf
      cases value with
      | some u =>
        have hsame := (hx.written leaf u hvisit).symm.trans (hy.written leaf u hvisit)
        exact Except.ok.inj hsame
      | none =>
        have hpassed := Trace.mem_passedOver.2 hvisit
        rw [hx.passed leaf hpassed, hy.passed leaf hpassed, heq leaf hpassed]
    have hall := (l.tiles_leaves hl).slice_eq (Int.le_refl 0)
      (by rw [Bytes.length_overlay]; omega) (by rw [Bytes.length_overlay]; omega) hranges
    rwa [← hxs, ← Bytes.length_overlay (l.trace v).patch xs, Bytes.slice_all, Bytes.length_overlay,
      hxs, ← hys, ← Bytes.length_overlay (l.trace v).patch ys, Bytes.slice_all] at hall

theorem Layout.overwrites_overlay {l : Layout} (hl : l.LengthsNonneg) (hnames : l.NamesNodup)
    (v : Value) {old : Bytes} (hold : (old.length : Int) = l.size) :
    l.Overwrites v old (Bytes.overlay (l.trace v).patch old) := by
  have hzeros := Layout.length_zeros (l.size_nonneg hl)
  refine ⟨Bytes.length_overlay _ _, (l.fills_trace v).isPrefix, Layout.wrote_overlay hl v hold,
    fun hv => l.trace_complete hl v hv, fun data hdata => ?_, fun e he => ?_⟩
  · obtain ⟨hok, rfl⟩ := (Layout.pack_eq_ok_iff hl).1 hdata
    rw [Layout.overlay_eq_iff hl hok hold hzeros]
    refine forall_congr' fun leaf => forall_congr' fun hleaf => ?_
    have hmem := Layout.mem_leaves_of_visit (Trace.mem_passedOver.1 hleaf)
    rw [Layout.range_zeros hl hmem]
  · -- packing starts from zeros, but how it ends does not depend on what is written over
    have hout : (l.trace v).outcome = .error (.rejected e) := by
      rw [Layout.pack_eq_trace hl] at he
      cases hout : (l.trace v).outcome with
      | ok u => rw [hout] at he; cases he
      | error fault => rw [hout] at he; cases he; rfl
    obtain ⟨place, hplace, hstops⟩ := l.stopsAt hl hnames v e hout
    have hpatch := length_patch_of_tiles hstops.tiles fun x hx => (l.every_packed v x hx).1
    refine ⟨place, hplace, hstops, Bytes.drop_overlay ?_ old⟩
    unfold Trace.patch
    omega

/-- Only the bytes between the offset and the end of the layout are written. -/
theorem Layout.packInto_eq {l : Layout} (hl : l.LengthsNonneg) (v : Value) {pre mid : Bytes}
    {offset : Int} (h0 : offset = pre.length) (hmid : (mid.length : Int) = l.size) (post : Bytes) :
    l.packInto v offset (pre ++ mid ++ post) =
      ((l.trace v).outcome.map fun _ => offset + l.size,
        pre ++ Bytes.overlay (l.trace v).patch mid ++ post) := by
  have hsize := l.size_nonneg hl
  have htake : (mid ++ post).take l.size.toNat = mid := by
    rw [← hmid, Int.toNat_natCast, List.take_left]
  have hdrop : (mid ++ post).drop l.size.toNat = post := by
    rw [← hmid, Int.toNat_natCast, List.drop_left]
  have hwrite : l.encode v ((mid ++ post).take l.size.toNat) =
      ((l.trace v).outcome, Bytes.overlay (l.trace v).patch mid) := by
    rw [htake, Layout.encode_eq_trace hl v hmid]
  have hwithin := Writer.within_apply h0 hsize
    (by rw [List.length_append]; omega) hwrite (by rw [htake, Bytes.length_overlay])
  have hroom : ¬ (offset < 0 ∨ ((pre ++ (mid ++ post)).length : Int) < offset + l.size) := by
    rw [List.length_append, List.length_append]
    omega
  rw [hdrop] at hwithin
  rw [List.append_assoc]
  unfold packInto
  simp only [hroom, if_false, hwithin]

/-! ### Windows -/

namespace Store

variable {s : Store} {w : Window} {data : Bytes}

/-- Writing what is there changes nothing. -/
theorem write_read (s : Store) (w : Window) : s.write w (s.read w) = s := by
  have hcontent : Bytes.overwrite (s.content w.buffer) w.start (s.read w) = s.content w.buffer := by
    have hrest : (s.content w.buffer).drop (w.start + (s.read w).length) =
        ((s.content w.buffer).drop w.start).drop w.count := by
      unfold read
      rw [← List.drop_drop, List.length_take]
      rcases Nat.le_total w.count ((s.content w.buffer).drop w.start).length with h | h
      · rw [Nat.min_eq_left h]
      · rw [Nat.min_eq_right h, List.drop_length, List.drop_eq_nil_of_le h]
    unfold Bytes.overwrite
    rw [hrest, List.append_assoc]
    unfold read
    rw [List.take_append_drop, List.take_append_drop]
  unfold write setContent
  rw [hcontent]
  unfold Store.content
  rw [List.getD_eq_getElem?_getD]
  cases h : s.buffers[w.buffer]? with
  | none => rw [List.set_eq_of_length_le (List.getElem?_eq_none_iff.1 h)]
  | some content =>
    obtain ⟨hlt, rfl⟩ := List.getElem?_eq_some_iff.1 h
    rw [Option.getD_some, List.set_getElem_self]

/-- A window has the content that was written, if it has room for no more and no less. -/
theorem content_write (h : data.length = (s.read w).length) :
    (s.write w data).content w.buffer = Bytes.overwrite (s.content w.buffer) w.start data := by
  by_cases hid : w.buffer < s.buffers.length
  · exact content_setContent hid _
  · have hnone : s.content w.buffer = [] := by
      rw [Store.content, List.getD_eq_getElem?_getD, List.getElem?_eq_none (by omega)]
      rfl
    have hdata : data = [] := by
      refine List.length_eq_zero_iff.1 ?_
      rw [h, read, hnone, List.drop_nil, List.take_nil, List.length_nil]
    have hsame : s.write w data = s := by
      unfold write setContent
      rw [List.set_eq_of_length_le (by omega)]
    rw [hsame, hnone, hdata, Bytes.overwrite, List.take_nil, List.drop_nil]
    rfl

/-- Bytes of the right number that are written can be read again. -/
theorem read_write (h : data.length = (s.read w).length) : (s.write w data).read w = data := by
  have hlen : data.length = min w.count ((s.content w.buffer).length - w.start) := by
    rw [h, read, List.length_take, List.length_drop]
  unfold read
  rw [content_write h]
  -- a window that starts beyond the end of its buffer has no bytes to write
  by_cases hstart : w.start ≤ (s.content w.buffer).length
  · have hroom : ((Bytes.overwrite (s.content w.buffer) w.start data).drop w.start).length =
        (s.content w.buffer).length - w.start := by
      rw [List.length_drop, Bytes.length_overwrite (by omega)]
    rw [List.take_eq_take_min, hroom, ← hlen, Bytes.take_drop_overwrite hstart]
  · have hdata : data = [] := List.length_eq_zero_iff.1 (by omega)
    have hall : (s.content w.buffer).length ≤ w.start := by omega
    rw [hdata, Bytes.overwrite, List.append_nil, List.length_nil, Nat.add_zero,
      List.take_append_drop, List.drop_eq_nil_of_le hall, List.take_nil]

end Store

/-- The bytes that a writable object lends. -/
def Object.target? (s : Store) : Object → Option Window
  | .buffer id => some ⟨id, 0, (s.content id).length⟩
  | .memory window _ _ => some window
  | _ => none

/-! ### Sessions -/

namespace Session

variable {α β : Type} {m : Session α} {f : α → Session β} {a : α} {w after : Workspace}

/-- What follows a computation that succeeds starts where that one ends. -/
theorem bind_of_ok (h : m w = (.ok a, after)) : (m >>= f) w = f a after := by
  show ExceptT.bindCont f (m w).1 (m w).2 = _
  rw [h]
  rfl

/-- Nothing follows a computation that fails. -/
theorem bind_of_error {fault : Fault} (h : m w = (.error fault, after)) :
    (m >>= f) w = (.error fault, after) := by
  show ExceptT.bindCont f (m w).1 (m w).2 = _
  rw [h]
  rfl

/-- Looking at an object changes nothing. -/
theorem value_eq (o : Object) (w : Workspace) : value o w = (.ok (w.store.valueOf o), w) := rfl

variable {o b : Object} {t : Option TypeExpr} {type : TypeExpr} {l : Layout}

section Layouts

variable (htype : inferType (w.store.valueOf o) t = .ok type)
  (hlayout : (w.catalog.compile type w.cache).1 = .ok l)

include htype hlayout

theorem layoutFor_eq : layoutFor (w.store.valueOf o) t w =
    (.ok l, { w with cache := (w.catalog.compile type w.cache).2 }) := by
  have hlift : lift Fault.schema (inferType (w.store.valueOf o) t) w = (.ok type, w) := by
    rw [htype]
    rfl
  have hcompile : compile type w = ((w.catalog.compile type w.cache).1.mapError SchemaFault.toFault,
      { w with cache := (w.catalog.compile type w.cache).2 }) := rfl
  unfold layoutFor
  rw [bind_of_ok hlift, hcompile, hlayout]
  rfl

/-- The bytes of an object are those that its layout packs its value into. -/
theorem encode_eq : (encode o t w).1 =
    (l.pack (w.store.valueOf o)).mapError EncodeFault.toFault := by
  unfold encode
  rw [bind_of_ok (value_eq o w), bind_of_ok (layoutFor_eq htype hlayout)]
  cases l.pack (w.store.valueOf o) <;> rfl

/-- An object is encoded as the bytes that its layout packs its value into. -/
theorem encode_of_ok {data : Bytes} (hpack : l.pack (w.store.valueOf o) = .ok data) :
    encode o t w = (.ok data, { w with cache := (w.catalog.compile type w.cache).2 }) := by
  unfold encode
  rw [bind_of_ok (value_eq o w), bind_of_ok (layoutFor_eq htype hlayout), hpack]
  rfl

/-- The packet of an object has the bytes that its layout packs its value into. -/
theorem pack_of_ok {data : Bytes} (hpack : l.pack (w.store.valueOf o) = .ok data) :
    pack o t w =
      (.ok (.plain (.packet l data)), { w with cache := (w.catalog.compile type w.cache).2 }) := by
  unfold pack
  rw [bind_of_ok (value_eq o w), bind_of_ok (layoutFor_eq htype hlayout), hpack]
  rfl

/-- Nothing is encoded into immutable bytes. -/
theorem encodeInto_of_bytes {content : Bytes} (offset : Int) :
    encodeInto o (.plain (.bytes content)) t offset w =
      (.error (.encode (.readOnly l.typeName)),
        { w with cache := (w.catalog.compile type w.cache).2 }) := by
  unfold encodeInto
  rw [bind_of_ok (value_eq o w), bind_of_ok (layoutFor_eq htype hlayout)]
  exact bind_of_error rfl

/-- Encoding into a writable object writes its window. -/
theorem encodeInto_eq {window : Window} (hwindow : b.target? w.store = some window)
    (offset : Int) :
    encodeInto o b t offset w =
      (((l.packInto (w.store.valueOf o) offset (w.store.read window)).1.mapError
          EncodeFault.toFault),
        { w with
          cache := (w.catalog.compile type w.cache).2,
          store := w.store.write window
            (l.packInto (w.store.valueOf o) offset (w.store.read window)).2 }) := by
  have hlent : ∀ after : Workspace, after.store = w.store →
      writableWindow l.typeName b after = (.ok window, after) := by
    intro after hafter
    cases b with
    | buffer id =>
      cases hwindow
      rw [← hafter]
      rfl
    | memory window format rows =>
      cases hwindow
      rfl
    | _ => cases hwindow
  have hread : read window { w with cache := (w.catalog.compile type w.cache).2 } =
      (.ok (w.store.read window), { w with cache := (w.catalog.compile type w.cache).2 }) := rfl
  unfold encodeInto
  rw [bind_of_ok (value_eq o w), bind_of_ok (layoutFor_eq htype hlayout),
    bind_of_ok (hlent { w with cache := (w.catalog.compile type w.cache).2 } rfl), bind_of_ok hread]
  cases l.packInto (w.store.valueOf o) offset (w.store.read window) with
  | mk r content =>
    cases r with
    | ok stop => rfl
    | error fault => rfl

end Layouts

/-- What encoding an object into a buffer does. The object is looked at before anything is written.
Immutable bytes are rejected, and so is an offset at which the buffer has no room; nothing is
written then. Otherwise the outcome is that of encoding the object on its own, and what is left
between the offset and the end of the layout is what encoding leaves in place of old bytes. -/
theorem encodeInto_overwrites (hcache : Cache.Reached w.cache)
    (htype : inferType (w.store.valueOf o) t = .ok type)
    (hlayout : (w.catalog.compile type w.cache).1 = .ok l) (hl : l.LengthsNonneg) (offset : Int) :
    (encode o t w).1 = (l.pack (w.store.valueOf o)).mapError EncodeFault.toFault ∧
    (∀ content, b = .plain (.bytes content) → ∃ after,
      encodeInto o b t offset w = (.error (.encode (.readOnly l.typeName)), after) ∧
      after.store = w.store) ∧
    ∀ window content, b.target? w.store = some window → w.store.read window = content →
      (offset < 0 ∨ (content.length : Int) < offset + l.size → ∃ after,
        encodeInto o b t offset w =
          (.error (.encode (.noRoom l.typeName l.size offset content.length)), after) ∧
        after.store = w.store) ∧
      (0 ≤ offset → offset + l.size ≤ content.length → ∃ new after,
        encodeInto o b t offset w = ((encode o t w).1.map fun _ => offset + l.size, after) ∧
        after.store = w.store.write window
          (content.take offset.toNat ++ new ++ content.drop (offset + l.size).toNat) ∧
        after.store.read window =
          content.take offset.toNat ++ new ++ content.drop (offset + l.size).toNat ∧
        l.Overwrites (w.store.valueOf o) (Bytes.slice content offset (offset + l.size)) new) := by
  refine ⟨encode_eq htype hlayout, ?_, ?_⟩
  · rintro content rfl
    exact ⟨_, encodeInto_of_bytes htype hlayout offset, rfl⟩
  · rintro window content hwindow rfl
    have hrun := encodeInto_eq htype hlayout hwindow offset
    constructor
    · intro hroom
      have hpack : l.packInto (w.store.valueOf o) offset (w.store.read window) =
          (.error (.rejected (.noRoom l.typeName l.size offset (w.store.read window).length)),
            w.store.read window) := if_pos hroom
      rw [hpack] at hrun
      exact ⟨_, hrun, Store.write_read w.store window⟩
    · intro h0 h1
      have hsize := l.size_nonneg hl
      have hsplit := Bytes.take_slice_drop h0 (by omega : offset ≤ offset + l.size) h1
      have hold : ((Bytes.slice (w.store.read window) offset (offset + l.size)).length : Int) =
          l.size := by
        rw [Bytes.length_slice_of_le h0 (by omega) h1]
        omega
      have hpre : offset = ((w.store.read window).take offset.toNat).length := by
        rw [List.length_take]
        omega
      have hpack := Layout.packInto_eq hl (w.store.valueOf o) hpre hold
        ((w.store.read window).drop (offset + l.size).toNat)
      have hover := Layout.overwrites_overlay hl
        (Catalog.closed_of_compile closed_namesNodup hcache hlayout) (w.store.valueOf o) hold
      have hlen := congrArg List.length hsplit
      rw [hsplit] at hpack
      rw [hpack] at hrun
      have houtcome : ((l.trace (w.store.valueOf o)).outcome.map fun _ => offset + l.size).mapError
          EncodeFault.toFault = (encode o t w).1.map fun _ => offset + l.size := by
        rw [encode_eq htype hlayout, Layout.pack_eq_trace hl]
        cases (l.trace (w.store.valueOf o)).outcome with
        | ok u => rfl
        | error fault => rfl
      rw [houtcome] at hrun
      refine ⟨_, _, hrun, rfl, Store.read_write ?_, hover⟩
      rw [List.length_append, List.length_append] at hlen ⊢
      rw [hover.length, hlen]

/-- A workspace with the definitions of messages and a buffer of twelve bytes. -/
def messageWorkspace : Workspace :=
  ⟨messageCatalog, [], ⟨[List.replicate 12 0xFF], [], []⟩, []⟩

/-- A message in the middle of a buffer. -/
theorem message_is_written_into_buffer : ∃ after,
    encodeInto (.plain Catalog.messageValue) (.buffer 0) (some (.named "Message")) 1
      messageWorkspace = (.ok 11, after) ∧
    after.store.read ⟨0, 0, 12⟩ = [0xFF, 1, 3, 0xC3, 0xA9, 4, 0xC3, 0xA9, 0xFE, 0xFF, 5, 0xFF] := by
  have hpack : messageLayout.pack Catalog.messageValue =
      .ok [1, 3, 0xC3, 0xA9, 4, 0xC3, 0xA9, 0xFE, 0xFF, 5] := by cbv
  have hpassed : (messageLayout.trace Catalog.messageValue).passedOver = [] := by cbv
  obtain ⟨hencode, -, hwrite⟩ := encodeInto_overwrites (w := messageWorkspace)
    (o := .plain Catalog.messageValue) (b := .buffer 0) (t := some (.named "Message")) .empty rfl
    layoutOf_message lengthsNonneg_message 1
  obtain ⟨-, hroom⟩ := hwrite ⟨0, 0, 12⟩ (List.replicate 12 0xFF) rfl rfl
  obtain ⟨new, after, hrun, -, hread, hover⟩ := hroom (by decide) (by decide)
  obtain rfl : new = [1, 3, 0xC3, 0xA9, 4, 0xC3, 0xA9, 0xFE, 0xFF, 5] := by
    refine (hover.packed _ hpack).2 fun leaf hleaf => ?_
    have hmem : leaf ∈ (messageLayout.trace Catalog.messageValue).passedOver := hleaf
    rw [hpassed] at hmem
    cases hmem
  have hvalue : messageWorkspace.store.valueOf (.plain Catalog.messageValue) =
      Catalog.messageValue := rfl
  rw [hvalue, hpack] at hencode
  rw [hencode] at hrun
  exact ⟨after, hrun, hread⟩

/-- A workspace with the definitions of marks and pairs, a pair that lacks a field, and a buffer of
five bytes. -/
def markWorkspace : Workspace :=
  ⟨Catalog.markCatalog, [], ⟨[List.replicate 5 0xFF],
    [(⟨"Pair", [], true, ["left", "right"]⟩, [("left", .plain (.int 1))])], []⟩, []⟩

/-- The second mark keeps the bytes that were in the buffer before. -/
theorem partial_pair_is_not_written_whole :
    (encodeInto (.record 0) (.buffer 0) (some Catalog.marksType) 1 markWorkspace).1 = .ok 5 ∧
    (encode (.record 0) (some Catalog.marksType) markWorkspace).1 ≠
      .ok (Bytes.slice ((encodeInto (.record 0) (.buffer 0) (some Catalog.marksType) 1
        markWorkspace).2.store.content 0) 1 5) := by
  refine ⟨by cbv, ?_⟩
  have hencode : (encode (.record 0) (some Catalog.marksType) markWorkspace).1 =
      .ok [0x61, 0x62, 0, 0] := by cbv
  have hleft : ((encodeInto (.record 0) (.buffer 0) (some Catalog.marksType) 1
      markWorkspace).2.store.content 0) = [0xFF, 0x61, 0x62, 0xFF, 0xFF] := by cbv
  rw [hencode, hleft]
  intro h
  exact absurd (Except.ok.inj h) (by decide)

end Session

end FixedLayout
