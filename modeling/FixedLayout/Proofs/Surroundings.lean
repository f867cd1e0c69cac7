import FixedLayout.Proofs.Unchecked

/-!
# Bytes beyond a layout

A leaf takes all the bytes that it is handed. Composites and arrays cut the slice of each child
exactly, so that they may be handed more bytes than they occupy: they read none of the others and
write to none of them.

* `Bytes.slice_take`: a slice inside the first bytes of a string;
* `checkRun_take`, `Fields.check_take`, `Layout.check_take`: checking looks at the first bytes only;
* `decodeRun_take`, `Fields.decode_take`, `Layout.decode_take`: so does decoding;
* `Layout.encode_beyond`, `Layout.encode_take`: encoding writes to the first bytes only;
* `Layout.decoded_alike`: bytes that begin alike are checked and decoded alike;
* `Session.surroundings_make_no_difference`: all of this for the layout of a type, on bytes and on
  objects that lend them.
-/

namespace FixedLayout

/-- What lies inside the first bytes of a string can be cut from these. -/
theorem Bytes.slice_take {α : Type} {xs : List α} {room : Nat} {lo hi : Int} (h0 : 0 ≤ lo)
    (h1 : lo ≤ hi) (h2 : hi ≤ room) (h3 : room ≤ xs.length) :
    slice (xs.take room) lo hi = slice xs lo hi := by
  have hlen : (xs.take room).length = room := List.length_take_of_le h3
  have hmin : min (hi - lo).toNat (room - lo.toNat) = (hi - lo).toNat := by omega
  rw [slice_eq h0 h1 (by omega), slice_eq h0 h1 (by omega), List.drop_take, List.take_take, hmin]

/-! ### Reading -/

section Reading

variable {data : Bytes} {room : Nat} (hroom : room ≤ data.length)

include hroom

theorem checkRun_take (check : Bytes → Except CheckFault Unit) (frame : Int → Frame) {size : Int}
    (hsize : 0 ≤ size) (index n : Nat) (h : ((index + n : Nat) : Int) * size ≤ room) :
    checkRun check frame size (data.take room) index n =
      checkRun check frame size data index n := by
  have hlen : (data.take room).length = room := List.length_take_of_le hroom
  induction n generalizing index with
  | zero => rfl
  | succ n ih =>
    obtain ⟨h0, hstep, hstop, -⟩ := element_bounds hsize (hlen.symm ▸ h)
    rw [checkRun, checkRun, Bytes.slice_take h0 (by omega) (by omega) hroom,
      ih (index + 1) (by rwa [Nat.add_right_comm])]

theorem decodeRun_take (decode : Bytes → Except DecodeFault Value) {size : Int} (hsize : 0 ≤ size)
    (index n : Nat) (h : ((index + n : Nat) : Int) * size ≤ room) :
    decodeRun decode size (data.take room) index n = decodeRun decode size data index n := by
  have hlen : (data.take room).length = room := List.length_take_of_le hroom
  induction n generalizing index with
  | zero => rfl
  | succ n ih =>
    obtain ⟨h0, hstep, hstop, -⟩ := element_bounds hsize (hlen.symm ▸ h)
    rw [decodeRun, decodeRun, Bytes.slice_take h0 (by omega) (by omega) hroom,
      ih (index + 1) (by rwa [Nat.add_right_comm])]

/-- The fields are checked in the same way if what comes after the last of them is left out. -/
theorem Fields.check_take (frame : String → Nat → Frame) : ∀ (fs : Fields) (index : Nat)
    (start : Int), fs.LengthsNonneg → 0 ≤ start → start + fs.size ≤ room →
      fs.check frame index start (data.take room) = fs.check frame index start data
  | .nil, _, _, _, _, _ => rfl
  | .cons _ _ layout rest, index, start, ⟨hl, hr⟩, h0, h1 => by
    have hsize := layout.size_nonneg hl
    have hrest := rest.size_nonneg hr
    rw [Fields.size] at h1
    rw [Fields.check, Fields.check, Bytes.slice_take h0 (by omega) (by omega) hroom,
      rest.check_take frame (index + 1) _ hr (by omega) (by omega)]

theorem Fields.decode_take : ∀ (fs : Fields) (start : Int), fs.LengthsNonneg → 0 ≤ start →
    start + fs.size ≤ room → fs.decode start (data.take room) = fs.decode start data
  | .nil, _, _, _, _ => rfl
  | .cons _ _ layout rest, start, ⟨hl, hr⟩, h0, h1 => by
    have hsize := layout.size_nonneg hl
    have hrest := rest.size_nonneg hr
    rw [Fields.size] at h1
    rw [Fields.decode, Fields.decode, Bytes.slice_take h0 (by omega) (by omega) hroom,
      rest.decode_take _ hr (by omega) (by omega)]

end Reading

namespace Layout

/-- The elements of an array have room in as many bytes as the array occupies. -/
theorem elements_room {element : Layout} {n : Int} (hl : (array element n).LengthsNonneg) :
    ((0 + n.toNat : Nat) : Int) * element.size ≤ (array element n).size.toNat := by
  have hsize := size_nonneg _ hl
  rw [Nat.zero_add, ← size_array element hl.2]
  omega

/-- The first bytes of a region with room for a layout are as many as it occupies. -/
theorem length_take {l : Layout} (hl : l.LengthsNonneg) {region : Bytes}
    (h : l.size ≤ region.length) : ((region.take l.size.toNat).length : Int) = l.size := by
  have hsize := l.size_nonneg hl
  rw [List.length_take]
  omega

section Parts

variable {l : Layout} (hl : l.LengthsNonneg) (hparts : ¬ l.IsLeaf)

include hl hparts

section Data

variable {data : Bytes} (h : l.size ≤ data.length)

include h

/-- A layout with parts checks the bytes that it occupies, and no others. -/
theorem check_take : l.check (data.take l.size.toNat) = l.check data := by
  have hsize := l.size_nonneg hl
  have hroom : l.size.toNat ≤ data.length := by omega
  cases l with
  | composite form fields =>
    refine Fields.check_take hroom _ fields 0 0 hl (Int.le_refl 0) ?_
    rw [Int.zero_add]
    exact Int.self_le_toNat _
  | array element n =>
    exact checkRun_take hroom _ _ (element.size_nonneg hl.1) 0 _ (elements_room hl)
  | _ => exact absurd trivial hparts

/-- A layout with parts decodes the bytes that it occupies, and no others. -/
theorem decode_take : l.decode (data.take l.size.toNat) = l.decode data := by
  have hsize := l.size_nonneg hl
  have hroom : l.size.toNat ≤ data.length := by omega
  cases l with
  | composite form fields =>
    have hfields := Fields.decode_take hroom fields 0 hl (Int.le_refl 0) (by
      rw [Int.zero_add]
      exact Int.self_le_toNat _)
    unfold decode
    rw [hfields]
  | array element n =>
    have hrun := decodeRun_take hroom element.decode (element.size_nonneg hl.1) 0 n.toNat
      (elements_room hl)
    unfold decode
    rw [hrun]
  | _ => exact absurd trivial hparts

end Data

/-- Bytes that begin alike are checked alike, with the same error if there is one, and decoded
alike. -/
theorem decoded_alike {xs ys : Bytes} (hx : l.size ≤ xs.length) (hy : l.size ≤ ys.length)
    (h : xs.take l.size.toNat = ys.take l.size.toNat) :
    l.check xs = l.check ys ∧ l.decode xs = l.decode ys := by
  constructor
  · rw [← check_take hl hparts hx, ← check_take hl hparts hy, h]
  · rw [← decode_take hl hparts hx, ← decode_take hl hparts hy, h]

/-! ### Writing -/

/-- In a region with more room than needed, a layout with parts writes what its trace says. -/
theorem encode_beyond (v : Value) {region : Bytes} (h : l.size ≤ region.length) :
    l.encode v region = ((l.trace v).outcome, Bytes.overlay (l.trace v).patch region) := by
  cases l with
  | composite form fields =>
    exact encode_composite_eq v fun values =>
      fields.encode_eq_trace hl _ _ 0 0 values [] region rfl h
  | array element n =>
    rw [size_array element hl.2] at h
    exact encode_array_eq v fun items =>
      encodeRun_eq (element.follows_trace hl.1) (element.size_nonneg hl.1) _ _ 0 _ items []
        region (Int.zero_mul _) h
  | _ => exact absurd trivial hparts

/-- Encoding into a region is encoding into its first bytes; the others are put back. -/
theorem encode_take (v : Value) {region : Bytes} (h : l.size ≤ region.length) :
    l.encode v region = ((l.encode v (region.take l.size.toNat)).1,
      (l.encode v (region.take l.size.toNat)).2 ++ region.drop l.size.toNat) := by
  have hpatch := l.length_patch_le hl v
  rw [encode_beyond hl hparts v h, encode_eq_trace hl v (length_take hl h),
    Bytes.overlay_take_append_drop (by omega)]

/-- Encoding, whether it succeeds or fails, leaves what lies beyond the layout. -/
theorem drop_encode (v : Value) {region : Bytes} (h : l.size ≤ region.length) :
    (l.encode v region).2.length = region.length ∧
      (l.encode v region).2.drop l.size.toNat = region.drop l.size.toNat := by
  have hpatch := l.length_patch_le hl v
  rw [encode_beyond hl hparts v h]
  exact ⟨Bytes.length_overlay _ _, Bytes.drop_overlay (by omega) _⟩

end Parts

/-- A leaf does look at what it is handed beyond its size. -/
example : (int .u16).decode [1, 0, 1] = .ok (.int 65537) := by cbv

end Layout

/-! ### Sessions -/

namespace Session

variable {w : Workspace} {t : TypeExpr} {o : Object} {l : Layout} {data : Bytes}

/-- Objects are checked by the bytes that they lend. -/
theorem layoutCheck_eq (hlayout : (w.catalog.compile t w.cache).1 = .ok l)
    (ho : o.lends? w.store = some data) :
    (layoutCheck t o w).1 = (l.check data).mapError CheckFault.toFault := by
  obtain ⟨window, between, hread, hrun⟩ := exists_lent hlayout ho
  have hcheck : layoutCheck t o w = lift CheckFault.toFault (l.check data) between :=
    (hrun _).trans (bind_of_ok (read_eq hread))
  rw [hcheck]
  cases l.check data <;> rfl

/-- A composite or an array may be handed more bytes than it occupies. Bytes that begin alike pass
the check alike or fail it with the same error, frames included, and are decoded to the same value
or with the same error; objects that lend them may take the place of the bytes. Encoding ends as it
does in a region of just the size of the layout and leaves the bytes beyond, also where it fails. -/
theorem surroundings_make_no_difference (hlayout : (w.catalog.compile t w.cache).1 = .ok l)
    (hl : l.LengthsNonneg) (hparts : ¬ l.IsLeaf) :
    (∀ xs ys : Bytes, l.size ≤ xs.length → l.size ≤ ys.length →
      xs.take l.size.toNat = ys.take l.size.toNat →
        l.check xs = l.check ys ∧ l.decode xs = l.decode ys ∧
        ∀ o p : Object, o.lends? w.store = some xs → p.lends? w.store = some ys →
          (layoutCheck t o w).1 = (layoutCheck t p w).1 ∧
          (∀ v, l.decode xs = .ok v →
            Returns (layoutDecode t o) w v ∧ Returns (layoutDecode t p) w v) ∧
          ∀ fault, l.decode xs = .error fault → (layoutDecode t o w).1 = .error fault.toFault ∧
            (layoutDecode t p w).1 = .error fault.toFault) ∧
    ∀ (v : Value) (region : Bytes), l.size ≤ region.length →
      (l.encode v region).1 = (l.encode v (region.take l.size.toNat)).1 ∧
      (l.encode v region).2.length = region.length ∧
      (l.encode v region).2.take l.size.toNat = (l.encode v (region.take l.size.toNat)).2 ∧
      (l.encode v region).2.drop l.size.toNat = region.drop l.size.toNat := by
  constructor
  · intro xs ys hx hy hsame
    obtain ⟨hcheck, hdecode⟩ := Layout.decoded_alike hl hparts hx hy hsame
    refine ⟨hcheck, hdecode, fun o p ho hp => ⟨?_, ?_⟩⟩
    · rw [layoutCheck_eq hlayout ho, layoutCheck_eq hlayout hp, hcheck]
    · obtain ⟨after, hfirst⟩ := layoutDecode_eq hlayout ho
      obtain ⟨after', hsecond⟩ := layoutDecode_eq hlayout hp
      constructor
      · intro v hv
        unfold Returns
        rw [hfirst, hsecond]
        exact ⟨unpackBytes_of_ok hv, unpackBytes_of_ok (hdecode ▸ hv)⟩
      · intro fault hfault
        rw [hfirst, hsecond, unpackBytes_of_error hfault, unpackBytes_of_error (hdecode ▸ hfault)]
        exact ⟨rfl, rfl⟩
  · intro v region h
    have hlen := Layout.length_take hl h
    have hinside : (l.encode v (region.take l.size.toNat)).2.length = l.size.toNat := by
      rw [Layout.encode_eq_trace hl v hlen, Bytes.length_overlay]
      omega
    have htake := Layout.encode_take hl hparts v h
    obtain ⟨hlength, hdrop⟩ := Layout.drop_encode hl hparts v h
    refine ⟨?_, hlength, ?_, hdrop⟩
    · rw [htake]
    · rw [htake, List.take_left' hinside]

/-- The bytes of a message and two more: these are not looked at, and are not written to. -/
theorem message_is_read_up_to_its_end :
    (layoutCheck (.named "Message") (.plain (.bytes [1, 3, 0, 0, 4, 9, 9, 254, 255, 5, 6, 7]))
      messageWorkspace).1 =
    (layoutCheck (.named "Message") (.plain (.bytes [1, 3, 0, 0, 4, 9, 9, 254, 255, 5]))
      messageWorkspace).1 ∧
    (messageLayout.encode Catalog.messageValue (List.replicate 12 0xFF)).2.drop 10 =
      [0xFF, 0xFF] := by
  have hsize : messageLayout.size = 10 := by decide
  obtain ⟨hread, hwrite⟩ := surroundings_make_no_difference (w := messageWorkspace)
    layoutOf_message lengthsNonneg_message fun h => h
  rw [hsize] at hread hwrite
  obtain ⟨-, -, hobjects⟩ := hread [1, 3, 0, 0, 4, 9, 9, 254, 255, 5, 6, 7]
    [1, 3, 0, 0, 4, 9, 9, 254, 255, 5] (by decide) (by decide) rfl
  exact ⟨(hobjects _ _ rfl rfl).1, (hwrite _ (List.replicate 12 0xFF) (by decide)).2.2.2⟩

end Session

end FixedLayout
