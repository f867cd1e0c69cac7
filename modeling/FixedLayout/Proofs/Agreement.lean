import FixedLayout.Proofs.Assignments
import FixedLayout.Proofs.Literals
import FixedLayout.Proofs.Views

/-!
# Ways in and out that agree

Bytes can be given to a type in several ways: checked, viewed, copied into a packet, decoded, and
for packed classes by operations of their own. There are as many ways to write an object. All of
them come to the same end, except that an instance cannot be written by an operation that one of its
fields hides.

* `PackError.Reason.IsSize`, `Layout.not_isSize_of_check`: a check never complains about the number
  of bytes;
* `Layout.Judges`, `Layout.exists_judges`: what a layout makes of bytes of any number;
* `Entrance`, `Reading`: the ways to a view or packet of bytes, and to the value that they encode;
* `ReadAlike`: all ways to read bytes agree;
* `Session.ways_agree`: they do, and so do all ways to write an object that are not hidden.
-/

namespace FixedLayout

/-! ### What a check reports -/

/-- Whether bytes are rejected for their number. -/
def PackError.Reason.IsSize : PackError.Reason → Prop
  | .size _ _ => True
  | _ => False

theorem Literal.not_isSize_of_check {typeName : String} {literal : Literal} {data : Bytes}
    {e : PackError} (h : literal.check typeName data = .error (.rejected e)) :
    ¬ e.reason.IsSize := by
  rcases Literal.reason_of_check h with
    ⟨c, fault, -, -, hreason⟩ | ⟨-, assumption, detail, hreason⟩
  · rw [hreason]
    exact not_false
  · rw [hreason]
    exact not_false

theorem Enumeration.not_isSize_of_check {e : Enumeration} {data : Bytes} {error : PackError}
    (h : e.check data = .error (.rejected error)) : ¬ error.reason.IsSize := by
  unfold Enumeration.check at h
  cases hread : e.repr.read data with
  | none => simp [hread] at h
  | some found =>
    cases hvariant : e.variant? found with
    | some v => simp [hread, hvariant] at h
    | none =>
      simp only [hread, hvariant] at h
      cases h
      exact not_false

/-- A leaf never complains about the number of bytes. -/
theorem Layout.not_isSize_of_isLeaf {l : Layout} (hl : l.IsLeaf) {data : Bytes} {e : PackError}
    (h : l.check data = .error (.rejected e)) : ¬ e.reason.IsSize := by
  cases l with
  | int r => cases h
  | bytes n => cases h
  | unit cls literal => exact Literal.not_isSize_of_check h
  | enumeration enum => exact Enumeration.not_isSize_of_check h
  | composite form fields => exact hl.elim
  | array element n => exact hl.elim

/-- What fails among leaves is one of them. -/
theorem exists_leaf_of_checkAll {data : Bytes} {leaves : List Leaf} {fault : CheckFault}
    (h : checkAll data leaves = .error fault) :
    ∃ leaf ∈ leaves, leaf.check data = .error fault := by
  induction leaves with
  | nil => cases h
  | cons leaf rest ih =>
    cases hleaf : leaf.check data with
    | error first =>
      simp only [checkAll, hleaf] at h
      cases h
      exact ⟨leaf, List.mem_cons_self .., hleaf⟩
    | ok u =>
      simp only [checkAll, hleaf] at h
      obtain ⟨found, hmem, hfound⟩ := ih h
      exact ⟨found, List.mem_cons_of_mem leaf hmem, hfound⟩

section Judged

variable {l : Layout} {data : Bytes}

/-- A check of the right number of bytes fails only by rejecting them, and not for their number. -/
theorem Layout.exists_rejected (hl : l.LengthsNonneg) (hlen : (data.length : Int) = l.size)
    {fault : CheckFault} (h : l.check data = .error fault) :
    ∃ e : PackError, fault = .rejected e ∧ ¬ e.reason.IsSize := by
  rw [l.check_eq_checkAll hl data hlen] at h
  obtain ⟨leaf, hmem, hleaf⟩ := exists_leaf_of_checkAll h
  rcases Layout.range_decides hl hlen hmem with ⟨-, hok⟩ | ⟨-, e, herr, -, -⟩
  · simp [Leaf.check, hok, Except.mapError] at hleaf
  · have hsize := Layout.not_isSize_of_isLeaf (Layout.isLeaf_of_mem_leaves hmem) herr
    rw [Leaf.check, herr] at hleaf
    cases hleaf
    exact ⟨_, rfl, hsize⟩

/-- What a layout makes of bytes of any number: another number than its own is all that it looks at,
and the error has no frames; bytes of its own number are rejected for what is in them, or
accepted. -/
structure Layout.Judges (l : Layout) (data : Bytes) (verdict : Except PackError Unit) : Prop where
  wrongSize : (data.length : Int) ≠ l.size →
    verdict = .error ⟨l.typeName, .size l.size data.length, []⟩
  rightSize : (data.length : Int) = l.size → l.check data = verdict.mapError .rejected
  size_iff : (∃ e, verdict = .error e ∧ e.reason.IsSize) ↔ (data.length : Int) ≠ l.size

/-- There is no third way for bytes to be rejected. -/
theorem Layout.exists_judges (hl : l.LengthsNonneg) (data : Bytes) :
    ∃ verdict, l.Judges data verdict := by
  by_cases hlen : (data.length : Int) = l.size
  · cases hcheck : l.check data with
    | ok u =>
      refine ⟨.ok (), fun hne => absurd hlen hne, fun _ => hcheck, ?_⟩
      exact iff_of_false (by simp) (not_not.2 hlen)
    | error fault =>
      obtain ⟨e, rfl, hsize⟩ := Layout.exists_rejected hl hlen hcheck
      refine ⟨.error e, fun hne => absurd hlen hne, fun _ => hcheck, ?_⟩
      exact iff_of_false (by simpa using hsize) (not_not.2 hlen)
  · refine ⟨_, fun _ => rfl, fun h => absurd h hlen, ?_⟩
    exact iff_of_true ⟨_, rfl, trivial⟩ hlen

theorem Layout.Judges.accept_eq {verdict : Except PackError Unit} (h : l.Judges data verdict) :
    l.accept data = verdict.mapError .rejected := by
  by_cases hlen : (data.length : Int) = l.size
  · rw [← h.rightSize hlen]
    exact if_pos hlen
  · rw [h.wrongSize hlen]
    exact if_neg hlen

end Judged

/-! ### Ways to read bytes -/

/-- The ways to a view or packet of bytes. -/
inductive Entrance
  | view
  | packet
  | viewAs (name : String)

/-- The ways to the value of bytes. -/
inductive Reading
  | decode
  | decodeAs (name : String)
  /-- The value of a view or packet. -/
  | unpacked (e : Entrance)
  /-- The value of a view of a packet. -/
  | borrowed

/-- The view or packet of bytes. -/
def Entrance.enter (t : TypeExpr) (data : Object) : Entrance → Session Object
  | .view => Session.view t data
  | .packet => Session.packet t data
  | .viewAs name => Session.viewAs name data

/-- The operation of a class is there for the type that the class is. -/
def Entrance.Serves (c : Catalog) (t : TypeExpr) : Entrance → Prop
  | .viewAs name => t = .named name ∧ c.HasPacked name
  | _ => True

/-- The value of bytes as an object. -/
def Reading.read (t : TypeExpr) (data : Object) : Reading → Session Object
  | .decode => Session.decode t data
  | .decodeAs name => Session.decodeAs name data
  | .unpacked e => do Session.unpack (← e.enter t data)
  | .borrowed => do Session.unpack (← Session.borrow (← Session.packet t data))

/-- The operation of a class is there for the type that the class is. -/
def Reading.Serves (c : Catalog) (t : TypeExpr) : Reading → Prop
  | .decodeAs name => t = .named name ∧ c.HasPacked name
  | .unpacked e => e.Serves c t
  | _ => True

/-- All ways to read the bytes that an object lends agree: they end as the bytes are judged. The
value is the same, whichever way leads to it. -/
structure ReadAlike (w : Workspace) (t : TypeExpr) (o : Object) (l : Layout) (data : Bytes)
    (verdict : Except PackError Unit) : Prop where
  check : (Session.check t o w).1 = verdict.mapError Fault.pack
  enter : ∀ e : Entrance, e.Serves w.catalog t →
    (e.enter t o w).1.map (fun _ => ()) = verdict.mapError Fault.pack
  view : verdict = .ok () → ∃ root after, Session.view t o w = (.ok root, after) ∧
    ∃ buffer offset, Session.IsView after root l buffer offset data
  packet : verdict = .ok () → ∃ after,
    Session.packet t o w = (.ok (.plain (.packet l data)), after)
  rejected : ∀ e, verdict = .error e → ∀ r : Reading, r.Serves w.catalog t →
    (r.read t o w).1 = .error (.pack e)
  read : verdict = .ok () → ∃ v, l.decode data = .ok v ∧
    ∀ r : Reading, r.Serves w.catalog t → Session.Returns (r.read t o) w v

namespace Session

variable {w after : Workspace} {t : TypeExpr} {l : Layout} {o : Object} {data : Bytes} {v : Value}
  {α β : Type}

theorem fst_bind_of_error {m : Session α} {f : α → Session β} {fault : Fault}
    (h : (m w).1 = .error fault) : ((m >>= f) w).1 = .error fault := by
  have hm : m w = (.error fault, (m w).2) := Prod.ext h rfl
  rw [bind_of_error hm]

/-- What is returned at the end is returned by the whole. -/
theorem returns_of_bind {m : Session α} {f : α → Session Object} {a : α} (hm : m w = (.ok a, after))
    (hf : Returns (f a) after v) : Returns (m >>= f) w v := by
  unfold Returns
  rw [bind_of_ok hm]
  exact hf

/-- An operation that only packed classes have goes on as if it were there for all types. -/
theorem bind_packedModel {name : String} (hname : w.catalog.HasPacked name) (f : Session α) :
    ((discard (packedModel name) : Session Unit) >>= fun _ => f) w = f w := by
  rw [bind_of_ok (packedModel_eq hname)]

theorem enter_viewAs {name : String} (h : (Entrance.viewAs name).Serves w.catalog t) :
    (Entrance.viewAs name).enter t o w = view t o w := by
  obtain ⟨rfl, hname⟩ := h
  exact bind_packedModel hname _

theorem read_decodeAs {name : String} (h : (Reading.decodeAs name).Serves w.catalog t) :
    (Reading.decodeAs name).read t o w = decode t o w := by
  obtain ⟨rfl, hname⟩ := h
  exact bind_packedModel hname _

/-- A view of a packet of bytes has these bytes. -/
theorem isView_borrow (hlen : (data.length : Int) = l.size) (w : Workspace) : ∃ root after,
    borrow (.plain (.packet l data)) w = (.ok root, after) ∧ w.store.Extends after.store ∧
      IsView after root l w.store.buffers.length 0 data := by
  have hextends := Store.extends_newView (Store.newWindow data w.store).2 l
    (Store.newWindow data w.store).1
  have hread := Store.read_newWindow w.store data hextends
  exact ⟨_, _, rfl, (Store.extends_newWindow w.store data).trans hextends,
    ⟨_, data.length, rfl, List.getElem?_concat_length, hread⟩, hlen⟩

section Lent

variable (hlayout : (w.catalog.compile t w.cache).1 = .ok l) (ho : o.lends? w.store = some data)

include hlayout ho

/-! ### Bytes that are rejected -/

theorem accepted_of_error {fault : CheckFault} (h : l.accept data = .error fault) :
    (accepted t o w).1 = .error fault.toFault := by
  obtain ⟨window, after, -, haccepted⟩ := accepted_of_lends hlayout ho
  rw [haccepted, h]
  rfl

/-- No way leads to a view or packet of bytes that are rejected. -/
theorem enter_of_error {fault : CheckFault} (h : l.accept data = .error fault) {e : Entrance}
    (he : e.Serves w.catalog t) : (e.enter t o w).1 = .error fault.toFault := by
  have haccepted := accepted_of_error hlayout ho h
  cases e with
  | view => exact fst_bind_of_error haccepted
  | packet => exact fst_bind_of_error haccepted
  | viewAs name =>
    rw [enter_viewAs he]
    exact fst_bind_of_error haccepted

/-- No way leads to a value of such bytes. -/
theorem read_of_error {fault : CheckFault} (h : l.accept data = .error fault) {r : Reading}
    (hr : r.Serves w.catalog t) : (r.read t o w).1 = .error fault.toFault := by
  have haccepted := accepted_of_error hlayout ho h
  cases r with
  | decode => exact fst_bind_of_error haccepted
  | decodeAs name =>
    rw [read_decodeAs hr]
    exact fst_bind_of_error haccepted
  | unpacked e => exact fst_bind_of_error (enter_of_error hlayout ho h hr)
  | borrowed => exact fst_bind_of_error (fst_bind_of_error haccepted)

/-! ### Bytes that are accepted -/

section Accepted

variable (haccept : l.accept data = .ok ())

include haccept

theorem accepted_of_ok : ∃ window after, after.store.read window = data ∧
    accepted t o w = (.ok (l, window), after) := by
  obtain ⟨window, after, hread, haccepted⟩ := accepted_of_lends hlayout ho
  rw [haccept] at haccepted
  exact ⟨window, after, hread, haccepted⟩

theorem check_of_ok : (check t o w).1 = .ok () := by
  obtain ⟨window, after, -, haccepted⟩ := accepted_of_ok hlayout ho haccept
  have hrun : check t o w = (.ok (), after) := bind_of_ok haccepted
  rw [hrun]

theorem exists_packet : ∃ after, packet t o w = (.ok (.plain (.packet l data)), after) := by
  obtain ⟨window, after, hread, haccepted⟩ := accepted_of_ok hlayout ho haccept
  refine ⟨after, ?_⟩
  unfold packet
  rw [bind_of_ok haccepted]
  simp only
  rw [bind_of_ok (read_eq hread)]
  rfl

theorem returns_decode (hv : l.decode data = .ok v) : Returns (decode t o) w v := by
  obtain ⟨window, after, hread, haccepted⟩ := accepted_of_ok hlayout ho haccept
  apply returns_of_bind haccepted
  exact returns_of_bind (read_eq hread) (unpackBytes_of_ok hv)

/-- Every way leads to a view or packet of bytes that are accepted, which is unpacked to what the
bytes are decoded to. -/
theorem enter_of_ok {e : Entrance} (he : e.Serves w.catalog t) :
    ∃ handle after, e.enter t o w = (.ok handle, after) ∧
      ∀ v, l.decode data = .ok v → Returns (unpack handle) after v := by
  obtain ⟨root, final, hview, buffer, offset, hroot⟩ := exists_view hlayout ho haccept
  cases e with
  | view => exact ⟨root, final, hview, fun v hv => hroot.returns_unpack hv⟩
  | viewAs name =>
    exact ⟨root, final, (enter_viewAs he).trans hview, fun v hv => hroot.returns_unpack hv⟩
  | packet =>
    obtain ⟨after, hpacket⟩ := exists_packet hlayout ho haccept
    exact ⟨_, after, hpacket, fun v hv => unpackBytes_of_ok hv⟩

/-- Every way leads to the value that the bytes are decoded to. -/
theorem read_of_ok (hv : l.decode data = .ok v) {r : Reading} (hr : r.Serves w.catalog t) :
    Returns (r.read t o) w v := by
  cases r with
  | decode => exact returns_decode hlayout ho haccept hv
  | decodeAs name =>
    unfold Returns
    rw [read_decodeAs hr]
    exact returns_decode hlayout ho haccept hv
  | unpacked e =>
    obtain ⟨handle, after, henter, hunpack⟩ := enter_of_ok hlayout ho haccept hr
    exact returns_of_bind henter (hunpack v hv)
  | borrowed =>
    obtain ⟨after, hpacket⟩ := exists_packet hlayout ho haccept
    have hlen := (Layout.accept_eq_ok haccept).1
    obtain ⟨root, final, hborrow, -, hroot⟩ := isView_borrow hlen after
    exact returns_of_bind hpacket (returns_of_bind hborrow (hroot.returns_unpack hv))

end Accepted

/-- All ways to read bytes end as the layout judges these. -/
theorem readAlike (hcache : Cache.Reached w.cache) (hl : l.LengthsNonneg)
    {verdict : Except PackError Unit} (h : l.Judges data verdict) :
    ReadAlike w t o l data verdict := by
  have haccept := h.accept_eq
  cases verdict with
  | error e =>
    have hcheck : (check t o w).1 = .error (.pack e) :=
      fst_bind_of_error (accepted_of_error hlayout ho haccept)
    refine ⟨hcheck, fun entrance he => ?_, nofun, nofun, fun _ heq r hr => ?_, nofun⟩
    · rw [enter_of_error hlayout ho haccept he]
      rfl
    · cases heq
      exact read_of_error hlayout ho haccept hr
  | ok u =>
    have hnames := Catalog.closed_of_compile closed_namesNodup hcache hlayout
    obtain ⟨hlen, hcheck⟩ := Layout.accept_eq_ok haccept
    obtain ⟨v, hv, -⟩ := l.exists_decode hl hnames data hlen hcheck
    refine ⟨check_of_ok hlayout ho haccept, fun entrance he => ?_,
      fun _ => exists_view hlayout ho haccept, fun _ => exists_packet hlayout ho haccept, nofun,
      fun _ => ⟨v, hv, fun r hr => read_of_ok hlayout ho haccept hv hr⟩⟩
    obtain ⟨handle, after, henter, -⟩ := enter_of_ok hlayout ho haccept he
    rw [henter]
    rfl

end Lent

/-! ### Both ways -/

/-- All ways to read the bytes that an object lends end as the layout of the type judges these
bytes, and all ways to write an object end alike, apart from operations of an instance that a field
hides, which fail. -/
theorem ways_agree (hcache : Cache.Reached w.cache) :
    (∀ t l o data, (w.catalog.compile t w.cache).1 = .ok l → l.LengthsNonneg →
      o.lends? w.store = some data →
        ∃ verdict, l.Judges data verdict ∧ ReadAlike w t o l data verdict) ∧
    ∀ o, WrittenAlike w o := by
  refine ⟨?_, writtenAlike w⟩
  intro t l o data hlayout hl ho
  obtain ⟨verdict, hverdict⟩ := Layout.exists_judges hl data
  exact ⟨verdict, hverdict, readAlike hlayout ho hcache hl hverdict⟩

/-- The bytes of a message. -/
def messageBytes : Bytes := [255, 1, 0xC3, 0xA9, 2, 0xC3, 0xA9, 0, 128, 7]

/-- A message is read alike as a message of the class, from a view, and from a view of a packet; a
message that lacks its last byte is rejected for its size by all of them. -/
theorem message_is_read_alike :
    (∃ v, messageLayout.decode messageBytes = .ok v ∧
      Returns (decodeAs "Message" (.plain (.bytes messageBytes))) messageWorkspace v ∧
      Returns (do unpack (← borrow (← packet (.named "Message") (.plain (.bytes messageBytes)))))
        messageWorkspace v) ∧
    (decodeAs "Message" (.plain (.bytes messageBytes.dropLast)) messageWorkspace).1 =
      .error (.pack ⟨"Message", .size 10 9, []⟩) ∧
    (check (.named "Message") (.plain (.bytes messageBytes.dropLast)) messageWorkspace).1 =
      .error (.pack ⟨"Message", .size 10 9, []⟩) := by
  have hread := (ways_agree (w := messageWorkspace) .empty).1
  have hpacked : messageWorkspace.catalog.HasPacked "Message" := ⟨_, rfl, by decide⟩
  constructor
  · have hlen : ((messageBytes : Bytes).length : Int) = messageLayout.size := by decide
    have hcheck : messageLayout.check messageBytes = .ok () :=
      (Layout.check_eq_ok_iff lengthsNonneg_message hlen).2 (by decide)
    obtain ⟨verdict, hverdict, halike⟩ := hread (.named "Message") messageLayout
      (.plain (.bytes messageBytes)) messageBytes layoutOf_message lengthsNonneg_message rfl
    have hok : verdict = .ok () := by
      have hsame := hverdict.rightSize hlen
      rw [hcheck] at hsame
      exact mapError_eq_ok_iff.1 hsame.symm
    obtain ⟨v, hv, hvalues⟩ := halike.read hok
    exact ⟨v, hv, hvalues (.decodeAs "Message") ⟨rfl, hpacked⟩, hvalues .borrowed trivial⟩
  · obtain ⟨verdict, hverdict, halike⟩ := hread (.named "Message") messageLayout
      (.plain (.bytes messageBytes.dropLast)) messageBytes.dropLast layoutOf_message
      lengthsNonneg_message rfl
    have herror := hverdict.wrongSize (by decide)
    refine ⟨halike.rejected _ herror (.decodeAs "Message") ⟨rfl, hpacked⟩, ?_⟩
    rw [halike.check, herror]
    rfl

/-- A class with a field that has the name of an operation. -/
def crateModel : ModelDef :=
  .root .struct "Crate" [⟨"to_bytes", .fixedInt .u8, some (.int 0), .null⟩] none none

/-- The layout of the class. -/
def crateLayout : Layout :=
  .composite (.model ⟨"Crate", [], false, ["to_bytes"]⟩)
    (.cons "to_bytes" (some "to_bytes") (.int .u8) .nil)

/-- A workspace with the definition of the class and an instance. -/
def crateWorkspace : Workspace :=
  ⟨[.model crateModel], [],
    ⟨[], [(⟨"Crate", [], false, ["to_bytes"]⟩, [("to_bytes", .plain (.int 7))])], []⟩, []⟩

/-- An instance is encoded and packed, and its own operation packs it as well. The one that gives
the bytes of the packet is hidden by a field, and fails. -/
theorem hidden_ways_disagree :
    crateWorkspace.catalog.HasPacked "Crate" ∧
      (encode (.record 0) none crateWorkspace).1 = .ok [7] ∧
      (pack (.record 0) none crateWorkspace).1 = .ok (.plain (.packet crateLayout [7])) ∧
      (packInstance (.record 0) crateWorkspace).1 = .ok (.plain (.packet crateLayout [7])) ∧
      instanceBytes (.record 0) crateWorkspace = (.error .unsuitable, crateWorkspace) :=
  ⟨⟨crateModel, rfl, by decide⟩, by cbv, by cbv, by cbv, by cbv⟩

end Session

end FixedLayout
